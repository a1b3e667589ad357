import RagFlow.Outline
import RagFlow.RoseTree

/-! # Trees of outlines

A tree of headings is grown heading by heading: the search for the parent of a new one goes down the
last children, and stops at a heading that is one level higher, or at a leaf.

`nested_iff`: every heading is under the closest heading before it of a lower level exactly if each
of these is one level higher or directly before. -/

namespace RagFlow.Outline

open RoseTree RoseTree.Rose

variable {β : Type} [LinearOrder β] {level : β → ℤ}

/-! ### The closest heading of a lower level -/

theorem Encloses.unique {bs : List β} {h h' c : β} (henc : Encloses level bs h c)
    (henc' : Encloses level bs h' c) : h = h' := by
  rcases lt_trichotomy h h' with hlt | heq | hlt
  · exact absurd henc'.lower (not_lt.mpr (henc.closest h' henc'.mem hlt henc'.before))
  · exact heq
  · exact absurd henc.lower (not_lt.mpr (henc'.closest h henc.mem hlt henc.before))

/-- A heading at the end does not matter to those before it. -/
theorem encloses_snoc {bs : List β} {h b c : β} (hcb : c < b) :
    Encloses level (bs ++ [b]) h c ↔ Encloses level bs h c := by
  constructor
  · rintro ⟨hmem, hbefore, hlower, hclosest⟩
    refine ⟨?_, hbefore, hlower, fun k hk => hclosest k (List.mem_append_left _ hk)⟩
    rcases List.mem_append.mp hmem with hmem | hmem
    · exact hmem
    · rw [List.mem_singleton.mp hmem] at hbefore
      exact absurd (hbefore.trans hcb) (lt_irrefl _)
  · rintro ⟨hmem, hbefore, hlower, hclosest⟩
    refine ⟨List.mem_append_left _ hmem, hbefore, hlower, fun k hk hhk hkc => ?_⟩
    rcases List.mem_append.mp hk with hk | hk
    · exact hclosest k hk hhk hkc
    · rw [List.mem_singleton.mp hk] at hkc
      exact absurd (hkc.trans hcb) (lt_irrefl _)

/-- What is around a heading is a part of every chain with it. -/
theorem Around.of_suffix {bs : List β} {c p : β} {outer outer' : List β}
    (h : Around level bs c outer) (hsuffix : p :: outer' <:+ c :: outer) :
    Around level bs p outer' := by
  induction outer generalizing c with
  | nil =>
      obtain ⟨rfl, rfl⟩ := List.cons.inj (hsuffix.eq_of_length_le (by
        rw [List.length_cons, List.length_cons, List.length_nil]
        omega))
      exact h
  | cons a outer ih =>
      rcases List.suffix_cons_iff.mp hsuffix with heq | hsuffix
      · obtain ⟨rfl, rfl⟩ := List.cons.inj heq
        exact h
      · exact ih h.2 hsuffix

/-! ### Growing a tree -/

variable (level)

/-- The search for the parent of `b` stops at `a`. -/
def stopAt (b a : β) : Bool := decide (level b = level a + 1)

def grow (t : Rose β) (b : β) : Rose β := attach (stopAt level b) b t

/-- The tree of the headings `bs` under the root `r`. -/
def outlineTree (r : β) (bs : List β) : Rose β := bs.foldl (grow level) (node r [])

section tree

omit [LinearOrder β]

theorem outlineTree_snoc (r : β) (bs : List β) (b : β) :
    outlineTree level r (bs ++ [b]) = grow level (outlineTree level r bs) b := by
  unfold outlineTree
  rw [List.foldl_append]
  rfl

theorem preorder_outlineTree (r : β) (bs : List β) :
    (outlineTree level r bs).preorder = r :: bs := by
  induction bs using List.reverseRecOn with
  | nil => rfl
  | append_singleton bs b ih =>
      rw [outlineTree_snoc, grow, preorder_attach, ih]
      rfl

/-- Every heading is attached once. -/
theorem edges_outlineTree (r : β) (bs : List β) :
    (outlineTree level r bs).edges.map Prod.snd = bs := by
  induction bs using List.reverseRecOn with
  | nil => rfl
  | append_singleton bs b ih =>
      obtain ⟨p, -, hedges⟩ := @edges_attach β (stopAt level b) b (outlineTree level r bs)
      rw [outlineTree_snoc, grow, hedges, List.map_append, ih]
      rfl

end tree

/-- The path from the root to the last heading. -/
def openPath (r : β) (bs : List β) : List β :=
  bs.foldl (fun path b => upTo (stopAt level b) path ++ [b]) [r]

/-- Every heading is under the closest one before it of a lower level. -/
def Nested (r : β) (bs : List β) : Prop :=
  ∀ e ∈ (outlineTree level r bs).edges, Encloses level (r :: bs) e.1 e.2

/-- The closest heading before of a lower level is one level higher, or directly before. -/
def Stepwise (r : β) (bs : List β) (b : β) : Prop :=
  ∃ p, Encloses level (r :: bs) p b ∧ (level b = level p + 1 ∨ ∀ k ∈ r :: bs, p < k → b ≤ k)

variable {level}

section step
variable {r b : β} {bs : List β}

variable (level) in
/-- The end of the spine, from the inside out. -/
structure Open (r : β) (bs : List β) (spine : List β) (c : β) (outer : List β) : Prop where
  root : spine.head? = some r
  inside_out : spine.reverse = c :: outer
  around : Around level (r :: bs) c outer
  mem : c ∈ r :: bs
  last : ∀ k ∈ r :: bs, k ≤ c

/-- The closest heading before a new one of a lower level is on the spine. -/
theorem Open.exists_encloses {spine : List β} {c : β} {outer : List β}
    (h : Open level r bs spine c outer) (hb : ∀ k ∈ r :: bs, k < b)
    (hr : level r < level b) :
    ∃ p ∈ c :: outer, Encloses level (r :: bs ++ [b]) p b := by
  have hsnoc : ∀ p, Encloses level (r :: bs) p b → Encloses level (r :: bs ++ [b]) p b := by
    rintro p ⟨hmem, hbefore, hlower, hclosest⟩
    refine ⟨List.mem_append_left _ hmem, hbefore, hlower, fun k hk hpk hkb => ?_⟩
    rcases List.mem_append.mp hk with hk | hk
    · exact hclosest k hk hpk hkb
    · rw [List.mem_singleton.mp hk]
  by_cases hcb : level c < level b
  · refine ⟨c, List.mem_cons_self, hsnoc c ⟨h.mem, hb c h.mem, hcb, fun k hk hck _ => ?_⟩⟩
    exact absurd hck (not_lt.mpr (h.last k hk))
  · have hbc : level b ≤ level c := not_lt.mp hcb
    have hge : ∀ k ∈ r :: bs, c ≤ k → level b ≤ level k := by
      intro k hk hck
      rw [le_antisymm (h.last k hk) hck]
      exact hbc
    have hclose := h.around.close hb hge hbc
    cases hdrop : outer.dropWhile (fun a => decide (level b ≤ level a)) with
    | nil =>
        have hroot : r ∈ c :: outer := by
          rw [← h.inside_out, List.mem_reverse]
          exact List.mem_of_mem_head? h.root
        rcases List.mem_cons.mp hroot with rfl | hroot
        · exact absurd hr hcb
        · have hall := List.dropWhile_eq_nil_iff.mp hdrop r hroot
          rw [decide_eq_true_iff] at hall
          exact absurd hr (not_lt.mpr hall)
    | cons p rest =>
        rw [hdrop] at hclose
        refine ⟨p, List.mem_cons_of_mem _ ?_, hsnoc p hclose.1⟩
        have hsub := List.dropWhile_suffix (l := outer) (fun a => decide (level b ≤ level a))
        rw [hdrop] at hsub
        exact hsub.mem List.mem_cons_self

/-- The parent found is the closest heading before of a lower level exactly if this is one level
higher or directly before. -/
theorem Open.encloses_iff {spine : List β} {c p : β} {outer : List β}
    (h : Open level r bs spine c outer) (hb : ∀ k ∈ r :: bs, k < b)
    (hr : level r < level b) (hp : (upTo (stopAt level b) spine).getLast? = some p) :
    Encloses level (r :: bs ++ [b]) p b ↔ Stepwise level r (bs ++ [b]) b := by
  have hspine : spine = outer.reverse ++ [c] := by
    rw [← List.reverse_reverse spine, h.inside_out, List.reverse_cons]
  have hlast : spine.getLast? = some c := by
    rw [hspine, List.getLast?_concat]
  have hafter : ∀ k ∈ r :: bs ++ [b], c < k → b ≤ k := by
    intro k hk hck
    rcases List.mem_append.mp hk with hk | hk
    · exact absurd hck (not_lt.mpr (h.last k hk))
    · rw [List.mem_singleton.mp hk]
  constructor
  · intro henc
    refine ⟨p, henc, ?_⟩
    rcases getLast?_upTo _ _ hp with hstop | hpc
    · exact Or.inl (of_decide_eq_true hstop)
    · rw [hlast] at hpc
      cases hpc
      exact Or.inr hafter
  · rintro ⟨q, henc, hstep⟩
    -- `q` is on the spine, which has one heading of each level at most
    obtain ⟨q', hmem, henc'⟩ := h.exists_encloses hb hr
    obtain rfl := henc.unique henc'
    have hincreasing : spine.Pairwise (fun a b => level a < level b) := by
      rw [← List.reverse_reverse spine, List.pairwise_reverse, h.inside_out]
      exact h.around.pairwise
    have hq : q ∈ spine := by
      rw [← List.mem_reverse, h.inside_out]
      exact hmem
    obtain ⟨l, l', rfl⟩ := List.append_of_mem hq
    obtain ⟨-, hright, hleft⟩ := List.pairwise_append.mp hincreasing
    have hbefore : ∀ a ∈ l, stopAt level b a = false := by
      intro a ha
      have hlt := hleft a ha q List.mem_cons_self
      have hlower := henc.lower
      exact decide_eq_false (by omega)
    suffices hpq : p = q by
      rw [hpq]
      exact henc
    by_cases hstop : stopAt level b q
    · rw [upTo_of_mem hstop hbefore, List.getLast?_concat] at hp
      exact (Option.some.inj hp).symm
    · rcases hstep with hstep | hnone
      · exact absurd (decide_eq_true hstep) hstop
      · -- nothing is between, so `q` is the last heading
        have hqc : q = c := by
          rcases List.mem_append.mp (show q ∈ (r :: bs) ++ [b] from henc.mem) with hqbs | hqb
          · rcases (h.last q hqbs).lt_or_eq with hlt | heq
            · exact absurd (hb c h.mem) (not_lt.mpr (hnone c (List.mem_append_left _ h.mem) hlt))
            · exact heq
          · rw [List.mem_singleton.mp hqb] at henc
            exact absurd henc.before (lt_irrefl _)
        have hnil : l' = [] := by
          cases l' with
          | nil => rfl
          | cons a l' =>
              have hmemc : c ∈ a :: l' := by
                rw [List.getLast?_append, List.getLast?_cons_cons] at hlast
                cases hl : (a :: l').getLast? with
                | none => simp at hl
                | some d =>
                    rw [hl] at hlast
                    cases hlast
                    exact List.mem_of_getLast? hl
              have hlt := (List.pairwise_cons.mp hright).1 c hmemc
              rw [hqc] at hlt
              exact absurd hlt (lt_irrefl _)
        have hall : ∀ a ∈ l ++ [q], stopAt level b a = false := by
          intro a ha
          rcases List.mem_append.mp ha with ha | ha
          · exact hbefore a ha
          · rw [List.mem_singleton.mp ha]
            exact Bool.eq_false_iff.mpr hstop
        rw [hnil, upTo_of_forall hall, List.getLast?_concat] at hp
        exact (Option.some.inj hp).symm

/-- The open end after the next heading. -/
theorem Open.snoc {spine : List β} {c p : β} {outer : List β}
    (h : Open level r bs spine c outer) (hb : ∀ k ∈ r :: bs, k < b)
    (hp : (upTo (stopAt level b) spine).getLast? = some p)
    (henc : Encloses level (r :: bs ++ [b]) p b) :
    ∃ outer', Open level r (bs ++ [b]) (upTo (stopAt level b) spine ++ [b]) b outer' := by
  have hprefix := upTo_prefix (stopAt level b) spine
  have hsuffix : (upTo (stopAt level b) spine).reverse <:+ c :: outer := by
    rw [← h.inside_out]
    exact List.reverse_suffix.mpr hprefix
  obtain ⟨outer', hrev⟩ : ∃ outer', (upTo (stopAt level b) spine).reverse = p :: outer' := by
    rw [List.getLast?_eq_head?_reverse] at hp
    exact ⟨_, (List.head?_eq_some_iff.mp hp).choose_spec⟩
  rw [hrev] at hsuffix
  have haround := h.around.of_suffix hsuffix
  refine ⟨p :: outer', ?_, ?_, ?_, ?_, ?_⟩
  · rw [List.head?_append, head?_upTo, h.root]
    rfl
  · rw [List.reverse_append, hrev]
    rfl
  · exact ⟨henc, haround.snoc henc.before.le⟩
  · exact List.mem_append_right (r :: bs) List.mem_cons_self
  · intro k hk
    rcases List.mem_append.mp (show k ∈ (r :: bs) ++ [b] from hk) with hk | hk
    · exact (hb k hk).le
    · exact (List.mem_singleton.mp hk).le

end step

/-- A heading at the end does not matter to the headings before it. -/
theorem stepwise_snoc {r b x : β} {bs : List β} (hxb : x < b) :
    Stepwise level r (bs ++ [b]) x ↔ Stepwise level r bs x := by
  unfold Stepwise
  refine exists_congr (fun p => and_congr (@encloses_snoc β _ level (r :: bs) p b x hxb)
    (or_congr_right ?_))
  constructor
  · exact fun h k hk => h k (List.mem_append_left [b] hk)
  · intro h k hk hpk
    rcases List.mem_append.mp (show k ∈ (r :: bs) ++ [b] from hk) with hk | hk
    · exact h k hk hpk
    · rw [List.mem_singleton.mp hk]
      exact hxb.le

theorem nested_snoc {r b p : β} {bs : List β} (hb : ∀ k ∈ bs, k < b)
    (hedges : (outlineTree level r (bs ++ [b])).edges =
      (outlineTree level r bs).edges ++ [(p, b)]) :
    Nested level r (bs ++ [b]) ↔ Nested level r bs ∧ Encloses level (r :: bs ++ [b]) p b := by
  have hold : ∀ e ∈ (outlineTree level r bs).edges, e.2 < b := by
    intro e he
    have hmem := List.mem_map_of_mem (f := Prod.snd) he
    rw [edges_outlineTree] at hmem
    exact hb e.2 hmem
  unfold Nested
  rw [hedges, List.forall_mem_append, List.forall_mem_singleton]
  refine and_congr_left' (forall₂_congr (fun e he => ?_))
  exact @encloses_snoc β _ level (r :: bs) e.1 b e.2 (hold e he)

/-- The headings are nested exactly if each is under one that is one level higher, or under the one
directly before it. -/
theorem nested_iff {r : β} {bs : List β} (hbs : (r :: bs).Pairwise (· < ·))
    (hr : ∀ b ∈ bs, level r < level b) :
    Nested level r bs ↔ ∀ b ∈ bs, Stepwise level r bs b := by
  suffices h : (Nested level r bs ↔ ∀ b ∈ bs, Stepwise level r bs b) ∧
      (Nested level r bs → ∃ c outer,
        Open level r bs (outlineTree level r bs).spine c outer) from h.1
  induction bs using List.reverseRecOn with
  | nil =>
      refine ⟨iff_of_true (fun e he => absurd he List.not_mem_nil)
        (fun b hb => absurd hb List.not_mem_nil), fun _ => ⟨r, [], rfl, rfl, ?_, ?_, ?_⟩⟩
      · intro k hk hkr
        rw [List.mem_singleton.mp hk] at hkr
        exact absurd hkr (lt_irrefl _)
      · exact List.mem_cons_self
      · exact fun k hk => (List.mem_singleton.mp hk).le
  | append_singleton bs b ih =>
      rw [← List.cons_append] at hbs
      obtain ⟨hold, -, hlt⟩ := List.pairwise_append.mp hbs
      have hb : ∀ k ∈ r :: bs, k < b := fun k hk => hlt k hk b List.mem_cons_self
      have hb' : ∀ k ∈ bs, k < b := fun k hk => hb k (List.mem_cons_of_mem _ hk)
      obtain ⟨hiff, hopen⟩ := ih hold (fun k hk => hr k (List.mem_append_left _ hk))
      obtain ⟨p, hp, hedges⟩ := @edges_attach β (stopAt level b) b (outlineTree level r bs)
      rw [← grow, ← outlineTree_snoc] at hedges
      have hrb := hr b (List.mem_append_right _ List.mem_cons_self)
      have hnested := nested_snoc hb' hedges
      constructor
      · rw [hnested, List.forall_mem_append, List.forall_mem_singleton]
        have hstep : (∀ x ∈ bs, Stepwise level r (bs ++ [b]) x) ↔ Nested level r bs := by
          rw [hiff]
          exact forall₂_congr (fun x hx => stepwise_snoc (hb' x hx))
        rw [hstep]
        refine and_congr_right (fun h => ?_)
        obtain ⟨c, outer, hspine⟩ := hopen h
        exact hspine.encloses_iff hb hrb hp
      · intro h
        obtain ⟨hbefore, henc⟩ := hnested.mp h
        obtain ⟨c, outer, hspine⟩ := hopen hbefore
        obtain ⟨outer', hnext⟩ := hspine.snoc hb hp henc
        refine ⟨b, outer', ?_⟩
        rw [outlineTree_snoc, grow, spine_attach]
        exact hnext

/-! ### Height -/

omit [LinearOrder β]

theorem openPath_snoc (r : β) (bs : List β) (b : β) :
    openPath level r (bs ++ [b]) = upTo (stopAt level b) (openPath level r bs) ++ [b] := by
  unfold openPath
  rw [List.foldl_append]
  rfl

theorem spine_outlineTree (r : β) (bs : List β) :
    (outlineTree level r bs).spine = openPath level r bs := by
  induction bs using List.reverseRecOn with
  | nil => rfl
  | append_singleton bs b ih => rw [outlineTree_snoc, grow, spine_attach, ih, openPath_snoc]

/-- The height is the length of the longest path that was open. -/
theorem height_outlineTree_le_iff (r : β) (bs : List β) (k : ℕ) :
    (outlineTree level r bs).height ≤ k ↔
      ∀ pre, pre <+: bs → (openPath level r pre).length ≤ k + 1 := by
  induction bs using List.reverseRecOn with
  | nil =>
      refine iff_of_true (Nat.zero_le k) (fun pre hpre => ?_)
      rw [List.prefix_nil.mp hpre]
      exact Nat.succ_le_succ (Nat.zero_le k)
  | append_singleton bs b ih =>
      rw [outlineTree_snoc, grow, height_attach, spine_outlineTree, Nat.max_le, ih]
      have hlast : (openPath level r (bs ++ [b])).length =
          (upTo (stopAt level b) (openPath level r bs)).length + 1 := by
        rw [openPath_snoc, List.length_append]
        rfl
      constructor
      · rintro ⟨hbefore, hle⟩ pre hpre
        rcases List.prefix_concat_iff.mp hpre with rfl | hpre
        · omega
        · exact hbefore pre hpre
      · intro h
        refine ⟨fun pre hpre => h pre (hpre.trans (List.prefix_append bs [b])), ?_⟩
        have hle := h (bs ++ [b]) (List.prefix_refl _)
        omega

end RagFlow.Outline
