import Mathlib.Tactic.SplitIfs
import RagFlow.PyStr

/-! # Splitting a text into children

`split_with_pattern` of `rag/nlp/__init__.py` splits a text at the matches of a delimiter pattern
and puts each delimiter after the piece before it.

* **Patterns.** A compiled pattern without groups of its own, put into one group, is known by its
  searches (`Pattern`).  Each match goes on where the last one ended, and after an empty match the
  next one is not empty at the same place; so there are finitely many (`matchesFrom`).
* **Splitting.** `split` is `Pattern.split`: pieces and delimiters in turn.
* **The defect.** An empty piece is skipped together with its delimiter.  `children_cover_iff`: the
  children cover the text exactly when every delimiter has something before it. -/

namespace RagFlow.Nlp

open Py

/-! ### Patterns -/

/-- A compiled pattern.  `search s pos advance` is the first match at or after `pos`, from its start
to its end; with `advance` it is not an empty one at `pos`. -/
structure Pattern where
  search : Str → ℕ → Bool → Option (ℕ × ℕ)
  span : ∀ {s pos advance a b}, search s pos advance = some (a, b) → pos ≤ a ∧ a ≤ b ∧ b ≤ s.length
  advances : ∀ {s pos a b}, search s pos true = some (a, b) → pos < b

/-- The pattern of a single character. -/
def Pattern.char (c : Char) : Pattern where
  search s pos _ := ((s.drop pos).findIdx? (· = c)).map (fun i => (pos + i, pos + i + 1))
  span := by
    intro s pos advance a b h
    obtain ⟨i, hi, heq⟩ := Option.map_eq_some_iff.mp h
    cases heq
    obtain ⟨hlt, -⟩ := List.findIdx?_eq_some_iff_getElem.mp hi
    rw [List.length_drop] at hlt
    omega
  advances := by
    intro s pos a b h
    obtain ⟨i, -, heq⟩ := Option.map_eq_some_iff.mp h
    cases heq
    omega

/-- The matches of the pattern from left to right. -/
def Pattern.matchesFrom (p : Pattern) (s : Str) (pos : ℕ) (advance : Bool) : List (ℕ × ℕ) :=
  match hsearch : p.search s pos advance with
  | none => []
  | some (a, b) => (a, b) :: p.matchesFrom s b (a = b)
termination_by 2 * (s.length - pos) + if advance then 0 else 1
decreasing_by
  obtain ⟨hpos, hab, hlen⟩ := p.span hsearch
  cases advance with
  | true =>
      have hlt := p.advances hsearch
      rw [if_pos rfl]
      split_ifs <;> omega
  | false =>
      rw [if_neg Bool.false_ne_true]
      by_cases heq : a = b
      · rw [if_pos (decide_eq_true heq)]
        omega
      · rw [if_neg (by rw [decide_eq_true_iff]; exact heq)]
        omega

theorem Pattern.matchesFrom_of_none {p : Pattern} {s : Str} {pos : ℕ} {advance : Bool}
    (h : p.search s pos advance = none) : p.matchesFrom s pos advance = [] := by
  rw [matchesFrom]
  split
  · rfl
  · next hsome =>
      rw [h] at hsome
      cases hsome

theorem Pattern.matchesFrom_of_some {p : Pattern} {s : Str} {pos a b : ℕ} {advance : Bool}
    (h : p.search s pos advance = some (a, b)) :
    p.matchesFrom s pos advance = (a, b) :: p.matchesFrom s b (a = b) := by
  rw [matchesFrom]
  split
  · next hnone =>
      rw [h] at hnone
      cases hnone
  · next hsome =>
      rw [h] at hsome
      cases hsome
      rfl

def Pattern.matches (p : Pattern) (s : Str) : List (ℕ × ℕ) := p.matchesFrom s 0 false

/-- The spans go on where the one before ends, and stay within the text. -/
def InOrder (len : ℕ) : ℕ → List (ℕ × ℕ) → Prop
  | _, [] => True
  | pos, (a, b) :: spans => pos ≤ a ∧ a ≤ b ∧ b ≤ len ∧ InOrder len b spans

theorem Pattern.matchesFrom_inOrder (p : Pattern) (s : Str) (pos : ℕ) (advance : Bool) :
    InOrder s.length pos (p.matchesFrom s pos advance) := by
  fun_induction p.matchesFrom s pos advance with
  | case1 => trivial
  | case2 pos advance a b hsearch ih =>
      obtain ⟨hpos, hab, hlen⟩ := p.span hsearch
      exact ⟨hpos, hab, hlen, ih⟩

/-! ### `split_with_pattern` -/

/-- `s[i:j]`. -/
def slice (s : Str) (i j : ℕ) : Str := (s.take j).drop i

/-- The pieces between the spans, and the spans in their places. -/
def splitAt (s : Str) : ℕ → List (ℕ × ℕ) → List Str
  | pos, [] => [s.drop pos]
  | pos, (a, b) :: spans => slice s pos a :: slice s a b :: splitAt s b spans

/-- `Pattern.split`. -/
def Pattern.split (p : Pattern) (s : Str) : List Str := splitAt s 0 (p.matches s)

/-- What is taken from elsewhere: the tokenizer, and the replacement of table tags. -/
structure TokenizeEnv where
  tokenize : Str → Str
  fineGrainedTokenize : Str → Str
  replaceTags : Str → Str

/-- A copy of the document `base` with the fields that are set. -/
structure Child (D : Type) where
  base : D
  contentWithWeight : Str
  contentLtks : Str
  contentSmLtks : Str

/-- `tokenize` on a copy of the document. -/
def tokenize {D : Type} (env : TokenizeEnv) (d : D) (txt : Str) : Child D :=
  let contentLtks := env.tokenize (env.replaceTags txt)
  { base := d, contentWithWeight := txt, contentLtks,
    contentSmLtks := env.fineGrainedTokenize contentLtks }

/-- The loop over the pieces, each with the delimiter after it. -/
def children {D : Type} (env : TokenizeEnv) (d : D) : List Str → List (Child D)
  | [] => []
  | [txt] => if txt = [] then [] else [tokenize env d txt]
  | txt :: delimiter :: rest =>
      if txt = [] then children env d rest
      else tokenize env d (txt ++ delimiter) :: children env d rest

/-- `split_with_pattern`; the pattern is `none` if it does not compile. -/
def splitWithPattern {D : Type} (env : TokenizeEnv) (d : D) (compiled : Option Pattern)
    (content : Str) : List (Child D) :=
  match compiled with
  | none => [tokenize env d content]
  | some p => children env d (p.split content)

/-! ### Covering the text -/

/-- No delimiter that is not empty starts where the piece before it does. -/
def Preceded : ℕ → List (ℕ × ℕ) → Prop
  | _, [] => True
  | pos, (a, b) :: spans => (a < b → pos < a) ∧ Preceded b spans

section cover
variable {D : Type} {env : TokenizeEnv} {d : D} {s : Str} {pos a b : ℕ}

/-- The texts of the children, put together. -/
def joined (cs : List (Child D)) : Str := (cs.map Child.contentWithWeight).flatten

theorem length_slice (hb : b ≤ s.length) : (slice s a b).length = b - a := by
  unfold slice
  rw [List.length_drop, List.length_take, min_eq_left hb]

theorem slice_append (hpos : pos ≤ a) (hab : a ≤ b) :
    slice s pos a ++ slice s a b = slice s pos b := by
  unfold slice
  obtain ⟨m, rfl⟩ := Nat.exists_eq_add_of_le hpos
  obtain ⟨n, rfl⟩ := Nat.exists_eq_add_of_le hab
  rw [List.drop_take, List.drop_take, List.drop_take, Nat.add_sub_cancel_left,
    Nat.add_sub_cancel_left, Nat.add_assoc pos m n, Nat.add_sub_cancel_left, List.take_add,
    List.drop_drop]

theorem slice_append_drop (hab : a ≤ b) : slice s a b ++ s.drop b = s.drop a := by
  unfold slice
  obtain ⟨m, rfl⟩ := Nat.exists_eq_add_of_le hab
  rw [List.drop_take, Nat.add_sub_cancel_left, ← List.drop_drop, List.take_append_drop]

/-- The children of the pieces from a place on, when the piece there is not empty or the delimiter
is. -/
theorem joined_children_cons (spans : List (ℕ × ℕ)) :
    joined (children env d (splitAt s pos ((a, b) :: spans))) =
      (if slice s pos a = [] then [] else slice s pos a ++ slice s a b) ++
        joined (children env d (splitAt s b spans)) := by
  rw [splitAt, children]
  split_ifs with hempty
  · rfl
  · rfl

theorem joined_children_nil : joined (children env d (splitAt s pos [])) = s.drop pos := by
  unfold splitAt children
  split_ifs with hempty
  · rw [hempty]
    rfl
  · exact List.append_nil _

theorem length_joined_le (spans : List (ℕ × ℕ)) : ∀ pos, InOrder s.length pos spans →
    (joined (children env d (splitAt s pos spans))).length ≤ s.length - pos := by
  induction spans with
  | nil =>
      intro pos _
      rw [joined_children_nil, List.length_drop]
  | cons span spans ih =>
      obtain ⟨a, b⟩ := span
      rintro pos ⟨hpos, hab, hlen, hrest⟩
      have hle := ih b hrest
      rw [joined_children_cons, List.length_append]
      split_ifs
      · rw [List.length_nil]
        omega
      · rw [List.length_append, length_slice (hab.trans hlen), length_slice hlen]
        omega

theorem joined_eq_iff (spans : List (ℕ × ℕ)) : ∀ pos, InOrder s.length pos spans →
    (joined (children env d (splitAt s pos spans)) = s.drop pos ↔ Preceded pos spans) := by
  induction spans with
  | nil => exact fun pos _ => iff_of_true joined_children_nil trivial
  | cons span spans ih =>
      obtain ⟨a, b⟩ := span
      rintro pos ⟨hpos, hab, hlen, hrest⟩
      rw [joined_children_cons]
      unfold Preceded
      rw [← ih b hrest]
      by_cases hempty : pos = a
      · have hslice : slice s pos a = [] := by
          rw [← List.length_eq_zero_iff, length_slice (hab.trans hlen)]
          omega
        rw [if_pos hslice, List.nil_append]
        by_cases hdelimiter : a < b
        · -- The delimiter is lost, and what is left is too short.
          have hshort : (joined (children env d (splitAt s b spans))).length ≤ s.length - b :=
            length_joined_le spans b hrest
          refine iff_of_false (fun heq => ?_) (fun h => absurd (h.1 hdelimiter) (by omega))
          rw [heq, List.length_drop] at hshort
          omega
        · have hsame : a = b := by omega
          subst hempty hsame
          exact ⟨fun h => ⟨fun hlt => absurd hlt hdelimiter, h⟩, fun h => h.2⟩
      · have hslice : slice s pos a ≠ [] := by
          rw [ne_eq, ← List.length_eq_zero_iff, length_slice (hab.trans hlen)]
          omega
        rw [if_neg hslice, slice_append hpos hab, ← slice_append_drop (hpos.trans hab),
          List.append_cancel_left_eq]
        exact ⟨fun h => ⟨fun _ => by omega, h⟩, fun h => h.2⟩

end cover

/-- **Children.**  The texts of the children make up the content exactly when each delimiter that is
not empty has something between itself and the delimiter before it, or the start. -/
theorem children_cover_iff {D : Type} (env : TokenizeEnv) (d : D) (p : Pattern) (content : Str) :
    joined (splitWithPattern env d (some p) content) = content ↔
      Preceded 0 (p.matches content) :=
  joined_eq_iff (p.matches content) 0 (p.matchesFrom_inOrder content 0 false)

/-! A text that starts with a line break and has an empty line, split at line breaks. -/

def plainTokens : TokenizeEnv := ⟨id, id, id⟩

theorem line_breaks_lost :
    (splitWithPattern plainTokens () (some (Pattern.char '\n')) "\na\n\nb").map
        Child.contentWithWeight = ["a\n".toList, "b".toList] ∧
      joined (splitWithPattern plainTokens () (some (Pattern.char '\n')) "\na\n\nb") ≠
        "\na\n\nb".toList := by
  have hmatches : (Pattern.char '\n').matches "\na\n\nb" = [(0, 1), (2, 3), (3, 4)] := by
    unfold Pattern.matches
    rw [Pattern.matchesFrom_of_some (a := 0) (b := 1) rfl,
      Pattern.matchesFrom_of_some (a := 2) (b := 3) rfl,
      Pattern.matchesFrom_of_some (a := 3) (b := 4) rfl, Pattern.matchesFrom_of_none rfl]
  unfold splitWithPattern Pattern.split
  dsimp only
  rw [hmatches]
  exact ⟨by decide, by decide⟩

end RagFlow.Nlp
