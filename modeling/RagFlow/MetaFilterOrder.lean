import Mathlib.Data.List.Perm.Basic
import RagFlow.MetaFilter

/-! # Order of a metadata filter

`filter_out` keeps one variable for the query value and overwrites it in every round, so a round can
see what the rounds before it made of the value.

* **Rounds.** `passes` says whether a metadata value matches a query value, `carried` what a
  sequence of rounds leaves of the query value.
* **Independence.** `OrderIndependent op value`: for every evaluation of literals, a metadata value
  matches or not whatever came before it.  `orderIndependent_iff`: this holds exactly for the
  operators that do not compare, and for query values that are dates or no strings. -/

namespace RagFlow.MetaFilter

open Py

/-! ### Rounds -/

section rounds

variable (rt : Runtime) (op : Operator)

/-- A metadata value matches the query value. -/
def passes (value input : PyVal) : Bool :=
  match prepare rt op input value with
  | (none, _) => false
  | (some input, value) => (matched? rt op input value).getD false

/-- What the rounds make of the query value. -/
def carried : ValueDocs → PyVal → PyVal
  | [], value => value
  | (input, _) :: v2docs, value => carried v2docs (prepare rt op input value).2

variable {rt op}

theorem filterOut_cons (input : PyVal) (docids : List DocId) (v2docs : ValueDocs) (value : PyVal) :
    filterOut rt op ((input, docids) :: v2docs) value =
      (if passes rt op value input then docids else []) ++
        filterOut rt op v2docs (prepare rt op input value).2 := by
  rw [filterOut, passes]
  rcases prepare rt op input value with ⟨_ | input', value'⟩
  · rfl
  · dsimp only
    split_ifs <;> rfl

/-- A document is found in the round of an entry that matches the value carried to it. -/
theorem mem_filterOut {d : DocId} {v2docs : ValueDocs} {value : PyVal} :
    d ∈ filterOut rt op v2docs value ↔ ∃ pre e post, v2docs = pre ++ e :: post ∧
      passes rt op (carried rt op pre value) e.1 = true ∧ d ∈ e.2 := by
  induction v2docs generalizing value with
  | nil =>
      refine iff_of_false List.not_mem_nil ?_
      rintro ⟨pre, e, post, h, -⟩
      simp at h
  | cons e v2docs ih =>
      obtain ⟨input, docids⟩ := e
      rw [filterOut_cons, List.mem_append, ih]
      constructor
      · rintro (h | ⟨pre, e, post, rfl, hpass, hd⟩)
        · split_ifs at h with hpass
          · exact ⟨[], (input, docids), v2docs, rfl, hpass, h⟩
          · cases h
        · exact ⟨(input, docids) :: pre, e, post, rfl, hpass, hd⟩
      · rintro ⟨pre, e, post, h, hpass, hd⟩
        cases pre with
        | nil =>
            obtain ⟨rfl, rfl⟩ := List.cons.inj h
            refine Or.inl ?_
            show d ∈ if passes rt op value input = true then docids else []
            rw [if_pos (show passes rt op value input = true from hpass)]
            exact hd
        | cons e' pre =>
            obtain ⟨rfl, rfl⟩ := List.cons.inj h
            exact Or.inr ⟨pre, e, post, rfl, hpass, hd⟩

end rounds

/-- The interpreter with another evaluation of literals. -/
def evaluating (rt : Runtime) (f : Str → Option PyVal) : Runtime := { rt with literalEval := f }

/-- Whatever strings are literals, whether a metadata value matches does not depend on what came
before it; the documents found are the same for each order of the map, and those that the entries
give one by one. -/
def OrderIndependent (rt : Runtime) (op : Operator) (value : PyVal) : Prop :=
  ∀ f : Str → Option PyVal,
    (∀ pre input, passes (evaluating rt f) op (carried (evaluating rt f) op pre value) input =
      passes (evaluating rt f) op value input) ∧
    ∀ v2docs : ValueDocs, (v2docs.map Prod.fst).Nodup →
      (∀ v2docs', v2docs'.Perm v2docs → ∀ d, d ∈ filterOut (evaluating rt f) op v2docs' value ↔
        d ∈ filterOut (evaluating rt f) op v2docs value) ∧
      ∀ d, d ∈ filterOut (evaluating rt f) op v2docs value ↔
        ∃ e ∈ v2docs, d ∈ filterOut (evaluating rt f) op [e] value

/-- The query values that all rounds see alike. -/
def Settled (rt : Runtime) (op : Operator) (value : PyVal) : Prop :=
  op.isComparison = false ∨ isDate rt (strip (rt.str value)) = true ∨ ∀ s, value ≠ .str s

/-! ### Values that all rounds see alike -/

section settled

variable {rt : Runtime} {op : Operator} {value : PyVal}

/-- The rounds preserve a relation to the query value if one round does. -/
theorem carried_induction {r : PyVal → Prop} (h0 : r value)
    (hstep : ∀ v input, r v → r (prepare rt op input v).2) (pre : ValueDocs) :
    r (carried rt op pre value) := by
  induction pre generalizing value with
  | nil => exact h0
  | cons e pre ih =>
      obtain ⟨input, docids⟩ := e
      exact ih (hstep value input h0)

theorem lowerIfStr_lowerIfStr (hlower : ∀ s, rt.lower (rt.lower s) = rt.lower s) (v : PyVal) :
    rt.lowerIfStr (rt.lowerIfStr v) = rt.lowerIfStr v := by
  cases v <;> simp [Runtime.lowerIfStr, hlower]

theorem passes_carried_other (hlower : ∀ s, rt.lower (rt.lower s) = rt.lower s)
    (hop : op.isComparison = false) (pre : ValueDocs) (input : PyVal) :
    passes rt op (carried rt op pre value) input = passes rt op value input := by
  have hprep : ∀ v input,
      prepare rt op input v = (some (rt.lowerIfStr input), rt.lowerIfStr v) := by
    intro v input
    unfold prepare
    rw [hop]
    rfl
  have hcarried : rt.lowerIfStr (carried rt op pre value) = rt.lowerIfStr value := by
    refine carried_induction (r := fun v => rt.lowerIfStr v = rt.lowerIfStr value) rfl ?_ pre
    intro v input hv
    rw [hprep, lowerIfStr_lowerIfStr hlower, hv]
  unfold passes
  rw [hprep, hprep, hcarried]

theorem passes_carried_date (hop : op.isComparison = true)
    (hdate : isDate rt (strip (rt.str value)) = true) (pre : ValueDocs) (input : PyVal) :
    passes rt op (carried rt op pre value) input = passes rt op value input := by
  have hprep : ∀ v input, strip (rt.str v) = strip (rt.str value) → prepare rt op input v =
      if isDate rt (strip (rt.str input)) then
        (some (.str (strip (rt.str input))), .str (strip (rt.str value)))
      else (none, v) := by
    intro v input hv
    unfold prepare
    rw [if_pos hop]
    dsimp only
    rw [hv, if_pos hdate]
  have hcarried : strip (rt.str (carried rt op pre value)) = strip (rt.str value) := by
    refine carried_induction (r := fun v => strip (rt.str v) = strip (rt.str value)) rfl ?_ pre
    intro v input hv
    rw [hprep v input hv]
    split_ifs
    · exact strip_strip _
    · exact hv
  unfold passes
  rw [hprep _ _ hcarried, hprep _ _ rfl]
  split_ifs <;> rfl

/-- A comparison with a value that is no date evaluates both sides and puts them in lower case. -/
theorem prepare_of_not_date (hop : op.isComparison = true)
    (hdate : isDate rt (strip (rt.str value)) ≠ true) (input : PyVal) :
    prepare rt op input value = (some (rt.lowerIfStr (evalBoth rt input value).1),
      rt.lowerIfStr (evalBoth rt input value).2) := by
  unfold prepare
  rw [if_pos hop]
  dsimp only
  rw [if_neg hdate]

/-- A query value that is no string is not evaluated. -/
theorem passes_carried_not_str (hop : op.isComparison = true)
    (hdate : isDate rt (strip (rt.str value)) ≠ true) (hstr : ∀ s, value ≠ .str s)
    (pre : ValueDocs) (input : PyVal) :
    passes rt op (carried rt op pre value) input = passes rt op value input := by
  have heval : rt.literal_eval value = none := by
    cases value with
    | str s => exact absurd rfl (hstr s)
    | _ => rfl
  have hlower : rt.lowerIfStr value = value := by
    cases value with
    | str s => exact absurd rfl (hstr s)
    | _ => rfl
  have hboth : ∀ input, (evalBoth rt input value).2 = value := by
    intro input
    unfold evalBoth
    rw [heval]
    dsimp only
    split
    · rfl
    · split
      · rfl
      · rfl
  have hcarried : carried rt op pre value = value := by
    refine carried_induction (r := fun v => v = value) rfl ?_ pre
    intro v input hv
    rw [hv, prepare_of_not_date hop hdate]
    dsimp only
    rw [hboth, hlower]
  rw [hcarried]

theorem passes_carried (hlower : ∀ s, rt.lower (rt.lower s) = rt.lower s)
    (h : Settled rt op value) (pre : ValueDocs) (input : PyVal) :
    passes rt op (carried rt op pre value) input = passes rt op value input := by
  cases hop : op.isComparison with
  | false => exact passes_carried_other hlower hop pre input
  | true =>
      by_cases hdate : isDate rt (strip (rt.str value)) = true
      · exact passes_carried_date hop hdate pre input
      · rcases h with h | h | h
        · rw [hop] at h
          cases h
        · exact absurd h hdate
        · exact passes_carried_not_str hop hdate h pre input

/-- If nothing that comes before matters, the documents are those of the single entries. -/
theorem mem_filterOut_of_passes
    (h : ∀ pre input, passes rt op (carried rt op pre value) input = passes rt op value input)
    (v2docs : ValueDocs) (d : DocId) :
    d ∈ filterOut rt op v2docs value ↔ ∃ e ∈ v2docs, passes rt op value e.1 = true ∧ d ∈ e.2 := by
  rw [mem_filterOut]
  constructor
  · rintro ⟨pre, e, post, rfl, hpass, hd⟩
    rw [h] at hpass
    exact ⟨e, by simp, hpass, hd⟩
  · rintro ⟨e, he, hpass, hd⟩
    obtain ⟨pre, post, rfl⟩ := List.append_of_mem he
    exact ⟨pre, e, post, rfl, by rw [h]; exact hpass, hd⟩

end settled

/-- A settled query value gives the same documents in every order. -/
theorem orderIndependent_of_settled {rt : Runtime} {op : Operator} {value : PyVal}
    (hlower : ∀ s, rt.lower (rt.lower s) = rt.lower s) (h : Settled rt op value) :
    OrderIndependent rt op value := by
  intro f
  have hpass : ∀ pre input, passes (evaluating rt f) op (carried (evaluating rt f) op pre value)
      input = passes (evaluating rt f) op value input :=
    @passes_carried (evaluating rt f) op value hlower h
  refine ⟨hpass, ?_⟩
  intro v2docs _
  refine ⟨?_, ?_⟩
  · intro v2docs' hperm d
    rw [mem_filterOut_of_passes hpass, mem_filterOut_of_passes hpass]
    constructor
    · rintro ⟨e, he, h⟩
      exact ⟨e, hperm.mem_iff.mp he, h⟩
    · rintro ⟨e, he, h⟩
      exact ⟨e, hperm.mem_iff.mpr he, h⟩
  · intro d
    rw [mem_filterOut_of_passes hpass]
    constructor
    · rintro ⟨e, he, hp, hd⟩
      exact ⟨e, he, (mem_filterOut_of_passes hpass _ _).mpr ⟨e, by simp, hp, hd⟩⟩
    · rintro ⟨e, he, hd⟩
      obtain ⟨e', he', hp, hd'⟩ := (mem_filterOut_of_passes hpass _ _).mp hd
      rw [List.mem_singleton.mp he'] at hp hd'
      exact ⟨e, he, hp, hd'⟩

/-! ### Strings that are no dates -/

/-- The evaluation that knows one literal: `s` is the text `t`. -/
def only (s t : Str) : Str → Option PyVal := fun x => if x = s then some (.str t) else none

section unsettled

variable {rt : Runtime} {op : Operator} {s t j : Str}

/-- A metadata value `j` is compared to the query value `s` in lower case, if `j` is no literal. -/
theorem passes_plain (hop : op.isComparison = true) {v : Str}
    (hdate : isDate rt (strip v) ≠ true) (hj : j ≠ s) :
    passes (evaluating rt (only s t)) op (.str v) (.str j) =
      (matched? (evaluating rt (only s t)) op (.str (rt.lower j))
        (.str (rt.lower v))).getD false := by
  have hnone : (evaluating rt (only s t)).literal_eval (.str j) = none := if_neg hj
  have hboth : evalBoth (evaluating rt (only s t)) (.str j) (.str v) = (.str j, .str v) := by
    unfold evalBoth
    dsimp only
    rw [hnone]
  have hprep := @prepare_of_not_date (evaluating rt (only s t)) op (.str v) hop hdate (.str j)
  unfold passes
  rw [hprep, hboth]
  rfl

/-- A round with the entry `s` replaces the query value `s` by `t`. -/
theorem carried_literal (hop : op.isComparison = true) (hdate : isDate rt (strip s) ≠ true)
    (docs : List DocId) :
    carried (evaluating rt (only s t)) op [(.str s, docs)] (.str s) = .str (rt.lower t) := by
  have hsome : (evaluating rt (only s t)).literal_eval (.str s) = some (.str t) := if_pos rfl
  have hboth : evalBoth (evaluating rt (only s t)) (.str s) (.str s) = (.str t, .str t) := by
    unfold evalBoth
    dsimp only
    rw [hsome]
  have hprep := @prepare_of_not_date (evaluating rt (only s t)) op (.str s) hop hdate (.str s)
  unfold carried carried
  rw [hprep, hboth]
  rfl

/-- What comes before matters if `t` compares to a metadata value otherwise than `s` does. -/
theorem not_orderIndependent (hop : op.isComparison = true) (hdate : isDate rt (strip s) ≠ true)
    (ht : rt.lower t = t) (htdate : isDate rt (strip t) ≠ true) (hj : j ≠ s)
    (hne : (matched? (evaluating rt (only s t)) op (.str (rt.lower j)) (.str t)).getD false ≠
      (matched? (evaluating rt (only s t)) op (.str (rt.lower j)) (.str (rt.lower s))).getD false) :
    ¬ OrderIndependent rt op (.str s) := by
  intro h
  have hpass := (h (only s t)).1 [(.str s, [])] (.str j)
  rw [carried_literal hop hdate, ht, passes_plain hop htdate hj, passes_plain hop hdate hj,
    ht] at hpass
  exact hne hpass

/-- A text that the letter `c`, one of the first two, matches (`true`) or does not match. -/
def sampleText (c : Char) : Operator → Bool → Str
  | .eq, true | .ne, false | .gt, false | .lt, false | .ge, true | .le, true => [c]
  | .lt, true | .ge, false => ['c']
  | _, _ => []

theorem matched_sampleText (rt : Runtime) (hop : op.isComparison = true) {c : Char}
    (hc : c = 'a' ∨ c = 'b') (b : Bool) :
    (matched? rt op (.str [c]) (.str (sampleText c op b))).getD false = b := by
  rcases hc with rfl | rfl <;> cases b <;> cases op <;> first | rfl | cases hop

/-- A short text is no date, and a letter is lower case. -/
theorem sampleText_spec (rt : Runtime) {c : Char} (hc : c = 'a' ∨ c = 'b') (op : Operator)
    (b : Bool) : rt.lower (sampleText c op b) = sampleText c op b ∧
      isDate rt (strip (sampleText c op b)) ≠ true := by
  have hshort : sampleText c op b = [] ∨ sampleText c op b = [c] ∨ sampleText c op b = ['c'] := by
    cases op <;> cases b <;> simp [sampleText]
  rcases hc with rfl | rfl <;> rcases hshort with h | h | h <;> rw [h] <;>
    exact ⟨rfl, by simp [isDate, strip, lstrip, rstrip, isSpace]⟩

theorem matched_comparison (rt rt' : Runtime) (hop : op.isComparison = true) (input value : PyVal) :
    matched? rt op input value = matched? rt' op input value := by
  cases op <;> first | rfl | cases hop

/-- A string that is no date is not settled: as a literal it may mean any text. -/
theorem not_orderIndependent_of_str (rt : Runtime) (hop : op.isComparison = true)
    (hdate : isDate rt (strip s) ≠ true) : ¬ OrderIndependent rt op (.str s) := by
  -- a metadata value other than the query value
  obtain ⟨c, hc, hcs⟩ : ∃ c : Char, (c = 'a' ∨ c = 'b') ∧ [c] ≠ s := by
    by_cases h : ['a'] = s
    · exact ⟨'b', Or.inr rfl, by rw [← h]; decide⟩
    · exact ⟨'a', Or.inl rfl, h⟩
  have hlowerc : rt.lower [c] = [c] := by
    rcases hc with rfl | rfl <;> rfl
  -- a text for which the comparison comes out otherwise
  obtain ⟨b, hb⟩ : ∃ b, b =
      !((matched? rt op (.str [c]) (.str (rt.lower s))).getD false) := ⟨_, rfl⟩
  obtain ⟨ht, htdate⟩ := sampleText_spec rt hc op b
  refine not_orderIndependent (t := sampleText c op b) hop hdate ht htdate hcs ?_
  rw [hlowerc, matched_sampleText _ hop hc, matched_comparison _ rt hop, hb]
  cases (matched? rt op (.str [c]) (.str (rt.lower s))).getD false <;> decide

end unsettled

/-- What matches does not depend on the order exactly if the operator does not compare, or the query
value is a date or no string. -/
theorem orderIndependent_iff (rt : Runtime) (hlower : ∀ s, rt.lower (rt.lower s) = rt.lower s)
    (op : Operator) (value : PyVal) : OrderIndependent rt op value ↔ Settled rt op value := by
  constructor
  · intro h
    by_contra hunsettled
    obtain ⟨hop, hdate, hstr⟩ : op.isComparison ≠ false ∧
        isDate rt (strip (rt.str value)) ≠ true ∧ ¬ ∀ s, value ≠ .str s := by
      refine ⟨fun hop => hunsettled (Or.inl hop), fun hd => hunsettled (Or.inr (Or.inl hd)), ?_⟩
      exact fun hstr => hunsettled (Or.inr (Or.inr hstr))
    rw [not_forall] at hstr
    obtain ⟨s, hs⟩ := hstr
    rw [not_not] at hs
    subst hs
    exact not_orderIndependent_of_str rt (by simpa using hop) hdate h
  · exact orderIndependent_of_settled hlower

theorem toLower_ascii {c : Char} (h : isAscii c = true) :
    isAscii c.toLower = true ∧ c.toLower.toLower = c.toLower := by
  have hall : ∀ n : Fin 128, isAscii (Char.ofNat n).toLower = true ∧
      (Char.ofNat n).toLower.toLower = (Char.ofNat n).toLower := by decide
  have hlt : c.toNat < 128 := of_decide_eq_true h
  have := hall ⟨c.toNat, hlt⟩
  rwa [Char.ofNat_toNat] at this

/-- Lower case in ASCII is stable. -/
theorem lower_lower_plain (s : Str) :
    Runtime.plain.lower (Runtime.plain.lower s) = Runtime.plain.lower s := by
  -- The letters of the result are lower case, whatever stands before them.
  have hletter : ∀ (s before : Str), ∀ c ∈ Runtime.plain.lowerAfter before s,
      c ≠ 'Σ' ∧ Runtime.plain.lower1 c = [c] := by
    intro s
    induction s with
    | nil => exact fun _ _ hc => (nomatch hc)
    | cons d s ih =>
        intro before c hc
        rw [CaseTable.lowerAfter] at hc
        rcases List.mem_append.mp hc with hc | hc
        · split_ifs at hc with hsigma hfinal
          · rw [List.mem_singleton.mp hc]
            decide
          · rw [List.mem_singleton.mp hc]
            decide
          · unfold CaseTable.lower1 at hc ⊢
            split at hc
            case isTrue hascii =>
              obtain ⟨h1, h2⟩ := toLower_ascii hascii
              rw [List.mem_singleton.mp hc, if_pos h1, h2]
              exact ⟨fun heq => absurd (heq ▸ h1) (by decide), rfl⟩
            case isFalse hascii =>
              rw [List.mem_singleton.mp hc, if_neg hascii]
              exact ⟨hsigma, rfl⟩
        · exact ih _ c hc
  have hfix : ∀ (t before : Str), (∀ c ∈ t, c ≠ 'Σ' ∧ Runtime.plain.lower1 c = [c]) →
      Runtime.plain.lowerAfter before t = t := by
    intro t
    induction t with
    | nil => exact fun _ _ => rfl
    | cons d t ih =>
        intro before ht
        obtain ⟨hne, hd⟩ := ht d List.mem_cons_self
        rw [CaseTable.lowerAfter, if_neg hne, hd, ih _ fun c hc => ht c (List.mem_cons_of_mem d hc)]
        rfl
  exact hfix _ [] (hletter s [])

theorem orderIndependent_contains : OrderIndependent .plain .contains (.str "Rag".toList) :=
  (orderIndependent_iff .plain lower_lower_plain .contains _).mpr (Or.inl rfl)

/-- Texts of digits are literals. -/
def digitRuntime : Runtime :=
  evaluating .plain fun s =>
    if s = "7".toList then some (.int 7) else if s = "5".toList then some (.int 5) else none

/-- With `7` first the query value `"5"` becomes a number, and the text is not compared with it. -/
theorem filterOut_order :
    filterOut digitRuntime .gt
        [(.str "7".toList, ["d1".toList]), (.str "abc".toList, ["d2".toList])] (.str "5".toList) =
      ["d1".toList] ∧
    filterOut digitRuntime .gt
        [(.str "abc".toList, ["d2".toList]), (.str "7".toList, ["d1".toList])] (.str "5".toList) =
      ["d2".toList, "d1".toList] ∧
    ¬ OrderIndependent .plain .gt (.str "5".toList) :=
  ⟨by rfl, by rfl, not_orderIndependent_of_str .plain rfl (by decide)⟩

end RagFlow.MetaFilter
