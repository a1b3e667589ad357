import RagFlow.Interval
import RagFlow.TaskService

/-! # The intervals of the tasks of a document

`queue_tasks` steps through a range of pages or rows and makes a task of each step.
`cuts_pyRange` says that such steps cut the range into pieces; `taskRanges_cuts` is what this means
for the pages of a PDF, range by range, and for the rows of a table. -/

namespace RagFlow

open Py Interval

/-! ### Stepping through a range -/

section steps
variable {start stop : ℤ} {step : ℕ}

theorem lt_ceilDiv_iff (hstep : 0 < step) (n i : ℕ) : i < (n + step - 1) / step ↔ i * step < n := by
  rw [Nat.lt_iff_add_one_le, Nat.le_div_iff_mul_le hstep, Nat.add_mul]
  omega

theorem mem_pyRange (hstep : 0 < step) {p : ℤ} :
    p ∈ pyRange start stop step ↔ ∃ i : ℕ, p = start + (i * step : ℕ) ∧ p < stop := by
  unfold pyRange
  rw [List.mem_map]
  constructor
  · rintro ⟨i, hi, rfl⟩
    rw [List.mem_range, lt_ceilDiv_iff hstep] at hi
    exact ⟨i, rfl, by omega⟩
  · rintro ⟨i, rfl, hlt⟩
    refine ⟨i, ?_, rfl⟩
    rw [List.mem_range, lt_ceilDiv_iff hstep]
    omega

/-- Two of the steps are at least `step` apart. -/
theorem pairwise_pyRange : (pyRange start stop step).Pairwise (fun p q : ℤ => p + step ≤ q) := by
  unfold pyRange
  rw [List.pairwise_map]
  refine List.pairwise_lt_range.imp (fun {i j} hij => ?_)
  have hmul : (i + 1) * step ≤ j * step := Nat.mul_le_mul_right step hij
  rw [Nat.add_mul] at hmul
  omega

/-- `range(start, stop, step)` cuts the interval into pieces of at most `step`. -/
theorem cuts_pyRange (start stop : ℤ) (hstep : 0 < step) :
    Cuts step start stop
      ((pyRange start stop step).map (fun p => (p, min (p + step) stop))) where
  nonempty := by
    intro r hr
    obtain ⟨p, hp, rfl⟩ := List.mem_map.mp hr
    obtain ⟨i, -, hlt⟩ := (mem_pyRange hstep).mp hp
    simp only
    omega
  small := by
    intro r hr
    obtain ⟨p, hp, rfl⟩ := List.mem_map.mp hr
    simp only
    omega
  ordered := by
    rw [List.pairwise_map]
    refine pairwise_pyRange.imp (fun {p q} hpq => ?_)
    simp only
    omega
  covers := by
    intro x
    simp only [mem_points]
    constructor
    · rintro ⟨r, hr, hlo, hhi⟩
      obtain ⟨p, hp, rfl⟩ := List.mem_map.mp hr
      obtain ⟨i, hi, hlt⟩ := (mem_pyRange hstep).mp hp
      simp only at hlo hhi
      omega
    · rintro ⟨hlo, hhi⟩
      -- the step that `x` falls into
      have hdiv := Nat.div_add_mod (x - start).toNat step
      have hmod := Nat.mod_lt (x - start).toNat hstep
      rw [Nat.mul_comm] at hdiv
      have hp : start + ((x - start).toNat / step * step : ℕ) ∈ pyRange start stop step :=
        (mem_pyRange hstep).mpr ⟨_, rfl, by omega⟩
      refine ⟨_, List.mem_map_of_mem hp, ?_, ?_⟩
      · simp only
        omega
      · simp only
        omega

end steps

/-! ### Pages and rows -/

/-- `doc["parser_config"].get("pages") or [(1, 10**5)]`. -/
def pageRanges (doc : Document) : List (ℤ × ℤ) :=
  if doc.parserConfig.pages.isEmpty then [(1, 10 ^ 5)] else doc.parserConfig.pages

/-- The pieces of a page range, for every page size and every number of pages. -/
theorem pageIntervals_cuts {pageSize : ℕ} (h : 1 ≤ pageSize) (pages : ℕ) (r : ℤ × ℤ) :
    Cuts pageSize (max 0 (r.1 - 1)) (min (r.2 - 1) pages) (pageIntervals pageSize pages r) :=
  cuts_pyRange _ _ h

theorem pageSizeOr_pos (config : ParserConfig) {default : ℕ} (h : 0 < default) :
    0 < pageSizeOr config default := by
  unfold pageSizeOr
  split
  · exact h
  · exact h
  · rename_i n hzero _
    exact Nat.pos_of_ne_zero (fun hn => hzero (hn ▸ rfl))

theorem taskPageSize_pos (doc : Document) : 0 < taskPageSize doc := by
  unfold taskPageSize
  split_ifs
  · decide
  · exact pageSizeOr_pos _ (by decide)
  · exact pageSizeOr_pos _ (by decide)

/-- The intervals of the tasks of a PDF are, for each of its page ranges, pieces of the pages that
there are of the range; those of a table are pieces of its rows. -/
theorem taskRanges_cuts (env : ParseEnv) (doc : Document) (bucket name : Str) :
    match taskBranch doc.type doc.parserId with
    | .pdfPages =>
        let pages := (env.totalPageNumber bucket name).getD 0
        ∃ blocks : List (List (ℤ × ℤ)),
          taskRanges env doc bucket name = blocks.flatten ∧
          List.Forall₂ (fun r block => Cuts (taskPageSize doc) (max 0 (r.1 - 1))
            (min (r.2 - 1) pages) block) (pageRanges doc) blocks
    | .tableRows =>
        Cuts 3000 0 (env.rowNumber bucket name) (taskRanges env doc bucket name)
    | .single => taskRanges env doc bucket name = [(0, 100000000)] := by
  unfold taskRanges
  cases taskBranch doc.type doc.parserId with
  | pdfPages =>
      refine ⟨(pageRanges doc).map (pageIntervals (taskPageSize doc)
        ((env.totalPageNumber bucket name).getD 0)), ?_, ?_⟩
      · rw [← List.flatMap_def]
        rfl
      · rw [List.forall₂_map_right_iff, List.forall₂_same]
        exact fun r _ => pageIntervals_cuts (taskPageSize_pos doc) _ r
  | tableRows => exact cuts_pyRange 0 _ (by decide)
  | single => rfl

end RagFlow
