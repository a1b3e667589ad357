import RagFlow.FloatFormat
import RagFlow.PyStr

/-! # The columns of the database

What the services leave to the database server: when two texts are equal, which numbers a column of
`FloatField` keeps, and how large the values of a column may be.  The servers differ: MySQL compares
the texts of its default collation without case, accents and trailing blanks and keeps single
precision, PostgreSQL compares them exactly and keeps double precision. -/

namespace RagFlow

open Py FloatFormat

/-! ### Texts -/

/-- A collation: texts are equal when their keys are. -/
structure Collation where
  key : Str → Str

namespace Collation

variable (c : Collation) {s t u : Str}

/-- `s = t` in a statement. -/
def same (s t : Str) : Bool := c.key s = c.key t

@[simp] theorem same_iff : c.same s t = true ↔ c.key s = c.key t := by simp [same]

theorem same_self (s : Str) : c.same s s = true := by simp

/-- Texts are compared as they are. -/
def exact : Collation := ⟨id⟩

@[simp] theorem exact_same : exact.same s t = true ↔ s = t := by simp [exact]

/-- What a case-insensitive collation with padding makes of ASCII. -/
def caseInsensitive : Collation := ⟨fun s => (s.rdropWhile (· = ' ')).map Char.toLower⟩

end Collation

/-! ### Numbers -/

/-- A column of floating-point numbers: what it keeps of a number that is written, and what a query
gives for a number that is kept. -/
structure FloatColumn where
  store : ℚ → ℚ
  read : ℚ → ℚ
  store_mono : Monotone store
  read_mono : Monotone read
  store_store : ∀ x, store (store x) = store x
  store_intCast : ∀ n : ℤ, |n| ≤ 1 → store n = n
  read_intCast : ∀ n : ℤ, |n| ≤ 1 → read n = n

namespace FloatColumn

variable (c : FloatColumn) {x : ℚ}

@[simp] theorem store_neg_one : c.store (-1) = -1 := by
  simpa using c.store_intCast (-1) (by decide)

@[simp] theorem store_zero : c.store 0 = 0 := by
  simpa using c.store_intCast 0 (by decide)

@[simp] theorem store_one : c.store 1 = 1 := by
  simpa using c.store_intCast 1 (by decide)

@[simp] theorem read_neg_one : c.read (-1) = -1 := by
  simpa using c.read_intCast (-1) (by decide)

@[simp] theorem read_zero : c.read 0 = 0 := by
  simpa using c.read_intCast 0 (by decide)

theorem store_nonneg (hx : 0 ≤ x) : 0 ≤ c.store x := c.store_zero.symm.le.trans (c.store_mono hx)

theorem read_nonneg (hx : 0 ≤ x) : 0 ≤ c.read x := c.read_zero.symm.le.trans (c.read_mono hx)

/-- The column keeps the numbers of a format and gives them as they are. -/
def ofFormat (F : Format) : FloatColumn where
  store := F.nearest
  read := id
  store_mono := F.nearest_mono
  read_mono := monotone_id
  store_store x := Format.nearest_of_holds (Format.holds_nearest x)
  store_intCast n hn := Format.nearest_of_holds (Format.holds_intCast
    (hn.trans (one_le_pow₀ (by norm_num))))
  read_intCast n _ := rfl

/-- Single precision. -/
def single : FloatColumn := ofFormat FloatFormat.single

/-- Double precision. -/
def double : FloatColumn := ofFormat FloatFormat.double

theorem single_store {m e : ℤ} (hm : |m| ≤ 2 ^ 24) (he : -149 ≤ e) :
    single.store (m * 2 ^ e) = m * 2 ^ e :=
  Format.nearest_of_holds (F := FloatFormat.single) ⟨m, e, hm, he, rfl⟩

end FloatColumn

/-- What a server does with its columns. -/
structure Engine where
  collation : Collation
  number : FloatColumn

/-- PostgreSQL. -/
def Engine.postgres : Engine := ⟨.exact, .double⟩

/-- MySQL, on texts in ASCII. -/
def Engine.mysql : Engine := ⟨.caseInsensitive, .single⟩

/-- The least integer that a column of `IntegerField` does not hold. -/
def integerBound : ℕ := 2147483648

end RagFlow
