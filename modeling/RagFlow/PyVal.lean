import Mathlib.Data.Rat.Defs
import Mathlib.Algebra.Order.Ring.Rat
import RagFlow.PyStr

/-! # Python values and their dynamic operations

The values a metadata filter handles: the literals of Python and the lists and tuples made
of them.  An operation that raises an exception (`TypeError` and the like) returns `none`.

* **Numbers.** `bool`, `int` and `float` compare by value, as Python does exactly; a
  (finite) float is the rational number it denotes.
* **Order.** `<` is defined between numbers, between strings (by code points) and between
  lists or between tuples (lexicographically, the first pair of unequal elements deciding);
  everything else raises.
* **Runtime.** What is data of the interpreter is collected in `Runtime`: the evaluation of a
  string as a literal (`ast.literal_eval`, a partial function), the text of a value that is
  not a string, the case table and the decimal digits outside ASCII. -/

namespace RagFlow.Py

/-- Python values. -/
inductive PyVal where
  | none
  | bool (b : Bool)
  | int (n : ℤ)
  | float (q : ℚ)
  | str (s : Str)
  | list (xs : List PyVal)
  | tuple (xs : List PyVal)

namespace PyVal

/-- The number a value denotes, if it is one. -/
def num? : PyVal → Option ℚ
  | bool b => some (if b then 1 else 0)
  | int n => some n
  | float q => some q
  | _ => Option.none

mutual
/-- `a == b`. -/
def eq : PyVal → PyVal → Bool
  | none, none => true
  | str s, str t => s == t
  | list xs, list ys => eqs xs ys
  | tuple xs, tuple ys => eqs xs ys
  | a, b =>
      match a.num?, b.num? with
      | some p, some q => p == q
      | _, _ => false
/-- Element-wise equality of two sequences. -/
def eqs : List PyVal → List PyVal → Bool
  | [], [] => true
  | a :: as, b :: bs => eq a b && eqs as bs
  | _, _ => false
end

/-- `s < t` on strings: lexicographic by code points. -/
def strLt : Str → Str → Bool
  | _, [] => false
  | [], _ :: _ => true
  | c :: s, d :: t => if c = d then strLt s t else c < d

mutual
/-- `a < b`; `none` when the comparison raises. -/
def lt : PyVal → PyVal → Option Bool
  | str s, str t => some (strLt s t)
  | list xs, list ys => lts xs ys
  | tuple xs, tuple ys => lts xs ys
  | a, b =>
      match a.num?, b.num? with
      | some p, some q => some (decide (p < q))
      | _, _ => Option.none
/-- Lexicographic order of two sequences. -/
def lts : List PyVal → List PyVal → Option Bool
  | _, [] => some false
  | [], _ :: _ => some true
  | a :: as, b :: bs => if eq a b then lts as bs else lt a b
end

/-- `a <= b`: for the values above `a < b or a == b`, raising when `<` does. -/
def le (a b : PyVal) : Option Bool := (lt a b).map (· || eq a b)

/-- `bool(a)`. -/
def truthy : PyVal → Bool
  | none => false
  | bool b => b
  | int n => n != 0
  | float q => q != 0
  | str s => !s.isEmpty
  | list xs => !xs.isEmpty
  | tuple xs => !xs.isEmpty

/-- `a in b`; `none` when the test raises. -/
def isIn (a : PyVal) : PyVal → Option Bool
  | str t =>
      match a with
      | str s => some (contains s t)
      | _ => Option.none
  | list xs => some (xs.any (eq a))
  | tuple xs => some (xs.any (eq a))
  | _ => Option.none

end PyVal

/-- Data of the interpreter. -/
structure Runtime extends CaseTable where
  /-- `ast.literal_eval` on a string; `none` when it raises. -/
  literalEval : Str → Option PyVal
  /-- `str(a)` of a value that is not a string. -/
  repr : PyVal → Str
  /-- `str.isdigit` on a character outside ASCII. -/
  isDigit : Char → Bool

namespace Runtime
variable (rt : Runtime)

/-- `str(a)`. -/
def str : PyVal → Str
  | .str s => s
  | a => rt.repr a

/-- `s.isdigit()`. -/
def isdigit (s : Str) : Bool :=
  !s.isEmpty && s.all (fun c => if isAscii c then c.isDigit else rt.isDigit c)

/-- `ast.literal_eval(a)`: only a string is parsed, anything else raises. -/
def literal_eval : PyVal → Option PyVal
  | .str s => rt.literalEval s
  | _ => none

/-- `a.lower()` if `a` is a string, else `a`. -/
def lowerIfStr : PyVal → PyVal
  | .str s => .str (rt.lower s)
  | a => a

/-- An interpreter in which no string is a literal, for closed examples. -/
def plain : Runtime where
  toCaseTable := CaseTable.ascii
  literalEval _ := none
  repr _ := []
  isDigit _ := false

end Runtime

end RagFlow.Py
