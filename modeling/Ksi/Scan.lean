/-
What sscanf reads for `%d`.

A text is the list of its characters up to the NUL.  The daemon's command lines, the files
it loads and the arguments of its plugins are all read with this one conversion.  A number
that does not fit an int has no defined value in C, and is read here as it stands.
-/
import Mathlib.Data.List.Basic

namespace Ksi

/-- `isspace`. -/
def isspace (c : Char) : Bool := c = ' ' ∨ ('\t'.toNat ≤ c.toNat ∧ c.toNat ≤ '\r'.toNat)

/-- The digits at the start, and the rest. -/
def scanDigits (l : List Char) : Option (Nat × List Char) :=
  match l.takeWhile Char.isDigit with
  | [] => none
  | ds => some (ds.foldl (fun n c => 10 * n + (c.toNat - '0'.toNat)) 0, l.dropWhile Char.isDigit)

/-- `%d`: blanks, a sign, digits. -/
def scanD (l : List Char) : Option (Int × List Char) :=
  match l.dropWhile isspace with
  | '-' :: rest => (scanDigits rest).map fun r => (- (r.1 : Int), r.2)
  | '+' :: rest => (scanDigits rest).map fun r => (r.1, r.2)
  | l => (scanDigits l).map fun r => (r.1, r.2)

end Ksi
