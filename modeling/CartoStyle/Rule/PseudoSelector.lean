import CartoStyle.Decimal.Numeral

/-!
Pseudo-selectors. A selector that ends in a colon and the name of a part, with
or without an index in parentheses, speaks about that part of a symbolizer.
The name holds no colon, so the colon is the last one of the selector; what
stands before it is the base, which lies on one line.
-/

namespace CartoStyle.Rule

structure PseudoSelector where
  /-- The selector in front of the colon. -/
  base : String
  /-- The name of the part in lower case. -/
  part : String
  /-- Which symbolizer is meant, from one. -/
  index : Option Nat
deriving DecidableEq, Repr

namespace PseudoSelector

/-- Indexes from here on are read as absent. -/
def indexLimit : Nat := Nat.pow 2 64

/-- An index in parentheses; the outer option tells whether the text is well formed. -/
def index? : List Char → Option (Option Nat)
  | [] => some none
  | '(' :: cs =>
    let digits := cs.takeWhile Char.isDigit
    if !digits.isEmpty && cs.drop digits.length == [')'] then
      let n := Decimal.ofDigits digits
      some (if n < indexLimit then some n else none)
    else none
  | _ => none

def parse? (selector : String) : Option PseudoSelector :=
  let backwards := selector.toList.reverse
  let ending := (backwards.takeWhile (· != ':')).reverse
  match backwards.dropWhile (· != ':') with
  | [] => none
  | _ :: base =>
    let part := ending.takeWhile fun c => c.isAlpha || c == '-'
    if !base.contains '\n' && (part.head?.any Char.isAlpha) then
      (index? (ending.drop part.length)).map fun index =>
        { base := String.ofList base.reverse
          part := (String.ofList part).toLower
          index }
    else none

end PseudoSelector

end CartoStyle.Rule
