/-!
Reading decimal numerals. A numeral is an optional sign, digits with an
optional point among or beside them, and an optional exponent; the names of
infinity and of the missing number are read in any case. The value is the
double nearest to the decimal number, infinite if it is too large.
-/

namespace CartoStyle.Decimal

def infinity : Float := 1.0 / 0.0

def ofDigits (cs : List Char) : Nat :=
  cs.foldl (fun n c => 10 * n + (c.toNat - '0'.toNat)) 0

/-- The double nearest to `coefficient * 10 ^ exponent`. Numbers far outside the range of
doubles are decided by the power of their first digit alone. -/
def nearest (coefficient : Nat) (exponent : Int) : Float :=
  if coefficient = 0 then 0.0
  else
    let lead := (Nat.toDigits 10 coefficient).length + exponent
    if 310 < lead then infinity
    else if lead < -330 then 0.0
    else Float.ofScientific coefficient (exponent < 0) exponent.natAbs

def exponentPart? : List Char → Option Int
  | [] => some 0
  | c :: cs =>
    if c == 'e' || c == 'E' then
      let (negative, digits) := match cs with
        | '-' :: digits => (true, digits)
        | '+' :: digits => (false, digits)
        | digits => (false, digits)
      if !digits.isEmpty && digits.all Char.isDigit then
        some (if negative then -(ofDigits digits : Int) else ofDigits digits)
      else none
    else none

def magnitude? (cs : List Char) : Option Float :=
  let name := cs.map Char.toLower
  if name == "inf".toList || name == "infinity".toList then some infinity
  else if name == "nan".toList then some (0.0 / 0.0)
  else
    let whole := cs.takeWhile Char.isDigit
    let rest := cs.dropWhile Char.isDigit
    let (fraction, rest) := match rest with
      | '.' :: rest => (rest.takeWhile Char.isDigit, rest.dropWhile Char.isDigit)
      | rest => ([], rest)
    if whole.isEmpty && fraction.isEmpty then none
    else (exponentPart? rest).map fun power =>
      nearest (ofDigits (whole ++ fraction)) (power - fraction.length)

def read? (s : String) : Option Float :=
  match s.toList with
  | '-' :: cs => (magnitude? cs).map (-·)
  | '+' :: cs => magnitude? cs
  | cs => magnitude? cs

end CartoStyle.Decimal
