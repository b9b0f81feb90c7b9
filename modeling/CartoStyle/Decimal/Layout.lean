import CartoStyle.Decimal.Shortest

/-!
Decimal text of a double. The digits are always the shortest that read back;
a layout says where the point goes, when an exponent is written, and whether a
whole number keeps a fraction of zero.
-/

namespace CartoStyle.Decimal

structure Layout where
  /-- Which of two equally near digit strings is written. -/
  tie : Tie
  /-- The powers of the first digit written without an exponent; absent if all are. -/
  positional : Option (Int × Int)
  /-- Whole numbers end in `.0`. -/
  keepsPoint : Bool

namespace Layout

/-- Numbers in stylesheet text: never an exponent, and no fraction on whole numbers. -/
def plain : Layout := ⟨.up, none, false⟩

def isPositional (l : Layout) (lead : Int) : Bool :=
  match l.positional with
  | none => true
  | some (first, last) => first ≤ lead && lead ≤ last

def zeros (n : Int) : List Char := List.replicate n.toNat '0'

/-- Digits around a decimal point, padded with zeros up to it. -/
def positionalForm (l : Layout) (digits : List Char) (point : Int) : List Char :=
  if point ≤ 0 then ['0', '.'] ++ zeros (-point) ++ digits
  else if digits.length ≤ point then
    digits ++ zeros (point - digits.length) ++ (if l.keepsPoint then ['.', '0'] else [])
  else digits.take point.toNat ++ ['.'] ++ digits.drop point.toNat

/-- One digit, the others after a point, and the power of ten of the first. -/
def exponentForm (digits : List Char) (lead : Int) : List Char :=
  let power := (if lead < 0 then ['-'] else []) ++ Nat.toDigits 10 lead.natAbs
  match digits with
  | [] => []
  | [d] => [d, 'e'] ++ power
  | d :: rest => [d, '.'] ++ rest ++ ['e'] ++ power

def magnitude (l : Layout) (d : Digits) : List Char :=
  if l.isPositional d.lead then l.positionalForm d.list (d.lead + 1)
  else exponentForm d.list d.lead

def write (l : Layout) (x : Float) : String :=
  let signed (negative : Bool) (cs : List Char) : String :=
    String.ofList (if negative then '-' :: cs else cs)
  match view x with
  | .nan => "NaN"
  | .infinite negative => signed negative ['i', 'n', 'f']
  | .zero negative => signed negative (if l.keepsPoint then ['0', '.', '0'] else ['0'])
  | .finite negative mantissa exponent narrow =>
    signed negative (l.magnitude (shortest l.tie mantissa exponent narrow))

end Layout

def display (x : Float) : String := Layout.plain.write x

end CartoStyle.Decimal
