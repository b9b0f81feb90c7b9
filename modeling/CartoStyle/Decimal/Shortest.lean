/-!
The shortest decimal digits of a double. A finite double other than zero is
an integer times a power of two, and the reals that round to it form an
interval. The grids of one, two, up to seventeen significant digits are tried
in turn; on each grid the two neighbours of the value are the only points that
can lie in the interval. The first grid with a hit gives the digits, of two
hits the nearer, and an exact tie follows a stated rule. All comparisons are
between natural numbers.
-/

namespace CartoStyle.Decimal

/-- What a double stands for. -/
inductive View where
  | nan
  | infinite (negative : Bool)
  | zero (negative : Bool)
  /-- The value `mantissa * 2 ^ exponent`; `narrow` when the next double towards zero is
  only half as far away as the next one outwards. -/
  | finite (negative : Bool) (mantissa : Nat) (exponent : Int) (narrow : Bool)

def view (x : Float) : View :=
  let bits := x.toBits.toNat
  let negative := bits / Nat.pow 2 63 == 1
  let power : Nat := bits / Nat.pow 2 52 % Nat.pow 2 11
  let fraction := bits % Nat.pow 2 52
  if power == 2047 then
    if fraction == 0 then .infinite negative else .nan
  else if power == 0 then
    if fraction == 0 then .zero negative else .finite negative fraction (-1074) false
  else
    .finite negative (Nat.pow 2 52 + fraction) (Int.ofNat power - 1075)
      (fraction == 0 && power != 1)

/-- Where two candidates are equally near: the larger one, or the even one. -/
inductive Tie where
  | up
  | even
deriving DecidableEq

/-- A positive number in the form `coefficient * 10 ^ exponent`. -/
structure Digits where
  coefficient : Nat
  exponent : Int
deriving DecidableEq, Repr

def Digits.list (d : Digits) : List Char := Nat.toDigits 10 d.coefficient

def Digits.lead (d : Digits) : Int := d.list.length - 1 + d.exponent

/-- The same number without zeros at the end of the coefficient. -/
def stripZeros (coefficient : Nat) (exponent : Int) : Digits :=
  if coefficient ≠ 0 ∧ coefficient % 10 = 0 then stripZeros (coefficient / 10) (exponent + 1)
  else ⟨coefficient, exponent⟩
termination_by coefficient
decreasing_by omega

/-- The scale that turns a multiple of `2 ^ twos` into steps of `10 ^ tens`, as a fraction. -/
def scale (twos tens : Int) : Nat × Nat :=
  (Nat.pow 2 twos.toNat * Nat.pow 10 (-tens).toNat, Nat.pow 2 (-twos).toNat * Nat.pow 10 tens.toNat)

def leadingPower (num den : Nat) : Int :=
  if den ≤ num then (Nat.toDigits 10 (num / den)).length - 1
  else -((Nat.toDigits 10 ((den - 1) / num)).length : Int)

/-- The grid point of `10 ^ tens` nearest to `mantissa * 2 ^ exponent` among its two
neighbours that round to that value, if there is one. Bounds are counted in quarter units
of the last binary place, and belong to the interval when the mantissa is even. -/
def gridPoint? (tie : Tie) (mantissa : Nat) (exponent : Int) (narrow : Bool) (tens : Int) :
    Option Nat :=
  let (num, den) := scale (exponent - 2) tens
  let low := (4 * mantissa - if narrow then 1 else 2) * num
  let high := (4 * mantissa + 2) * num
  let rounds (d : Nat) : Bool :=
    if mantissa % 2 == 0 then low ≤ d * den && d * den ≤ high
    else low < d * den && d * den < high
  let below := 4 * mantissa * num / den
  let remainder := 4 * mantissa * num % den
  match rounds below, rounds (below + 1) with
  | false, false => none
  | true, false => some below
  | false, true => some (below + 1)
  | true, true =>
    if 2 * remainder < den then some below
    else if den < 2 * remainder then some (below + 1)
    else match tie with
      | .up => some (below + 1)
      | .even => if below % 2 == 0 then some below else some (below + 1)

/-- The shortest digits that read back as `mantissa * 2 ^ exponent`. Seventeen digits always
suffice, so the last alternative is never reached. -/
def shortest (tie : Tie) (mantissa : Nat) (exponent : Int) (narrow : Bool) : Digits :=
  let (num, den) := scale exponent 0
  let lead := leadingPower (mantissa * num) den
  let found := (List.range 17).findSome? fun extra : Nat =>
    let tens := lead - Int.ofNat extra
    (gridPoint? tie mantissa exponent narrow tens).map (stripZeros · tens)
  found.getD ⟨mantissa * num, 0⟩

end CartoStyle.Decimal
