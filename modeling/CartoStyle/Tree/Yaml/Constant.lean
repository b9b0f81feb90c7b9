import CartoStyle.Decimal.Numeral
import CartoStyle.Tree.Basic

/-!
Constants of YAML. A word without quotes is null, a truth value or a number
where it is spelled as one, and else a text. Whole numbers may be given in
base two, eight or sixteen; digits that begin with a needless zero are a text.
-/

namespace CartoStyle.Yaml

def digitsIn? (base : Nat) (cs : List Char) : Option Nat :=
  let value? (c : Char) : Option Nat :=
    let n :=
      if c.isDigit then c.toNat - '0'.toNat
      else if c.isAlpha then c.toLower.toNat - 'a'.toNat + 10
      else base
    if n < base then some n else none
  if cs.isEmpty then none
  else cs.foldlM (fun n c => (value? c).map (base * n + ·)) 0

def inBase? : List Char → Option Nat
  | '0' :: 'x' :: cs => digitsIn? 16 cs
  | '0' :: 'o' :: cs => digitsIn? 8 cs
  | '0' :: 'b' :: cs => digitsIn? 2 cs
  | _ => none

/-- The whole number of at most 128 bits that a word gives in a base of its own. -/
def based? : List Char → Option Float
  | '-' :: cs => ((inBase? cs).filter (· ≤ Nat.pow 2 127)).map fun n => -Decimal.nearest n 0
  | '+' :: cs | cs => ((inBase? cs).filter (· < Nat.pow 2 128)).map fun n => Decimal.nearest n 0

def unsigned : List Char → List Char
  | '-' :: cs | '+' :: cs | cs => cs

def isPadded (s : String) : Bool :=
  let ds := unsigned s.toList
  1 < ds.length && ds.head? == some '0' && ds.all Char.isDigit

def number? (s : String) : Option Float :=
  if [".inf", ".Inf", ".INF", "+.inf", "+.Inf", "+.INF"].contains s then some Decimal.infinity
  else if ["-.inf", "-.Inf", "-.INF"].contains s then some (-Decimal.infinity)
  else if [".nan", ".NaN", ".NAN"].contains s then some (0.0 / 0.0)
  else if isPadded s then none
  else (based? s.toList).or ((Decimal.read? s).filter Float.isFinite)

def constantTree (s : String) : Tree :=
  if ["", "~", "null", "Null", "NULL"].contains s then .null
  else if ["true", "True", "TRUE"].contains s then .bool true
  else if ["false", "False", "FALSE"].contains s then .bool false
  else match number? s with
    | some x => .number x
    | none => .text s

end CartoStyle.Yaml
