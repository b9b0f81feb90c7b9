import CartoStyle.Decimal.Layout
import CartoStyle.Decimal.Numeral
import CartoStyle.Tree.Basic

/-!
The JSON form of trees. Reading follows the grammar of the format without
liberties. It converts numbers by the short way, which rounds twice and so need
not end at the nearest double, and refuses numbers that overflow and data that
is nested too deep. Writing puts every item on a line of its own, indented by
two spaces for each level.
-/

namespace CartoStyle.Json

/-- Numbers in documents keep a point, and have an exponent outside the range from a
hundred-thousandth to ten to the sixteenth. -/
def numberLayout : Decimal.Layout := ⟨.even, some (-5, 15), true⟩

def isSpace (c : Char) : Bool := c == ' ' || c == '\t' || c == '\n' || c == '\r'

def skip (cs : List Char) : List Char := cs.dropWhile isSpace

def hexValue? (c : Char) : Option Nat :=
  if c.isDigit then some (c.toNat - '0'.toNat)
  else if 'a' ≤ c && c ≤ 'f' then some (c.toNat - 'a'.toNat + 10)
  else if 'A' ≤ c && c ≤ 'F' then some (c.toNat - 'A'.toNat + 10)
  else none

def unit? (a b c d : Char) : Option Nat := do
  return ((← hexValue? a) * 16 + (← hexValue? b)) * 256 + (← hexValue? c) * 16 + (← hexValue? d)

/-- The character of a code point, which must not be half of a pair. -/
def charOf? (n : Nat) : Option Char := if n.isValidChar then some (Char.ofNat n) else none

def escaped? : Char → Option Char
  | '"' => some '"'
  | '\\' => some '\\'
  | '/' => some '/'
  | 'b' => some '\x08'
  | 'f' => some '\x0c'
  | 'n' => some '\n'
  | 'r' => some '\r'
  | 't' => some '\t'
  | _ => none

/-- The content of a string after its opening quote, and what follows its closing quote. -/
def string? : List Char → Option (List Char × List Char)
  | [] => none
  | '"' :: cs => some ([], cs)
  | '\\' :: 'u' :: a :: b :: c :: d :: '\\' :: 'u' :: e :: f :: g :: h :: cs => do
    let first ← unit? a b c d
    let second ← unit? e f g h
    if 0xD800 ≤ first ∧ first < 0xDC00 then
      guard (0xDC00 ≤ second ∧ second < 0xE000)
      let c ← charOf? (0x10000 + (first - 0xD800) * 0x400 + (second - 0xDC00))
      let (text, rest) ← string? cs
      return (c :: text, rest)
    else
      let c ← charOf? first
      let (text, rest) ← string? ('\\' :: 'u' :: e :: f :: g :: h :: cs)
      return (c :: text, rest)
  | '\\' :: 'u' :: a :: b :: c :: d :: cs => do
    let c ← charOf? (← unit? a b c d)
    let (text, rest) ← string? cs
    return (c :: text, rest)
  | '\\' :: c :: cs => do
    let c ← escaped? c
    let (text, rest) ← string? cs
    return (c :: text, rest)
  | c :: cs => do
    guard (0x20 ≤ c.toNat ∧ c ≠ '\\')
    let (text, rest) ← string? cs
    return (c :: text, rest)

def digits? (cs : List Char) : Option (List Char × List Char) :=
  let ds := cs.takeWhile Char.isDigit
  if ds.isEmpty then none else some (ds, cs.drop ds.length)

def sign : List Char → List Char × List Char
  | '-' :: cs => (['-'], cs)
  | cs => ([], cs)

def fraction? : List Char → Option (List Char × List Char)
  | '.' :: cs => (digits? cs).map fun (ds, rest) => ('.' :: ds, rest)
  | cs => some ([], cs)

/-- The exponent of a number behind its mark, and what follows it. A plus sign is dropped. -/
def exponent? : List Char → Option (List Char × List Char)
  | '-' :: cs => (digits? cs).map fun (ds, rest) => ('e' :: '-' :: ds, rest)
  | '+' :: cs => (digits? cs).map fun (ds, rest) => ('e' :: ds, rest)
  | cs => (digits? cs).map fun (ds, rest) => ('e' :: ds, rest)

def power? : List Char → Option (List Char × List Char)
  | 'e' :: cs => exponent? cs
  | 'E' :: cs => exponent? cs
  | cs => some ([], cs)

def numeral? (cs : List Char) : Option (List Char × List Char) := do
  let (sign, cs) := sign cs
  let (whole, cs) ← digits? cs
  guard (whole.head? != some '0' || whole.length == 1)
  let (fraction, cs) ← fraction? cs
  let (power, cs) ← power? cs
  return (sign ++ whole ++ fraction ++ power, cs)

/-- Digits gathered behind a number as long as it fits in sixty-four bits, and those left. -/
def gather (n : Nat) : List Char → Nat × List Char
  | [] => (n, [])
  | d :: ds =>
    let next := 10 * n + (d.toNat - '0'.toNat)
    if next < 2 ^ 64 then gather next ds else (n, d :: ds)

def tenTo (n : Nat) : Float := Float.ofScientific 1 false n

/-- A number of sixty-four bits divided by a power of ten. The greatest power that is a double is
`10 ^ 308`, and two divisions by it leave nothing of such a number. -/
def shrink (x : Float) (n : Nat) : Float :=
  if n ≤ 308 then x / tenTo n else x / tenTo 308 / tenTo (min (n - 308) 308)

def scale? (x : Float) (exponent : Int) : Option Float :=
  if exponent < 0 then some (shrink x exponent.natAbs)
  else if 308 < exponent then if x == 0.0 then some x else none
  else
    let y := x * tenTo exponent.natAbs
    if y.isFinite then some y else none

/-- The value of a number without its sign. The digits that fit in sixty-four bits are rounded to
a double, and so is its product with the power of ten. -/
def magnitude? (cs : List Char) : Option Float := do
  let (n, dropped) := gather 0 (cs.takeWhile Char.isDigit)
  let (fraction, rest) := match cs.dropWhile Char.isDigit with
    | '.' :: rest => (rest.takeWhile Char.isDigit, rest.dropWhile Char.isDigit)
    | rest => ([], rest)
  let (n, unread) := gather n fraction
  let power ← Decimal.exponentPart? rest
  scale? (Float.ofNat n) (power + dropped.length - (fraction.length - unread.length))

def float? : List Char → Option Float
  | '-' :: cs => (magnitude? cs).map (-·)
  | cs => magnitude? cs

def number? (cs : List Char) : Option (Tree × List Char) := do
  let (text, rest) ← numeral? cs
  let x ← float? text
  return (.number x, rest)

mutual

/-- A value, and what follows it. The first argument bounds the nesting of calls. -/
def value? : Nat → List Char → Option (Tree × List Char)
  | 0, _ => none
  | fuel + 1, cs =>
    match skip cs with
    | 'n' :: 'u' :: 'l' :: 'l' :: rest => some (.null, rest)
    | 't' :: 'r' :: 'u' :: 'e' :: rest => some (.bool true, rest)
    | 'f' :: 'a' :: 'l' :: 's' :: 'e' :: rest => some (.bool false, rest)
    | '"' :: rest => (string? rest).map fun (text, rest) => (.text (String.ofList text), rest)
    | '[' :: rest =>
      match skip rest with
      | ']' :: rest => some (.list [], rest)
      | rest => (items? fuel rest).map fun (items, rest) => (.list items, rest)
    | '\x7b' :: rest =>
      match skip rest with
      | '\x7d' :: rest => some (.object [], rest)
      | rest => (members? fuel rest).map fun (fields, rest) => (.object fields, rest)
    | rest => number? rest

def items? : Nat → List Char → Option (List Tree × List Char)
  | 0, _ => none
  | fuel + 1, cs => do
    let (item, rest) ← value? fuel cs
    match skip rest with
    | ',' :: rest =>
      let (items, rest) ← items? fuel rest
      return (item :: items, rest)
    | ']' :: rest => return ([item], rest)
    | _ => none

def members? : Nat → List Char → Option (Tree.Fields × List Char)
  | 0, _ => none
  | fuel + 1, cs => do
    let '"' :: rest := skip cs | none
    let (name, rest) ← string? rest
    let ':' :: rest := skip rest | none
    let (item, rest) ← value? fuel rest
    let field := (String.ofList name, item)
    match skip rest with
    | ',' :: rest =>
      let (fields, rest) ← members? fuel rest
      return (field :: fields, rest)
    | '\x7d' :: rest => return ([field], rest)
    | _ => none

end

mutual

def depth : Tree → Nat
  | .list items => depthOfItems items + 1
  | .object fields => depthOfFields fields + 1
  | _ => 0

def depthOfItems : List Tree → Nat
  | [] => 0
  | t :: ts => max (depth t) (depthOfItems ts)

def depthOfFields : List (String × Tree) → Nat
  | [] => 0
  | (_, t) :: fs => max (depth t) (depthOfFields fs)

end

/-- The tree of a JSON text, which must not be nested more than 127 deep. -/
def parse? (s : String) : Option Tree := do
  let cs := s.toList
  let (t, rest) ← value? (2 * cs.length + 2) cs
  guard ((skip rest).isEmpty && depth t ≤ 127)
  return t

mutual

/-- What the JSON form of a tree holds. Numbers that are not finite have no form and become
null. -/
def content : Tree → Tree
  | .number x => if x.isFinite then .number x else .null
  | .list items => .list (contents items)
  | .object fields => .object (fieldContents fields)
  | t => t

def contents : List Tree → List Tree
  | [] => []
  | t :: ts => content t :: contents ts

def fieldContents : List (String × Tree) → List (String × Tree)
  | [] => []
  | (name, t) :: fs => (name, content t) :: fieldContents fs

end

def escapeChar (c : Char) : List Char :=
  match c with
  | '"' => ['\\', '"']
  | '\\' => ['\\', '\\']
  | '\x08' => ['\\', 'b']
  | '\x0c' => ['\\', 'f']
  | '\n' => ['\\', 'n']
  | '\r' => ['\\', 'r']
  | '\t' => ['\\', 't']
  | c =>
    if c.toNat < 0x20 then
      let ds := Nat.toDigits 16 c.toNat
      ['\\', 'u'] ++ List.replicate (4 - ds.length) '0' ++ ds
    else [c]

def quote (s : String) : String := String.ofList (['"'] ++ s.toList.flatMap escapeChar ++ ['"'])

def numberText (x : Float) : String := if x.isFinite then numberLayout.write x else "null"

def bracketed (opening closing indent : String) (lines : List String) : String :=
  if lines.isEmpty then opening ++ closing
  else opening ++ "\n" ++ ",\n".intercalate (lines.map (indent ++ "  " ++ ·)) ++ "\n" ++ indent ++
    closing

mutual

def render (indent : String) : Tree → String
  | .null => "null"
  | .bool b => if b then "true" else "false"
  | .number x => numberText x
  | .text s => quote s
  | .list items => bracketed "[" "]" indent (renderItems (indent ++ "  ") items)
  | .object fields =>
    bracketed "\x7b" "\x7d" indent (renderFields (indent ++ "  ") fields)

def renderItems (indent : String) : List Tree → List String
  | [] => []
  | t :: ts => render indent t :: renderItems indent ts

def renderFields (indent : String) : List (String × Tree) → List String
  | [] => []
  | (name, t) :: fs => (quote name ++ ": " ++ render indent t) :: renderFields indent fs

end

def write (t : Tree) : String := render "" t

end CartoStyle.Json
