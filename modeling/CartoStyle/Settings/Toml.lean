import CartoStyle.Decimal.Numeral
import CartoStyle.Settings.Value
import CartoStyle.Tree.Json

/-!
Settings files. A file is a sequence of lines: headers that name a table, and
entries that put a value under a key of the table last named. Values are
texts, truth values, numbers, lists, and tables between braces. Comments run
to the end of their line. No key is given twice and no table is named twice.
-/

namespace CartoStyle.Settings.Toml

def isSpace (c : Char) : Bool := c == ' ' || c == '\t'

def skip (cs : List Char) : List Char := cs.dropWhile isSpace

def skipComment : List Char → List Char
  | '#' :: cs => cs.dropWhile (· != '\n')
  | cs => cs

def endLine? (cs : List Char) : Option (List Char) :=
  match skipComment (skip cs) with
  | [] => some []
  | '\n' :: rest => some rest
  | '\r' :: '\n' :: rest => some rest
  | _ => none

/-- A text without the blanks, line ends and comments at its start. The first argument bounds
their number. -/
def skipLines : Nat → List Char → List Char
  | 0, cs => cs
  | fuel + 1, cs =>
    match skip cs with
    | '\n' :: rest => skipLines fuel rest
    | '\r' :: '\n' :: rest => skipLines fuel rest
    | '#' :: rest => skipLines fuel (rest.dropWhile (· != '\n'))
    | rest => rest

def hex? (count : Nat) (cs : List Char) : Option (Nat × List Char) := do
  let ds := cs.take count
  guard (ds.length == count)
  let values ← ds.mapM Json.hexValue?
  return (values.foldl (fun n d => 16 * n + d) 0, cs.drop count)

def escape? : List Char → Option (Char × List Char)
  | 'b' :: cs => some ('\x08', cs)
  | 't' :: cs => some ('\t', cs)
  | 'n' :: cs => some ('\n', cs)
  | 'f' :: cs => some ('\x0c', cs)
  | 'r' :: cs => some ('\r', cs)
  | '"' :: cs => some ('"', cs)
  | '\\' :: cs => some ('\\', cs)
  | 'u' :: cs => do
    let (n, rest) ← hex? 4 cs
    return (← Json.charOf? n, rest)
  | 'U' :: cs => do
    let (n, rest) ← hex? 8 cs
    return (← Json.charOf? n, rest)
  | _ => none

def isPlain (c : Char) : Bool := c == '\t' || (0x20 ≤ c.toNat && c.toNat != 0x7F)

/-- The content of a text with escapes, up to its closing quote. The first argument bounds its
length. -/
def basic? : Nat → List Char → Option (List Char × List Char)
  | 0, _ => none
  | _ + 1, '"' :: cs => some ([], cs)
  | fuel + 1, '\\' :: cs => do
    let (c, cs) ← escape? cs
    let (text, rest) ← basic? fuel cs
    return (c :: text, rest)
  | fuel + 1, c :: cs => do
    guard (isPlain c)
    let (text, rest) ← basic? fuel cs
    return (c :: text, rest)
  | _ + 1, [] => none

def verbatim? (cs : List Char) : Option (List Char × List Char) :=
  let text := cs.takeWhile fun c => c != '\'' && isPlain c
  match cs.drop text.length with
  | '\'' :: rest => some (text, rest)
  | _ => none

def text? : List Char → Option (String × List Char)
  | '"' :: cs => (basic? (cs.length + 1) cs).map fun (text, rest) => (String.ofList text, rest)
  | '\'' :: cs => (verbatim? cs).map fun (text, rest) => (String.ofList text, rest)
  | _ => none

def isKeyChar (c : Char) : Bool := c.isAlphanum || c == '_' || c == '-'

def simpleKey? (cs : List Char) : Option (String × List Char) :=
  let word := cs.takeWhile isKeyChar
  if word.isEmpty then text? cs else some (String.ofList word, cs.drop word.length)

def key? : Nat → List Char → Option (List String × List Char)
  | 0, _ => none
  | fuel + 1, cs => do
    let (first, rest) ← simpleKey? (skip cs)
    match skip rest with
    | '.' :: rest =>
      let (others, rest) ← key? fuel rest
      return (first :: others, rest)
    | rest => return ([first], rest)

def number? (word : List Char) : Option Setting :=
  let digits := word.filter (· != '_')
  let (sign, body) := match digits with
    | '-' :: ds => (-1, ds)
    | '+' :: ds => (1, ds)
    | ds => (1, ds)
  if body.isEmpty then none
  else if body.all Char.isDigit then
    if body.head? == some '0' && body.length != 1 then none
    else some (.integer (sign * (Decimal.ofDigits body : Int)))
  else if body == "inf".toList || body == "nan".toList || body.head?.any Char.isDigit then
    (Decimal.read? (String.ofList digits)).map .float
  else none

/-- A table with a value under nested keys, none of which may hold a value yet. -/
def insert? : List String → Setting → List (String × Setting) → Option (List (String × Setting))
  | [], _, _ => none
  | [key], value, es => if (es.lookup key).isSome then none else some (es ++ [(key, value)])
  | key :: keys, value, es =>
    match es.lookup key with
    | none => (insert? keys value []).map fun inner => es ++ [(key, .table inner)]
    | some (.table inner) =>
      (insert? keys value inner).map fun inner => Setting.put key (.table inner) es
    | some _ => none

mutual

/-- A value and what follows it. The first argument bounds the nesting of calls. -/
def value? : Nat → List Char → Option (Setting × List Char)
  | 0, _ => none
  | fuel + 1, cs =>
    match cs with
    | '[' :: rest =>
      match skipLines rest.length rest with
      | ']' :: rest => some (.list [], rest)
      | rest => (items? fuel rest).map fun (items, rest) => (.list items, rest)
    | '\x7b' :: rest =>
      match skip rest with
      | '\x7d' :: rest => some (.table [], rest)
      | rest => (fields? fuel [] rest).map fun (es, rest) => (.table es, rest)
    | '"' :: _ | '\'' :: _ => (text? cs).map fun (s, rest) => (.text s, rest)
    | _ =>
      let word := cs.takeWhile fun c => isKeyChar c || c == '+' || c == '.'
      let rest := cs.drop word.length
      if word == "true".toList then some (.bool true, rest)
      else if word == "false".toList then some (.bool false, rest)
      else (number? word).map (·, rest)

def items? : Nat → List Char → Option (List Setting × List Char)
  | 0, _ => none
  | fuel + 1, cs => do
    let (item, rest) ← value? fuel cs
    match skipLines rest.length rest with
    | ']' :: rest => return ([item], rest)
    | ',' :: rest =>
      match skipLines rest.length rest with
      | ']' :: rest => return ([item], rest)
      | rest =>
        let (items, rest) ← items? fuel rest
        return (item :: items, rest)
    | _ => none

def fields? : Nat → List (String × Setting) → List Char →
    Option (List (String × Setting) × List Char)
  | 0, _, _ => none
  | fuel + 1, es, cs => do
    let (keys, rest) ← key? (cs.length + 1) cs
    let '=' :: rest := rest | none
    let (value, rest) ← value? fuel (skip rest)
    let es ← insert? keys value es
    match skip rest with
    | '\x7d' :: rest => return (es, rest)
    | ',' :: rest => fields? fuel es rest
    | _ => none

end

structure Progress where
  root : List (String × Setting) := []
  /-- The keys of the table last named. -/
  current : List String := []
  /-- The tables that have been named. -/
  named : List (List String) := []

def openTable? : List String → List (String × Setting) → Option (List (String × Setting))
  | [], es => some es
  | key :: keys, es =>
    match (es.lookup key).getD (.table []) with
    | .table inner => (openTable? keys inner).map fun inner => Setting.put key (.table inner) es
    | _ => none

def statement? (p : Progress) : List Char → Option (Progress × List Char)
  | '[' :: cs => do
    let (keys, rest) ← key? (cs.length + 1) cs
    let ']' :: rest := rest | none
    guard (!p.named.contains keys)
    let root ← openTable? keys p.root
    return ({ root, current := keys, named := keys :: p.named }, ← endLine? rest)
  | cs => do
    let (keys, rest) ← key? (cs.length + 1) cs
    let '=' :: rest := rest | none
    let (value, rest) ← value? (2 * cs.length + 2) (skip rest)
    let root ← insert? (p.current ++ keys) value p.root
    return ({ p with root }, ← endLine? rest)

/-- The table of the lines of a file. The first argument bounds their number. -/
def lines? : Nat → Progress → List Char → Option Setting
  | 0, _, _ => none
  | fuel + 1, p, cs =>
    match skipLines cs.length cs with
    | [] => some (.table p.root)
    | rest => do
      let (p, rest) ← statement? p rest
      lines? fuel p rest

def parse? (s : String) : Option Setting := lines? (s.length + 1) {} s.toList

end CartoStyle.Settings.Toml
