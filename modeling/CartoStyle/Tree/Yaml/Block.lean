import CartoStyle.Tree.Yaml.Flow

/-!
Block forms of YAML, in which the indentation of the lines shows what belongs
together: lists with a dash in front of every item, objects with a line for
every key, texts kept line by line, and values in a flow form. A document may
stand between marks and have comments.
-/

namespace CartoStyle.Yaml

/-- A line without the spaces at its start, and their number. -/
structure Line where
  indent : Nat
  content : List Char

namespace Line

def ofText (cs : List Char) : Line :=
  let content := cs.dropWhile (· == ' ')
  ⟨cs.length - content.length, if content.all isBlank then [] else content⟩

def isTrivia (l : Line) : Bool := l.content.head?.all (· == '#')

def isItem (l : Line) : Bool :=
  match l.content with
  | ['-'] => true
  | '-' :: c :: _ => isBlank c
  | _ => false

/-- The line consists of, or begins with, three characters that mark the start or the end of a
document. -/
def isMarker (l : Line) (marker : List Char) : Bool :=
  l.indent == 0 && marker.isPrefixOf l.content && (l.content.drop 3).head?.all isBlank

def text (l : Line) : List Char := List.replicate l.indent ' ' ++ l.content

end Line

def linesOf (cs : List Char) : List Line :=
  (cs.splitOn '\n').map fun line =>
    Line.ofText (if line.getLast? == some '\r' then line.dropLast else line)

def textFrom (content : List Char) (ls : List Line) : List Char :=
  content ++ ls.flatMap fun l => '\n' :: l.text

/-- A text without the comment after a blank in it, and whether there was one. -/
def cutComment : List Char → List Char × Bool
  | [] => ([], false)
  | c :: cs =>
    if isBlank c && cs.head? == some '#' then ([], true)
    else
      let (text, isCut) := cutComment cs
      (c :: text, isCut)

/-- The lines after the one on which a value ended; only a comment may follow it there. -/
def linesAfter? (cs : List Char) : Option (List Line) :=
  let rest := cs.takeWhile (· != '\n')
  if (cutComment (' ' :: rest)).1.all isBlank then some (linesOf (cs.drop (rest.length + 1)))
  else none

/-! Texts kept line by line -/

/-- What becomes of the line ends after a text. -/
inductive Ending where
  | strip
  | clip
  | keep
deriving DecidableEq

structure BlockStyle where
  /-- Line ends within the text stand for spaces. -/
  isFolded : Bool
  ending : Ending := .clip
  /-- How much further the text is indented than what it belongs to. -/
  indent : Option Nat := none

def BlockStyle.put? (style : BlockStyle) (c : Char) : Option BlockStyle :=
  if c = '-' then some { style with ending := .strip }
  else if c = '+' then some { style with ending := .keep }
  else if c.isDigit && c ≠ '0' then some { style with indent := some (c.toNat - '0'.toNat) }
  else none

def BlockStyle.ofHeader? (mark : Char) (cs : List Char) : Option BlockStyle :=
  (trimBoth isBlank (cutComment cs).1).foldlM BlockStyle.put? { isFolded := mark == '>' }

def takeBlock (column : Nat) : List Line → List (List Char) × List Line
  | [] => ([], [])
  | l :: ls =>
    if l.content.isEmpty || column ≤ l.indent then
      let (lines, rest) := takeBlock column ls
      ((List.replicate (l.indent - column) ' ' ++ l.content) :: lines, rest)
    else ([], l :: ls)

/-- Lines of a text after a line that began with a blank or did not, and some empty lines. Line
ends beside a line that begins with a blank are kept. -/
def joinFrom (isFolded wasBlank : Bool) : Nat → List (List Char) → List Char
  | _, [] => []
  | n, [] :: lines => joinFrom isFolded wasBlank (n + 1) lines
  | n, (c :: cs) :: lines =>
    let ends :=
      if isFolded && !wasBlank && !isBlank c then breaks (n + 1) else List.replicate (n + 1) '\n'
    ends ++ c :: cs ++ joinFrom isFolded (isBlank c) 0 lines

def joinLines (isFolded : Bool) : Nat → List (List Char) → List Char
  | _, [] => []
  | n, [] :: lines => joinLines isFolded (n + 1) lines
  | n, (c :: cs) :: lines =>
    List.replicate n '\n' ++ c :: cs ++ joinFrom isFolded (isBlank c) 0 lines

def BlockStyle.text (style : BlockStyle) (lines : List (List Char)) : List Char :=
  let body := (lines.reverse.dropWhile List.isEmpty).reverse
  let ends := if body.isEmpty then 0 else 1
  joinLines style.isFolded 0 body ++ List.replicate
    (match style.ending with
    | .strip => 0
    | .clip => ends
    | .keep => ends + (lines.length - body.length))
    '\n'

/-- The column of a text: that of its first line, but not before a given one. -/
def blockColumn (floor : Nat) (ls : List Line) : Nat :=
  match ls.find? (!·.content.isEmpty) with
  | some l => max l.indent (max floor 1)
  | none => ls.foldl (fun n l => max n l.indent) (max floor 1)

def blockText (style : BlockStyle) (floor : Nat) (ls : List Line) : Node × List Line :=
  let column := (style.indent.map (floor - 1 + ·)).getD (blockColumn floor ls)
  let (lines, rest) := takeBlock column ls
  (.constant (String.ofList (style.text lines)) true, rest)

/-! Words and keys -/

def wordLines (floor : Nat) : List Line → List (List Char) × List Line
  | [] => ([], [])
  | l :: ls =>
    if l.content.isEmpty then
      match wordLines floor ls with
      | ([], _) => ([], l :: ls)
      | (lines, rest) => ([] :: lines, rest)
    else if l.indent < floor || l.isTrivia then ([], l :: ls)
    else
      let (text, isCut) := cutComment l.content
      if isCut then ([trimBoth isBlank text], ls)
      else
        let (lines, rest) := wordLines floor ls
        (trimBoth isBlank text :: lines, rest)

def wordNode (floor : Nat) (content : List Char) (ls : List Line) : Node × List Line :=
  let (text, isCut) := cutComment content
  let (lines, rest) := if isCut then ([], ls) else wordLines floor ls
  (.constant (String.ofList (foldLines (trimBoth isBlank text :: lines))) false, rest)

/-- What follows the colon of a key, which ends the line or has a blank behind it. -/
def afterColon? : List Char → Option (List Char)
  | [':'] => some []
  | ':' :: c :: rest => if isBlank c then some (rest.dropWhile isBlank) else none
  | _ => none

def plainKey? : List Char → Option (List Char × List Char)
  | [] => none
  | c :: cs =>
    match afterColon? (c :: cs) with
    | some rest => some ([], rest)
    | none =>
      if isBlank c && cs.head? == some '#' then none
      else (plainKey? cs).map fun (key, rest) => (c :: key, rest)

def key? (cs : List Char) : Option (String × List Char) :=
  match cs with
  | [] => none
  | c :: _ =>
    if c == '\'' || c == '"' then do
      let (key, rest) ← quoted? cs
      return (String.ofList key, ← afterColon? (rest.dropWhile isBlank))
    else if isBracket c then none
    else (plainKey? cs).map fun (key, rest) => (String.ofList (trimRight isBlank key), rest)

/-! Values -/

mutual

/-- The value that begins on the first of some lines, at or behind a column, and the lines after
it. The items of a list in a field may begin one column before. The first argument bounds the
nesting of calls. -/
def node? : Nat → Nat → Bool → List Line → Option (Node × List Line)
  | 0, _, _, _ => none
  | fuel + 1, floor, inField, ls =>
    match ls.dropWhile Line.isTrivia with
    | [] => some (.blank, [])
    | l :: ls =>
      if floor ≤ l.indent || (inField && l.isItem && floor == l.indent + 1) then
        begun? fuel floor inField l ls
      else some (.blank, l :: ls)

def begun? : Nat → Nat → Bool → Line → List Line → Option (Node × List Line)
  | 0, _, _, _, _ => none
  | fuel + 1, floor, inField, l, ls =>
    match l.content with
    | [] => node? fuel floor inField ls
    | c :: cs =>
      let name := cs.takeWhile (!isBlank ·)
      let rest := cs.drop name.length
      let inner := rest.dropWhile isBlank
      let further : Line := ⟨l.indent + 1 + (cs.length - inner.length), inner⟩
      if c == '#' then node? fuel floor inField ls
      else if l.isItem then
        (items? fuel l.indent (l :: ls)).map fun (items, ls) => (.list items, ls)
      else if c == '&' then
        (begun? fuel floor inField further ls).map fun (n, ls) =>
          (.named (String.ofList name) n, ls)
      else if c == '!' then
        (begun? fuel floor inField further ls).map fun (n, ls) =>
          (n.tagged (String.ofList name), ls)
      else if c == '*' then
        (linesAfter? (textFrom rest ls)).map (.reference (String.ofList name), ·)
      else if c == '|' || c == '>' then
        (BlockStyle.ofHeader? c cs).map (blockText · floor ls)
      else if (key? l.content).isSome then
        (fields? fuel l.indent (l :: ls)).map fun (fields, ls) => (.object fields, ls)
      else if c == '\'' || c == '"' || c == '[' || c == '\x7b' then do
        let (n, rest) ← flowValue? (textFrom l.content ls)
        return (n, ← linesAfter? rest)
      else some (wordNode floor l.content ls)

def items? : Nat → Nat → List Line → Option (List Node × List Line)
  | 0, _, _ => none
  | fuel + 1, indent, ls =>
    match ls.dropWhile Line.isTrivia with
    | [] => some ([], [])
    | l :: ls =>
      if l.indent = indent ∧ l.isItem then do
        let rest := l.content.drop 1
        let inner := rest.dropWhile isBlank
        let further : Line := ⟨indent + 1 + (rest.length - inner.length), inner⟩
        let (item, ls) ← begun? fuel (indent + 1) false further ls
        let (items, ls) ← items? fuel indent ls
        return (item :: items, ls)
      else if indent < l.indent then none
      else some ([], l :: ls)

def fields? : Nat → Nat → List Line → Option (List (String × Node) × List Line)
  | 0, _, _ => none
  | fuel + 1, indent, ls =>
    match ls.dropWhile Line.isTrivia with
    | [] => some ([], [])
    | l :: ls =>
      if l.indent = indent ∧ !l.isItem then do
        let (key, rest) ← key? l.content
        let further : Line := ⟨indent + (l.content.length - rest.length), rest⟩
        let (value, ls) ← begun? fuel (indent + 1) true further ls
        let (fields, ls) ← fields? fuel indent ls
        return ((key, value) :: fields, ls)
      else if indent < l.indent then none
      else some ([], l :: ls)

end

/-! Documents -/

def documentStart (ls : List Line) : List Line :=
  match ls.dropWhile fun l => l.isTrivia || l.content.head? == some '%' with
  | [] => []
  | l :: ls =>
    let inner := (l.content.drop 3).dropWhile isBlank
    if l.isMarker ['-', '-', '-'] then ⟨l.content.length - inner.length, inner⟩ :: ls else l :: ls

def isEnd (l : Line) : Bool := l.isMarker ['-', '-', '-'] || l.isMarker ['.', '.', '.']

/-- The node of a YAML text, which must be a single document. -/
def parse? (s : String) : Option Node := do
  let ls := documentStart (linesOf (s.toList.dropWhile (· == '\ufeff')))
  let body := ls.takeWhile (!isEnd ·)
  let after := ls.drop body.length
  guard (after.all fun l => l.isTrivia || l.isMarker ['.', '.', '.'])
  let (n, rest) ← node? (4 * s.length + 8) 0 false body
  guard (rest.all Line.isTrivia)
  let (n, _) ← n.resolve []
  return n

end CartoStyle.Yaml
