import CartoStyle.Tree.Json
import CartoStyle.Tree.Yaml.Constant

/-!
YAML text of trees. Every field and every item is put on lines of its own; the
items of a list in a field are not indented. A text is written plainly where
no reader could take it for anything else, line by line if it has several
lines, and in quotes otherwise.
-/

namespace CartoStyle.Yaml

def isPrintable (c : Char) : Bool :=
  let n := c.toNat
  (0x20 ≤ n && n ≤ 0x7E) || (0xA0 ≤ n && n != 0xFEFF && n != 0xFFFE && n != 0xFFFF)

/-- The words for truth values, in this version of the format and in the one before. -/
def truthWords : List String :=
  ["y", "Y", "yes", "Yes", "YES", "n", "N", "no", "No", "NO", "true", "True", "TRUE", "false",
    "False", "FALSE", "on", "On", "ON", "off", "Off", "OFF"]

/-- A text that some reader may take for a constant of another kind or for a number. -/
def isAmbiguous (s : String) : Bool :=
  truthWords.contains s || isPadded s ||
    match constantTree s with
    | .text _ => false
    | _ => true

def indicators : List Char :=
  ['#', ',', '[', ']', '\x7b', '\x7d', '&', '*', '!', '|', '>', '\'', '"', '%', '@', '\x60']

/-- A mark that ends a plain text where it stands: a colon before a blank, or a number sign
after one. -/
def hasMark : List Char → Bool
  | [] => false
  | [c] => c == ':'
  | ':' :: ' ' :: _ => true
  | ' ' :: '#' :: _ => true
  | _ :: cs => hasMark cs

def isMarker (cs : List Char) : Bool := cs == ['-', '-', '-'] || cs == ['.', '.', '.']

/-- Separators of lines and paragraphs, which end lines although they are no line feeds. -/
def isSeparator (c : Char) : Bool := c == '\u2028' || c == '\u2029'

def isPlain (s : String) : Bool :=
  match s.toList with
  | [] => false
  | c :: cs =>
    !indicators.contains c && !isMarker ((c :: cs).take 3) &&
      !((c == '?' || c == ':' || c == '-') && cs.head?.all (· == ' ')) &&
      c != ' ' && (c :: cs).getLast? != some ' ' && !hasMark (c :: cs)

def escapeChar (c : Char) : List Char :=
  let code (letter : Char) (width : Nat) : List Char :=
    let ds := (Nat.toDigits 16 c.toNat).map Char.toUpper
    ['\\', letter] ++ List.replicate (width - ds.length) '0' ++ ds
  match c with
  | '"' => ['\\', '"']
  | '\\' => ['\\', '\\']
  | '\x00' => ['\\', '0']
  | '\x07' => ['\\', 'a']
  | '\x08' => ['\\', 'b']
  | '\t' => ['\\', 't']
  | '\n' => ['\\', 'n']
  | '\x0b' => ['\\', 'v']
  | '\x0c' => ['\\', 'f']
  | '\r' => ['\\', 'r']
  | '\x1b' => ['\\', 'e']
  | '\u0085' => ['\\', 'N']
  | '\u2028' => ['\\', 'L']
  | '\u2029' => ['\\', 'P']
  | c =>
    if isPrintable c then [c]
    else if c.toNat ≤ 0xFF then code 'x' 2
    else if c.toNat ≤ 0xFFFF then code 'u' 4
    else code 'U' 8

/-- The inside of single quotes, in which quotes are doubled and what follows a separator is
indented. The first argument tells whether a separator comes before. -/
def singleQuotedFrom (indent : List Char) : Bool → List Char → List Char
  | separated, [] => if separated then indent else []
  | separated, c :: cs =>
    if isSeparator c then c :: singleQuotedFrom indent true cs
    else (if separated then indent else []) ++ (if c = '\'' then ['\'', '\''] else [c]) ++
      singleQuotedFrom indent false cs

def singleQuoted (indent s : String) : String :=
  String.ofList (['\''] ++ singleQuotedFrom indent.toList false s.toList ++ ['\''])

def doubleQuoted (s : String) : String :=
  String.ofList (['"'] ++ s.toList.flatMap escapeChar ++ ['"'])

def hasLooseSeparator : List Char → Bool
  | c :: d :: cs =>
    (isSeparator c && d == ' ') || (c == ' ' && isSeparator d) || hasLooseSeparator (d :: cs)
  | _ => false

def endsLine (c : Char) : Bool := c == '\n' || isSeparator c

/-- A text of several lines can be written line by line: no line of it ends in a space. -/
def isBlock (s : String) : Bool :=
  s.toList.contains '\n' && s.toList.all (fun c => c == '\n' || isPrintable c) &&
    (s.toList.splitOnP endsLine).all fun line => line.getLast? != some ' '

/-- The lines of a text, each of which is indented unless it is empty. The first argument tells
whether a line begins. -/
def indented (indent : List Char) : Bool → List Char → List Char
  | _, [] => []
  | fresh, c :: cs =>
    if endsLine c then c :: indented indent true cs
    else (if fresh then indent else []) ++ c :: indented indent false cs

/-- A text line by line below an indentation. The mark in front says whether a line end or
several come last, and how far the lines are indented if the first one begins blank. -/
def block (indent s : String) : String :=
  let hint := if s.toList.head?.all (fun c => c == ' ' || endsLine c) then "2" else ""
  let keep := match s.toList.reverse with
    | c :: cs => if !endsLine c then "-" else if cs.head?.all endsLine then "+" else ""
    | [] => "-"
  "|" ++ hint ++ keep ++ "\n" ++ String.ofList (indented indent.toList true s.toList)

def closed (form : String) : String :=
  if form.toList.getLast?.any endsLine then form else form ++ "\n"

def textForm (indent s : String) : String :=
  if isBlock s then block indent s
  else if !s.toList.all isPrintable || hasLooseSeparator s.toList then doubleQuoted s
  else if isAmbiguous s || !isPlain s || s.toList.any isSeparator then singleQuoted indent s
  else s

def numberText (x : Float) : String :=
  if x.isFinite then Json.numberLayout.write x
  else if x.isNaN then ".nan" else if 0.0 < x then ".inf" else "-.inf"

/-- The form of a tree without parts, whose further lines stand below an indentation. -/
def inline? (indent : String) : Tree → Option String
  | .null => some "null"
  | .bool b => some (if b then "true" else "false")
  | .number x => some (numberText x)
  | .text s => some (textForm indent s)
  | .list [] => some "[]"
  | .object [] => some "\x7b\x7d"
  | _ => none

mutual

/-- The lines of a tree below an indentation, which the first line has already. -/
def render (indent : String) : Tree → String
  | .list (t :: ts) => renderItems indent (t :: ts)
  | .object (f :: fs) => renderFields indent (f :: fs)
  | t => closed ((inline? indent t).getD "")

def renderItems (indent : String) : List Tree → String
  | [] => ""
  | t :: ts =>
    let later := renderItems indent ts
    "- " ++ render (indent ++ "  ") t ++ if later.isEmpty then "" else indent ++ later

def renderFields (indent : String) : List (String × Tree) → String
  | [] => ""
  | (name, t) :: fs =>
    let later := renderFields indent fs
    let value := match t with
      | .list (t :: ts) => "\n" ++ indent ++ renderItems indent (t :: ts)
      | .object (f :: fs) => "\n" ++ indent ++ "  " ++ renderFields (indent ++ "  ") (f :: fs)
      | t => " " ++ closed ((inline? (indent ++ "  ") t).getD "")
    name ++ ":" ++ value ++ if later.isEmpty then "" else indent ++ later

end

def write (t : Tree) : String := render "" t

end CartoStyle.Yaml
