import CartoStyle.Tree.Json
import CartoStyle.Tree.Yaml.Node

/-!
Flow forms of YAML: texts in quotes, words, lists in brackets and objects in
braces. They may be spread over lines. Within a text a single line end stands
for a space, and of several line ends the first one is dropped.
-/

namespace CartoStyle.Yaml

def isBlank (c : Char) : Bool := c == ' ' || c == '\t'

def isSpace (c : Char) : Bool := isBlank c || c == '\n'

def trimRight (p : Char → Bool) (cs : List Char) : List Char := (cs.reverse.dropWhile p).reverse

def trimBoth (p : Char → Bool) (cs : List Char) : List Char := trimRight p (cs.dropWhile p)

/-- What some line ends in a row stand for within a text. -/
def breaks : Nat → List Char
  | 0 => []
  | 1 => [' ']
  | n + 2 => List.replicate (n + 1) '\n'

/-- Lines of a text after some line ends. Empty lines add to the line ends. -/
def foldFrom : Nat → List (List Char) → List Char
  | _, [] => []
  | n, [last] => breaks n ++ last
  | n, [] :: lines => foldFrom (n + 1) lines
  | n, line :: lines => breaks n ++ line ++ foldFrom 1 lines

def foldLines : List (List Char) → List Char
  | [] => []
  | [only] => only
  | first :: lines => first ++ foldFrom 1 lines

def trimInner : List (List Char) → List (List Char)
  | [] => []
  | [last] => [last.dropWhile isBlank]
  | line :: lines => trimBoth isBlank line :: trimInner lines

def foldQuoted (cs : List Char) : List Char :=
  match cs.splitOn '\n' with
  | [only] => only
  | first :: lines => foldLines (trimRight isBlank first :: trimInner lines)
  | [] => []

/-- What stands before the end of a text in single quotes, and what follows. Doubled quotes
stand for one. -/
def singleQuoted? : List Char → Option (List Char × List Char)
  | '\'' :: '\'' :: cs => (singleQuoted? cs).map fun (text, rest) => ('\'' :: text, rest)
  | '\'' :: cs => some ([], cs)
  | c :: cs => (singleQuoted? cs).map fun (text, rest) => (c :: text, rest)
  | [] => none

/-- What stands before the end of a text in double quotes, with its escapes, and what follows.
A backslash at the end of a line joins the next one to it. -/
def doubleQuoted? (cs : List Char) : Option (List Char × List Char) :=
  match cs with
  | [] => none
  | '"' :: cs => some ([], cs)
  | '\\' :: '\n' :: cs => doubleQuoted? (cs.dropWhile isBlank)
  | '\\' :: c :: cs => (doubleQuoted? cs).map fun (text, rest) => ('\\' :: c :: text, rest)
  | c :: cs => (doubleQuoted? cs).map fun (text, rest) => (c :: text, rest)
termination_by cs.length
decreasing_by
  · have := (List.dropWhile_suffix isBlank (l := cs)).length_le
    simp only [List.length_cons]
    omega
  all_goals
    simp only [List.length_cons]
    omega

def escaped? : Char → Option Char
  | '0' => some '\x00'
  | 'a' => some '\x07'
  | 'b' => some '\x08'
  | 't' | '\t' => some '\t'
  | 'n' => some '\n'
  | 'v' => some '\x0b'
  | 'f' => some '\x0c'
  | 'r' => some '\r'
  | 'e' => some '\x1b'
  | ' ' => some ' '
  | '"' => some '"'
  | '/' => some '/'
  | '\\' => some '\\'
  | 'N' => some '\u0085'
  | '_' => some '\u00a0'
  | 'L' => some '\u2028'
  | 'P' => some '\u2029'
  | _ => none

def coded? (cs : List Char) : Option Char := (digitsIn? 16 cs).bind Json.charOf?

def unescape? : List Char → Option (List Char)
  | [] => some []
  | '\\' :: 'x' :: a :: b :: cs => do return (← coded? [a, b]) :: (← unescape? cs)
  | '\\' :: 'u' :: a :: b :: c :: d :: cs => do
    return (← coded? [a, b, c, d]) :: (← unescape? cs)
  | '\\' :: 'U' :: a :: b :: c :: d :: e :: f :: g :: h :: cs => do
    return (← coded? [a, b, c, d, e, f, g, h]) :: (← unescape? cs)
  | '\\' :: c :: cs => do return (← escaped? c) :: (← unescape? cs)
  | c :: cs => do return c :: (← unescape? cs)

def quoted? : List Char → Option (List Char × List Char)
  | '\'' :: cs => (singleQuoted? cs).map fun (text, rest) => (foldQuoted text, rest)
  | '"' :: cs => do
    let (text, rest) ← doubleQuoted? cs
    return (← unescape? (foldQuoted text), rest)
  | _ => none

def isBracket (c : Char) : Bool := [',', '[', ']', '\x7b', '\x7d'].contains c

def endsWord (c : Char) (next : Option Char) : Bool :=
  isBracket c || (c == ':' && next.all fun d => isSpace d || isBracket d) ||
    (isSpace c && next == some '#')

def word : List Char → List Char × List Char
  | [] => ([], [])
  | c :: cs =>
    if endsWord c cs.head? then ([], c :: cs)
    else
      let (text, rest) := word cs
      (c :: text, rest)

def foldWord (cs : List Char) : List Char :=
  foldLines (((trimBoth isSpace cs).splitOn '\n').map (trimBoth isBlank))

/-- A text without the blanks, line ends and comments at its start. The first argument tells
whether a comment has begun. -/
def skip : Bool → List Char → List Char
  | _, [] => []
  | isComment, c :: cs =>
    if c == '\n' then skip false cs
    else if isComment || c == '#' then skip true cs
    else if isBlank c then skip false cs
    else c :: cs

def nameOf (cs : List Char) : String × List Char :=
  let name := cs.takeWhile fun c => !isSpace c && !isBracket c
  (String.ofList name, cs.drop name.length)

mutual

/-- A value in a flow form, and what follows it. The first argument bounds the nesting of
calls. -/
def flow? : Nat → List Char → Option (Node × List Char)
  | 0, _ => none
  | fuel + 1, cs =>
    match skip false cs with
    | '[' :: rest => (flowItems? fuel rest).map fun (items, rest) => (.list items, rest)
    | '\x7b' :: rest => (flowFields? fuel rest).map fun (fields, rest) => (.object fields, rest)
    | '*' :: rest =>
      let (name, rest) := nameOf rest
      some (.reference name, rest)
    | '&' :: rest =>
      let (name, rest) := nameOf rest
      (flow? fuel rest).map fun (n, rest) => (.named name n, rest)
    | '!' :: rest =>
      let (tag, rest) := nameOf rest
      (flow? fuel rest).map fun (n, rest) => (n.tagged tag, rest)
    | c :: rest =>
      if c == '\'' || c == '"' then
        (quoted? (c :: rest)).map fun (text, rest) => (.constant (String.ofList text) true, rest)
      else
        let (text, rest) := word (c :: rest)
        some (.constant (String.ofList (foldWord text)) false, rest)
    | [] => none

/-- The items of a list after its opening bracket or a comma. An item may be a key with its
value. -/
def flowItems? : Nat → List Char → Option (List Node × List Char)
  | 0, _ => none
  | fuel + 1, cs =>
    match skip false cs with
    | ']' :: rest => some ([], rest)
    | rest => do
      let (item, rest) ← flow? fuel rest
      let (item, rest) ← match skip false rest with
        | ':' :: rest => (flow? fuel rest).map fun (value, rest) =>
          (.object [(item.spelling, value)], rest)
        | rest => some (item, rest)
      match skip false rest with
      | ']' :: rest => return ([item], rest)
      | ',' :: rest =>
        let (items, rest) ← flowItems? fuel rest
        return (item :: items, rest)
      | _ => none

/-- The fields of an object after its opening brace or a comma. A key may have no value. -/
def flowFields? : Nat → List Char → Option (List (String × Node) × List Char)
  | 0, _ => none
  | fuel + 1, cs =>
    match skip false cs with
    | '\x7d' :: rest => some ([], rest)
    | rest => do
      let (key, rest) ← flow? fuel rest
      let (value, rest) ← match skip false rest with
        | ':' :: rest => flow? fuel rest
        | rest => some (.blank, rest)
      let field := (key.spelling, value)
      match skip false rest with
      | '\x7d' :: rest => return ([field], rest)
      | ',' :: rest =>
        let (fields, rest) ← flowFields? fuel rest
        return (field :: fields, rest)
      | _ => none

end

def flowValue? (cs : List Char) : Option (Node × List Char) := flow? (2 * cs.length + 2) cs

end CartoStyle.Yaml
