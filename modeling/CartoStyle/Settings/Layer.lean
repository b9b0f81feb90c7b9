import CartoStyle.Settings.Toml

/-!
Layers of settings. Files are laid over the default settings in order, and
single values over all files. The key of a single value is a path of names
and list positions. A file that must exist has to be there, and every file
that is there has to be readable.
-/

namespace CartoStyle.Settings

inductive Layer where
  /-- A file with its content, absent if there is no such file, and whether it must exist. -/
  | file (content : Option String) (required : Bool)
  /-- A value under a key. -/
  | override (key : String) (value : Setting)

inductive LayerError where
  | key (key : String)
  | missingFile
  | unreadableFile
  | unsuitable
deriving DecidableEq, Repr

inductive Step where
  | name (key : String)
  | position (index : Int)
deriving DecidableEq, Repr

def isNameChar (c : Char) : Bool := c.isAlphanum || c == ' ' || c == '_' || c == '-'

def position? (cs : List Char) : Option (Int × List Char) := do
  let cs := cs.dropWhile Toml.isSpace
  let (sign, cs) := match cs with
    | '-' :: cs => (-1, cs)
    | cs => (1, cs)
  let digits := cs.takeWhile Char.isDigit
  guard !digits.isEmpty
  let ']' :: rest := (cs.drop digits.length).dropWhile Toml.isSpace | none
  return (sign * (Decimal.ofDigits digits : Int), rest)

/-- The further steps of a path. The first argument bounds their number. -/
def steps? : Nat → List Char → Option (List Step)
  | _, [] => some []
  | 0, _ :: _ => none
  | fuel + 1, '.' :: cs => do
    let word := cs.takeWhile isNameChar
    guard !word.isEmpty
    return .name (String.ofList word) :: (← steps? fuel (cs.drop word.length))
  | fuel + 1, '[' :: cs => do
    let (index, rest) ← position? cs
    return .position index :: (← steps? fuel rest)
  | _ + 1, _ :: _ => none

/-- The path of a key: a name, and then names after points and positions in brackets. -/
def path? (key : String) : Option (List Step) := steps? (key.length + 1) ('.' :: key.toList)

/-- A list with a value at a position, made longer if it ends before. -/
def placeAt (index : Nat) (value : Setting) (items : List Setting) : List Setting :=
  (items ++ List.replicate (index + 1 - items.length) Setting.absent).set index value

def place : List Step → Setting → Setting → Setting
  | [], value, base => Setting.merge base value
  | .name key :: steps, value, base =>
    .table (Setting.put key (place steps value ((base.get? key).getD .absent)) base.entries)
  | .position index :: steps, value, base =>
    let items := match base with
      | .list items => items
      | _ => []
    if 0 ≤ index then
      .list (placeAt index.toNat (place steps value (items[index.toNat]?.getD .absent)) items)
    else if index.natAbs ≤ items.length then
      let index := items.length - index.natAbs
      .list (placeAt index (place steps value (items[index]?.getD .absent)) items)
    else .list items

def overrides : List Layer → Except LayerError (List (List Step × Setting))
  | [] => .ok []
  | .file _ _ :: layers => overrides layers
  | .override key value :: layers =>
    match path? key with
    | none => .error (.key key)
    | some path => return (path, value) :: (← overrides layers)

def tables : List Layer → Except LayerError (List Setting)
  | [] => .ok []
  | .override _ _ :: layers => tables layers
  | .file none required :: layers => if required then .error .missingFile else tables layers
  | .file (some content) _ :: layers =>
    match Toml.parse? content with
    | none => .error .unreadableFile
    | some t => return t :: (← tables layers)

def ofLayers (layers : List Layer) : Except LayerError Settings := do
  let single ← overrides layers
  let files ← tables layers
  let base := files.foldl Setting.merge (table {})
  let full := single.foldl (fun base (path, value) => place path value base) base
  match full.settings? with
  | some settings => .ok settings
  | none => .error .unsuitable

end CartoStyle.Settings
