/-!
Data trees, the common content of the written forms of a document. A tree is
a constant, a list, or an object with named fields. A record is read from the
fields of an object, whatever their order and whatever other fields there are,
or from a list of the values in the order of the fields. An optional field may
be absent or null.
-/

namespace CartoStyle

inductive Tree where
  | null
  | bool (value : Bool)
  | number (value : Float)
  | text (value : String)
  | list (items : List Tree)
  | object (fields : List (String × Tree))
deriving Inhabited

namespace Tree

abbrev Fields := List (String × Tree)

def unrepeated (names : List String) (fs : Fields) : Bool :=
  names.all fun name => (fs.filter (·.1 == name)).length ≤ 1

def fields? (names : List String) : Tree → Option Fields
  | object fs => if unrepeated names fs then some fs else none
  | list items => if items.length ≤ names.length then some (names.zip items) else none
  | _ => none

def text? : Tree → Option String
  | text s => some s
  | _ => none

def number? : Tree → Option Float
  | number x => some x
  | _ => none

/-- The items of a list, each of which must be readable. -/
def list? {α : Type} (read : Tree → Option α) : Tree → Option (List α)
  | list items => items.mapM read
  | _ => none

/-- A word with a fixed spelling. It may also be the only name of an object without value. -/
def word? : Tree → Option String
  | text s => some s
  | object [(s, null)] => some s
  | object [(s, object [])] => some s
  | _ => none

def spelled? {α : Type} (spelling : α → String) (values : List α) (t : Tree) : Option α :=
  t.word?.bind fun s => values.find? fun v => spelling v == s

def tagged? (tag : String) : Tree → Option (String × Tree)
  | object fs => do
    guard (unrepeated [tag] fs)
    let kind ← (fs.lookup tag).bind text?
    return (kind, object (fs.filter (·.1 != tag)))
  | list (text kind :: items) => some (kind, list items)
  | _ => none

def required {α : Type} (read : Tree → Option α) (name : String) (fs : Fields) : Option α :=
  (fs.lookup name).bind read

/-- A field that may be absent or null. -/
def optional {α : Type} (read : Tree → Option α) (name : String) (fs : Fields) :
    Option (Option α) :=
  match fs.lookup name with
  | none => some none
  | some null => some none
  | some t => (read t).map some

/-- The field of an optional value, which is left out if the value is absent. -/
def field {α : Type} (name : String) (write : α → Tree) (value : Option α) : Fields :=
  (value.map fun v => (name, write v)).toList

def numbers (xs : List Float) : Tree := list (xs.map number)

def texts (ss : List String) : Tree := list (ss.map text)

end Tree

end CartoStyle
