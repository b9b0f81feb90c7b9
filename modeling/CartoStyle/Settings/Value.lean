import CartoStyle.Decimal.Layout
import CartoStyle.Settings

/-!
Values of settings, as files and overrides give them, and the settings they
amount to. Tables are merged key by key; any other value replaces the one
before it. Texts, truth values and numbers stand in for each other where the
meaning is plain; lists and tables stand for nothing else.
-/

namespace CartoStyle.Settings

/-- A value of a setting or of a group of settings. -/
inductive Setting where
  | absent
  | bool (value : Bool)
  | integer (value : Int)
  | float (value : Float)
  | text (value : String)
  | list (items : List Setting)
  | table (entries : List (String × Setting))

namespace Setting

/-- The entries of a table; any other value has none. -/
def entries : Setting → List (String × Setting)
  | table es => es
  | _ => []

/-- The entries with a value under a key, in the place of the one that was there. -/
def put (key : String) (value : Setting) : List (String × Setting) → List (String × Setting)
  | [] => [(key, value)]
  | (k, v) :: es => if k = key then (k, value) :: es else (k, v) :: put key value es

mutual

def merge (base : Setting) : Setting → Setting
  | table es => table (mergeEntries base.entries es)
  | value => value

def mergeEntries (base : List (String × Setting)) :
    List (String × Setting) → List (String × Setting)
  | [] => base
  | (key, value) :: es =>
    mergeEntries (put key (merge ((base.lookup key).getD absent) value) base) es

end

def text? : Setting → Option String
  | text s => some s
  | bool b => some (if b then "true" else "false")
  | integer n => some (toString n)
  | float x => some (Decimal.display x)
  | _ => none

def truthWords : List (String × Bool) :=
  [("1", true), ("true", true), ("on", true), ("yes", true),
    ("0", false), ("false", false), ("off", false), ("no", false)]

/-- The truth value of a value that has one; numbers other than zero are true. -/
def bool? : Setting → Option Bool
  | bool b => some b
  | integer n => some (n != 0)
  | float x => some (x != 0.0)
  | text s => truthWords.lookup s.toLower
  | _ => none

def texts? : Setting → Option (List String)
  | list items => items.mapM text?
  | _ => none

def get? (key : String) : Setting → Option Setting
  | table es => es.lookup key
  | _ => none

def settings? (s : Setting) : Option Settings := do
  let reader ← s.get? "reader"
  let writer ← s.get? "writer"
  let scaleAttributes ← (← reader.get? "scale_attributes").texts?
  let indent ← (← writer.get? "indent").text?
  let emitMode ← (← writer.get? "emit_mode").bool?
  return { scaleAttributes, indent, emitMode }

end Setting

def table (s : Settings) : Setting :=
  .table [
    ("reader", .table [("scale_attributes", .list (s.scaleAttributes.map .text))]),
    ("writer", .table [("indent", .text s.indent), ("emit_mode", .bool s.emitMode)])]

/-- Settings are what their table amounts to. -/
theorem settings?_table (s : Settings) : s.table.settings? = some s := by
  have texts : (s.scaleAttributes.map Setting.text).mapM Setting.text? =
      some s.scaleAttributes := by
    induction s.scaleAttributes with
    | nil => rfl
    | cons a rest ih => simp [List.mapM_cons, Setting.text?, ih]
  have other : ("writer" == "reader") = false := by decide
  have last : ("emit_mode" == "indent") = false := by decide
  simp [table, Setting.settings?, Setting.get?, Setting.texts?, texts, Setting.text?,
    Setting.bool?, List.lookup_cons, other, last]

end CartoStyle.Settings
