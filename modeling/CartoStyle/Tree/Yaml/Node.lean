import CartoStyle.Tree.Yaml.Constant

/-!
Nodes of YAML documents. A node is a constant with its spelling, a list, or an
object; it may have a name, and a reference stands for the node that had the
name last. A document without references has a tree.
-/

namespace CartoStyle.Yaml

/-- Data whose constants keep their spelling. -/
inductive Node where
  | constant (text : String) (isQuoted : Bool)
  | list (items : List Node)
  | object (fields : List (String × Node))
  | named (name : String) (node : Node)
  | reference (name : String)

namespace Node

def blank : Node := .constant "" false

/-- The names in use, the latest first, with the nodes they stand for. -/
abbrev Names := List (String × Node)

mutual

def resolve : Names → Node → Option (Node × Names)
  | names, constant text isQuoted => some (constant text isQuoted, names)
  | names, list items => do
    let (items, names) ← resolveItems names items
    return (list items, names)
  | names, object fields => do
    let (fields, names) ← resolveFields names fields
    return (object fields, names)
  | names, named name node => do
    let (node, names) ← resolve names node
    return (node, (name, node) :: names)
  | names, reference name => (names.lookup name).map (·, names)

def resolveItems : Names → List Node → Option (List Node × Names)
  | names, [] => some ([], names)
  | names, n :: ns => do
    let (n, names) ← resolve names n
    let (ns, names) ← resolveItems names ns
    return (n :: ns, names)

def resolveFields : Names → List (String × Node) → Option (List (String × Node) × Names)
  | names, [] => some ([], names)
  | names, (key, n) :: fs => do
    let (n, names) ← resolve names n
    let (fs, names) ← resolveFields names fs
    return ((key, n) :: fs, names)

end

mutual

def tree : Node → Tree
  | constant text isQuoted => if isQuoted then .text text else constantTree text
  | list items => .list (trees items)
  | object fields => .object (treeFields fields)
  | named _ node => node.tree
  | reference _ => .null

def trees : List Node → List Tree
  | [] => []
  | n :: ns => n.tree :: trees ns

def treeFields : List (String × Node) → List (String × Tree)
  | [] => []
  | (key, n) :: fs => (key, n.tree) :: treeFields fs

end

def spelling : Node → String
  | constant text _ => text
  | _ => ""

def spelled : Node → Node
  | constant text _ => constant text true
  | n => n

def spelledUnlessNull (n : Node) : Node :=
  match n.tree with
  | .null => n
  | _ => n.spelled

/-- A constant that is a number even if its digits begin with a needless zero. -/
def numeral : Node → Node
  | constant text false => constant (if isPadded text then text ++ "." else text) false
  | n => n

def mapField (key : String) (change : Node → Node) : Node → Node
  | object fields => object (fields.map fun (k, n) => (k, if k = key then change n else n))
  | n => n

def mapItems (change : Node → Node) : Node → Node
  | list items => list (items.map change)
  | n => n

/-- A node after what an exclamation mark and a name say about it. -/
def tagged (tag : String) (n : Node) : Node := if tag = "" || tag = "!str" then n.spelled else n

end Node

end CartoStyle.Yaml
