import CartoStyle.Sheet.Block
import CartoStyle.Rule.PseudoSelector
import CartoStyle.Rule.Row

/-!
Rule records. Every block with properties, and every block without nested
blocks, gives one record. Its selectors join one alternative of every
enclosing block, outermost first, in all combinations; its title joins the
titles on the way. Records whose selectors all end in a pseudo-selector
describe parts of symbolizers and are kept apart.
-/

namespace CartoStyle.Rule

/-- What a block says about its own rule. -/
structure Record where
  selectors : List String
  properties : PropertyMap
  rows : List Row
  title : Option String
  level : Nat
  group : Nat
  id : Nat

/-- The records of a stylesheet, each list in the order of the blocks. -/
structure Records where
  rules : List Record
  pseudo : List Record

def combine (combined alternatives : List String) : List String :=
  combined.flatMap fun lead => alternatives.map (lead ++ ·)

/-- What the enclosing blocks, outermost first, contribute to a record. -/
structure Path where
  selectors : List String := [""]
  titles : List String := []

/-- A path extended by a block. Empty titles contribute nothing. -/
def Path.enter (path : Path) (selectors : List String) (title : Option String) : Path where
  selectors := combine path.selectors selectors
  titles := path.titles ++ (title.filter (!·.isEmpty)).toList

def Path.title? (path : Path) : Option String :=
  if path.titles.isEmpty then none else some (", ".intercalate path.titles)

mutual

def recordsOf (path : Path) : Sheet.Block → List Record
  | ⟨selectors, title, properties, level, group, id, children⟩ =>
    let path := path.enter selectors title
    let own : Record :=
      { selectors := path.selectors, properties, rows := splitRows properties
        title := path.title?, level, group, id }
    (if !properties.isEmpty || children.isEmpty then [own] else []) ++ recordsOfAll path children

def recordsOfAll (path : Path) : List Sheet.Block → List Record
  | [] => []
  | b :: bs => recordsOf path b ++ recordsOfAll path bs

end

/-- Every selector of the record ends in a pseudo-selector. -/
def Record.isPseudo (r : Record) : Bool :=
  r.selectors.all fun selector => (PseudoSelector.parse? selector).isSome

def Records.ofSheet (s : Sheet.Stylesheet) : Records :=
  let (pseudo, rules) := (recordsOfAll {} s.blocks).partition Record.isPseudo
  { rules, pseudo }

end CartoStyle.Rule
