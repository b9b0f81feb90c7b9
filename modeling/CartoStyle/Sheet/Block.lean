import CartoStyle.KeyMap

/-!
Block trees. A stylesheet is a list of top-level blocks and a few directives
about the whole style. A block has selector alternatives, properties and
nested blocks. Blocks are numbered by their top-level block (the group) and,
within a group, by the order of their opening braces.
-/

namespace CartoStyle.Sheet

structure Directives where
  mode : Option String := none
  title : Option String := none
  abstract : Option String := none
deriving DecidableEq

/-- A block and everything nested in it. -/
structure Block where
  /-- The alternatives of this block alone, without those of the blocks around it. -/
  selectors : List String
  title : Option String
  properties : KeyMap (List String)
  /-- One for top-level blocks. -/
  level : Nat
  /-- The index of the top-level block around it. -/
  group : Nat
  /-- The place in the order of opening within the group, from one. -/
  id : Nat
  children : List Block

structure Stylesheet where
  directives : Directives := {}
  blocks : List Block := []

mutual

/-- A block and all blocks in it, in the order of their opening braces. -/
def Block.walk : Block → List Block
  | b@⟨_, _, _, _, _, _, children⟩ => b :: Block.walkAll children

def Block.walkAll : List Block → List Block
  | [] => []
  | b :: bs => b.walk ++ Block.walkAll bs

end

def Stylesheet.walk (s : Stylesheet) : List Block := Block.walkAll s.blocks

end CartoStyle.Sheet
