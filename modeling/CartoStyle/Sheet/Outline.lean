import CartoStyle.Text.Quoting

/-!
Outlines of stylesheets to be written, and their text. An outline lists its
rules in order, each with its properties in order and one nested block for
every part. Directives come first, a blank line stands in front of every rule
that does not begin the text, and nested lines are indented.
-/

namespace CartoStyle.Sheet

/-- Properties in order, each with its values. -/
abbrev PropertyList := List (String × List String)

/-- A block nested in a rule for a part of its symbolizers. -/
structure OutlinePart where
  part : String
  properties : PropertyList
deriving DecidableEq, Repr

structure OutlineRule where
  selectors : List String
  title : Option String := none
  properties : PropertyList := []
  parts : List OutlinePart := []
  /-- The place of the rule among the rules of the style. -/
  group : Nat := 0
deriving DecidableEq, Repr

structure Outline where
  mode : Option String := none
  title : Option String := none
  abstract : Option String := none
  rules : List OutlineRule := []
deriving DecidableEq, Repr

def renderProperties (indent : String) (properties : PropertyList) : String :=
  String.join (properties.map fun (key, values) =>
    indent ++ key ++ ": " ++ ", ".intercalate values ++ ";\n")

def OutlinePart.render (indent : String) (p : OutlinePart) : String :=
  indent ++ ":" ++ p.part ++ " \x7b\n" ++ renderProperties (indent ++ indent) p.properties ++
    indent ++ "\x7d\n"

def OutlineRule.render (indent : String) (r : OutlineRule) : String :=
  ((r.title.map fun title => "/* @title " ++ title ++ " */\n").getD "") ++
    ", ".intercalate r.selectors ++ " \x7b\n" ++ renderProperties indent r.properties ++
    String.join (r.parts.map (OutlinePart.render indent)) ++ "\x7d\n"

namespace Outline

def directive (keyword : String) (value : Option String) : String :=
  (value.map fun text => keyword ++ " " ++ Text.quote text ++ ";\n").getD ""

def directives (o : Outline) : String :=
  directive "@mode" o.mode ++ directive "@styleTitle" o.title ++
    directive "@styleAbstract" o.abstract

def render (indent : String) (o : Outline) : String :=
  let rules := o.rules.map (OutlineRule.render indent)
  if o.directives.isEmpty then "\n".intercalate rules
  else o.directives ++ String.join (rules.map ("\n" ++ ·))

end Outline

end CartoStyle.Sheet
