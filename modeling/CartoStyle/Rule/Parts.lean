import CartoStyle.Rule.Record

/-!
Parts of symbolizers. A pseudo-selector record speaks about one part of the
symbolizers of the rules it applies to: those of its own top-level block, or
all rules if it is a top-level block itself, as far as its base selects them.
The value of a key for a part of the i-th symbolizer comes from the first
record that has one, records about the i-th of the part before those about the
part, and those before the records about symbols.
-/

namespace CartoStyle.Rule

/-- The pseudo-selectors that apply to a rule, each with its record. -/
abbrev Parts := List (PseudoSelector × Record)

/-- The base selects every rule of its scope. -/
def PseudoSelector.isGeneric (p : PseudoSelector) : Bool := p.base == "" || p.base == "*"

def appliesTo (rule pseudo : Record) (p : PseudoSelector) : Bool :=
  (pseudo.group == rule.group || pseudo.level == 1) &&
    (p.isGeneric || rule.selectors.contains p.base)

def Parts.ofRecords (rule : Record) (pseudo : List Record) : Parts :=
  pseudo.flatMap fun record =>
    ((record.selectors.filterMap PseudoSelector.parse?).filter (appliesTo rule record)).map
      (·, record)

/-- The row of a record for the symbolizer of some index. A single row stands for all. -/
def Record.rowFor? (r : Record) (index : Nat) : Option Row :=
  match r.rows with
  | [single] => some single
  | rows => rows[index]?

/-- The names under which a value for a part is looked up, in order, with the position that
the pseudo-selector must name. -/
def candidates (part : String) (index : Nat) : List (String × Option Nat) :=
  [("nth-" ++ part, some (index + 1)), (part, none), ("nth-symbol", some (index + 1)),
    ("symbol", none)]

def Parts.value? (parts : Parts) (part : String) (index : Nat) (key : String) : Option String :=
  (candidates part index).findSome? fun (name, position) =>
    parts.findSome? fun (p, record) =>
      if p.part == name && p.index == position then
        (record.rowFor? index).bind (·.get? key)
      else none

end CartoStyle.Rule
