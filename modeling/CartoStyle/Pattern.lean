/-!
Regular patterns over characters. A pattern denotes a set of texts. Its
remainder after a character denotes the texts that complete that character to
a match, so following the remainders along a text finds the longest match at
its start. Constructors that can never match collapse, which ends the search
as soon as no longer match is possible.
-/

namespace CartoStyle

inductive Pattern where
  /-- No text. -/
  | never
  /-- The empty text. -/
  | nothing
  /-- One character of a class. -/
  | one (accepts : Char → Bool)
  /-- A text of the first pattern and then one of the second. -/
  | seq (first second : Pattern)
  /-- A text of either pattern. -/
  | alt (left right : Pattern)
  /-- Any number of texts of a pattern, one after the other. -/
  | many (item : Pattern)

namespace Pattern

inductive Matches : Pattern → List Char → Prop
  | nothing : Matches .nothing []
  | one {accepts : Char → Bool} {c : Char} (h : accepts c = true) : Matches (.one accepts) [c]
  | seq {a b : Pattern} {xs ys : List Char} (hx : Matches a xs) (hy : Matches b ys) :
      Matches (.seq a b) (xs ++ ys)
  | left {a b : Pattern} {xs : List Char} (h : Matches a xs) : Matches (.alt a b) xs
  | right {a b : Pattern} {xs : List Char} (h : Matches b xs) : Matches (.alt a b) xs
  | done {a : Pattern} : Matches (.many a) []
  | more {a : Pattern} {xs ys : List Char} (hx : Matches a xs) (hy : Matches (.many a) ys) :
      Matches (.many a) (xs ++ ys)

def acceptsEmpty : Pattern → Bool
  | never => false
  | nothing => true
  | one _ => false
  | seq a b => a.acceptsEmpty && b.acceptsEmpty
  | alt a b => a.acceptsEmpty || b.acceptsEmpty
  | many _ => true

/-- A sequence in which a part that never matches shows, and an empty first part does not. -/
def thenOn : Pattern → Pattern → Pattern
  | never, _ => never
  | nothing, b => b
  | _, never => never
  | a, b => seq a b

/-- A choice without alternatives that never match. -/
def orElse : Pattern → Pattern → Pattern
  | never, b => b
  | a, never => a
  | a, b => alt a b

/-- The texts that complete a character to a match. -/
def after (c : Char) : Pattern → Pattern
  | never => never
  | nothing => never
  | one accepts => if accepts c then nothing else never
  | seq a b =>
    if a.acceptsEmpty then ((a.after c).thenOn b).orElse (b.after c) else (a.after c).thenOn b
  | alt a b => (a.after c).orElse (b.after c)
  | many a => (a.after c).thenOn (many a)

def isNever : Pattern → Bool
  | never => true
  | _ => false

def longest? (p : Pattern) : List Char → Option Nat
  | [] => if p.acceptsEmpty then some 0 else none
  | c :: cs =>
    if p.isNever then none
    else match (p.after c).longest? cs with
      | some n => some (n + 1)
      | none => if p.acceptsEmpty then some 0 else none

def literal (s : String) : Pattern := s.toList.foldr (fun c p => seq (one (· == c)) p) nothing

def anyCase (s : String) : Pattern :=
  s.toList.foldr (fun c p => seq (one (·.toLower == c.toLower)) p) nothing

def inOrder (ps : List Pattern) : Pattern := ps.foldr seq nothing

def anyOf (ps : List Pattern) : Pattern := ps.foldr alt never

def atLeastOne (p : Pattern) : Pattern := seq p (many p)

def optional (p : Pattern) : Pattern := alt p nothing

end Pattern

end CartoStyle
