import CartoStyle.Proofs.Value.Derivation
import CartoStyle.Proofs.Value.Rendering

/-!
Derivations of property values. A derivation is a tree, from which both the tokens that it
derives and the expressions of its atoms are read off. An atom ends where no call can begin,
atoms end at a comma or at a parenthesis, and the arguments of a call end at the parenthesis that
closes it, so no tokens have two derivations. A comma or a parenthesis belongs to a call.
-/

namespace CartoStyle.PropertyValue

inductive Leaf where
  | hex (colour : String)
  | number (x : Float)
  | quoted (s : String)
  | brace (name : String)
  | word (w : String)

def Leaf.token : Leaf → Token
  | hex colour => .hex colour
  | number x => .number x
  | quoted s => .quoted s
  | brace name => .brace name
  | word w => .word w

/-- A word is a truth value or a text. -/
def Leaf.expression : Leaf → Expression
  | hex colour => .hex colour
  | number x => .number x
  | quoted s => .text s
  | brace name => .apply .brace [.get name]
  | word w =>
    if w = "true" then .truth true
    else if w = "false" then .truth false
    else .text w

/-- A derivation of a part of a value. Neither atoms nor arguments are ever none, and a call
without arguments is a form of its own. -/
inductive Derivation : Category → Type
  | leaf (l : Leaf) : Derivation .atom
  | bareCall (w : String) : Derivation .atom
  | call (w : String) (args : Derivation .arguments) : Derivation .atom
  | single (only : Derivation .atom) : Derivation .atoms
  | several (first : Derivation .atom) (more : Derivation .atoms) : Derivation .atoms
  | last (arg : Derivation .atoms) : Derivation .arguments
  | next (arg : Derivation .atoms) (more : Derivation .arguments) : Derivation .arguments

namespace Derivation

@[simp]
def tokens : {k : Category} → Derivation k → List Token
  | _, leaf l => [l.token]
  | _, bareCall w => [.word w, .openParen, .closeParen]
  | _, call w args => .word w :: .openParen :: (args.tokens ++ [.closeParen])
  | _, single only => only.tokens
  | _, several first more => first.tokens ++ more.tokens
  | _, last arg => arg.tokens
  | _, next arg more => arg.tokens ++ .comma :: more.tokens

/-- The expression of an atom, or those of the atoms or the arguments in a row. Several atoms
are one argument, as an array. -/
@[simp]
def expressions : {k : Category} → Derivation k → List Expression
  | _, leaf l => [l.expression]
  | _, bareCall w => [.apply (.ofName w.toLower) []]
  | _, call w args => [.apply (.ofName w.toLower) args.expressions]
  | _, single only => only.expressions
  | _, several first more => first.expressions ++ more.expressions
  | _, last arg => [row arg.expressions]
  | _, next arg more => row arg.expressions :: more.expressions

end Derivation

/-- The tokens outside of calls. A word with an opening parenthesis behind it begins a call,
which goes on to the parenthesis that closes it. The number counts the parentheses that are
open. -/
@[simp]
def topLevel : Nat → List Token → List Token
  | _, [] => []
  | 0, .word w :: .openParen :: ts => .word w :: topLevel 1 ts
  | 0, t :: ts => t :: topLevel 0 ts
  | depth + 1, .openParen :: ts => topLevel (depth + 2) ts
  | depth + 1, .closeParen :: ts => topLevel depth ts
  | depth + 1, _ :: ts => topLevel (depth + 1) ts

/-- The tokens do not go on with what continues such a part, and end the arguments of a call. -/
def Ends : Category → List Token → Prop
  | .atom, ts => ts.head? ≠ some .openParen
  | .atoms, ts => Stops ts
  | .arguments, ts => ts.head? = some .closeParen

variable {k : Category} {ts rest rest' : List Token} {es : List Expression}

section Leaves

theorem Leaf.derives (l : Leaf) : Derives .atom [l.token] [l.expression] := by
  cases l with
  | hex colour => exact .hex colour
  | number x => exact .number x
  | quoted s => exact .quoted s
  | brace name => exact .brace name
  | word w => exact .word w

theorem Leaf.beginsAtom_token (l : Leaf) : l.token.beginsAtom = true := by cases l <;> rfl

theorem Leaf.token_injective : Function.Injective Leaf.token := by
  intro l l' h
  cases l <;> cases l' <;> cases h <;> rfl

end Leaves

theorem ends_closeParen (ts : List Token) : Ends .arguments (.closeParen :: ts) := rfl

theorem stops_comma (ts : List Token) : Stops (.comma :: ts) := by
  intro t ht
  cases ht
  exact Or.inl rfl

theorem Ends.stops (h : Ends .arguments ts) : Stops ts := by
  obtain ⟨us, rfl⟩ := List.head?_eq_some_iff.mp h
  intro t ht
  cases ht
  exact Or.inr rfl

theorem Stops.ends_atom (h : Stops ts) : Ends .atom ts := by
  intro hopen
  rcases h _ hopen with h | h <;> cases h

theorem Stops.not_beginsAtom {t : Token} (h : Stops (t :: ts)) : t.beginsAtom = false := by
  rcases h t rfl with rfl | rfl <;> rfl

theorem ends_atom_cons {t : Token} (h : t.beginsAtom = true) (ts : List Token) :
    Ends .atom (t :: ts) := by
  intro hopen
  cases hopen
  cases h

namespace Derivation

theorem exists_tokens_eq (d : Derivation k) : ∃ t ts, d.tokens = t :: ts ∧ t.beginsAtom = true := by
  induction d with
  | leaf l => exact ⟨_, _, rfl, l.beginsAtom_token⟩
  | bareCall | call => exact ⟨_, _, rfl, rfl⟩
  | single _ ih | last _ ih => exact ih
  | several _ _ ih | next _ _ ih =>
    obtain ⟨t, ts, h, ht⟩ := ih
    exact ⟨t, _, by rw [tokens, h, List.cons_append], ht⟩

theorem ends_atom_append (d : Derivation k) (ts : List Token) : Ends .atom (d.tokens ++ ts) := by
  obtain ⟨t, us, h, ht⟩ := d.exists_tokens_eq
  rw [h]
  exact ends_atom_cons ht _

theorem not_stops_append (d : Derivation k) (ts : List Token) : ¬ Stops (d.tokens ++ ts) := by
  obtain ⟨t, us, h, ht⟩ := d.exists_tokens_eq
  rw [h]
  intro hstops
  rw [hstops.not_beginsAtom] at ht
  cases ht

section Grammar

theorem exists_expressions_eq (d : Derivation .atom) : ∃ e, d.expressions = [e] := by
  cases d <;> exact ⟨_, rfl⟩

theorem expressions_ne_nil (d : Derivation k) : d.expressions ≠ [] := by
  induction d with
  | leaf | bareCall | call | last | next => exact List.cons_ne_nil _ _
  | single _ ih => exact ih
  | several _ _ ih => exact List.append_ne_nil_of_left_ne_nil ih _

/-- What a derivation derives, the grammar does. -/
theorem derives (d : Derivation k) : Derives k d.tokens d.expressions := by
  induction d with
  | leaf l => exact l.derives
  | bareCall w => exact .bareCall w
  | call w _ ih => exact .call w ih
  | single only ih =>
    obtain ⟨e, he⟩ := only.exists_expressions_eq
    rw [tokens, expressions, he, ← List.append_nil only.tokens]
    exact .cons (he ▸ ih) .nil
  | several first more ih ihmore =>
    obtain ⟨e, he⟩ := first.exists_expressions_eq
    rw [tokens, expressions, he, List.singleton_append]
    exact .cons (he ▸ ih) ihmore
  | last arg ih => exact .last ih (argument_eq arg.expressions_ne_nil)
  | next arg more ih ihmore => exact .next ih (argument_eq arg.expressions_ne_nil) ihmore

/-- What the grammar derives has a derivation, apart from no atoms at all. -/
theorem exists_of_derives (h : Derives k ts es) (hes : es ≠ []) :
    ∃ d : Derivation k, d.tokens = ts ∧ d.expressions = es := by
  have hargument : ∀ {es : List Expression} {arg : Expression}, argument es = .ok arg →
      es ≠ [] ∧ arg = row es := by
    intro es arg harg
    have hne : es ≠ [] := by
      rintro rfl
      cases harg
    rw [argument_eq hne] at harg
    exact ⟨hne, (Except.ok.inj harg).symm⟩
  induction h with
  | hex colour => exact ⟨leaf (.hex colour), rfl, rfl⟩
  | number x => exact ⟨leaf (.number x), rfl, rfl⟩
  | quoted s => exact ⟨leaf (.quoted s), rfl, rfl⟩
  | brace name => exact ⟨leaf (.brace name), rfl, rfl⟩
  | word w => exact ⟨leaf (.word w), rfl, rfl⟩
  | bareCall w => exact ⟨bareCall w, rfl, rfl⟩
  | call w h ih =>
    obtain ⟨args, rfl, rfl⟩ := ih (by cases h <;> exact List.cons_ne_nil _ _)
    exact ⟨call w args, rfl, rfl⟩
  | nil => exact absurd rfl hes
  | cons h hmore ih ihmore =>
    obtain ⟨first, rfl, hfirst⟩ := ih (List.cons_ne_nil _ _)
    cases hmore with
    | nil => exact ⟨single first, (List.append_nil _).symm, hfirst⟩
    | cons =>
      obtain ⟨more, hmore, hexpressions⟩ := ihmore (List.cons_ne_nil _ _)
      refine ⟨several first more, by rw [tokens, hmore], ?_⟩
      rw [expressions, hfirst, hexpressions, List.singleton_append]
  | last _ harg ih =>
    obtain ⟨hne, rfl⟩ := hargument harg
    obtain ⟨arg, rfl, rfl⟩ := ih hne
    exact ⟨last arg, rfl, rfl⟩
  | next _ harg hmore ih ihmore =>
    obtain ⟨hne, rfl⟩ := hargument harg
    obtain ⟨arg, rfl, rfl⟩ := ih hne
    obtain ⟨more, rfl, rfl⟩ := ihmore (by cases hmore <;> exact List.cons_ne_nil _ _)
    exact ⟨next arg more, rfl, rfl⟩

end Grammar

section Uniqueness

theorem leaf_tokens_append (l : Leaf) (ts : List Token) :
    (leaf l).tokens ++ ts = l.token :: ts := rfl

/-- A leaf does not go on as a call does. -/
theorem leaf_tokens_append_ne (l : Leaf) (hrest : Ends .atom rest) (w : String) (ts : List Token) :
    (leaf l).tokens ++ rest ≠ .word w :: .openParen :: ts := by
  intro h
  rw [leaf_tokens_append] at h
  rw [(List.cons.inj h).2] at hrest
  exact hrest rfl

/-- Arguments do not begin with the parenthesis that closes a call without them. -/
theorem bareCall_tokens_append_ne (w w' : String) (args : Derivation .arguments) :
    (bareCall w).tokens ++ rest ≠ (call w' args).tokens ++ rest' := by
  intro h
  obtain ⟨t, ts, hargs, ht⟩ := args.exists_tokens_eq
  rw [tokens, tokens, hargs] at h
  cases h
  cases ht

/-- A part is found at the start of some tokens in one way only, if what comes after it does
not continue it. -/
theorem eq_of_tokens_append (d : Derivation k) :
    ∀ (d' : Derivation k) {rest rest' : List Token}, d.tokens ++ rest = d'.tokens ++ rest' →
      Ends k rest → Ends k rest' → d = d' ∧ rest = rest' := by
  -- What is behind an atom begins another atom or ends the atoms, and so is no parenthesis that
  -- would make a word a call.
  induction d with
  | leaf l =>
    intro d' rest rest' h hrest _
    cases d' with
    | leaf l' =>
      rw [leaf_tokens_append, leaf_tokens_append, List.cons.injEq] at h
      rw [Leaf.token_injective h.1]
      exact ⟨rfl, h.2⟩
    | bareCall | call => exact absurd h (leaf_tokens_append_ne l hrest _ _)
  | bareCall w =>
    intro d' rest rest' h _ hrest'
    cases d' with
    | leaf l => exact absurd h.symm (leaf_tokens_append_ne l hrest' _ _)
    | bareCall w' =>
      cases h
      exact ⟨rfl, rfl⟩
    | call w' args => exact absurd h (bareCall_tokens_append_ne w w' args)
  | call w args ih =>
    intro d' rest rest' h _ hrest'
    cases d' with
    | leaf l => exact absurd h.symm (leaf_tokens_append_ne l hrest' _ _)
    | bareCall w' => exact absurd h.symm (bareCall_tokens_append_ne w' w args)
    | call w' args' =>
      simp only [tokens, List.cons_append, List.append_assoc, List.nil_append, List.cons.injEq,
        Token.word.injEq, true_and] at h
      obtain ⟨rfl, hargs⟩ := h
      obtain ⟨rfl, hclose⟩ := ih args' hargs (ends_closeParen rest) (ends_closeParen rest')
      exact ⟨rfl, (List.cons.inj hclose).2⟩
  | single only ih =>
    intro d' rest rest' h hrest hrest'
    cases d' with
    | single only' =>
      obtain ⟨rfl, rfl⟩ := ih only' h hrest.ends_atom hrest'.ends_atom
      exact ⟨rfl, rfl⟩
    | several first more =>
      rw [tokens, tokens, List.append_assoc] at h
      obtain ⟨-, rfl⟩ := ih first h hrest.ends_atom (more.ends_atom_append rest')
      exact absurd hrest (more.not_stops_append rest')
  | several first more ih ihmore =>
    intro d' rest rest' h hrest hrest'
    rw [tokens, List.append_assoc] at h
    cases d' with
    | single only =>
      obtain ⟨-, rfl⟩ := ih only h (more.ends_atom_append rest) hrest'.ends_atom
      exact absurd hrest' (more.not_stops_append rest)
    | several first' more' =>
      rw [tokens, List.append_assoc] at h
      obtain ⟨rfl, hmore⟩ :=
        ih first' h (more.ends_atom_append rest) (more'.ends_atom_append rest')
      obtain ⟨rfl, rfl⟩ := ihmore more' hmore hrest hrest'
      exact ⟨rfl, rfl⟩
  | last arg ih =>
    intro d' rest rest' h hrest hrest'
    cases d' with
    | last arg' =>
      obtain ⟨rfl, rfl⟩ := ih arg' h hrest.stops hrest'.stops
      exact ⟨rfl, rfl⟩
    | next arg' more =>
      rw [tokens, tokens, List.append_assoc, List.cons_append] at h
      obtain ⟨-, rfl⟩ := ih arg' h hrest.stops (stops_comma _)
      cases hrest
  | next arg more ih ihmore =>
    intro d' rest rest' h hrest hrest'
    rw [tokens, List.append_assoc, List.cons_append] at h
    cases d' with
    | last arg' =>
      obtain ⟨-, rfl⟩ := ih arg' h (stops_comma _) hrest'.stops
      cases hrest'
    | next arg' more' =>
      rw [tokens, List.append_assoc, List.cons_append] at h
      obtain ⟨rfl, hmore⟩ := ih arg' h (stops_comma _) (stops_comma _)
      obtain ⟨rfl, rfl⟩ := ihmore more' (List.cons.inj hmore).2 hrest hrest'
      exact ⟨rfl, rfl⟩

theorem eq_of_tokens_eq {d d' : Derivation .atoms} (h : d.tokens = d'.tokens) : d = d' := by
  have happend : d.tokens ++ [] = d'.tokens ++ [] := by rw [h]
  exact (d.eq_of_tokens_append d' happend stops_nil stops_nil).1

end Uniqueness

section TopLevel

/-- No token but a parenthesis changes how many are open. -/
theorem topLevel_cons {t : Token} (h : t.beginsAtom = true ∨ t = .comma) (depth : Nat)
    (ts : List Token) : topLevel (depth + 1) (t :: ts) = topLevel (depth + 1) ts := by
  rw [topLevel]
  · rintro rfl
    rcases h with h | h <;> cases h
  · rintro rfl
    rcases h with h | h <;> cases h

theorem topLevel_openCall (w : String) (depth : Nat) (ts : List Token) :
    topLevel (depth + 1) (.word w :: .openParen :: ts) = topLevel (depth + 2) ts := by
  rw [topLevel_cons (Or.inl rfl), topLevel]

/-- Inside a call a part leaves the number of open parentheses as it is, and none of its tokens
are outside. -/
theorem topLevel_inside (d : Derivation k) (depth : Nat) (rest : List Token) :
    topLevel (depth + 1) (d.tokens ++ rest) = topLevel (depth + 1) rest := by
  induction d generalizing depth rest with
  | leaf l =>
    rw [leaf_tokens_append]
    exact topLevel_cons (Or.inl l.beginsAtom_token) depth rest
  | bareCall w => exact topLevel_openCall w depth _
  | call w args ih =>
    rw [tokens, List.cons_append, List.cons_append, List.append_assoc, topLevel_openCall]
    exact ih (depth + 1) _
  | single _ ih | last _ ih => exact ih depth rest
  | several _ _ ih ihmore => rw [tokens, List.append_assoc, ih, ihmore]
  | next _ _ ih ihmore =>
    rw [tokens, List.append_assoc, ih, List.cons_append, topLevel_cons (Or.inr rfl), ihmore]

theorem topLevel_leaf (l : Leaf) (h : Ends .atom rest) :
    topLevel 0 (l.token :: rest) = l.token :: topLevel 0 rest := by
  cases l with
  | word w =>
    cases rest with
    | nil => rfl
    | cons t rest =>
      cases t with
      | openParen => exact absurd rfl h
      | _ => rfl
  | _ => rfl

/-- Outside of calls there are only tokens that begin atoms. -/
theorem topLevel_append (d : Derivation k) (hk : k ≠ .arguments) (h : Ends .atom rest) :
    ∃ us, topLevel 0 (d.tokens ++ rest) = us ++ topLevel 0 rest ∧
      ∀ u ∈ us, u.beginsAtom = true := by
  -- Only the arguments of a call hold commas, and they are inside of it.
  induction d generalizing rest with
  | leaf l =>
    exact ⟨[l.token], topLevel_leaf l h, List.forall_mem_singleton.mpr l.beginsAtom_token⟩
  | bareCall w => exact ⟨[.word w], rfl, List.forall_mem_singleton.mpr rfl⟩
  | call w args =>
    refine ⟨[.word w], ?_, List.forall_mem_singleton.mpr rfl⟩
    simp only [tokens, List.cons_append, List.append_assoc, List.nil_append, topLevel,
      topLevel_inside]
  | single _ ih => exact ih nofun h
  | several first more ih ihmore =>
    obtain ⟨us, hus, hbegins⟩ := ih nofun (more.ends_atom_append rest)
    obtain ⟨vs, hvs, hbegins'⟩ := ihmore nofun h
    refine ⟨us ++ vs, ?_, List.forall_mem_append.mpr ⟨hbegins, hbegins'⟩⟩
    rw [tokens, List.append_assoc, hus, hvs, List.append_assoc]
  | last | next => exact absurd rfl hk

theorem all_beginsAtom_topLevel (d : Derivation .atoms) :
    (topLevel 0 d.tokens).all Token.beginsAtom = true := by
  obtain ⟨us, hus, hbegins⟩ := d.topLevel_append nofun stops_nil.ends_atom
  rw [List.append_nil] at hus
  rw [hus, topLevel, List.append_nil]
  exact List.all_eq_true.mpr hbegins

end TopLevel

end Derivation

/-- Tokens are read to their end exactly if there is a derivation of atoms with these tokens, and
as the value that the atoms of that derivation make up. No two derivations have the same tokens,
and in none of them is a comma or a parenthesis outside of a call. -/
theorem ofTokens_eq_ok_iff_exists_whole (key : String) (ts : List Token) (e : Expression) :
    (ofTokens key ts = .ok e ↔
      ∃ d : Derivation .atoms, d.tokens = ts ∧ whole key d.expressions = e) ∧
    Function.Injective (@Derivation.tokens .atoms) ∧
    ∀ d : Derivation .atoms, (topLevel 0 d.tokens).all Token.beginsAtom = true := by
  refine ⟨?_, fun _ _ => Derivation.eq_of_tokens_eq, Derivation.all_beginsAtom_topLevel⟩
  rw [ofTokens_eq_ok_iff_derives]
  constructor
  · rintro ⟨es, hderives, hcombine⟩
    have hes : es ≠ [] := by
      rintro rfl
      cases hcombine
    obtain ⟨d, rfl, rfl⟩ := Derivation.exists_of_derives hderives hes
    rw [combine_eq hes] at hcombine
    exact ⟨d, rfl, Except.ok.inj hcombine⟩
  · rintro ⟨d, rfl, rfl⟩
    exact ⟨d.expressions, d.derives, combine_eq d.expressions_ne_nil⟩

end CartoStyle.PropertyValue
