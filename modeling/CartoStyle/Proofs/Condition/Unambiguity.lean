import CartoStyle.Proofs.Condition.Derivation

/-!
Derivations of conditions. Here a derivation is a tree, from which both the tokens that
it derives and the expression that they stand for are read off. The parser finds an expression
exactly if there is a derivation, and it is the expression of that derivation. A part of a
condition ends where no token can continue it, so no tokens have two derivations.
-/

namespace CartoStyle.Condition

/-- The signs between an attribute and a value. -/
inductive Sign where
  | equal
  | notEqual
  | greater
  | greaterOrEqual
  | less
  | lessOrEqual

def Sign.token : Sign → Token
  | equal => .equal
  | notEqual => .notEqual
  | greater => .greater
  | greaterOrEqual => .greaterOrEqual
  | less => .less
  | lessOrEqual => .lessOrEqual

def Sign.operator : Sign → Operator
  | equal => .equal
  | notEqual => .notEqual
  | greater => .greater
  | greaterOrEqual => .greaterOrEqual
  | less => .less
  | lessOrEqual => .lessOrEqual

/-- The words between an attribute and a pattern. -/
inductive MatchWord where
  | like
  | ilike

def MatchWord.token : MatchWord → Token
  | like => .like
  | ilike => .ilike

def MatchWord.operator : MatchWord → Operator
  | like => .like
  | ilike => .ilike

inductive Comparand where
  | number (x : Float)
  | quoted (s : String)
  | null
  | word (w : String)

def Comparand.token : Comparand → Token
  | number x => .number x
  | quoted s => .quoted s
  | null => .null
  | word w => .identifier w

/-- A word is a truth value or a text. -/
def Comparand.expression : Comparand → Expression
  | number x => .number x
  | quoted s => .text s
  | null => .null
  | word w =>
    if w = "true" then .literal (.bool true)
    else if w = "false" then .literal (.bool false)
    else .text w

inductive Comparison where
  | sign (name : String) (sign : Sign) (value : Comparand)
  | matching (name : String) (word : MatchWord) (value : Comparand)
  | notMatching (name : String) (word : MatchWord) (value : Comparand)
  | isNull (name : String)
  | isNotNull (name : String)

namespace Comparison

def tokens : Comparison → List Token
  | sign name s v => [.identifier name, s.token, v.token]
  | matching name word v => [.identifier name, word.token, v.token]
  | notMatching name word v => [.identifier name, .not, word.token, v.token]
  | isNull name => [.identifier name, .is, .null]
  | isNotNull name => [.identifier name, .is, .not, .null]

def expression : Comparison → Expression
  | sign name s v => .apply s.operator [.get name, v.expression]
  | matching name word v => .apply word.operator [.get name, v.expression]
  | notMatching name word v => .apply .not [.apply word.operator [.get name, v.expression]]
  | isNull name => .apply .equal [.get name, .null]
  | isNotNull name => .apply .not [.apply .equal [.get name, .null]]

end Comparison

variable {j k : Category}

/-- A derivation of a part of a condition. A chain of parts with one word between them is its
first part in front of the others. -/
inductive Derivation : Category → Type
  | comparison (c : Comparison) : Derivation .negation
  | not (inner : Derivation .negation) : Derivation .negation
  | parens (inner : Derivation .disjunction) : Derivation .negation
  | single {j k : Category} (c : Connective j k) (only : Derivation j) : Derivation k
  | chain {j k : Category} (c : Connective j k) (first : Derivation j) (more : Derivation k) :
      Derivation k

namespace Derivation

@[simp]
def tokens : {k : Category} → Derivation k → List Token
  | _, comparison c => c.tokens
  | _, not inner => .not :: inner.tokens
  | _, parens inner => .openParen :: (inner.tokens ++ [.closeParen])
  | _, single _ only => only.tokens
  | _, chain c first more => first.tokens ++ c.word :: more.tokens

mutual

/-- The expression of what is derived. A chain of one part stands for that part, and so does a
part in parentheses. -/
@[simp]
def expression : {k : Category} → Derivation k → Expression
  | _, comparison c => c.expression
  | _, not inner => .apply .not [inner.expression]
  | _, parens inner => inner.expression
  | _, single _ only => only.expression
  | _, chain c first more => .apply c.operator (first.expression :: more.operands)

@[simp]
def operands : {k : Category} → Derivation k → List Expression
  | _, comparison c => [c.expression]
  | _, not inner => [.apply .not [inner.expression]]
  | _, parens inner => [inner.expression]
  | _, single _ only => [only.expression]
  | _, chain _ first more => first.expression :: more.operands

end

end Derivation

section Comparisons

variable {ts rest rest' : List Token} {e v : Expression}

theorem Comparand.operand (c : Comparand) : Operand c.token c.expression := by
  have hread : Condition.operand [c.token] = .ok (c.expression, []) := by cases c <;> rfl
  obtain ⟨u, hu, hoperand⟩ := exists_operand_of_eq_ok hread
  cases hu
  exact hoperand

theorem exists_comparand {t : Token} (h : Operand t v) :
    ∃ c : Comparand, c.token = t ∧ c.expression = v := by
  cases h with
  | number x => exact ⟨.number x, rfl, rfl⟩
  | quoted s => exact ⟨.quoted s, rfl, rfl⟩
  | null => exact ⟨.null, rfl, rfl⟩
  | true => exact ⟨.word "true", rfl, rfl⟩
  | false => exact ⟨.word "false", rfl, rfl⟩
  | @word w h => exact ⟨.word w, rfl, by rw [Comparand.expression, if_neg h.1, if_neg h.2]⟩

theorem Sign.comparison?_token (s : Sign) : s.token.comparison? = some s.operator := by
  cases s <;> rfl

theorem MatchWord.comparison?_token (w : MatchWord) : w.token.comparison? = some w.operator := by
  cases w <;> rfl

/-- What stands between an attribute and a value is a sign or a word. -/
theorem exists_of_comparison? {t : Token} {op : Operator} (h : t.comparison? = some op) :
    (∃ s : Sign, s.token = t ∧ s.operator = op) ∨
      ∃ w : MatchWord, w.token = t ∧ w.operator = op := by
  cases t with
  | equal => exact Or.inl ⟨.equal, rfl, Option.some.inj h⟩
  | notEqual => exact Or.inl ⟨.notEqual, rfl, Option.some.inj h⟩
  | greater => exact Or.inl ⟨.greater, rfl, Option.some.inj h⟩
  | greaterOrEqual => exact Or.inl ⟨.greaterOrEqual, rfl, Option.some.inj h⟩
  | less => exact Or.inl ⟨.less, rfl, Option.some.inj h⟩
  | lessOrEqual => exact Or.inl ⟨.lessOrEqual, rfl, Option.some.inj h⟩
  | like => exact Or.inr ⟨.like, rfl, Option.some.inj h⟩
  | ilike => exact Or.inr ⟨.ilike, rfl, Option.some.inj h⟩
  | _ => cases h

theorem Comparison.compares (c : Comparison) : Compares c.tokens c.expression := by
  cases c with
  | sign name s v => exact .sign name s.comparison?_token v.operand
  | matching name w v => exact .sign name w.comparison?_token v.operand
  | notMatching name w v =>
    cases w with
    | like => exact .notLike name v.operand
    | ilike => exact .notIlike name v.operand
  | isNull name => exact .isNull name
  | isNotNull name => exact .isNotNull name

theorem exists_comparison (h : Compares ts e) :
    ∃ c : Comparison, c.tokens = ts ∧ c.expression = e := by
  cases h with
  | sign name hop hv =>
    obtain ⟨v, rfl, rfl⟩ := exists_comparand hv
    rcases exists_of_comparison? hop with ⟨s, rfl, rfl⟩ | ⟨w, rfl, rfl⟩
    · exact ⟨.sign name s v, rfl, rfl⟩
    · exact ⟨.matching name w v, rfl, rfl⟩
  | notLike name hv =>
    obtain ⟨v, rfl, rfl⟩ := exists_comparand hv
    exact ⟨.notMatching name .like v, rfl, rfl⟩
  | notIlike name hv =>
    obtain ⟨v, rfl, rfl⟩ := exists_comparand hv
    exact ⟨.notMatching name .ilike v, rfl, rfl⟩
  | isNull name => exact ⟨.isNull name, rfl, rfl⟩
  | isNotNull name => exact ⟨.isNotNull name, rfl, rfl⟩

theorem Sign.token_injective : Function.Injective Sign.token := by
  intro s s' h
  cases s <;> cases s' <;> first | rfl | cases h

theorem MatchWord.token_injective : Function.Injective MatchWord.token := by
  intro w w' h
  cases w <;> cases w' <;> first | rfl | cases h

theorem Comparand.token_injective : Function.Injective Comparand.token := by
  intro v v' h
  cases v <;> cases v' <;> cases h <;> rfl

theorem Sign.token_ne (s : Sign) :
    s.token ≠ .not ∧ s.token ≠ .is ∧ ∀ w, s.token ≠ MatchWord.token w := by
  refine ⟨?_, ?_, fun w => ?_⟩
  · cases s <;> nofun
  · cases s <;> nofun
  · cases s <;> cases w <;> nofun

theorem MatchWord.token_ne (w : MatchWord) : w.token ≠ .not ∧ w.token ≠ .is := by
  cases w <;> exact ⟨nofun, nofun⟩

namespace Comparison

/-- Where a comparison ends can be told from its own tokens. -/
theorem eq_of_tokens_append {c c' : Comparison} (h : c.tokens ++ rest = c'.tokens ++ rest') :
    c = c' ∧ rest = rest' := by
  -- The token behind the attribute tells the forms apart, and the word not is in two of them.
  cases c <;> cases c' <;>
    grind [tokens, Sign.token_injective, MatchWord.token_injective, Comparand.token_injective,
      Sign.token_ne, MatchWord.token_ne, Function.Injective]

/-- A comparison begins with its attribute. -/
theorem exists_eq_identifier (c : Comparison) {t : Token} (h : c.tokens ++ rest = t :: ts) :
    ∃ name, t = .identifier name := by
  cases c <;> exact ⟨_, (List.cons.inj h).1.symm⟩

end Comparison

end Comparisons

namespace Connective

variable {ts : List Token} {e : Expression} {es : List Expression}

theorem unique {j' : Category} (c : Connective j k) (c' : Connective j' k) : j = j' ∧ c ≍ c' := by
  cases c <;> cases c' <;> exact ⟨rfl, .rfl⟩

/-- Parts behind one word each are a chain, once the first word is dropped. -/
theorem derives_of_consumesAll (c : Connective j k)
    (h : ConsumesAll j c.word (c.word :: ts) (e :: es) []) :
    Derives k ts (combine c.operator e es) := by
  obtain ⟨others, htokens, hexpressions, hothers⟩ := h
  obtain ⟨o, others, rfl, rfl, rfl⟩ := List.map_eq_cons_iff.mp hexpressions
  rw [joined_cons, List.append_nil, List.cons.injEq] at htokens
  rw [htokens.2]
  exact c.derives (hothers o List.mem_cons_self) fun p hp => hothers p (List.mem_cons_of_mem o hp)

end Connective

namespace Derivation

variable {ts rest rest' : List Token} {e : Expression} {es : List Expression}

section Grammar

theorem operands_ne_nil (d : Derivation k) : d.operands ≠ [] := by
  cases d <;> exact List.cons_ne_nil _ _

/-- A chain stands for its operands under the operator of its word. -/
theorem expression_eq_combine (d : Derivation k) (c : Connective j k) (h : d.operands = e :: es) :
    d.expression = combine c.operator e es := by
  cases d with
  | comparison | not | parens => cases c
  | single c' only =>
    cases h
    rfl
  | chain c' first more =>
    obtain ⟨rfl, hc⟩ := c.unique c'
    cases hc
    cases h
    obtain ⟨f, fs, hmore⟩ := List.exists_cons_of_ne_nil more.operands_ne_nil
    rw [expression, hmore]
    rfl

/-- What a derivation derives, the grammar does. -/
theorem derives_and_consumesAll (d : Derivation k) : Derives k d.tokens d.expression ∧
    ∀ {j : Category} (c : Connective j k),
      ConsumesAll j c.word (c.word :: d.tokens) d.operands [] := by
  induction d with
  | comparison c => exact ⟨.comparison c.compares, nofun⟩
  | not inner ih => exact ⟨.not ih.1, nofun⟩
  | parens inner ih => exact ⟨.parens ih.1, nofun⟩
  | single c only ih =>
    have hchain : ConsumesAll _ c.word (c.word :: only.tokens) [only.expression] [] :=
      Consumes.cons ⟨only.tokens, (List.append_nil _).symm, ih.1⟩ (consumesAll_nil _ _ _)
    refine ⟨c.derives_of_consumesAll hchain, fun c' => ?_⟩
    obtain ⟨rfl, hc⟩ := c.unique c'
    cases hc
    exact hchain
  | chain c first more ih ihmore =>
    have hchain : ConsumesAll _ c.word (c.word :: (first.tokens ++ c.word :: more.tokens))
        (first.expression :: more.operands) [] :=
      Consumes.cons ⟨first.tokens, rfl, ih.1⟩ (ihmore.2 c)
    have hderives := c.derives_of_consumesAll hchain
    rw [← expression_eq_combine (chain c first more) c rfl] at hderives
    refine ⟨hderives, fun c' => ?_⟩
    obtain ⟨rfl, hc⟩ := c.unique c'
    cases hc
    exact hchain

/-- Derivations of parts with one word between them make up a chain. -/
theorem exists_chain (c : Connective j k) {others : List (List Token × Expression)}
    (hothers : ∀ o ∈ others, ∃ d : Derivation j, d.tokens = o.1 ∧ d.expression = o.2)
    (first : Derivation j) :
    ∃ d : Derivation k, d.tokens = first.tokens ++ joined c.word others ∧
      d.expression = combine c.operator first.expression (others.map Prod.snd) := by
  suffices h : ∃ d : Derivation k, d.tokens = first.tokens ++ joined c.word others ∧
      d.operands = first.expression :: others.map Prod.snd by
    obtain ⟨d, htokens, hoperands⟩ := h
    exact ⟨d, htokens, d.expression_eq_combine c hoperands⟩
  induction others generalizing first with
  | nil => exact ⟨single c first, (List.append_nil _).symm, rfl⟩
  | cons o others ih =>
    obtain ⟨next, hnext, hexpression⟩ := hothers o List.mem_cons_self
    obtain ⟨more, htokens, hoperands⟩ :=
      ih (fun p hp => hothers p (List.mem_cons_of_mem o hp)) next
    refine ⟨chain c first more, ?_, ?_⟩
    · rw [tokens, htokens, joined_cons, hnext]
    · rw [operands, hoperands, hexpression, List.map_cons]

/-- What the grammar derives has a derivation. -/
theorem exists_of_derives (h : Derives k ts e) :
    ∃ d : Derivation k, d.tokens = ts ∧ d.expression = e := by
  induction h with
  | comparison h =>
    obtain ⟨c, rfl, rfl⟩ := exists_comparison h
    exact ⟨comparison c, rfl, rfl⟩
  | not _ ih =>
    obtain ⟨d, rfl, rfl⟩ := ih
    exact ⟨not d, rfl, rfl⟩
  | parens _ ih =>
    obtain ⟨d, rfl, rfl⟩ := ih
    exact ⟨parens d, rfl, rfl⟩
  | all _ _ ih ihothers =>
    obtain ⟨first, rfl, rfl⟩ := ih
    exact exists_chain .and ihothers first
  | any _ _ ih ihothers =>
    obtain ⟨first, rfl, rfl⟩ := ih
    exact exists_chain .or ihothers first

end Grammar

section Uniqueness

/-- A part is found at the start of some tokens in one way only, if what comes after it does
not continue it. -/
theorem eq_of_tokens_append (d : Derivation k) :
    ∀ (d' : Derivation k) {rest rest' : List Token}, d.tokens ++ rest = d'.tokens ++ rest' →
      Ends k rest → Ends k rest' → d = d' ∧ rest = rest' := by
  -- The tokens behind a part of the first derivation are those of its other parts and the rest,
  -- so the induction is for every rest.
  induction d with
  | comparison c =>
    intro d' rest rest' h _ _
    cases d' with
    | comparison c' =>
      obtain ⟨rfl, rfl⟩ := Comparison.eq_of_tokens_append h
      exact ⟨rfl, rfl⟩
    | not | parens =>
      obtain ⟨_, hname⟩ := c.exists_eq_identifier h
      cases hname
    | single c' | chain c' => cases c'
  | not inner ih =>
    intro d' rest rest' h _ _
    cases d' with
    | comparison c' =>
      obtain ⟨_, hname⟩ := c'.exists_eq_identifier h.symm
      cases hname
    | not inner' =>
      obtain ⟨rfl, rfl⟩ := ih inner' (List.cons.inj h).2 trivial trivial
      exact ⟨rfl, rfl⟩
    | parens => cases h
    | single c' | chain c' => cases c'
  | parens inner ih =>
    intro d' rest rest' h _ _
    cases d' with
    | comparison c' =>
      obtain ⟨_, hname⟩ := c'.exists_eq_identifier h.symm
      cases hname
    | not => cases h
    | parens inner' =>
      simp only [tokens, List.cons_append, List.append_assoc, List.nil_append,
        List.cons.injEq, true_and] at h
      obtain ⟨rfl, hrest⟩ := ih inner' h (ends_closeParen rest) (ends_closeParen rest')
      cases hrest
      exact ⟨rfl, rfl⟩
    | single c' | chain c' => cases c'
  | single c only ih =>
    intro d' rest rest' h hrest hrest'
    cases d' with
    | comparison | not | parens => cases c
    | single c' only' =>
      obtain ⟨rfl, hc⟩ := c.unique c'
      cases hc
      obtain ⟨rfl, rfl⟩ := ih only' h (c.ends_lower hrest) (c.ends_lower hrest')
      exact ⟨rfl, rfl⟩
    | chain c' first more =>
      obtain ⟨rfl, hc⟩ := c.unique c'
      cases hc
      -- One part is the whole of one derivation and the first of the other, where its word would
      -- continue it.
      rw [tokens, tokens, List.append_assoc, List.cons_append] at h
      obtain ⟨-, rfl⟩ := ih first h (c.ends_lower hrest) (c.ends_word _)
      exact absurd hrest (c.not_ends_word _)
  | chain c first more ih ihmore =>
    intro d' rest rest' h hrest hrest'
    rw [tokens, List.append_assoc, List.cons_append] at h
    cases d' with
    | comparison | not | parens => cases c
    | single c' only' =>
      obtain ⟨rfl, hc⟩ := c.unique c'
      cases hc
      obtain ⟨-, rfl⟩ := ih only' h (c.ends_word _) (c.ends_lower hrest')
      exact absurd hrest' (c.not_ends_word _)
    | chain c' first' more' =>
      obtain ⟨rfl, hc⟩ := c.unique c'
      cases hc
      rw [tokens, List.append_assoc, List.cons_append] at h
      obtain ⟨rfl, hmore⟩ := ih first' h (c.ends_word _) (c.ends_word _)
      obtain ⟨rfl, rfl⟩ := ihmore more' (List.cons.inj hmore).2 hrest hrest'
      exact ⟨rfl, rfl⟩

theorem eq_of_tokens_eq {d d' : Derivation k} (h : d.tokens = d'.tokens) : d = d' := by
  have happend : d.tokens ++ [] = d'.tokens ++ [] := by rw [h]
  exact (d.eq_of_tokens_append d' happend (ends_nil k) (ends_nil k)).1

end Uniqueness

end Derivation

/-- Tokens are read to their end exactly if there is a derivation of a disjunction with these
tokens, and as the expression of that derivation. No two derivations have the same tokens. -/
theorem ofTokens_eq_ok_iff_exists_derivation (ts : List Token) (e : Expression) :
    (ofTokens ts = .ok e ↔ ∃ d : Derivation .disjunction, d.tokens = ts ∧ d.expression = e) ∧
      Function.Injective (@Derivation.tokens .disjunction) := by
  refine ⟨?_, fun _ _ => Derivation.eq_of_tokens_eq⟩
  rw [ofTokens_eq_ok_iff_derives]
  constructor
  · exact Derivation.exists_of_derives
  · rintro ⟨d, rfl, rfl⟩
    exact d.derives_and_consumesAll.1

end CartoStyle.Condition
