import CartoStyle.Proofs.Condition.Grammar
import CartoStyle.Proofs.Condition.Lexeme
import CartoStyle.Proofs.Text.Trimming

/-!
The condition text of a filter expression is read as that expression. A
combination under another operator stands in parentheses, so the tree that the
parser builds from the strength of the words is the one that was written.
-/

namespace CartoStyle.Condition

open Lexeme

/-- The characters of written conditions outside quotes, and the quotes. -/
def isSyntaxChar (c : Char) : Bool :=
  isIdentifierFirst c || isIdentifierChar c || " ()=!<>'\"".toList.contains c

/-- A text without blanks at its ends whose quoted parts hold only such characters. -/
structure IsTidy (inner : Char → Prop) (cs : List Char) : Prop where
  ne_nil : cs ≠ []
  trimmed : Text.FreeEnds Text.isBlank cs
  chars : ∀ c ∈ cs, isSyntaxChar c = true ∨ inner c

/-- The tidy text stands for the tokens in front of any boundary. -/
structure Spelled (inner : Char → Prop) (cs : List Char) (ts : List Token) : Prop where
  spells : Spells cs ts
  tidy : IsTidy inner cs

variable {inner : Char → Prop}

section Words

variable {cs ds : List Char} {ts us : List Token}

theorem Spelled.words (h : Spelled inner cs ts) (hnext : Spelled inner ds us) :
    Spelled inner (cs ++ ' ' :: ds) (ts ++ us) where
  spells := h.spells.append_space skipsBlanks hnext.spells
  tidy := by
    refine ⟨by simp, ?_, ?_⟩
    · exact h.tidy.trimmed.between hnext.tidy.trimmed h.tidy.ne_nil hnext.tidy.ne_nil [' ']
    · intro c hc
      rcases List.mem_append.mp hc with hc | hc
      · exact h.tidy.chars c hc
      · rcases List.mem_cons.mp hc with rfl | hc
        · exact Or.inl rfl
        · exact hnext.tidy.chars c hc

theorem Spelled.parens (h : Spelled inner cs ts) :
    Spelled inner ('(' :: (cs ++ [')'])) (.openParen :: (ts ++ [.closeParen])) where
  spells := Spells.parens h.spells
  tidy := by
    have hopen : Text.FreeEnds Text.isBlank ['('] := .of_all rfl rfl
    have hclose : Text.FreeEnds Text.isBlank [')'] := .of_all rfl rfl
    refine ⟨by simp, hopen.between hclose (by simp) (by simp) cs, ?_⟩
    intro c hc
    rcases List.mem_cons.mp hc with rfl | hc
    · exact Or.inl rfl
    · rcases List.mem_append.mp hc with hc | hc
      · exact h.tidy.chars c hc
      · rw [List.mem_singleton.mp hc]
        exact Or.inl rfl

/-- A text of printing characters without meaning in conditions. -/
theorem Spelled.of_forall (h : Spells cs ts)
    (hcs : ∀ c ∈ cs, isSyntaxChar c = true ∧ Text.isBlank c = false) : Spelled inner cs ts where
  spells := h
  tidy := by
    obtain ⟨c, more, rfl, -⟩ := h.first
    exact ⟨by simp, .of_forall fun d hd => (hcs d hd).2, fun d hd => Or.inl (hcs d hd).1⟩

end Words

theorem isBlank_of_isIdentifierChar {c : Char} (h : isIdentifierChar c = true) :
    Text.isBlank c = false := by
  have hc : (((c.isAlphanum = true ∨ c = '_') ∨ c = '-') ∨ c = '.') ∨ c = ':' := by
    simpa [isIdentifierChar] using h
  rcases hc with (((hc | rfl) | rfl) | rfl) | rfl
  · exact Text.isBlank_of_isAlphanum hc
  all_goals rfl

theorem isBlank_of_isIdentifierFirst {c : Char} (h : isIdentifierFirst c = true) :
    Text.isBlank c = false := by
  have hc : (c.isAlpha = true ∨ c = '_') ∨ c = '@' := by simpa [isIdentifierFirst] using h
  rcases hc with (hc | rfl) | rfl
  · exact Text.isBlank_of_isAlphanum (by simp [Char.isAlphanum, hc])
  all_goals rfl

theorem spelled_identifier {name : String} (h : IsIdentifier name) :
    Spelled inner name.toList [.identifier name] := by
  refine .of_forall (spells_identifier h) ?_
  obtain ⟨⟨c, cs, hname, hc, hcs⟩, -⟩ := h
  rw [hname]
  refine List.forall_mem_cons.mpr ⟨⟨?_, isBlank_of_isIdentifierFirst hc⟩, fun d hd =>
    ⟨?_, isBlank_of_isIdentifierChar (hcs d hd)⟩⟩
  · simp [isSyntaxChar, hc]
  · simp [isSyntaxChar, hcs d hd]

theorem spelled_fixed {cs : List Char} {ts : List Token} (h : Spells cs ts)
    (hcs : cs.all (fun c => isSyntaxChar c && !Text.isBlank c) = true) : Spelled inner cs ts := by
  refine .of_forall h fun c hc => ?_
  simpa using List.all_eq_true.mp hcs c hc

theorem spelled_numeral {cs : List Char} (h : Pattern.Matches Lexeme.numeral cs) :
    Spelled inner cs [.number (Lexeme.number cs)] := by
  refine .of_forall (spells_numeral h) fun c hc => ?_
  have hchar : isIdentifierChar c = true := by
    rcases eq_of_occurs_numeral (Pattern.occurs_of_matches h c hc) with hdigit | rfl | rfl
    · simp [isIdentifierChar, Char.isAlphanum, hdigit]
    · rfl
    · rfl
  exact ⟨by simp [isSyntaxChar, hchar], isBlank_of_isIdentifierChar hchar⟩

theorem spelled_number {x : Float} (hx : Decimal.IsNumber x) :
    Spelled inner (Decimal.display x).toList [.number x] := by
  have hnumeral : Spelled inner _ _ := spelled_numeral hx.accepted
  rwa [number_display hx] at hnumeral

theorem spelled_quoted {s : String} (h : IsQuotable s) (hs : ∀ c ∈ s.toList, inner c) :
    Spelled inner (Text.quote s).toList [.quoted s] where
  spells := spells_quoted h
  tidy := by
    obtain ⟨q, hq, -, hquote⟩ := Text.exists_quote_eq h
    have hsyntax : isSyntaxChar q = true := by
      have hq : q = '\'' ∨ q = '"' := by simpa [Text.isQuote] using hq
      rcases hq with rfl | rfl <;> rfl
    rw [hquote]
    refine ⟨List.cons_ne_nil _ _, Text.freeEnds_quoted hq s.toList, fun c hc => ?_⟩
    rcases List.mem_cons.mp hc with rfl | hc
    · exact Or.inl hsyntax
    · rcases List.mem_append.mp hc with hc | hc
      · exact Or.inr (hs c hc)
      · rw [List.mem_singleton.mp hc]
        exact Or.inl hsyntax

/-- The signs and words of comparisons are read as their operators. -/
theorem exists_spelled_sign {op : Operator} (h : op.isComparison = true) :
    ∃ t, t.comparison? = some op ∧ Spelled inner (Expression.sign op).toList [t] := by
  obtain ⟨t, ht, hspells⟩ := exists_spells_sign h
  refine ⟨t, ht, spelled_fixed hspells ?_⟩
  cases op <;> first | rfl | cases h

def Writes (inner : Char → Prop) (k : Category) (text : String) (e : Expression) : Prop :=
  ∃ ts, Spelled inner text.toList ts ∧ Derives k ts e

variable {text : String} {e : Expression} {es : List Expression}

theorem Connective.derives_single {j k : Category} (c : Connective j k) {ts : List Token}
    (h : Derives j ts e) : Derives k ts e := by
  have hothers : ∀ o ∈ ([] : List (List Token × Expression)), Derives j o.1 o.2 := nofun
  have hchain := c.derives h hothers
  rwa [joined, List.flatMap_nil, List.append_nil] at hchain

theorem Writes.lift {j k : Category} (c : Connective j k) (h : Writes inner j text e) :
    Writes inner k text e := by
  obtain ⟨ts, hspells, hderives⟩ := h
  exact ⟨ts, hspells, c.derives_single hderives⟩

/-- A part of any strength is a condition. -/
theorem Writes.disjunction {k : Category} (h : Writes inner k text e) :
    Writes inner .disjunction text e := by
  cases k with
  | disjunction => exact h
  | conjunction => exact h.lift .or
  | negation => exact (h.lift .and).lift .or

theorem Writes.parens {k : Category} (h : Writes inner k text e) :
    Writes inner .negation ("(" ++ text ++ ")") e := by
  obtain ⟨ts, hspells, hderives⟩ := h.disjunction
  have hparens := hspells.parens
  exact ⟨_, by simpa using hparens, .parens hderives⟩

/-- The constant has a written form that reads back. -/
inductive IsLiteral (inner : Char → Prop) : Literal → Prop
  | null : IsLiteral inner .null
  | bool (b : Bool) : IsLiteral inner (.bool b)
  | number {x : Float} (h : Decimal.IsNumber x) : IsLiteral inner (.number x)
  | text {s : String} (h : IsQuotable s) (hs : ∀ c ∈ s.toList, inner c) : IsLiteral inner (.text s)

/-- Expressions with a condition text that is read as themselves. -/
inductive IsCondition (inner : Char → Prop) : Expression → Prop
  | comparison {op : Operator} {name : String} {l : Literal} (hop : op.isComparison = true)
      (hname : IsIdentifier name) (hl : IsLiteral inner l) :
      IsCondition inner (.apply op [.get name, .literal l])
  | not {e : Expression} (h : IsCondition inner e) : IsCondition inner (.apply .not [e])
  | any {es : List Expression} (hlen : 2 ≤ es.length) (h : ∀ e ∈ es, IsCondition inner e) :
      IsCondition inner (.apply .any es)
  | all {es : List Expression} (hlen : 2 ≤ es.length) (h : ∀ e ∈ es, IsCondition inner e) :
      IsCondition inner (.apply .all es)

/-- A name without capital letters is an identifier if it is no keyword as it stands. -/
theorem isIdentifier_of_lower {name : String} {c : Char} {cs : List Char}
    (hname : name.toList = c :: cs) (hfirst : isIdentifierFirst c = true)
    (hothers : cs.all isIdentifierChar = true)
    (hlower : name.toList.map Char.toLower = name.toList) (hkeyword : name ∉ keywords) :
    IsIdentifier name where
  form := ⟨c, cs, hname, hfirst, List.all_eq_true.mp hothers⟩
  not_keyword := by rwa [Text.toLower_eq_self hlower]

theorem isIdentifier_true : IsIdentifier "true" :=
  isIdentifier_of_lower rfl rfl (by decide) (by decide) (by decide)

theorem isIdentifier_false : IsIdentifier "false" :=
  isIdentifier_of_lower rfl rfl (by decide) (by decide) (by decide)

/-- The literal has a written form that is one token, which is read as the expression. -/
def IsOperand (inner : Char → Prop) (l : Literal) (v : Expression) : Prop :=
  ∃ text t, Expression.operandText? (Expression.literal l).read = some text ∧
    Spelled inner text.toList [t] ∧ Operand t v

def IsReadAs (inner : Char → Prop) (e f : Expression) : Prop :=
  ∃ text k, e.condition = .ok text ∧ Writes inner k text f ∧
    (e.isCombination = false → k = .negation)

theorem isOperand_null : IsOperand inner .null .null :=
  ⟨"null", .null, rfl, spelled_fixed spells_null rfl, .null⟩

theorem isOperand_bool (b : Bool) : IsOperand inner (.bool b) (.literal (.bool b)) := by
  cases b with
  | false =>
    exact ⟨"false", .identifier "false", rfl, spelled_identifier isIdentifier_false, .false⟩
  | true => exact ⟨"true", .identifier "true", rfl, spelled_identifier isIdentifier_true, .true⟩

/-- A finite number is read as the number that its text stands for. -/
theorem isOperand_number {x : Float} (h : Decimal.IsFinite x) : IsOperand inner (.number x)
    (.number (Lexeme.number (Decimal.display x).toList)) :=
  ⟨_, _, rfl, spelled_numeral (Decimal.matches_display h), .number _⟩

theorem isOperand_text {s : String} (h : IsQuotable s) (hs : ∀ c ∈ s.toList, inner c) :
    IsOperand inner (.text s) (.text s) :=
  ⟨_, _, rfl, spelled_quoted h hs, .quoted s⟩

/-- A literal with a written form is read as itself. -/
theorem IsLiteral.isOperand {l : Literal} (h : IsLiteral inner l) :
    IsOperand inner l (.literal l) := by
  cases h with
  | null => exact isOperand_null
  | bool b => exact isOperand_bool b
  | number h => exact ⟨_, _, rfl, spelled_number h, .number _⟩
  | text h hs => exact isOperand_text h hs

theorem comparisonText_eq {op : Operator} {name : String} {l : Literal} {value : String}
    (hvalue : Expression.operandText? (Expression.literal l).read = some value) :
    (Expression.apply op [.get name, .literal l]).comparisonText = .ok (name, value) := by
  have hattribute : (Expression.get name).attribute? = some name := rfl
  simp [Expression.comparisonText, Expression.args, hattribute, hvalue]

theorem nullTest?_eq_none {op : Operator} {name : String} {l : Literal}
    (h : ¬ (op = .equal ∧ l = .null)) :
    (Expression.apply op [.get name, .literal l]).nullTest? = none := by
  cases op with
  | equal =>
    cases l with
    | null => exact absurd ⟨rfl, rfl⟩ h
    | _ => rfl
  | _ => rfl

theorem condition_comparison {op : Operator} {args : List Expression}
    (hop : op.isComparison = true) : (Expression.apply op args).condition =
      Expression.comparisonCondition op (.apply op args) := by
  cases op <;> first | rfl | cases hop

/-- The condition text of a test for null. -/
theorem isReadAs_isNull {name : String} (hname : IsIdentifier name) :
    IsReadAs inner (.apply .equal [.get name, .null]) (.apply .equal [.get name, .null]) := by
  have hspells : Spelled inner _ _ := (spelled_identifier hname).words
    ((spelled_fixed spells_is rfl).words (spelled_fixed spells_null rfl))
  refine ⟨name ++ " is null", .negation, ?_,
    ⟨_, by simpa using hspells, .comparison (.isNull name)⟩, fun _ => rfl⟩
  rw [condition_comparison rfl, Expression.comparisonCondition]
  rfl

/-- The condition text of a comparison. -/
theorem isReadAs_comparison {op : Operator} {name : String} {l : Literal} {v : Expression}
    (hop : op.isComparison = true) (hname : IsIdentifier name)
    (hnull : ¬ (op = .equal ∧ l = .null)) (hl : IsOperand inner l v) :
    IsReadAs inner (.apply op [.get name, .literal l]) (.apply op [.get name, v]) := by
  obtain ⟨value, u, hvalue, hspells, hoperand⟩ := hl
  obtain ⟨t, ht, hsign⟩ := exists_spelled_sign hop
  have hwords := (spelled_identifier hname).words (hsign.words hspells)
  refine ⟨name ++ " " ++ Expression.sign op ++ " " ++ value, .negation, ?_,
    ⟨_, by simpa using hwords, .comparison (.sign name ht hoperand)⟩, fun _ => rfl⟩
  rw [condition_comparison hop, Expression.comparisonCondition, nullTest?_eq_none hnull]
  simp only [comparisonText_eq hvalue, bind, Except.bind, pure, Except.pure]

/-- Any expression but a test for null and a match is negated in parentheses. -/
theorem IsReadAs.not_parens {f : Expression} (h : IsReadAs inner e f) (hnull : e.nullTest? = none)
    (hlike : e.op? ≠ some .like ∧ e.op? ≠ some .ilike) :
    IsReadAs inner (.apply .not [e]) (.apply .not [f]) := by
  obtain ⟨text, k, htext, hwrites, -⟩ := h
  obtain ⟨ts, hspells, hderives⟩ := hwrites.parens
  have hwords := (spelled_fixed spells_not rfl).words hspells
  refine ⟨"not (" ++ text ++ ")", .negation, ?_, ⟨_, by simpa using hwords, .not hderives⟩,
    fun _ => rfl⟩
  simp only [Expression.condition, hnull]
  split
  · next hop => exact absurd hop hlike.1
  · next hop => exact absurd hop hlike.2
  · rw [htext]
    rfl

/-- The condition text of the negation of a test for null. -/
theorem isReadAs_isNotNull {name : String} (hname : IsIdentifier name) :
    IsReadAs inner (.apply .not [.apply .equal [.get name, .null]])
      (.apply .not [.apply .equal [.get name, .null]]) := by
  have hspells : Spelled inner _ _ := (spelled_identifier hname).words
    ((spelled_fixed spells_is rfl).words ((spelled_fixed spells_not rfl).words
      (spelled_fixed spells_null rfl)))
  refine ⟨name ++ " is not null", .negation, ?_,
    ⟨_, by simpa using hspells, .comparison (.isNotNull name)⟩, fun _ => rfl⟩
  rw [Expression.condition]
  rfl

/-- The condition text of the negation of a match. -/
theorem isReadAs_notLike {op : Operator} (hop : op = .like ∨ op = .ilike) {name : String}
    (hname : IsIdentifier name) {l : Literal} {v : Expression} (hl : IsOperand inner l v) :
    IsReadAs inner (.apply .not [.apply op [.get name, .literal l]])
      (.apply .not [.apply op [.get name, v]]) := by
  obtain ⟨value, u, hvalue, hspells, hoperand⟩ := hl
  have hcomparison : op.isComparison = true := by rcases hop with rfl | rfl <;> rfl
  obtain ⟨t, ht, hsign⟩ := exists_spelled_sign hcomparison
  have hnull : (Expression.apply op [.get name, .literal l]).nullTest? = none := by
    refine nullTest?_eq_none fun h => ?_
    rcases hop with rfl | rfl <;> cases h.1
  refine ⟨name ++ " not " ++ Expression.sign op ++ " " ++ value, .negation, ?_, ?_, fun _ => rfl⟩
  · rw [Expression.condition, hnull]
    rcases hop with rfl | rfl <;>
      simp only [Expression.op?, comparisonText_eq hvalue, bind, Except.bind, pure, Except.pure] <;>
      rfl
  · have hwords := (spelled_identifier hname).words
      ((spelled_fixed spells_not rfl).words (hsign.words hspells))
    refine ⟨_, by simpa using hwords, .comparison ?_⟩
    rcases hop with rfl | rfl
    · cases t <;> cases ht
      exact .notLike name hoperand
    · cases t <;> cases ht
      exact .notIlike name hoperand

/-- The condition text of the negation of a comparison. -/
theorem isReadAs_not_comparison {op : Operator} {name : String} {l : Literal} {v : Expression}
    (hop : op.isComparison = true) (hname : IsIdentifier name)
    (hnull : ¬ (op = .equal ∧ l = .null)) (hl : IsOperand inner l v) :
    IsReadAs inner (.apply .not [.apply op [.get name, .literal l]])
      (.apply .not [.apply op [.get name, v]]) := by
  by_cases hlike : op = .like ∨ op = .ilike
  · exact isReadAs_notLike hlike hname hl
  · rw [not_or] at hlike
    refine (isReadAs_comparison hop hname hnull hl).not_parens (nullTest?_eq_none hnull) ?_
    simpa [Expression.op?] using hlike

/-- The condition text of a negation. -/
theorem isReadAs_not (he : IsCondition inner e) (h : IsReadAs inner e e) :
    IsReadAs inner (.apply .not [e]) (.apply .not [e]) := by
  cases he with
  | @comparison op name l hop hname hl =>
    by_cases hnull : op = .equal ∧ l = .null
    · obtain ⟨rfl, rfl⟩ := hnull
      exact isReadAs_isNotNull hname
    · exact isReadAs_not_comparison hop hname hnull hl.isOperand
  | not => exact h.not_parens rfl (by simp [Expression.op?])
  | any => exact h.not_parens rfl (by simp [Expression.op?])
  | all => exact h.not_parens rfl (by simp [Expression.op?])

/-- The texts of operands with a word between them are the tokens of operands joined by it. -/
theorem spells_joined {k : Category} {w : String} {t : Token} (hw : Spelled inner w.toList [t])
    {p : String × Expression} {ps : List (String × Expression)}
    (h : ∀ q ∈ p :: ps, Writes inner k q.1 q.2) :
    ∃ ts others, Derives k ts p.2 ∧ (∀ o ∈ others, Derives k o.1 o.2) ∧
      others.map Prod.snd = ps.map Prod.snd ∧
      Spelled inner ((" " ++ w ++ " ").intercalate ((p :: ps).map Prod.fst)).toList
        (ts ++ joined t others) := by
  induction ps generalizing p with
  | nil =>
    obtain ⟨ts, hspells, hderives⟩ := h p List.mem_cons_self
    exact ⟨ts, [], hderives, nofun, rfl, by simpa [joined] using hspells⟩
  | cons q ps ih =>
    obtain ⟨ts, hspells, hderives⟩ := h p List.mem_cons_self
    obtain ⟨us, others, hfirst, hothers, hmap, hmore⟩ :=
      ih fun r hr => h r (List.mem_cons_of_mem p hr)
    refine ⟨ts, (us, q.2) :: others, hderives, ?_, ?_, ?_⟩
    · exact List.forall_mem_cons.mpr ⟨hfirst, hothers⟩
    · rw [List.map_cons, List.map_cons, hmap]
    · have hwords := hspells.words (hw.words hmore)
      rw [List.map_cons, String.intercalate_cons_of_ne_nil (by simp)]
      simpa [joined_cons] using hwords

variable {f : Expression} {fs : List Expression}

/-- The operands of a combination have texts, in parentheses if they are combinations. -/
theorem exists_operands (h : List.Forall₂ (IsReadAs inner) es fs) :
    ∃ ps : List (String × Expression), ps.map Prod.snd = fs ∧
      Expression.operands es = .ok (ps.map Prod.fst) ∧
      ∀ p ∈ ps, Writes inner .negation p.1 p.2 := by
  induction h with
  | nil => exact ⟨[], rfl, rfl, nofun⟩
  | @cons e f es fs hfirst _ ih =>
    obtain ⟨text, k, htext, hwrites, hlevel⟩ := hfirst
    obtain ⟨ps, rfl, hoperands, hps⟩ := ih
    refine ⟨(if e.isCombination then "(" ++ text ++ ")" else text, f) :: ps, rfl, ?_, ?_⟩
    · simp only [Expression.operands, htext, hoperands, bind, Except.bind, pure, Except.pure,
        List.map_cons]
    · refine List.forall_mem_cons.mpr ⟨?_, hps⟩
      by_cases hcombination : e.isCombination = true
      · simpa [hcombination] using hwrites.parens
      · have hnegation := hlevel (by simpa using hcombination)
        rw [hnegation] at hwrites
        simpa [hcombination] using hwrites

/-- Two operands or more are combined under their operator. -/
theorem combine_eq {op : Operator} {others : List Expression} (h : 2 ≤ (e :: others).length) :
    combine op e others = .apply op (e :: others) := by
  cases others with
  | nil =>
    simp only [List.length_cons, List.length_nil] at h
    omega
  | cons f others => rfl

def Connective.spelling {j k : Category} : Connective j k → String
  | and => "and"
  | or => "or"

namespace Connective

variable {j k : Category}

theorem spelled_word (c : Connective j k) : Spelled inner c.spelling.toList [c.word] := by
  cases c with
  | and => exact spelled_fixed spells_and rfl
  | or => exact spelled_fixed spells_or rfl

theorem writes_operand (c : Connective j k) (h : Writes inner .negation text e) :
    Writes inner j text e := by
  cases c with
  | and => exact h
  | or => exact h.lift .and

theorem condition_apply (c : Connective j k) {texts : List String}
    (h : Expression.operands es = .ok texts) : (Expression.apply c.operator es).condition =
      .ok ((" " ++ c.spelling ++ " ").intercalate texts) := by
  cases c with
  | and =>
    rw [operator, Expression.condition_all, h]
    rfl
  | or =>
    rw [operator, Expression.condition_any, h]
    rfl

/-- The condition text of a chain; a single operand stands for itself. -/
theorem isReadAs (c : Connective j k) (h : List.Forall₂ (IsReadAs inner) es (f :: fs)) :
    IsReadAs inner (.apply c.operator es) (combine c.operator f fs) := by
  obtain ⟨ps, hsnd, hoperands, hps⟩ := exists_operands h
  obtain ⟨p, ps, rfl, rfl, rfl⟩ := List.map_eq_cons_iff.mp hsnd
  obtain ⟨ts, others, hfirst, hothers, hmap, hspells⟩ :=
    spells_joined c.spelled_word fun q hq => c.writes_operand (hps q hq)
  refine ⟨_, k, c.condition_apply hoperands, ⟨_, hspells, ?_⟩, fun hsingle => ?_⟩
  · rw [← hmap]
    exact c.derives hfirst hothers
  · cases c <;> cases hsingle

end Connective

/-- A filter expression has a condition text, which is read as that expression. -/
theorem isReadAs_of_isCondition (h : IsCondition inner e) : IsReadAs inner e e := by
  induction h with
  | @comparison op name l hop hname hl =>
    by_cases hnull : op = .equal ∧ l = .null
    · obtain ⟨rfl, rfl⟩ := hnull
      exact isReadAs_isNull hname
    · exact isReadAs_comparison hop hname hnull hl.isOperand
  | not he ih => exact isReadAs_not he ih
  | @any es hlen _ ih =>
    obtain ⟨e, es, rfl⟩ := List.exists_cons_of_length_pos (by omega : 0 < es.length)
    have hread := Connective.or.isReadAs (List.forall₂_same.mpr ih)
    rwa [combine_eq hlen] at hread
  | @all es hlen _ ih =>
    obtain ⟨e, es, rfl⟩ := List.exists_cons_of_length_pos (by omega : 0 < es.length)
    have hread := Connective.and.isReadAs (List.forall₂_same.mpr ih)
    rwa [combine_eq hlen] at hread

/-- The condition text of an expression is tidy and is read as a condition. -/
theorem IsReadAs.parse_eq (h : IsReadAs inner e f) :
    ∃ text, e.condition = .ok text ∧ IsTidy inner text.toList ∧ parse text = .ok f := by
  obtain ⟨text, k, htext, hwrites, -⟩ := h
  obtain ⟨ts, hspells, hderives⟩ := hwrites.disjunction
  have htokens : tokens? text = some ts := hspells.spells.tiling?_eq
  refine ⟨text, htext, hspells.tidy, ?_⟩
  simp only [parse, htokens, ofTokens_of_derives hderives]
  rfl

/-- The condition text of a filter expression exists, is tidy and is read as that expression. -/
theorem exists_condition_eq (h : IsCondition inner e) :
    ∃ text, e.condition = .ok text ∧ IsTidy inner text.toList ∧ parse text = .ok e :=
  (isReadAs_of_isCondition h).parse_eq

/-- Whatever quotable texts it holds, a filter expression has a condition text, and that text is
read as the expression. -/
theorem exists_condition_parse_eq (h : IsCondition (fun _ => True) e) :
    ∃ text, e.condition = .ok text ∧ parse text = .ok e := by
  obtain ⟨text, htext, -, hparse⟩ := exists_condition_eq h
  exact ⟨text, htext, hparse⟩

def placeCondition : Expression :=
  .apply .all [
    .apply .not [.apply .equal [.get "kind", .null]],
    .apply .any [
      .apply .greater [.get "size", .number 2.5],
      .apply .not [.apply .like [.get "name", .text "N%"]]]]

theorem isNumber_five_halves : Decimal.IsNumber 2.5 := by
  have hdisplay : Decimal.display 2.5 = "2.5" := by decide +kernel
  refine ⟨?_, ?_⟩ <;> rw [hdisplay]
  · exact Pattern.accepts_iff.mp (by decide)
  · rfl

theorem isCondition_placeCondition : IsCondition (fun _ => True) placeCondition := by
  have hkind : IsIdentifier "kind" :=
    isIdentifier_of_lower rfl rfl (by decide) (by decide) (by decide)
  have hsize : IsIdentifier "size" :=
    isIdentifier_of_lower rfl rfl (by decide) (by decide) (by decide)
  have hname : IsIdentifier "name" :=
    isIdentifier_of_lower rfl rfl (by decide) (by decide) (by decide)
  refine .all (by decide) (List.forall_mem_cons.mpr ⟨?_, List.forall_mem_singleton.mpr ?_⟩)
  · exact .not (.comparison rfl hkind .null)
  · refine .any (by decide) (List.forall_mem_cons.mpr ⟨?_, List.forall_mem_singleton.mpr ?_⟩)
    · exact .comparison rfl hsize (.number isNumber_five_halves)
    · exact .not (.comparison rfl hname (.text (Or.inl (by decide)) fun _ _ => trivial))

theorem parse_placeCondition :
    placeCondition.condition = .ok "kind is not null and (size > 2.5 or name not like 'N%')" ∧
      parse "kind is not null and (size > 2.5 or name not like 'N%')" = .ok placeCondition := by
  obtain ⟨text, htext, hparse⟩ := exists_condition_parse_eq isCondition_placeCondition
  have hcondition : placeCondition.condition.toOption =
      some "kind is not null and (size > 2.5 or name not like 'N%')" := by decide +kernel
  rw [htext] at hcondition
  obtain rfl := Option.some.inj hcondition
  exact ⟨htext, hparse⟩

end CartoStyle.Condition
