import Mathlib
import CartoStyle.Proofs.Condition.Grammar
import CartoStyle.Proofs.Fault

/-!
What the condition parser accepts, stated against the grammar. Each call reads a front
of the tokens that the grammar derives and leaves the others, so a condition has an
expression exactly if its tokens are a disjunction with that expression.
-/

namespace CartoStyle.Condition

variable {ts rest : List Token} {e v : Expression}

def Consumes (k : Category) (ts : List Token) (e : Expression) (rest : List Token) : Prop :=
  ∃ used, ts = used ++ rest ∧ Derives k used e

/-- The first tokens are operands, each behind the word that joins them, and these are left. -/
def ConsumesAll (k : Category) (word : Token) (ts : List Token) (es : List Expression)
    (rest : List Token) : Prop :=
  ∃ others, ts = joined word others ++ rest ∧ others.map Prod.snd = es ∧
    ∀ o ∈ others, Derives k o.1 o.2

section Comparisons

theorem exists_operand_of_eq_ok (h : operand ts = .ok (v, rest)) :
    ∃ u, ts = u :: rest ∧ Operand u v := by
  match ts, h with
  | .number x :: _, h =>
    cases h
    exact ⟨_, rfl, .number x⟩
  | .quoted s :: _, h =>
    cases h
    exact ⟨_, rfl, .quoted s⟩
  | .null :: _, h =>
    cases h
    exact ⟨_, rfl, .null⟩
  | .identifier w :: tail, h =>
    rw [operand, Except.ok.injEq, Prod.mk.injEq] at h
    obtain ⟨rfl, rfl⟩ := h
    refine ⟨_, rfl, ?_⟩
    by_cases htrue : w = "true"
    · rw [if_pos htrue, htrue]
      exact .true
    · by_cases hfalse : w = "false"
      · rw [if_neg htrue, if_pos hfalse, hfalse]
        exact .false
      · rw [if_neg htrue, if_neg hfalse]
        exact .word ⟨htrue, hfalse⟩

theorem exists_of_compareWith {op : Operator} {subject : Expression}
    (h : compareWith op subject ts = .ok (e, rest)) :
    ∃ u v, ts = u :: rest ∧ Operand u v ∧ e = .apply op [subject, v] := by
  rw [compareWith] at h
  cases hoperand : operand ts with
  | error fault =>
    rw [hoperand] at h
    cases h
  | ok read =>
    obtain ⟨v, tail⟩ := read
    rw [hoperand] at h
    cases h
    obtain ⟨u, rfl, hu⟩ := exists_operand_of_eq_ok hoperand
    exact ⟨u, v, rfl, hu, rfl⟩

theorem exists_of_negated {r : Reading} (h : negated r = .ok (e, rest)) :
    ∃ inner, r = .ok (inner, rest) ∧ e = negate inner := by
  cases r with
  | error fault => cases h
  | ok read =>
    obtain ⟨inner, tail⟩ := read
    cases h
    exact ⟨inner, rfl, rfl⟩

/-- What stands behind an attribute is a part of a comparison. -/
theorem exists_of_predicate {name : String} (h : predicate (.get name) ts = .ok (e, rest)) :
    ∃ used, ts = used ++ rest ∧ Compares (.identifier name :: used) e := by
  have hsign {t : Token} {tail : List Token} {op : Operator} (hop : t.comparison? = some op)
      (h : compareWith op (.get name) tail = .ok (e, rest)) :
      ∃ used, t :: tail = used ++ rest ∧ Compares (.identifier name :: used) e := by
    obtain ⟨u, v, rfl, hu, rfl⟩ := exists_of_compareWith h
    exact ⟨[t, u], rfl, .sign name hop hu⟩
  match ts, h with
  | .not :: .like :: tail, h =>
    obtain ⟨inner, hinner, rfl⟩ := exists_of_negated h
    obtain ⟨u, v, rfl, hu, rfl⟩ := exists_of_compareWith hinner
    exact ⟨[.not, .like, u], rfl, .notLike name hu⟩
  | .not :: .ilike :: tail, h =>
    obtain ⟨inner, hinner, rfl⟩ := exists_of_negated h
    obtain ⟨u, v, rfl, hu, rfl⟩ := exists_of_compareWith hinner
    exact ⟨[.not, .ilike, u], rfl, .notIlike name hu⟩
  | .is :: .null :: tail, h =>
    cases h
    exact ⟨[.is, .null], rfl, .isNull name⟩
  | .is :: .not :: .null :: tail, h =>
    cases h
    exact ⟨[.is, .not, .null], rfl, .isNotNull name⟩
  | .equal :: tail, h => exact hsign rfl h
  | .notEqual :: tail, h => exact hsign rfl h
  | .greater :: tail, h => exact hsign rfl h
  | .greaterOrEqual :: tail, h => exact hsign rfl h
  | .less :: tail, h => exact hsign rfl h
  | .lessOrEqual :: tail, h => exact hsign rfl h
  | .like :: tail, h => exact hsign rfl h
  | .ilike :: tail, h => exact hsign rfl h

theorem consumes_of_comparison (h : comparison ts = .ok (e, rest)) :
    Consumes .negation ts e rest := by
  match ts, h with
  | .identifier name :: tail, h =>
    obtain ⟨used, rfl, hused⟩ := exists_of_predicate h
    exact ⟨.identifier name :: used, rfl, .comparison hused⟩

end Comparisons

/-- With this much fuel the parser reads only what the grammar derives. -/
structure Sound (fuel : Nat) : Prop where
  read : ∀ (k : Category) ts e rest, k.read fuel ts = .ok (e, rest) → Consumes k ts e rest
  readMore : ∀ {j k : Category} (c : Connective j k) ts es rest,
    c.readMore fuel ts = .ok (es, rest) → ConsumesAll j c.word ts es rest

section Steps

variable {fuel : Nat} {es : List Expression} {j k : Category}

theorem consumesAll_nil (k : Category) (word : Token) (ts : List Token) :
    ConsumesAll k word ts [] ts := ⟨[], rfl, rfl, nofun⟩

/-- One more operand in front of others. -/
theorem Consumes.cons {k : Category} {word : Token} {tail : List Token}
    (h : Consumes k ts e tail) (hmore : ConsumesAll k word tail es rest) :
    ConsumesAll k word (word :: ts) (e :: es) rest := by
  obtain ⟨used, rfl, hused⟩ := h
  obtain ⟨others, rfl, rfl, hothers⟩ := hmore
  refine ⟨(used, e) :: others, ?_, rfl, List.forall_mem_cons.mpr ⟨hused, hothers⟩⟩
  rw [joined_cons, List.cons_append, List.append_assoc]

theorem Sound.read_succ (h : Sound fuel) (c : Connective j k)
    (hread : k.read (fuel + 1) ts = .ok (e, rest)) : Consumes k ts e rest := by
  rw [c.read_succ] at hread
  obtain ⟨⟨first, tail⟩, hfirst, hread⟩ := bind_eq_ok_iff.mp hread
  obtain ⟨⟨others, end'⟩, hothers, hread⟩ := bind_eq_ok_iff.mp hread
  cases hread
  obtain ⟨used, rfl, hused⟩ := h.read _ _ _ _ hfirst
  obtain ⟨ps, rfl, rfl, hps⟩ := h.readMore c _ _ _ hothers
  exact ⟨used ++ joined c.word ps, by rw [List.append_assoc], c.derives hused hps⟩

theorem consumesAll_of_readMore (c : Connective j k) (hend : fuel = 0 ∨ ts.head? ≠ some c.word)
    (hread : c.readMore fuel ts = .ok (es, rest)) : ConsumesAll j c.word ts es rest := by
  rw [c.readMore_eq hend] at hread
  cases hread
  exact consumesAll_nil _ _ _

theorem Sound.readMore_succ (h : Sound fuel) (c : Connective j k)
    (hread : c.readMore (fuel + 1) ts = .ok (es, rest)) : ConsumesAll j c.word ts es rest := by
  by_cases hword : ts.head? = some c.word
  · obtain ⟨tail, rfl⟩ := List.head?_eq_some_iff.mp hword
    rw [c.readMore_word] at hread
    obtain ⟨⟨first, tail⟩, hfirst, hread⟩ := bind_eq_ok_iff.mp hread
    obtain ⟨⟨others, end'⟩, hothers, hread⟩ := bind_eq_ok_iff.mp hread
    cases hread
    exact (h.read _ _ _ _ hfirst).cons (h.readMore c _ _ _ hothers)
  · exact consumesAll_of_readMore c (Or.inr hword) hread

theorem Sound.negation_succ (h : Sound fuel)
    (hread : Condition.negation (fuel + 1) ts = .ok (e, rest)) : Consumes .negation ts e rest := by
  rw [Condition.negation.eq_def] at hread
  split at hread
  · next heq => cases heq
  · next heq =>
    cases heq
    obtain ⟨inner, hinner, rfl⟩ := exists_of_negated hread
    obtain ⟨used, rfl, hused⟩ := h.read .negation _ _ _ hinner
    exact ⟨.not :: used, rfl, .not hused⟩
  · next heq =>
    cases heq
    obtain ⟨⟨inner, tail⟩, hinner, hclose⟩ := bind_eq_ok_iff.mp hread
    obtain ⟨used, rfl, hused⟩ := h.read .disjunction _ _ _ hinner
    clear hread hinner
    match tail, hclose with
    | .closeParen :: tail, hclose =>
      cases hclose
      refine ⟨.openParen :: (used ++ [.closeParen]), ?_, .parens hused⟩
      rw [List.cons_append, List.append_assoc, List.singleton_append]
  · exact consumes_of_comparison hread

theorem sound (fuel : Nat) : Sound fuel := by
  induction fuel with
  | zero =>
    refine ⟨fun k ts e rest h => ?_, fun c ts es rest h => consumesAll_of_readMore c (Or.inl rfl) h⟩
    cases k <;> cases h
  | succ fuel ih =>
    refine ⟨fun k ts e rest h => ?_, fun c ts es rest => ih.readMore_succ c⟩
    cases k with
    | negation => exact ih.negation_succ h
    | conjunction => exact ih.read_succ .and h
    | disjunction => exact ih.read_succ .or h

end Steps

/-- Tokens are read to their end exactly as the grammar derives them. -/
theorem ofTokens_eq_ok_iff_derives : ofTokens ts = .ok e ↔ Derives .disjunction ts e := by
  refine ⟨fun h => ?_, ofTokens_of_derives⟩
  rw [ofTokens] at h
  obtain ⟨⟨e', rest⟩, hread, hend⟩ := bind_eq_ok_iff.mp h
  obtain ⟨used, hused, hderives⟩ := (sound (fuelFor ts)).read .disjunction ts _ _ hread
  cases rest with
  | nil =>
    cases hend
    rwa [hused, List.append_nil]
  | cons t rest => cases hend

/-- The text is a condition with this expression. -/
def Means (text : String) (e : Expression) : Prop :=
  ∃ ts, tokens? text = some ts ∧ Derives .disjunction ts e

/-- The expression of a condition text is what the text means. -/
theorem parse_eq_ok_iff_means {text : String} : parse text = .ok e ↔ Means text e := by
  rw [parse, Means]
  cases tokens? text with
  | none => simp
  | some ts =>
    cases hread : ofTokens ts with
    | error fault =>
      have hnone : ¬ Derives .disjunction ts e := by
        rw [← ofTokens_eq_ok_iff_derives, hread]
        nofun
      simp [hread, Except.mapError, hnone]
    | ok e' =>
      simp only [Option.some.injEq, exists_eq_left', ← ofTokens_eq_ok_iff_derives, hread,
        Except.mapError, Except.ok.injEq]

end CartoStyle.Condition
