import CartoStyle.Proofs.Condition.Derivation
import CartoStyle.Style.Filter

/-!
When conditions and filters hold. A test compares an attribute with a constant; given
which tests come out true, every expression of a condition and every filter is true or
false. The filter of an expression is true under the same assignments as the expression.
-/

namespace CartoStyle

/-- A comparison of an attribute with a constant. Both kinds of pattern match are one test,
and a test for null is an equality with null. -/
structure Test where
  comparator : Comparator
  property : String
  value : Literal

def Value.literal? : Value → Option Literal
  | .null => some .null
  | .bool b => some (.bool b)
  | .number x => some (.number x)
  | .text s => some (.text s)
  | _ => none

def Test.of? (op : Operator) (args : List Expression) : Option Test := do
  let comparator ← Comparator.ofOperator? op
  let property ← args.head?.bind Expression.attribute?
  let value ← args[1]?.bind (·.read.literal?)
  return { comparator, property, value }

namespace Expression

mutual

/-- Whether an expression is true if these tests are. -/
def holds (truth : Test → Bool) : Expression → Bool
  | literal _ => false
  | apply .any es => anyHolds truth es
  | apply .all es => allHold truth es
  | apply .not [] => false
  | apply .not (e :: _) => !e.holds truth
  | apply op args => (Test.of? op args).any truth

def anyHolds (truth : Test → Bool) : List Expression → Bool
  | [] => false
  | e :: es => e.holds truth || anyHolds truth es

def allHold (truth : Test → Bool) : List Expression → Bool
  | [] => true
  | e :: es => e.holds truth && allHold truth es

end

variable {truth : Test → Bool}

theorem anyHolds_eq (es : List Expression) : anyHolds truth es = es.any (holds truth) := by
  induction es with
  | nil => rfl
  | cons e es ih => rw [anyHolds, ih, List.any_cons]

theorem allHold_eq (es : List Expression) : allHold truth es = es.all (holds truth) := by
  induction es with
  | nil => rfl
  | cons e es ih => rw [allHold, ih, List.all_cons]

theorem holds_of_ofOperator? {op : Operator} {comparator : Comparator} {args : List Expression}
    (hop : Comparator.ofOperator? op = some comparator) :
    (apply op args).holds truth = (Test.of? op args).any truth := by
  cases op <;> first | rfl | cases hop

end Expression

def FilterValue.literal : FilterValue → Literal
  | bool b => .bool b
  | number x => .number x
  | text s => .text s

namespace Filter

mutual

/-- Whether a filter is true if these tests are. -/
def holds (truth : Test → Bool) : Filter → Bool
  | and filters => allHold truth filters
  | or filters => anyHolds truth filters
  | not filter => !filter.holds truth
  | comparison comparator property value => truth ⟨comparator, property, value.literal⟩
  | isNull property => truth ⟨.equal, property, .null⟩

def anyHolds (truth : Test → Bool) : List Filter → Bool
  | [] => false
  | f :: fs => f.holds truth || anyHolds truth fs

def allHold (truth : Test → Bool) : List Filter → Bool
  | [] => true
  | f :: fs => f.holds truth && allHold truth fs

end

variable {truth : Test → Bool} {e : Expression} {es : List Expression} {f : Filter}
  {fs : List Filter}

theorem anyHolds_eq (fs : List Filter) : anyHolds truth fs = fs.any (holds truth) := by
  induction fs with
  | nil => rfl
  | cons f fs ih => rw [anyHolds, ih, List.any_cons]

theorem allHold_eq (fs : List Filter) : allHold truth fs = fs.all (holds truth) := by
  induction fs with
  | nil => rfl
  | cons f fs ih => rw [allHold, ih, List.all_cons]

/-- A combination of one filter is that filter. -/
theorem eq_of_combine {join : List Filter → Filter} (h : combine e join fs = .ok f) :
    fs = [f] ∨ f = join fs := by
  match fs, h with
  | [g], h =>
    cases h
    exact Or.inl rfl
  | g :: g' :: fs, h =>
    cases h
    exact Or.inr rfl

theorem holds_of_combine_or (h : combine e or fs = .ok f) :
    f.holds truth = fs.any (holds truth) := by
  rcases eq_of_combine h with rfl | rfl
  · simp
  · rw [holds, anyHolds_eq]

theorem holds_of_combine_and (h : combine e and fs = .ok f) :
    f.holds truth = fs.all (holds truth) := by
  rcases eq_of_combine h with rfl | rfl
  · simp
  · rw [holds, allHold_eq]

theorem literal?_of_ofValue? {v : Value} {value : FilterValue}
    (h : FilterValue.ofValue? v = some value) : v.literal? = some value.literal := by
  cases v <;> cases h <;> rfl

inductive IsTest : Filter → Test → Prop
  | comparison (comparator : Comparator) (property : String) (value : FilterValue) :
      IsTest (.comparison comparator property value) ⟨comparator, property, value.literal⟩
  | isNull (property : String) : IsTest (.isNull property) ⟨.equal, property, .null⟩

/-- The filter of a comparison is the test of the comparison. -/
theorem exists_isTest_of_ofComparison {op : Operator} {comparator : Comparator}
    {args : List Expression} (hop : Comparator.ofOperator? op = some comparator)
    (h : ofComparison e op comparator args = .ok f) :
    ∃ t, Test.of? op args = some t ∧ IsTest f t := by
  rw [Test.of?, hop]
  rw [ofComparison] at h
  cases hproperty : args.head?.bind Expression.attribute? with
  | none =>
    rw [hproperty] at h
    cases h
  | some property =>
    simp only [hproperty] at h
    split at h
    · next hvalue =>
      obtain ⟨value, hvalue, hnull⟩ := Option.map_eq_some_iff.mp hvalue
      cases h
      cases hop
      exact ⟨_, by simp [hvalue, hnull, Value.literal?], .isNull property⟩
    · split at h
      · next value hvalue =>
        cases h
        obtain ⟨v, hv, hvalue⟩ := Option.bind_eq_some_iff.mp hvalue
        obtain ⟨arg, harg, rfl⟩ := Option.map_eq_some_iff.mp hv
        exact ⟨_, by simp [harg, literal?_of_ofValue? hvalue],
          .comparison comparator property value⟩
      · cases h

theorem holds_of_ofComparison {op : Operator} {comparator : Comparator} {args : List Expression}
    (hop : Comparator.ofOperator? op = some comparator)
    (h : ofComparison e op comparator args = .ok f) :
    f.holds truth = (Expression.apply op args).holds truth := by
  obtain ⟨t, ht, hf⟩ := exists_isTest_of_ofComparison hop h
  rw [Expression.holds_of_ofOperator? hop, ht, Option.any_some]
  cases hf <;> rfl

/-- What the filters of some expressions have in common with the expressions. -/
theorem map_eq_of_ofExpressions {β : Type} {p : Filter → β} {q : Expression → β}
    (h : ∀ e ∈ es, ∀ f, ofExpression e = .ok f → p f = q e) (hfs : ofExpressions es = .ok fs) :
    fs.map p = es.map q := by
  induction es generalizing fs with
  | nil =>
    cases hfs
    rfl
  | cons e es ih =>
    obtain ⟨f, hf, hrest⟩ := bind_eq_ok_iff.mp hfs
    obtain ⟨gs, hgs, hcons⟩ := bind_eq_ok_iff.mp hrest
    cases hcons
    rw [List.map_cons, List.map_cons, h e List.mem_cons_self f hf,
      ih (fun e he => h e (List.mem_cons_of_mem _ he)) hgs]

/-- The filter of an expression is true when the expression is. -/
theorem holds_of_ofExpression (h : ofExpression e = .ok f) : f.holds truth = e.holds truth := by
  induction e generalizing f with
  | literal value => cases h
  | apply op args ih =>
    cases op with
    | any =>
      obtain ⟨fs, hfs, hcombine⟩ := bind_eq_ok_iff.mp h
      have hmap := map_eq_of_ofExpressions (fun e he f => ih e he) hfs
      rw [holds_of_combine_or hcombine, Expression.holds, Expression.anyHolds_eq]
      simpa using congrArg (List.any · id) hmap
    | all =>
      obtain ⟨fs, hfs, hcombine⟩ := bind_eq_ok_iff.mp h
      have hmap := map_eq_of_ofExpressions (fun e he f => ih e he) hfs
      rw [holds_of_combine_and hcombine, Expression.holds, Expression.allHold_eq]
      simpa using congrArg (List.all · id) hmap
    | not =>
      match args, h with
      | inner :: _, h =>
        obtain ⟨g, hg, hnot⟩ := bind_eq_ok_iff.mp h
        cases hnot
        rw [holds, Expression.holds, ih inner List.mem_cons_self hg]
    | equal | notEqual | greater | greaterOrEqual | less | lessOrEqual | like | ilike =>
      exact holds_of_ofComparison rfl h
    | _ => cases h

end Filter

end CartoStyle
