import CartoStyle.Proofs.Style.Scale

/-!
The tests of a filter, at whatever depth they stand. The filter of some selectors makes the
tests of their conditions, apart from those conditions that are scale bounds as a whole. So a
bound that fills its bracket is no test of the filter, and one within a combination or under
a negation stays a test of it.
-/

namespace CartoStyle

/-- The test compares a scale attribute with a number and lets through one side. -/
structure Test.LimitsScale (scaleAttributes : List String) (t : Test) : Prop where
  comparator : t.comparator ∈ [.greater, .greaterOrEqual, .less, .lessOrEqual]
  property : t.property ∈ scaleAttributes
  value : t.value.asNumber?.isSome = true

theorem Test.limitsScale_iff {scaleAttributes : List String} {t : Test} :
    t.LimitsScale scaleAttributes ↔
      t.comparator ∈ [.greater, .greaterOrEqual, .less, .lessOrEqual] ∧
        t.property ∈ scaleAttributes ∧ t.value.asNumber?.isSome = true :=
  ⟨fun h => ⟨h.comparator, h.property, h.value⟩, fun ⟨hc, hp, hv⟩ => ⟨hc, hp, hv⟩⟩

instance (scaleAttributes : List String) : DecidablePred (Test.LimitsScale scaleAttributes) :=
  fun _ => decidable_of_iff' _ Test.limitsScale_iff

namespace Expression

mutual

def tests : Expression → List Test
  | literal _ => []
  | apply .any es => allTests es
  | apply .all es => allTests es
  | apply .not [] => []
  | apply .not (e :: _) => e.tests
  | apply op args => (Test.of? op args).toList

def allTests : List Expression → List Test
  | [] => []
  | e :: es => e.tests ++ allTests es

end

theorem allTests_eq (es : List Expression) : allTests es = es.flatMap tests := by
  induction es with
  | nil => rfl
  | cons e es ih => rw [allTests, ih, List.flatMap_cons]

theorem tests_of_ofOperator? {op : Operator} {comparator : Comparator} {args : List Expression}
    (hop : Comparator.ofOperator? op = some comparator) :
    (apply op args).tests = (Test.of? op args).toList := by
  cases op <;> first | rfl | cases hop

/-- No test in the expression limits the scale. -/
def IsScaleFree (scaleAttributes : List String) (e : Expression) : Prop :=
  ∀ t ∈ e.tests, ¬ t.LimitsScale scaleAttributes

end Expression

namespace Filter

mutual

def tests : Filter → List Test
  | and filters => allTests filters
  | or filters => allTests filters
  | not filter => filter.tests
  | comparison comparator property value => [⟨comparator, property, value.literal⟩]
  | isNull property => [⟨.equal, property, .null⟩]

def allTests : List Filter → List Test
  | [] => []
  | f :: fs => f.tests ++ allTests fs

end

theorem allTests_eq (fs : List Filter) : allTests fs = fs.flatMap tests := by
  induction fs with
  | nil => rfl
  | cons f fs ih => rw [allTests, ih, List.flatMap_cons]

def IsScaleFree (scaleAttributes : List String) (f : Filter) : Prop :=
  ∀ t ∈ f.tests, ¬ t.LimitsScale scaleAttributes

variable {e : Expression} {f : Filter} {fs : List Filter}

theorem tests_of_combine {join : List Filter → Filter}
    (hjoin : ∀ fs, (join fs).tests = fs.flatMap tests) (h : combine e join fs = .ok f) :
    f.tests = fs.flatMap tests := by
  rcases eq_of_combine h with rfl | rfl
  · simp
  · exact hjoin fs

theorem tests_of_ofComparison {op : Operator} {comparator : Comparator} {args : List Expression}
    (hop : Comparator.ofOperator? op = some comparator)
    (h : ofComparison e op comparator args = .ok f) :
    f.tests = (Expression.apply op args).tests := by
  obtain ⟨t, ht, hf⟩ := exists_isTest_of_ofComparison hop h
  rw [Expression.tests_of_ofOperator? hop, ht, Option.toList_some]
  cases hf <;> rfl

/-- The filter of an expression makes the tests of the expression. -/
theorem tests_of_ofExpression (h : ofExpression e = .ok f) : f.tests = e.tests := by
  induction e generalizing f with
  | literal value => cases h
  | apply op args ih =>
    cases op with
    | any | all =>
      obtain ⟨fs, hfs, hcombine⟩ := bind_eq_ok_iff.mp h
      have hmap := map_eq_of_ofExpressions (fun e he f => ih e he) hfs
      have hjoin := tests_of_combine (fun fs => by rw [tests, allTests_eq]) hcombine
      rw [hjoin, Expression.tests, Expression.allTests_eq, List.flatMap_def, hmap,
        List.flatMap_def]
    | not =>
      match args, h with
      | inner :: _, h =>
        obtain ⟨g, hg, hnot⟩ := bind_eq_ok_iff.mp h
        cases hnot
        rw [tests, Expression.tests, ih inner List.mem_cons_self hg]
    | equal | notEqual | greater | greaterOrEqual | less | lessOrEqual | like | ilike =>
      exact tests_of_ofComparison rfl h
    | _ => cases h

end Filter

namespace Selector

open Condition

variable {scaleAttributes : List String} {e : Expression} {es : List Expression} {f : Filter}

theorem tests_of_conjunction? (h : conjunction? es = some e) :
    e.tests = es.flatMap Expression.tests := by
  rcases eq_of_conjunction? h with rfl | rfl
  · simp
  · rw [Expression.tests, Expression.allTests_eq]

/-- The tests of the conjunctions are those of the conditions. -/
theorem flatMap_tests_conjunction (css : List (List Expression)) :
    ((css.map conjunction?).filterMap id).flatMap Expression.tests =
      css.flatten.flatMap Expression.tests := by
  induction css with
  | nil => rfl
  | cons es css ih =>
    rw [List.map_cons, List.flatten_cons, List.flatMap_append, ← ih]
    cases hes : conjunction? es with
    | none =>
      rw [conjunction?_eq_none_iff] at hes
      simp [hes]
    | some e => simp [tests_of_conjunction? hes]

theorem tests_of_filterOf {css : List (List Expression)}
    (h : filterOf (css.map conjunction?) = .ok (some f)) :
    f.tests = css.flatten.flatMap Expression.tests := by
  simp only [filterOf] at h
  split at h
  · cases h
  · cases hfilter : Filter.ofExpression (.apply .any ((css.map conjunction?).filterMap id)) with
    | error fault =>
      rw [hfilter] at h
      cases h
    | ok g =>
      rw [hfilter] at h
      cases h
      rw [Filter.tests_of_ofExpression hfilter, Expression.tests, Expression.allTests_eq,
        flatMap_tests_conjunction]

theorem tests_comparison {op : Operator} {comparator : Comparator}
    (hop : Comparator.ofOperator? op = some comparator) (name : String) (l : Literal) :
    (Expression.apply op [.get name, .literal l]).tests = [⟨comparator, name, l⟩] := by
  have hvalue : (Expression.literal l).read.literal? = some l := by cases l <;> rfl
  have hproperty : (Expression.get name).attribute? = some name := rfl
  rw [Expression.tests_of_ofOperator? hop, Test.of?, hop]
  simp [hvalue, hproperty]

/-- The test of a comparison limits the scale exactly if the comparison is a scale bound. -/
theorem limitsScale_comparison_iff {op : Operator} {comparator : Comparator}
    (hop : Comparator.ofOperator? op = some comparator) {name : String} {l : Literal} :
    Test.LimitsScale scaleAttributes ⟨comparator, name, l⟩ ↔
      ScaleBound.of? scaleAttributes (.apply op [.get name, .literal l]) ≠ none := by
  rw [Test.limitsScale_iff]
  cases op <;> cases hop <;>
    simp [ScaleBound.of?, Expression.get, Expression.text, Option.isSome_iff_ne_none]

/-- A single comparison that is no scale bound does not limit the scale. -/
theorem isScaleFree_of_compares {ts : List Condition.Token} (h : Compares ts e)
    (hnone : ScaleBound.of? scaleAttributes e = none) : e.IsScaleFree scaleAttributes := by
  have hfree {op : Operator} {comparator : Comparator} {name : String} {l : Literal}
      (hop : Comparator.ofOperator? op = some comparator)
      (hnone : ScaleBound.of? scaleAttributes (.apply op [.get name, .literal l]) = none) :
      (Expression.apply op [.get name, .literal l]).IsScaleFree scaleAttributes := by
    intro t ht hlimits
    rw [tests_comparison hop, List.mem_singleton] at ht
    subst ht
    exact (limitsScale_comparison_iff hop).mp hlimits hnone
  have hbare {op : Operator} (hop : op = .like ∨ op = .ilike ∨ op = .equal) (name : String)
      (l : Literal) :
      ScaleBound.of? scaleAttributes (.apply op [.get name, .literal l]) = none := by
    rcases hop with rfl | rfl | rfl <;> simp [ScaleBound.of?, Expression.get, Expression.text]
  cases h with
  | @sign name t _ op v hop hv =>
    obtain ⟨l, rfl⟩ := exists_literal_of_operand hv
    cases t <;> cases hop <;> exact hfree rfl hnone
  | notLike name hv =>
    obtain ⟨l, rfl⟩ := exists_literal_of_operand hv
    exact hfree rfl (hbare (by simp) name l)
  | notIlike name hv =>
    obtain ⟨l, rfl⟩ := exists_literal_of_operand hv
    exact hfree rfl (hbare (by simp) name l)
  | isNull name => exact hfree rfl hnone
  | isNotNull name => exact hfree rfl (hbare (by simp) name .null)

end Selector

namespace Selection

open Selector

variable {scaleAttributes sels : List String} {s : Selection} {f : Filter}

/-- The filter of some selectors makes the tests of their conditions that are no bounds. -/
theorem tests_filter (h : ofSelectors scaleAttributes sels = .ok s) (hf : s.filter = some f) :
    f.tests = sels.flatMap fun sel =>
      (unbounded scaleAttributes (conditionsOf sel)).flatMap Expression.tests := by
  obtain ⟨ess, hess, hfilter, -⟩ := exists_of_ofSelectors h
  rw [hf] at hfilter
  rw [tests_of_filterOf hfilter, ← map_conditionsOf hess, List.map_map, ← List.flatMap_def,
    List.flatMap_assoc]
  rfl

theorem forall_mem_tests_filter_iff (h : ofSelectors scaleAttributes sels = .ok s)
    (hf : s.filter = some f) {p : Test → Prop} :
    (∀ t ∈ f.tests, p t) ↔ ∀ sel ∈ sels, ∀ e ∈ conditionsOf sel,
      ScaleBound.of? scaleAttributes e = none → ∀ t ∈ e.tests, p t := by
  simp only [tests_filter h hf, unbounded, List.mem_flatMap, List.mem_filter,
    Option.isNone_iff_eq_none]
  constructor
  · intro hall sel hsel e he hnone t ht
    exact hall t ⟨sel, hsel, e, ⟨he, hnone⟩, ht⟩
  · rintro hall t ⟨sel, hsel, e, ⟨he, hnone⟩, ht⟩
    exact hall sel hsel e he hnone t ht

/-- If every condition is a single comparison, no test in the filter limits the scale. -/
theorem isScaleFree_filter_of_compares (h : ofSelectors scaleAttributes sels = .ok s)
    (hf : s.filter = some f)
    (hsingle : ∀ sel ∈ sels, ∀ e ∈ conditionsOf sel, ∃ ts, Condition.Compares ts e) :
    f.IsScaleFree scaleAttributes := by
  refine (forall_mem_tests_filter_iff h hf).mpr fun sel hsel e he hnone => ?_
  obtain ⟨ts, hcompares⟩ := hsingle sel hsel e he
  exact isScaleFree_of_compares hcompares hnone

/-- No test in the filter limits the scale exactly if the conditions that are no bounds hold no
such test: a bound inside a condition stays in the filter. -/
theorem isScaleFree_filter_iff (h : ofSelectors scaleAttributes sels = .ok s)
    (hf : s.filter = some f) :
    f.IsScaleFree scaleAttributes ↔ ∀ sel ∈ sels, ∀ e ∈ conditionsOf sel,
      ScaleBound.of? scaleAttributes e = none → e.IsScaleFree scaleAttributes :=
  forall_mem_tests_filter_iff h hf

/-- A bound in a conjunction within a bracket is a test of the filter. -/
theorem exists_filter_limitsScale :
    ∃ s f, ofSelectors ["@sd", "@scale"] ["[@sd > 1000 and a = 1]"] = .ok s ∧ s.filter = some f ∧
      ∃ t ∈ f.tests, t.LimitsScale ["@sd", "@scale"] := by
  have hread : ((ofSelectors ["@sd", "@scale"] ["[@sd > 1000 and a = 1]"]).toOption.bind
      (·.filter)).any (fun f => ∃ t ∈ f.tests, t.LimitsScale ["@sd", "@scale"]) = true := by
    decide +kernel
  cases hs : ofSelectors ["@sd", "@scale"] ["[@sd > 1000 and a = 1]"] with
  | error fault =>
    rw [hs] at hread
    cases hread
  | ok s =>
    rw [hs] at hread
    cases hf : s.filter with
    | none =>
      simp only [Except.toOption, Option.bind_some, hf] at hread
      cases hread
    | some f =>
      simp only [Except.toOption, Option.bind_some, hf, Option.any_some] at hread
      exact ⟨s, f, rfl, hf, of_decide_eq_true hread⟩

theorem isScaleFree_filter_conjunction_iff :
    ∃ s f, ofSelectors ["@sd", "@scale"] ["[@sd > 1000 and a = 1]"] = .ok s ∧ s.filter = some f ∧
      (f.IsScaleFree ["@sd", "@scale"] ↔
        ∀ sel ∈ ["[@sd > 1000 and a = 1]"], ∀ e ∈ conditionsOf sel,
          ScaleBound.of? ["@sd", "@scale"] e = none → e.IsScaleFree ["@sd", "@scale"]) := by
  obtain ⟨s, f, hs, hf, -⟩ := exists_filter_limitsScale
  exact ⟨s, f, hs, hf, isScaleFree_filter_iff hs hf⟩

/-- A filter may limit the scale. -/
theorem not_forall_isScaleFree_filter :
    ¬ ∀ (scaleAttributes sels : List String) (s : Selection),
      ofSelectors scaleAttributes sels = .ok s → ∀ f ∈ s.filter, f.IsScaleFree scaleAttributes := by
  intro hclaim
  obtain ⟨s, f, hs, hf, t, ht, hlimits⟩ := exists_filter_limitsScale
  exact hclaim _ _ s hs f hf t ht hlimits

end Selection

end CartoStyle
