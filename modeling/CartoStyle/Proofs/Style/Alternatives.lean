import CartoStyle.Proofs.Style.Truth
import CartoStyle.Rule.Record
import CartoStyle.Style.Selector

/-!
What a list of selectors selects. Reading it gives the conditions of every selector; the
ones that bound the scale go into the scale range in the order in which they stand, and
the filter is true if the other conditions of some selector are. So the filter of nested
blocks is true if at every level some alternative has its conditions true.
-/

namespace CartoStyle

def Literal.asNumber? (l : Literal) : Option Float := (Expression.literal l).read.asNumber?

/-- A bound of the scales at which a rule applies. -/
inductive ScaleBound where
  | above (scale : Float)
  | below (scale : Float)

def ScaleBound.of? (scaleAttributes : List String) : Expression → Option ScaleBound
  | .apply op [.apply .get [.literal (.text name)], .literal value] =>
    if name ∈ scaleAttributes then
      match op with
      | .greater | .greaterOrEqual => value.asNumber?.map above
      | .less | .lessOrEqual => value.asNumber?.map below
      | _ => none
    else none
  | _ => none

/-- The range after one more bound, which takes the place of an earlier one. -/
def ScaleRange.set (range : ScaleRange) : ScaleBound → ScaleRange
  | .above scale => { range with min := some scale }
  | .below scale => { range with max := some scale }

namespace Condition

variable {k : Category} {ts : List Token} {e v : Expression}

theorem exists_literal_of_operand {u : Token} (h : Operand u v) : ∃ l, v = .literal l := by
  cases h <;> exact ⟨_, rfl⟩

/-- An expression of a condition is no attribute. -/
theorem attribute?_eq_none_of_derives (h : Derives k ts e) : e.attribute? = none := by
  have hcombine {op : Operator} {first : Expression} {others : List Expression}
      (hop : op ≠ .get) (hfirst : first.attribute? = none) :
      (combine op first others).attribute? = none := by
    cases others with
    | nil => exact hfirst
    | cons f others => cases op <;> first | rfl | exact absurd rfl hop
  induction h with
  | comparison h =>
    cases h with
    | @sign name t u op v hop _ => cases t <;> cases hop <;> rfl
    | _ => rfl
  | not _ _ => rfl
  | parens _ ih => exact ih
  | all _ _ ih _ => exact hcombine nofun ih
  | any _ _ ih _ => exact hcombine nofun ih

end Condition

namespace Selector

open Condition

variable {scaleAttributes : List String} {range range' : ScaleRange} {truth : Test → Bool}
  {e : Expression} {es : List Expression}

theorem scaleBound_of?_eq_none {op : Operator} (h : e.attribute? = none) :
    ScaleBound.of? scaleAttributes (.apply op (e :: es)) = none := by
  unfold ScaleBound.of?
  split
  · next heq =>
    cases heq
    cases h
  · rfl

theorem scaleBound_of?_negate (e : Expression) :
    ScaleBound.of? scaleAttributes (negate e) = none := by
  unfold ScaleBound.of?
  split
  · next heq => cases heq
  · rfl

theorem bound?_eq_none_of_subject {op : Operator} (h : e.attribute? = none) :
    bound? scaleAttributes range (.apply op (e :: es)) = none := by
  cases es with
  | nil => rfl
  | cons f es => simp [bound?, h]

theorem bound?_comparison (op : Operator) (name : String) (l : Literal) :
    bound? scaleAttributes range (.apply op [.get name, .literal l]) =
      (ScaleBound.of? scaleAttributes (.apply op [.get name, .literal l])).map range.set := by
  have hattribute : (Expression.apply .get [.literal (.text name)]).attribute? = some name := rfl
  simp only [bound?, hattribute, ScaleBound.of?, Expression.get, Expression.text,
    Literal.asNumber?, Option.bind_eq_bind, Option.bind_some, List.contains_iff_mem]
  by_cases hmem : name ∈ scaleAttributes
  · cases (Expression.literal l).read.asNumber? with
    | none => cases op <;> simp [hmem, guard]
    | some x => cases op <;> simp [hmem, guard, ScaleRange.set]
  · simp [hmem, guard]

/-- A condition changes the range exactly if it is a scale bound. -/
theorem bound?_eq_map_set {k : Category} {ts : List Token} (h : Derives k ts e) :
    bound? scaleAttributes range e = (ScaleBound.of? scaleAttributes e).map range.set := by
  have hcombine {op : Operator} {first : Expression} (others : List Expression)
      (hsubject : first.attribute? = none)
      (hfirst : bound? scaleAttributes range first =
        (ScaleBound.of? scaleAttributes first).map range.set) :
      bound? scaleAttributes range (Condition.combine op first others) =
        (ScaleBound.of? scaleAttributes (Condition.combine op first others)).map range.set := by
    cases others with
    | nil => exact hfirst
    | cons f others =>
      show bound? scaleAttributes range (.apply op (first :: f :: others)) =
        (ScaleBound.of? scaleAttributes (.apply op (first :: f :: others))).map range.set
      rw [bound?_eq_none_of_subject hsubject, scaleBound_of?_eq_none hsubject]
      rfl
  induction h with
  | comparison h =>
    cases h with
    | sign name _ hv =>
      obtain ⟨l, rfl⟩ := exists_literal_of_operand hv
      exact bound?_comparison _ name l
    | isNull name => exact bound?_comparison _ name .null
    | _ =>
      rw [scaleBound_of?_negate]
      rfl
  | not _ _ =>
    rw [scaleBound_of?_negate]
    rfl
  | parens _ ih => exact ih
  | all h _ ih _ => exact hcombine _ (attribute?_eq_none_of_derives h) ih
  | any h _ ih _ => exact hcombine _ (attribute?_eq_none_of_derives h) ih

def boundedBy (scaleAttributes : List String) (range : ScaleRange) (es : List Expression) :
    ScaleRange :=
  (es.filterMap (ScaleBound.of? scaleAttributes)).foldl ScaleRange.set range

def unbounded (scaleAttributes : List String) (es : List Expression) : List Expression :=
  es.filter fun e => (ScaleBound.of? scaleAttributes e).isNone

/-- The bounds among the conditions of a selector go into the range, and the others are kept. -/
theorem exists_of_sortConditions {texts : List String}
    (h : sortConditions scaleAttributes range texts = .ok (es, range')) :
    ∃ all, List.Forall₂ Means texts all ∧ es = unbounded scaleAttributes all ∧
      range' = boundedBy scaleAttributes range all := by
  induction texts generalizing range es with
  | nil =>
    cases h
    exact ⟨[], .nil, rfl, rfl⟩
  | cons text texts ih =>
    obtain ⟨e, he, hrest⟩ := bind_eq_ok_iff.mp h
    have hmeans := parse_eq_ok_iff_means.mp he
    obtain ⟨ts, -, hderives⟩ := id hmeans
    have hbound : bound? scaleAttributes range e =
        (ScaleBound.of? scaleAttributes e).map range.set := bound?_eq_map_set hderives
    cases hof : ScaleBound.of? scaleAttributes e with
    | some bound =>
      simp only [hbound, hof, Option.map_some] at hrest
      obtain ⟨all, hall, rfl, rfl⟩ := ih hrest
      exact ⟨e :: all, .cons hmeans hall, by simp [unbounded, hof], by simp [boundedBy, hof]⟩
    | none =>
      simp only [hbound, hof, Option.map_none] at hrest
      obtain ⟨⟨others, end'⟩, hothers, hcons⟩ := bind_eq_ok_iff.mp hrest
      cases hcons
      obtain ⟨all, hall, rfl, rfl⟩ := ih hothers
      exact ⟨e :: all, .cons hmeans hall, by simp [unbounded, hof], by simp [boundedBy, hof]⟩

/-- The conditions between the brackets of a selector, which holds nothing else than a star. -/
structure Reads (selector : String) (es : List Expression) : Prop where
  plain : isPlain selector = true
  conditions : List.Forall₂ Means (conditionTexts selector) es

def EveryCondition (p : Expression → Prop) (selector : String) : Prop :=
  ∀ text ∈ conditionTexts selector, ∃ e, Means text e ∧ p e

theorem means_unique {text : String} {e e' : Expression} (h : Means text e) (h' : Means text e') :
    e = e' := by
  rw [← parse_eq_ok_iff_means] at h h'
  rw [h] at h'
  exact Except.ok.inj h'

theorem Reads.everyCondition_iff {selector : String} (h : Reads selector es)
    (p : Expression → Prop) : EveryCondition p selector ↔ ∀ e ∈ es, p e := by
  obtain ⟨-, hconditions⟩ := h
  rw [EveryCondition]
  generalize conditionTexts selector = texts at hconditions ⊢
  induction hconditions with
  | nil => simp
  | @cons text e texts es hmeans _ ih =>
    rw [List.forall_mem_cons, List.forall_mem_cons, ih]
    have hfirst : (∃ e, Means text e ∧ p e) ↔ p e :=
      ⟨fun ⟨e', he', hp⟩ => means_unique hmeans he' ▸ hp, fun hp => ⟨e, hmeans, hp⟩⟩
    rw [hfirst]

theorem exists_everyCondition_iff {sels : List String} {ess : List (List Expression)}
    (h : List.Forall₂ Reads sels ess) (p : Expression → Prop) :
    (∃ sel ∈ sels, EveryCondition p sel) ↔ ∃ es ∈ ess, ∀ e ∈ es, p e := by
  induction h with
  | nil => simp
  | cons hreads _ ih => simp only [List.exists_mem_cons_iff, ih, hreads.everyCondition_iff]

/-- Every selector gives the conjunction of its conditions that are no bounds, and the bounds of
all selectors go into the range. -/
theorem exists_of_alternatives {sels : List String} {alts : List (Option Expression)}
    (h : alternatives scaleAttributes range sels = .ok (alts, range')) :
    ∃ ess, List.Forall₂ Reads sels ess ∧
      alts = ess.map (fun es => conjunction? (unbounded scaleAttributes es)) ∧
      range' = boundedBy scaleAttributes range ess.flatten := by
  induction sels generalizing range alts with
  | nil =>
    cases h
    exact ⟨[], .nil, rfl, rfl⟩
  | cons sel sels ih =>
    rw [alternatives] at h
    split at h
    · next hplain =>
      obtain ⟨⟨es, between⟩, hes, hrest⟩ := bind_eq_ok_iff.mp h
      obtain ⟨⟨others, end'⟩, hothers, hcons⟩ := bind_eq_ok_iff.mp hrest
      cases hcons
      obtain ⟨all, hall, rfl, rfl⟩ := exists_of_sortConditions hes
      obtain ⟨ess, hess, rfl, rfl⟩ := ih hothers
      exact ⟨all :: ess, .cons ⟨hplain, hall⟩ hess, rfl, by simp [boundedBy, List.foldl_append]⟩
    · cases h

theorem conjunction?_eq_none_iff : conjunction? es = none ↔ es = [] := by
  match es with
  | [] => simp [conjunction?]
  | [_] => simp [conjunction?]
  | _ :: _ :: _ => simp [conjunction?]

/-- A conjunction of one condition is that condition. -/
theorem eq_of_conjunction? (h : conjunction? es = some e) : es = [e] ∨ e = .apply .all es := by
  match es, h with
  | [e], h =>
    cases h
    exact Or.inl rfl
  | e :: f :: es, h =>
    cases h
    exact Or.inr rfl

theorem holds_of_conjunction? (h : conjunction? es = some e) :
    e.holds truth = es.all (Expression.holds truth) := by
  rcases eq_of_conjunction? h with rfl | rfl
  · simp
  · rw [Expression.holds, Expression.allHold_eq]

theorem exists_conjunction {css : List (List Expression)} (hempty : [] ∉ css)
    {es : List Expression} (hes : es ∈ css) : ∃ e, conjunction? es = some e := by
  refine Option.ne_none_iff_exists'.mp fun hnone => hempty ?_
  rwa [← conjunction?_eq_none_iff.mp hnone]

/-- If every alternative has conditions, the filter is the disjunction of their conjunctions. -/
theorem filterOf_map_conjunction {css : List (List Expression)} (hne : css ≠ [])
    (hempty : [] ∉ css) : filterOf (css.map conjunction?) =
      some <$> Filter.ofExpression (.apply .any ((css.map conjunction?).filterMap id)) := by
  have hpresent : (css.map conjunction?).any Option.isNone = false := by
    rw [List.any_eq_false]
    intro a ha
    obtain ⟨es, hes, rfl⟩ := List.mem_map.mp ha
    obtain ⟨e, he⟩ := exists_conjunction hempty hes
    simp [he]
  have hconditions : ((css.map conjunction?).filterMap id).isEmpty = false := by
    cases css with
    | nil => exact absurd rfl hne
    | cons es css =>
      obtain ⟨e, he⟩ := exists_conjunction hempty List.mem_cons_self
      simp [he]
  simp only [filterOf, hpresent, hconditions, Bool.or_false, if_neg Bool.false_ne_true]

/-- The filter of some alternatives is true if the conditions of one of them are. -/
theorem holds_of_filterOf {css : List (List Expression)} (hne : css ≠ []) {filter : Option Filter}
    (h : filterOf (css.map conjunction?) = .ok filter) :
    (∀ f ∈ filter, f.holds truth = true) ↔ ∃ es ∈ css, ∀ e ∈ es, e.holds truth = true := by
  by_cases hempty : [] ∈ css
  · have hnone : (css.map conjunction?).any Option.isNone = true :=
      List.any_eq_true.mpr ⟨none, List.mem_map.mpr ⟨[], hempty, rfl⟩, rfl⟩
    simp only [filterOf, hnone, Bool.or_true, if_true] at h
    cases h
    exact ⟨fun _ => ⟨[], hempty, nofun⟩, fun _ => nofun⟩
  · rw [filterOf_map_conjunction hne hempty] at h
    cases hfilter : Filter.ofExpression (.apply .any ((css.map conjunction?).filterMap id)) with
    | error fault =>
      rw [hfilter] at h
      cases h
    | ok f =>
      rw [hfilter] at h
      cases h
      have hholds : f.holds truth = true ↔
          ∃ e ∈ (css.map conjunction?).filterMap id, e.holds truth = true := by
        rw [Filter.holds_of_ofExpression hfilter, Expression.holds, Expression.anyHolds_eq,
          List.any_eq_true]
      simp only [Option.mem_some_iff, forall_eq', hholds, List.filterMap_map, List.mem_filterMap]
      constructor
      · rintro ⟨e, ⟨es, hes, he⟩, htrue⟩
        rw [holds_of_conjunction? he] at htrue
        exact ⟨es, hes, List.all_eq_true.mp htrue⟩
      · rintro ⟨es, hes, htrue⟩
        obtain ⟨e, he⟩ := exists_conjunction hempty hes
        refine ⟨e, ⟨es, hes, he⟩, ?_⟩
        rw [holds_of_conjunction? he]
        exact List.all_eq_true.mpr htrue

end Selector

namespace Selection

open Selector

variable {scaleAttributes sels : List String} {s : Selection} {truth : Test → Bool}

/-- What reading some selectors gives, in terms of their conditions. -/
theorem exists_of_ofSelectors (h : ofSelectors scaleAttributes sels = .ok s) :
    ∃ ess, List.Forall₂ Reads sels ess ∧
      filterOf ((ess.map (unbounded scaleAttributes)).map conjunction?) = .ok s.filter ∧
      s.scale.getD {} = boundedBy scaleAttributes {} ess.flatten := by
  obtain ⟨⟨alts, range⟩, halts, hrest⟩ := bind_eq_ok_iff.mp h
  obtain ⟨filter, hfilter, hs⟩ := bind_eq_ok_iff.mp hrest
  cases hs
  obtain ⟨ess, hess, rfl, rfl⟩ := exists_of_alternatives halts
  refine ⟨ess, hess, by rwa [List.map_map], ?_⟩
  generalize boundedBy scaleAttributes {} ess.flatten = range
  obtain ⟨min, max⟩ := range
  cases min <;> cases max <;> rfl

/-- The filter of some selectors is true if one of them has all its conditions true, scale bounds
apart. -/
theorem holds_filter_iff (hne : sels ≠ []) (h : ofSelectors scaleAttributes sels = .ok s) :
    (∀ f ∈ s.filter, f.holds truth = true) ↔ ∃ sel ∈ sels,
      EveryCondition (fun e => ScaleBound.of? scaleAttributes e = none → e.holds truth = true)
        sel := by
  obtain ⟨ess, hess, hfilter, -⟩ := exists_of_ofSelectors h
  have hne : ess.map (unbounded scaleAttributes) ≠ [] := by
    cases hess with
    | nil => exact absurd rfl hne
    | cons _ _ => nofun
  rw [holds_of_filterOf hne hfilter, exists_everyCondition_iff hess]
  simp [unbounded]

end Selection

end CartoStyle
