import CartoStyle.Proofs.Decimal.Double
import CartoStyle.Proofs.Style.Alternatives
import CartoStyle.Proofs.Style.Selector

/-!
The scales at which a rule applies. A rule has one range of scales, which stands for all its
selectors: a selector that bounds the scale on one side gives the range its end there, whatever
the selectors before it said, and one that does not leaves the end as it is. Away from the bounds
the rule applies if some selector has its other conditions true and the scale is within the
range.
-/

namespace CartoStyle

def ScaleBound.number : ScaleBound → Float
  | above n => n
  | below n => n

/-- The bound keeps small scales out. -/
def ScaleBound.isLower : ScaleBound → Bool
  | above _ => true
  | below _ => false

def ScaleBound.Admits (x : Float) : ScaleBound → Prop
  | above n => n < x
  | below n => x < n

def ScaleRange.Admits (r : ScaleRange) (x : Float) : Prop :=
  (∀ n ∈ r.min, n < x) ∧ ∀ n ∈ r.max, x < n

def ScaleRange.side? (r : ScaleRange) (lower : Bool) : Option ScaleBound :=
  if lower then r.min.map .above else r.max.map .below

theorem ScaleRange.admits_iff {r : ScaleRange} {x : Float} :
    r.Admits x ↔ ∀ lower, ∀ b ∈ r.side? lower, b.Admits x := by
  simp [Admits, side?, ScaleBound.Admits, and_comm]

/-- The features for which the filter is true are drawn at this scale. -/
def Selection.AppliesAt (s : Selection) (truth : Test → Bool) (x : Float) : Prop :=
  (∀ f ∈ s.filter, f.holds truth = true) ∧ ∀ r ∈ s.scale, r.Admits x

/-- How tests come out at a scale: a scale attribute has the scale as its value, and the tests
that are no comparison of a scale attribute with a number come out as given. -/
def Test.atScale (scaleAttributes : List String) (x : Float) (others : Test → Bool) (t : Test) :
    Bool :=
  match t.value.asNumber? with
  | some n =>
    if t.property ∈ scaleAttributes then
      match t.comparator with
      | .equal => x == n
      | .notEqual => x != n
      | .greater => n < x
      | .greaterOrEqual => n ≤ x
      | .less => x < n
      | .lessOrEqual => x ≤ n
      | .like => others t
    else others t
  | none => others t

namespace Selector

open Condition

def conditionsOf (selector : String) : List Expression :=
  (conditionTexts selector).filterMap fun text => (Condition.parse text).toOption

def IsBound (scaleAttributes : List String) (lower : Bool) (e : Expression) : Prop :=
  ∃ bound, ScaleBound.of? scaleAttributes e = some bound ∧ bound.isLower = lower

/-- Where the range of some selectors ends on one side, told by their conditions: nowhere if none
of them is a bound on this side, and otherwise at a bound of the last selector that has one. -/
inductive IsEnd (scaleAttributes : List String) (lower : Bool) :
    List (List Expression) → Option Expression → Prop
  | absent {ess : List (List Expression)}
      (h : ∀ es ∈ ess, ∀ e ∈ es, ¬ IsBound scaleAttributes lower e) :
      IsEnd scaleAttributes lower ess none
  | last {before after : List (List Expression)} {es : List Expression} {e : Expression}
      (hmem : e ∈ es) (hbound : IsBound scaleAttributes lower e)
      (hafter : ∀ es ∈ after, ∀ e ∈ es, ¬ IsBound scaleAttributes lower e) :
      IsEnd scaleAttributes lower (before ++ es :: after) (some e)

variable {scaleAttributes : List String} {x : Float} {others : Test → Bool} {e : Expression}
  {es : List Expression} {ess : List (List Expression)} {bound : ScaleBound} {lower : Bool}

theorem Reads.conditionsOf_eq {selector : String} (h : Reads selector es) :
    conditionsOf selector = es := by
  obtain ⟨-, hconditions⟩ := h
  rw [conditionsOf]
  generalize conditionTexts selector = texts at hconditions ⊢
  induction hconditions with
  | nil => rfl
  | cons hmeans _ ih =>
    rw [List.filterMap_cons, parse_eq_ok_iff_means.mpr hmeans, ih]
    rfl

theorem map_conditionsOf {sels : List String} {ess : List (List Expression)}
    (h : List.Forall₂ Reads sels ess) : sels.map conditionsOf = ess := by
  induction h with
  | nil => rfl
  | cons hreads _ ih => rw [List.map_cons, hreads.conditionsOf_eq, ih]

/-- A bound compares a scale attribute with its number. -/
theorem exists_of_scaleBound (h : ScaleBound.of? scaleAttributes e = some bound) :
    ∃ op name l, e = .apply op [.get name, .literal l] ∧ name ∈ scaleAttributes ∧
      l.asNumber? = some bound.number ∧
      if bound.isLower then op = .greater ∨ op = .greaterOrEqual
        else op = .less ∨ op = .lessOrEqual := by
  unfold ScaleBound.of? at h
  split at h
  · next op name l =>
    split at h
    · next hmem =>
      refine ⟨op, name, l, rfl, hmem, ?_⟩
      split at h <;> first
        | obtain ⟨n, hn, rfl⟩ := Option.map_eq_some_iff.mp h
          exact ⟨hn, by simp [ScaleBound.isLower]⟩
        | cases h
    · cases h
  · cases h

/-- Away from its number a bound is true on its side, whether it includes the number or not. -/
theorem holds_atScale_iff (h : ScaleBound.of? scaleAttributes e = some bound)
    (hx : (x == bound.number) = false) :
    e.holds (Test.atScale scaleAttributes x others) = true ↔ bound.Admits x := by
  obtain ⟨op, name, l, rfl, hmem, hnumber, hop⟩ := exists_of_scaleBound h
  have hliteral : (Expression.literal l).read.literal? = some l := by cases l <;> rfl
  have htest {comparator : Comparator} (hop : Comparator.ofOperator? op = some comparator) :
      (Expression.apply op [.get name, .literal l]).holds (Test.atScale scaleAttributes x others) =
        Test.atScale scaleAttributes x others ⟨comparator, name, l⟩ := by
    have hattribute : (Expression.get name).attribute? = some name := rfl
    rw [Expression.holds_of_ofOperator? hop, Test.of?, hop]
    simp [hattribute, hliteral]
  cases bound with
  | above n =>
    have hstrict : n ≤ x ↔ n < x := Decimal.le_iff_lt_of_beq (Decimal.beq_comm.trans hx)
    rcases hop with rfl | rfl <;> rw [htest rfl] <;>
      simp [Test.atScale, hnumber, hmem, ScaleBound.number, ScaleBound.Admits, hstrict]
  | below n =>
    have hstrict : x ≤ n ↔ x < n := Decimal.le_iff_lt_of_beq hx
    rcases hop with rfl | rfl <;> rw [htest rfl] <;>
      simp [Test.atScale, hnumber, hmem, ScaleBound.number, ScaleBound.Admits, hstrict]

theorem side?_set (range : ScaleRange) (bound : ScaleBound) (lower : Bool) :
    (range.set bound).side? lower =
      if bound.isLower == lower then some bound else range.side? lower := by
  cases bound <;> cases lower <;> rfl

theorem boundedBy_append (range : ScaleRange) (es fs : List Expression) :
    boundedBy scaleAttributes range (es ++ fs) =
      boundedBy scaleAttributes (boundedBy scaleAttributes range es) fs := by
  simp only [boundedBy, List.filterMap_append, List.foldl_append]

theorem side?_boundedBy_singleton (h : IsBound scaleAttributes lower e) (range : ScaleRange) :
    (boundedBy scaleAttributes range [e]).side? lower = ScaleBound.of? scaleAttributes e := by
  obtain ⟨bound, hof, hlower⟩ := h
  rw [boundedBy, List.filterMap_cons_some hof, List.filterMap_nil, List.foldl_cons, List.foldl_nil,
    side?_set, if_pos (beq_iff_eq.mpr hlower), hof]

theorem side?_boundedBy_singleton_of_not (h : ¬ IsBound scaleAttributes lower e)
    (range : ScaleRange) :
    (boundedBy scaleAttributes range [e]).side? lower = range.side? lower := by
  cases hof : ScaleBound.of? scaleAttributes e with
  | none =>
    rw [boundedBy, List.filterMap_cons_none hof]
    rfl
  | some bound =>
    have hlower : ¬ (bound.isLower == lower) = true := fun hlower =>
      h ⟨bound, hof, beq_iff_eq.mp hlower⟩
    rw [boundedBy, List.filterMap_cons_some hof, List.filterMap_nil, List.foldl_cons,
      List.foldl_nil, side?_set, if_neg hlower]

/-- Conditions give the range one of their bounds as its end, or leave the end as it is. -/
theorem side?_boundedBy_cases (scaleAttributes : List String) (lower : Bool) (range : ScaleRange)
    (es : List Expression) :
    (∃ e ∈ es, IsBound scaleAttributes lower e ∧
      (boundedBy scaleAttributes range es).side? lower = ScaleBound.of? scaleAttributes e) ∨
    (∀ e ∈ es, ¬ IsBound scaleAttributes lower e) ∧
      (boundedBy scaleAttributes range es).side? lower = range.side? lower := by
  induction es using List.reverseRecOn with
  | nil => exact Or.inr ⟨nofun, rfl⟩
  | append_singleton es e ih =>
    rw [boundedBy_append]
    by_cases hbound : IsBound scaleAttributes lower e
    · exact Or.inl ⟨e, List.mem_append_right es List.mem_cons_self, hbound,
        side?_boundedBy_singleton hbound _⟩
    · rw [side?_boundedBy_singleton_of_not hbound]
      rcases ih with ⟨f, hf, hend⟩ | ⟨hnone, hside⟩
      · exact Or.inl ⟨f, List.mem_append_left [e] hf, hend⟩
      · exact Or.inr ⟨List.forall_mem_append.mpr ⟨hnone, List.forall_mem_singleton.mpr hbound⟩,
          hside⟩

theorem IsEnd.append {last? : Option Expression} (h : IsEnd scaleAttributes lower ess last?)
    (hes : ∀ e ∈ es, ¬ IsBound scaleAttributes lower e) :
    IsEnd scaleAttributes lower (ess ++ [es]) last? := by
  cases h with
  | absent h => exact .absent (List.forall_mem_append.mpr ⟨h, List.forall_mem_singleton.mpr hes⟩)
  | last hmem hbound hafter =>
    rw [List.append_assoc, List.cons_append]
    exact .last hmem hbound
      (List.forall_mem_append.mpr ⟨hafter, List.forall_mem_singleton.mpr hes⟩)

theorem IsEnd.mem {last? : Option Expression} (h : IsEnd scaleAttributes lower ess last?)
    (hlast : last? = some e) : e ∈ ess.flatten ∧ IsBound scaleAttributes lower e := by
  cases h with
  | absent _ => cases hlast
  | last hmem hbound _ =>
    cases hlast
    exact ⟨List.mem_flatten.mpr ⟨_, List.mem_append_right _ List.mem_cons_self, hmem⟩, hbound⟩

/-- By induction from the last selector. -/
theorem exists_isEnd (scaleAttributes : List String) (lower : Bool)
    (ess : List (List Expression)) :
    ∃ last?, IsEnd scaleAttributes lower ess last? ∧
      (boundedBy scaleAttributes {} ess.flatten).side? lower =
        last?.bind (ScaleBound.of? scaleAttributes) := by
  induction ess using List.reverseRecOn with
  | nil => exact ⟨none, .absent nofun, by cases lower <;> rfl⟩
  | append_singleton ess es ih =>
    rw [List.flatten_append, List.flatten_singleton, boundedBy_append]
    rcases side?_boundedBy_cases scaleAttributes lower
      (boundedBy scaleAttributes {} ess.flatten) es with ⟨e, he, hbound, hside⟩ | ⟨hnone, hside⟩
    · exact ⟨some e, .last he hbound nofun, hside⟩
    · obtain ⟨last?, hlast, hbefore⟩ := ih
      exact ⟨last?, hlast.append hnone, hside.trans hbefore⟩

/-- Away from the bounds the range admits the scales at which its ends are true. -/
theorem exists_ends_admits_iff (scaleAttributes : List String) (ess : List (List Expression)) :
    ∃ ends : Bool → Option Expression,
      (∀ lower, IsEnd scaleAttributes lower ess (ends lower)) ∧
      ∀ (x : Float) (others : Test → Bool),
        (∀ e ∈ ess.flatten, ∀ b ∈ ScaleBound.of? scaleAttributes e, (x == b.number) = false) →
        ((boundedBy scaleAttributes {} ess.flatten).Admits x ↔
          ∀ lower, ∀ e ∈ ends lower, e.holds (Test.atScale scaleAttributes x others) = true) := by
  choose ends hends hsides using fun lower => exists_isEnd scaleAttributes lower ess
  refine ⟨ends, hends, fun x others hx => ?_⟩
  rw [ScaleRange.admits_iff]
  refine forall_congr' fun lower => ?_
  rw [hsides]
  cases hlast : ends lower with
  | none => simp
  | some e =>
    obtain ⟨hmem, bound, hbound, -⟩ := (hends lower).mem hlast
    simp [hbound, holds_atScale_iff hbound (hx e hmem bound hbound)]

end Selector

namespace Selection

open Selector

variable {scaleAttributes sels : List String} {s : Selection} {x : Float} {others : Test → Bool}

/-- The range of a rule ends on each side at a bound of the last selector that has one on that
side. At a scale that is none of the bounds, the rule applies if some selector has its conditions
true apart from the bounds, and if the ends of the range are true. -/
theorem exists_ends_appliesAt_iff (hne : sels ≠ []) (h : ofSelectors scaleAttributes sels = .ok s) :
    ∃ ends : Bool → Option Expression,
      (∀ lower, IsEnd scaleAttributes lower (sels.map conditionsOf) (ends lower)) ∧
      ∀ (x : Float) (others : Test → Bool),
        (∀ e ∈ sels.flatMap conditionsOf, ∀ b ∈ ScaleBound.of? scaleAttributes e,
          (x == b.number) = false) →
        (s.AppliesAt (Test.atScale scaleAttributes x others) x ↔
          (∃ sel ∈ sels, ∀ e ∈ conditionsOf sel, ScaleBound.of? scaleAttributes e = none →
            e.holds (Test.atScale scaleAttributes x others) = true) ∧
          ∀ lower, ∀ e ∈ ends lower, e.holds (Test.atScale scaleAttributes x others) = true) := by
  obtain ⟨ess, hess, -, hscale⟩ := exists_of_ofSelectors h
  obtain ⟨ends, hends, hadmits⟩ := exists_ends_admits_iff scaleAttributes ess
  have hrange (x : Float) : (∀ r ∈ s.scale, r.Admits x) ↔ (s.scale.getD {}).Admits x := by
    cases s.scale with
    | none => simp [ScaleRange.Admits]
    | some r => simp
  rw [List.flatMap_def, map_conditionsOf hess]
  refine ⟨ends, hends, fun x others hx => ?_⟩
  rw [AppliesAt, holds_filter_iff hne h, hrange, hscale, hadmits x others hx,
    exists_everyCondition_iff hess, ← map_conditionsOf hess]
  simp

section Star

/-- The selectors of large scales and of everything, as they are read. -/
theorem ofSelectors_bound_star :
    ofSelectors ["@sd", "@scale"] ["[@sd > 2.5]", "*"] = .ok { scale := some { min := some 2.5 } } ∧
      conditionsOf "[@sd > 2.5]" = [.apply .greater [.get "@sd", .number 2.5]] ∧
      conditionsOf "*" = [] := by
  have hname : Condition.IsIdentifier "@sd" :=
    Condition.isIdentifier_of_lower rfl rfl (by decide) (by decide) (by decide)
  have hr : ScaleRange.IsWritable { min := some 2.5 } :=
    ⟨fun n hn => by cases hn; exact Condition.isNumber_five_halves, nofun⟩
  have htext : boundText "@sd" .greater 2.5 = "@sd > 2.5" := by decide +kernel
  have hsel : bracketed ["@sd > 2.5"] = "[@sd > 2.5]" := by decide
  have hbounds : ScaleRange.bounds { min := some 2.5 } "@sd" = ["@sd > 2.5"] := by
    rw [← htext]
    rfl
  have hcontents : ∀ t ∈ ["@sd > 2.5"], IsContent (· ≠ ']') t := by
    rw [← hbounds]
    exact isContent_bounds (not_not_intro rfl) hr hname
  have hsort : sortConditions ["@sd", "@scale"] {} ["@sd > 2.5"] =
      .ok ([], { min := some 2.5 }) := by
    rw [← hbounds]
    exact sortConditions_bounds hr hname (by decide) {}
  refine ⟨?_, ?_, ?_⟩
  · rw [ofSelectors, ← hsel, alternatives, if_pos (isPlain_bracketed hcontents),
      conditionTexts_bracketed hcontents, hsort]
    simp only [bind, Except.bind, alternatives_star]
    rfl
  · have hparse := (parse_bound (· ≠ ']') (Or.inl rfl) hname Condition.isNumber_five_halves).2
    rw [htext] at hparse
    rw [conditionsOf, ← hsel, conditionTexts_bracketed hcontents, List.filterMap_cons, hparse]
    rfl
  · rw [conditionsOf, isPlain_star.2]
    rfl

theorem ne_number_of_bound_star : ∀ e ∈ ["[@sd > 2.5]", "*"].flatMap conditionsOf,
    ∀ b ∈ ScaleBound.of? ["@sd", "@scale"] e, ((1 : Float) == b.number) = false := by
  obtain ⟨-, hbound, hstar⟩ := ofSelectors_bound_star
  intro e he b hb
  simp only [List.flatMap_cons, hbound, hstar, List.flatMap_nil, List.append_nil,
    List.mem_singleton] at he
  subst he
  obtain rfl : b = .above 2.5 := (Option.some.inj hb).symm
  decide +kernel

theorem exists_ends_bound_star : ∃ ends : Bool → Option Expression,
    (∀ lower, IsEnd ["@sd", "@scale"] lower (["[@sd > 2.5]", "*"].map conditionsOf)
      (ends lower)) ∧
    (Selection.AppliesAt { scale := some { min := some 2.5 } }
        (Test.atScale ["@sd", "@scale"] 1 fun _ => true) 1 ↔
      (∃ sel ∈ ["[@sd > 2.5]", "*"], ∀ e ∈ conditionsOf sel,
        ScaleBound.of? ["@sd", "@scale"] e = none →
          e.holds (Test.atScale ["@sd", "@scale"] 1 fun _ => true) = true) ∧
      ∀ lower, ∀ e ∈ ends lower,
        e.holds (Test.atScale ["@sd", "@scale"] 1 fun _ => true) = true) := by
  obtain ⟨ends, hends, happlies⟩ :=
    exists_ends_appliesAt_iff (List.cons_ne_nil _ _) ofSelectors_bound_star.1
  exact ⟨ends, hends, happlies 1 _ ne_number_of_bound_star⟩

/-- An alternative without a bound does not widen the range of the others. -/
theorem not_forall_appliesAt_iff_exists_holds :
    ¬ ∀ (scaleAttributes sels : List String) (s : Selection) (x : Float) (others : Test → Bool),
      sels ≠ [] → ofSelectors scaleAttributes sels = .ok s →
      (∀ e ∈ sels.flatMap conditionsOf, ∀ b ∈ ScaleBound.of? scaleAttributes e,
        (x == b.number) = false) →
      (s.AppliesAt (Test.atScale scaleAttributes x others) x ↔
        ∃ sel ∈ sels, ∀ e ∈ conditionsOf sel,
          e.holds (Test.atScale scaleAttributes x others) = true) := by
  intro hclaim
  obtain ⟨hread, hbound, hstar⟩ := ofSelectors_bound_star
  have hiff := hclaim _ _ _ 1 (fun _ => true) (List.cons_ne_nil _ _) hread ne_number_of_bound_star
  have hsome : ∃ sel ∈ ["[@sd > 2.5]", "*"], ∀ e ∈ conditionsOf sel,
      e.holds (Test.atScale ["@sd", "@scale"] 1 fun _ => true) = true :=
    ⟨"*", by simp, by rw [hstar]; nofun⟩
  have hlow : ¬ (2.5 : Float) < 1 := by decide +kernel
  exact hlow ((hiff.mpr hsome).2 _ rfl |>.1 2.5 rfl)

end Star

end Selection

end CartoStyle
