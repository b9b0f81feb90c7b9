import CartoStyle.Proofs.Fault
import CartoStyle.Proofs.Style.Selector

/-!
Filters whose selectors can be read. Numbers may change on the way, a combination of one operand
becomes that operand, and a test of a scale attribute may become a bound of the rule, so another
filter may come back; but none of the conditions is refused.
-/

namespace CartoStyle

inductive FilterValue.IsLegible (inner : Char → Prop) : FilterValue → Prop
  | bool (b : Bool) : IsLegible inner (.bool b)
  | number {x : Float} (h : Decimal.IsFinite x) : IsLegible inner (.number x)
  | text {s : String} (h : Lexeme.IsQuotable s) (hs : ∀ c ∈ s.toList, inner c) :
      IsLegible inner (.text s)

/-- The filter has texts in selectors, and its own texts are of the class. -/
inductive Filter.IsLegible (inner : Char → Prop) : Filter → Prop
  | and {fs : List Filter} (hne : fs ≠ []) (h : ∀ f ∈ fs, IsLegible inner f) :
      IsLegible inner (.and fs)
  | or {fs : List Filter} (hne : fs ≠ []) (h : ∀ f ∈ fs, IsLegible inner f) :
      IsLegible inner (.or fs)
  | not {f : Filter} (h : IsLegible inner f) : IsLegible inner (.not f)
  | comparison (c : Comparator) {name : String} {v : FilterValue}
      (hname : Condition.IsIdentifier name) (hv : v.IsLegible inner) :
      IsLegible inner (.comparison c name v)
  | isNull {name : String} (hname : Condition.IsIdentifier name) : IsLegible inner (.isNull name)

/-- The filter has a selector of its own. A conjunction without operands has one only if there are
bounds of the scale to write in it. -/
def Filter.IsLegibleBranch (inner : Char → Prop) (bounded : Bool) (f : Filter) : Prop :=
  f.IsLegible inner ∨ f = .and [] ∧ bounded = true

def Filter.HasLegibleBranches (inner : Char → Prop) (bounded : Bool) (f : Filter) : Prop :=
  f.IsLegibleBranch inner bounded ∨
    ∃ fs, f = .or fs ∧ fs ≠ [] ∧ ∀ g ∈ fs, g.IsLegibleBranch inner bounded

def Expression.IsFilter (e : Expression) : Prop := fault? (Filter.ofExpression e) = none

namespace Filter

variable {inner : Char → Prop} {f : Filter} {e : Expression} {es : List Expression}

section Expressions

theorem ofExpressions_eq_mapM (es : List Expression) :
    ofExpressions es = es.mapM ofExpression := by
  induction es with
  | nil => rfl
  | cons e es ih => rw [ofExpressions, List.mapM_cons, ih]

/-- A combination of filters, unless it is empty, is a filter. -/
theorem isFilter_combination {op : Operator} (hop : op = .any ∨ op = .all)
    (h : ∀ f ∈ e :: es, f.IsFilter) : (Expression.apply op (e :: es)).IsFilter := by
  obtain ⟨fs, hfs⟩ := exists_forall₂ fun f hf => fault?_eq_none_iff.mp (h f hf)
  have hread : ofExpressions (e :: es) = .ok fs := by
    rw [ofExpressions_eq_mapM]
    exact mapM_eq_ok_iff.mpr hfs
  have hcombine (whole : Expression) (join : List Filter → Filter) :
      fault? (combine whole join fs) = none := by
    cases hfs with
    | cons _ hrest => cases hrest <;> rfl
  rcases hop with rfl | rfl <;> rw [Expression.IsFilter, ofExpression, hread] <;>
    exact hcombine _ _

/-- A single operand stands for itself. -/
theorem isFilter_combine {op : Operator} (hop : op = .any ∨ op = .all)
    (h : ∀ f ∈ e :: es, f.IsFilter) : (Condition.combine op e es).IsFilter := by
  cases es with
  | nil => exact h e List.mem_cons_self
  | cons f es => exact isFilter_combination hop h

theorem isFilter_not (h : e.IsFilter) : (Expression.apply .not [e]).IsFilter := by
  rw [Expression.IsFilter, ofExpression]
  exact fault?_bind_eq_none h fun _ _ => rfl

theorem isFilter_comparison (c : Comparator) (name : String) {value : Expression}
    (h : ∃ v, FilterValue.ofValue? value.read = some v) :
    (Expression.apply c.operator [.get name, value]).IsFilter := by
  obtain ⟨v, hv⟩ := h
  have hattribute : (Expression.get name).attribute? = some name := rfl
  cases hread : value.read <;> rw [hread] at hv <;> cases hv <;> cases c <;>
    simp [Expression.IsFilter, Comparator.operator, ofExpression, Comparator.ofOperator?,
      ofComparison, hattribute, hread, FilterValue.ofValue?, fault?]

end Expressions

section Reading

/-- The literal of a constant is read as a constant. -/
theorem exists_isOperand {v : FilterValue} (h : v.IsLegible inner) :
    ∃ l w, v.expression = .literal l ∧ l ≠ .null ∧ Condition.IsOperand inner l w ∧
      ∃ value, FilterValue.ofValue? w.read = some value := by
  cases h with
  | bool b => exact ⟨.bool b, _, rfl, nofun, Condition.isOperand_bool b, _, rfl⟩
  | number h => exact ⟨_, _, rfl, nofun, Condition.isOperand_number h, _, rfl⟩
  | text h hs => exact ⟨_, _, rfl, nofun, Condition.isOperand_text h hs, _, rfl⟩

/-- The condition text of the filter is read as a filter. -/
def IsRereadAs (inner : Char → Prop) (f : Filter) (e : Expression) : Prop :=
  Condition.IsReadAs inner f.expression e ∧ e.IsFilter

theorem exists_comparison (c : Comparator) {name : String} {v : FilterValue}
    (hname : Condition.IsIdentifier name) (hv : v.IsLegible inner) :
    (∃ e, IsRereadAs inner (.comparison c name v) e) ∧
      ∃ e, IsRereadAs inner (.not (.comparison c name v)) e := by
  obtain ⟨l, w, hl, hnull, hoperand, hvalue⟩ := exists_isOperand hv
  have hop : c.operator.isComparison = true := by cases c <;> rfl
  have hfilter := isFilter_comparison c name hvalue
  have hnull : ¬ (c.operator = .equal ∧ l = .null) := fun h => hnull h.2
  refine ⟨⟨_, ?_, hfilter⟩, ⟨_, ?_, isFilter_not hfilter⟩⟩
  · rw [expression, hl]
    exact Condition.isReadAs_comparison hop hname hnull hoperand
  · rw [expression, expression, hl]
    exact Condition.isReadAs_not_comparison hop hname hnull hoperand

theorem exists_isNull {name : String} (hname : Condition.IsIdentifier name) :
    (∃ e, IsRereadAs inner (.isNull name) e) ∧ ∃ e, IsRereadAs inner (.not (.isNull name)) e := by
  have hfilter : (Expression.apply .equal [.get name, .null]).IsFilter := rfl
  exact ⟨⟨_, Condition.isReadAs_isNull hname, hfilter⟩,
    ⟨_, Condition.isReadAs_isNotNull hname, isFilter_not hfilter⟩⟩

theorem exists_operands {fs : List Filter} (hne : fs ≠ [])
    (h : ∀ f ∈ fs, ∃ e, IsRereadAs inner f e) :
    ∃ e es, List.Forall₂ (Condition.IsReadAs inner) (fs.map expression) (e :: es) ∧
      ∀ f ∈ e :: es, f.IsFilter := by
  obtain ⟨es, hes⟩ := exists_forall₂ h
  cases hes with
  | nil => exact absurd rfl hne
  | @cons f e fs es hfirst hrest =>
    refine ⟨e, es, List.forall₂_map_left_iff.mpr ((hrest.cons hfirst).imp fun _ _ hf => hf.1), ?_⟩
    intro g hg
    obtain ⟨_, -, hread⟩ := exists_of_forall₂ (hrest.cons hfirst) hg
    exact hread.2

/-- A legible filter and its negation have condition texts that are read as filters. -/
theorem IsLegible.exists_isRereadAs (h : f.IsLegible inner) :
    (∃ e, IsRereadAs inner f e) ∧ ∃ e, IsRereadAs inner (.not f) e := by
  -- The text of a negation is no function of the text of what it negates.
  have hnot {f : Filter} {e : Expression} {op : Operator} (hnull : f.expression.nullTest? = none)
      (hop : f.expression.op? = some op) (hlike : some op ≠ some .like ∧ some op ≠ some .ilike)
      (hf : IsRereadAs inner f e) : ∃ e, IsRereadAs inner (.not f) e :=
    ⟨_, hf.1.not_parens hnull (hop ▸ hlike), isFilter_not hf.2⟩
  induction h with
  | @and fs hne _ ih =>
    obtain ⟨e, es, hes, hfilters⟩ := exists_operands hne fun f hf => (ih f hf).1
    have hand : IsRereadAs inner (.and fs) (Condition.combine .all e es) := by
      rw [IsRereadAs, expression, expressions_eq_map]
      exact ⟨Condition.Connective.and.isReadAs hes, isFilter_combine (Or.inr rfl) hfilters⟩
    exact ⟨⟨_, hand⟩, hnot rfl rfl (by decide) hand⟩
  | @or fs hne _ ih =>
    obtain ⟨e, es, hes, hfilters⟩ := exists_operands hne fun f hf => (ih f hf).1
    have hor : IsRereadAs inner (.or fs) (Condition.combine .any e es) := by
      rw [IsRereadAs, expression, expressions_eq_map]
      exact ⟨Condition.Connective.or.isReadAs hes, isFilter_combine (Or.inl rfl) hfilters⟩
    exact ⟨⟨_, hor⟩, hnot rfl rfl (by decide) hor⟩
  | not _ ih =>
    obtain ⟨e, he⟩ := ih.2
    exact ⟨⟨e, he⟩, hnot rfl rfl (by decide) he⟩
  | comparison c hname hv => exact exists_comparison c hname hv
  | isNull hname => exact exists_isNull hname

end Reading

end Filter

namespace Selector

variable {inner : Char → Prop} {texts : List String} {selector name : String}

/-- The selector is blank or a star outside its brackets, which hold conditions that are read as
filters. -/
structure IsAcceptable (selector : String) : Prop where
  plain : isPlain selector = true
  conditions : ∀ t ∈ conditionTexts selector, ∃ e, Condition.parse t = .ok e ∧ e.IsFilter

/-- The text can stand in a bracket, where it is read as a filter or bounds a scale. -/
structure IsReadable (inner : Char → Prop) (text : String) : Prop where
  content : IsContent inner text
  filter : ∃ e, Condition.parse text = .ok e ∧ e.IsFilter

/-- The selector is a star, or it consists of readable conditions in brackets. -/
def IsLegible (inner : Char → Prop) (selector : String) : Prop :=
  selector = "*" ∨
    ∃ texts, texts ≠ [] ∧ (∀ t ∈ texts, IsReadable inner t) ∧ selector = bracketed texts

theorem IsLegible.isBracketed (h : IsLegible inner selector) : IsBracketed inner selector := by
  rcases h with rfl | ⟨texts, hne, htexts, rfl⟩
  · exact Or.inl rfl
  · exact Or.inr ⟨texts, hne, fun t ht => (htexts t ht).content, rfl⟩

theorem IsLegible.isAcceptable (h : IsLegible inner selector) : IsAcceptable selector := by
  rcases h with rfl | ⟨texts, -, htexts, rfl⟩
  · exact ⟨Selection.isPlain_star.1, by simp [Selection.isPlain_star.2]⟩
  · have hcontent : ∀ t ∈ texts, IsContent inner t := fun t ht => (htexts t ht).content
    refine ⟨isPlain_bracketed hcontent, ?_⟩
    rw [conditionTexts_bracketed hcontent]
    exact fun t ht => (htexts t ht).filter

section Reading

theorem exists_sortConditions (h : ∀ t ∈ texts, ∃ e, Condition.parse t = .ok e ∧ e.IsFilter)
    (scaleAttributes : List String) (range : ScaleRange) :
    ∃ es range', sortConditions scaleAttributes range texts = .ok (es, range') ∧
      ∀ e ∈ es, e.IsFilter := by
  induction texts generalizing range with
  | nil => exact ⟨[], range, rfl, nofun⟩
  | cons text texts ih =>
    obtain ⟨e, hparse, hfilter⟩ := h text List.mem_cons_self
    have hrest := ih fun t ht => h t (List.mem_cons_of_mem text ht)
    rw [sortConditions, hparse, ok_bind]
    cases bound? scaleAttributes range e with
    | some range' => exact hrest range'
    | none =>
      obtain ⟨es, range', hsort, hes⟩ := hrest range
      refine ⟨e :: es, range', ?_, List.forall_mem_cons.mpr ⟨hfilter, hes⟩⟩
      simp only [hsort]
      rfl

theorem isFilter_conjunction? {es : List Expression} (h : ∀ e ∈ es, e.IsFilter) :
    ∀ e ∈ conjunction? es, e.IsFilter := by
  match es, h with
  | [], _ => exact nofun
  | [f], h =>
    rintro e ⟨⟩
    exact h f List.mem_cons_self
  | f :: g :: es, h =>
    rintro e ⟨⟩
    exact Filter.isFilter_combination (Or.inr rfl) h

theorem exists_alternatives {sels : List String} (h : ∀ s ∈ sels, IsAcceptable s)
    (scaleAttributes : List String) (range : ScaleRange) :
    ∃ cs range', alternatives scaleAttributes range sels = .ok (cs, range') ∧
      ∀ c ∈ cs, ∀ e ∈ c, e.IsFilter := by
  induction sels generalizing range with
  | nil => exact ⟨[], range, rfl, nofun⟩
  | cons selector sels ih =>
    obtain ⟨hplain, hconditions⟩ := h selector List.mem_cons_self
    obtain ⟨es, range', hsort, hes⟩ := exists_sortConditions hconditions scaleAttributes range
    obtain ⟨cs, range'', hrest, hcs⟩ := ih (fun s hs => h s (List.mem_cons_of_mem _ hs)) range'
    refine ⟨conjunction? es :: cs, range'', ?_, List.forall_mem_cons.mpr
      ⟨isFilter_conjunction? hes, hcs⟩⟩
    rw [alternatives, if_pos hplain, hsort, ok_bind]
    simp only [hrest]
    rfl

theorem exists_filterOf {cs : List (Option Expression)} (h : ∀ c ∈ cs, ∀ e ∈ c, e.IsFilter) :
    ∃ f, filterOf cs = .ok f := by
  have hfilters : ∀ e ∈ cs.filterMap id, e.IsFilter := by
    intro e he
    obtain ⟨c, hc, hce⟩ := List.mem_filterMap.mp he
    exact h c hc e hce
  cases hes : cs.filterMap id with
  | nil =>
    refine ⟨none, ?_⟩
    simp only [filterOf, hes]
    rfl
  | cons e es =>
    simp only [filterOf, hes, List.isEmpty_cons, Bool.false_or]
    split
    · exact ⟨none, rfl⟩
    · refine fault?_eq_none_iff.mp ?_
      rw [hes] at hfilters
      rw [fault?_map]
      exact Filter.isFilter_combination (Or.inl rfl) hfilters

/-- Acceptable selectors are accepted, whatever attributes bound a scale. -/
theorem exists_ofSelectors {sels : List String} (h : ∀ s ∈ sels, IsAcceptable s)
    (scaleAttributes : List String) :
    ∃ s, Selection.ofSelectors scaleAttributes sels = .ok s := by
  obtain ⟨cs, range, halternatives, hcs⟩ := exists_alternatives h scaleAttributes {}
  obtain ⟨filter, hfilter⟩ := exists_filterOf hcs
  refine ⟨{ filter, scale := if range.isEmpty then none else some range }, ?_⟩
  simp only [Selection.ofSelectors, halternatives, ok_bind, hfilter]
  rfl

end Reading

section Writing

/-- The condition text of an expression is readable if it is read as a filter. -/
theorem exists_isReadable (hinner : ¬ inner ']') {e f : Expression}
    (h : Condition.IsReadAs inner e f) (hf : f.IsFilter) :
    ∃ text, e.condition = .ok text ∧ IsReadable inner text := by
  obtain ⟨text, htext, htidy, hparse⟩ := h.parse_eq
  exact ⟨text, htext, isContent_of_isTidy hinner htidy, f, hparse, hf⟩

theorem isReadable_boundText (hinner : ¬ inner ']') {c : Comparator}
    (hc : c = .greater ∨ c = .less) (hname : Condition.IsIdentifier name) {x : Float}
    (hx : Decimal.IsFinite x) : IsReadable inner (boundText name c.operator x) := by
  have hvalue : (FilterValue.number x).IsLegible inner := .number hx
  obtain ⟨e, hread, hfilter⟩ := (Filter.exists_comparison c hname hvalue).1
  obtain ⟨text, htext, hreadable⟩ := exists_isReadable hinner hread hfilter
  have hwritten : (Filter.comparison c name (.number x)).expression.condition =
      .ok (boundText name c.operator x) := by
    rcases hc with rfl | rfl <;> rfl
  rw [hwritten] at htext
  cases htext
  exact hreadable

theorem exists_branches_of_isLegible {op : Operator} {join : List Filter → Filter}
    (hjoin : op = .any ∧ join = .or ∨ op = .all ∧ join = .and) {f : Filter}
    (h : f.IsLegible inner) : ∃ fs, fs ≠ [] ∧
      f.expression.branches op = fs.map Filter.expression ∧ ∀ g ∈ fs, g.IsLegible inner := by
  obtain ⟨fs, hfs, rfl | rfl⟩ := exists_branches hjoin f
  · rcases hjoin with ⟨-, rfl⟩ | ⟨-, rfl⟩ <;> cases h <;> exact ⟨fs, ‹_›, hfs, ‹_›⟩
  · exact ⟨[f], List.cons_ne_nil _ _, hfs, List.forall_mem_singleton.mpr h⟩

theorem exists_legible_branches {bounded : Bool} {f : Filter}
    (h : f.HasLegibleBranches inner bounded) : ∃ fs, fs ≠ [] ∧
      f.expression.branches .any = fs.map Filter.expression ∧
        ∀ g ∈ fs, g.IsLegibleBranch inner bounded := by
  rcases h with (hf | ⟨rfl, hbounded⟩) | ⟨fs, rfl, hne, hfs⟩
  · obtain ⟨fs, hne, hbranches, hfs⟩ := exists_branches_of_isLegible (Or.inl ⟨rfl, rfl⟩) hf
    exact ⟨fs, hne, hbranches, fun g hg => Or.inl (hfs g hg)⟩
  · exact ⟨[.and []], List.cons_ne_nil _ _, rfl,
      List.forall_mem_singleton.mpr (Or.inr ⟨rfl, hbounded⟩)⟩
  · refine ⟨fs, hne, ?_, hfs⟩
    rw [← Filter.expressions_eq_map]
    rfl

theorem exists_ofBranch (hinner : ¬ inner ']') {bounded : Bool} {f : Filter}
    (hf : f.IsLegibleBranch inner bounded) {bounds : List String}
    (hbounds : ∀ t ∈ bounds, IsReadable inner t) (hbounded : bounded = true → bounds ≠ []) :
    ∃ selector, ofBranch (bracketed bounds) f.expression = .ok selector ∧
      IsLegible inner selector := by
  rcases hf with hf | ⟨rfl, hscale⟩
  · obtain ⟨fs, hne, hfs, hlegible⟩ := exists_branches_of_isLegible (Or.inr ⟨rfl, rfl⟩) hf
    have hconditions : ∀ e ∈ fs.map Filter.expression,
        ∃ text, e.condition = .ok text ∧ IsReadable inner text := by
      refine List.forall_mem_map.mpr fun g hg => ?_
      obtain ⟨e, hread, hfilter⟩ := (hlegible g hg).exists_isRereadAs.1
      exact exists_isReadable hinner hread hfilter
    obtain ⟨texts, htexts⟩ := exists_forall₂ hconditions
    refine ⟨bracketed (texts ++ bounds), ?_, Or.inr ⟨texts ++ bounds, ?_, ?_, rfl⟩⟩
    · rw [ofBranch, hfs, mapM_eq_ok_iff.mpr (htexts.imp fun _ _ h => h.1), bracketed_append]
      rfl
    · have hlen := htexts.length_eq
      rw [List.length_map] at hlen
      rw [← List.length_pos_iff, List.length_append, ← hlen]
      exact Nat.add_pos_left (List.length_pos_iff.mpr hne) _
    · intro t ht
      rcases List.mem_append.mp ht with ht | ht
      · obtain ⟨e, -, hread⟩ := exists_of_forall₂ htexts ht
        exact hread.2
      · exact hbounds t ht
  · exact ⟨_, rfl, Or.inr ⟨bounds, hbounded hscale, hbounds, by simp⟩⟩

end Writing

end Selector

structure ScaleRange.IsLegible (r : ScaleRange) : Prop where
  min : ∀ x ∈ r.min, Decimal.IsFinite x
  max : ∀ x ∈ r.max, Decimal.IsFinite x

structure Selection.IsLegible (inner : Char → Prop) (s : Selection) : Prop where
  filter : ∀ f ∈ s.filter, f.HasLegibleBranches inner (!(s.scale.getD {}).isEmpty)
  scale : ∀ r ∈ s.scale, r.IsLegible

namespace Selection

open Selector

variable {inner : Char → Prop} {name : String} {s : Selection}

theorem isReadable_bounds (hinner : ¬ inner ']') {r : ScaleRange} (h : r.IsLegible)
    (hname : Condition.IsIdentifier name) : ∀ t ∈ r.bounds name, IsReadable inner t := by
  intro t ht
  rcases mem_bounds_iff.mp ht with ⟨x, hx, rfl⟩ | ⟨x, hx, rfl⟩
  · exact isReadable_boundText hinner (Or.inl rfl) hname (h.min x hx)
  · exact isReadable_boundText hinner (Or.inr rfl) hname (h.max x hx)

/-- A legible selection has selectors, and whatever attributes bound a scale, they can be read. -/
theorem IsLegible.exists_selectors (hinner : ¬ inner ']') (h : s.IsLegible inner)
    (hname : Condition.IsIdentifier name) :
    ∃ sels, s.selectors name = .ok sels ∧ sels ≠ [] ∧ (∀ sel ∈ sels, IsBracketed inner sel) ∧
      ∀ scaleAttributes, ∃ read, ofSelectors scaleAttributes sels = .ok read := by
  have hscale : (s.scale.getD {}).IsLegible := by
    cases hs : s.scale with
    | none => exact ⟨nofun, nofun⟩
    | some r => exact h.scale r hs
  have hbounds := isReadable_bounds hinner hscale hname
  have hbounded : (!(s.scale.getD {}).isEmpty) = true → (s.scale.getD {}).bounds name ≠ [] := by
    obtain ⟨min, max⟩ := s.scale.getD {}
    cases min <;> cases max <;> simp [ScaleRange.isEmpty, ScaleRange.bounds]
  have hsels : ∃ sels, s.selectors name = .ok sels ∧ sels ≠ [] ∧
      ∀ sel ∈ sels, Selector.IsLegible inner sel := by
    rw [Selection.selectors, brackets_scale]
    cases hf : s.filter with
    | none =>
      refine ⟨_, rfl, List.cons_ne_nil _ _, List.forall_mem_singleton.mpr ?_⟩
      split
      · exact Or.inl rfl
      · next hempty =>
        refine Or.inr ⟨_, fun hnil => hempty ?_, hbounds, rfl⟩
        rw [hnil]
        rfl
    | some f =>
      obtain ⟨fs, hne, hfs, hlegible⟩ := exists_legible_branches (h.filter f hf)
      have hbranches : ∀ e ∈ fs.map Filter.expression, ∃ selector, ofBranch _ e = .ok selector ∧
          Selector.IsLegible inner selector :=
        List.forall_mem_map.mpr fun g hg =>
          exists_ofBranch hinner (hlegible g hg) hbounds hbounded
      obtain ⟨sels, hsels⟩ := exists_forall₂ hbranches
      refine ⟨sels, ?_, ?_, fun sel hsel => ?_⟩
      · simp only [hfs]
        exact mapM_eq_ok_iff.mpr (hsels.imp fun _ _ h => h.1)
      · rintro rfl
        exact hne (List.map_eq_nil_iff.mp (List.forall₂_nil_right_iff.mp hsels))
      · obtain ⟨_, -, hread⟩ := exists_of_forall₂ hsels hsel
        exact hread.2
  obtain ⟨sels, hwritten, hne, hlegible⟩ := hsels
  exact ⟨sels, hwritten, hne, fun sel hsel => (hlegible sel hsel).isBracketed,
    exists_ofSelectors fun sel hsel => (hlegible sel hsel).isAcceptable⟩

end Selection

end CartoStyle
