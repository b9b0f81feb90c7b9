import CartoStyle.Proofs.Condition.Rendering
import CartoStyle.Style.Filter

/-!
Filters that a selector can hold. Their attributes are identifiers of
conditions other than the scale attributes, and their texts can stand between
quotes and consist of characters of some class. The expression of such a filter
is a condition, and it is taken for that filter again.
-/

namespace CartoStyle

/-- Induction over a filter: what holds of every filter in a combination holds of the
combination. -/
@[elab_as_elim]
theorem Filter.induction {motive : Filter → Prop}
    (and : ∀ fs, (∀ f ∈ fs, motive f) → motive (.and fs))
    (or : ∀ fs, (∀ f ∈ fs, motive f) → motive (.or fs))
    (not : ∀ f, motive f → motive (.not f))
    (comparison : ∀ c name v, motive (.comparison c name v))
    (isNull : ∀ name, motive (.isNull name)) (f : Filter) : motive f :=
  @Filter.rec motive (fun fs => ∀ f ∈ fs, motive f) and or not comparison isNull nofun
    (fun _ _ hf hfs => List.forall_mem_cons.mpr ⟨hf, hfs⟩) f

inductive FilterValue.IsWritable (inner : Char → Prop) : FilterValue → Prop
  | bool (b : Bool) : IsWritable inner (.bool b)
  | number {x : Float} (h : Decimal.IsNumber x) : IsWritable inner (.number x)
  | text {s : String} (h : Lexeme.IsQuotable s) (hs : ∀ c ∈ s.toList, inner c) :
      IsWritable inner (.text s)

theorem FilterValue.isWritable_text {s : String} (h : Lexeme.IsQuotable s) (hs : ']' ∉ s.toList) :
    (FilterValue.text s).IsWritable (· ≠ ']') :=
  .text h fun _ hc hclose => hs (hclose ▸ hc)

/-- The filter has a written form in a selector, and its texts are of the class. -/
inductive Filter.IsWritable (inner : Char → Prop) (scaleAttributes : List String) : Filter → Prop
  | and {fs : List Filter} (hlen : 2 ≤ fs.length)
      (h : ∀ f ∈ fs, IsWritable inner scaleAttributes f) :
      IsWritable inner scaleAttributes (.and fs)
  | or {fs : List Filter} (hlen : 2 ≤ fs.length)
      (h : ∀ f ∈ fs, IsWritable inner scaleAttributes f) :
      IsWritable inner scaleAttributes (.or fs)
  | not {f : Filter} (h : IsWritable inner scaleAttributes f) :
      IsWritable inner scaleAttributes (.not f)
  | comparison (c : Comparator) {name : String} {v : FilterValue}
      (hname : Condition.IsIdentifier name) (hscale : name ∉ scaleAttributes)
      (hv : v.IsWritable inner) : IsWritable inner scaleAttributes (.comparison c name v)
  | isNull {name : String} (hname : Condition.IsIdentifier name) (hscale : name ∉ scaleAttributes) :
      IsWritable inner scaleAttributes (.isNull name)

namespace Filter

variable {inner : Char → Prop} {scaleAttributes : List String} {f : Filter} {fs : List Filter}

theorem expressions_eq_map (fs : List Filter) : expressions fs = fs.map expression := by
  induction fs with
  | nil => rfl
  | cons f fs ih => rw [expressions, ih, List.map_cons]

/-- The literal of a constant has a written form. -/
theorem exists_literal {v : FilterValue} (h : v.IsWritable inner) :
    ∃ l, v.expression = .literal l ∧ Condition.IsLiteral inner l := by
  cases h with
  | bool b => exact ⟨.bool b, rfl, .bool b⟩
  | number h => exact ⟨_, rfl, .number h⟩
  | text h hs => exact ⟨_, rfl, .text h hs⟩

/-- The expression of a writable filter is a condition. -/
theorem IsWritable.isCondition (h : f.IsWritable inner scaleAttributes) :
    Condition.IsCondition inner f.expression := by
  induction h with
  | and hlen _ ih =>
    rw [expression, expressions_eq_map]
    exact .all (by simpa using hlen) (List.forall_mem_map.mpr ih)
  | or hlen _ ih =>
    rw [expression, expressions_eq_map]
    exact .any (by simpa using hlen) (List.forall_mem_map.mpr ih)
  | not _ ih => exact .not ih
  | comparison c hname _ hv =>
    obtain ⟨l, hl, hliteral⟩ := exists_literal hv
    rw [expression, hl]
    exact .comparison (by cases c <;> rfl) hname hliteral
  | isNull hname _ => exact .comparison rfl hname .null

/-- Two filters or more are joined. -/
theorem combine_eq {e : Expression} {join : List Filter → Filter} (h : 2 ≤ fs.length) :
    combine e join fs = .ok (join fs) := by
  match fs, h with
  | _ :: _ :: _, _ => rfl

theorem ofExpressions_eq (h : ∀ f ∈ fs, ofExpression f.expression = .ok f) :
    ofExpressions (fs.map expression) = .ok fs := by
  induction fs with
  | nil => rfl
  | cons f fs ih =>
    rw [List.map_cons, ofExpressions, h f List.mem_cons_self,
      ih fun g hg => h g (List.mem_cons_of_mem f hg)]
    rfl

/-- A comparison with a constant that is not null. -/
theorem ofExpression_comparison (c : Comparator) (name : String) (v : FilterValue) :
    ofExpression (comparison c name v).expression = .ok (comparison c name v) := by
  cases c <;> cases v <;> rfl

/-- The filter of the expression of a writable filter is that filter. -/
theorem IsWritable.ofExpression_eq (h : f.IsWritable inner scaleAttributes) :
    ofExpression f.expression = .ok f := by
  induction h with
  | and hlen _ ih =>
    rw [expression, expressions_eq_map, ofExpression, ofExpressions_eq ih]
    exact combine_eq hlen
  | or hlen _ ih =>
    rw [expression, expressions_eq_map, ofExpression, ofExpressions_eq ih]
    exact combine_eq hlen
  | not _ ih =>
    rw [expression, ofExpression, ih]
    rfl
  | comparison c _ _ _ => exact ofExpression_comparison c _ _
  | isNull _ _ => rfl

/-- A filter that is no disjunction has an expression that is none. -/
theorem op?_expression_eq_any (h : f.expression.op? = some .any) : ∃ fs, f = .or fs := by
  cases f with
  | or fs => exact ⟨fs, rfl⟩
  | comparison c _ _ => cases c <;> cases h
  | _ => cases h

theorem op?_expression_eq_all (h : f.expression.op? = some .all) : ∃ fs, f = .and fs := by
  cases f with
  | and fs => exact ⟨fs, rfl⟩
  | comparison c _ _ => cases c <;> cases h
  | _ => cases h

theorem attribute?_expression (f : Filter) : f.expression.attribute? = none := by
  cases f with
  | comparison c _ _ => cases c <;> rfl
  | _ => rfl

end Filter

end CartoStyle
