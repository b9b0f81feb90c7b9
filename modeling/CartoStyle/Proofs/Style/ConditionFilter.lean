import CartoStyle.Proofs.Style.Alternatives
import CartoStyle.Proofs.Style.LegibleFilter

/-!
Conditions as filters. What a condition is read as compares attributes with constants, negates
one operand and combines two or more, so of all that keeps an expression from being a filter only
one thing can be found in it: null under a comparison other than equality. The filter keeps
everything else, apart from the case of a match.
-/

namespace CartoStyle

/-- A match in whatever case is taken for a match. -/
def Operator.foldLike : Operator → Operator
  | ilike => like
  | op => op

theorem Operator.isComparison_of_isCombination {op : Operator} (h : op.isCombination = true) :
    op.isComparison = false := by
  cases op <;> first | rfl | cases h

theorem Operator.foldLike_of_isCombination {op : Operator} (h : op.isCombination = true) :
    op.foldLike = op := by
  cases op <;> first | rfl | cases h

namespace Expression

/-- Some comparison in the expression, at whatever depth, has the value null, and is not an
equality. -/
inductive ComparesNull : Expression → Prop
  | here {op : Operator} {subject : Expression} (hop : op.isComparison = true)
      (hequal : op ≠ .equal) : ComparesNull (.apply op [subject, .null])
  | inside {op : Operator} {e : Expression} {args : List Expression} (he : e ∈ args)
      (h : ComparesNull e) : ComparesNull (.apply op args)

mutual

def foldLike : Expression → Expression
  | literal value => literal value
  | apply op args => apply op.foldLike (foldLikeAll args)

def foldLikeAll : List Expression → List Expression
  | [] => []
  | e :: es => e.foldLike :: foldLikeAll es

end

theorem foldLikeAll_eq_map (es : List Expression) : foldLikeAll es = es.map foldLike := by
  induction es with
  | nil => rfl
  | cons e es ih => rw [foldLikeAll, ih, List.map_cons]

theorem not_comparesNull_literal (l : Literal) : ¬ (literal l).ComparesNull := nofun

theorem not_comparesNull_get (name : String) : ¬ (get name).ComparesNull := by
  intro h
  cases h with
  | inside he h =>
    cases List.mem_singleton.mp he
    exact not_comparesNull_literal _ h

end Expression

namespace Condition

variable {k : Category} {ts : List Token} {e : Expression} {es : List Expression}

/-- The forms of what conditions are read as: an attribute compared with a constant, a negation,
or two operands or more. -/
inductive IsParsed : Expression → Prop
  | comparison {op : Operator} (hop : op.isComparison = true) (name : String) (l : Literal) :
      IsParsed (.apply op [.get name, .literal l])
  | not {e : Expression} (h : IsParsed e) : IsParsed (.apply .not [e])
  | combination {op : Operator} {es : List Expression} (hop : op.isCombination = true)
      (hlen : 2 ≤ es.length) (h : ∀ e ∈ es, IsParsed e) : IsParsed (.apply op es)

theorem isParsed_of_compares (h : Compares ts e) : IsParsed e := by
  cases h with
  | @sign name t u op v hop hv =>
    obtain ⟨l, rfl⟩ := exists_literal_of_operand hv
    refine .comparison ?_ name l
    cases t <;> cases hop <;> rfl
  | notLike name hv | notIlike name hv =>
    obtain ⟨l, rfl⟩ := exists_literal_of_operand hv
    exact .not (.comparison rfl name l)
  | isNull name => exact .comparison rfl name .null
  | isNotNull name => exact .not (.comparison rfl name .null)

theorem isParsed_combine {op : Operator} (hop : op.isCombination = true)
    (h : ∀ f ∈ e :: es, IsParsed f) : IsParsed (combine op e es) := by
  cases es with
  | nil => exact h e List.mem_cons_self
  | cons f es => exact .combination hop (by simp) h

theorem isParsed_of_derives (h : Derives k ts e) : IsParsed e := by
  induction h with
  | comparison h => exact isParsed_of_compares h
  | not _ ih => exact .not ih
  | parens _ ih => exact ih
  | all _ _ ih ihothers | any _ _ ih ihothers =>
    exact isParsed_combine rfl
      (List.forall_mem_cons.mpr ⟨ih, List.forall_mem_map.mpr ihothers⟩)

end Condition

namespace Filter

open Condition Expression

variable {e : Expression} {es : List Expression} {f : Filter} {fs : List Filter} {op : Operator}
  {error : Error}

section Combinations

/-- A combination of two or more operands joins their filters, and is the expression of what it
joins them to. -/
theorem exists_join (hop : op.isCombination = true) (hlen : 2 ≤ es.length) :
    ∃ join : List Filter → Filter,
      ofExpression (.apply op es) = ofExpressions es >>= (fun fs => .ok (join fs)) ∧
      ∀ fs, (join fs).expression = .apply op (expressions fs) := by
  have hjoin (whole : Expression) (join : List Filter → Filter) :
      ofExpressions es >>= combine whole join = ofExpressions es >>= fun fs => .ok (join fs) := by
    rw [ofExpressions_eq_mapM]
    cases hfs : es.mapM ofExpression with
    | error error => rfl
    | ok fs =>
      rw [(mapM_eq_ok_iff.mp hfs).length_eq] at hlen
      exact combine_eq hlen
  cases op with
  | any => exact ⟨or, by rw [ofExpression, hjoin], fun fs => by rw [expression]⟩
  | all => exact ⟨and, by rw [ofExpression, hjoin], fun fs => by rw [expression]⟩
  | _ => cases hop

variable {join : List Filter → Filter}

/-- What keeps a combination from being a filter keeps an operand from being one. -/
theorem exists_of_join_eq_error
    (h : ofExpressions es >>= (fun fs => .ok (join fs)) = .error error) :
    ∃ e ∈ es, ofExpression e = .error error := by
  rw [ofExpressions_eq_mapM] at h
  rcases bind_eq_error_iff.mp h with h | ⟨fs, -, hfs⟩
  · exact exists_of_mapM_eq_error h
  · cases hfs

theorem exists_of_join_eq_ok (h : ofExpressions es >>= (fun fs => .ok (join fs)) = .ok f)
    (he : e ∈ es) : ∃ g, ofExpression e = .ok g := by
  rw [ofExpressions_eq_mapM] at h
  obtain ⟨fs, hfs, -⟩ := bind_eq_ok_iff.mp h
  exact exists_of_mapM_eq_ok hfs he

end Combinations

section Comparisons

variable {name : String} {l : Literal}

theorem ofExpression_comparesNull (hop : op.isComparison = true) (hequal : op ≠ .equal)
    (name : String) : ofExpression (.apply op [.get name, .literal .null]) =
      invalid (.apply op [.get name, .literal .null]) .comparisonValue := by
  cases op with
  | equal => exact absurd rfl hequal
  | notEqual | greater | greaterOrEqual | less | lessOrEqual | like | ilike => rfl
  | _ => cases hop

/-- A comparison that is a filter gives back itself, with a match as a match. -/
theorem expression_eq_of_comparison (hop : op.isComparison = true)
    (h : ofExpression (.apply op [.get name, .literal l]) = .ok f) :
    f.expression = .apply op.foldLike [.get name, .literal l] := by
  cases op with
  | equal | notEqual | greater | greaterOrEqual | less | lessOrEqual | like | ilike =>
    cases l <;> cases h <;> rfl
  | _ => cases hop

theorem comparesNull_of_comparison (hop : op.isComparison = true)
    (h : ofExpression (.apply op [.get name, .literal l]) = .error error) :
    op ≠ .equal ∧ l = .null := by
  cases op with
  | equal => cases l <;> cases h
  | notEqual | greater | greaterOrEqual | less | lessOrEqual | like | ilike =>
    refine ⟨by decide, ?_⟩
    cases l <;> first | rfl | cases h
  | _ => cases hop

end Comparisons

section Parsed

/-- A condition that is no filter compares null, and the error quotes that comparison. -/
theorem comparesNull_of_ofExpression (h : IsParsed e) (herror : ofExpression e = .error error) :
    e.ComparesNull ∧ ∃ op name, op ≠ .equal ∧
      error = .filter (apply op [.get name, .null]).valueText .comparisonValue := by
  induction h with
  | comparison hop name l =>
    obtain ⟨hequal, rfl⟩ := comparesNull_of_comparison hop herror
    have hinvalid := ofExpression_comparesNull hop hequal name
    rw [herror] at hinvalid
    exact ⟨.here hop hequal, _, name, hequal, Except.error.inj hinvalid⟩
  | not _ ih =>
    rw [ofExpression] at herror
    rcases bind_eq_error_iff.mp herror with herror | ⟨f, -, hf⟩
    · obtain ⟨hnull, hquotes⟩ := ih herror
      exact ⟨.inside List.mem_cons_self hnull, hquotes⟩
    · cases hf
  | combination hop hlen _ ih =>
    obtain ⟨join, hjoin, -⟩ := exists_join hop hlen
    rw [hjoin] at herror
    obtain ⟨e, he, herror⟩ := exists_of_join_eq_error herror
    obtain ⟨hnull, hquotes⟩ := ih e he herror
    exact ⟨.inside he hnull, hquotes⟩

/-- The operands of a filter do not compare null, and so the filter does not. -/
theorem not_comparesNull_of_ofExpression (h : IsParsed e) (hf : ofExpression e = .ok f) :
    ¬ e.ComparesNull := by
  -- Of the two ways to compare null, the reading of the comparison itself excludes the first,
  -- and no argument of a comparison is one.
  induction h generalizing f with
  | comparison hop name l =>
    intro hnull
    cases hnull with
    | here _ hequal =>
      rw [ofExpression_comparesNull hop hequal] at hf
      cases hf
    | inside he hnull =>
      rcases List.mem_pair.mp he with rfl | rfl
      · exact not_comparesNull_get name hnull
      · exact not_comparesNull_literal l hnull
  | not _ ih =>
    rintro (_ | ⟨he, hnull⟩)
    obtain ⟨g, hg, -⟩ := bind_eq_ok_iff.mp hf
    cases List.mem_singleton.mp he
    exact ih hg hnull
  | combination hop hlen _ ih =>
    obtain ⟨join, hjoin, -⟩ := exists_join hop hlen
    rw [hjoin] at hf
    intro hnull
    cases hnull with
    | here hcomparison _ =>
      rw [Operator.isComparison_of_isCombination hop] at hcomparison
      cases hcomparison
    | inside he hnull =>
      obtain ⟨g, hg⟩ := exists_of_join_eq_ok hf he
      exact ih _ he hg hnull

/-- What a condition text means is a filter unless it compares null. -/
theorem isFilter_iff_of_means {text : String} (h : Means text e) :
    e.IsFilter ↔ ¬ e.ComparesNull := by
  obtain ⟨ts, -, hderives⟩ := h
  have hparsed := isParsed_of_derives hderives
  rw [Expression.IsFilter]
  cases hread : ofExpression e with
  | error error =>
    have hnull := (comparesNull_of_ofExpression hparsed hread).1
    exact iff_of_false (Option.some_ne_none error) (not_not_intro hnull)
  | ok f => exact iff_of_true rfl (not_comparesNull_of_ofExpression hparsed hread)

/-- The filter of a condition gives the condition back, with matches in whatever case as
matches. -/
theorem expression_eq_foldLike (h : IsParsed e) (hf : ofExpression e = .ok f) :
    f.expression = e.foldLike := by
  induction h generalizing f with
  | comparison hop name l =>
    rw [expression_eq_of_comparison hop hf]
    rfl
  | not _ ih =>
    obtain ⟨g, hg, hnot⟩ := bind_eq_ok_iff.mp hf
    cases hnot
    rw [expression, ih hg]
    rfl
  | @combination op es hop hlen _ ih =>
    obtain ⟨join, hjoin, hexpression⟩ := exists_join hop hlen
    rw [hjoin] at hf
    obtain ⟨fs, hfs, hjoined⟩ := bind_eq_ok_iff.mp hf
    have hoperands : expressions fs = foldLikeAll es := by
      rw [expressions_eq_map, foldLikeAll_eq_map]
      exact map_eq_of_ofExpressions (fun e he f => ih e he) hfs
    rw [← Except.ok.inj hjoined, hexpression, hoperands, foldLike,
      Operator.foldLike_of_isCombination hop]

end Parsed

/-- The expression of a condition text is refused exactly if some comparison in it has the value
null and is not an equality. Otherwise its filter gives it back, with matches in whatever case as
matches. -/
theorem ofExpression_of_parse {text : String} (h : Condition.parse text = .ok e) :
    ((∃ error, ofExpression e = .error error) ↔ e.ComparesNull) ∧
      ∀ f, ofExpression e = .ok f → f.expression = e.foldLike := by
  obtain ⟨ts, -, hderives⟩ := parse_eq_ok_iff_means.mp h
  have hparsed := isParsed_of_derives hderives
  refine ⟨⟨?_, fun hnull => ?_⟩, fun f => expression_eq_foldLike hparsed⟩
  · rintro ⟨error, herror⟩
    exact (comparesNull_of_ofExpression hparsed herror).1
  · cases hread : ofExpression e with
    | error error => exact ⟨error, rfl⟩
    | ok f => exact absurd hnull (not_comparesNull_of_ofExpression hparsed hread)

section Unlabelled

def unlabelled (op : Operator) : Expression :=
  .apply .not [
    .apply .any [
      .apply .ilike [.get "name", .text "N%"],
      .apply op [.get "kind", .null]]]

theorem parse_unlabelled {op : Operator} (hop : op.isComparison = true) {text : String}
    (htext : (unlabelled op).condition.toOption = some text) :
    Condition.parse text = .ok (unlabelled op) := by
  have hname : IsIdentifier "name" :=
    isIdentifier_of_lower rfl rfl (by decide) (by decide) (by decide)
  have hkind : IsIdentifier "kind" :=
    isIdentifier_of_lower rfl rfl (by decide) (by decide) (by decide)
  have hcondition : IsCondition (fun _ => True) (unlabelled op) := by
    refine .not (.any (by simp) (List.forall_mem_cons.mpr ⟨?_, List.forall_mem_singleton.mpr ?_⟩))
    · exact .comparison rfl hname (.text (Or.inl (by decide)) fun _ _ => trivial)
    · exact .comparison hop hkind .null
  obtain ⟨text', htext', -, hparse⟩ := exists_condition_eq hcondition
  rw [htext'] at htext
  cases htext
  exact hparse

/-- The two texts differ in how null is compared. -/
theorem ofExpression_unlabelled :
    (∃ e f, Condition.parse "not (name ilike 'N%' or kind is null)" = .ok e ∧
      ofExpression e = .ok f ∧ f.expression = e.foldLike) ∧
    ∃ e error, Condition.parse "not (name ilike 'N%' or kind != null)" = .ok e ∧
      e.ComparesNull ∧ ofExpression e = .error error := by
  have hequal : Condition.parse "not (name ilike 'N%' or kind is null)" =
      .ok (unlabelled .equal) := parse_unlabelled rfl rfl
  have hnotEqual : Condition.parse "not (name ilike 'N%' or kind != null)" =
      .ok (unlabelled .notEqual) := parse_unlabelled rfl rfl
  have hnull : (unlabelled .notEqual).ComparesNull :=
    .inside List.mem_cons_self (.inside (List.mem_cons_of_mem _ List.mem_cons_self)
      (.here rfl (by decide)))
  obtain ⟨error, herror⟩ := (ofExpression_of_parse hnotEqual).1.mpr hnull
  exact ⟨⟨_, _, hequal, rfl, (ofExpression_of_parse hequal).2 _ rfl⟩,
    _, error, hnotEqual, hnull, herror⟩

end Unlabelled

end Filter

end CartoStyle
