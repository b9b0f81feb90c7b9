import CartoStyle.Proofs.Fault
import CartoStyle.Proofs.Style.LegibleFilter

/-!
The filter that the expression of a filter is read as. Its combinations of one operand are gone,
at every depth, and it is the given filter in everything else. Only a combination of no operands
is refused.
-/

namespace CartoStyle.Filter

/-- Some combination in the filter, at whatever depth, has no operands. -/
inductive HasEmpty : Filter → Prop
  | and : HasEmpty (.and [])
  | or : HasEmpty (.or [])
  | inAnd {f : Filter} {fs : List Filter} (hf : f ∈ fs) (h : HasEmpty f) : HasEmpty (.and fs)
  | inOr {f : Filter} {fs : List Filter} (hf : f ∈ fs) (h : HasEmpty f) : HasEmpty (.or fs)
  | inNot {f : Filter} (h : HasEmpty f) : HasEmpty (.not f)

mutual

/-- The filter with every combination of one operand replaced by that operand. -/
def unwrapped : Filter → Filter
  | and [f] => f.unwrapped
  | or [f] => f.unwrapped
  | and fs => and (unwrappedAll fs)
  | or fs => or (unwrappedAll fs)
  | not f => not f.unwrapped
  | comparison comparator property value => comparison comparator property value
  | isNull property => isNull property

def unwrappedAll : List Filter → List Filter
  | [] => []
  | f :: fs => f.unwrapped :: unwrappedAll fs

end

variable {f : Filter} {fs : List Filter}

section Empty

@[simp]
theorem hasEmpty_and_iff : (and fs).HasEmpty ↔ fs = [] ∨ ∃ f ∈ fs, f.HasEmpty := by
  constructor
  · rintro (_ | _ | ⟨hf, h⟩)
    · exact Or.inl rfl
    · exact Or.inr ⟨_, hf, h⟩
  · rintro (rfl | ⟨f, hf, h⟩)
    · exact .and
    · exact .inAnd hf h

@[simp]
theorem hasEmpty_or_iff : (or fs).HasEmpty ↔ fs = [] ∨ ∃ f ∈ fs, f.HasEmpty := by
  constructor
  · rintro (_ | _ | _ | ⟨hf, h⟩)
    · exact Or.inl rfl
    · exact Or.inr ⟨_, hf, h⟩
  · rintro (rfl | ⟨f, hf, h⟩)
    · exact .or
    · exact .inOr hf h

@[simp]
theorem hasEmpty_not_iff : (not f).HasEmpty ↔ f.HasEmpty := by
  constructor
  · rintro (_ | _ | _ | _ | h)
    exact h
  · exact .inNot

@[simp]
theorem not_hasEmpty_comparison (c : Comparator) (name : String) (v : FilterValue) :
    ¬ (comparison c name v).HasEmpty := nofun

@[simp]
theorem not_hasEmpty_isNull (name : String) : ¬ (isNull name).HasEmpty := nofun

end Empty

theorem unwrappedAll_eq_map (fs : List Filter) : unwrappedAll fs = fs.map unwrapped := by
  induction fs with
  | nil => rfl
  | cons f fs ih => rw [unwrappedAll, ih, List.map_cons]

/-- The filters of the expressions of some filters, if they all have one. -/
def rereadAll (fs : List Filter) : Except Error (List Filter) :=
  fs.mapM fun f => ofExpression f.expression

theorem ofExpressions_expressions (fs : List Filter) :
    ofExpressions (expressions fs) = rereadAll fs := by
  induction fs with
  | nil => rfl
  | cons f fs ih => rw [expressions, ofExpressions, ih, rereadAll, rereadAll, List.mapM_cons]

theorem ofExpression_and (fs : List Filter) :
    ofExpression (and fs).expression = rereadAll fs >>= combine (and fs).expression and := by
  rw [expression, ofExpression, ofExpressions_expressions]

theorem ofExpression_or (fs : List Filter) :
    ofExpression (or fs).expression = rereadAll fs >>= combine (or fs).expression or := by
  rw [expression, ofExpression, ofExpressions_expressions]

theorem ofExpression_not (f : Filter) :
    ofExpression (not f).expression = ofExpression f.expression >>= fun g => .ok (not g) := rfl

/-- Filters that come back unwrapped do so together. -/
theorem rereadAll_eq (h : ∀ f ∈ fs, ofExpression f.expression = .ok f.unwrapped) :
    rereadAll fs = .ok (unwrappedAll fs) := by
  rw [unwrappedAll_eq_map]
  exact mapM_eq_ok h

/-- A filter with no empty combination comes back unwrapped. -/
theorem ofExpression_eq_unwrapped (h : ¬ f.HasEmpty) :
    ofExpression f.expression = .ok f.unwrapped := by
  induction f using Filter.induction with
  | and fs ih =>
    rw [ofExpression_and, rereadAll_eq fun f hf => ih f hf fun hempty => h (.inAnd hf hempty)]
    cases fs with
    | nil => exact absurd .and h
    | cons f fs => cases fs <;> rfl
  | or fs ih =>
    rw [ofExpression_or, rereadAll_eq fun f hf => ih f hf fun hempty => h (.inOr hf hempty)]
    cases fs with
    | nil => exact absurd .or h
    | cons f fs => cases fs <;> rfl
  | not f ih =>
    rw [ofExpression_not, ih fun hempty => h (.inNot hempty)]
    rfl
  | comparison c name v => exact ofExpression_comparison c name v
  | isNull name => rfl

/-- A filter with an empty combination does not come back. -/
theorem HasEmpty.ofExpression_ne (h : f.HasEmpty) : ¬ ∃ g, ofExpression f.expression = .ok g := by
  induction h with
  | and | or =>
    rintro ⟨g, hg⟩
    cases hg
  | inAnd hf _ ih =>
    rintro ⟨g, hg⟩
    rw [ofExpression_and] at hg
    obtain ⟨gs, hgs, -⟩ := bind_eq_ok_iff.mp hg
    exact ih (exists_of_mapM_eq_ok hgs hf)
  | inOr hf _ ih =>
    rintro ⟨g, hg⟩
    rw [ofExpression_or] at hg
    obtain ⟨gs, hgs, -⟩ := bind_eq_ok_iff.mp hg
    exact ih (exists_of_mapM_eq_ok hgs hf)
  | inNot _ ih =>
    rintro ⟨g, hg⟩
    rw [ofExpression_not] at hg
    obtain ⟨g, hg, -⟩ := bind_eq_ok_iff.mp hg
    exact ih ⟨g, hg⟩

/-- The expression of a filter is refused exactly if some combination in the filter has no
operands, and otherwise it is read as the filter with its combinations of one operand
unwrapped. -/
theorem ofExpression_expression (f : Filter) :
    ((∃ error, ofExpression f.expression = .error error) ↔ f.HasEmpty) ∧
      (¬ f.HasEmpty → ofExpression f.expression = .ok f.unwrapped) := by
  refine ⟨⟨?_, fun h => ?_⟩, ofExpression_eq_unwrapped⟩
  · rintro ⟨error, herror⟩
    by_contra h
    rw [ofExpression_eq_unwrapped h] at herror
    cases herror
  · cases hread : ofExpression f.expression with
    | error error => exact ⟨error, rfl⟩
    | ok g => exact absurd ⟨g, hread⟩ h.ofExpression_ne

/-- One operand within one operand is unwrapped twice; no operand within one is refused. -/
theorem ofExpression_expression_nested :
    ofExpression (and [not (or [and [isNull "kind"]])]).expression = .ok (not (isNull "kind")) ∧
      ∃ error, ofExpression (and [or []]).expression = .error error := by
  have hempty : ¬ (and [not (or [and [isNull "kind"]])]).HasEmpty := by simp
  exact ⟨(ofExpression_expression _).2 hempty,
    (ofExpression_expression (and [or []])).1.mpr (.inAnd List.mem_cons_self .or)⟩

section Proper

/-- Every combination in the filter has two operands or more. -/
inductive IsProper : Filter → Prop
  | and {fs : List Filter} (hlen : 2 ≤ fs.length) (h : ∀ f ∈ fs, IsProper f) : IsProper (.and fs)
  | or {fs : List Filter} (hlen : 2 ≤ fs.length) (h : ∀ f ∈ fs, IsProper f) : IsProper (.or fs)
  | not {f : Filter} (h : IsProper f) : IsProper (.not f)
  | comparison (c : Comparator) (name : String) (v : FilterValue) : IsProper (.comparison c name v)
  | isNull (name : String) : IsProper (.isNull name)

theorem forall_mem_unwrappedAll {motive : Filter → Prop} (h : ∀ f ∈ fs, motive f.unwrapped) :
    ∀ g ∈ unwrappedAll fs, motive g := by
  rw [unwrappedAll_eq_map]
  exact List.forall_mem_map.mpr h

theorem IsProper.unwrapped_eq (h : f.IsProper) : f.unwrapped = f := by
  have hall {fs : List Filter} (ih : ∀ f ∈ fs, f.unwrapped = f) : unwrappedAll fs = fs := by
    rw [unwrappedAll_eq_map, List.map_congr_left ih, List.map_id']
  induction h with
  | @and fs hlen _ ih =>
    obtain _ | ⟨f, _ | ⟨g, fs⟩⟩ := fs
    · cases hlen
    · exact absurd hlen (Nat.not_succ_le_self 1)
    · exact congrArg Filter.and (hall ih)
  | @or fs hlen _ ih =>
    obtain _ | ⟨f, _ | ⟨g, fs⟩⟩ := fs
    · cases hlen
    · exact absurd hlen (Nat.not_succ_le_self 1)
    · exact congrArg Filter.or (hall ih)
  | not _ ih => rw [unwrapped, ih]
  | comparison | isNull => rfl

theorem isProper_unwrapped (h : ¬ f.HasEmpty) : f.unwrapped.IsProper := by
  induction f using Filter.induction with
  | and fs ih =>
    have hall : ∀ f ∈ fs, f.unwrapped.IsProper :=
      fun f hf => ih f hf fun hempty => h (.inAnd hf hempty)
    obtain _ | ⟨f, _ | ⟨g, fs⟩⟩ := fs
    · exact absurd .and h
    · exact hall f List.mem_cons_self
    · exact .and (by simp [unwrappedAll]) (forall_mem_unwrappedAll hall)
  | or fs ih =>
    have hall : ∀ f ∈ fs, f.unwrapped.IsProper :=
      fun f hf => ih f hf fun hempty => h (.inOr hf hempty)
    obtain _ | ⟨f, _ | ⟨g, fs⟩⟩ := fs
    · exact absurd .or h
    · exact hall f List.mem_cons_self
    · exact .or (by simp [unwrappedAll]) (forall_mem_unwrappedAll hall)
  | not f ih => exact .not (ih fun hempty => h (.inNot hempty))
  | comparison c name v => exact .comparison c name v
  | isNull name => exact .isNull name

theorem IsProper.not_hasEmpty (h : f.IsProper) : ¬ f.HasEmpty := by
  induction h with
  | and hlen _ ih | or hlen _ ih =>
    simp only [hasEmpty_and_iff, hasEmpty_or_iff, not_or, not_exists, not_and]
    exact ⟨List.ne_nil_of_length_pos (by omega), ih⟩
  | not _ ih => exact mt hasEmpty_not_iff.mp ih
  | comparison | isNull => nofun

/-- The filters that come back as they are have no combinations of fewer than two operands. -/
theorem ofExpression_expression_eq_self_iff : ofExpression f.expression = .ok f ↔ f.IsProper := by
  constructor
  · intro hread
    have hempty : ¬ f.HasEmpty := fun h => h.ofExpression_ne ⟨f, hread⟩
    have hproper := isProper_unwrapped hempty
    rw [ofExpression_eq_unwrapped hempty] at hread
    rwa [Except.ok.inj hread] at hproper
  · intro h
    rw [ofExpression_eq_unwrapped h.not_hasEmpty, h.unwrapped_eq]

end Proper

end CartoStyle.Filter
