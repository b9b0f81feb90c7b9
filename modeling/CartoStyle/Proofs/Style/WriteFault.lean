import CartoStyle.Conversion
import CartoStyle.Proofs.Fault
import CartoStyle.Proofs.Style.Arrangement
import CartoStyle.Proofs.Style.Filter

/-!
When a style cannot be written. Every filter has a condition text, however odd its
combinations, names and texts are, and so every rule has selectors. What is left is the
contrast of rasters with three channels: a property that only one or two of them have has no
written form. The error reports the first such property.
-/

namespace CartoStyle

open Style

section Conditions

theorem FilterValue.exists_operandText? (v : FilterValue) :
    ∃ text, Expression.operandText? v.expression.read = some text := by
  cases v <;> exact ⟨_, rfl⟩

theorem Comparator.isComparison_operator (c : Comparator) : c.operator.isComparison = true := by
  cases c <;> rfl

namespace Filter

variable {f : Filter} {op : Operator} {name : String} {v : FilterValue}

theorem exists_comparisonText (op : Operator) (name : String) (v : FilterValue) :
    ∃ value, (Expression.apply op [.get name, v.expression]).comparisonText =
      .ok (name, value) := by
  obtain ⟨value, hvalue⟩ := v.exists_operandText?
  have hattribute : (Expression.get name).attribute? = some name := rfl
  exact ⟨value, by simp [Expression.comparisonText, Expression.args, hattribute, hvalue]⟩

theorem fault?_comparison (hop : op.isComparison = true) :
    fault? (Expression.apply op [.get name, v.expression]).condition = none := by
  obtain ⟨value, hvalue⟩ := exists_comparisonText op name v
  rw [Condition.condition_comparison hop, Expression.comparisonCondition]
  split
  · rfl
  · rw [hvalue]
    rfl

/-- Operands have texts if each of them has one. -/
theorem fault?_operands {es : List Expression}
    (h : ∀ e ∈ es, fault? e.condition = none) : fault? (Expression.operands es) = none := by
  induction es with
  | nil => rfl
  | cons e es ih =>
    obtain ⟨text, htext⟩ := fault?_eq_none_iff.mp (h e List.mem_cons_self)
    rw [Expression.operands, htext]
    refine (fault?_bind_pure _).trans ?_
    exact ih fun e he => h e (List.mem_cons_of_mem _ he)

/-- Only a match is negated without parentheses, and it has an attribute and a value. -/
theorem fault?_not (h : fault? f.expression.condition = none) :
    fault? (Expression.apply .not [f.expression]).condition = none := by
  obtain ⟨text, htext⟩ := fault?_eq_none_iff.mp h
  have hlike : ∀ op, f.expression.op? = some op → op = .like ∨ op = .ilike →
      ∃ p, f.expression.comparisonText = .ok p := by
    intro op hop hmatch
    cases f with
    | comparison c name v =>
      obtain ⟨value, hvalue⟩ := exists_comparisonText c.operator name v
      exact ⟨_, hvalue⟩
    | _ =>
      cases hop
      rcases hmatch with hmatch | hmatch <;> cases hmatch
  rw [Expression.condition]
  split
  · rfl
  · split
    · next hop =>
      obtain ⟨p, hp⟩ := hlike _ hop (Or.inl rfl)
      rw [hp]
      rfl
    · next hop =>
      obtain ⟨p, hp⟩ := hlike _ hop (Or.inr rfl)
      rw [hp]
      rfl
    · rw [htext]
      rfl

/-- Every filter has a condition text, also one with empty combinations. -/
theorem fault?_condition (f : Filter) : fault? f.expression.condition = none := by
  induction f using Filter.induction with
  | and fs ih | or fs ih =>
    rw [expression, expressions_eq_map, Expression.condition, fault?_bind_pure]
    exact fault?_operands (List.forall_mem_map.mpr ih)
  | not f ih => exact fault?_not ih
  | comparison c name v => exact fault?_comparison c.isComparison_operator
  | isNull name => rfl

/-- The branches of the expression of a filter are expressions of filters. -/
theorem exists_of_mem_branches {e : Expression}
    (hop : op = .any ∨ op = .all) (h : e ∈ f.expression.branches op) :
    ∃ g : Filter, e = g.expression := by
  rw [Expression.branches] at h
  split at h
  · next hself =>
    have hargs : ∃ fs, f.expression.args = expressions fs := by
      rcases hop with rfl | rfl
      · obtain ⟨fs, rfl⟩ := op?_expression_eq_any hself
        exact ⟨fs, rfl⟩
      · obtain ⟨fs, rfl⟩ := op?_expression_eq_all hself
        exact ⟨fs, rfl⟩
    obtain ⟨fs, hfs⟩ := hargs
    rw [hfs, expressions_eq_map] at h
    obtain ⟨g, -, rfl⟩ := List.mem_map.mp h
    exact ⟨g, rfl⟩
  · exact ⟨f, List.mem_singleton.mp h⟩

end Filter

/-- Selectors are found for every filter and every range of scales. -/
theorem Selection.fault?_selectors (s : Selection) (scaleAttribute : String) :
    fault? (s.selectors scaleAttribute) = none := by
  rw [Selection.selectors]
  split
  · rfl
  · next f hf =>
    rw [fault?_mapM, List.findSome?_eq_none_iff]
    intro branch hbranch
    obtain ⟨g, rfl⟩ := Filter.exists_of_mem_branches (Or.inl rfl) hbranch
    rw [Selector.ofBranch, fault?_bind_pure, fault?_mapM, List.findSome?_eq_none_iff]
    intro operand hoperand
    obtain ⟨k, rfl⟩ := Filter.exists_of_mem_branches (Or.inr rfl) hoperand
    exact k.fault?_condition

end Conditions

section Contrasts

namespace Style

/-- How many of three channels have an enhancement and how many have a gamma value. -/
def Channels.contrastCounts : Channels → List (String × Nat)
  | .rgb red green blue =>
    let contrasts := [red.contrast, green.contrast, blue.contrast]
    [("raster-contrast-enhancement", contrasts.countP fun c => (c.bind (·.enhancement)).isSome),
      ("raster-gamma", contrasts.countP fun c => (c.bind (·.gamma)).isSome)]
  | .gray _ => []

def Symbolizer.contrastCounts : Symbolizer → List (String × Nat)
  | .raster r => (r.channels.map Channels.contrastCounts).getD []
  | _ => []

/-- Some of three channels are counted, and not all of them. -/
def isPartialCount (p : String × Nat) : Bool := p.2 == 1 || p.2 == 2

/-- The error about the first contrast property that only some of three channels have. -/
def countFault? (counts : List (String × Nat)) : Option Error :=
  (counts.find? isPartialCount).map fun p => .arity p.1 "3" p.2

end Style

/-- How many channels have each contrast property, for every raster with three channels in the
order of rules and symbolizers. -/
def Style.contrastCounts (s : Style) : List (String × Nat) :=
  s.rules.flatMap fun r => r.symbolizers.flatMap Symbolizer.contrastCounts

namespace Style

theorem fault?_contrastText {α : Type} [BEq α] (key : String) (write : α → String)
    (values : List (Option α)) : fault? (contrastText key write values) =
      if values.countP Option.isSome = 0 ∨ values.countP Option.isSome = values.length then none
      else some (.arity key (toString values.length) (values.countP Option.isSome)) := by
  have hcount : (values.filterMap id).length = values.countP Option.isSome :=
    List.length_filterMap_eq_countP
  rw [← hcount, contrastText]
  cases values.filterMap id with
  | nil => rfl
  | cons first rest =>
    by_cases hlength : (first :: rest).length = values.length
    · rw [if_pos (Or.inr hlength)]
      simp only [hlength, ne_eq, not_true_eq_false, if_false]
      split <;> rfl
    · rw [if_neg (by simpa using hlength)]
      simp only [ne_eq, hlength, not_false_eq_true, if_true]
      rfl

/-- One value cannot be partly absent. -/
theorem fault?_contrastText_singleton {α : Type} [BEq α] (key : String) (write : α → String)
    (value : Option α) : fault? (contrastText key write [value]) = none := by
  rw [fault?_contrastText, if_pos]
  cases value <;> simp

theorem countFault?_singleton {α : Type} [BEq α] (key : String) (write : α → String)
    (a b c : Option α) : fault? (contrastText key write [a, b, c]) =
      countFault? [(key, [a, b, c].countP Option.isSome)] := by
  have hcount : [a, b, c].countP Option.isSome ≤ 3 := List.countP_le_length
  rw [fault?_contrastText, countFault?]
  generalize [a, b, c].countP Option.isSome = n at hcount ⊢
  have hthree : toString (3 : Nat) = "3" := by decide
  by_cases hpartial : n = 1 ∨ n = 2
  · have hcase : isPartialCount (key, n) = true := by simpa [isPartialCount] using hpartial
    rw [if_neg (by simp only [List.length_cons, List.length_nil]; omega),
      List.find?_cons_of_pos hcase]
    simp only [List.length_cons, List.length_nil, Nat.reduceAdd, hthree, Option.map_some]
  · have hcase : ¬ isPartialCount (key, n) = true := by simpa [isPartialCount] using hpartial
    rw [if_pos (by simp only [List.length_cons, List.length_nil]; omega),
      List.find?_cons_of_neg hcase]
    rfl

theorem countFault?_append (counts more : List (String × Nat)) :
    countFault? (counts ++ more) = (countFault? counts).or (countFault? more) := by
  rw [countFault?, List.find?_append, countFault?, countFault?]
  cases counts.find? isPartialCount <;> rfl

theorem countFault?_flatMap {α : Type} (f : α → List (String × Nat)) (xs : List α) :
    countFault? (xs.flatMap f) = xs.findSome? fun x => countFault? (f x) := by
  induction xs with
  | nil => rfl
  | cons x xs ih =>
    rw [List.flatMap_cons, countFault?_append, ih, List.findSome?_cons]
    cases countFault? (f x) <;> rfl

theorem isPartialCount_iff {p : String × Nat} : isPartialCount p = true ↔ p.2 = 1 ∨ p.2 = 2 := by
  simp [isPartialCount]

/-- The error is about the first property that is counted for some channels only. -/
theorem countFault?_eq_some_iff {counts : List (String × Nat)} {e : Error} :
    countFault? counts = some e ↔ ∃ before key n after, counts = before ++ (key, n) :: after ∧
      (n = 1 ∨ n = 2) ∧ (∀ p ∈ before, p.2 ≠ 1 ∧ p.2 ≠ 2) ∧ e = .arity key "3" n := by
  have hwhole : ∀ p, (!isPartialCount p) = true ↔ p.2 ≠ 1 ∧ p.2 ≠ 2 := by simp [isPartialCount]
  rw [countFault?, Option.map_eq_some_iff]
  constructor
  · rintro ⟨⟨key, n⟩, hfind, rfl⟩
    obtain ⟨hpartial, before, after, hcounts, hbefore⟩ := List.find?_eq_some_iff_append.mp hfind
    exact ⟨before, key, n, after, hcounts, isPartialCount_iff.mp hpartial,
      fun p hp => (hwhole p).mp (hbefore p hp), rfl⟩
  · rintro ⟨before, key, n, after, hcounts, hpartial, hbefore, rfl⟩
    refine ⟨(key, n), List.find?_eq_some_iff_append.mpr ?_, rfl⟩
    exact ⟨isPartialCount_iff.mpr hpartial, before, after, hcounts,
      fun p hp => (hwhole p).mpr (hbefore p hp)⟩

theorem exists_countFault?_iff {counts : List (String × Nat)} :
    (∃ e, countFault? counts = some e) ↔ ∃ p ∈ counts, p.2 = 1 ∨ p.2 = 2 := by
  rw [← Option.isSome_iff_exists, countFault?, Option.isSome_map, List.find?_isSome]
  exact exists_congr fun p => and_congr_right fun _ => isPartialCount_iff

theorem Raster.fault?_entry (r : Raster) : fault? r.entry =
    (fault? (contrastText "raster-contrast-enhancement" Enhancement.name
      (r.contrasts.map fun c => c.bind (·.enhancement)))).or
    (fault? (contrastText "raster-gamma" Decimal.display
      (r.contrasts.map fun c => c.bind (·.gamma)))) := by
  rw [Raster.entry]
  exact fault?_bind fun _ => fault?_bind_pure _

/-- A symbolizer cannot be written if it is a raster and a contrast property has a value for
some of its three channels only. -/
theorem Symbolizer.fault?_entry (s : Symbolizer) :
    fault? s.entry = countFault? s.contrastCounts := by
  cases s with
  | raster r =>
    rw [Symbolizer.entry, Raster.fault?_entry, Raster.contrasts, contrastCounts]
    cases hchannels : r.channels with
    | none =>
      simp only [List.map_cons, List.map_nil, fault?_contrastText_singleton]
      rfl
    | some channels =>
      cases channels with
      | gray gray =>
        simp only [List.map_cons, List.map_nil, fault?_contrastText_singleton]
        rfl
      | rgb red green blue =>
        simp only [List.map_cons, List.map_nil, countFault?_singleton, Option.map_some,
          Option.getD_some, Channels.contrastCounts]
        rw [← countFault?_append]
        rfl
  | _ => rfl

theorem fault?_rowEntry (row : List Symbolizer) :
    fault? (rowEntry row) = row.findSome? fun s => fault? s.entry := by
  rw [rowEntry, fault?_bind_pure, fault?_mapM]

/-- A rule cannot be written if one of its symbolizers cannot. -/
theorem Rule.fault?_outline (scaleAttribute : String) (r : Rule) (group : Nat) :
    fault? (r.outline scaleAttribute group) =
      countFault? (r.symbolizers.flatMap Symbolizer.contrastCounts) := by
  have hrows : fault? ((layOut r.symbolizers).mapM rowEntry) =
      countFault? (r.symbolizers.flatMap Symbolizer.contrastCounts) := by
    have hflat : (layOut r.symbolizers).flatMap (·.flatMap Symbolizer.contrastCounts) =
        r.symbolizers.flatMap Symbolizer.contrastCounts := by
      rw [← List.flatMap_assoc (f := fun row => row), List.flatMap_id', flatten_layOut]
    rw [← hflat]
    simp only [fault?_mapM, fault?_rowEntry, Symbolizer.fault?_entry, ← countFault?_flatMap]
  have hselectors := Selection.fault?_selectors
    { filter := r.filter, scale := r.scale } scaleAttribute
  rw [Rule.outline, fault?_bind fun _ => fault?_bind_pure _, hselectors, hrows, Option.none_or]

/-- Only rasters with three channels are counted. -/
theorem Symbolizer.mem_contrastCounts_iff {s : Symbolizer} {p : String × Nat} :
    p ∈ s.contrastCounts ↔ ∃ raster, s = .raster raster ∧ ∃ red green blue,
      raster.channels = some (.rgb red green blue) ∧
        p ∈ (Channels.rgb red green blue).contrastCounts := by
  cases s with
  | raster r =>
    cases hchannels : r.channels with
    | none => simp [contrastCounts, hchannels]
    | some channels =>
      cases channels <;> simp [contrastCounts, hchannels, Channels.contrastCounts]
  | _ => simp [contrastCounts]

end Style

theorem fault?_writeStyle (settings : Settings) (s : Style) :
    fault? (writeStyle settings s) = countFault? s.contrastCounts := by
  have hplaces : (s.rules.zipIdx.map Prod.fst).flatMap
      (fun r => r.symbolizers.flatMap Symbolizer.contrastCounts) = s.contrastCounts := by
    rw [List.zipIdx_map_fst, Style.contrastCounts]
  rw [← hplaces, List.flatMap_map, countFault?_flatMap]
  rw [writeStyle, fault?_bind_pure, Style.outline, fault?_bind_pure, fault?_mapM]
  simp only [Rule.fault?_outline]

end Contrasts

/-- A style cannot be written exactly if a raster with three channels has a contrast property
for one or two of them. The error is about the first such property, in the order of rules and
symbolizers and with the enhancement before the gamma value. -/
theorem writeStyle_eq_error_iff (settings : Settings) (s : Style) :
    ((∃ e, writeStyle settings s = .error e) ↔
      ∃ r ∈ s.rules, ∃ raster, Symbolizer.raster raster ∈ r.symbolizers ∧
        ∃ red green blue, raster.channels = some (.rgb red green blue) ∧
          ∃ p ∈ (Channels.rgb red green blue).contrastCounts, p.2 = 1 ∨ p.2 = 2) ∧
    ∀ e, writeStyle settings s = .error e ↔
      ∃ before key n after, s.contrastCounts = before ++ (key, n) :: after ∧
        (n = 1 ∨ n = 2) ∧ (∀ p ∈ before, p.2 ≠ 1 ∧ p.2 ≠ 2) ∧ e = .arity key "3" n := by
  have hfault : ∀ e, writeStyle settings s = .error e ↔ countFault? s.contrastCounts = some e :=
    fun e => by rw [← fault?_writeStyle settings s, fault?_eq_some_iff]
  constructor
  · simp only [hfault, exists_countFault?_iff, Style.contrastCounts, List.mem_flatMap,
      Symbolizer.mem_contrastCounts_iff]
    constructor
    · rintro ⟨p, ⟨r, hr, _, hs, raster, rfl, red, green, blue, hchannels, hp⟩, hpartial⟩
      exact ⟨r, hr, raster, hs, red, green, blue, hchannels, p, hp, hpartial⟩
    · rintro ⟨r, hr, raster, hs, red, green, blue, hchannels, p, hp, hpartial⟩
      exact ⟨p, ⟨r, hr, _, hs, raster, rfl, red, green, blue, hchannels, hp⟩, hpartial⟩
  · intro e
    rw [hfault, countFault?_eq_some_iff]

end CartoStyle
