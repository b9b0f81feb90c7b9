import CartoStyle.Proofs.Sheet.Rendering
import CartoStyle.Proofs.Style.Filter
import CartoStyle.Style.Selector

/-!
The selectors of a filter and a scale range are read as that filter and that
range. A selector is written as condition texts in brackets, the bounds of the
range last; every selector repeats them, so the range does not depend on how
many branches the filter has.
-/

namespace CartoStyle

/-- A text that stands between brackets as it is. -/
structure Selector.IsContent (inner : Char → Prop) (text : String) : Prop where
  tidy : Condition.IsTidy inner text.toList
  closed : ']' ∉ text.toList

def Selector.bracketed (texts : List String) : String :=
  String.join (texts.map fun text => "[" ++ text ++ "]")

def Selector.boundText (name : String) (op : Operator) (x : Float) : String :=
  name ++ " " ++ op.name ++ " " ++ Decimal.display x

def ScaleRange.bounds (r : ScaleRange) (name : String) : List String :=
  (r.min.map (Selector.boundText name .greater)).toList ++
    (r.max.map (Selector.boundText name .less)).toList

/-- The bounds of one range and, where it has none, those of another. -/
def ScaleRange.over (r range : ScaleRange) : ScaleRange :=
  ⟨r.min.or range.min, r.max.or range.max⟩

structure ScaleRange.IsWritable (r : ScaleRange) : Prop where
  min : ∀ x ∈ r.min, Decimal.IsNumber x
  max : ∀ x ∈ r.max, Decimal.IsNumber x

namespace Selector

section Pieces

variable {inner : Char → Prop} {text : String} {texts : List String} {cs rest : List Char}

theorem pieces_bracket (h : ']' ∉ cs) :
    pieces ('[' :: (cs ++ ']' :: rest)) = .bracket cs :: pieces rest := by
  have hall : ∀ c ∈ cs, (c != ']') = true := by
    intro c hc
    rw [bne_iff_ne]
    rintro rfl
    exact h hc
  rw [pieces, if_pos ⟨rfl, by simp⟩, List.takeWhile_append_of_pos hall,
    List.dropWhile_append_of_pos hall]
  simp

theorem toList_bracketed_cons (text : String) (texts : List String) :
    (bracketed (text :: texts)).toList =
      '[' :: (text.toList ++ ']' :: (bracketed texts).toList) := by
  simp [bracketed]

theorem bracketed_append (texts more : List String) :
    bracketed (texts ++ more) = bracketed texts ++ bracketed more := by
  rw [bracketed, List.map_append, String.join_append, ← bracketed, ← bracketed]

/-- A bracketed selector is cut into the contents of its brackets. -/
theorem pieces_bracketed (h : ∀ t ∈ texts, IsContent inner t) :
    pieces (bracketed texts).toList = texts.map fun t => .bracket t.toList := by
  induction texts with
  | nil =>
    show pieces [] = []
    rw [pieces]
  | cons text texts ih =>
    rw [toList_bracketed_cons, pieces_bracket (h text List.mem_cons_self).closed,
      ih fun t ht => h t (List.mem_cons_of_mem text ht), List.map_cons]

theorem isPlain_bracketed (h : ∀ t ∈ texts, IsContent inner t) :
    isPlain (bracketed texts) = true := by
  have houtside : outsideOf (bracketed texts).toList = [] := by
    rw [outsideOf, pieces_bracketed h]
    simp
  rw [isPlain, houtside]
  rfl

theorem conditionTexts_bracketed (h : ∀ t ∈ texts, IsContent inner t) :
    conditionTexts (bracketed texts) = texts := by
  have hcontents : contentsOf (bracketed texts).toList = texts.map String.toList := by
    rw [contentsOf, pieces_bracketed h, List.filterMap_map]
    show texts.filterMap (some ∘ String.toList) = _
    rw [List.filterMap_eq_map]
  have htrim : (texts.map String.toList).map (Text.dropEnds Text.isBlank) =
      texts.map String.toList := by
    rw [List.map_map]
    exact List.map_congr_left fun t ht => (h t ht).tidy.trimmed.dropEnds_eq
  rw [conditionTexts, hcontents, htrim, List.filterMap_map]
  have hkeep : ∀ t ∈ texts, ((fun cs : List Char => if cs.isEmpty then none else
      some (String.ofList cs)) ∘ String.toList) t = some t := by
    intro t ht
    simpa using (h t ht).tidy.ne_nil
  clear hcontents htrim
  induction texts with
  | nil => rfl
  | cons text texts ih =>
    rw [List.filterMap_cons_some (hkeep text List.mem_cons_self),
      ih (fun t ht => h t (List.mem_cons_of_mem text ht))
        fun t ht => hkeep t (List.mem_cons_of_mem text ht)]

end Pieces

section Conditions

variable {inner : Char → Prop} {scaleAttributes : List String} {range : ScaleRange}
  {es : List Expression}

theorem isContent_of_isTidy (hinner : ¬ inner ']') {text : String}
    (h : Condition.IsTidy inner text.toList) : IsContent inner text := by
  refine ⟨h, fun hmem => ?_⟩
  rcases h.chars _ hmem with hsyntax | hclose
  · cases hsyntax
  · exact hinner hclose

theorem bound?_eq_none_of_not_mem {op : Operator} {name : String} {value : Expression}
    (h : name ∉ scaleAttributes) :
    bound? scaleAttributes range (.apply op [.get name, value]) = none := by
  have hattribute : (Expression.get name).attribute? = some name := rfl
  simp [bound?, hattribute, h, guard]

theorem bound?_eq_none_of_attribute? {op : Operator} (h : ∀ e ∈ es, e.attribute? = none) :
    bound? scaleAttributes range (.apply op es) = none := by
  match es, h with
  | [], _ => rfl
  | [_], _ => rfl
  | e :: _ :: _, h =>
    have he := h e List.mem_cons_self
    simp [bound?, he]

/-- The expression of a writable filter bounds no scale attribute. -/
theorem bound?_eq_none {f : Filter} (h : f.IsWritable inner scaleAttributes) (range : ScaleRange) :
    bound? scaleAttributes range f.expression = none := by
  cases h with
  | and _ _ | or _ _ =>
    rw [Filter.expression, Filter.expressions_eq_map]
    exact bound?_eq_none_of_attribute? (List.forall_mem_map.mpr fun f _ =>
      Filter.attribute?_expression f)
  | not _ => rfl
  | comparison c _ hscale _ => exact bound?_eq_none_of_not_mem hscale
  | isNull _ hscale => exact bound?_eq_none_of_not_mem hscale

/-- Conditions that bound no scale attribute have texts in front of further conditions. -/
theorem exists_conditions (hinner : ¬ inner ']') (h : ∀ e ∈ es, Condition.IsCondition inner e ∧
      ∀ range, bound? scaleAttributes range e = none) :
    ∃ texts, es.mapM Expression.condition = .ok texts ∧ texts.length = es.length ∧
      (∀ t ∈ texts, IsContent inner t) ∧ ∀ range more es' range',
        sortConditions scaleAttributes range more = .ok (es', range') →
          sortConditions scaleAttributes range (texts ++ more) = .ok (es ++ es', range') := by
  induction es with
  | nil => exact ⟨[], rfl, rfl, nofun, fun _ _ _ _ hmore => hmore⟩
  | cons e es ih =>
    obtain ⟨hcondition, hbound⟩ := h e List.mem_cons_self
    obtain ⟨text, htext, htidy, hparse⟩ := Condition.exists_condition_eq hcondition
    obtain ⟨texts, htexts, hlen, hcontents, hsort⟩ :=
      ih fun f hf => h f (List.mem_cons_of_mem e hf)
    refine ⟨text :: texts, ?_, by simp [hlen], ?_, ?_⟩
    · rw [List.mapM_cons, htext, htexts]
      rfl
    · exact List.forall_mem_cons.mpr ⟨isContent_of_isTidy hinner htidy, hcontents⟩
    · intro range more es' range' hmore
      have hrest := hsort range more es' range' hmore
      rw [List.cons_append, sortConditions, hparse]
      simp only [bind, Except.bind, hbound, hrest]
      rfl

theorem parse_bound (inner : Char → Prop) {op : Operator} (hop : op = .greater ∨ op = .less)
    {name : String} (hname : Condition.IsIdentifier name) {x : Float} (hx : Decimal.IsNumber x) :
    Condition.IsTidy inner (boundText name op x).toList ∧
      Condition.parse (boundText name op x) = .ok (.apply op [.get name, .number x]) := by
  have hcomparison : op.isComparison = true := by rcases hop with rfl | rfl <;> rfl
  have hcondition : Condition.IsCondition inner (.apply op [.get name, .number x]) :=
    .comparison hcomparison hname (.number hx)
  obtain ⟨text, htext, htidy, hparse⟩ := Condition.exists_condition_eq hcondition
  have hwritten : (Expression.apply op [.get name, .number x]).condition =
      .ok (boundText name op x) := by
    rcases hop with rfl | rfl <;> rfl
  rw [hwritten] at htext
  cases htext
  exact ⟨htidy, hparse⟩

end Conditions

section Bounds

variable {inner : Char → Prop} {scaleAttributes : List String} {name : String} {r : ScaleRange}

theorem brackets_eq (r : ScaleRange) (name : String) :
    r.brackets name = bracketed (r.bounds name) := by
  obtain ⟨min, max⟩ := r
  rw [← String.toList_inj]
  cases min <;> cases max <;>
    simp [ScaleRange.brackets, ScaleRange.bounds, bracketed, boundText, Operator.name]

theorem mem_bounds_iff {t : String} : t ∈ r.bounds name ↔
    (∃ x, r.min = some x ∧ boundText name .greater x = t) ∨
      ∃ x, r.max = some x ∧ boundText name .less x = t := by
  simp [ScaleRange.bounds]

theorem isContent_bounds (hinner : ¬ inner ']') (h : r.IsWritable)
    (hname : Condition.IsIdentifier name) : ∀ t ∈ r.bounds name, IsContent inner t := by
  intro t ht
  rcases mem_bounds_iff.mp ht with ⟨x, hx, rfl⟩ | ⟨x, hx, rfl⟩
  · exact isContent_of_isTidy hinner (parse_bound inner (Or.inl rfl) hname (h.min x hx)).1
  · exact isContent_of_isTidy hinner (parse_bound inner (Or.inr rfl) hname (h.max x hx)).1

theorem bound?_number {op : Operator} (hop : op = .greater ∨ op = .less)
    (hmem : name ∈ scaleAttributes) (range : ScaleRange) (x : Float) :
    bound? scaleAttributes range (.apply op [.get name, .number x]) = some
      (if op = .greater then { range with min := some x } else { range with max := some x }) := by
  have hattribute : (Expression.get name).attribute? = some name := rfl
  rcases hop with rfl | rfl <;>
    simp [bound?, hattribute, hmem, guard, Expression.number, Expression.read, Value.asNumber?]

theorem sortConditions_cons_bound {op : Operator} (hop : op = .greater ∨ op = .less)
    (hname : Condition.IsIdentifier name) (hmem : name ∈ scaleAttributes) {x : Float}
    (hx : Decimal.IsNumber x) (range : ScaleRange) (texts : List String) :
    sortConditions scaleAttributes range (boundText name op x :: texts) =
      sortConditions scaleAttributes
        (if op = .greater then { range with min := some x } else { range with max := some x })
        texts := by
  rw [sortConditions, (parse_bound (fun _ => True) hop hname hx).2]
  simp only [bind, Except.bind, bound?_number hop hmem]

/-- The bounds of a range are read into the range. -/
theorem sortConditions_bounds (h : r.IsWritable) (hname : Condition.IsIdentifier name)
    (hmem : name ∈ scaleAttributes) (range : ScaleRange) :
    sortConditions scaleAttributes range (r.bounds name) = .ok ([], r.over range) := by
  obtain ⟨min, max⟩ := r
  have hmax (range : ScaleRange) : sortConditions scaleAttributes range
      (max.map (boundText name .less)).toList = .ok ([], ⟨range.min, max.or range.max⟩) := by
    cases max with
    | none => rfl
    | some y => exact sortConditions_cons_bound (Or.inr rfl) hname hmem (h.max y rfl) range []
  cases min with
  | none => exact hmax range
  | some x =>
    have hmin := sortConditions_cons_bound (Or.inl rfl) hname hmem (h.min x rfl) range
      (max.map (boundText name .less)).toList
    rw [if_pos rfl, hmax] at hmin
    exact hmin

end Bounds

/-- The selector is a star, or it consists of conditions in brackets. -/
def IsBracketed (inner : Char → Prop) (selector : String) : Prop :=
  selector = "*" ∨
    ∃ texts, texts ≠ [] ∧ (∀ t ∈ texts, IsContent inner t) ∧ selector = bracketed texts

section Bracketed

variable {inner : Char → Prop} {selector : String}

theorem toList_bracketed (texts : List String) :
    (bracketed texts).toList = (texts.map fun t => '[' :: (t.toList ++ [']'])).flatten := by
  induction texts with
  | nil => rfl
  | cons text texts ih =>
    rw [toList_bracketed_cons, ih]
    simp

theorem IsBracketed.isSelector (h : IsBracketed inner selector) :
    Sheet.IsSelector selector := by
  rcases h with rfl | ⟨texts, hne, hcontents, rfl⟩
  · exact ⟨[['*']], nofun, List.forall_mem_singleton.mpr (Or.inl rfl), rfl⟩
  · refine ⟨texts.map fun t => '[' :: (t.toList ++ [']']), by simpa using hne, ?_,
      toList_bracketed texts⟩
    exact List.forall_mem_map.mpr fun t ht => Or.inr ⟨t.toList, (hcontents t ht).closed, rfl⟩

/-- A selector lies on one line. -/
theorem IsBracketed.not_mem_newline (hinner : ¬ inner '\n') (h : IsBracketed inner selector) :
    '\n' ∉ selector.toList := by
  rcases h with rfl | ⟨texts, -, hcontents, rfl⟩
  · decide
  · intro hmem
    rw [toList_bracketed, List.mem_flatten] at hmem
    obtain ⟨cs, hcs, hmem⟩ := hmem
    obtain ⟨t, ht, rfl⟩ := List.mem_map.mp hcs
    have hmem : '\n' ∈ t.toList := by simpa using hmem
    rcases (hcontents t ht).tidy.chars _ hmem with hsyntax | hline
    · cases hsyntax
    · exact hinner hline

/-- A selector with conditions ends in a bracket. -/
theorem IsBracketed.getLast?_eq (h : IsBracketed inner selector)
    (hstar : selector ≠ "*") : selector.toList.getLast? = some ']' := by
  rcases h with rfl | ⟨texts, hne, -, rfl⟩
  · exact absurd rfl hstar
  · have hlast (cs : List Char) : ('[' :: (cs ++ [']'])).getLast? = some ']' := by
      rw [← List.cons_append, List.getLast?_concat]
    rw [← List.dropLast_concat_getLast hne, toList_bracketed]
    simp [hlast]

end Bracketed

section Branches

variable {inner : Char → Prop} {scaleAttributes : List String} {name : String} {r : ScaleRange}

/-- A branch of a filter, as it stands in a disjunction or alone. -/
def IsBranch (inner : Char → Prop) (scaleAttributes : List String) (e : Expression) : Prop :=
  ∃ f : Filter, f.IsWritable inner scaleAttributes ∧ f.expression = e

theorem conjunction?_of_length {es : List Expression} (h : 2 ≤ es.length) :
    conjunction? es = some (.apply .all es) := by
  cases es with
  | nil => cases h
  | cons e es =>
    cases es with
    | nil =>
      rw [List.length_singleton] at h
      omega
    | cons f es => rfl

/-- The branches of a filter are the filters that it joins, or the filter itself. -/
theorem exists_branches {op : Operator} {join : List Filter → Filter}
    (hjoin : op = .any ∧ join = .or ∨ op = .all ∧ join = .and) (f : Filter) :
    ∃ fs, f.expression.branches op = fs.map Filter.expression ∧ (f = join fs ∨ fs = [f]) := by
  by_cases hop : f.expression.op? = some op
  · have hjoined : ∃ fs, f = join fs := by
      rcases hjoin with ⟨rfl, rfl⟩ | ⟨rfl, rfl⟩
      · exact Filter.op?_expression_eq_any hop
      · exact Filter.op?_expression_eq_all hop
    obtain ⟨fs, rfl⟩ := hjoined
    refine ⟨fs, ?_, Or.inl rfl⟩
    rw [Expression.branches, if_pos hop, ← Filter.expressions_eq_map]
    rcases hjoin with ⟨-, rfl⟩ | ⟨-, rfl⟩ <;> rfl
  · exact ⟨[f], by rw [Expression.branches, if_neg hop]; rfl, Or.inr rfl⟩

theorem IsBranch.conjuncts {e : Expression} (h : IsBranch inner scaleAttributes e) :
    conjunction? (e.branches .all) = some e ∧
      ∀ c ∈ e.branches .all, IsBranch inner scaleAttributes c := by
  obtain ⟨f, hf, rfl⟩ := h
  obtain ⟨fs, hfs, rfl | rfl⟩ := exists_branches (Or.inr ⟨rfl, rfl⟩) f
  · cases hf with
    | and hlen hall =>
      rw [hfs]
      refine ⟨?_, List.forall_mem_map.mpr fun f hf => ⟨f, hall f hf, rfl⟩⟩
      rw [conjunction?_of_length (by simpa using hlen), Filter.expression,
        Filter.expressions_eq_map]
  · rw [hfs]
    exact ⟨rfl, List.forall_mem_singleton.mpr ⟨f, hf, rfl⟩⟩

/-- A branch has a selector, which is read as that branch and the bounds of the range. -/
theorem exists_selector (hinner : ¬ inner ']') {e : Expression}
    (h : IsBranch inner scaleAttributes e) (hr : r.IsWritable)
    (hname : Condition.IsIdentifier name) (hmem : name ∈ scaleAttributes) :
    ∃ texts, ofBranch (bracketed (r.bounds name)) e = .ok (bracketed texts) ∧ texts ≠ [] ∧
      (∀ t ∈ texts, IsContent inner t) ∧ ∀ range,
        sortConditions scaleAttributes range texts = .ok (e.branches .all, r.over range) := by
  obtain ⟨hconjunction, hbranches⟩ := h.conjuncts
  have hconditions : ∀ c ∈ e.branches .all, Condition.IsCondition inner c ∧
      ∀ range, bound? scaleAttributes range c = none := by
    intro c hc
    obtain ⟨f, hf, rfl⟩ := hbranches c hc
    exact ⟨hf.isCondition, bound?_eq_none hf⟩
  obtain ⟨texts, htexts, hlen, hcontents, hsort⟩ := exists_conditions hinner hconditions
  refine ⟨texts ++ r.bounds name, ?_, ?_, ?_, fun range => ?_⟩
  · rw [ofBranch, htexts, bracketed_append]
    rfl
  · intro hnil
    have hempty : e.branches .all = [] := by
      rw [← List.length_eq_zero_iff, ← hlen, (List.append_eq_nil_iff.mp hnil).1, List.length_nil]
    rw [hempty] at hconjunction
    cases hconjunction
  · intro t ht
    rcases List.mem_append.mp ht with ht | ht
    · exact hcontents t ht
    · exact isContent_bounds hinner hr hname t ht
  · have hmore := hsort range _ _ _ (sortConditions_bounds hr hname hmem range)
    rwa [List.append_nil] at hmore

theorem over_over (r range : ScaleRange) : r.over (r.over range) = r.over range := by
  obtain ⟨min, max⟩ := r
  cases min <;> cases max <;> rfl

/-- The selectors of some branches are read as those branches. -/
theorem exists_selectors (hinner : ¬ inner ']') {es : List Expression}
    (h : ∀ e ∈ es, IsBranch inner scaleAttributes e) (hr : r.IsWritable)
    (hname : Condition.IsIdentifier name) (hmem : name ∈ scaleAttributes) :
    ∃ sels, es.mapM (ofBranch (bracketed (r.bounds name))) = .ok sels ∧
      sels.length = es.length ∧ (∀ s ∈ sels, IsBracketed inner s) ∧
      ∀ range, (es = [] → range = r.over range) →
        alternatives scaleAttributes range sels = .ok (es.map some, r.over range) := by
  induction es with
  | nil =>
    refine ⟨[], rfl, rfl, nofun, fun range hrange => ?_⟩
    rw [alternatives, ← hrange rfl]
    rfl
  | cons e es ih =>
    obtain ⟨texts, hbranch, hne, hcontents, hsort⟩ :=
      exists_selector hinner (h e List.mem_cons_self) hr hname hmem
    obtain ⟨sels, hsels, hlen, hbracketed, hrest⟩ := ih fun f hf => h f (List.mem_cons_of_mem e hf)
    refine ⟨bracketed texts :: sels, ?_, by simp [hlen], ?_, fun range _ => ?_⟩
    · rw [List.mapM_cons, hbranch, hsels]
      rfl
    · exact List.forall_mem_cons.mpr ⟨Or.inr ⟨texts, hne, hcontents, rfl⟩, hbracketed⟩
    · have hmore := hrest (r.over range) fun _ => (over_over r range).symm
      rw [alternatives, if_pos (isPlain_bracketed hcontents), conditionTexts_bracketed hcontents,
        hsort]
      simp only [bind, Except.bind, hmore, (h e List.mem_cons_self).conjuncts.1, over_over]
      rfl

end Branches

end Selector

structure Selection.IsWritable (inner : Char → Prop) (scaleAttributes : List String)
    (s : Selection) : Prop where
  filter : ∀ f ∈ s.filter, f.IsWritable inner scaleAttributes
  scale : ∀ r ∈ s.scale, r.IsWritable ∧ r.isEmpty = false

namespace Selection

open Selector

variable {inner : Char → Prop} {scaleAttributes : List String} {name : String} {s : Selection}

theorem over_empty (r : ScaleRange) : r.over {} = r := by
  obtain ⟨min, max⟩ := r
  cases min <;> cases max <;> rfl

theorem IsWritable.range (h : s.IsWritable inner scaleAttributes) :
    (s.scale.getD {}).IsWritable ∧
      (if (s.scale.getD {}).isEmpty then none else some (s.scale.getD {})) = s.scale := by
  obtain ⟨filter, scale⟩ := s
  cases scale with
  | none => exact ⟨⟨nofun, nofun⟩, rfl⟩
  | some r =>
    obtain ⟨hr, hempty⟩ := h.scale r rfl
    refine ⟨hr, ?_⟩
    show (if r.isEmpty then none else some r) = some r
    rw [hempty]
    rfl

theorem brackets_scale (s : Selection) (name : String) :
    (s.scale.map (·.brackets name)).getD "" = bracketed ((s.scale.getD {}).bounds name) := by
  cases s.scale with
  | none => rfl
  | some r => exact brackets_eq r name

theorem bracketed_eq_empty_iff {texts : List String} : bracketed texts = "" ↔ texts = [] := by
  cases texts with
  | nil => simp [bracketed]
  | cons text texts =>
    rw [← String.toList_inj, toList_bracketed_cons]
    simp

theorem isPlain_star : isPlain "*" = true ∧ conditionTexts "*" = [] := by
  have hpieces : pieces "*".toList = [.outside '*'] := by
    show pieces ['*'] = _
    rw [pieces, if_neg (by simp), pieces]
  constructor
  · rw [isPlain, outsideOf, hpieces]
    rfl
  · rw [conditionTexts, contentsOf, hpieces]
    rfl

/-- The star selects everything. -/
theorem alternatives_star (range : ScaleRange) :
    alternatives scaleAttributes range ["*"] = .ok ([none], range) := by
  rw [alternatives, if_pos isPlain_star.1, isPlain_star.2]
  rfl

/-- Without a filter there is one selector. -/
theorem exists_selector_of_range (hinner : ¬ inner ']') {r : ScaleRange} (hr : r.IsWritable)
    (hname : Condition.IsIdentifier name) (hmem : name ∈ scaleAttributes) :
    ∃ sel, (if (bracketed (r.bounds name)).isEmpty then "*" else bracketed (r.bounds name)) = sel ∧
      IsBracketed inner sel ∧ alternatives scaleAttributes {} [sel] = .ok ([none], r) := by
  refine ⟨_, rfl, ?_⟩
  by_cases hbounds : r.bounds name = []
  · have hempty : (bracketed (r.bounds name)).isEmpty = true :=
      String.isEmpty_iff.mpr (bracketed_eq_empty_iff.mpr hbounds)
    have hrange := sortConditions_bounds hr hname hmem {}
    rw [hbounds, over_empty, sortConditions] at hrange
    simp only [Except.ok.injEq, Prod.mk.injEq, true_and] at hrange
    rw [if_pos hempty, ← hrange]
    exact ⟨Or.inl rfl, alternatives_star {}⟩
  · have hempty : ¬ (bracketed (r.bounds name)).isEmpty = true :=
      mt (fun h => bracketed_eq_empty_iff.mp (String.isEmpty_iff.mp h)) hbounds
    have hcontents := isContent_bounds hinner hr hname
    rw [if_neg hempty]
    refine ⟨Or.inr ⟨_, hbounds, hcontents, rfl⟩, ?_⟩
    rw [alternatives, if_pos (isPlain_bracketed hcontents), conditionTexts_bracketed hcontents,
      sortConditions_bounds hr hname hmem, over_empty]
    rfl

theorem isBranch_branches {f : Filter} (h : f.IsWritable inner scaleAttributes) :
    f.expression.branches .any ≠ [] ∧
      ∀ e ∈ f.expression.branches .any, IsBranch inner scaleAttributes e := by
  obtain ⟨fs, hfs, rfl | rfl⟩ := exists_branches (Or.inl ⟨rfl, rfl⟩) f
  · cases h with
    | or hlen hall =>
      rw [hfs, ← List.length_pos_iff, List.length_map]
      exact ⟨by omega, List.forall_mem_map.mpr fun f hf => ⟨f, hall f hf, rfl⟩⟩
  · rw [hfs]
    exact ⟨List.cons_ne_nil _ _, List.forall_mem_singleton.mpr ⟨f, h, rfl⟩⟩

/-- The branches of a filter make up that filter. -/
theorem filterOf_branches {f : Filter} (h : f.IsWritable inner scaleAttributes) :
    filterOf ((f.expression.branches .any).map some) = .ok (some f) := by
  have hpresent (es : List Expression) : (es.map some).any Option.isNone = false := by simp
  have hconditions (es : List Expression) : (es.map some).filterMap id = es := by simp
  have hne : (f.expression.branches .any).isEmpty = false := by simpa using (isBranch_branches h).1
  rw [filterOf, hconditions, hpresent, Bool.or_false, hne]
  by_cases hop : f.expression.op? = some .any
  · have hbranches : f.expression = .apply .any (f.expression.branches .any) := by
      obtain ⟨fs, rfl⟩ := Filter.op?_expression_eq_any hop
      rw [Expression.branches, if_pos hop]
      rfl
    rw [← hbranches, h.ofExpression_eq]
    rfl
  · rw [Expression.branches, if_neg hop]
    show some <$> Filter.ofExpression (.apply .any [f.expression]) = _
    have hsingle := Filter.ofExpressions_eq (List.forall_mem_singleton.mpr h.ofExpression_eq)
    rw [List.map_singleton] at hsingle
    rw [Filter.ofExpression, hsingle]
    rfl

/-- The selectors of a filter and a range are read as that filter and that range. -/
theorem exists_selectors (hinner : ¬ inner ']') (h : s.IsWritable inner scaleAttributes)
    (hname : Condition.IsIdentifier name) (hmem : name ∈ scaleAttributes) :
    ∃ sels, s.selectors name = .ok sels ∧ sels ≠ [] ∧ (∀ sel ∈ sels, IsBracketed inner sel) ∧
      Selection.ofSelectors scaleAttributes sels = .ok s := by
  obtain ⟨hr, hscale⟩ := h.range
  rw [Selection.selectors, brackets_scale]
  obtain ⟨filter, scale⟩ := s
  cases filter with
  | none =>
    obtain ⟨sel, hsel, hbracketed, halternatives⟩ := exists_selector_of_range hinner hr hname hmem
    refine ⟨[sel], ?_, nofun, List.forall_mem_singleton.mpr hbracketed, ?_⟩
    · simp only [hsel]
    · rw [Selection.ofSelectors, halternatives]
      simp only [bind, Except.bind, filterOf, hscale]
      rfl
  | some f =>
    have hf := h.filter f rfl
    obtain ⟨sels, hsels, hlen, hbracketed, halternatives⟩ :=
      Selector.exists_selectors hinner (isBranch_branches hf).2 hr hname hmem
    have hne := (isBranch_branches hf).1
    refine ⟨sels, hsels, ?_, hbracketed, ?_⟩
    · intro hnil
      rw [hnil] at hlen
      exact hne (List.length_eq_zero_iff.mp hlen.symm)
    · rw [Selection.ofSelectors, halternatives {} fun h => absurd h hne]
      simp only [bind, Except.bind, filterOf_branches hf, over_empty, hscale]
      rfl

/-- A filter and a range whose texts hold no closing bracket have selectors, and these are read as
that filter and that range. -/
theorem exists_selectors_ofSelectors_eq (h : s.IsWritable (· ≠ ']') scaleAttributes)
    (hname : Condition.IsIdentifier name) (hmem : name ∈ scaleAttributes) :
    ∃ sels, s.selectors name = .ok sels ∧ ofSelectors scaleAttributes sels = .ok s := by
  obtain ⟨sels, hsels, -, -, hread⟩ := exists_selectors (not_not_intro rfl) h hname hmem
  exact ⟨sels, hsels, hread⟩

def towns : Selection where
  filter := some (.or [
    .and [.comparison .equal "kind" (.text "town"), .comparison .greater "size" (.number 2.5)],
    .isNull "kind"])
  scale := some { min := some 2.5 }

theorem isWritable_towns : towns.IsWritable (· ≠ ']') ["zoom"] := by
  have hkind : Condition.IsIdentifier "kind" :=
    Condition.isIdentifier_of_lower rfl rfl (by decide) (by decide) (by decide)
  have hsize : Condition.IsIdentifier "size" :=
    Condition.isIdentifier_of_lower rfl rfl (by decide) (by decide) (by decide)
  refine ⟨fun f hf => ?_, fun r hr => ?_⟩
  · cases hf
    refine .or (by decide) (List.forall_mem_cons.mpr ⟨?_, List.forall_mem_singleton.mpr ?_⟩)
    · refine .and (by decide) (List.forall_mem_cons.mpr ⟨?_, List.forall_mem_singleton.mpr ?_⟩)
      · exact .comparison .equal hkind (by decide)
          (FilterValue.isWritable_text (Or.inl (by decide)) (by decide))
      · exact .comparison .greater hsize (by decide) (.number Condition.isNumber_five_halves)
    · exact .isNull hkind (by decide)
  · cases hr
    exact ⟨⟨fun x hx => by cases hx; exact Condition.isNumber_five_halves, nofun⟩, rfl⟩

theorem ofSelectors_towns :
    towns.selectors "zoom" =
        .ok ["[kind = 'town'][size > 2.5][zoom > 2.5]", "[kind is null][zoom > 2.5]"] ∧
      ofSelectors ["zoom"] ["[kind = 'town'][size > 2.5][zoom > 2.5]",
        "[kind is null][zoom > 2.5]"] = .ok towns := by
  have hzoom : Condition.IsIdentifier "zoom" :=
    Condition.isIdentifier_of_lower rfl rfl (by decide) (by decide) (by decide)
  obtain ⟨sels, hsels, hread⟩ :=
    exists_selectors_ofSelectors_eq isWritable_towns hzoom (List.mem_singleton_self _)
  have hselectors : (towns.selectors "zoom").toOption =
      some ["[kind = 'town'][size > 2.5][zoom > 2.5]", "[kind is null][zoom > 2.5]"] := by
    decide +kernel
  rw [hsels] at hselectors
  obtain rfl := Option.some.inj hselectors
  exact ⟨hsels, hread⟩

end Selection

end CartoStyle
