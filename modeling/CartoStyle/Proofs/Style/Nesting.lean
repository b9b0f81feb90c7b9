import CartoStyle.Proofs.Style.ConditionFilter
import CartoStyle.Proofs.Style.Path

/-!
Which nested blocks are accepted. A selector may have one star outside its brackets, and what is
joined along a path has the stars of one alternative at each level. So blocks that are accepted
one by one are refused together exactly if two levels have an alternative with a star, since the
choice of both has two stars. Nothing else is refused in the end, as the conditions of what is
joined are those of the alternatives.
-/

namespace CartoStyle.Selector

open Condition

namespace Part

def isStar : Part → Bool
  | star => true
  | bracket _ _ => false

/-- The condition between the brackets compares nothing with null other than by equality. -/
def IsNullFree (p : Part) : Prop :=
  ∀ t ∈ p.condition?, ∀ e, Means t e → ¬ e.ComparesNull

end Part

def hasStar (alternatives : List (List Part)) : Bool := alternatives.any (·.any Part.isStar)

variable {parts lead : List Part} {alternatives leads choice : List (List Part)}
  {path : List (List (List Part))} {p : Part} {scaleAttributes : List String} {s : Selection}

section Stars

/-- Outside its brackets a selector made of parts consists of its stars. -/
theorem outsideOf_ofParts (parts : List Part) :
    outsideOf (ofParts parts).toList = List.replicate (parts.countP Part.isStar) '*' := by
  rw [outsideOf, pieces_ofParts]
  induction parts with
  | nil => rfl
  | cons p parts ih =>
    cases p with
    | star =>
      rw [List.countP_cons_of_pos rfl, List.replicate_succ, ← ih]
      rfl
    | bracket content closed =>
      rw [List.countP_cons_of_neg Bool.false_ne_true, ← ih]
      rfl

/-- A selector made of parts may have one star. -/
theorem isPlain_ofParts_iff :
    isPlain (ofParts parts) = true ↔ parts.countP Part.isStar ≤ 1 := by
  have hfree (n : Nat) : Text.FreeEnds Text.isBlank (List.replicate n '*') :=
    .of_forall fun c hc => by rw [List.eq_of_mem_replicate hc]; rfl
  rw [isPlain, outsideOf_ofParts, (hfree _).dropEnds_eq]
  rcases parts.countP Part.isStar with _ | _ | n
  · simp
  · simp
  · simp [List.replicate_succ]

theorem hasStar_iff : hasStar alternatives = true ↔
    ∃ parts ∈ alternatives, 0 < parts.countP Part.isStar := by
  simp [hasStar, List.countP_pos_iff]

end Stars

section Choices

/-- What is joined along a path is a choice of an alternative at each level. -/
theorem mem_foldl_extend_iff :
    parts ∈ path.foldl extend leads ↔ ∃ lead ∈ leads, ∃ choice,
      List.Forall₂ (· ∈ ·) choice path ∧ parts = lead ++ choice.flatten := by
  induction path generalizing leads with
  | nil => simp
  | cons alternatives path ih =>
    rw [List.foldl_cons, ih]
    constructor
    · rintro ⟨_, hmem, choice, hchoice, rfl⟩
      obtain ⟨lead, hlead, others, hothers, rfl⟩ := mem_extend_iff.mp hmem
      exact ⟨lead, hlead, others :: choice, .cons hothers hchoice, by simp⟩
    · rintro ⟨lead, hlead, _, hchoice, rfl⟩
      cases hchoice with
      | @cons others _ choice _ hothers hchoice =>
        exact ⟨lead ++ others, mem_extend_iff.mpr ⟨lead, hlead, others, hothers, rfl⟩, choice,
          hchoice, by simp⟩

/-- Some choice has a star from every level that has one. -/
theorem exists_choice (h : ∀ alternatives ∈ path, alternatives ≠ []) :
    ∃ choice, List.Forall₂ (· ∈ ·) choice path ∧
      path.countP hasStar ≤ choice.flatten.countP Part.isStar := by
  induction path with
  | nil => exact ⟨[], .nil, Nat.le_refl 0⟩
  | cons alternatives path ih =>
    obtain ⟨choice, hchoice, hcount⟩ := ih fun others hmem => h others (List.mem_cons_of_mem _ hmem)
    by_cases hstar : hasStar alternatives = true
    · obtain ⟨parts, hparts, hpos⟩ := hasStar_iff.mp hstar
      refine ⟨parts :: choice, .cons hparts hchoice, ?_⟩
      rw [List.countP_cons_of_pos hstar, List.flatten_cons, List.countP_append]
      omega
    · obtain ⟨parts, hparts⟩ := List.exists_mem_of_ne_nil _ (h alternatives List.mem_cons_self)
      refine ⟨parts :: choice, .cons hparts hchoice, ?_⟩
      rw [List.countP_cons_of_neg hstar, List.flatten_cons, List.countP_append]
      omega

/-- Of alternatives with one star at most, no choice has more stars than there are levels that
have one. -/
theorem countP_flatten_le (hchoice : List.Forall₂ (· ∈ ·) choice path)
    (h : ∀ alternatives ∈ path, ∀ parts ∈ alternatives, parts.countP Part.isStar ≤ 1) :
    choice.flatten.countP Part.isStar ≤ path.countP hasStar := by
  induction hchoice with
  | nil => exact Nat.le_refl 0
  | @cons parts alternatives choice path hparts _ ih =>
    obtain ⟨hfirst, hrest⟩ := List.forall_mem_cons.mp h
    have hone := hfirst parts hparts
    have hothers := ih hrest
    rw [List.flatten_cons, List.countP_append]
    by_cases hstar : hasStar alternatives = true
    · rw [List.countP_cons_of_pos hstar]
      omega
    · have hzero : parts.countP Part.isStar = 0 := by
        by_contra hpos
        exact hstar (hasStar_iff.mpr ⟨parts, hparts, by omega⟩)
      rw [List.countP_cons_of_neg hstar, hzero]
      omega

theorem exists_of_mem_flatten (hchoice : List.Forall₂ (· ∈ ·) choice path)
    (hp : p ∈ choice.flatten) : ∃ alternatives ∈ path, ∃ parts ∈ alternatives, p ∈ parts := by
  obtain ⟨parts, hparts, hp⟩ := List.mem_flatten.mp hp
  obtain ⟨alternatives, halternatives, hmem⟩ := exists_of_forall₂ hchoice.flip hparts
  exact ⟨alternatives, halternatives, parts, hmem, hp⟩

end Choices

section Conditions

/-- Selectors that are accepted have one star at most, and their conditions mean something. -/
theorem reads_of_ofSelectors
    (h : Selection.ofSelectors scaleAttributes (alternatives.map ofParts) = .ok s)
    (hparts : parts ∈ alternatives) :
    parts.countP Part.isStar ≤ 1 ∧ ∀ p ∈ parts, ∀ t ∈ p.condition?, ∃ e, Means t e := by
  obtain ⟨ess, hess, -, -⟩ := Selection.exists_of_ofSelectors h
  obtain ⟨es, -, hreads⟩ := exists_of_forall₂ hess.flip (List.mem_map_of_mem hparts)
  refine ⟨isPlain_ofParts_iff.mp hreads.plain, fun p hp t ht => ?_⟩
  have htext : t ∈ conditionTexts (ofParts parts) := by
    rw [conditionTexts_ofParts]
    exact List.mem_filterMap.mpr ⟨p, hp, ht⟩
  obtain ⟨e, -, he⟩ := exists_of_forall₂ hreads.conditions.flip htext
  exact ⟨e, he⟩

/-- A condition that means something without a comparison with null is read as a filter. -/
theorem Part.IsNullFree.meets (h : p.IsNullFree) (hmeans : ∀ t ∈ p.condition?, ∃ e, Means t e) :
    p.Meets Expression.IsFilter := by
  intro t ht
  obtain ⟨e, he⟩ := hmeans t ht
  exact ⟨e, he, (Filter.isFilter_iff_of_means he).mpr (h t ht e he)⟩

theorem Part.isNullFree_of_meets (h : p.Meets Expression.IsFilter) : p.IsNullFree := by
  intro t ht e he
  obtain ⟨e', he', hfilter⟩ := h t ht
  obtain rfl := means_unique he he'
  exact (Filter.isFilter_iff_of_means he).mp hfilter

/-- A selector with one star at most is acceptable if its conditions are read as filters. -/
theorem isAcceptable_ofParts (hstars : parts.countP Part.isStar ≤ 1)
    (hparts : ∀ p ∈ parts, p.Meets Expression.IsFilter) : IsAcceptable (ofParts parts) where
  plain := isPlain_ofParts_iff.mpr hstars
  conditions t ht := by
    obtain ⟨e, he, hfilter⟩ :=
      (everyCondition_ofParts_iff Expression.IsFilter parts).mpr hparts t ht
    exact ⟨e, parse_eq_ok_iff_means.mpr he, hfilter⟩

end Conditions

/-- Nested blocks that are accepted one by one are accepted together exactly if at no more than
one level there is an alternative with a star. -/
theorem exists_ofSelectors_path_iff (halternatives : ∀ alternatives ∈ path, alternatives ≠ [])
    (haccepted : ∀ alternatives ∈ path,
      ∃ s, Selection.ofSelectors scaleAttributes (alternatives.map ofParts) = .ok s)
    (hnull : ∀ alternatives ∈ path, ∀ parts ∈ alternatives, ∀ p ∈ parts, p.IsNullFree) :
    (∃ s, Selection.ofSelectors scaleAttributes
      ((path.map fun alternatives => alternatives.map ofParts).foldl Rule.combine [""]) = .ok s) ↔
        path.countP hasStar ≤ 1 := by
  have hjoined : (path.map fun alternatives => alternatives.map ofParts).foldl Rule.combine [""] =
      (path.foldl extend [[]]).map ofParts := foldl_combine_ofParts path [[]]
  have hreads : ∀ alternatives ∈ path, ∀ parts ∈ alternatives,
      parts.countP Part.isStar ≤ 1 ∧ ∀ p ∈ parts, ∀ t ∈ p.condition?, ∃ e, Means t e := by
    intro alternatives hmem parts hparts
    obtain ⟨s, hs⟩ := haccepted alternatives hmem
    exact reads_of_ofSelectors hs hparts
  rw [hjoined]
  constructor
  · rintro ⟨s, hs⟩
    obtain ⟨choice, hchoice, hcount⟩ := exists_choice halternatives
    have hmem : choice.flatten ∈ path.foldl extend [[]] :=
      mem_foldl_extend_iff.mpr ⟨[], List.mem_singleton_self _, choice, hchoice, rfl⟩
    exact hcount.trans (reads_of_ofSelectors hs hmem).1
  · intro hcount
    refine exists_ofSelectors (List.forall_mem_map.mpr fun parts hmem => ?_) scaleAttributes
    obtain ⟨lead, hlead, choice, hchoice, rfl⟩ := mem_foldl_extend_iff.mp hmem
    obtain rfl := List.mem_singleton.mp hlead
    refine isAcceptable_ofParts ?_ fun p hp => ?_
    · have hstars := countP_flatten_le hchoice fun alternatives hmem parts hparts =>
        (hreads alternatives hmem parts hparts).1
      exact hstars.trans hcount
    · obtain ⟨alternatives, hmem, parts, hparts, hp⟩ := exists_of_mem_flatten hchoice hp
      exact (hnull alternatives hmem parts hparts p hp).meets
        ((hreads alternatives hmem parts hparts).2 p hp)

section Cities

def largeCities : List (List (List Part)) := [
  [[.bracket "kind = 'city'" (by decide)], [.star]],
  [[.bracket "size >= 10" (by decide), .bracket "@sd < 5000" (by decide)],
    [.bracket "not name is null" (by decide)]]]

def Part.isFilter (p : Part) : Bool :=
  p.condition?.all fun t =>
    (Condition.parse t).toOption.any fun e => (fault? (Filter.ofExpression e)).isNone

theorem Part.meets_of_isFilter (h : p.isFilter = true) : p.Meets Expression.IsFilter := by
  intro t ht
  rw [Part.isFilter, Option.mem_def.mp ht, Option.all_some] at h
  cases hparse : Condition.parse t with
  | error fault =>
    rw [hparse] at h
    cases h
  | ok e =>
    rw [hparse] at h
    exact ⟨e, parse_eq_ok_iff_means.mp hparse, Option.isNone_iff_eq_none.mp h⟩

theorem exists_ofSelectors_largeCities :
    (∀ alternatives ∈ largeCities, alternatives ≠ []) ∧
      (∀ alternatives ∈ largeCities,
        ∃ s, Selection.ofSelectors ["@sd"] (alternatives.map ofParts) = .ok s) ∧
      (∀ alternatives ∈ largeCities, ∀ parts ∈ alternatives, ∀ p ∈ parts, p.IsNullFree) ∧
      ∃ s, Selection.ofSelectors ["@sd"] ((largeCities.map fun alternatives =>
        alternatives.map ofParts).foldl Rule.combine [""]) = .ok s := by
  have hfilters : ∀ alternatives ∈ largeCities, ∀ parts ∈ alternatives, ∀ p ∈ parts,
      p.isFilter = true := by decide +kernel
  have hstars : ∀ alternatives ∈ largeCities, ∀ parts ∈ alternatives,
      parts.countP Part.isStar ≤ 1 := by decide
  have hmeets : ∀ alternatives ∈ largeCities, ∀ parts ∈ alternatives, ∀ p ∈ parts,
      p.Meets Expression.IsFilter := fun alternatives hmem parts hparts p hp =>
    Part.meets_of_isFilter (hfilters alternatives hmem parts hparts p hp)
  have hnull : ∀ alternatives ∈ largeCities, ∀ parts ∈ alternatives, ∀ p ∈ parts, p.IsNullFree :=
    fun alternatives hmem parts hparts p hp =>
      Part.isNullFree_of_meets (hmeets alternatives hmem parts hparts p hp)
  have haccepted : ∀ alternatives ∈ largeCities,
      ∃ s, Selection.ofSelectors ["@sd"] (alternatives.map ofParts) = .ok s :=
    fun alternatives hmem =>
      exists_ofSelectors (List.forall_mem_map.mpr fun parts hparts => isAcceptable_ofParts
        (hstars alternatives hmem parts hparts) (hmeets alternatives hmem parts hparts)) _
  have hne : ∀ alternatives ∈ largeCities, alternatives ≠ [] := by simp [largeCities]
  exact ⟨hne, haccepted, hnull,
    (exists_ofSelectors_path_iff hne haccepted hnull).mpr (by decide)⟩

/-- Two blocks for everything, one in the other, are refused. -/
theorem not_forall_exists_ofSelectors_path :
    ¬ ∀ (scaleAttributes : List String) (path : List (List (List Part))),
      (∀ alternatives ∈ path, alternatives ≠ []) →
      (∀ alternatives ∈ path,
        ∃ s, Selection.ofSelectors scaleAttributes (alternatives.map ofParts) = .ok s) →
      (∀ alternatives ∈ path, ∀ parts ∈ alternatives, ∀ p ∈ parts, p.IsNullFree) →
      ∃ s, Selection.ofSelectors scaleAttributes
        ((path.map fun alternatives => alternatives.map ofParts).foldl Rule.combine [""]) =
          .ok s := by
  intro hclaim
  have hmeets : Part.star.Meets Expression.IsFilter := nofun
  have haccepted : ∃ s, Selection.ofSelectors [] ([[.star]].map ofParts) = .ok s :=
    exists_ofSelectors (List.forall_mem_singleton.mpr (isAcceptable_ofParts (by decide)
      (List.forall_mem_singleton.mpr hmeets))) []
  obtain ⟨s, hs⟩ := hclaim [] [[[.star]], [[.star]]] (by simp) (by simpa using haccepted)
    (by simpa using Part.isNullFree_of_meets hmeets)
  have hjoined : Selection.ofSelectors [] ([[Part.star, .star]].map ofParts) = .ok s := hs
  have hstars := (reads_of_ofSelectors hjoined (List.mem_singleton_self [Part.star, .star])).1
  exact absurd hstars (by decide)

end Cities

end CartoStyle.Selector
