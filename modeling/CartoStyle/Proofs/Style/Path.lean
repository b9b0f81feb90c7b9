import CartoStyle.Proofs.Style.Alternatives
import CartoStyle.Proofs.Style.Selector

/-!
Nested blocks. The selectors of a block are made of stars and brackets, and those of a
path of blocks are all ways to take one alternative at each level. Joining the texts keeps
the brackets apart, so the conditions of a joined selector are those of its parts, and by
the distributive law the filter of the path is the conjunction over the levels of the
disjunction over the alternatives.
-/

namespace CartoStyle.Selector

open Condition

/-- A part of a selector: a star, or a condition in brackets. -/
inductive Part where
  | star
  | bracket (content : String) (closed : ']' ∉ content.toList)

namespace Part

def text : Part → String
  | star => "*"
  | bracket content _ => "[" ++ content ++ "]"

def condition? : Part → Option String
  | star => none
  | bracket content _ =>
    if (Text.trim content).isEmpty then none else some (Text.trim content)

/-- The condition between the brackets has a meaning with this property; stars and blank brackets
have it. -/
def Meets (q : Expression → Prop) (p : Part) : Prop :=
  ∀ t ∈ p.condition?, ∃ e, Means t e ∧ q e

def Holds (truth : Test → Bool) (p : Part) : Prop :=
  p.Meets fun e => e.holds truth = true

def IsScaleFree (scaleAttributes : List String) (p : Part) : Prop :=
  ∀ t ∈ p.condition?, ∀ e, Means t e → ScaleBound.of? scaleAttributes e = none

def piece : Part → Piece
  | star => .outside '*'
  | bracket content _ => .bracket content.toList

end Part

def ofParts (parts : List Part) : String := String.join (parts.map Part.text)

theorem toList_ofParts_cons (p : Part) (parts : List Part) :
    (ofParts (p :: parts)).toList = p.text.toList ++ (ofParts parts).toList := by
  simp [ofParts]

theorem ofParts_append (parts more : List Part) :
    ofParts (parts ++ more) = ofParts parts ++ ofParts more := by
  simp [ofParts, String.join_append]

/-- A selector made of parts is cut into them. -/
theorem pieces_ofParts (parts : List Part) :
    pieces (ofParts parts).toList = parts.map Part.piece := by
  induction parts with
  | nil =>
    show pieces [] = []
    rw [pieces]
  | cons p parts ih =>
    rw [toList_ofParts_cons]
    cases p with
    | star =>
      show pieces ('*' :: (ofParts parts).toList) = _
      rw [pieces, if_neg (by simp), ih]
      rfl
    | bracket content closed =>
      have htext : (Part.bracket content closed).text.toList ++ (ofParts parts).toList =
          '[' :: (content.toList ++ ']' :: (ofParts parts).toList) := by simp [Part.text]
      rw [htext, pieces_bracket closed, ih]
      rfl

theorem conditionTexts_ofParts (parts : List Part) :
    conditionTexts (ofParts parts) = parts.filterMap Part.condition? := by
  rw [conditionTexts, contentsOf, pieces_ofParts, List.filterMap_map, List.filterMap_map,
    List.filterMap_filterMap]
  refine List.filterMap_congr fun p _ => ?_
  cases p with
  | star => rfl
  | bracket content closed => simp [Part.piece, Part.condition?, Text.trim]

/-- The conditions of a selector made of parts are those of the parts. -/
theorem everyCondition_ofParts_iff (q : Expression → Prop) (parts : List Part) :
    EveryCondition q (ofParts parts) ↔ ∀ p ∈ parts, p.Meets q := by
  rw [EveryCondition, conditionTexts_ofParts]
  simp only [Part.Meets, List.mem_filterMap, Option.mem_def]
  constructor
  · intro h p hp t ht
    exact h t ⟨p, hp, ht⟩
  · rintro h t ⟨p, hp, ht⟩
    exact h p hp t ht

section Choices

variable {leads : List (List Part)} {path : List (List (List Part))} {P : List Part → Prop}

/-- Every lead followed by every alternative. -/
def extend (leads alternatives : List (List Part)) : List (List Part) :=
  leads.flatMap fun lead => alternatives.map (lead ++ ·)

theorem mem_extend_iff {alternatives : List (List Part)} {parts : List Part} :
    parts ∈ extend leads alternatives ↔
      ∃ lead ∈ leads, ∃ others ∈ alternatives, lead ++ others = parts := by
  simp [extend, List.mem_flatMap]

theorem combine_ofParts (leads alternatives : List (List Part)) :
    Rule.combine (leads.map ofParts) (alternatives.map ofParts) =
      (extend leads alternatives).map ofParts := by
  simp only [Rule.combine, extend, List.flatMap_map, List.map_flatMap, List.map_map]
  refine List.flatMap_congr fun lead _ => List.map_congr_left fun parts _ => ?_
  exact (ofParts_append lead parts).symm

/-- The joined selectors of a path are made of one alternative at each level. -/
theorem foldl_combine_ofParts (path : List (List (List Part))) (leads : List (List Part)) :
    (path.map fun alternatives => alternatives.map ofParts).foldl Rule.combine
      (leads.map ofParts) = (path.foldl extend leads).map ofParts := by
  induction path generalizing leads with
  | nil => rfl
  | cons alternatives path ih =>
    rw [List.map_cons, List.foldl_cons, List.foldl_cons, combine_ofParts, ih]

/-- Some choice along a path has a property of all its parts if some alternative at each level
has it. -/
theorem exists_foldl_extend_iff (hP : ∀ parts more, P (parts ++ more) ↔ P parts ∧ P more)
    (path : List (List (List Part))) (leads : List (List Part)) :
    (∃ parts ∈ path.foldl extend leads, P parts) ↔
      (∃ lead ∈ leads, P lead) ∧ ∀ alternatives ∈ path, ∃ parts ∈ alternatives, P parts := by
  induction path generalizing leads with
  | nil => simp
  | cons alternatives path ih =>
    have hextend : (∃ parts ∈ extend leads alternatives, P parts) ↔
        (∃ lead ∈ leads, P lead) ∧ ∃ parts ∈ alternatives, P parts := by
      constructor
      · rintro ⟨_, hmem, h⟩
        obtain ⟨lead, hlead, parts, hparts, rfl⟩ := mem_extend_iff.mp hmem
        obtain ⟨hl, hp⟩ := (hP lead parts).mp h
        exact ⟨⟨lead, hlead, hl⟩, parts, hparts, hp⟩
      · rintro ⟨⟨lead, hlead, hl⟩, parts, hparts, hp⟩
        exact ⟨lead ++ parts, mem_extend_iff.mpr ⟨lead, hlead, parts, hparts, rfl⟩,
          (hP lead parts).mpr ⟨hl, hp⟩⟩
    rw [List.foldl_cons, ih, hextend, List.forall_mem_cons, and_assoc]

end Choices

section Paths

variable {scaleAttributes : List String} {path : List (List (List Part))} {s : Selection}
  {truth : Test → Bool} {p : Part}

/-- Where there is no scale bound, setting the bounds aside changes nothing. -/
theorem Part.IsScaleFree.meets_iff (h : p.IsScaleFree scaleAttributes) :
    (p.Meets fun e => ScaleBound.of? scaleAttributes e = none → e.holds truth = true) ↔
      p.Holds truth := by
  constructor
  · intro hmeets t ht
    obtain ⟨e, he, himp⟩ := hmeets t ht
    exact ⟨e, he, himp (h t ht e he)⟩
  · intro hholds t ht
    obtain ⟨e, he, htrue⟩ := hholds t ht
    exact ⟨e, he, fun _ => htrue⟩

theorem foldl_extend_ne_nil (h : ∀ alternatives ∈ path, alternatives ≠ []) :
    path.foldl extend [[]] ≠ [] := by
  have hall : ∀ alternatives ∈ path, ∃ parts ∈ alternatives, True := fun alternatives hmem => by
    simpa using List.exists_mem_of_ne_nil _ (h alternatives hmem)
  obtain ⟨parts, hparts, -⟩ :=
    (exists_foldl_extend_iff (P := fun _ => True) (fun _ _ => by simp) path [[]]).mpr
      ⟨⟨[], List.mem_singleton_self _, trivial⟩, hall⟩
  exact List.ne_nil_of_mem hparts

/-- The filter of nested blocks is true if at every level some alternative has all its bracketed
conditions true. -/
theorem holds_filter_path_iff (halternatives : ∀ alternatives ∈ path, alternatives ≠ [])
    (hscale : ∀ alternatives ∈ path, ∀ parts ∈ alternatives, ∀ p ∈ parts,
      p.IsScaleFree scaleAttributes)
    (hread : Selection.ofSelectors scaleAttributes
      ((path.map fun alternatives => alternatives.map ofParts).foldl Rule.combine [""]) = .ok s)
    (truth : Test → Bool) :
    (∀ f ∈ s.filter, f.holds truth = true) ↔
      ∀ alternatives ∈ path, ∃ parts ∈ alternatives, ∀ p ∈ parts, p.Holds truth := by
  have hjoined : (path.map fun alternatives => alternatives.map ofParts).foldl Rule.combine [""] =
      (path.foldl extend [[]]).map ofParts := foldl_combine_ofParts path [[]]
  rw [hjoined] at hread
  have hne : (path.foldl extend [[]]).map ofParts ≠ [] :=
    mt List.map_eq_nil_iff.mp (foldl_extend_ne_nil halternatives)
  rw [Selection.holds_filter_iff hne hread]
  simp only [List.mem_map, exists_exists_and_eq_and, everyCondition_ofParts_iff]
  rw [exists_foldl_extend_iff (fun _ _ => List.forall_mem_append)]
  have hlead : ∃ lead ∈ ([[]] : List (List Part)), ∀ p ∈ lead, p.Meets fun e =>
      ScaleBound.of? scaleAttributes e = none → e.holds truth = true :=
    ⟨[], List.mem_singleton_self _, nofun⟩
  rw [and_iff_right hlead]
  refine forall₂_congr fun alternatives halt => exists_congr fun parts => ?_
  refine and_congr_right fun hparts => forall₂_congr fun p hp => ?_
  exact (hscale alternatives halt parts hparts p hp).meets_iff

end Paths

section Towns

/-- The condition text of an expression that bounds no scale. -/
theorem Part.isScaleFree_of_condition {scaleAttributes : List String} {content : String}
    {inner : Char → Prop} {e : Expression} {closed : ']' ∉ content.toList}
    (he : IsCondition inner e) (htext : e.condition.toOption = some (Text.trim content))
    (hnone : ScaleBound.of? scaleAttributes e = none) :
    (Part.bracket content closed).IsScaleFree scaleAttributes := by
  obtain ⟨text, hcondition, -, hparse⟩ := exists_condition_eq he
  rw [hcondition] at htext
  obtain rfl := Option.some.inj htext
  intro t ht e' he'
  have ht : t = Text.trim content := by
    simp only [Part.condition?, Option.mem_def] at ht
    split at ht
    · cases ht
    · exact (Option.some.inj ht).symm
  subst ht
  rwa [means_unique he' (parse_eq_ok_iff_means.mp hparse)]

def largePlaces : List (List (List Part)) := [
  [[.bracket "kind = 'town'" (by decide)], [.bracket "kind is null" (by decide)]],
  [[.bracket "size > 2.5" (by decide)]]]

def largePlacesSelection : Selection where
  filter := some (.or [
    .and [.comparison .equal "kind" (.text "town"), .comparison .greater "size" (.number 2.5)],
    .and [.isNull "kind", .comparison .greater "size" (.number 2.5)]])

theorem isWritable_largePlaces :
    (Filter.comparison .equal "kind" (.text "town")).IsWritable (· ≠ ']') ["zoom"] ∧
      (Filter.isNull "kind").IsWritable (· ≠ ']') ["zoom"] ∧
      (Filter.comparison .greater "size" (.number 2.5)).IsWritable (· ≠ ']') ["zoom"] := by
  have hkindName : IsIdentifier "kind" :=
    isIdentifier_of_lower rfl rfl (by decide) (by decide) (by decide)
  have hsizeName : IsIdentifier "size" :=
    isIdentifier_of_lower rfl rfl (by decide) (by decide) (by decide)
  exact ⟨.comparison .equal hkindName (by decide)
      (FilterValue.isWritable_text (Or.inl (by decide)) (by decide)),
    .isNull hkindName (by decide),
    .comparison .greater hsizeName (by decide) (.number isNumber_five_halves)⟩

theorem ofSelectors_largePlaces :
    Selection.ofSelectors ["zoom"]
      ((largePlaces.map fun alternatives => alternatives.map ofParts).foldl Rule.combine [""]) =
        .ok largePlacesSelection := by
  obtain ⟨hkind, hnull, hsize⟩ := isWritable_largePlaces
  have hwritable : largePlacesSelection.IsWritable (· ≠ ']') ["zoom"] := by
    refine ⟨fun f hf => ?_, nofun⟩
    cases hf
    have hand {f : Filter} (hf : f.IsWritable (· ≠ ']') ["zoom"]) :
        (Filter.and [f, .comparison .greater "size" (.number 2.5)]).IsWritable (· ≠ ']') ["zoom"] :=
      .and (by simp) (List.forall_mem_cons.mpr ⟨hf, List.forall_mem_singleton.mpr hsize⟩)
    exact .or (by decide)
      (List.forall_mem_cons.mpr ⟨hand hkind, List.forall_mem_singleton.mpr (hand hnull)⟩)
  have hzoom : IsIdentifier "zoom" :=
    isIdentifier_of_lower rfl rfl (by decide) (by decide) (by decide)
  obtain ⟨sels, hsels, -, -, hread⟩ :=
    Selection.exists_selectors (not_not_intro rfl) hwritable hzoom (List.mem_singleton_self _)
  have hselectors : (largePlacesSelection.selectors "zoom").toOption =
      some ((largePlaces.map fun alternatives => alternatives.map ofParts).foldl
        Rule.combine [""]) := by decide +kernel
  rw [hsels] at hselectors
  obtain rfl := Option.some.inj hselectors
  exact hread

theorem holds_filter_largePlaces :
    (∀ f ∈ largePlacesSelection.filter, f.holds (fun t => t.property == "size") = true) ↔
      ∀ alternatives ∈ largePlaces, ∃ parts ∈ alternatives, ∀ p ∈ parts,
        p.Holds fun t => t.property == "size" := by
  obtain ⟨hkind, hnull, hsize⟩ := isWritable_largePlaces
  refine holds_filter_path_iff (by simp [largePlaces]) ?_ ofSelectors_largePlaces _
  simp only [largePlaces, List.mem_cons, List.not_mem_nil, or_false, forall_eq_or_imp, forall_eq]
  exact ⟨⟨Part.isScaleFree_of_condition hkind.isCondition (by decide +kernel) rfl,
    Part.isScaleFree_of_condition hnull.isCondition (by decide +kernel) rfl⟩,
    Part.isScaleFree_of_condition hsize.isCondition (by decide +kernel) rfl⟩

end Towns

end CartoStyle.Selector
