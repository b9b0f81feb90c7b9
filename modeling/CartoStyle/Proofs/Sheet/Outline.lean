import CartoStyle.Proofs.Sheet.Rendering

/-!
Outlines come back from their text. The tokens of a rule derive its block, those
of the directives carry their texts, and the parser accepts what derives.
-/

namespace CartoStyle.Sheet

variable {indent : String}

theorem body_of_properties {group level last next : Nat} {ts : List Token} {bs : List Block}
    {qs : List Property} (ps : PropertyList) (h : Body group level last ts qs bs next) :
    Body group level last (ps.map (fun e => .property ⟨e.1, e.2⟩) ++ ts)
      (ps.map (fun e => ⟨e.1, e.2⟩) ++ qs) bs next := by
  induction ps with
  | nil => exact h
  | cons e ps ih => exact ih.property ⟨e.1, e.2⟩

theorem declared_map (ps : PropertyList) :
    declared (ps.map fun e => ⟨e.1, e.2⟩) = KeyMap.ofList ps := by
  simp [declared, List.map_map, Function.comp_def]

/-- The parts of a rule derive the children of its block. -/
theorem body_of_parts (group last : Nat) (ps : List OutlinePart) :
    Body group 2 last (ps.flatMap OutlinePart.tokens) []
      (ps.mapIdx fun i p => p.block group (last + 1 + i)) (last + ps.length) := by
  induction ps generalizing last with
  | nil => exact .nil
  | cons p ps ih =>
    have hinner := body_of_properties p.properties
      (.nil : Body group 3 (last + 1) [] [] [] (last + 1))
    simp only [List.append_nil] at hinner
    have hheader : IsHeader [.pseudoSelector (":" ++ p.part)] :=
      ⟨by simp [Token.isHeader], _, List.mem_singleton_self _, _, rfl, by simp⟩
    have hblock := Body.block hheader hinner (ih (last + 1))
    rw [declared_map] at hblock
    have hselectors : alternativesOf [.pseudoSelector (":" ++ p.part)] = [":" ++ p.part] := by
      simp [alternativesOf_eq_filter, piecesFrom_cons, piecesFrom_nil, Token.asSelector?]
    have htitle : titleOf? [.pseudoSelector (":" ++ p.part)] = none := rfl
    rw [hselectors, htitle] at hblock
    have hnumbers : (fun i (q : OutlinePart) => q.block group (last + 1 + (i + 1))) =
        fun i q => q.block group (last + 1 + 1 + i) := by
      funext i q
      rw [show last + 1 + (i + 1) = last + 1 + 1 + i by omega]
    have hlast : last + (ps.length + 1) = last + 1 + ps.length := by omega
    rw [List.mapIdx_cons, hnumbers, List.length_cons, hlast]
    simpa [OutlinePart.tokens, OutlinePart.block] using hblock

def OutlineRule.tokens (r : OutlineRule) (header : List Token) : List Token :=
  header ++ .openBrace :: ((r.properties.map (fun e => .property ⟨e.1, e.2⟩) ++
    r.parts.flatMap OutlinePart.tokens) ++ [.closeBrace])

theorem Lexes.rule {r : OutlineRule} (hr : r.Writable IsGuarded) (hindent : IsIndent indent)
    {rest : List Char} {ts header : List Token}
    (hheader : ∀ rest ts, rest.head? ≠ some ':' → Lexes rest ts →
      Lexes (r.head.toList ++ rest) (header ++ ts))
    (h : Lexes rest ts) :
    Lexes ((r.render indent).toList ++ rest) (r.spread.tokens header ++ ts) := by
  have hclose := h.newline.closeBrace (by simp)
  have hbody := (hclose.parts hr.parts hindent).properties hr.properties hindent
  have hline := hheader _ _ (by simp) (hbody.newline.openBrace.space (by simp))
  simpa [OutlineRule.render, OutlineRule.head, OutlineRule.tokens, OutlineRule.spread] using hline

/-- The tokens of a rule derive its block. -/
theorem items_of_rule {r : OutlineRule} {group : Nat} {header ts : List Token} {bs : List Block}
    (hheader : IsHeader header) (hselectors : alternativesOf header = r.selectors)
    (htitle : titleOf? header = r.title) (h : Items (group + 1) ts bs) :
    Items group (r.tokens header ++ ts) (r.block group :: bs) := by
  have hbody := body_of_properties r.properties (body_of_parts group 1 r.parts)
  rw [List.append_nil] at hbody
  have hblock := Items.block hheader hbody h
  rw [declared_map, hselectors, htitle] at hblock
  simpa [OutlineRule.tokens, OutlineRule.block] using hblock

theorem not_directive_of_mem_tokens {r : OutlineRule} {header : List Token}
    (hheader : IsHeader header) : ∀ t ∈ r.tokens header, t.isDirective = false := by
  have hbody := body_of_properties r.properties (body_of_parts 0 1 r.parts)
  intro t ht
  rcases List.mem_append.mp ht with ht | ht
  · exact hheader.not_directive t ht
  · rcases List.mem_cons.mp ht with rfl | ht
    · rfl
    · rcases List.mem_append.mp ht with ht | ht
      · exact hbody.not_directive t ht
      · rw [List.mem_singleton.mp ht]
        rfl

/-- The texts of some rules, with something in front of each but possibly the first, are
tokens that derive their blocks. -/
theorem lexes_rules {rules : List OutlineRule} (hrules : ∀ r ∈ rules, r.Writable IsGuarded)
    (hindent : IsIndent indent) (group : Nat) :
    ∃ ts, (∀ t ∈ ts, t.isDirective = false) ∧
      Items group ts (rules.mapIdx fun i r => r.spread.block (group + i)) ∧
      Lexes (String.join (rules.map fun r => "\n" ++ r.render indent)).toList ts ∧
      Lexes ("\n".intercalate (rules.map (OutlineRule.render indent))).toList ts := by
  induction rules generalizing group with
  | nil => exact ⟨[], by simp, .nil, lexes_nil, lexes_nil⟩
  | cons r rules ih =>
    have hr := hrules r List.mem_cons_self
    obtain ⟨ts, hts, hitems, hlines, hbetween⟩ :=
      ih (fun q hq => hrules q (List.mem_cons_of_mem r hq)) (group + 1)
    obtain ⟨header, hheader, hselectors, htitle, hlexes⟩ := hr.exists_header
    have hnumbers : (fun i (q : OutlineRule) => q.spread.block (group + (i + 1))) =
        fun i q => q.spread.block (group + 1 + i) := by
      funext i q
      rw [show group + (i + 1) = group + 1 + i by omega]
    have hderives := items_of_rule (r := r.spread) hheader hselectors htitle hitems
    refine ⟨r.spread.tokens header ++ ts, ?_, ?_, ?_, ?_⟩
    · intro t ht
      rcases List.mem_append.mp ht with ht | ht
      · exact not_directive_of_mem_tokens hheader t ht
      · exact hts t ht
    · rw [List.mapIdx_cons, hnumbers]
      exact hderives
    · have hline := (hlines.rule hr hindent hlexes).newline
      simpa using hline
    · cases rules with
      | nil =>
        have hline := hbetween.rule hr hindent hlexes
        simpa using hline
      | cons q rules =>
        have hline := hbetween.newline.rule hr hindent hlexes
        rw [List.map_cons, String.intercalate_cons_of_ne_nil (by simp)]
        simpa using hline

/-- The outline keeps its shape in the text that it is written into. -/
structure Outline.IsRenderable (o : Outline) : Prop where
  mode : ∀ t ∈ o.mode, ';' ∉ t.toList
  title : ∀ t ∈ o.title, ';' ∉ t.toList
  abstract : ∀ t ∈ o.abstract, ';' ∉ t.toList
  rules : ∀ r ∈ o.rules, r.Writable IsGuarded

def Outline.unquoted (o : Outline) : Outline :=
  { o with mode := o.mode.map Sheet.unquoted, title := o.title.map Sheet.unquoted,
           abstract := o.abstract.map Sheet.unquoted }

theorem Outline.Writable.isRenderable {o : Outline} (h : o.Writable IsGuarded) :
    o.IsRenderable where
  mode t ht := (h.mode t ht).no_semicolon
  title t ht := (h.title t ht).no_semicolon
  abstract t ht := (h.abstract t ht).no_semicolon
  rules := h.rules

theorem map_unquoted {text : Option String} (h : ∀ t, text = some t → IsDirectiveText t) :
    text.map Sheet.unquoted = text := by
  cases text with
  | none => rfl
  | some t => rw [Option.map_some, (h t rfl).unquoted_eq]

theorem Outline.Writable.unquoted_eq {form : String → Prop} {o : Outline} (h : o.Writable form) :
    o.unquoted = o := by
  rw [Outline.unquoted, map_unquoted h.mode, map_unquoted h.title, map_unquoted h.abstract]

def Outline.directiveTokens (o : Outline) : List Token :=
  o.mode.toList.map .mode ++ (o.title.toList.map .styleTitle ++
    o.abstract.toList.map .styleAbstract)

theorem Lexes.outlineDirectives {o : Outline} (ho : o.IsRenderable) {rest : List Char}
    {ts : List Token} (h : Lexes rest ts) :
    Lexes (o.directives.toList ++ rest) (o.unquoted.directiveTokens ++ ts) := by
  have hkind : (.mode, "@mode") ∈ Token.directiveKinds ∧
      (.styleTitle, "@styleTitle") ∈ Token.directiveKinds ∧
      (.styleAbstract, "@styleAbstract") ∈ Token.directiveKinds := by decide
  have habstract := h.directiveLine hkind.2.2 (fun _ => rfl) ho.abstract
  have htitle := habstract.directiveLine hkind.2.1 (fun _ => rfl) ho.title
  have hmode := htitle.directiveLine hkind.1 (fun _ => rfl) ho.mode
  simpa [Outline.directives, Outline.directiveTokens, Outline.unquoted] using hmode

theorem items_of_directives {group : Nat} {ds ts : List Token} {bs : List Block}
    (hds : ∀ t ∈ ds, t.isDirective = true) (h : Items group ts bs) : Items group (ds ++ ts) bs := by
  induction ds with
  | nil => exact h
  | cons t ds ih =>
    exact .directive (hds t List.mem_cons_self) (ih fun u hu => hds u (List.mem_cons_of_mem t hu))

theorem ofTokens_directiveTokens {o : Outline} {ts : List Token}
    (hts : ∀ t ∈ ts, t.isDirective = false) :
    Directives.ofTokens (o.directiveTokens ++ ts) = o.sheet.directives := by
  rw [Directives.ofTokens_eq_foldl, List.foldl_append, Directives.foldl_push_of_none _ hts,
    Outline.directiveTokens]
  cases hmode : o.mode <;> cases htitle : o.title <;> cases habstract : o.abstract <;>
    simp [Directives.push, Outline.sheet, hmode, htitle, habstract]

/-- The text of an outline consists of tokens that derive its stylesheet. -/
theorem exists_lexes_render {o : Outline} (ho : o.IsRenderable) (hindent : IsIndent indent) :
    ∃ ts, Lexes (o.render indent).toList ts ∧ Derives ts o.unquoted.spread.sheet := by
  obtain ⟨ts, hts, hitems, hlines, hbetween⟩ := lexes_rules ho.rules hindent 0
  simp only [Nat.zero_add] at hitems
  have hdirectives : ∀ t ∈ o.unquoted.directiveTokens, t.isDirective = true := by
    intro t ht
    simp only [Outline.directiveTokens, List.mem_append, List.mem_map] at ht
    rcases ht with ⟨_, -, rfl⟩ | ⟨_, -, rfl⟩ | ⟨_, -, rfl⟩ <;> rfl
  have hblocks : o.unquoted.spread.sheet.blocks = o.rules.mapIdx fun i r => r.spread.block i := by
    simp [Outline.sheet, Outline.spread, Outline.unquoted, List.mapIdx_eq_iff, Function.comp_def]
  rw [← hblocks] at hitems
  have hderives : Derives (o.unquoted.directiveTokens ++ ts) o.unquoted.spread.sheet :=
    ⟨items_of_directives hdirectives hitems,
      (ofTokens_directiveTokens (o := o.unquoted) hts).symm⟩
  refine ⟨o.unquoted.directiveTokens ++ ts, ?_, hderives⟩
  have hwithLines := hlines.outlineDirectives ho
  have hwithBetween := hbetween.outlineDirectives ho
  by_cases hempty : o.directives.isEmpty = true
  · rw [String.isEmpty_iff.mp hempty] at hwithBetween
    simpa [Outline.render, hempty] using hwithBetween
  · simpa [Outline.render, hempty, Function.comp_def] using hwithLines

/-- An outline is read back from its text with the values and the texts of directives that its
texts are read into. -/
theorem parse_of_isRenderable {o : Outline} (ho : o.IsRenderable) (hindent : IsIndent indent) :
    Stylesheet.parse (o.render indent) = .ok o.unquoted.spread.sheet := by
  obtain ⟨ts, hlexes, hderives⟩ := exists_lexes_render ho hindent
  exact Stylesheet.parse_of_derives hlexes hderives

/-- An outline whose directives keep their texts is read back with the values that its texts are
read into. -/
theorem parse_of_guarded {o : Outline} (ho : o.Writable IsGuarded) (hindent : IsIndent indent) :
    Stylesheet.parse (o.render indent) = .ok o.spread.sheet := by
  rw [parse_of_isRenderable ho.isRenderable hindent, ho.unquoted_eq]

/-- A writable outline is read back from its text. -/
theorem parse_of_writable {o : Outline} (ho : o.Writable IsValue) (hindent : IsIndent indent) :
    Stylesheet.parse (o.render indent) = .ok o.sheet := by
  have hguarded : o.Writable IsGuarded := ho.mono fun _ hv => hv.guarded
  rw [parse_of_guarded hguarded hindent, ho.spread_eq]

/-- No key stands twice in a list of properties. -/
structure Outline.DistinctKeys (o : Outline) : Prop where
  rules : ∀ r ∈ o.rules, (r.properties.map Prod.fst).Nodup
  parts : ∀ r ∈ o.rules, ∀ p ∈ r.parts, (p.properties.map Prod.fst).Nodup

/-- A writable outline is read back from its text with its directives and with a block for
every rule; if no key is repeated, the blocks hold exactly the properties that were written. -/
theorem Stylesheet.parse_render {o : Outline} (ho : o.Writable IsValue) (hkeys : o.DistinctKeys)
    (hindent : IsIndent indent) :
    Stylesheet.parse (o.render indent) = .ok o.sheet ∧
      ∀ r ∈ o.rules, (KeyMap.ofList r.properties).entries.Perm r.properties ∧
        ∀ p ∈ r.parts, (KeyMap.ofList p.properties).entries.Perm p.properties := by
  refine ⟨parse_of_writable ho hindent, fun r hr => ⟨?_, fun p hp => ?_⟩⟩
  · exact KeyMap.entries_ofList_perm (hkeys.rules r hr)
  · exact KeyMap.entries_ofList_perm (hkeys.parts r hr p hp)

def roadOutline : Outline where
  mode := some "Flat"
  title := some "Roads"
  rules := [{
    selectors := ["[class = 'a; b'][@scale > 10]", "*"]
    title := some "Major roads"
    properties := [("stroke", ["symbol('circle')", "#ff0000"]), ("label", ["[name] ', \x7b'"])]
    parts := [{ part := "nth-stroke(1)", properties := [("fill", ["#00ff00"])] }] }]

theorem isValue_of_checks {value : String} (hne : value ≠ "")
    (hfirst : value.toList.head?.all (!Text.isBlank ·) = true)
    (hlast : value.toList.getLast?.all (!Text.isBlank ·) = true)
    (hguarded : isGuarded none value.toList = true)
    (hwhole : Text.splitTop ',' value.toList = [value.toList])
    (hclosed : Text.Nesting.top.after value.toList = .top) : IsValue value where
  ne_empty := hne
  trimmed := .of_all hfirst hlast
  guarded := hguarded
  part := ⟨hwhole, hclosed⟩

theorem isSelector_conditions : IsSelector "[class = 'a; b'][@scale > 10]" :=
  ⟨["[class = 'a; b']".toList, "[@scale > 10]".toList], by decide,
    List.forall_mem_cons.mpr ⟨Or.inr ⟨"class = 'a; b'".toList, by decide, by decide⟩,
      List.forall_mem_cons.mpr ⟨Or.inr ⟨"@scale > 10".toList, by decide, by decide⟩,
        List.forall_mem_nil _⟩⟩, by decide⟩

theorem writable_roadOutline : roadOutline.Writable IsValue := by
  have hvalue : ∀ v ∈ ["symbol('circle')", "#ff0000", "[name] ', \x7b'", "#00ff00"], IsValue v := by
    simp only [List.forall_mem_cons, List.not_mem_nil, false_implies, implies_true, and_true]
    refine ⟨?_, ?_, ?_, ?_⟩ <;>
      exact isValue_of_checks (by decide) (by decide) (by decide) (by decide) (by decide)
        (by decide)
  have hkey : ∀ k ∈ ["stroke", "label", "fill"], Token.IsKey k := fun k hk =>
    ⟨k, by revert k; decide, [], by simp, by simp⟩
  have hstar : IsSelector "*" := ⟨[['*']], by decide, by simp [IsPiece], by decide⟩
  have hpart : (⟨"nth-stroke(1)", [("fill", ["#00ff00"])]⟩ : OutlinePart).Writable IsValue :=
    ⟨by decide, List.all_eq_true.mp (by decide), by simp [hkey], by simp [hvalue]⟩
  have htitle : IsTitleText "Major roads" :=
    isTitleText_of_checks (by decide) (by decide) (by decide)
  refine ⟨?_, ?_, nofun, ?_⟩
  · rintro t ⟨⟩
    exact ⟨by decide, .of_all (by decide) (by decide)⟩
  · rintro t ⟨⟩
    exact ⟨by decide, .of_all (by decide) (by decide)⟩
  · intro r hr
    obtain rfl := List.mem_singleton.mp hr
    refine ⟨by simp, ?_, ?_, ⟨?_, ?_⟩, ?_⟩
    · simp [isSelector_conditions, hstar]
    · rintro t ⟨⟩
      exact htitle
    · simp [hkey]
    · simp [hvalue]
    · simp [hpart]

theorem parse_render_roadOutline :
    roadOutline.Writable IsValue ∧ roadOutline.DistinctKeys ∧ IsIndent " \t" ∧
      Stylesheet.parse (roadOutline.render " \t") = .ok roadOutline.sheet := by
  have hkeys : roadOutline.DistinctKeys := ⟨by decide, by decide⟩
  have hindent : IsIndent " \t" := by simp [IsIndent]
  exact ⟨writable_roadOutline, hkeys, hindent,
    (Stylesheet.parse_render writable_roadOutline hkeys hindent).1⟩

end CartoStyle.Sheet
