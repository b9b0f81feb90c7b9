import CartoStyle.Proofs.Style.Arrangement
import CartoStyle.Proofs.Style.Selector

/-!
Rules and the outlines they are written as. The outline of a rule can be written into a
stylesheet, and its record gives the rule back: the title its name, the selectors its filter
and its scale range, and the rows and parts its symbolizers.
-/

namespace CartoStyle.Style

open CartoStyle.Rule Sheet PropertyValue

def isFilterChar (c : Char) : Prop := c ≠ ']' ∧ c ≠ '\n'

structure Rule.IsWritable (scaleAttributes : List String) (r : Rule) : Prop where
  name : IsTitleText r.name
  selection : Selection.IsWritable isFilterChar scaleAttributes
    { filter := r.filter, scale := r.scale }
  symbolizers : ∀ s ∈ r.symbolizers, s.IsWritable

/-- The outline is that of the rule, with the rows of its symbolizers as entries. -/
structure Rule.IsOutlinedBy (scaleAttributes : List String) (r : Rule) (o : OutlineRule)
    (es : List Entry) : Prop where
  entries : List.Forall₂ IsWrittenBy (layOut r.symbolizers) es
  properties : o.properties = mergeProperties es
  parts : o.parts = mergeParts es
  title : (o.title.filter (!·.isEmpty)).getD "" = r.name
  titleText : ∀ t, o.title = some t → IsTitleText t
  selectors_ne_nil : o.selectors ≠ []
  selectors : ∀ selector ∈ o.selectors, Selector.IsBracketed isFilterChar selector
  selection : Selection.ofSelectors scaleAttributes o.selectors =
    .ok { filter := r.filter, scale := r.scale }

section Names

/-- A name that is left out where it is empty comes back. -/
theorem getD_name (name : String) :
    (if name.isEmpty then none else some name).getD "" = name := by
  by_cases hempty : name.isEmpty = true
  · simp [String.isEmpty_iff.mp hempty]
  · simp [hempty]

theorem getD_filter_name (name : String) :
    ((if name.isEmpty then none else some name).filter (!·.isEmpty)).getD "" = name := by
  by_cases hempty : name.isEmpty = true
  · simp [String.isEmpty_iff.mp hempty]
  · simp [hempty, Option.filter]

theorem eq_of_name_eq_some {name t : String}
    (h : (if name.isEmpty then none else some name) = some t) : t = name := by
  by_cases hempty : name.isEmpty = true <;> simp [hempty] at h
  exact h.symm

end Names

section Writing

variable {scaleAttributes : List String} {name : String} {r : Rule} {o : OutlineRule}
  {es : List Entry}

structure Rule.HasOutline (r : Rule) (name : String) (o : OutlineRule) (es : List Entry) :
    Prop where
  entries : (layOut r.symbolizers).mapM rowEntry = .ok es
  properties : o.properties = mergeProperties es
  parts : o.parts = mergeParts es
  title : (o.title.filter (!·.isEmpty)).getD "" = r.name
  titleText : ∀ t, o.title = some t → t = r.name
  selectors : Selection.selectors { filter := r.filter, scale := r.scale } name = .ok o.selectors

theorem Rule.exists_hasOutline {group : Nat} (h : r.outline name group = .ok o) :
    ∃ es, r.HasOutline name o es := by
  rw [Rule.outline] at h
  obtain ⟨sels, hsels, h⟩ := bind_eq_ok_iff.mp h
  obtain ⟨es, hrows, h⟩ := bind_eq_ok_iff.mp h
  obtain rfl := Except.ok.inj h
  exact ⟨es, hrows, rfl, rfl, getD_filter_name r.name, fun t ht => eq_of_name_eq_some ht, hsels⟩

theorem Rule.exists_isOutlinedBy (h : r.IsWritable scaleAttributes)
    (hname : Condition.IsIdentifier name) (hmem : name ∈ scaleAttributes) (group : Nat) :
    ∃ o es, r.outline name group = .ok o ∧ r.IsOutlinedBy scaleAttributes o es := by
  have hinner : ¬ isFilterChar ']' := fun hclose => hclose.1 rfl
  obtain ⟨sels, hsels, hne, hbracketed, hread⟩ :=
    Selection.exists_selectors hinner h.selection hname hmem
  obtain ⟨es, hentries⟩ := exists_entries h.symbolizers
  have hrows : (layOut r.symbolizers).mapM rowEntry = .ok es :=
    mapM_eq_ok_iff.mpr (hentries.imp fun _ _ hrow => hrow.entry)
  refine ⟨_, es, by rw [Rule.outline, hsels, hrows]; rfl, hentries, rfl, rfl,
    getD_filter_name r.name, fun t ht => ?_, hne, hbracketed, hread⟩
  rw [eq_of_name_eq_some ht]
  exact h.name

theorem isGuarded_of_isListing {text : String} (h : IsListing text) : IsGuarded text := by
  obtain ⟨ts, -, hts, rfl⟩ := h
  rw [IsGuarded, String.toList_intercalate]
  refine isGuarded_intercalate (by decide) ?_
  exact List.forall_mem_map.mpr fun t ht => (hts t ht).isValue.guarded

theorem isGuarded_of_isCell {p : String × String} (h : IsCell p) : IsGuarded p.2 := by
  obtain ⟨-, hcell⟩ := h
  split at hcell
  · exact isGuarded_of_isListing hcell
  · exact hcell.isValue.guarded

/-- What is written for a key is a value of some row, or the word for an absent one. -/
theorem mem_mergeValues {key v : String} (h : v ∈ mergeValues es key) :
    v = "none" ∨ ∃ e ∈ es, (key, v) ∈ e.properties := by
  have hlookup (hmem : some v ∈ es.map (·.properties.lookup key)) :
      ∃ e ∈ es, (key, v) ∈ e.properties := by
    obtain ⟨e, he, hlookup⟩ := List.mem_map.mp hmem
    obtain ⟨before, after, hsplit, -⟩ := List.lookup_eq_some_iff.mp hlookup
    exact ⟨e, he, by simp [hsplit]⟩
  by_cases hkey : key ∈ listKeys
  · have hlist : listKeys.contains key = true := by simpa using hkey
    rw [mergeValues, if_pos hlist] at h
    obtain ⟨_, hmem, rfl⟩ := List.mem_filterMap.mp (List.mem_of_mem_take h)
    exact Or.inr (hlookup hmem)
  · rw [mergeValues_eq_collapse hkey] at h
    exact (mem_collapse h).imp_right hlookup

/-- The outline of a rule merges these entries, and nothing in it is taken for anything else when
the rule stands in a stylesheet. -/
structure Merges (inner : Char → Prop) (o : OutlineRule) (es : List Entry) : Prop where
  properties : o.properties = mergeProperties es
  parts : o.parts = mergeParts es
  titleText : ∀ t, o.title = some t → IsTitleText t
  selectors_ne_nil : o.selectors ≠ []
  selectors : ∀ selector ∈ o.selectors, Selector.IsBracketed inner selector
  lines : o.parts ≠ [] → ¬ inner '\n'
  guarded : ∀ e ∈ es, ∀ p ∈ e.properties, Token.IsKey p.1 ∧ IsGuarded p.2
  steady : ∀ e ∈ es, e.HasSteadyParts
  body : ∀ e ∈ es, e.parts ≠ [] → e.properties ≠ []

theorem isPropertyList_mergeProperties
    (h : ∀ e ∈ es, ∀ p ∈ e.properties, Token.IsKey p.1 ∧ IsGuarded p.2) :
    IsPropertyList IsGuarded (mergeProperties es) where
  keys := List.forall_mem_map.mpr fun key hkey => by
    obtain ⟨e, he, hmem⟩ := List.mem_flatMap.mp (List.mem_eraseDups.mp hkey)
    obtain ⟨p, hp, rfl⟩ := List.mem_map.mp hmem
    exact (h e he p hp).1
  values := List.forall_mem_map.mpr fun key _ v hv => by
    rcases mem_mergeValues hv with rfl | ⟨e, he, hp⟩
    · exact isValue_none.guarded
    · exact (h e he _ hp).2

/-- The names of the parts that the rows speak about. -/
theorem part_mem_partNames (hsteady : ∀ e ∈ es, e.HasSteadyParts) {p : OutlinePart}
    (hp : p ∈ mergeParts es) : p.part ∈ partNames := by
  obtain ⟨⟨e, he, x, hx, hpart⟩, -⟩ := mem_mergeParts_iff.mp hp
  rw [← hpart]
  exact (hsteady e he x hx).1

theorem writable_of_mem_mergeParts (hsteady : ∀ e ∈ es, e.HasSteadyParts) {p : OutlinePart}
    (hp : p ∈ mergeParts es) : p.Writable IsGuarded := by
  have hnames : ∀ part ∈ partNames, part ≠ "" ∧ part.toList.all isPartChar = true := by decide
  obtain ⟨hne, hchars⟩ := hnames p.part (part_mem_partNames hsteady hp)
  refine ⟨hne, List.all_eq_true.mp hchars, ?_⟩
  obtain ⟨-, hmerged⟩ := mem_mergeParts_iff.mp hp
  rw [hmerged]
  constructor
  · refine List.forall_mem_map.mpr fun key hkey => ?_
    obtain ⟨e, he, hsome⟩ := mem_partKeysOf_iff.mp hkey
    obtain ⟨v, hv⟩ := isSome_partValue?_iff.mp hsome
    exact isKey_of_isRowKey (hsteady e he _ hv).2.1
  · refine List.forall_mem_map.mpr fun key _ v hv => ?_
    exact (isValue_of_mem_collapse (fun w hw =>
      (isSteady_of_mem_partValues hsteady hw).2) v hv).guarded

/-- The outline of a rule can be written into a stylesheet. -/
theorem Merges.writable {inner : Char → Prop} (h : Merges inner o es) : o.Writable IsGuarded where
  selectors_ne_nil := h.selectors_ne_nil
  selectors selector hselector := (h.selectors selector hselector).isSelector
  title := h.titleText
  properties := by
    rw [h.properties]
    exact isPropertyList_mergeProperties h.guarded
  parts := by
    rw [h.parts]
    exact fun p hp => writable_of_mem_mergeParts h.steady hp

/-- A star or some conditions in brackets speak about no part. -/
theorem parse?_of_isBracketed {inner : Char → Prop} {selector : String}
    (h : Selector.IsBracketed inner selector) : PseudoSelector.parse? selector = none := by
  by_cases hstar : selector = "*"
  · rw [hstar]
    decide
  · exact PseudoSelector.parse?_eq_none (Or.inr rfl) (h.getLast?_eq hstar)

/-- The outline of a rule has a record that its parts can be told from. -/
theorem Merges.isRecordable {inner : Char → Prop} (h : Merges inner o es) :
    IsRecordable o.spread where
  body := by
    by_cases hparts : ∃ e ∈ es, e.parts ≠ []
    · left
      obtain ⟨e, he, hparts⟩ := hparts
      obtain ⟨p, hp⟩ := List.exists_mem_of_ne_nil _ (h.body e he hparts)
      have hkey : p.1 ∈ keysOf es := by
        rw [keysOf, List.mem_eraseDups, List.mem_flatMap]
        exact ⟨e, he, List.mem_map_of_mem hp⟩
      have hkeys := List.ne_nil_of_mem hkey
      rw [OutlineRule.spread, h.properties]
      simpa [Sheet.spread, mergeProperties, keysOf] using hkeys
    · right
      have hnone : mergeParts es = [] := by
        refine List.eq_nil_iff_forall_not_mem.mpr fun p hp => hparts ?_
        obtain ⟨⟨e, he, x, hx, -⟩, -⟩ := mem_mergeParts_iff.mp hp
        exact ⟨e, he, List.ne_nil_of_mem hx⟩
      rw [OutlineRule.spread, h.parts, hnone]
      rfl
  selectors_ne_nil := h.selectors_ne_nil
  plain selector hselector := parse?_of_isBracketed (h.selectors selector hselector)
  lines hparts selector hselector := by
    refine (h.selectors selector hselector).not_mem_newline (h.lines ?_)
    simpa [OutlineRule.spread] using hparts
  names := by
    have hnames : ∀ part ∈ partNames, part.toList ≠ [] ∧ part.toList.all Char.isAlpha = true ∧
      part.toList.map Char.toLower = part.toList := by decide
    rw [OutlineRule.spread, h.parts]
    refine List.forall_mem_map.mpr fun p hp => ?_
    obtain ⟨hne, hletters, hlower⟩ := hnames p.part (part_mem_partNames h.steady hp)
    exact ⟨hne, List.all_eq_true.mp hletters, Text.toLower_eq_self hlower⟩

theorem Rule.IsOutlinedBy.merges (h : r.IsOutlinedBy scaleAttributes o es) :
    Merges isFilterChar o es where
  properties := h.properties
  parts := h.parts
  titleText := h.titleText
  selectors_ne_nil := h.selectors_ne_nil
  selectors := h.selectors
  lines _ hline := hline.2 rfl
  guarded e he p hp := by
    have hcell := (isSteady_of_entries h.entries e he).properties p hp
    exact ⟨hcell.1, isGuarded_of_isCell hcell⟩
  steady e he := (isSteady_of_entries h.entries e he).parts
  body e he _ hnil := by
    obtain ⟨row, -, hwritten⟩ := exists_of_forall₂ h.entries he
    obtain ⟨key, -, hsome⟩ := hwritten.anchored
    rw [hnil] at hsome
    cases hsome

end Writing

section Reading

variable {scaleAttributes : List String} {r : Rule} {o : OutlineRule} {es : List Entry}
  {s : Stylesheet} {rules : List OutlineRule} {i index : Nat}

theorem part_eq_of_agree (hsame : SharesParts es) (hindex : index < es.length) {part : String}
    (hpart : part ∈ partNames) (key : String) :
    (es[index].partValue? part key).or (firstPartValue? es part key) =
      es[index].partValue? part key := by
  have hmem := List.getElem_mem hindex
  have hfirst : firstPartValue? es part key = es[index].partValue? part key :=
    findSome?_eq_of_agree (fun e he => Or.inr (hsame e he _ hmem part hpart key))
      fun _ => ⟨_, hmem, rfl⟩
  rw [hfirst, Option.or_self]

/-- A row of a rule looks up what it said about a part, and else what the first row said. -/
theorem value?_mergeParts (hblocks : s.blocks = rules.mapIdx fun i r => r.block i)
    (hrules : ∀ r ∈ rules, IsRecordable r) (hr : rules[i]? = some o.spread)
    (hparts : o.parts = mergeParts es) (hsteady : ∀ e ∈ es, e.HasSteadyParts)
    (hindex : index < es.length) (part key : String) :
    (Parts.ofRecords (recordOf o.spread i) (Records.ofSheet s).pseudo).value? part index key =
      (es[index].partValue? part key).or (firstPartValue? es part key) := by
  have hmerged : ∀ p ∈ o.spread.parts, ∃ q ∈ mergeParts es, p = q.spread := by
    intro p hp
    rw [OutlineRule.spread, hparts] at hp
    obtain ⟨q, hq, rfl⟩ := List.mem_map.mp hp
    exact ⟨q, hq, rfl⟩
  refine value?_ofRecords hblocks hrules hr (fun p hp => ?_) (fun p hp hpart id => ?_) fun hv => ?_
  · obtain ⟨q, hq, rfl⟩ := hmerged p hp
    have hnames : ∀ part ∈ partNames, part ≠ "symbol" := by decide
    exact hnames q.part (part_mem_partNames hsteady hq)
  · obtain ⟨q, hq, rfl⟩ := hmerged p hp
    obtain ⟨hused, hq⟩ := mem_mergeParts_iff.mp hq
    have hpart : q.part = part := hpart
    rw [hpart] at hused hq
    have hrows : (partRecordOf o.spread i q.spread id).rows = splitRows (partMap es part) := by
      rw [partRecordOf, hq]
      rfl
    rw [Record.get?_rowFor? hrows (isEven_partMap hsteady part) (isEmpty_partMap hused) hindex,
      get?_rowAt_partMap hsteady hindex]
  · obtain ⟨v, hv⟩ := Option.isSome_iff_exists.mp hv
    have hsaid : ∃ e ∈ es, e.partValue? part key = some v := by
      rcases Option.or_eq_some_iff.mp hv with hown | ⟨-, hfirst⟩
      · exact ⟨_, List.getElem_mem hindex, hown⟩
      · exact exists_of_firstPartValue? hfirst
    obtain ⟨e, he, hvalue⟩ := hsaid
    refine ⟨(mergePart es part).spread, ?_, rfl⟩
    rw [OutlineRule.spread, hparts]
    exact List.mem_map_of_mem
      (mem_mergeParts_iff.mpr ⟨⟨e, he, _, mem_of_partValue? hvalue, rfl⟩, rfl⟩)

/-- The record of the outline of a rule is read as the rule, without repeated symbolizers. -/
theorem Rule.IsOutlinedBy.ofRecord_eq {settings : Settings}
    (h : r.IsOutlinedBy settings.scaleAttributes o es)
    (hwritable : ∀ s ∈ r.symbolizers, s.IsWritable)
    (hshares : SharesLists (layOut r.symbolizers)) (hsame : SharesParts es)
    (hblocks : s.blocks = rules.mapIdx fun i r => r.block i)
    (hrules : ∀ r ∈ rules, IsRecordable r) (hr : rules[i]? = some o.spread) :
    Rule.ofRecord settings (Records.ofSheet s).pseudo (recordOf o.spread i) =
      .ok { r with symbolizers := distinct r.symbolizers } := by
  have hrows : (recordOf o.spread i).rows = splitRows (mergedMap es) := by
    rw [recordOf, OutlineRule.spread, h.properties]
    rfl
  have hselection : Selection.ofSelectors settings.scaleAttributes (recordOf o.spread i).selectors =
    .ok { filter := r.filter, scale := r.scale } := h.selection
  have htitle : (recordOf o.spread i).title.getD "" = r.name := h.title
  have hread := mapM_symbolizersOf h.entries hshares hsame fun index hindex part hpart key =>
    (value?_mergeParts hblocks hrules hr h.parts h.merges.steady hindex part key).trans
      (part_eq_of_agree hsame hindex hpart key)
  simp only [Rule.ofRecord, hselection, hrows, htitle]
  rcases hread with hall | ⟨row, hone, hne, hequal⟩
  · simp only [bind, Except.bind, hall, flatten_layOut]
    rfl
  · have hself : ∀ x ∈ row, (x == x) = true := by
      intro x hx
      obtain ⟨first, hfirst⟩ := List.exists_mem_of_ne_nil _ hne
      refine Symbolizer.beq_self (hwritable x ?_)
      rw [← flatten_layOut r.symbolizers]
      exact List.mem_flatten.mpr ⟨first, hfirst, by rwa [hequal first hfirst]⟩
    have hdistinct : distinct r.symbolizers = distinct row := by
      rw [← flatten_layOut r.symbolizers]
      exact distinct_flatten_eq hne hequal hself
    simp only [bind, Except.bind, hone, hdistinct, List.flatten_cons, List.flatten_nil,
      List.append_nil]
    rfl

end Reading

end CartoStyle.Style
