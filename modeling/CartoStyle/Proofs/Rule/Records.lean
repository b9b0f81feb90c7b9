import CartoStyle.Proofs.KeyMap
import CartoStyle.Proofs.Rule.PseudoSelector
import CartoStyle.Proofs.Sheet.Rendering
import CartoStyle.Rule.Parts

/-!
The records of a stylesheet that was written from an outline. Every rule gives a record
with its own selectors, and every part one with those selectors in front of the part name.
The parts of a rule are found among the records of its group.
-/

namespace CartoStyle.Rule

open Sheet

variable {r : OutlineRule} {rules : List OutlineRule} {group : Nat}

def recordOf (r : OutlineRule) (group : Nat) : Record where
  selectors := r.selectors
  properties := KeyMap.ofList r.properties
  rows := splitRows (KeyMap.ofList r.properties)
  title := r.title.filter (!·.isEmpty)
  level := 1
  group := group
  id := 1

def partRecordOf (r : OutlineRule) (group : Nat) (p : OutlinePart) (id : Nat) : Record where
  selectors := r.selectors.map (· ++ (":" ++ p.part))
  properties := KeyMap.ofList p.properties
  rows := splitRows (KeyMap.ofList p.properties)
  title := r.title.filter (!·.isEmpty)
  level := 2
  group := group
  id := id

section Blocks

theorem recordsOfAll_eq_flatMap (path : Path) (bs : List Block) :
    recordsOfAll path bs = bs.flatMap (recordsOf path) := by
  induction bs with
  | nil => rfl
  | cons b bs ih => rw [recordsOfAll, ih, List.flatMap_cons]

theorem flatMap_mapIdx {α β γ : Type} {f : Nat → α → β} {g : β → List γ} {h : Nat → α → γ}
    (xs : List α) (hg : ∀ i x, x ∈ xs → g (f i x) = [h i x]) :
    (xs.mapIdx f).flatMap g = xs.mapIdx h := by
  induction xs generalizing f h with
  | nil => rfl
  | cons x xs ih =>
    rw [List.mapIdx_cons, List.mapIdx_cons, List.flatMap_cons, hg 0 x List.mem_cons_self,
      ih fun i y hy => hg (i + 1) y (List.mem_cons_of_mem x hy)]
    rfl

theorem combine_empty (selectors : List String) : combine [""] selectors = selectors := by
  simp [combine]

theorem title?_enter (selectors : List String) (title : Option String) :
    (Path.enter {} selectors title).title? = title.filter (!·.isEmpty) := by
  rw [Path.title?, Path.enter]
  cases title.filter (!·.isEmpty) <;> simp

theorem recordsOf_partBlock (r : OutlineRule) (group : Nat) (p : OutlinePart) (id : Nat) :
    recordsOf (Path.enter {} r.selectors r.title) (p.block group id) =
      [partRecordOf r group p id] := by
  have hselectors : combine (combine [""] r.selectors) [":" ++ p.part] =
      r.selectors.map (· ++ (":" ++ p.part)) := by
    rw [combine_empty]
    exact List.flatMap_pure_eq_map _ _
  have htitle : (Path.enter (Path.enter {} r.selectors r.title) [":" ++ p.part] none).title? =
      r.title.filter (!·.isEmpty) := by
    rw [← title?_enter r.selectors r.title]
    simp [Path.title?, Path.enter]
  simp only [OutlinePart.block, recordsOf, recordsOfAll, List.isEmpty_nil, Bool.or_true, if_true,
    List.append_nil, htitle]
  simp only [Path.enter, hselectors, partRecordOf]

/-- The records of the block of a rule. -/
theorem recordsOf_block (h : r.properties ≠ [] ∨ r.parts = []) :
    recordsOf {} (r.block group) =
      recordOf r group :: r.parts.mapIdx fun i p => partRecordOf r group p (2 + i) := by
  have hown : (!(KeyMap.ofList r.properties).isEmpty ||
      (r.parts.mapIdx fun i p => p.block group (2 + i)).isEmpty) = true := by
    rcases h with hproperties | hparts
    · rw [KeyMap.isEmpty_ofList hproperties]
      rfl
    · simp [hparts]
  have hparts : (r.parts.mapIdx fun i p => p.block group (2 + i)).flatMap
      (recordsOf (Path.enter {} r.selectors r.title)) =
        r.parts.mapIdx fun i p => partRecordOf r group p (2 + i) :=
    flatMap_mapIdx _ fun i p _ => recordsOf_partBlock r group p (2 + i)
  have htitle := title?_enter r.selectors r.title
  rw [OutlineRule.block, recordsOf, recordsOfAll_eq_flatMap, hparts, if_pos hown, htitle]
  simp only [Path.enter, combine_empty, recordOf]
  rfl

end Blocks

/-- The rule has a record of its own, which its parts can be told from. -/
structure IsRecordable (r : OutlineRule) : Prop where
  body : r.properties ≠ [] ∨ r.parts = []
  selectors_ne_nil : r.selectors ≠ []
  plain : ∀ selector ∈ r.selectors, PseudoSelector.parse? selector = none
  lines : r.parts ≠ [] → ∀ selector ∈ r.selectors, '\n' ∉ selector.toList
  names : ∀ p ∈ r.parts, PseudoSelector.IsPartName p.part

section Sorting

theorem IsRecordable.isPseudo_recordOf (h : IsRecordable r) :
    (recordOf r group).isPseudo = false := by
  obtain ⟨selector, hselector⟩ := List.exists_mem_of_ne_nil _ h.selectors_ne_nil
  rw [Record.isPseudo, List.all_eq_false]
  exact ⟨selector, hselector, by simp [h.plain selector hselector]⟩

theorem IsRecordable.parse?_part (h : IsRecordable r) {p : OutlinePart} (hp : p ∈ r.parts)
    {selector : String} (hselector : selector ∈ r.selectors) :
    PseudoSelector.parse? (selector ++ (":" ++ p.part)) =
      some { base := selector, part := p.part, index := none } :=
  PseudoSelector.parse?_append (h.lines (List.ne_nil_of_mem hp) selector hselector) (h.names p hp)

theorem IsRecordable.isPseudo_partRecordOf (h : IsRecordable r) {p : OutlinePart}
    (hp : p ∈ r.parts) (id : Nat) : (partRecordOf r group p id).isPseudo = true := by
  rw [Record.isPseudo, List.all_eq_true]
  intro selector hselector
  obtain ⟨base, hbase, rfl⟩ := List.mem_map.mp hselector
  rw [h.parse?_part hp hbase]
  rfl

/-- The records of a rule are its own one and those of its parts. -/
theorem IsRecordable.filter_recordsOf (h : IsRecordable r) :
    (recordsOf {} (r.block group)).filter (not ∘ Record.isPseudo) = [recordOf r group] ∧
      (recordsOf {} (r.block group)).filter Record.isPseudo =
        r.parts.mapIdx fun i p => partRecordOf r group p (2 + i) := by
  have hparts : ∀ record ∈ r.parts.mapIdx fun i p => partRecordOf r group p (2 + i),
      record.isPseudo = true := by
    intro record hrecord
    obtain ⟨i, hi, rfl⟩ := List.mem_mapIdx.mp hrecord
    exact h.isPseudo_partRecordOf (List.getElem_mem hi) _
  rw [recordsOf_block h.body, List.filter_cons_of_pos, List.filter_cons_of_neg,
    List.filter_eq_self.mpr hparts, List.filter_eq_nil_iff.mpr]
  · exact ⟨rfl, rfl⟩
  · intro record hrecord
    simp [hparts record hrecord]
  · simp [h.isPseudo_recordOf]
  · simp [h.isPseudo_recordOf]

theorem Records.ofSheet_eq (s : Stylesheet) : Records.ofSheet s =
    ⟨(recordsOfAll {} s.blocks).filter (not ∘ Record.isPseudo),
      (recordsOfAll {} s.blocks).filter Record.isPseudo⟩ := by
  rw [Records.ofSheet, List.partition_eq_filter_filter]

variable {s : Stylesheet}

/-- The records of an outline: one for each rule, and one for each part in the group of its
rule. -/
theorem records_ofSheet (hblocks : s.blocks = rules.mapIdx fun i r => r.block i)
    (hrules : ∀ r ∈ rules, IsRecordable r) :
    (Records.ofSheet s).rules = rules.mapIdx (fun i r => recordOf r i) ∧
      ∀ record, record ∈ (Records.ofSheet s).pseudo ↔ ∃ (i : Nat) (r : OutlineRule) (j : Nat)
        (p : OutlinePart), rules[i]? = some r ∧ r.parts[j]? = some p ∧
          record = partRecordOf r i p (2 + j) := by
  rw [Records.ofSheet_eq, recordsOfAll_eq_flatMap, hblocks, List.filter_flatMap,
    List.filter_flatMap]
  refine ⟨flatMap_mapIdx rules fun i r hr => (hrules r hr).filter_recordsOf.1, fun record => ?_⟩
  simp only [List.mem_flatMap, List.mem_mapIdx]
  constructor
  · rintro ⟨b, ⟨i, hi, rfl⟩, hrecord⟩
    rw [(hrules _ (List.getElem_mem hi)).filter_recordsOf.2] at hrecord
    obtain ⟨j, hj, rfl⟩ := List.mem_mapIdx.mp hrecord
    exact ⟨i, _, j, _, List.getElem?_eq_getElem hi, List.getElem?_eq_getElem hj, rfl⟩
  · rintro ⟨i, r, j, p, hr, hp, rfl⟩
    obtain ⟨hi, rfl⟩ := List.getElem?_eq_some_iff.mp hr
    obtain ⟨hj, rfl⟩ := List.getElem?_eq_some_iff.mp hp
    refine ⟨_, ⟨i, hi, rfl⟩, ?_⟩
    rw [(hrules _ (List.getElem_mem hi)).filter_recordsOf.2]
    exact List.mem_mapIdx.mpr ⟨j, hj, rfl⟩

end Sorting

end CartoStyle.Rule
