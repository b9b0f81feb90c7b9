import CartoStyle.Proofs.Rule.Records
import CartoStyle.Proofs.Sheet.Derivation

/-!
Records and their groups. Every record of a top-level block bears the place of the block, so
the records of a stylesheet stand in the order of their groups. A rule meets the
pseudo-selector records of its own group and those of level one. Of the records of other
groups it therefore meets those of level one only, whatever the blocks of these groups hold
otherwise.
-/

namespace CartoStyle.Rule

open Sheet

variable {group level last next k : Nat} {ts : List Token} {ps : List Property}
  {bs : List Block} {b : Block} {s : Stylesheet} {path : Path}

section Numbers

theorem group_of_mem_recordsOf {selectors : List String} {title : Option String}
    {properties : KeyMap (List String)} {id : Nat}
    (h : ∀ path, ∀ r ∈ recordsOfAll path bs, r.group = group) (path : Path) :
    ∀ r ∈ recordsOf path ⟨selectors, title, properties, level, group, id, bs⟩,
      r.group = group := by
  intro r hr
  rw [recordsOf] at hr
  rcases List.mem_append.mp hr with hown | hchild
  · split at hown
    · rw [List.mem_singleton.mp hown]
    · cases hown
  · exact h _ r hchild

/-- The records of the blocks in a body bear the group of the body. -/
theorem group_of_body (h : Body group level last ts ps bs next) (path : Path) :
    ∀ r ∈ recordsOfAll path bs, r.group = group := by
  induction h generalizing path with
  | nil => exact nofun
  | property _ _ ih => exact ih path
  | titles _ _ _ ih => exact ih path
  | block _ _ _ ihinner ih =>
    rw [recordsOfAll]
    exact List.forall_mem_append.mpr ⟨group_of_mem_recordsOf ihinner path, ih path⟩

theorem le_group_of_items (h : Items group ts bs) :
    ∀ r ∈ recordsOfAll path bs, group ≤ r.group := by
  induction h with
  | nil => exact nofun
  | directive _ _ ih => exact ih
  | titles _ _ _ ih => exact ih
  | block _ hinner _ ih =>
    rw [recordsOfAll]
    refine List.forall_mem_append.mpr ⟨fun r hr => ?_, fun r hr => ?_⟩
    · exact Nat.le_of_eq (group_of_mem_recordsOf (group_of_body hinner) path r hr).symm
    · exact Nat.le_of_succ_le (ih r hr)

/-- Some records are those of a group among others: what stands in front of them belongs to
lower groups, and what stands behind them to higher ones. -/
structure IsGroupOf (own all : List Record) (k : Nat) : Prop where
  group : ∀ r ∈ own, r.group = k
  split : ∃ before after, all = before ++ (own ++ after) ∧ (∀ r ∈ before, r.group < k) ∧
    ∀ r ∈ after, k < r.group

theorem IsGroupOf.after {own all earlier : List Record} (h : IsGroupOf own all k)
    (hearlier : ∀ r ∈ earlier, r.group < k) : IsGroupOf own (earlier ++ all) k := by
  obtain ⟨before, after, rfl, hbefore, hafter⟩ := h.split
  refine { h with split := ⟨earlier ++ before, after, (List.append_assoc _ _ _).symm, ?_, hafter⟩ }
  exact List.forall_mem_append.mpr ⟨hearlier, hbefore⟩

theorem isGroupOf_of_items (path : Path) (h : Items group ts bs) (hb : bs[k]? = some b) :
    IsGroupOf (recordsOf path b) (recordsOfAll path bs) (group + k) := by
  induction h generalizing k with
  | nil => cases hb
  | directive _ _ ih => exact ih hb
  | titles _ _ _ ih => exact ih hb
  | block _ hinner hrest ih =>
    rw [recordsOfAll]
    cases k with
    | zero =>
      cases hb
      exact ⟨group_of_mem_recordsOf (group_of_body hinner) path, [], _, rfl,
        List.forall_mem_nil _, le_group_of_items hrest⟩
    | succ k =>
      have hlater := ih (k := k) hb
      rw [Nat.add_right_comm] at hlater
      refine hlater.after fun r hr => ?_
      rw [group_of_mem_recordsOf (group_of_body hinner) path r hr]
      exact Nat.lt_succ_of_le (Nat.le_add_right _ k)

/-- The records of a top-level block are those of its group. -/
theorem isGroupOf_of_derives (h : Derives ts s) (hb : s.blocks[k]? = some b) :
    IsGroupOf (recordsOf {} b) (recordsOfAll {} s.blocks) k := by
  have hgroup := isGroupOf_of_items {} h.items hb
  rwa [Nat.zero_add] at hgroup

end Numbers

section Scope

/-- The pseudo-selector records of level one, which speak about the rules of all groups. -/
def Records.global (records : Records) : List Record := records.pseudo.filter (·.level == 1)

/-- The pseudo-selector record may speak about the rules of the group. -/
def Record.inScope (k : Nat) (r : Record) : Bool := r.group == k || r.level == 1

variable {own all : List Record} {rule : Record}

theorem IsGroupOf.filter (h : IsGroupOf own all k) (p : Record → Bool) :
    IsGroupOf (own.filter p) (all.filter p) k := by
  obtain ⟨before, after, rfl, hbefore, hafter⟩ := h.split
  refine ⟨fun r hr => h.group r (List.mem_filter.mp hr).1, before.filter p, after.filter p, ?_,
    fun r hr => hbefore r (List.mem_filter.mp hr).1,
    fun r hr => hafter r (List.mem_filter.mp hr).1⟩
  rw [List.filter_append, List.filter_append]

/-- The records in front of a group, those of it and those behind it are told apart by their
numbers. -/
theorem IsGroupOf.eq_append (h : IsGroupOf own all k) :
    all.filter (·.group == k) = own ∧
      all = all.filter (·.group < k) ++ (own ++ all.filter (k < ·.group)) := by
  obtain ⟨before, after, rfl, hbefore, hafter⟩ := h.split
  have hown := h.group
  have hnone {p : Record → Bool} {records : List Record} (hp : ∀ r ∈ records, p r = false) :
      records.filter p = [] :=
    List.filter_eq_nil_iff.mpr fun r hr => by simp [hp r hr]
  have hlow : (before ++ (own ++ after)).filter (·.group < k) = before := by
    rw [List.filter_append, List.filter_append, List.filter_eq_self.mpr (by simpa using hbefore),
      hnone fun r hr => by simp [hown r hr], hnone fun r hr => by simp [Nat.le_of_lt (hafter r hr)],
      List.append_nil, List.append_nil]
  have hhigh : (before ++ (own ++ after)).filter (k < ·.group) = after := by
    rw [List.filter_append, List.filter_append,
      hnone fun r hr => by simp [Nat.le_of_lt (hbefore r hr)],
      hnone fun r hr => by simp [hown r hr],
      List.filter_eq_self.mpr (by simpa using hafter), List.nil_append, List.nil_append]
  have hequal : (before ++ (own ++ after)).filter (·.group == k) = own := by
    rw [List.filter_append, List.filter_append,
      hnone fun r hr => by simp [Nat.ne_of_lt (hbefore r hr)],
      List.filter_eq_self.mpr (by simpa using hown),
      hnone fun r hr => by simp [Nat.ne_of_gt (hafter r hr)], List.nil_append, List.append_nil]
  exact ⟨hequal, by rw [hlow, hhigh]⟩

/-- In the scope of a group are its own records, between the records of level one from other
groups. -/
theorem IsGroupOf.filter_inScope (h : IsGroupOf own all k) :
    all.filter (Record.inScope k) = (all.filter (·.level == 1)).filter (·.group < k) ++
      (own ++ (all.filter (·.level == 1)).filter (k < ·.group)) := by
  obtain ⟨-, hsplit⟩ := h.eq_append
  have hother {p : Record → Bool} (hp : ∀ r, p r = true → r.group ≠ k) :
      (all.filter p).filter (Record.inScope k) = (all.filter (·.level == 1)).filter p := by
    rw [List.filter_comm p]
    refine List.filter_congr fun r hr => ?_
    simp [Record.inScope, hp r (List.mem_filter.mp hr).2]
  have hown : own.filter (Record.inScope k) = own :=
    List.filter_eq_self.mpr fun r hr => by simp [Record.inScope, h.group r hr]
  have hlow := hother (p := fun r => r.group < k) fun r hr => by
    simpa using Nat.ne_of_lt (of_decide_eq_true hr)
  have hhigh := hother (p := fun r => k < r.group) fun r hr => by
    simpa using Nat.ne_of_gt (of_decide_eq_true hr)
  rw [← hlow, ← hhigh]
  conv_lhs => rw [hsplit, List.filter_append, List.filter_append, hown]

/-- Only the records in the scope of its group matter to a rule. -/
theorem Parts.ofRecords_filter_inScope (rule : Record) (pseudo : List Record) :
    Parts.ofRecords rule (pseudo.filter (Record.inScope rule.group)) =
      Parts.ofRecords rule pseudo := by
  induction pseudo with
  | nil => rfl
  | cons record pseudo ih =>
    have hcons (records : List Record) : Parts.ofRecords rule (record :: records) =
        Parts.ofRecords rule [record] ++ Parts.ofRecords rule records := by
      simp [Parts.ofRecords]
    rw [hcons, ← ih]
    by_cases hscope : Record.inScope rule.group record = true
    · rw [List.filter_cons_of_pos hscope, hcons]
    · have happlies (p : PseudoSelector) : appliesTo rule record p = false := by
        rw [Record.inScope, Bool.not_eq_true] at hscope
        rw [appliesTo, hscope, Bool.false_and]
      rw [List.filter_cons_of_neg hscope]
      simp [Parts.ofRecords, happlies]

end Scope

end CartoStyle.Rule
