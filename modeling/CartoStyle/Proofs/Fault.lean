import CartoStyle.Error
import Mathlib.Data.List.Forall2

/-!
The errors of steps that may fail. Of steps one after the other, and of a step on every item
of a list, the first error counts.
-/

namespace CartoStyle

def fault? {α : Type} : Except Error α → Option Error
  | .ok _ => none
  | .error e => some e

section Steps

/-- A sequence of two steps succeeds if the first does and the second does with its result. -/
theorem bind_eq_ok_iff {ε α β : Type} {x : Except ε α} {f : α → Except ε β} {b : β} :
    x >>= f = .ok b ↔ ∃ a, x = .ok a ∧ f a = .ok b := by
  constructor
  · intro h
    cases x with
    | error fault => cases h
    | ok a => exact ⟨a, rfl, h⟩
  · rintro ⟨a, rfl, h⟩
    exact h

/-- A sequence of two steps fails if the first does, or if the second does with its result. -/
theorem bind_eq_error_iff {ε α β : Type} {x : Except ε α} {f : α → Except ε β} {fault : ε} :
    x >>= f = .error fault ↔ x = .error fault ∨ ∃ a, x = .ok a ∧ f a = .error fault := by
  constructor
  · intro h
    cases x with
    | error fault' =>
      cases h
      exact Or.inl rfl
    | ok a => exact Or.inr ⟨a, rfl, h⟩
  · rintro (rfl | ⟨a, rfl, h⟩)
    · rfl
    · exact h

variable {α β : Type} {x : Except Error α}

theorem fault?_eq_some_iff {e : Error} : fault? x = some e ↔ x = .error e := by
  cases x <;> simp [fault?]

theorem fault?_eq_none_iff : fault? x = none ↔ ∃ a, x = .ok a := by
  cases x <;> simp [fault?]

/-- The first step that fails ends all of them. -/
theorem fault?_bind {f : α → Except Error β} {later : Option Error}
    (h : ∀ a, fault? (f a) = later) : fault? (x >>= f) = (fault? x).or later := by
  cases x with
  | error e => rfl
  | ok a => exact h a

theorem ok_bind (a : α) (f : α → Except Error β) : (Except.ok a >>= f) = f a := rfl

/-- Steps that do not fail do not fail one after the other. -/
theorem fault?_bind_eq_none {f : α → Except Error β} (hx : fault? x = none)
    (hf : ∀ a, x = .ok a → fault? (f a) = none) : fault? (x >>= f) = none := by
  obtain ⟨a, rfl⟩ := fault?_eq_none_iff.mp hx
  exact hf a rfl

theorem fault?_map (f : α → β) : fault? (f <$> x) = fault? x := by
  cases x <;> rfl

theorem fault?_bind_pure (f : α → β) : fault? (x >>= fun a => pure (f a)) = fault? x := by
  cases x <;> rfl

/-- A step on every item of a list fails as it does on the first item where it does. -/
theorem fault?_mapM (f : α → Except Error β) (xs : List α) :
    fault? (xs.mapM f) = xs.findSome? fun x => fault? (f x) := by
  induction xs with
  | nil => rfl
  | cons x xs ih =>
    have hrest : ∀ y, fault? (xs.mapM f >>= fun ys => pure (y :: ys)) =
        xs.findSome? fun x => fault? (f x) := fun y => by rw [fault?_bind_pure, ih]
    rw [List.mapM_cons, fault?_bind hrest, List.findSome?_cons]
    cases fault? (f x) <;> rfl

/-- The error of a step on every item of a list is that of some item. -/
theorem exists_of_mapM_eq_error {f : α → Except Error β} {xs : List α} {e : Error}
    (h : xs.mapM f = .error e) : ∃ x ∈ xs, f x = .error e := by
  have hfirst := fault?_mapM f xs
  rw [h] at hfirst
  obtain ⟨x, hx, hfault⟩ := List.exists_of_findSome?_eq_some hfirst.symm
  exact ⟨x, hx, fault?_eq_some_iff.mp hfault⟩

/-- A step whose result is known in part. -/
theorem exists_of_toOption {f : α → β} {b : β} (h : x.toOption.map f = some b) :
    ∃ a, x = .ok a ∧ f a = b := by
  cases x with
  | error fault => cases h
  | ok a => exact ⟨a, rfl, Option.some.inj h⟩

end Steps

section Relations

variable {α β : Type} {R : α → β → Prop} {xs : List α} {ys : List β}

theorem exists_forall₂ (h : ∀ x ∈ xs, ∃ y, R x y) : ∃ ys, List.Forall₂ R xs ys := by
  induction xs with
  | nil => exact ⟨[], .nil⟩
  | cons x xs ih =>
    obtain ⟨y, hy⟩ := h x List.mem_cons_self
    obtain ⟨ys, hys⟩ := ih fun z hz => h z (List.mem_cons_of_mem x hz)
    exact ⟨y :: ys, .cons hy hys⟩

/-- A step succeeds on a list exactly if it does on every item. -/
theorem mapM_eq_ok_iff {f : α → Except Error β} :
    xs.mapM f = .ok ys ↔ List.Forall₂ (fun x y => f x = .ok y) xs ys := by
  induction xs generalizing ys with
  | nil =>
    rw [List.forall₂_nil_left_iff]
    exact ⟨fun h => (Except.ok.inj h).symm, fun h => by rw [h]; rfl⟩
  | cons x xs ih =>
    rw [List.mapM_cons, List.forall₂_cons_left_iff]
    constructor
    · intro h
      cases hx : f x with
      | error fault =>
        rw [hx] at h
        cases h
      | ok y =>
        cases hxs : xs.mapM f with
        | error fault =>
          rw [hx, hxs] at h
          cases h
        | ok zs =>
          rw [hx, hxs] at h
          exact ⟨y, zs, rfl, ih.mp hxs, (Except.ok.inj h).symm⟩
    · rintro ⟨y, zs, hy, hzs, rfl⟩
      rw [hy, ih.mpr hzs]
      rfl

/-- A related item for every item of the second list. -/
theorem exists_of_forall₂ (h : List.Forall₂ R xs ys) {y : β} (hy : y ∈ ys) : ∃ x ∈ xs, R x y := by
  induction h with
  | nil => cases hy
  | cons hxy _ ih =>
    rcases List.mem_cons.mp hy with rfl | hy
    · exact ⟨_, List.mem_cons_self, hxy⟩
    · obtain ⟨x, hx, hrel⟩ := ih hy
      exact ⟨x, List.mem_cons_of_mem _ hx, hrel⟩

/-- A step that succeeds on a list succeeds on every item. -/
theorem exists_of_mapM_eq_ok {f : α → Except Error β} (h : xs.mapM f = .ok ys) {x : α}
    (hx : x ∈ xs) : ∃ y, f x = .ok y := by
  obtain ⟨y, -, hy⟩ := exists_of_forall₂ (mapM_eq_ok_iff.mp h).flip hx
  exact ⟨y, hy⟩

theorem exists_mapM_eq_ok {f : α → Except Error β} (h : ∀ x ∈ xs, ∃ y, f x = .ok y) :
    ∃ ys, xs.mapM f = .ok ys := by
  obtain ⟨ys, hys⟩ := exists_forall₂ h
  exact ⟨ys, mapM_eq_ok_iff.mpr hys⟩

/-- A step that succeeds on every item succeeds on the list. -/
theorem mapM_eq_ok {α β : Type} {f : α → Except Error β} {g : α → β} {xs : List α}
    (h : ∀ x ∈ xs, f x = .ok (g x)) : xs.mapM f = .ok (xs.map g) := by
  refine mapM_eq_ok_iff.mpr ?_
  rw [List.forall₂_map_right_iff, List.forall₂_same]
  exact h

end Relations

end CartoStyle
