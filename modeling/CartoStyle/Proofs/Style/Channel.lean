import CartoStyle.Proofs.Decimal.Double
import CartoStyle.Proofs.Style.Graphic
import CartoStyle.Style.RasterOfRow

/-!
The channels of rasters and their contrasts. The name of a channel is read back
as a text or as the number it is the text of. A contrast property is written
once if all channels agree on it, and each channel finds its own value again.
-/

namespace CartoStyle.Style

open Decimal Lexeme PropertyValue

/-- Each value is absent, or each is there. -/
def IsUniform {α : Type} (values : List (Option α)) : Prop :=
  (∀ v ∈ values, v = none) ∨ ∀ v ∈ values, v.isSome = true

/-- The text of some values with blanks between them, or nothing if there are none. -/
def valuesText {α : Type} (write : α → String) (values : List α) : Option String :=
  if values.isEmpty then none else some (" ".intercalate (values.map write))

section Sharing

variable {α : Type} [BEq α]

omit [BEq α] in
theorem exists_eq_map_some {values : List (Option α)} (h : ∀ v ∈ values, v.isSome = true) :
    ∃ xs : List α, values = xs.map some := by
  induction values with
  | nil => exact ⟨[], rfl⟩
  | cons v values ih =>
    obtain ⟨a, rfl⟩ := Option.isSome_iff_exists.mp (h v List.mem_cons_self)
    obtain ⟨xs, rfl⟩ := ih fun u hu => h u (List.mem_cons_of_mem _ hu)
    exact ⟨a :: xs, rfl⟩

omit [BEq α] in
/-- A channel finds its value in a list with one for each. -/
theorem forChannel?_of_getElem? {xs : List α} {n : Nat} {v : Option α}
    (hv : (xs.map some)[n]? = some v) : forChannel? xs n = v := by
  rw [List.getElem?_map] at hv
  obtain ⟨a, ha, rfl⟩ := Option.map_eq_some_iff.mp hv
  cases xs with
  | nil => cases ha
  | cons first xs =>
    cases xs with
    | nil =>
      cases n with
      | zero => exact ha
      | succ n => cases ha
    | cons second xs => exact ha

/-- The values of a contrast property are written once for all channels or once for each, and
every channel finds its own value among them. -/
theorem exists_contrastText (key : String) (write : α → String) {values : List (Option α)}
    (huniform : IsUniform values)
    (heq : ∀ a b, some a ∈ values → some b ∈ values → (a == b) = true → a = b) :
    ∃ shared : List α, contrastText key write values = .ok (valuesText write shared) ∧
      (shared.length ≤ 1 ∨ shared.length = values.length) ∧ (∀ a ∈ shared, some a ∈ values) ∧
      ∀ n v, values[n]? = some v → forChannel? shared n = v := by
  rcases huniform with habsent | hpresent
  · have hnone : values.filterMap id = [] :=
      List.filterMap_eq_nil_iff.mpr fun v hv => habsent v hv
    refine ⟨[], by rw [contrastText, hnone]; rfl, Or.inl (Nat.zero_le 1), nofun, ?_⟩
    intro n v hv
    rw [habsent v (List.mem_of_getElem? hv)]
    rfl
  · obtain ⟨xs, rfl⟩ := exists_eq_map_some hpresent
    have hvalues : (xs.map some).filterMap id = xs := by simp
    rw [contrastText, hvalues]
    cases xs with
    | nil => exact ⟨[], rfl, Or.inl (Nat.zero_le 1), nofun, nofun⟩
    | cons first xs =>
      simp only [List.length_map, ne_eq, not_true_eq_false, if_false]
      by_cases hall : (first :: xs).all (· == first) = true
      · rw [if_pos hall]
        refine ⟨[first], rfl, Or.inl (Nat.le_refl 1), by simp, ?_⟩
        intro n v hv
        obtain ⟨a, ha, rfl⟩ := List.mem_map.mp (List.mem_of_getElem? hv)
        rw [heq a first (List.mem_map_of_mem ha) (by simp) (List.all_eq_true.mp hall a ha)]
        rfl
      · rw [if_neg hall]
        exact ⟨first :: xs, rfl, Or.inr rfl, by simp, fun n v => forChannel?_of_getElem?⟩

end Sharing

section Names

structure IsChannelName (name : String) : Prop where
  quotable : IsQuotable name
  bounded : name ≠ "-inf"

def IsNamed (name : String) (v : Value) : Prop :=
  v = .text name ∨ ∃ x, v = .number x ∧ display x = name

theorem IsNamed.toList_eq {name : String} {v : Value} (h : IsNamed name v) : v.toList = [v] := by
  rcases h with rfl | ⟨x, rfl, -⟩ <;> rfl

theorem IsNamed.toText?_eq {name : String} {v : Value} (h : IsNamed name v) :
    v.toText? = some name := by
  rcases h with rfl | ⟨x, rfl, hx⟩
  · rfl
  · rw [Value.toText?, hx]

theorem valueText_infinite {name : String} (h : name = "NaN" ∨ name = "inf") :
    (Expression.text name).valueText = name := by
  rw [Expression.text, Expression.valueText, Expression.literalText]
  rcases h with rfl | rfl <;> exact if_pos (by decide)

/-- The value text of a channel is read as an atom with the name of the channel as its text. -/
theorem exists_channelAtom {c : Channel} {name : String} (hsource : c.source = some name)
    (h : IsChannelName name) :
    ∃ e, IsAtom e ∧ IsSteady e.valueText ∧ e.valueText = (channelExpression c).valueText ∧
      IsNamed name e.read := by
  have htext : ∃ e, IsAtom e ∧ IsSteady e.valueText ∧
      e.valueText = (Expression.text name).valueText ∧ IsNamed name e.read :=
    ⟨.text name, .text h.quotable, isSteady_text h.quotable, rfl, Or.inl rfl⟩
  rw [channelExpression, hsource, Option.getD_some]
  cases hread : read? name with
  | none => exact htext
  | some x =>
    by_cases hdisplay : display x = name
    · simp only [if_pos hdisplay]
      by_cases hfinite : IsFinite x
      · refine ⟨.number x, .number ⟨matches_display hfinite, by rw [hdisplay, hread]⟩, ?_, rfl,
          Or.inr ⟨x, rfl, hdisplay⟩⟩
        rw [valueText_number]
        exact isSteady_number hfinite
      · -- An infinite number is written as the word that names it.
        have hname := display_of_not_isFinite hfinite
        rw [hdisplay, ← or_assoc] at hname
        rw [valueText_infinite (hname.resolve_right h.bounded)] at htext
        rwa [valueText_number, hdisplay]
    · simp only [if_neg hdisplay]
      exact htext

end Names

section Reading

variable {i : Instance}

theorem Enhancement.ofName?_name (e : Enhancement) : Enhancement.ofName? e.name = some e := by
  refine findSpelled_self ?_ ?_ ?_ ?_
  · cases e <;> decide
  · cases e <;> decide
  · cases e <;> rfl
  · cases e <;> rfl

theorem Enhancement.valueText_name (e : Enhancement) :
    (Expression.text e.name).valueText = e.name := by
  rw [Expression.text, Expression.valueText, Expression.literalText]
  cases e <;> exact if_pos (by decide)

theorem Enhancement.isQuotable_name (e : Enhancement) : IsQuotable e.name := by
  cases e <;> exact Or.inl (by decide)

/-- The enhancements of the channels are read back. -/
theorem enhancementsOf_eq {shared : List Enhancement}
    (h : i.raw? enhancementKey = valuesText Enhancement.name shared) :
    ∃ e, i.expression enhancementKey = .ok e ∧ enhancementsOf e = .ok shared := by
  rw [Instance.expression, h, valuesText]
  by_cases hnil : shared = []
  · subst hnil
    exact ⟨none, rfl, rfl⟩
  · have hne : shared.map (fun e => Expression.text e.name) ≠ [] := by simpa using hnil
    have hparse := parse_whole enhancementKey hne
      (List.forall_mem_map.mpr fun e _ => .text e.isQuotable_name)
    have hnames : shared.map (fun e => (Expression.text e.name).valueText) =
        shared.map Enhancement.name :=
      List.map_congr_left fun e _ => e.valueText_name
    rw [valueText_whole _ hne, List.map_map] at hparse
    rw [if_neg (by simpa using hnil), ← hnames]
    refine ⟨_, expressionOf_some hparse, ?_⟩
    have hlist := toList_read_whole (by decide : enhancementKey ≠ "label") hne
      (List.forall_mem_map.mpr fun _ _ => rfl)
    rw [enhancementsOf, hlist, List.map_map, List.mapM_map]
    refine (mapM_eq_ok (g := id) fun e _ => ?_).trans (by rw [List.map_id])
    have hname : (Expression.text e.name).read.asText?.bind Enhancement.ofName? = some e :=
      Enhancement.ofName?_name e
    rw [Function.comp_apply, Function.comp_apply, hname]
    rfl

/-- The gammas of the channels are read back. -/
theorem gammas_eq {shared : List Float} (h : i.raw? gammaKey = valuesText display shared)
    (hnumbers : ∀ x ∈ shared, IsNumber x) :
    ∃ xs, i.numbers gammaKey = .ok xs ∧ xs.getD [] = shared := by
  rw [Instance.numbers, h, valuesText]
  by_cases hnil : shared = []
  · subst hnil
    exact ⟨none, rfl, rfl⟩
  · rw [if_neg (by simpa using hnil)]
    exact ⟨_, valueOf_numbers (by decide) ⟨hnil, hnumbers⟩, rfl⟩

end Reading

end CartoStyle.Style
