import CartoStyle.Proofs.Style.Entry

/-!
Marks and icons are read back from the properties and the parts that they are
written into, under the key of points as well as under those of strokes and
fills.
-/

namespace CartoStyle.Style

open Decimal Lexeme PropertyValue

structure Mark.IsWritable (m : Mark) : Prop where
  color : ∀ c ∈ m.color, IsColor c
  fillOpacity : ∀ x ∈ m.fillOpacity, IsNumber x
  opacity : ∀ x ∈ m.opacity, IsNumber x
  radius : ∀ x ∈ m.radius, IsRadius x
  rotate : ∀ x ∈ m.rotate, IsNumber x
  strokeColor : ∀ c ∈ m.strokeColor, IsColor c
  strokeWidth : ∀ x ∈ m.strokeWidth, IsNumber x
  strokeOpacity : ∀ x ∈ m.strokeOpacity, IsNumber x

/-- The fields of an icon have written forms, and it has an image. -/
structure Icon.IsWritable (i : Icon) : Prop where
  present : i.image.isSome = true
  image : ∀ s ∈ i.image, IsQuotable s
  size : ∀ x ∈ i.size, IsNumber x
  rotate : ∀ x ∈ i.rotate, IsNumber x
  opacity : ∀ x ∈ i.opacity, IsNumber x

def Graphic.IsWritable : Graphic → Prop
  | mark m => m.IsWritable
  | icon i => i.IsWritable

def graphicKeys (key : String) : List String :=
  [key, key ++ "-size", key ++ "-rotation", "mark-opacity"]

/-- The row and the parts say about a key what the graphic says. -/
structure Instance.Depicts (i : Instance) (key : String) (g : Graphic) : Prop where
  raw : ∀ k ∈ graphicKeys key, i.raw? k = (g.entry key).properties.lookup k
  part : ∀ k, i.part? key k = (g.entry key).partValue? key k

def Graphic.size : Graphic → Option Float
  | mark m => m.radius.map (· * 2.0)
  | icon i => i.size

def Graphic.rotate : Graphic → Option Float
  | mark m => m.rotate
  | icon i => i.rotate

def Graphic.opacity : Graphic → Option Float
  | mark m => m.opacity
  | icon i => i.opacity

def Graphic.expression : Graphic → Expression
  | mark m => .symbol m.symbol.cssName
  | icon i => .url (i.image.getD "")

section Lookups

variable {key : String}

theorem Graphic.lookup_entry_eq_none (g : Graphic) {k : String} (hk : k ∉ graphicKeys key) :
    (g.entry key).properties.lookup k = none := by
  simp only [graphicKeys, List.mem_cons, not_or] at hk
  have hmark (x : Option Float) : (if key = "mark" then
      property "mark-opacity" (numberText x) else []).lookup k = none := by
    split <;> simp [lookup_property, hk]
  cases g <;>
    simpa [Graphic.entry, Mark.entry, Icon.entry, lookup_property, List.lookup_append, hk]
      using hmark _

theorem Graphic.lookup_key (hkey : key ∈ partNames) (g : Graphic) :
    (g.entry key).properties.lookup key = some g.expression.valueText := by
  rcases eq_of_mem_partNames hkey with rfl | rfl | rfl <;> cases g <;>
    simp [Graphic.entry, Mark.entry, Icon.entry, lookup_property, List.lookup_append,
      Graphic.expression]

theorem Graphic.lookup_size (hkey : key ∈ partNames) (g : Graphic) :
    (g.entry key).properties.lookup (key ++ "-size") = numberText g.size := by
  rcases eq_of_mem_partNames hkey with rfl | rfl | rfl <;> cases g <;>
    simp [Graphic.entry, Mark.entry, Icon.entry, lookup_property, List.lookup_append,
      Graphic.size]

theorem Graphic.lookup_rotation (hkey : key ∈ partNames) (g : Graphic) :
    (g.entry key).properties.lookup (key ++ "-rotation") = numberText g.rotate := by
  rcases eq_of_mem_partNames hkey with rfl | rfl | rfl <;> cases g <;>
    simp [Graphic.entry, Mark.entry, Icon.entry, lookup_property, List.lookup_append,
      Graphic.rotate]

theorem Graphic.partValue?_size (hkey : key ∈ partNames) (g : Graphic) :
    (g.entry key).partValue? key "size" = none := by
  rcases eq_of_mem_partNames hkey with rfl | rfl | rfl <;> cases g <;>
    simp [Graphic.entry, Mark.entry, Icon.entry, Entry.partValue?, findSome?_partProperty,
      List.findSome?_append]

theorem Graphic.partValue?_rotation (hkey : key ∈ partNames) (g : Graphic) :
    (g.entry key).partValue? key "rotation" = none := by
  rcases eq_of_mem_partNames hkey with rfl | rfl | rfl <;> cases g <;>
    simp [Graphic.entry, Mark.entry, Icon.entry, Entry.partValue?, findSome?_partProperty,
      List.findSome?_append]

/-- Points have their opacity in the row. -/
theorem Graphic.opacity_mark (g : Graphic) :
    (g.entry "mark").partValue? "mark" "opacity" = none ∧
      (g.entry "mark").properties.lookup "mark-opacity" = numberText g.opacity := by
  cases g <;>
    simp [Graphic.entry, Mark.entry, Icon.entry, Entry.partValue?, findSome?_partProperty,
      lookup_property, List.findSome?_append, List.lookup_append, Graphic.opacity]

/-- Other graphics have their opacity in their part. -/
theorem Graphic.partValue?_opacity (hkey : key ∈ partNames) (hmark : key ≠ "mark") (g : Graphic) :
    (g.entry key).partValue? key "opacity" = numberText g.opacity := by
  rcases eq_of_mem_partNames hkey with rfl | rfl | rfl
  · exact absurd rfl hmark
  all_goals
    cases g <;>
      simp [Graphic.entry, Mark.entry, Icon.entry, Entry.partValue?, findSome?_partProperty,
        List.findSome?_append, Graphic.opacity]

/-- The part of a mark. -/
theorem Mark.partValue?_eq (hkey : key ∈ partNames) (m : Mark) :
    (m.entry key).partValue? key "fill" = colorText m.color ∧
    (m.entry key).partValue? key "fill-opacity" = numberText m.fillOpacity ∧
    (m.entry key).partValue? key "stroke" = colorText m.strokeColor ∧
    (m.entry key).partValue? key "stroke-width" = numberText m.strokeWidth ∧
    (m.entry key).partValue? key "stroke-opacity" = numberText m.strokeOpacity := by
  rcases eq_of_mem_partNames hkey with rfl | rfl | rfl <;>
    simp [Mark.entry, Entry.partValue?, findSome?_partProperty, List.findSome?_append]

end Lookups

section Names

/-- A name in lower case without blanks at its ends is found among distinct names. -/
theorem findSpelled_self {α : Type} {spelling : α → String} {values : List α} {v : α}
    (hmem : v ∈ values) (hdistinct : ∀ u ∈ values, spelling u = spelling v → u = v)
    (htrim : Text.dropEnds Text.isBlank (spelling v).toList = (spelling v).toList)
    (hlower : (spelling v).toList.map Char.toLower = (spelling v).toList) :
    findSpelled spelling values (spelling v) = some v := by
  have hname : (Text.trim (spelling v)).toLower = spelling v := by
    rw [Text.trim, htrim, String.ofList_toList, Text.toLower_eq_self hlower]
  rw [findSpelled, hname]
  cases hfound : values.find? fun u => spelling u == spelling v with
  | none => simpa using List.find?_eq_none.mp hfound v hmem
  | some u =>
    have hu := List.find?_some hfound
    rw [hdistinct u (List.mem_of_find?_eq_some hfound) (by simpa using hu)]

theorem Symbol.ofCssName?_cssName (s : Symbol) : Symbol.ofCssName? s.cssName = some s := by
  refine findSpelled_self ?_ ?_ ?_ ?_
  · cases s <;> decide
  · cases s <;> decide
  · cases s <;> rfl
  · cases s <;> rfl

theorem Symbol.isQuotable_cssName (s : Symbol) : IsQuotable s.cssName := by
  cases s <;> exact Or.inl (by decide)

end Names

section Reading

variable {i : Instance} {key : String} {g : Graphic}

theorem orElse_none {α : Type} (second : Except Error (Option α)) :
    orElse (.ok none) second = second := rfl

theorem orElse_ok_none {α : Type} (v : Option α) : orElse (.ok v) (.ok none) = .ok v := by
  cases v <;> rfl

theorem Instance.Depicts.size (h : i.Depicts key g) (hkey : key ∈ partNames)
    (hg : ∀ x ∈ g.size, IsNumber x) :
    orElse (i.partNumber key "size") (i.number (key ++ "-size")) = .ok g.size := by
  rw [Instance.partNumber, h.part, Graphic.partValue?_size hkey, numberOf, valueOf, orElse_none,
    Instance.number, h.raw _ (by simp [graphicKeys]), Graphic.lookup_size hkey,
    numberOf_numberText hg]

theorem Instance.Depicts.rotate (h : i.Depicts key g) (hkey : key ∈ partNames)
    (hg : ∀ x ∈ g.rotate, IsNumber x) :
    orElse (i.partNumber key "rotation") (i.number (key ++ "-rotation")) = .ok g.rotate := by
  rw [Instance.partNumber, h.part, Graphic.partValue?_rotation hkey, numberOf, valueOf,
    orElse_none, Instance.number, h.raw _ (by simp [graphicKeys]), Graphic.lookup_rotation hkey,
    numberOf_numberText hg]

theorem Instance.Depicts.opacity (h : i.Depicts key g) (hkey : key ∈ partNames)
    (hg : ∀ x ∈ g.opacity, IsNumber x) : graphicOpacity i key = .ok g.opacity := by
  rw [graphicOpacity, Instance.partNumber, h.part]
  by_cases hmark : key = "mark"
  · subst hmark
    obtain ⟨hpart, hraw⟩ := Graphic.opacity_mark g
    rw [hpart, if_pos rfl, numberOf, valueOf, orElse_none, Instance.number,
      h.raw _ (by simp [graphicKeys]), hraw, numberOf_numberText hg]
  · rw [Graphic.partValue?_opacity hkey hmark, if_neg hmark, numberOf_numberText hg,
      orElse_ok_none]

theorem Instance.Depicts.expression (h : i.Depicts key g) (hkey : key ∈ partNames)
    (hg : g.IsWritable) : i.expression key = .ok (some g.expression) := by
  have hatom : IsAtom g.expression := by
    cases g with
    | mark m => exact .symbol m.symbol.isQuotable_cssName
    | icon i =>
      obtain ⟨image, himage⟩ := Option.isSome_iff_exists.mp hg.present
      rw [Graphic.expression, himage]
      exact .url (hg.image image himage)
  rw [Instance.expression, h.raw _ (by simp [graphicKeys]), Graphic.lookup_key hkey]
  exact expressionOf_some (parse_atom hatom)

theorem Mark.radius_eq {m : Mark} (h : m.IsWritable) :
    (m.radius.map (· * 2.0)).map (· / 2.0) = m.radius := by
  cases hradius : m.radius with
  | none => rfl
  | some x =>
    show some (x * 2.0 / 2.0) = some x
    rw [(h.radius x hradius).halve]

theorem Graphic.IsWritable.numbers (hg : g.IsWritable) : (∀ x ∈ g.size, IsNumber x) ∧
    (∀ x ∈ g.rotate, IsNumber x) ∧ ∀ x ∈ g.opacity, IsNumber x := by
  cases g with
  | mark m =>
    refine ⟨fun x hx => ?_, hg.rotate, hg.opacity⟩
    obtain ⟨r, hr, rfl⟩ := Option.map_eq_some_iff.mp hx
    exact (hg.radius r hr).double
  | icon i => exact ⟨hg.size, hg.rotate, hg.opacity⟩

/-- A graphic is read back from its row and its part. -/
theorem Graphic.ofInstance_eq (h : i.Depicts key g) (hkey : key ∈ partNames) (hg : g.IsWritable) :
    Graphic.ofInstance i key = .ok g := by
  obtain ⟨hsize, hrotate, hopacity⟩ := hg.numbers
  have hsize := h.size hkey hsize
  have hrotate := h.rotate hkey hrotate
  have hopacity := h.opacity hkey hopacity
  have hexpression := h.expression hkey hg
  simp only [Graphic.ofInstance, hexpression, hsize, hrotate, hopacity, bind, Except.bind]
  cases g with
  | icon icon =>
    obtain ⟨image, himage⟩ := Option.isSome_iff_exists.mp hg.present
    have hread : (Graphic.icon icon).expression.read.toText? = icon.image := by
      rw [Graphic.expression, himage]
      rfl
    have hurl : (Graphic.icon icon).expression.op? = some .url := rfl
    rw [if_pos hurl, hread]
    rfl
  | mark m =>
    obtain ⟨hcolor, hfill, hstroke, hwidth, hwidthOpacity⟩ := m.partValue?_eq hkey
    have hread : (Graphic.mark m).expression.read = .text m.symbol.cssName := rfl
    have hentry : Graphic.entry key (mark m) = m.entry key := rfl
    rw [if_neg (by simp [Graphic.expression, Expression.symbol, Expression.op?])]
    simp only [hread, Symbol.ofCssName?_cssName, Instance.partNumber, h.part, hentry, hcolor, hfill,
      hstroke, hwidth, hwidthOpacity, color?_expressionOf hg.color,
      color?_expressionOf hg.strokeColor, numberOf_numberText hg.fillOpacity,
      numberOf_numberText hg.strokeWidth, numberOf_numberText hg.strokeOpacity]
    show Except.ok (mark { m with radius := (m.radius.map (· * 2.0)).map (· / 2.0) }) = _
    rw [Mark.radius_eq hg]

end Reading

section Writing

variable {key : String}

theorem isRowKey_of_mem_partNames (hkey : key ∈ partNames) :
    isRowKey key = true ∧ isRowKey (key ++ "-size") = true ∧
      isRowKey (key ++ "-rotation") = true := by
  rcases eq_of_mem_partNames hkey with rfl | rfl | rfl <;> refine ⟨?_, ?_, ?_⟩ <;> decide

theorem isCell_markOpacity {opacity : Option Float} (h : ∀ x ∈ opacity, IsNumber x) :
    ∀ p ∈ (if key = "mark" then property "mark-opacity" (numberText opacity) else []),
      IsCell p := by
  split
  · exact isCell_property (by decide) (isSteady_numberText h)
  · nofun

theorem isSteady_partOpacity (hkey : key ∈ partNames) {opacity : Option Float}
    (h : ∀ x ∈ opacity, IsNumber x) :
    ∀ p ∈ (if key = "mark" then [] else partProperty key "opacity" (numberText opacity)),
      p.1 ∈ partNames ∧ isRowKey p.2.1 = true ∧ IsSteady p.2.2 := by
  split
  · nofun
  · exact isSteady_partProperty hkey (by decide) (isSteady_numberText h)

theorem Mark.isSteady_entry {m : Mark} (hkey : key ∈ partNames) (h : m.IsWritable) :
    (m.entry key).IsSteady := by
  obtain ⟨hself, hsize, hrotation⟩ := isRowKey_of_mem_partNames hkey
  have hsymbol : ∀ v ∈ some (Expression.symbol m.symbol.cssName).valueText, IsSteady v := by
    rintro v ⟨⟩
    exact isSteady_drawing (Or.inl rfl) m.symbol.isQuotable_cssName
  have hradius := (Graphic.IsWritable.numbers (g := .mark m) h).1
  refine ⟨?_, ?_⟩
  · simp only [Mark.entry, List.forall_mem_append]
    exact ⟨⟨⟨isCell_property hself hsymbol, isCell_property hsize (isSteady_numberText hradius)⟩,
      isCell_property hrotation (isSteady_numberText h.rotate)⟩, isCell_markOpacity h.opacity⟩
  · simp only [Mark.entry, List.forall_mem_append]
    exact ⟨⟨⟨⟨⟨isSteady_partProperty hkey (by decide) (isSteady_colorText h.color),
      isSteady_partProperty hkey (by decide) (isSteady_numberText h.fillOpacity)⟩,
      isSteady_partProperty hkey (by decide) (isSteady_colorText h.strokeColor)⟩,
      isSteady_partProperty hkey (by decide) (isSteady_numberText h.strokeWidth)⟩,
      isSteady_partProperty hkey (by decide) (isSteady_numberText h.strokeOpacity)⟩,
      isSteady_partOpacity hkey h.opacity⟩

theorem Icon.isSteady_entry {i : Icon} (hkey : key ∈ partNames) (h : i.IsWritable) :
    (i.entry key).IsSteady := by
  obtain ⟨hself, hsize, hrotation⟩ := isRowKey_of_mem_partNames hkey
  have hurl : ∀ v ∈ some (Expression.url (i.image.getD "")).valueText, IsSteady v := by
    rintro v ⟨⟩
    obtain ⟨image, himage⟩ := Option.isSome_iff_exists.mp h.present
    rw [himage]
    exact isSteady_drawing (Or.inr rfl) (h.image image himage)
  refine ⟨?_, ?_⟩
  · simp only [Icon.entry, List.forall_mem_append]
    exact ⟨⟨⟨isCell_property hself hurl, isCell_property hsize (isSteady_numberText h.size)⟩,
      isCell_property hrotation (isSteady_numberText h.rotate)⟩, isCell_markOpacity h.opacity⟩
  · exact isSteady_partOpacity hkey h.opacity

/-- What a graphic says can stand in a row. -/
theorem Graphic.isSteady_entry {g : Graphic} (hkey : key ∈ partNames) (h : g.IsWritable) :
    (g.entry key).IsSteady := by
  cases g with
  | mark m => exact Mark.isSteady_entry hkey h
  | icon i => exact Icon.isSteady_entry hkey h

end Writing

end CartoStyle.Style
