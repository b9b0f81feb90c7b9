import Mathlib.Data.List.Forall2
import Mathlib.Data.List.Perm.Basic
import CartoStyle.Style.Tree

/-!
The schema of the tree of a style document, and the trees that hold more than
was written. Every object has the names of its part of the document. A tree
extends another one if its objects have further fields: unknown names with
any values, and null under names that are in use but absent. What the fields
of an extension hold under the names in use is then settled, and with it what
is read from them.
-/

namespace CartoStyle.Tree

/-- The objects in the tree of a style document. -/
inductive Part where
  | style
  | rule
  | scale
  | filter
  | symbolizer
  | colorMap
  | colorMapEntry
  | channels
  | channel
  | contrast

/-- What stands in a field: data without any part of the document in it, a part, or a list of
parts. -/
inductive Shape where
  | data
  | part (part : Part)
  | parts (part : Part)

def filterNames : String → List String
  | "and" => ["filters"]
  | "or" => ["filters"]
  | "not" => ["filter"]
  | "comparison" => ["operator", "property", "value"]
  | "isNull" => ["property"]
  | _ => []

def symbolizerNames : String → List String
  | "Mark" => ["wellKnownName", "color", "fillOpacity", "opacity", "radius", "rotate",
      "strokeColor", "strokeWidth", "strokeOpacity"]
  | "Icon" => ["image", "size", "rotate", "opacity"]
  | "Line" => ["color", "width", "opacity", "join", "cap", "dasharray", "dashOffset",
      "perpendicularOffset", "graphicStroke"]
  | "Fill" => ["color", "fillOpacity", "opacity", "outlineColor", "outlineWidth",
      "outlineOpacity", "outlineDasharray", "graphicFill"]
  | "Text" => ["label", "font", "size", "fontStyle", "fontWeight", "color", "haloWidth",
      "haloColor", "haloOpacity", "offset", "rotate"]
  | "Raster" => ["opacity", "colorMap", "channelSelection", "contrastEnhancement"]
  | _ => []

/-- The names that objects of a part with the same tag as these fields use. -/
def Part.names (fs : Fields) : Part → List String
  | style => ["name", "abstract", "rules"]
  | rule => ["name", "filter", "scaleDenominator", "symbolizers"]
  | scale => ["min", "max"]
  | filter => "type" :: (((fs.lookup "type").bind text?).map filterNames).getD []
  | symbolizer => "kind" :: (((fs.lookup "kind").bind text?).map symbolizerNames).getD []
  | colorMap => ["type", "colorMapEntries"]
  | colorMapEntry => ["color", "quantity", "label", "opacity"]
  | channels => ["redChannel", "greenChannel", "blueChannel", "grayChannel"]
  | channel => ["sourceChannelName", "contrastEnhancement"]
  | contrast => ["enhancementType", "gammaValue"]

def Part.shape (part : Part) (name : String) : Shape :=
  match part, name with
  | style, "rules" => .parts rule
  | rule, "filter" => .part filter
  | rule, "scaleDenominator" => .part scale
  | rule, "symbolizers" => .parts symbolizer
  | filter, "filters" => .parts filter
  | filter, "filter" => .part filter
  | symbolizer, "graphicStroke" => .part symbolizer
  | symbolizer, "graphicFill" => .part symbolizer
  | symbolizer, "colorMap" => .part colorMap
  | symbolizer, "channelSelection" => .part channels
  | symbolizer, "contrastEnhancement" => .part contrast
  | colorMap, "colorMapEntries" => .parts colorMapEntry
  | channels, _ => .part channel
  | channel, "contrastEnhancement" => .part contrast
  | _, _ => .data

/-- Fields that may be added to others where some names are in use: those in use stand for
absent fields, at most once each and with null. -/
structure IsAddition (names : List String) (fs added : Fields) : Prop where
  absent : ∀ f ∈ added, f.1 ∈ names → f.1 ∉ fs.map Prod.fst
  null : ∀ f ∈ added, f.1 ∈ names → f.2 = .null
  once : ∀ name ∈ names, (added.filter (·.1 == name)).length ≤ 1

/-- The second tree is the first one with fields added to the parts of the document in it. The
fields of an object may come in any order. -/
inductive Extends : Shape → Tree → Tree → Prop
  | refl (s : Shape) (t : Tree) : Extends s t t
  | parts {p : Part} {ts us : List Tree} (hlength : ts.length = us.length)
      (hitems : ∀ q ∈ ts.zip us, Extends (.part p) q.1 q.2) :
      Extends (.parts p) (.list ts) (.list us)
  | part {p : Part} {fs kept added gs : Fields} (hnames : fs.map Prod.fst = kept.map Prod.fst)
      (hkept : ∀ q ∈ fs.zip kept, Extends (p.shape q.1.1) q.1.2 q.2.2)
      (hadded : IsAddition (p.names fs) fs added) (hperm : gs.Perm (kept ++ added)) :
      Extends (.part p) (.object fs) (.object gs)

variable {α : Type} {p : Part} {s : Shape} {t u : Tree} {name : String} {fs gs : Fields}

theorem Extends.eq_of_data (h : Extends .data t u) : u = t := by
  cases h
  rfl

/-- A list of parts is extended item by item. -/
theorem Extends.list_cases {ts : List Tree} (h : Extends (.parts p) (.list ts) u) :
    ∃ us, u = .list us ∧ List.Forall₂ (Extends (.part p)) ts us := by
  cases h with
  | refl => exact ⟨ts, rfl, List.forall₂_same.mpr fun t _ => .refl _ t⟩
  | @parts _ _ us hlength hitems =>
    exact ⟨us, rfl, List.forall₂_iff_zip.mpr ⟨hlength, fun hq => hitems _ hq⟩⟩

/-- An object is extended field by field, with others added. -/
theorem Extends.object_cases (h : Extends (.part p) (.object fs) u) :
    ∃ gs kept added, u = .object gs ∧ gs.Perm (kept ++ added) ∧
      List.Forall₂ (fun f g => f.1 = g.1 ∧ Extends (p.shape f.1) f.2 g.2) fs kept ∧
      IsAddition (p.names fs) fs added := by
  cases h with
  | refl =>
    refine ⟨fs, fs, [], rfl, by simp, List.forall₂_same.mpr fun f _ => ⟨rfl, .refl _ _⟩, ?_⟩
    exact ⟨nofun, nofun, fun _ _ => Nat.zero_le _⟩
  | @part _ _ kept added gs hnames hkept hadded hperm =>
    refine ⟨gs, kept, added, rfl, hperm, List.forall₂_iff_zip.mpr ⟨?_, fun {f g} hq => ?_⟩, hadded⟩
    · simpa using congrArg List.length hnames
    · obtain ⟨i, hi, hfg⟩ := List.mem_iff_getElem.mp hq
      obtain ⟨rfl, rfl⟩ := Prod.mk.inj (hfg.symm.trans (List.getElem_zip ..))
      refine ⟨?_, hkept _ hq⟩
      have hnamesAt : (fs.map Prod.fst)[i]? = (kept.map Prod.fst)[i]? := by rw [hnames]
      rw [List.length_zip, Nat.lt_min] at hi
      simpa [hi.1, hi.2] using hnamesAt

theorem Extends.of_items {ts us : List Tree} (h : List.Forall₂ (Extends (.part p)) ts us) :
    Extends (.parts p) (.list ts) (.list us) := by
  obtain ⟨hlength, hitems⟩ := List.forall₂_iff_zip.mp h
  exact .parts hlength fun _ hq => hitems hq

theorem Extends.of_fields {kept added : Fields}
    (hkept : List.Forall₂ (fun f g => f.1 = g.1 ∧ Extends (p.shape f.1) f.2 g.2) fs kept)
    (hadded : IsAddition (p.names fs) fs added) (hperm : gs.Perm (kept ++ added)) :
    Extends (.part p) (.object fs) (.object gs) := by
  refine .part ?_ (fun _ hq => ((List.forall₂_iff_zip.mp hkept).2 hq).2) hadded hperm
  exact List.forall₂_eq_eq_eq ▸ List.forall₂_map_left_iff.mpr (List.forall₂_map_right_iff.mpr
    (hkept.imp fun _ _ h => h.1))

/-- What some fields hold under a name: its value or an extension of it, or, where there is no
value, at most null. -/
def Holds (s : Shape) (name : String) (value : Option Tree) (fs : Fields) : Prop :=
  match value with
  | some t => ∃ u, fs.filter (·.1 == name) = [(name, u)] ∧ Extends s t u
  | none => fs.filter (·.1 == name) = [] ∨ fs.filter (·.1 == name) = [(name, .null)]

/-- The fields of a record, each with its value unless it is left out. -/
abbrev Slots := List (String × Option Tree)

def present (slots : Slots) : Fields := slots.flatMap fun slot => field slot.1 id slot.2

section Fields

variable {slots : Slots} {value : Option Tree}

theorem lookup_eq_head?_filter (name : String) (fs : Fields) :
    fs.lookup name = ((fs.filter (·.1 == name)).head?).map Prod.snd := by
  induction fs with
  | nil => rfl
  | cons f fs ih =>
    rw [List.lookup_cons, List.filter_cons, BEq.comm]
    cases f.1 == name with
    | true => rfl
    | false => exact ih

theorem fst_mem_of_mem_present {f : String × Tree} (hf : f ∈ present slots) :
    f.1 ∈ slots.map Prod.fst := by
  obtain ⟨⟨name, value⟩, hslot, hf⟩ := List.mem_flatMap.mp hf
  cases value with
  | none => cases hf
  | some t =>
    obtain rfl : f = (name, t) := List.mem_singleton.mp hf
    exact List.mem_map_of_mem (f := Prod.fst) hslot

theorem filter_field (name other : String) (value : Option Tree) :
    (field other id value).filter (·.1 == name) =
      if other = name then field name id value else [] := by
  by_cases h : other = name
  · subst h
    cases value <;> simp [field]
  · cases value <;> simp [field, h]

/-- Of the fields of a record, those with the name of a slot are the one in the slot, if any. -/
theorem filter_present (hnodup : (slots.map Prod.fst).Nodup) (hslot : (name, value) ∈ slots) :
    (present slots).filter (·.1 == name) = field name id value := by
  induction slots with
  | nil => cases hslot
  | cons slot slots ih =>
    obtain ⟨hne, hnodup⟩ := List.nodup_cons.mp hnodup
    have hcons : present (slot :: slots) = field slot.1 id slot.2 ++ present slots :=
      List.flatMap_cons
    rw [hcons, List.filter_append, filter_field]
    rcases List.mem_cons.mp hslot with rfl | hslot
    · have hrest : (present slots).filter (·.1 == name) = [] := by
        rw [List.filter_eq_nil_iff]
        intro f hf hname
        rw [beq_iff_eq] at hname
        exact hne (hname ▸ fst_mem_of_mem_present hf)
      rw [if_pos rfl, hrest, List.append_nil]
    · have hmem : name ∈ slots.map Prod.fst := List.mem_map_of_mem (f := Prod.fst) hslot
      have hother : slot.1 ≠ name := fun hsame => hne (hsame ▸ hmem)
      rw [if_neg hother, ih hnodup hslot, List.nil_append]

/-- Nothing is added under a name in use that is present. -/
theorem IsAddition.filter_eq_nil {names : List String} (h : IsAddition names fs gs)
    (hname : name ∈ names) (hpresent : name ∈ fs.map Prod.fst) : gs.filter (·.1 == name) = [] := by
  rw [List.filter_eq_nil_iff]
  intro f hf hfname
  rw [beq_iff_eq] at hfname
  exact h.absent f hf (hfname ▸ hname) (hfname ▸ hpresent)

theorem IsAddition.filter_cases {names : List String} (h : IsAddition names fs gs)
    (hname : name ∈ names) :
    gs.filter (·.1 == name) = [] ∨ gs.filter (·.1 == name) = [(name, .null)] := by
  have honce := h.once name hname
  match hadded : gs.filter (·.1 == name), honce with
  | [], _ => exact Or.inl hadded
  | [f], _ =>
    obtain ⟨hf, hfname⟩ := List.mem_filter.mp (hadded ▸ List.mem_singleton_self f)
    rw [beq_iff_eq] at hfname
    have hnull : f = (name, .null) := Prod.ext hfname (h.null f hf (hfname ▸ hname))
    exact Or.inr (hnull ▸ hadded)
  | _ :: _ :: _, hlength => exact absurd (hadded ▸ hlength) (by simp)

/-- An extension of a record holds the values of the record under the names of its part. -/
theorem Extends.exists_holds (h : Extends (.part p) (.object (present slots)) u)
    (hnodup : (slots.map Prod.fst).Nodup)
    (hnames : ∀ slot ∈ slots, slot.1 ∈ p.names (present slots)) :
    ∃ gs, u = .object gs ∧ ∀ slot ∈ slots, Holds (p.shape slot.1) slot.1 slot.2 gs := by
  obtain ⟨gs, kept, added, rfl, hperm, hkept, hadded⟩ := h.object_cases
  refine ⟨gs, rfl, fun ⟨name, value⟩ hslot => ?_⟩
  have hname := hnames _ hslot
  have hown := List.rel_filter (p := (·.1 == name)) (q := (·.1 == name))
    (fun f g hfg => by simp only [hfg.1]) hkept
  rw [filter_present hnodup hslot] at hown
  have hgs := hperm.filter (·.1 == name)
  rw [List.filter_append] at hgs
  cases value with
  | some t =>
    obtain ⟨⟨_, u⟩, rest, ⟨hsame, hextends⟩, hrest, hfilter⟩ := List.forall₂_cons_left_iff.mp hown
    cases hrest
    obtain rfl : name = _ := hsame
    have hmem : (name, t) ∈ (present slots).filter (·.1 == name) := by
      rw [filter_present hnodup hslot]
      exact List.mem_singleton_self _
    have hpresent : name ∈ (present slots).map Prod.fst :=
      List.mem_map_of_mem (f := Prod.fst) (List.mem_filter.mp hmem).1
    rw [hfilter, hadded.filter_eq_nil hname hpresent] at hgs
    exact ⟨u, hgs.eq_singleton, hextends⟩
  | none =>
    have hnil : kept.filter (·.1 == name) = [] := List.forall₂_nil_left_iff.mp hown
    rw [hnil, List.nil_append] at hgs
    rcases hadded.filter_cases hname with hnone | hnull
    · exact Or.inl (hnone ▸ hgs).eq_nil
    · exact Or.inr (hnull ▸ hgs).eq_singleton

end Fields

section Reading

variable {value : Option α} {write : α → Tree} {read : Tree → Option α} {a : α}

theorem Holds.length_le {value : Option Tree} (h : Holds s name value gs) :
    (gs.filter (·.1 == name)).length ≤ 1 := by
  cases value with
  | some t =>
    obtain ⟨u, hu, -⟩ := h
    exact Nat.le_of_eq (congrArg List.length hu)
  | none =>
    rcases h with hnone | hnull
    · exact Nat.le_succ_of_le (Nat.le_of_eq (congrArg List.length hnone))
    · exact Nat.le_of_eq (congrArg List.length hnull)

theorem Holds.unrepeated {value : Option Tree} (h : Holds s name value gs) :
    unrepeated [name] gs = true := by
  simpa [Tree.unrepeated] using h.length_le

theorem unrepeated_of_holds {shape : String → Shape} {slots : Slots}
    (h : ∀ slot ∈ slots, Holds (shape slot.1) slot.1 slot.2 gs) :
    unrepeated (slots.map Prod.fst) gs = true := by
  rw [unrepeated, List.all_map, List.all_eq_true]
  intro slot hslot
  exact decide_eq_true (h slot hslot).length_le

theorem Holds.exists_lookup (h : Holds s name (some t) gs) :
    ∃ u, gs.lookup name = some u ∧ Extends s t u := by
  obtain ⟨u, hu, hextends⟩ := h
  exact ⟨u, by rw [lookup_eq_head?_filter, hu]; rfl, hextends⟩

theorem Holds.lookup_none (h : Holds s name none gs) :
    gs.lookup name = none ∨ gs.lookup name = some .null := by
  rw [lookup_eq_head?_filter]
  rcases h with hnone | hnull
  · exact Or.inl (by rw [hnone]; rfl)
  · exact Or.inr (by rw [hnull]; rfl)

theorem Holds.required (h : Holds s name (some t) gs)
    (hread : ∀ u, Extends s t u → read u = some a) : required read name gs = some a := by
  obtain ⟨u, hu, hextends⟩ := h.exists_lookup
  rw [Tree.required, hu]
  exact hread u hextends

theorem Holds.optional (h : Holds s name (value.map write) gs) (hnull : read .null = none)
    (hread : ∀ a ∈ value, ∀ u, Extends s (write a) u → read u = some a) :
    optional read name gs = some value := by
  rw [Tree.optional]
  cases value with
  | none => rcases h.lookup_none with hnone | hnone <;> rw [hnone]
  | some a =>
    obtain ⟨u, hu, hextends⟩ := h.exists_lookup
    have hread := hread a rfl u hextends
    have hne : u ≠ .null := by
      rintro rfl
      rw [hnull] at hread
      cases hread
    have hmap : (read u).map some = some (some a) := congrArg (Option.map some) hread
    rw [hu]
    cases u with
    | null => exact absurd rfl hne
    | _ => exact hmap

/-- Other fields hold the same after the tag is taken away. -/
theorem Holds.of_ne {value : Option Tree} (h : Holds s name value gs) {tag : String}
    (hne : name ≠ tag) : Holds s name value (gs.filter (·.1 != tag)) := by
  have hfilter : (gs.filter (·.1 != tag)).filter (·.1 == name) = gs.filter (·.1 == name) := by
    rw [List.filter_filter]
    refine List.filter_congr fun f _ => ?_
    by_cases hf : f.1 = name <;> simp [hf, hne]
  unfold Holds
  rwa [hfilter]

theorem Holds.text {value : Option String} (h : Holds .data name (value.map .text) gs) :
    Tree.optional text? name gs = some value :=
  h.optional rfl fun _ _ _ hu => by rw [hu.eq_of_data]; rfl

theorem Holds.number {value : Option Float} (h : Holds .data name (value.map .number) gs) :
    Tree.optional number? name gs = some value :=
  h.optional rfl fun _ _ _ hu => by rw [hu.eq_of_data]; rfl

theorem mapM_map_eq {ι : Type} {read : Tree → Option ι} {write : ι → Tree} (xs : List ι)
    (h : ∀ x, read (write x) = some x) : (xs.map write).mapM read = some xs := by
  induction xs with
  | nil => rfl
  | cons x xs ih => rw [List.map_cons, List.mapM_cons, h x, ih]; rfl

theorem Holds.texts {value : Option (List String)} (h : Holds .data name (value.map texts) gs) :
    Tree.optional (list? text?) name gs = some value :=
  h.optional rfl fun ss _ _ hu => by
    rw [hu.eq_of_data]
    exact mapM_map_eq ss fun _ => rfl

theorem Holds.numbers {value : Option (List Float)}
    (h : Holds .data name (value.map numbers) gs) :
    Tree.optional (list? number?) name gs = some value :=
  h.optional rfl fun xs _ _ hu => by
    rw [hu.eq_of_data]
    exact mapM_map_eq xs fun _ => rfl

theorem spelled?_text {spelling : α → String} {values : List α}
    (h : ∀ v, values.find? (spelling · == spelling v) = some v) (v : α) :
    spelled? spelling values (.text (spelling v)) = some v := h v

/-- A list of parts is read item by item. -/
theorem Extends.list?_eq {xs : List α} (h : Extends (.parts p) (.list (xs.map write)) u)
    (hread : ∀ x ∈ xs, ∀ t, Extends (.part p) (write x) t → read t = some x) :
    list? read u = some xs := by
  obtain ⟨us, rfl, hitems⟩ := h.list_cases
  rw [list?]
  clear h
  induction xs generalizing us with
  | nil =>
    rw [List.map_nil, List.forall₂_nil_left_iff] at hitems
    rw [hitems]
    rfl
  | cons x xs ih =>
    obtain ⟨hx, hxs⟩ := List.forall_mem_cons.mp hread
    obtain ⟨t, ts, ht, hts, rfl⟩ := List.forall₂_cons_left_iff.mp hitems
    rw [List.mapM_cons, hx t ht, ih hxs ts hts]
    rfl

/-- The object of a symbolizer is known by its kind, and the rest holds what it held. -/
theorem Extends.exists_tagged? {kind : String} {slots : Slots}
    (h : Extends (.part .symbolizer) (.object (("kind", .text kind) :: present slots)) u)
    (hnames : slots.map Prod.fst = symbolizerNames kind)
    (hnodup : ("kind" :: symbolizerNames kind).Nodup) :
    ∃ gs, u.tagged? "kind" = some (kind, .object gs) ∧
      ∀ slot ∈ slots, Holds (Part.shape .symbolizer slot.1) slot.1 slot.2 gs := by
  rw [← hnames] at hnodup
  have hobject :
      Extends (.part .symbolizer) (.object (present (("kind", some (.text kind)) :: slots))) u := h
  have hnames : ∀ slot ∈ ("kind", some (.text kind)) :: slots, slot.1 ∈
      Part.names (present (("kind", some (.text kind)) :: slots)) .symbolizer := by
    intro slot hslot
    show slot.1 ∈ "kind" :: symbolizerNames kind
    rw [← hnames]
    exact List.mem_map_of_mem (f := Prod.fst) hslot
  obtain ⟨gs, rfl, hholds⟩ := hobject.exists_holds hnodup hnames
  obtain ⟨htag, hslots⟩ := List.forall_mem_cons.mp hholds
  obtain ⟨t, hlookup, ht⟩ := htag.exists_lookup
  obtain rfl := ht.eq_of_data
  refine ⟨gs.filter (·.1 != "kind"), ?_, fun slot hslot => (hslots slot hslot).of_ne ?_⟩
  · rw [tagged?, htag.unrepeated, hlookup]
    rfl
  · rintro hkind
    exact (List.nodup_cons.mp hnodup).1 (hkind ▸ List.mem_map_of_mem (f := Prod.fst) hslot)

end Reading

end CartoStyle.Tree
