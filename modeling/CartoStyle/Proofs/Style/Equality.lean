import CartoStyle.Proofs.Decimal.Double
import CartoStyle.Proofs.Style.Row

/-!
Symbolizers with written forms equal themselves, since none of their numbers is missing. Of
equal symbolizers the reader keeps the first, so a list keeps all of its symbolizers up to
equality.
-/

namespace CartoStyle.Style

open Decimal

section Fields

variable {α : Type} [BEq α]

theorem option_beq_self {x : Option α} (h : ∀ y ∈ x, (y == y) = true) : (x == x) = true := by
  cases x with
  | none => rfl
  | some y => exact h y rfl

theorem list_beq_self {xs : List α} (h : ∀ x ∈ xs, (x == x) = true) : (xs == xs) = true := by
  induction xs with
  | nil => rfl
  | cons x xs ih =>
    rw [List.cons_beq_cons, h x List.mem_cons_self, ih fun y hy => h y (List.mem_cons_of_mem x hy)]
    rfl

theorem number_beq_self {x : Option Float} (h : ∀ y ∈ x, IsNumber y) : (x == x) = true :=
  option_beq_self fun y hy => Decimal.beq_self (h y hy).finite

theorem numbers_beq_self {xs : Option (List Float)} (h : ∀ ys ∈ xs, IsNumbers ys) :
    (xs == xs) = true :=
  option_beq_self fun ys hys => list_beq_self fun y hy =>
    Decimal.beq_self ((h ys hys).numbers y hy).finite

end Fields

section Symbolizers

theorem Mark.beq_self {m : Mark} (h : m.IsWritable) : (m == m) = true := by
  have hradius : (m.radius == m.radius) = true :=
    option_beq_self fun x hx => Decimal.beq_self_of_mul (h.radius x hx).double.finite
  show instBEqMark.beq m m = true
  simp [instBEqMark.beq, hradius, number_beq_self h.fillOpacity, number_beq_self h.opacity,
    number_beq_self h.rotate, number_beq_self h.strokeWidth, number_beq_self h.strokeOpacity]

theorem Icon.beq_self {i : Icon} (h : i.IsWritable) : (i == i) = true := by
  show instBEqIcon.beq i i = true
  simp [instBEqIcon.beq, number_beq_self h.size, number_beq_self h.rotate,
    number_beq_self h.opacity]

theorem Graphic.beq_self {g : Graphic} (h : g.IsWritable) : (g == g) = true := by
  cases g with
  | mark m => exact Mark.beq_self h
  | icon i => exact Icon.beq_self h

theorem Line.beq_self {l : Line} (h : l.IsWritable) : (l == l) = true := by
  have hgraphic : (l.graphicStroke == l.graphicStroke) = true :=
    option_beq_self fun g hg => Graphic.beq_self (h.graphicStroke g hg)
  show instBEqLine.beq l l = true
  simp [instBEqLine.beq, hgraphic, number_beq_self h.width, number_beq_self h.opacity,
    numbers_beq_self h.dasharray, number_beq_self h.dashOffset,
    number_beq_self h.perpendicularOffset]

theorem Fill.beq_self {f : Fill} (h : f.IsWritable) : (f == f) = true := by
  have hgraphic : (f.graphicFill == f.graphicFill) = true :=
    option_beq_self fun g hg => Graphic.beq_self (h.graphicFill g hg)
  have hopacity : (f.opacity == f.opacity) = true := by
    rw [h.opacity]
    split
    · exact option_beq_self fun x hx => by
        obtain rfl := Option.some.inj hx
        decide
    · rfl
  show instBEqFill.beq f f = true
  simp [instBEqFill.beq, hgraphic, hopacity, number_beq_self h.fillOpacity,
    number_beq_self h.outlineWidth, number_beq_self h.outlineOpacity,
    numbers_beq_self h.outlineDasharray]

theorem Label.beq_self {l : Label} (h : l.IsWritable) : (l == l) = true := by
  have hoffset : (l.offset == l.offset) = true := option_beq_self fun p hp => by
    obtain ⟨hx, hy⟩ := h.offset p hp
    show (p.1 == p.1 && p.2 == p.2) = true
    rw [Decimal.beq_self hx.finite, Decimal.beq_self hy.finite]
    rfl
  show instBEqLabel.beq l l = true
  simp [instBEqLabel.beq, hoffset, number_beq_self h.size, number_beq_self h.haloWidth,
    number_beq_self h.haloOpacity, number_beq_self h.rotate]

theorem ColorMapEntry.beq_self {e : ColorMapEntry} (h : e.IsWritable) : (e == e) = true := by
  show instBEqColorMapEntry.beq e e = true
  simp [instBEqColorMapEntry.beq, number_beq_self h.quantity, number_beq_self h.opacity]

theorem ColorMap.beq_self {m : ColorMap} (h : m.IsWritable) : (m == m) = true := by
  have hentries : (m.entries == m.entries) = true :=
    option_beq_self fun es hes => list_beq_self fun e he =>
      ColorMapEntry.beq_self (h.entries es hes e he)
  show instBEqColorMap.beq m m = true
  simp [instBEqColorMap.beq, hentries]

theorem contrast_beq_self {c : Option Contrast} (h : ∀ x ∈ c, ∀ y ∈ x.gamma, IsNumber y) :
    (c == c) = true :=
  option_beq_self fun x hx => by
    show instBEqContrast.beq x x = true
    simp [instBEqContrast.beq, number_beq_self (h x hx)]

theorem Channel.beq_self {c : Channel} (h : ∀ x ∈ c.contrast, ∀ y ∈ x.gamma, IsNumber y) :
    (c == c) = true := by
  show instBEqChannel.beq c c = true
  simp [instBEqChannel.beq, contrast_beq_self h]

theorem Raster.beq_self {r : Raster} (h : r.IsWritable) : (r == r) = true := by
  have hcolorMap : (r.colorMap == r.colorMap) = true :=
    option_beq_self fun m hm => ColorMap.beq_self (h.colorMap m hm)
  have hgamma : ∀ c ∈ r.contrasts, ∀ x ∈ c, ∀ y ∈ x.gamma, IsNumber y := by
    intro c hc x hx y hy
    refine (h.numbers y (List.mem_map.mpr ⟨c, hc, ?_⟩)).1
    rw [hx, Option.bind_some, hy]
  have hchannels : (r.channels == r.channels) = true := by
    refine option_beq_self fun channels hchannels => ?_
    rw [contrasts, hchannels] at hgamma
    cases channels with
    | rgb red green blue =>
      show (red == red && (green == green && blue == blue)) = true
      rw [Channel.beq_self (hgamma _ (by simp)), Channel.beq_self (hgamma _ (by simp)),
        Channel.beq_self (hgamma _ (by simp))]
      rfl
    | gray gray => exact Channel.beq_self (hgamma _ (by simp))
  have hcontrast : (r.contrast == r.contrast) = true := by
    cases hnone : r.channels with
    | some channels =>
      rw [h.selected (by rw [hnone]; rfl)]
      rfl
    | none =>
      rw [contrasts, hnone] at hgamma
      exact contrast_beq_self (hgamma _ (by simp))
  show instBEqRaster.beq r r = true
  simp [instBEqRaster.beq, hcolorMap, hchannels, hcontrast, number_beq_self h.opacity]

/-- A symbolizer with a written form equals itself. -/
theorem Symbolizer.beq_self {s : Symbolizer} (h : s.IsWritable) : (s == s) = true := by
  cases s with
  | mark m => exact Mark.beq_self h
  | icon i => exact Icon.beq_self h
  | line l => exact Line.beq_self h
  | fill f => exact Fill.beq_self h
  | label l => exact Label.beq_self h
  | raster r => exact Raster.beq_self h

end Symbolizers

section Distinct

variable {α : Type} [BEq α] {xs ys : List α}

theorem distinct_append (xs ys : List α) : distinct (xs ++ ys) =
    ys.foldl (fun kept y => if kept.any (· == y) then kept else kept ++ [y]) (distinct xs) := by
  rw [distinct, List.foldl_append]
  rfl

theorem mem_foldl_distinct {kept : List α} {x : α} (h : x ∈ kept) :
    x ∈ xs.foldl (fun kept y => if kept.any (· == y) then kept else kept ++ [y]) kept := by
  induction xs generalizing kept with
  | nil => exact h
  | cons y xs ih =>
    rw [List.foldl_cons]
    refine ih ?_
    split
    · exact h
    · exact List.mem_append_left _ h

/-- An item that equals itself is kept up to equality. -/
theorem any_distinct_of_mem {x : α} (hx : x ∈ xs) (hself : (x == x) = true) :
    (distinct xs).any (· == x) = true := by
  obtain ⟨before, after, rfl⟩ := List.append_of_mem hx
  rw [distinct_append, List.foldl_cons]
  split
  · next hany =>
    obtain ⟨y, hy, hyx⟩ := List.any_eq_true.mp hany
    exact List.any_eq_true.mpr ⟨y, mem_foldl_distinct hy, hyx⟩
  · exact List.any_eq_true.mpr ⟨x, mem_foldl_distinct (by simp), hself⟩

/-- Items that are there already change nothing. -/
theorem distinct_append_eq (h : ∀ y ∈ ys, (distinct xs).any (· == y) = true) :
    distinct (xs ++ ys) = distinct xs := by
  rw [distinct_append]
  induction ys with
  | nil => rfl
  | cons y ys ih =>
    rw [List.foldl_cons, if_pos (h y List.mem_cons_self)]
    exact ih fun z hz => h z (List.mem_cons_of_mem y hz)

/-- What is kept stands in its order. -/
theorem distinct_sublist (xs : List α) : (distinct xs).Sublist xs := by
  have hfoldl (kept : List α) : (xs.foldl
      (fun kept y => if kept.any (· == y) then kept else kept ++ [y]) kept).Sublist
        (kept ++ xs) := by
    induction xs generalizing kept with
    | nil => simp
    | cons x xs ih =>
      rw [List.foldl_cons]
      split
      · exact (ih kept).trans (List.Sublist.append_left (List.sublist_cons_self x xs) kept)
      · simpa using ih (kept ++ [x])
  exact hfoldl []

/-- Nothing is dropped from a list without equal items. -/
theorem distinct_eq_self (h : xs.Pairwise fun x y => (x == y) = false) : distinct xs = xs := by
  have hfoldl (kept : List α) (hkept : (kept ++ xs).Pairwise fun x y => (x == y) = false) :
      xs.foldl (fun kept y => if kept.any (· == y) then kept else kept ++ [y]) kept =
        kept ++ xs := by
    clear h
    induction xs generalizing kept with
    | nil => simp
    | cons x xs ih =>
      have hnew : kept.any (· == x) = false := by
        rw [List.any_eq_false]
        intro y hy
        rw [(List.pairwise_append.mp hkept).2.2 y hy x List.mem_cons_self]
        exact Bool.false_ne_true
      rw [List.foldl_cons, hnew]
      simpa using ih (kept ++ [x]) (by simpa using hkept)
  exact hfoldl [] h

/-- Equal rows are one row. -/
theorem distinct_flatten_eq {row : List α} {rows : List (List α)} (hne : rows ≠ [])
    (hrows : ∀ r ∈ rows, r = row) (hself : ∀ x ∈ row, (x == x) = true) :
    distinct rows.flatten = distinct row := by
  cases rows with
  | nil => exact absurd rfl hne
  | cons first rest =>
    obtain rfl : first = row := hrows first List.mem_cons_self
    rw [List.flatten_cons]
    refine distinct_append_eq fun y hy => ?_
    obtain ⟨r, hr, hy⟩ := List.mem_flatten.mp hy
    rw [hrows r (List.mem_cons_of_mem _ hr)] at hy
    exact any_distinct_of_mem hy (hself y hy)

end Distinct

end CartoStyle.Style
