import CartoStyle.Proofs.Decimal.Numeral
import CartoStyle.Proofs.Decimal.Shortest
import CartoStyle.Proofs.Text.Character

/-!
Written numbers are read back. The text of a number is digits, perhaps with a
fraction and a power of ten, whatever its layout. What is read from the text is
the double nearest to the number that the digits stand for, which is the one
that was written.
-/

namespace CartoStyle.Decimal

theorem ofDigits_toDigits (n : Nat) : ofDigits (Nat.toDigits 10 n) = n :=
  Nat.ofDigitChars_ten_toDigits

theorem ofDigits_append_zeros (cs : List Char) (n : Nat) :
    ofDigits (cs ++ List.replicate n '0') = ofDigits cs * 10 ^ n := by
  show Nat.ofDigitChars 10 (cs ++ List.replicate n '0') 0 = Nat.ofDigitChars 10 cs 0 * 10 ^ n
  rw [Nat.ofDigitChars_append, Nat.ofDigitChars_replicate_zero, Nat.mul_comm]

theorem ofDigits_zeros_append (n : Nat) (cs : List Char) :
    ofDigits (List.replicate n '0' ++ cs) = ofDigits cs := by
  show Nat.ofDigitChars 10 (List.replicate n '0' ++ cs) 0 = Nat.ofDigitChars 10 cs 0
  rw [Nat.ofDigitChars_append, Nat.ofDigitChars_replicate_zero, Nat.mul_zero]

theorem ne_of_isDigit {c d : Char} (hc : c.isDigit = true) (hd : d.isDigit = false) : c ≠ d := by
  rintro rfl
  rw [hc] at hd
  cases hd

theorem exponentPart?_minus {ds : List Char} (hne : ds ≠ [])
    (hds : ∀ c ∈ ds, c.isDigit = true) :
    exponentPart? ('e' :: '-' :: ds) = some (-(ofDigits ds : Int)) := by
  have hchecked : (!ds.isEmpty && ds.all Char.isDigit) = true := by
    rw [Bool.and_eq_true, List.all_eq_true]
    exact ⟨by simpa using hne, hds⟩
  exact if_pos hchecked

theorem exponentPart?_digits {ds : List Char} (hne : ds ≠ []) (hds : ∀ c ∈ ds, c.isDigit = true) :
    exponentPart? ('e' :: ds) = some (ofDigits ds : Int) := by
  have hchecked : (!ds.isEmpty && ds.all Char.isDigit) = true := by
    rw [Bool.and_eq_true, List.all_eq_true]
    exact ⟨by simpa using hne, hds⟩
  rw [exponentPart?]
  · exact if_pos hchecked
  · rintro digits rfl
    exact absurd (hds '-' List.mem_cons_self) (by decide)
  · rintro digits rfl
    exact absurd (hds '+' List.mem_cons_self) (by decide)

/-- The digits at the start of a text end where something else follows. -/
theorem span_digits {ds rest : List Char} (hds : ∀ c ∈ ds, c.isDigit = true)
    (hrest : ∀ c ∈ rest.head?, c.isDigit = false) :
    (ds ++ rest).takeWhile Char.isDigit = ds ∧ (ds ++ rest).dropWhile Char.isDigit = rest := by
  rw [List.takeWhile_append_of_pos hds, List.dropWhile_append_of_pos hds]
  cases rest with
  | nil => exact ⟨List.append_nil _, rfl⟩
  | cons c cs =>
    have hc := hrest c rfl
    rw [List.takeWhile_cons_of_neg (by simp [hc]), List.dropWhile_cons_of_neg (by simp [hc])]
    exact ⟨List.append_nil _, rfl⟩

/-- A text that begins with a digit is none of the names of numbers. -/
theorem map_toLower_beq_name {c d : Char} {cs ds name : List Char} (hc : c.isDigit = true)
    (hname : name = d :: ds) (hd : d.isDigit = false) :
    ((c :: cs).map Char.toLower == name) = false := by
  rw [beq_eq_false_iff_ne, hname]
  intro heq
  have hhead : c.toLower = d := (List.cons.inj heq).1
  rw [Text.toLower_of_isDigit hc] at hhead
  exact ne_of_isDigit hc hd hhead

structure Written where
  whole : List Char
  fraction : List Char
  power : Option Int

namespace Written

def powerText : Option Int → List Char
  | none => []
  | some n => 'e' :: ((if n < 0 then ['-'] else []) ++ Nat.toDigits 10 n.natAbs)

def fractionText (fraction : List Char) : List Char :=
  if fraction.isEmpty then [] else '.' :: fraction

def text (w : Written) : List Char := w.whole ++ fractionText w.fraction ++ powerText w.power

def coefficient (w : Written) : Nat := ofDigits (w.whole ++ w.fraction)

def exponent (w : Written) : Int := w.power.getD 0 - w.fraction.length

/-- The whole part and the fraction are digits, and the whole part does not begin with a needless
zero. -/
structure IsNumeral (w : Written) : Prop where
  nonempty : w.whole ≠ []
  whole : ∀ c ∈ w.whole, c.isDigit = true
  fraction : ∀ c ∈ w.fraction, c.isDigit = true
  leading : w.whole.head? ≠ some '0' ∨ w.whole.length = 1

variable {w : Written}

theorem exponentPart?_powerText (power : Option Int) :
    exponentPart? (powerText power) = some (power.getD 0) := by
  cases power with
  | none => rfl
  | some n =>
    have hdigits : ∀ c ∈ Nat.toDigits 10 n.natAbs, c.isDigit = true := fun c hc =>
      Nat.isDigit_of_mem_toDigits (by decide) (by decide) hc
    rw [powerText]
    by_cases hn : n < 0
    · rw [if_pos hn, List.singleton_append, exponentPart?_minus Nat.toDigits_ne_nil hdigits,
        ofDigits_toDigits, Option.getD_some]
      congr 1
      omega
    · rw [if_neg hn, List.nil_append, exponentPart?_digits Nat.toDigits_ne_nil hdigits,
        ofDigits_toDigits, Option.getD_some]
      congr 1
      omega

theorem isDigit_of_head?_powerText (power : Option Int) :
    ∀ c ∈ (powerText power).head?, c.isDigit = false := by
  cases power with
  | none => nofun
  | some n =>
    rintro c hc
    obtain rfl : 'e' = c := Option.some.inj hc
    decide

theorem isDigit_of_head?_fractionText (fraction : List Char) (power : Option Int) :
    ∀ c ∈ (fractionText fraction ++ powerText power).head?, c.isDigit = false := by
  cases fraction with
  | nil => exact isDigit_of_head?_powerText power
  | cons d ds =>
    rintro c hc
    obtain rfl : '.' = c := Option.some.inj hc
    decide

theorem IsNumeral.exists_text_cons (h : w.IsNumeral) :
    ∃ c cs, w.text = c :: cs ∧ c.isDigit = true := by
  obtain ⟨c, cs, hwhole⟩ := List.exists_cons_of_ne_nil h.nonempty
  refine ⟨c, cs ++ fractionText w.fraction ++ powerText w.power, ?_,
    h.whole c (hwhole ▸ List.mem_cons_self)⟩
  rw [text, hwhole]
  rfl

theorem magnitude?_text (h : w.IsNumeral) :
    magnitude? w.text = some (nearest w.coefficient w.exponent) := by
  obtain ⟨whole, fraction, power⟩ := w
  obtain ⟨c, cs, rfl⟩ := List.exists_cons_of_ne_nil h.nonempty
  have hc : c.isDigit = true := h.whole c List.mem_cons_self
  have htext : text ⟨c :: cs, fraction, power⟩ =
      c :: cs ++ (fractionText fraction ++ powerText power) := List.append_assoc _ _ _
  obtain ⟨htake, hdrop⟩ := span_digits h.whole (isDigit_of_head?_fractionText fraction power)
  rw [htext, magnitude?]
  simp only [htake, hdrop]
  rw [List.cons_append, map_toLower_beq_name hc (rfl : "inf".toList = 'i' :: _) (by decide),
    map_toLower_beq_name hc (rfl : "infinity".toList = 'i' :: _) (by decide),
    map_toLower_beq_name hc (rfl : "nan".toList = 'n' :: _) (by decide)]
  simp only [Bool.or_self, Bool.false_eq_true, if_false]
  cases fraction with
  | nil =>
    have hread : (exponentPart? (powerText power)).map
        (fun n => nearest (ofDigits (c :: cs ++ [])) (n - ([] : List Char).length)) =
          some (nearest (ofDigits (c :: cs ++ [])) (power.getD 0 - ([] : List Char).length)) := by
      rw [exponentPart?_powerText, Option.map_some]
    cases power with
    | none => exact hread
    | some n => exact hread
  | cons d ds =>
    obtain ⟨htake, hdrop⟩ := span_digits h.fraction (isDigit_of_head?_powerText power)
    show (if (c :: cs).isEmpty && ((d :: ds ++ powerText power).takeWhile Char.isDigit).isEmpty
      then none
      else (exponentPart? ((d :: ds ++ powerText power).dropWhile Char.isDigit)).map fun n =>
        nearest (ofDigits (c :: cs ++ (d :: ds ++ powerText power).takeWhile Char.isDigit))
          (n - ((d :: ds ++ powerText power).takeWhile Char.isDigit).length)) = _
    rw [htake, hdrop, exponentPart?_powerText]
    rfl

end Written

section Layouts

/-- Digits do not begin with a zero. -/
theorem head?_toDigits {n : Nat} (hn : n ≠ 0) : (Nat.toDigits 10 n).head? ≠ some '0' := by
  induction n using Nat.strongRecOn with
  | _ n ih =>
    rw [Nat.toDigits_eq_if (by decide)]
    by_cases hlt : n < 10
    · rw [if_pos hlt]
      interval_cases n <;> first | exact absurd rfl hn | decide
    · rw [if_neg hlt, List.head?_append_of_ne_nil _ Nat.toDigits_ne_nil]
      exact ih (n / 10) (by omega) (by omega)

structure AreDigits (ds : List Char) : Prop where
  nonempty : ds ≠ []
  digits : ∀ c ∈ ds, c.isDigit = true
  leading : ds.head? ≠ some '0'

theorem areDigits_toDigits {n : Nat} (hn : n ≠ 0) : AreDigits (Nat.toDigits 10 n) :=
  ⟨Nat.toDigits_ne_nil, fun _ hc => Nat.isDigit_of_mem_toDigits (by decide) (by decide) hc,
    head?_toDigits hn⟩

variable {ds : List Char}

theorem isDigit_of_mem_replicate {n : Nat} : ∀ c ∈ List.replicate n '0', c.isDigit = true := by
  intro c hc
  rw [(List.mem_replicate.mp hc).2]
  decide

theorem forall_mem_append {p : Char → Prop} {as bs : List Char} (has : ∀ c ∈ as, p c)
    (hbs : ∀ c ∈ bs, p c) : ∀ c ∈ as ++ bs, p c := fun c hc =>
  (List.mem_append.mp hc).elim (has c) (hbs c)

/-- The point before the digits, with zeros between. -/
theorem exists_written_before (hds : AreDigits ds) (n : Nat) :
    ∃ w : Written, w.text = '0' :: '.' :: (List.replicate n '0' ++ ds) ∧ w.IsNumeral ∧
      w.coefficient = ofDigits ds ∧ w.exponent = -(n + ds.length : Int) := by
  refine ⟨⟨['0'], List.replicate n '0' ++ ds, none⟩, ?_, ⟨by simp, by simp, ?_, by simp⟩, ?_, ?_⟩
  · have hfraction : (List.replicate n '0' ++ ds).isEmpty = false := by simp [hds.nonempty]
    rw [Written.text, Written.fractionText, hfraction]
    exact List.append_nil _
  · exact forall_mem_append isDigit_of_mem_replicate hds.digits
  · exact ofDigits_zeros_append (n + 1) ds
  · show (0 : Int) - (List.replicate n '0' ++ ds).length = _
    rw [List.length_append, List.length_replicate]
    omega

/-- The digits before the point, with zeros between. -/
theorem exists_written_after (hds : AreDigits ds) (keepsPoint : Bool) (n : Nat) :
    ∃ w : Written,
      w.text = ds ++ List.replicate n '0' ++ (if keepsPoint then ['.', '0'] else []) ∧
        w.IsNumeral ∧ (w.coefficient * 10 ^ w.exponent : ℚ) = ofDigits ds * 10 ^ n := by
  have hdigits : ∀ c ∈ ds ++ List.replicate n '0', c.isDigit = true :=
    forall_mem_append hds.digits isDigit_of_mem_replicate
  have hhead : (ds ++ List.replicate n '0').head? ≠ some '0' := by
    rw [List.head?_append_of_ne_nil _ hds.nonempty]
    exact hds.leading
  refine ⟨⟨ds ++ List.replicate n '0', if keepsPoint then ['0'] else [], none⟩, ?_,
    ⟨by simp [hds.nonempty], hdigits, ?_, Or.inl hhead⟩, ?_⟩
  · cases keepsPoint with
    | true => exact List.append_nil _
    | false => exact (List.append_nil _).trans rfl
  · cases keepsPoint <;> simp
  · cases keepsPoint with
    | true =>
      show ((ofDigits (ds ++ List.replicate n '0' ++ ['0']) : ℕ) * 10 ^ (-1 : Int) : ℚ) = _
      have hzero : ofDigits (ds ++ List.replicate n '0' ++ ['0']) =
          ofDigits (ds ++ List.replicate n '0') * 10 ^ 1 := ofDigits_append_zeros _ 1
      rw [hzero, ofDigits_append_zeros, zpow_neg_one]
      push_cast
      field_simp
    | false =>
      show ((ofDigits (ds ++ List.replicate n '0' ++ []) : ℕ) * 10 ^ (0 : Int) : ℚ) = _
      rw [List.append_nil, ofDigits_append_zeros]
      push_cast
      exact mul_one _

/-- The point among the digits. -/
theorem exists_written_inside (hds : AreDigits ds) {k : Nat} (hpos : 0 < k) (hlt : k < ds.length)
    (power : Option Int) :
    ∃ w : Written, w.text = ds.take k ++ '.' :: ds.drop k ++ Written.powerText power ∧
      w.IsNumeral ∧ w.coefficient = ofDigits ds ∧
        w.exponent = power.getD 0 - (ds.length - k : Nat) := by
  have hhead : (ds.take k).head? ≠ some '0' := by
    rw [List.head?_take, if_neg hpos.ne']
    exact hds.leading
  refine ⟨⟨ds.take k, ds.drop k, power⟩, ?_, ⟨?_, ?_, ?_, Or.inl hhead⟩, ?_, ?_⟩
  · have hfraction : (ds.drop k).isEmpty = false := by
      rw [List.isEmpty_eq_false_iff, ← List.length_pos_iff, List.length_drop]
      omega
    rw [Written.text, Written.fractionText, hfraction]
    rfl
  · rw [← List.length_pos_iff, List.length_take]
    omega
  · exact fun c hc => hds.digits c (List.mem_of_mem_take hc)
  · exact fun c hc => hds.digits c (List.mem_of_mem_drop hc)
  · rw [Written.coefficient, List.take_append_drop]
  · show power.getD 0 - ((ds.drop k).length : Int) = _
    rw [List.length_drop]

variable {d : Digits}

/-- Digits around a point stand for the same number. -/
theorem exists_written_positionalForm (l : Layout) (hd : d.coefficient ≠ 0) :
    ∃ w : Written, w.text = l.positionalForm d.list (d.lead + 1) ∧ w.IsNumeral ∧
      (w.coefficient * 10 ^ w.exponent : ℚ) = d.coefficient * 10 ^ d.exponent := by
  have hpoint : d.lead + 1 = d.list.length + d.exponent := by
    rw [Digits.lead]
    omega
  have hvalue : ofDigits d.list = d.coefficient := ofDigits_toDigits _
  have hds : AreDigits d.list := areDigits_toDigits hd
  rw [Layout.positionalForm, hpoint]
  by_cases hlow : (d.list.length + d.exponent : Int) ≤ 0
  · obtain ⟨w, htext, hw, hcoefficient, hexponent⟩ :=
      exists_written_before hds (-(d.list.length + d.exponent : Int)).toNat
    refine ⟨w, ?_, hw, ?_⟩
    · rw [if_pos hlow, htext]
      rfl
    · rw [hcoefficient, hvalue, hexponent]
      congr 2
      omega
  · rw [if_neg hlow]
    by_cases hhigh : (d.list.length : Int) ≤ d.list.length + d.exponent
    · obtain ⟨w, htext, hw, hnumber⟩ := exists_written_after hds l.keepsPoint
        (d.list.length + d.exponent - d.list.length : Int).toNat
      refine ⟨w, ?_, hw, ?_⟩
      · rw [if_pos hhigh, htext]
        rfl
      · rw [hnumber, hvalue, ← zpow_natCast]
        congr 2
        omega
    · obtain ⟨w, htext, hw, hcoefficient, hexponent⟩ := @exists_written_inside _ hds
        (d.list.length + d.exponent : Int).toNat (by omega) (by omega) none
      refine ⟨w, ?_, hw, ?_⟩
      · rw [if_neg hhigh, htext, Written.powerText, List.append_nil, List.append_cons]
      · rw [hcoefficient, hvalue, hexponent]
        congr 2
        show (0 : Int) - _ = _
        omega

/-- The first digit, the others and the power of ten stand for the same number. -/
theorem exists_written_exponentForm (hd : d.coefficient ≠ 0) :
    ∃ w : Written, w.text = Layout.exponentForm d.list d.lead ∧ w.IsNumeral ∧
      (w.coefficient * 10 ^ w.exponent : ℚ) = d.coefficient * 10 ^ d.exponent := by
  have hvalue : ofDigits d.list = d.coefficient := ofDigits_toDigits _
  have hlead : d.lead = d.list.length - 1 + d.exponent := rfl
  have hds : AreDigits d.list := areDigits_toDigits hd
  generalize d.list = ds at *
  match ds, hds with
  | [], hds => exact absurd rfl hds.nonempty
  | [c], hds =>
    refine ⟨⟨[c], [], some d.lead⟩, rfl, ⟨hds.nonempty, hds.digits, nofun, Or.inr rfl⟩, ?_⟩
    show ((ofDigits [c] : ℕ) * 10 ^ (d.lead - (0 : Nat) : Int) : ℚ) = _
    rw [hvalue, hlead]
    congr 2
    simp
  | c :: c' :: cs, hds =>
    obtain ⟨w, htext, hw, hcoefficient, hexponent⟩ :=
      @exists_written_inside _ hds 1 (by decide) (by simp) (some d.lead)
    refine ⟨w, by simp [htext, Layout.exponentForm, Written.powerText], hw, ?_⟩
    rw [hcoefficient, hvalue, hexponent, hlead]
    congr 2
    simp only [List.length_cons, Option.getD_some]
    omega

/-- Whatever the layout, digits are written as a numeral for the same number. -/
theorem exists_written_magnitude (l : Layout) (hd : d.coefficient ≠ 0) :
    ∃ w : Written, w.text = l.magnitude d ∧ w.IsNumeral ∧
      (w.coefficient * 10 ^ w.exponent : ℚ) = d.coefficient * 10 ^ d.exponent := by
  rw [Layout.magnitude]
  split
  · exact exists_written_positionalForm l hd
  · exact exists_written_exponentForm hd

theorem exists_written_zero (l : Layout) :
    ∃ w : Written, w.text = (if l.keepsPoint then ['0', '.', '0'] else ['0']) ∧ w.IsNumeral ∧
      w.coefficient = 0 := by
  refine ⟨⟨['0'], if l.keepsPoint then ['0'] else [], none⟩, ?_, ⟨nofun, by simp, ?_, Or.inr rfl⟩,
    ?_⟩
  all_goals cases l.keepsPoint <;> simp [Written.text, Written.fractionText, Written.powerText,
    Written.coefficient, ofDigits]

/-- A finite double is written as a numeral, and is the double nearest to it. -/
theorem exists_written (l : Layout) {x : Float} (hx : IsFinite x) :
    ∃ (negative : Bool) (w : Written),
      (l.write x).toList = (if negative then '-' :: w.text else w.text) ∧ w.IsNumeral ∧
        (if negative then -nearest w.coefficient w.exponent
          else nearest w.coefficient w.exponent) = x := by
  rw [IsFinite] at hx
  rw [Layout.write]
  cases hview : view x with
  | nan =>
    rw [hview] at hx
    exact hx.elim
  | infinite negative =>
    rw [hview] at hx
    exact hx.elim
  | zero negative =>
    obtain ⟨w, htext, hw, hcoefficient⟩ := exists_written_zero l
    refine ⟨negative, w, by simp [htext], hw, ?_⟩
    rw [hcoefficient, nearest_zero, eq_pack_of_view_zero hview]
    cases negative with
    | false => rfl
    | true => exact neg_pack_zero
  | finite negative m e narrow =>
    obtain ⟨hdouble, rfl, -⟩ := view_finite hview
    have hrounds := rounds_shortest hdouble l.tie
    have hd : (shortest l.tie m e (isNarrow m e)).coefficient ≠ 0 := by
      intro hzero
      have hlower := hrounds.lower hdouble
      rw [hzero, Nat.cast_zero, zero_mul] at hlower
      exact (zpow_pos two_pos _).not_ge hlower
    obtain ⟨w, htext, hw, hnumber⟩ := exists_written_magnitude l hd
    rw [← hnumber] at hrounds
    refine ⟨negative, w, by simp [htext], hw, ?_⟩
    rw [nearest_eq hdouble hrounds, eq_pack_of_view hview hdouble]
    cases negative with
    | false => rfl
    | true => exact hdouble.neg_pack

/-- Every finite number is read back from its text in any layout. -/
theorem read?_write (l : Layout) {x : Float} (hx : IsFinite x) : read? (l.write x) = some x := by
  obtain ⟨negative, w, htext, hw, hnumber⟩ := exists_written l hx
  rw [read?, htext]
  cases negative with
  | true =>
    rw [if_pos rfl] at hnumber ⊢
    simp only
    rw [Written.magnitude?_text hw, Option.map_some, hnumber]
  | false =>
    rw [if_neg Bool.false_ne_true] at hnumber ⊢
    obtain ⟨c, cs, hcons, hc⟩ := hw.exists_text_cons
    have hmagnitude : magnitude? w.text = some x := by
      rw [Written.magnitude?_text hw, hnumber]
    split
    · rename_i heq
      rw [hcons] at heq
      exact absurd (List.cons.inj heq).1 (ne_of_isDigit hc (by decide))
    · rename_i heq
      rw [hcons] at heq
      exact absurd (List.cons.inj heq).1 (ne_of_isDigit hc (by decide))
    · exact hmagnitude

/-- The finite numbers are those with a numeral for their text that is read as them. -/
theorem isNumber_iff {x : Float} : IsNumber x ↔ IsFinite x :=
  ⟨IsNumber.finite, fun hx => ⟨matches_display hx, read?_write .plain hx⟩⟩

end Layouts

end CartoStyle.Decimal
