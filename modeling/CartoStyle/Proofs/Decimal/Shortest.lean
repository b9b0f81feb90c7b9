import CartoStyle.Decimal.Shortest
import CartoStyle.Proofs.Decimal.Nearest

/-!
The shortest digits of a double round to it. A point of a decimal grid is taken
only if it rounds to the double, and on the grid of seventeen digits the nearer
neighbour of the double always does, so some digits are found.
-/

namespace CartoStyle.Decimal

variable {m : Nat} {e : Int}

section Grid

theorem scale_pos (twos tens : Int) : 0 < (scale twos tens).1 ∧ 0 < (scale twos tens).2 :=
  ⟨Nat.mul_pos (Nat.pow_pos (by decide)) (Nat.pow_pos (by decide)),
    Nat.mul_pos (Nat.pow_pos (by decide)) (Nat.pow_pos (by decide))⟩

theorem zpow_toNat_mul {a : ℚ} (ha : a ≠ 0) (n : Int) : a ^ n.toNat = a ^ n * a ^ (-n).toNat := by
  rw [← zpow_natCast, ← zpow_natCast, ← zpow_add₀ ha]
  congr 1
  omega

/-- The two parts of a scale are to each other like the two powers. -/
theorem exists_scale_eq (twos tens : Int) : ∃ c : ℚ, 0 < c ∧
    (scale twos tens).1 = c * 2 ^ twos ∧ (scale twos tens).2 = c * 10 ^ tens := by
  have hten := @zpow_toNat_mul 10 (by norm_num) tens
  have htwo := @zpow_toNat_mul 2 (by norm_num) twos
  refine ⟨2 ^ (-twos).toNat * 10 ^ (-tens).toNat, by positivity, ?_, ?_⟩
  · show ((2 ^ twos.toNat * 10 ^ (-tens).toNat : ℕ) : ℚ) = _
    push_cast
    rw [htwo]
    ring
  · show ((2 ^ (-twos).toNat * 10 ^ tens.toNat : ℕ) : ℚ) = _
    push_cast
    rw [hten]
    ring

theorem mul_scale_le_iff (twos tens : Int) (a b : Nat) :
    a * (scale twos tens).1 ≤ b * (scale twos tens).2 ↔ (a * 2 ^ twos : ℚ) ≤ b * 10 ^ tens := by
  obtain ⟨c, hc, hnum, hden⟩ := exists_scale_eq twos tens
  rw [← @Nat.cast_le ℚ, Nat.cast_mul, Nat.cast_mul, hnum, hden, mul_left_comm,
    mul_left_comm (b : ℚ), mul_le_mul_iff_right₀ hc]

theorem le_mul_scale_iff (twos tens : Int) (a b : Nat) :
    b * (scale twos tens).2 ≤ a * (scale twos tens).1 ↔ (b * 10 ^ tens : ℚ) ≤ a * 2 ^ twos := by
  obtain ⟨c, hc, hnum, hden⟩ := exists_scale_eq twos tens
  rw [← @Nat.cast_le ℚ, Nat.cast_mul, Nat.cast_mul, hnum, hden, mul_left_comm,
    mul_left_comm (a : ℚ), mul_le_mul_iff_right₀ hc]

/-- A power of ten that is not larger than a fraction. -/
theorem ten_zpow_leadingPower_le {num den : Nat} (hnum : 0 < num) (hden : 0 < den) :
    (10 : ℚ) ^ leadingPower num den * den ≤ num := by
  have hden' : (0 : ℚ) < den := by exact_mod_cast hden
  rw [leadingPower]
  by_cases hle : den ≤ num
  · rw [if_pos hle]
    have hquotient : num / den ≠ 0 := (Nat.div_pos hle hden).ne'
    calc (10 : ℚ) ^ ((Nat.toDigits 10 (num / den)).length - 1 : Int) * den
        ≤ (num / den : ℕ) * den :=
          mul_le_mul_of_nonneg_right (length_toDigits_bounds hquotient).1 hden'.le
      _ ≤ num := by exact_mod_cast Nat.div_mul_le_self num den
  · rw [if_neg hle]
    have hquotient : (den - 1) / num ≠ 0 := (Nat.div_pos (by omega) hnum).ne'
    have hdigits := (length_toDigits_bounds hquotient).2
    generalize (Nat.toDigits 10 ((den - 1) / num)).length = n at *
    rw [zpow_natCast] at hdigits
    have hlt : (den - 1) / num < 10 ^ n := by exact_mod_cast hdigits
    have hbound : den ≤ 10 ^ n * num := by
      have := (Nat.div_lt_iff_lt_mul hnum).mp hlt
      omega
    rw [zpow_neg, zpow_natCast, inv_mul_le_iff₀ (by positivity)]
    exact_mod_cast hbound

/-- The bounds of a grid point are those of the numbers that round to the double. -/
def inBounds (m num den : Nat) (narrow : Bool) (d : Nat) : Bool :=
  if m % 2 == 0 then
    (4 * m - if narrow then 1 else 2) * num ≤ d * den && d * den ≤ (4 * m + 2) * num
  else (4 * m - if narrow then 1 else 2) * num < d * den && d * den < (4 * m + 2) * num

theorem isNarrow_of_odd (hodd : m % 2 = 1) : isNarrow m e = false := by
  have hne : m ≠ 2 ^ 52 := by
    rintro rfl
    cases hodd
  rw [isNarrow, beq_eq_false_iff_ne.mpr hne, Bool.false_and]

theorem inBounds_iff (hdouble : IsDouble m e) (tens : Int) (d : Nat) :
    inBounds m (scale (e - 2) tens).1 (scale (e - 2) tens).2 (isNarrow m e) d = true ↔
      Rounds m e (d * 10 ^ tens) := by
  have hunit : (2 : ℚ) ^ e = 4 * 2 ^ (e - 2) := by
    rw [zpow_sub₀ two_ne_zero]
    norm_num
    ring
  have hlow : ((4 * m - if isNarrow m e then 1 else 2 : ℕ) * 2 ^ (e - 2) : ℚ) =
      (m - if isNarrow m e then 1 / 4 else 1 / 2) * 2 ^ e := by
    have hpos := hdouble.pos
    rw [Nat.cast_sub (by split <;> omega), hunit]
    split <;> push_cast <;> ring
  have hhigh : ((4 * m + 2 : ℕ) * 2 ^ (e - 2) : ℚ) = (m + 1 / 2) * 2 ^ e := by
    rw [hunit]
    push_cast
    ring
  rw [inBounds]
  rcases Nat.mod_two_eq_zero_or_one m with heven | hodd
  · rw [if_pos (by rw [heven]; rfl), Bool.and_eq_true, decide_eq_true_iff, decide_eq_true_iff,
      mul_scale_le_iff, le_mul_scale_iff, hlow, hhigh]
    exact ⟨fun h => ⟨h.1, h.2, by omega⟩, fun h => ⟨h.low, h.high⟩⟩
  · rw [if_neg (by rw [hodd]; decide), Bool.and_eq_true, decide_eq_true_iff, decide_eq_true_iff,
      ← not_le, ← not_le, le_mul_scale_iff, mul_scale_le_iff, hlow, hhigh, not_le, not_le,
      isNarrow_of_odd hodd, if_neg Bool.false_ne_true]
    refine ⟨fun h => ⟨?_, h.2.le, fun _ => h⟩, fun h => h.odd hodd⟩
    rw [isNarrow_of_odd hodd, if_neg Bool.false_ne_true]
    exact h.1.le

def gridBelow (m : Nat) (e tens : Int) : Nat :=
  4 * m * (scale (e - 2) tens).1 / (scale (e - 2) tens).2

/-- One of the two neighbours of a double is chosen if it rounds to the double. -/
theorem gridPoint?_cases (hdouble : IsDouble m e) (tie : Tie) (tens : Int) :
    (gridPoint? tie m e (isNarrow m e) tens = none ∧
        ¬ Rounds m e (gridBelow m e tens * 10 ^ tens) ∧
        ¬ Rounds m e ((gridBelow m e tens + 1 : ℕ) * 10 ^ tens)) ∨
      ∃ d, gridPoint? tie m e (isNarrow m e) tens = some d ∧ Rounds m e (d * 10 ^ tens) := by
  simp only [← inBounds_iff hdouble, Bool.not_eq_true]
  generalize hchoice : gridPoint? tie m e (isNarrow m e) tens = choice
  rw [gridPoint?] at hchoice
  simp only at hchoice
  split at hchoice
  · next hbelow habove => exact Or.inl ⟨hchoice.symm, hbelow, habove⟩
  · next hbelow habove => exact Or.inr ⟨_, hchoice.symm, hbelow⟩
  · next hbelow habove => exact Or.inr ⟨_, hchoice.symm, habove⟩
  · next hbelow habove =>
    right
    split at hchoice
    · exact ⟨_, hchoice.symm, hbelow⟩
    · split at hchoice
      · exact ⟨_, hchoice.symm, habove⟩
      · cases tie with
        | up => exact ⟨_, hchoice.symm, habove⟩
        | even =>
          simp only at hchoice
          split at hchoice
          · exact ⟨_, hchoice.symm, hbelow⟩
          · exact ⟨_, hchoice.symm, habove⟩

theorem rounds_of_lt {r : ℚ} (hlow : (m - if isNarrow m e then 1 / 4 else 1 / 2) * 2 ^ e < r)
    (hhigh : r < (m + 1 / 2) * 2 ^ e) : Rounds m e r := by
  refine ⟨hlow.le, hhigh.le, fun hodd => ⟨?_, hhigh⟩⟩
  rwa [isNarrow_of_odd hodd, if_neg Bool.false_ne_true] at hlow

/-- Sixteen places below the first digit, the grid is finer than the doubles. -/
theorem ten_zpow_lt (hdouble : IsDouble m e) {tens : Int}
    (hgrid : (10 : ℚ) ^ tens * 10 ^ 16 ≤ m * 2 ^ e) :
    (10 : ℚ) ^ tens < 2 * (if isNarrow m e then 1 / 4 else 1 / 2) * 2 ^ e := by
  have hunit : (0 : ℚ) < 2 ^ e := zpow_pos two_pos e
  have hmantissa : (m : ℚ) < 2 * (if isNarrow m e then 1 / 4 else 1 / 2) * 10 ^ 16 := by
    by_cases hnarrow : isNarrow m e = true
    · rw [if_pos hnarrow]
      rw [isNarrow, Bool.and_eq_true, beq_iff_eq] at hnarrow
      rw [hnarrow.1]
      norm_num
    · rw [if_neg hnarrow]
      have hlt : (m : ℚ) < 2 ^ 53 := by exact_mod_cast hdouble.lt
      norm_num at hlt ⊢
      linarith
  have hproduct := hgrid.trans_lt (mul_lt_mul_of_pos_right hmantissa hunit)
  rw [mul_right_comm] at hproduct
  exact lt_of_mul_lt_mul_right hproduct (by norm_num)

/-- On a grid that is finer than the doubles, a neighbour of a double rounds to it. -/
theorem rounds_gridBelow (hdouble : IsDouble m e) {tens : Int}
    (hgrid : (10 : ℚ) ^ tens * 10 ^ 16 ≤ m * 2 ^ e) :
    Rounds m e (gridBelow m e tens * 10 ^ tens) ∨
      Rounds m e ((gridBelow m e tens + 1 : ℕ) * 10 ^ tens) := by
  have hstep := ten_zpow_lt hdouble hgrid
  have hunit : (0 : ℚ) < 2 ^ e := zpow_pos two_pos e
  have hten : (0 : ℚ) < 10 ^ tens := zpow_pos (by norm_num) tens
  have hvalue : ((4 * m : ℕ) * 2 ^ (e - 2) : ℚ) = m * 2 ^ e := by
    rw [zpow_sub₀ two_ne_zero]
    push_cast
    ring
  have hbelow : (gridBelow m e tens * 10 ^ tens : ℚ) ≤ m * 2 ^ e := by
    rw [← hvalue, ← le_mul_scale_iff]
    exact Nat.div_mul_le_self _ _
  have habove : (m * 2 ^ e : ℚ) < (gridBelow m e tens + 1 : ℕ) * 10 ^ tens := by
    rw [← hvalue, ← not_le, ← le_mul_scale_iff, not_le]
    exact Nat.lt_mul_of_div_lt (Nat.lt_succ_self _) (scale_pos (e - 2) tens).2
  push_cast at habove ⊢
  have hhalf : (if isNarrow m e then 1 / 4 else 1 / 2) * 2 ^ e ≤ (1 / 2 : ℚ) * 2 ^ e := by
    refine mul_le_mul_of_nonneg_right ?_ hunit.le
    split <;> norm_num
  rcases le_total (2 * (m * 2 ^ e - gridBelow m e tens * 10 ^ tens) : ℚ) (10 ^ tens)
    with hnear | hnear
  · refine Or.inl (rounds_of_lt ?_ ?_)
    · rw [sub_mul]
      linarith
    · rw [add_mul]
      linarith
  · refine Or.inr (rounds_of_lt ?_ ?_)
    · rw [sub_mul]
      linarith
    · rw [add_mul]
      linarith

theorem gridPoint?_ne_none (hdouble : IsDouble m e) (tie : Tie) {tens : Int}
    (hgrid : (10 : ℚ) ^ tens * 10 ^ 16 ≤ m * 2 ^ e) :
    gridPoint? tie m e (isNarrow m e) tens ≠ none := by
  intro hnone
  rcases gridPoint?_cases hdouble tie tens with ⟨-, hbelow, habove⟩ | ⟨d, hd, -⟩
  · exact (rounds_gridBelow hdouble hgrid).elim hbelow habove
  · rw [hd] at hnone
    cases hnone

end Grid

theorem stripZeros_value (c : Nat) (k : Int) :
    ((stripZeros c k).coefficient * 10 ^ (stripZeros c k).exponent : ℚ) = c * 10 ^ k := by
  induction c, k using stripZeros.induct with
  | case1 c k h ih =>
    rw [stripZeros, if_pos h, ih, zpow_add_one₀ (by norm_num)]
    have hten : c / 10 * 10 = c := Nat.div_mul_cancel (Nat.dvd_of_mod_eq_zero h.2)
    have hcast : ((c / 10 : ℕ) * 10 : ℚ) = c := by exact_mod_cast hten
    rw [← hcast]
    ring
  | case2 c k h => rw [stripZeros, if_neg h]

/-- The shortest digits of a double round to it. -/
theorem rounds_shortest (hdouble : IsDouble m e) (tie : Tie) :
    Rounds m e ((shortest tie m e (isNarrow m e)).coefficient *
      10 ^ (shortest tie m e (isNarrow m e)).exponent) := by
  obtain ⟨hnum, hden⟩ := scale_pos e 0
  have hnum' : 0 < m * (scale e 0).1 := Nat.mul_pos hdouble.pos hnum
  obtain ⟨lead, hlead⟩ : ∃ lead, lead = leadingPower (m * (scale e 0).1) (scale e 0).2 := ⟨_, rfl⟩
  have hpower : (10 : ℚ) ^ lead ≤ m * 2 ^ e := by
    have hle := ten_zpow_leadingPower_le hnum' hden
    obtain ⟨c, hc, hscale, hscale'⟩ := exists_scale_eq e 0
    rw [← hlead, Nat.cast_mul, hscale, hscale', zpow_zero, mul_one, mul_left_comm, mul_comm] at hle
    exact le_of_mul_le_mul_left hle hc
  have hshortest : shortest tie m e (isNarrow m e) =
      ((List.range 17).findSome? fun extra : Nat =>
        (gridPoint? tie m e (isNarrow m e) (lead - Int.ofNat extra)).map
          (stripZeros · (lead - Int.ofNat extra))).getD ⟨m * (scale e 0).1, 0⟩ := by
    rw [hlead]
    rfl
  rw [hshortest]
  cases hfound : (List.range 17).findSome? fun extra : Nat =>
      (gridPoint? tie m e (isNarrow m e) (lead - Int.ofNat extra)).map
        (stripZeros · (lead - Int.ofNat extra)) with
  | none =>
    rw [List.findSome?_eq_none_iff] at hfound
    have hlast := Option.map_eq_none_iff.mp (hfound 16 (by decide))
    refine absurd hlast (gridPoint?_ne_none hdouble tie ?_)
    have hsixteen : (10 : ℚ) ^ (lead - Int.ofNat 16) * 10 ^ 16 = 10 ^ lead := by
      rw [← zpow_natCast, ← zpow_add₀ (by norm_num)]
      congr 1
      exact Int.sub_add_cancel _ _
    rwa [hsixteen]
  | some d =>
    obtain ⟨extra, -, hextra⟩ := List.exists_of_findSome?_eq_some hfound
    obtain ⟨c, hc, rfl⟩ := Option.map_eq_some_iff.mp hextra
    rw [Option.getD_some, stripZeros_value]
    rcases gridPoint?_cases hdouble tie (lead - Int.ofNat extra) with ⟨hnone, -⟩ | ⟨d, hd, hrounds⟩
    · rw [hnone] at hc
      cases hc
    · rw [hd] at hc
      cases hc
      exact hrounds

end CartoStyle.Decimal
