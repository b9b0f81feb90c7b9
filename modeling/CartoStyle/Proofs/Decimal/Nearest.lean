import Mathlib
import CartoStyle.Proofs.Decimal.Packing

/-!
The double nearest to a decimal number. A decimal number that rounds to a
double is taken to that double by products and quotients of doubles, by the
reading of scientific notation that is made of them, and so by the reading of
numerals.
-/

namespace CartoStyle.Decimal

open Float.Model UnpackedFloat

variable {m m₁ m₂ : Nat} {e e₁ e₂ : Int} {r : ℚ}

section Bounds

theorem Rounds.lower (hr : Rounds m e r) (hdouble : IsDouble m e) : 2 ^ (-1075 : Int) ≤ r := by
  have hmantissa : (1 / 2 : ℚ) ≤ m - if isNarrow m e then 1 / 4 else 1 / 2 := by
    have hone : (1 : ℚ) ≤ m := by exact_mod_cast hdouble.pos
    split <;> linarith
  calc (2 : ℚ) ^ (-1075 : Int) = 1 / 2 * 2 ^ (-1074 : Int) := by
        rw [one_div, ← zpow_neg_one, ← zpow_add₀ two_ne_zero]
        rfl
    _ ≤ 1 / 2 * 2 ^ e :=
      mul_le_mul_of_nonneg_left (zpow_le_zpow_right₀ one_le_two hdouble.least) (by norm_num)
    _ ≤ (m - if isNarrow m e then 1 / 4 else 1 / 2) * 2 ^ e :=
      mul_le_mul_of_nonneg_right hmantissa (zpow_pos two_pos e).le
    _ ≤ r := hr.low

theorem Rounds.upper (hr : Rounds m e r) (hdouble : IsDouble m e) : r < 2 ^ (1024 : Int) := by
  have hmantissa : (m + 1 / 2 : ℚ) < 2 ^ (53 : Int) := by
    have hle : m + 1 ≤ 2 ^ 53 := hdouble.lt
    have hcast : (m + 1 : ℚ) ≤ 2 ^ 53 := by exact_mod_cast hle
    norm_num at hcast ⊢
    linarith
  calc r ≤ (m + 1 / 2) * 2 ^ e := hr.high
    _ < 2 ^ (53 : Int) * 2 ^ e := mul_lt_mul_of_pos_right hmantissa (zpow_pos two_pos e)
    _ ≤ 2 ^ (53 : Int) * 2 ^ (971 : Int) :=
      mul_le_mul_of_nonneg_left (zpow_le_zpow_right₀ one_le_two hdouble.most) (by norm_num)
    _ = 2 ^ (1024 : Int) := by rw [← zpow_add₀ two_ne_zero]; rfl

/-- A double rounds to itself. -/
theorem IsDouble.rounds (m : Nat) (e : Int) : Rounds m e (m * 2 ^ e) := by
  have hunit : (0 : ℚ) < 2 ^ e := zpow_pos two_pos e
  refine ⟨mul_le_mul_of_nonneg_right ?_ hunit.le, mul_le_mul_of_nonneg_right ?_ hunit.le,
    fun _ => ⟨mul_lt_mul_of_pos_right ?_ hunit, mul_lt_mul_of_pos_right ?_ hunit⟩⟩
  · split <;> linarith
  all_goals linarith

end Bounds

section Operations

theorem cuts_exact (M : Nat) : Cuts (.ofMantissaAndAccuracy M .exact) M := by
  constructor <;> simp [ExtendedMantissa.ofMantissaAndAccuracy]

theorem two_pow_log2_le (hm : m ≠ 0) : (2 : ℚ) ^ (m.log2 : Int) ≤ m := by
  rw [zpow_natCast]
  exact_mod_cast Nat.log2_self_le hm

theorem lt_two_pow_log2 (m : Nat) : (m : ℚ) < 2 ^ (m.log2 + 1 : Int) := by
  have hlt : m < 2 ^ (m.log2 + 1) := Nat.lt_log2_self
  have hcast : (m : ℚ) < 2 ^ (m.log2 + 1) := by exact_mod_cast hlt
  rwa [← zpow_natCast, Nat.cast_succ] at hcast

theorem round_eq (hdouble : IsDouble m e) (hm₁ : m₁ ≠ 0) (hr : Rounds m e (m₁ * 2 ^ e₁))
    (s : Sign) : UnpackedFloat.round Format.binary64 s m₁ e₁ = .finite s m e hdouble.pos := by
  rw [UnpackedFloat.round, decreaseExponent, targetExponent_eq]
  generalize hk : (e₁ - max (m₁.log2 + e₁ - 52 : Int) (-1074)).toNat = k
  have hvalue : (m₁ * 2 ^ e₁ : ℚ) / 2 ^ (e₁ - k) = (m₁ <<< k : ℕ) := by
    rw [zpow_sub₀ two_ne_zero, Nat.shiftLeft_eq, zpow_natCast]
    push_cast
    field_simp
  refine roundWithAccuracy_eq hdouble hr (hvalue ▸ cuts_exact _) ?_ s
  refine or_iff_not_imp_left.mpr fun hexponent => ?_
  calc (2 : ℚ) ^ (52 + (e₁ - k)) ≤ 2 ^ (m₁.log2 + e₁) :=
        zpow_le_zpow_right₀ one_le_two (by omega)
    _ = 2 ^ (m₁.log2 : Int) * 2 ^ e₁ := zpow_add₀ two_ne_zero _ _
    _ ≤ m₁ * 2 ^ e₁ :=
        mul_le_mul_of_nonneg_right (two_pow_log2_le hm₁) (zpow_pos two_pos e₁).le

theorem mul_eq (hdouble : IsDouble m e) (hbits : 2 ^ 52 ≤ m₁ * m₂)
    (hr : Rounds m e (m₁ * 2 ^ e₁ * (m₂ * 2 ^ e₂))) (hm₁ : 0 < m₁) (hm₂ : 0 < m₂) :
    UnpackedFloat.mul Format.binary64 (.finite .positive m₁ e₁ hm₁) (.finite .positive m₂ e₂ hm₂) =
      .finite .positive m e hdouble.pos := by
  have hproduct : (m₁ * 2 ^ e₁ * (m₂ * 2 ^ e₂) : ℚ) = (m₁ * m₂ : ℕ) * 2 ^ (e₁ + e₂) := by
    rw [zpow_add₀ two_ne_zero]
    push_cast
    ring
  have hvalue : (m₁ * 2 ^ e₁ * (m₂ * 2 ^ e₂) : ℚ) / 2 ^ (e₁ + e₂) = (m₁ * m₂ : ℕ) := by
    rw [hproduct, mul_div_cancel_right₀ _ (zpow_pos two_pos _).ne']
  refine roundWithAccuracy_eq hdouble hr (hvalue ▸ cuts_exact _) (Or.inr ?_) .positive
  rw [hproduct, zpow_add₀ two_ne_zero]
  refine mul_le_mul_of_nonneg_right ?_ (zpow_pos two_pos _).le
  exact_mod_cast hbits

/-- The place to which a quotient is computed is below the places of the double. -/
theorem exists_divCore (hm₁ : 0 < m₁) (hm₂ : 0 < m₂) :
    ∃ k t, t = e₁ - e₂ - (k : Nat) ∧
      divCore Format.binary64 m₁ e₁ m₂ e₂ =
        ((m₁ <<< k) / m₂, t, accuracyOfFraction ((m₁ <<< k) % m₂) m₂) ∧
      (t ≤ -1074 ∨ (2 : ℚ) ^ (52 + t) ≤ m₁ * 2 ^ e₁ / (m₂ * 2 ^ e₂)) := by
  obtain ⟨t, ht⟩ : ∃ t, t = min (e₁ - e₂) (Format.binary64.targetExponent
    (totalExponent m₁ e₁ - totalExponent m₂ e₂)) := ⟨_, rfl⟩
  have htarget : t = min (e₁ - e₂) (max (m₁.log2 + e₁ - (m₂.log2 + e₂) - 53) (-1074)) := by
    rw [ht]
    show min (e₁ - e₂)
      (max ((m₁.log2 : Int) + 1 + e₁ - ((m₂.log2 : Int) + 1 + e₂) - 53) (-1074)) = _
    omega
  refine ⟨(e₁ - e₂ - t).toNat, t, by omega, by rw [divCore, ← ht], ?_⟩
  refine or_iff_not_imp_left.mpr fun hexponent => ?_
  have hden : (0 : ℚ) < m₂ * 2 ^ e₂ :=
    mul_pos (by exact_mod_cast hm₂) (zpow_pos two_pos e₂)
  rw [le_div_iff₀ hden]
  calc (2 : ℚ) ^ (52 + t) * (m₂ * 2 ^ e₂)
      ≤ 2 ^ (52 + t) * (2 ^ (m₂.log2 + 1 : Int) * 2 ^ e₂) := by
        refine mul_le_mul_of_nonneg_left ?_ (zpow_pos two_pos _).le
        exact mul_le_mul_of_nonneg_right (lt_two_pow_log2 m₂).le (zpow_pos two_pos _).le
    _ = 2 ^ (52 + t + (m₂.log2 + 1 + e₂)) := by
        rw [← zpow_add₀ two_ne_zero, ← zpow_add₀ two_ne_zero]
    _ ≤ 2 ^ (m₁.log2 + e₁) := zpow_le_zpow_right₀ one_le_two (by omega)
    _ = 2 ^ (m₁.log2 : Int) * 2 ^ e₁ := zpow_add₀ two_ne_zero _ _
    _ ≤ m₁ * 2 ^ e₁ :=
        mul_le_mul_of_nonneg_right (two_pow_log2_le hm₁.ne') (zpow_pos two_pos e₁).le

theorem div_eq (hdouble : IsDouble m e) (hr : Rounds m e (m₁ * 2 ^ e₁ / (m₂ * 2 ^ e₂)))
    (hm₁ : 0 < m₁) (hm₂ : 0 < m₂) :
    UnpackedFloat.div Format.binary64 (.finite .positive m₁ e₁ hm₁) (.finite .positive m₂ e₂ hm₂) =
      .finite .positive m e hdouble.pos := by
  obtain ⟨k, t, ht, hcore, hbits⟩ := @exists_divCore m₁ m₂ e₁ e₂ hm₁ hm₂
  have hvalue : (m₁ * 2 ^ e₁ / (m₂ * 2 ^ e₂) : ℚ) / 2 ^ t = (m₁ <<< k : ℕ) / m₂ := by
    have hm₂ : (m₂ : ℚ) ≠ 0 := by exact_mod_cast hm₂.ne'
    rw [ht, zpow_sub₀ two_ne_zero, zpow_sub₀ two_ne_zero, Nat.shiftLeft_eq, zpow_natCast]
    push_cast
    field_simp
  rw [UnpackedFloat.div, hcore]
  exact roundWithAccuracy_eq hdouble hr (hvalue ▸ cuts_ofFraction _ hm₂) hbits .positive

end Operations

section Scientific

/-- The double has the value without any rounding, and all bits of its mantissa. -/
def IsExactly (x : Float) (r : ℚ) : Prop :=
  ∃ m e h, partsOf x = .finite .positive m e h ∧ 2 ^ 52 ≤ m ∧ (m * 2 ^ e : ℚ) = r

theorem isExactly_toFloat {c : Nat} (hpos : 0 < c) (hlt : c < 2 ^ 53) :
    IsExactly c.toUInt64.toFloat c := by
  have hbits : c.log2 < 53 := (Nat.log2_lt hpos.ne').mpr hlt
  obtain ⟨k, hk⟩ : ∃ k, k = 52 - c.log2 := ⟨_, rfl⟩
  have hvalue : ((c * 2 ^ k : ℕ) * 2 ^ (-k : Int) : ℚ) = c := by
    rw [zpow_neg, zpow_natCast]
    push_cast
    field_simp
  have hlow : 2 ^ 52 ≤ c * 2 ^ k := by
    calc 2 ^ 52 = 2 ^ c.log2 * 2 ^ k := by rw [← pow_add]; congr 1; omega
      _ ≤ c * 2 ^ k := Nat.mul_le_mul_right _ (Nat.log2_self_le hpos.ne')
  have hhigh : c * 2 ^ k < 2 ^ 53 := by
    calc c * 2 ^ k < 2 ^ (c.log2 + 1) * 2 ^ k :=
          Nat.mul_lt_mul_of_pos_right Nat.lt_log2_self (Nat.two_pow_pos _)
      _ = 2 ^ 53 := by rw [← pow_add]; congr 1; omega
  have hdouble : IsDouble (c * 2 ^ k) (-k) :=
    ⟨Nat.mul_pos hpos (Nat.two_pow_pos k), hhigh, by omega, by omega, Or.inl hlow⟩
  have hrounds : Rounds (c * 2 ^ k) (-k) (c * 2 ^ (0 : Int)) := by
    rw [zpow_zero, mul_one]
    exact hvalue ▸ IsDouble.rounds (c * 2 ^ k) (-k)
  have hnat : c.toUInt64.toNat = c := Nat.mod_eq_of_lt (by omega)
  have hpacked : c.toUInt64.toFloat =
      .ofModel (.pack (.finite .positive (c * 2 ^ k) (-k) hdouble.pos)) := by
    rw [← round_eq hdouble hpos.ne' hrounds .positive]
    show Float.ofModel (.pack (UnpackedFloat.ofNat Format.binary64 c.toUInt64.toNat)) = _
    unfold UnpackedFloat.ofNat UnpackedFloat.ofInt UnpackedFloat.normalize
    rw [hnat, Int.compare_eq_gt.mpr (by omega), Int.toNat_natCast]
  refine ⟨_, _, hdouble.pos, ?_, hlow, hvalue⟩
  rw [hpacked]
  exact hdouble.partsOf_pack false

/-- Whether a double is a power of ten that has few enough bits. -/
def isPowerOfTen (k : Nat) : UnpackedFloat → Bool
  | .finite .positive m e _ => 2 ^ 52 ≤ m && -52 ≤ e && m * 2 ^ (e + 52).toNat == 10 ^ k * 2 ^ 52
  | _ => false

theorem isExactly_of_isPowerOfTen {x : Float} {k : Nat} (h : isPowerOfTen k (partsOf x) = true) :
    IsExactly x (10 ^ k) := by
  unfold isPowerOfTen at h
  split at h
  · rename_i m e hm hparts
    simp only [Bool.and_eq_true, decide_eq_true_eq, beq_iff_eq] at h
    obtain ⟨⟨hlow, hexponent⟩, hvalue⟩ := h
    refine ⟨m, e, hm, hparts, hlow, ?_⟩
    have hcast : (m * 2 ^ (e + 52).toNat : ℚ) = 10 ^ k * 2 ^ 52 := by exact_mod_cast hvalue
    rw [← zpow_natCast, Int.toNat_of_nonneg (by omega), zpow_add₀ two_ne_zero, ← mul_assoc] at hcast
    exact mul_right_cancel₀ (by norm_num) hcast
  · cases h

theorem isPowerOfTen_power : ∀ k : Fin Float.exactlyRepresentablePowersOfTen.size,
    isPowerOfTen k (partsOf Float.exactlyRepresentablePowersOfTen[k]) = true := by
  decide

theorem isExactly_power {k : Nat} (hk : k < Float.exactlyRepresentablePowersOfTen.size) :
    IsExactly Float.exactlyRepresentablePowersOfTen[k] (10 ^ k) :=
  isExactly_of_isPowerOfTen (isPowerOfTen_power ⟨k, hk⟩)

variable {x y : Float} {a b : ℚ}

theorem IsExactly.mul_eq (hx : IsExactly x a) (hy : IsExactly y b) (hdouble : IsDouble m e)
    (hr : Rounds m e (a * b)) : x * y = .ofModel (.pack (.finite .positive m e hdouble.pos)) := by
  obtain ⟨m₁, e₁, hm₁, hx, hbits₁, rfl⟩ := hx
  obtain ⟨m₂, e₂, hm₂, hy, hbits₂, rfl⟩ := hy
  show Float.ofModel (.pack (UnpackedFloat.mul Format.binary64 (partsOf x) (partsOf y))) = _
  rw [hx, hy, Decimal.mul_eq hdouble _ hr]
  exact hbits₁.trans (Nat.le_mul_of_pos_right _ hm₂)

theorem IsExactly.div_eq (hx : IsExactly x a) (hy : IsExactly y b) (hdouble : IsDouble m e)
    (hr : Rounds m e (a / b)) : x / y = .ofModel (.pack (.finite .positive m e hdouble.pos)) := by
  obtain ⟨m₁, e₁, hm₁, hx, -, rfl⟩ := hx
  obtain ⟨m₂, e₂, hm₂, hy, -, rfl⟩ := hy
  show Float.ofModel (.pack (UnpackedFloat.div Format.binary64 (partsOf x) (partsOf y))) = _
  rw [hx, hy, Decimal.div_eq hdouble hr]

theorem ten_zpow_le {k : Int} (hk : k ≤ 0) : (10 : ℚ) ^ k ≤ 2 ^ k := by
  obtain ⟨n, rfl⟩ : ∃ n : Nat, k = -n := ⟨(-k).toNat, by omega⟩
  rw [zpow_neg, zpow_neg, zpow_natCast, zpow_natCast]
  exact inv_anti₀ (by positivity) (pow_le_pow_left₀ (by norm_num) (by norm_num) n)

/-- A decimal that rounds to a double is neither zero nor out of the range of doubles. -/
theorem exponent_bounds_of_rounds (hdouble : IsDouble m e) {c : Nat} {k : Int}
    (hr : Rounds m e (c * 10 ^ k)) : c ≠ 0 ∧ k ≤ 2 ^ 11 ∧ -(2 ^ 11 + c.log2) ≤ k := by
  have hlower := hr.lower hdouble
  have hupper := hr.upper hdouble
  have hc : c ≠ 0 := by
    rintro rfl
    rw [Nat.cast_zero, zero_mul] at hlower
    exact (zpow_pos two_pos _).not_ge hlower
  have hone : (1 : ℚ) ≤ c := by exact_mod_cast Nat.one_le_iff_ne_zero.mpr hc
  refine ⟨hc, not_lt.mp fun hk => hupper.not_ge ?_, not_lt.mp fun hk => hlower.not_gt ?_⟩
  · calc (2 : ℚ) ^ (1024 : Int) ≤ 2 ^ k := zpow_le_zpow_right₀ one_le_two (by omega)
      _ ≤ 10 ^ k := zpow_le_zpow_left₀ (by omega) (by norm_num) (by norm_num)
      _ ≤ c * 10 ^ k := le_mul_of_one_le_left (zpow_pos (by norm_num) k).le hone
  · calc (c : ℚ) * 10 ^ k < 2 ^ (c.log2 + 1 : Int) * 10 ^ k :=
          mul_lt_mul_of_pos_right (lt_two_pow_log2 c) (zpow_pos (by norm_num) k)
      _ ≤ 2 ^ (c.log2 + 1 : Int) * 2 ^ k :=
          mul_le_mul_of_nonneg_left (ten_zpow_le (by omega)) (zpow_pos two_pos _).le
      _ = 2 ^ (c.log2 + 1 + k) := (zpow_add₀ two_ne_zero _ _).symm
      _ ≤ 2 ^ (-1075 : Int) := zpow_le_zpow_right₀ one_le_two (by omega)

/-- Scientific notation is read as the double that it rounds to, if numbers are not far outside
the range of doubles. -/
theorem unpacked_ofScientific_eq (hdouble : IsDouble m e) {c : Nat} {k : Int}
    (hr : Rounds m e (c * 10 ^ k)) :
    UnpackedFloat.ofScientific Format.binary64 c k = .finite .positive m e hdouble.pos := by
  obtain ⟨hc, hlarge, hsmall⟩ := exponent_bounds_of_rounds hdouble hr
  rw [UnpackedFloat.ofScientific, dif_neg hc, if_neg (not_lt.mpr hlarge),
    if_neg (not_lt.mpr hsmall)]
  by_cases hk : 0 ≤ k
  · rw [if_pos hk]
    have hshift : c <<< Format.binary64.mantissaBits = c * 2 ^ 53 := Nat.shiftLeft_eq c 53
    have hpower : 0 < 10 ^ k.toNat := Nat.pow_pos (by decide)
    refine Decimal.mul_eq hdouble ?_ ?_ _ _
    · rw [hshift]
      calc 2 ^ 52 ≤ c * 2 ^ 53 := by omega
        _ ≤ c * 2 ^ 53 * 10 ^ k.toNat := Nat.le_mul_of_pos_right _ hpower
    · have hvalue : ((c * 2 ^ 53 : ℕ) * 2 ^ (-53 : Int) *
          ((10 ^ k.toNat : ℕ) * 2 ^ (0 : Int)) : ℚ) = c * 10 ^ k := by
        obtain ⟨n, rfl⟩ : ∃ n : Nat, k = n := ⟨k.toNat, by omega⟩
        push_cast
        rw [Int.toNat_natCast, zpow_natCast]
        norm_num
        ring
      rw [hshift]
      exact hvalue ▸ hr
  · rw [if_neg hk]
    refine Decimal.div_eq hdouble ?_ _ _
    have hvalue : (c * 2 ^ (0 : Int) / ((10 ^ (-k).toNat : ℕ) * 2 ^ (0 : Int)) : ℚ) =
        c * 10 ^ k := by
      obtain ⟨n, rfl⟩ : ∃ n : Nat, k = -n := ⟨(-k).toNat, by omega⟩
      push_cast
      rw [neg_neg, Int.toNat_natCast, zpow_neg, zpow_natCast]
      norm_num
      rfl
    exact hvalue ▸ hr

/-- Both ways to read scientific notation give the double that it rounds to. -/
theorem ofScientific_eq (hdouble : IsDouble m e) {c k : Nat} {negative : Bool}
    (hr : Rounds m e (c * 10 ^ (if negative then -k else k : Int))) :
    Float.ofScientific c negative k = .ofModel (.pack (.finite .positive m e hdouble.pos)) := by
  have hc : 0 < c := by
    refine Nat.pos_of_ne_zero ?_
    rintro rfl
    have hlower := hr.lower hdouble
    rw [Nat.cast_zero, zero_mul] at hlower
    exact (zpow_pos two_pos _).not_ge hlower
  rw [Float.ofScientific]
  by_cases hshort : c < 2 ^ 53 ∧ k ≤ 22
  · rw [dif_pos hshort]
    have hcoefficient := isExactly_toFloat hc hshort.1
    have hpower := isExactly_power (show k < 23 by omega)
    cases negative with
    | true =>
      rw [if_pos rfl] at hr ⊢
      refine hcoefficient.div_eq hpower hdouble ?_
      rwa [zpow_neg, zpow_natCast, ← div_eq_mul_inv] at hr
    | false =>
      rw [if_neg Bool.false_ne_true] at hr ⊢
      refine hcoefficient.mul_eq hpower hdouble ?_
      rwa [zpow_natCast] at hr
  · rw [dif_neg hshort]
    have hexponent : (if negative then Int.negOfNat k else Int.ofNat k : Int) =
        if negative then -(k : Int) else k := by
      rw [Int.negOfNat_eq]
      rfl
    show Float.ofModel (.pack (UnpackedFloat.ofScientific Format.binary64 c _)) = _
    rw [hexponent, unpacked_ofScientific_eq hdouble hr]

theorem length_toDigits_bounds {c : Nat} (hc : c ≠ 0) :
    (10 : ℚ) ^ ((Nat.toDigits 10 c).length - 1 : Int) ≤ c ∧
      (c : ℚ) < 10 ^ ((Nat.toDigits 10 c).length : Int) := by
  have hpos := @Nat.length_toDigits_pos 10 c
  obtain ⟨n, hn⟩ : ∃ n, (Nat.toDigits 10 c).length = n + 1 :=
    ⟨_, (Nat.succ_pred_eq_of_pos hpos).symm⟩
  have hhigh : c < 10 ^ (n + 1) :=
    (Nat.length_toDigits_le_iff (by decide) n.succ_pos).mp hn.le
  have hlow : 10 ^ n ≤ c := by
    by_cases hzero : n = 0
    · subst hzero
      exact Nat.one_le_iff_ne_zero.mpr hc
    · refine Nat.le_of_not_lt fun hlt => ?_
      have := (Nat.length_toDigits_le_iff (by decide) (Nat.pos_of_ne_zero hzero)).mpr hlt
      omega
  rw [hn]
  push_cast
  rw [add_sub_cancel_right, zpow_natCast, ← Nat.cast_succ, zpow_natCast]
  exact ⟨by exact_mod_cast hlow, by exact_mod_cast hhigh⟩

theorem two_zpow_le_ten_zpow : (2 : ℚ) ^ (1024 : Int) ≤ 10 ^ (310 : Int) :=
  calc (2 : ℚ) ^ (1024 : Int) ≤ 2 ^ (205 * 5 : Int) := zpow_le_zpow_right₀ one_le_two (by decide)
    _ = (2 ^ (205 : Int)) ^ (5 : Int) := zpow_mul _ _ _
    _ ≤ (10 ^ (62 : Int)) ^ (5 : Int) :=
      zpow_le_zpow_left₀ (by decide) (by positivity) (by norm_num)
    _ = 10 ^ (62 * 5 : Int) := (zpow_mul _ _ _).symm

theorem ten_zpow_le_two_zpow : (10 : ℚ) ^ (-331 : Int) ≤ 2 ^ (-1075 : Int) := by
  have hpower : (2 : ℚ) ^ (1075 : Int) ≤ 10 ^ (331 : Int) :=
    calc (2 : ℚ) ^ (1075 : Int) = (2 ^ (215 : Int)) ^ (5 : Int) := zpow_mul _ 215 5
      _ ≤ (10 ^ (66 : Int)) ^ (5 : Int) :=
        zpow_le_zpow_left₀ (by decide) (by positivity) (by norm_num)
      _ = 10 ^ (330 : Int) := (zpow_mul _ 66 5).symm
      _ ≤ 10 ^ (331 : Int) := zpow_le_zpow_right₀ (by norm_num) (by decide)
  rw [zpow_neg, zpow_neg]
  exact inv_anti₀ (zpow_pos two_pos _) hpower

/-- A decimal number is read as the double that it rounds to. -/
theorem nearest_eq (hdouble : IsDouble m e) {c : Nat} {k : Int} (hr : Rounds m e (c * 10 ^ k)) :
    nearest c k = .ofModel (.pack (.finite .positive m e hdouble.pos)) := by
  have hlower := hr.lower hdouble
  have hupper := hr.upper hdouble
  have hten : (0 : ℚ) < 10 ^ k := zpow_pos (by norm_num) k
  have hc : c ≠ 0 := by
    rintro rfl
    rw [Nat.cast_zero, zero_mul] at hlower
    exact (zpow_pos two_pos _).not_ge hlower
  obtain ⟨hlow, hhigh⟩ := length_toDigits_bounds hc
  rw [nearest, if_neg hc]
  generalize ((Nat.toDigits 10 c).length : Int) = n at *
  have hlarge : ¬ 310 < n + k := by
    intro hlead
    refine hupper.not_ge ?_
    calc (2 : ℚ) ^ (1024 : Int) ≤ 10 ^ (310 : Int) := two_zpow_le_ten_zpow
      _ ≤ 10 ^ (n - 1 + k) := zpow_le_zpow_right₀ (by norm_num) (by omega)
      _ = 10 ^ (n - 1) * 10 ^ k := zpow_add₀ (by norm_num) _ _
      _ ≤ c * 10 ^ k := mul_le_mul_of_nonneg_right hlow hten.le
  have hsmall : ¬ n + k < -330 := by
    intro hlead
    refine hlower.not_gt ?_
    calc (c : ℚ) * 10 ^ k < 10 ^ n * 10 ^ k := mul_lt_mul_of_pos_right hhigh hten
      _ = 10 ^ (n + k) := (zpow_add₀ (by norm_num) _ _).symm
      _ ≤ 10 ^ (-331 : Int) := zpow_le_zpow_right₀ (by norm_num) (by omega)
      _ ≤ 2 ^ (-1075 : Int) := ten_zpow_le_two_zpow
  simp only
  rw [if_neg hlarge, if_neg hsmall]
  refine ofScientific_eq hdouble ?_
  have hexponent : (if (decide (k < 0)) then -(k.natAbs : Int) else k.natAbs) = k := by
    by_cases hk : k < 0
    · rw [if_pos (decide_eq_true hk)]
      omega
    · rw [if_neg (by simpa using hk)]
      omega
  rwa [hexponent]

theorem nearest_zero (k : Int) : nearest 0 k = .ofModel (.pack (.zero .positive)) := by
  rw [nearest, if_pos rfl]
  decide

end Scientific

end CartoStyle.Decimal
