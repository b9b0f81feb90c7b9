import Mathlib

/-!
Rounding to doubles. A positive double is a mantissa times a power of two, and
the rational numbers that round to it form an interval around it. Whatever form
such a number has before it is rounded, if only enough of its bits are kept,
rounding it gives that double.
-/

namespace CartoStyle.Decimal

open Float.Model Float.Model.UnpackedFloat

/-- A mantissa and an exponent of a double. Only with the least exponent may the mantissa have
less than all of its bits. -/
structure IsDouble (m : Nat) (e : Int) : Prop where
  pos : 0 < m
  lt : m < 2 ^ 53
  least : -1074 ≤ e
  most : e ≤ 971
  full : 2 ^ 52 ≤ m ∨ e = -1074

/-- The next double towards zero is only half as far away as the next one outwards. -/
def isNarrow (m : Nat) (e : Int) : Bool := m == 2 ^ 52 && e != -1074

/-- The number lies between the middles towards the next doubles, and is neither of them if the
mantissa is odd. -/
structure Rounds (m : Nat) (e : Int) (r : ℚ) : Prop where
  low : (m - if isNarrow m e then 1 / 4 else 1 / 2) * 2 ^ e ≤ r
  high : r ≤ (m + 1 / 2) * 2 ^ e
  odd : m % 2 = 1 → (m - 1 / 2) * 2 ^ e < r ∧ r < (m + 1 / 2) * 2 ^ e

section Mantissas

variable {v : ℚ}

/-- The mantissa with its round bit is the number without the bits below, which are not zero if
the sticky bit is set. -/
structure Cuts (em : ExtendedMantissa) (v : ℚ) : Prop where
  rest : if em.stickyBit then 2 * em.mantissa + em.roundBit.toNat < 2 * v
    else 2 * v = 2 * em.mantissa + em.roundBit.toNat
  high : 2 * v < 2 * em.mantissa + em.roundBit.toNat + 1

theorem Cuts.low {em : ExtendedMantissa} (h : Cuts em v) :
    (2 * em.mantissa + em.roundBit.toNat : ℚ) ≤ 2 * v := by
  have hrest := h.rest
  split at hrest
  · exact hrest.le
  · exact hrest.ge

theorem Cuts.shiftRightOne {em : ExtendedMantissa} (h : Cuts em v) :
    Cuts em.shiftRightOne (v / 2) := by
  obtain ⟨q, b, s⟩ := em
  have hlow := h.low
  obtain ⟨hrest, hhigh⟩ := h
  have hsplit : (2 * (q / 2 : ℕ) + (q % 2 != 0).toNat : ℚ) = q := by
    have hparity : 2 * (q / 2) + (q % 2 != 0).toNat = q := by
      rcases Nat.mod_two_eq_zero_or_one q with hq | hq <;> rw [hq] <;> simp <;> omega
    exact_mod_cast hparity
  have hbit : (b.toNat : ℚ) ≤ 1 := by exact_mod_cast b.toNat_le
  constructor
  · show if b || s then (2 * (q / 2 : ℕ) + (q % 2 != 0).toNat : ℚ) < 2 * (v / 2)
      else 2 * (v / 2) = (2 * (q / 2 : ℕ) + (q % 2 != 0).toNat : ℚ)
    rw [hsplit]
    cases b <;> cases s <;> simp at hrest hlow ⊢ <;> linarith
  · show 2 * (v / 2) < (2 * (q / 2 : ℕ) + (q % 2 != 0).toNat : ℚ) + 1
    simp only at hhigh
    linarith

theorem Cuts.shiftRight {em : ExtendedMantissa} (h : Cuts em v) (n : Nat) :
    Cuts (em >>> n) (v / 2 ^ n) := by
  induction n with
  | zero =>
    rw [pow_zero, div_one]
    exact h
  | succ n ih =>
    rw [pow_succ, ← div_div]
    exact ih.shiftRightOne

/-- A quotient is cut to its whole part. -/
theorem cuts_ofFraction (n : Nat) {d : Nat} (hd : 0 < d) :
    Cuts (.ofMantissaAndAccuracy (n / d) (accuracyOfFraction (n % d) d)) (n / d : ℚ) := by
  have hdpos : (0 : ℚ) < d := by exact_mod_cast hd
  have hvalue : (n / d : ℚ) = (n / d : ℕ) + (n % d : ℕ) / d := by
    have hsplit : (n : ℚ) = d * (n / d : ℕ) + (n % d : ℕ) := by
      exact_mod_cast (Nat.div_add_mod n d).symm
    rw [div_eq_iff hdpos.ne', add_mul, div_mul_cancel₀ _ hdpos.ne', hsplit]
    ring
  have hlt : ((n % d : ℕ) : ℚ) < d := by exact_mod_cast Nat.mod_lt n hd
  rw [hvalue, accuracyOfFraction]
  by_cases hzero : n % d = 0
  · rw [if_pos hzero, hzero]
    constructor <;> simp [ExtendedMantissa.ofMantissaAndAccuracy]
  · rw [if_neg hzero]
    have hpos : (0 : ℚ) < (n % d : ℕ) := by exact_mod_cast Nat.pos_of_ne_zero hzero
    generalize n % d = k at *
    have hfraction : (0 : ℚ) < k / d := by positivity
    have hone : (k : ℚ) / d < 1 := (div_lt_one hdpos).mpr hlt
    rcases lt_trichotomy (2 * k) d with hhalf | hhalf | hhalf
    · have hhalf' : 2 * ((k : ℚ) / d) < 1 := by
        rw [← mul_div_assoc, div_lt_one hdpos]
        exact_mod_cast hhalf
      rw [Nat.compare_eq_lt.mpr hhalf]
      constructor <;> simp [ExtendedMantissa.ofMantissaAndAccuracy] <;> linarith
    · have hhalf' : 2 * ((k : ℚ) / d) = 1 := by
        rw [← mul_div_assoc, div_eq_one_iff_eq hdpos.ne']
        exact_mod_cast hhalf
      rw [Nat.compare_eq_eq.mpr hhalf]
      constructor <;> simp [ExtendedMantissa.ofMantissaAndAccuracy] <;> linarith
    · have hhalf' : 1 < 2 * ((k : ℚ) / d) := by
        rw [← mul_div_assoc, one_lt_div hdpos]
        exact_mod_cast hhalf
      rw [Nat.compare_eq_gt.mpr hhalf]
      constructor <;> simp [ExtendedMantissa.ofMantissaAndAccuracy] <;> linarith

/-- The mantissa is rounded to the number that is at most half a unit away, and is even if it is
just half a unit away. -/
theorem Cuts.roundedMantissa_eq {em : ExtendedMantissa} {m : Nat} (h : Cuts em v)
    (hlow : m - 1 / 2 ≤ v) (hhigh : v ≤ m + 1 / 2)
    (hodd : m % 2 = 1 → m - 1 / 2 < v ∧ v < m + 1 / 2) : em.roundedMantissa = m := by
  obtain ⟨q, b, s⟩ := em
  have hcut := h.low
  obtain ⟨hrest, hcut'⟩ := h
  simp only at hcut hcut'
  have hbelow : 2 * m < 2 * q + b.toNat + 2 := by
    have hcast : (2 * m : ℚ) < 2 * q + b.toNat + 2 := by linarith
    exact_mod_cast hcast
  have habove : 2 * q + b.toNat ≤ 2 * m + 1 := by
    have hcast : (2 * q + b.toNat : ℚ) ≤ 2 * m + 1 := by linarith
    exact_mod_cast hcast
  match b, s with
  | false, s =>
    have hq : q = m := by
      rw [Bool.toNat_false] at hbelow habove
      omega
    cases s <;> exact hq
  | true, false =>
    have hmiddle : 2 * v = 2 * q + 1 := by simpa using hrest
    have heven : m % 2 = 0 := by
      refine (Nat.mod_two_eq_zero_or_one m).resolve_right fun hm => ?_
      obtain ⟨hlow, hhigh⟩ := hodd hm
      have hbelow : m < q + 1 := by
        have hcast : (m : ℚ) < q + 1 := by linarith
        exact_mod_cast hcast
      have habove : q < m := by
        have hcast : (q : ℚ) < m := by linarith
        exact_mod_cast hcast
      omega
    rw [Bool.toNat_true] at hbelow habove
    show q + q % 2 = m
    omega
  | true, true =>
    have hmiddle : 2 * q + 1 < 2 * v := by simpa using hrest
    have habove : q < m := by
      have hcast : (q : ℚ) < m := by linarith
      exact_mod_cast hcast
    rw [Bool.toNat_true] at hbelow
    show q + 1 = m
    omega

end Mantissas

section Exponents

variable {M m : Nat} {E e : Int} {r : ℚ}

theorem targetExponent_eq (M : Nat) (E : Int) :
    Format.binary64.targetExponent (totalExponent M E) = max (M.log2 + E - 52) (-1074) := by
  show max ((M.log2 : Int) + 1 + E - 53) (-1074) = _
  congr 1
  omega

/-- The exponent of a double that a number is rounded to comes from the bits of its whole part
in any unit that is small enough. -/
theorem targetExponent_of_floor (hfloor : M ≤ r / 2 ^ E) (hfloor' : r / 2 ^ E < M + 1)
    (hexponent : E ≤ e) (hleast : -1074 ≤ e) (hlt : r < 2 ^ 53 * 2 ^ e)
    (hfull : 2 ^ 52 * 2 ^ e ≤ r ∨ e = -1074) :
    Format.binary64.targetExponent (totalExponent M E) = e := by
  obtain ⟨k, rfl⟩ : ∃ k : Nat, e = E + k := ⟨(e - E).toNat, by omega⟩
  have hunit : (0 : ℚ) < 2 ^ E := zpow_pos two_pos E
  rw [zpow_add₀ two_ne_zero, zpow_natCast] at hlt hfull
  have hbits : M.log2 < 53 + k := by
    by_cases hM : M = 0
    · subst hM
      exact Nat.lt_of_lt_of_le (by decide) (Nat.le_add_right 53 k)
    · have hM' : (M : ℚ) < 2 ^ (53 + k) := by
        refine hfloor.trans_lt ((div_lt_iff₀ hunit).mpr ?_)
        rw [pow_add]
        linarith
      exact (Nat.log2_lt hM).mpr (by exact_mod_cast hM')
  rw [targetExponent_eq]
  rcases hfull with hfull | hfull
  · have hM : 2 ^ (52 + k) ≤ M := by
      have hM' : (2 : ℚ) ^ (52 + k) < M + 1 := by
        refine hfloor'.trans_le' ((le_div_iff₀ hunit).mpr ?_)
        rw [pow_add]
        linarith
      exact Nat.lt_succ_iff.mp (by exact_mod_cast hM')
    have hbits' : 52 + k ≤ M.log2 := (Nat.le_log2 (Nat.ne_of_gt (Nat.lt_of_lt_of_le
      (Nat.two_pow_pos _) hM))).mpr hM
    omega
  · omega

/-- The first step of rounding: the number is cut off at the unit of the double, and its
mantissa there is rounded. -/
theorem exists_shiftToTargetExponent {accuracy : Accuracy}
    (hcut : Cuts (.ofMantissaAndAccuracy M accuracy) (r / 2 ^ E))
    (hbits : E ≤ -1074 ∨ 2 ^ (52 + E) ≤ r) (hleast : -1074 ≤ e) (hlt : r < 2 ^ 53 * 2 ^ e)
    (hfull : 2 ^ 52 * 2 ^ e ≤ r ∨ e = -1074) (hlow : m - 1 / 2 ≤ r / 2 ^ e)
    (hhigh : r / 2 ^ e ≤ m + 1 / 2)
    (hodd : m % 2 = 1 → m - 1 / 2 < r / 2 ^ e ∧ r / 2 ^ e < m + 1 / 2) :
    ∃ em, shiftToTargetExponent Format.binary64 M E accuracy = (em, e) ∧
      em.roundedMantissa = m := by
  have hexponent : E ≤ e := by
    rcases hbits with hbits | hbits
    · omega
    · have hpower : (2 : ℚ) ^ (52 + E) < 2 ^ (53 + e) := by
        rw [zpow_add₀ two_ne_zero 53 e]
        exact hbits.trans_lt hlt
      have := (zpow_lt_zpow_iff_right₀ one_lt_two).mp hpower
      omega
  have hmantissa : (ExtendedMantissa.ofMantissaAndAccuracy M accuracy).mantissa = M := by
    unfold ExtendedMantissa.ofMantissaAndAccuracy
    split <;> rfl
  have hround : ((ExtendedMantissa.ofMantissaAndAccuracy M accuracy).roundBit.toNat : ℚ) ≤ 1 := by
    exact_mod_cast Bool.toNat_le _
  have hzero : (0 : ℚ) ≤ (ExtendedMantissa.ofMantissaAndAccuracy M accuracy).roundBit.toNat :=
    Nat.cast_nonneg _
  have hfloor := hcut.low
  have hfloor' := hcut.high
  rw [hmantissa] at hfloor hfloor'
  have htarget : Format.binary64.targetExponent (totalExponent M E) = e :=
    targetExponent_of_floor (by linarith) (by linarith) hexponent hleast hlt hfull
  have hshift : E + ((e - E).toNat : Int) = e := by omega
  have hunit : r / 2 ^ E / 2 ^ (e - E).toNat = r / 2 ^ e := by
    rw [div_div, ← zpow_natCast, ← zpow_add₀ two_ne_zero, hshift]
  refine ⟨ExtendedMantissa.ofMantissaAndAccuracy M accuracy >>> (e - E).toNat, ?_, ?_⟩
  · rw [shiftToTargetExponent, htarget, shiftToExponent, hshift]
  · have hcut := hcut.shiftRight (e - E).toNat
    rw [hunit] at hcut
    exact hcut.roundedMantissa_eq hlow hhigh hodd

/-- A mantissa that is not too long stays the same after it was rounded. -/
theorem shiftToTargetExponent_of_lt (hlt : m < 2 ^ 53) (hleast : -1074 ≤ e) :
    shiftToTargetExponent Format.binary64 m e .exact = (⟨m, false, false⟩, e) := by
  have hbits : m.log2 ≤ 52 := by
    by_cases hm : m = 0
    · subst hm
      decide
    · exact Nat.lt_succ_iff.mp ((Nat.log2_lt hm).mpr hlt)
  have htarget : (Format.binary64.targetExponent (totalExponent m e) - e).toNat = 0 := by
    rw [targetExponent_eq]
    omega
  rw [shiftToTargetExponent, shiftToExponent, htarget]
  simp only [Nat.cast_zero, add_zero]
  rfl

/-- A mantissa that was rounded to the next power of two has one place less. -/
theorem shiftToTargetExponent_two_pow (hleast : -1074 ≤ e) :
    shiftToTargetExponent Format.binary64 (2 ^ 53) e .exact =
      (⟨2 ^ 52, false, false⟩, e + 1) := by
  have htarget : (Format.binary64.targetExponent (totalExponent (2 ^ 53) e) - e).toNat = 1 := by
    rw [targetExponent_eq, Nat.log2_two_pow]
    omega
  rw [shiftToTargetExponent, shiftToExponent, htarget]
  rfl

/-- A number that rounds to a double has as many bits above the unit of the double, unless the
double is a power of two. -/
theorem Rounds.full (hr : Rounds m e r) (hdouble : IsDouble m e) (hwide : isNarrow m e = false) :
    2 ^ 52 * 2 ^ e ≤ r ∨ e = -1074 := by
  refine or_iff_not_imp_right.mpr fun hexponent => ?_
  have hfull := hdouble.full.resolve_right hexponent
  have hne : m ≠ 2 ^ 52 := by
    rintro rfl
    rw [isNarrow, beq_self_eq_true, Bool.true_and, bne_eq_false_iff_eq] at hwide
    exact hexponent hwide
  have hmantissa : (2 ^ 52 : ℚ) ≤ m - 1 / 2 := by
    have hle : 2 ^ 52 + 1 ≤ m := Nat.lt_of_le_of_ne hfull hne.symm
    have hcast : (2 ^ 52 + 1 : ℚ) ≤ m := by exact_mod_cast hle
    linarith
  have hlow := hr.low
  rw [hwide, if_neg Bool.false_ne_true] at hlow
  exact hlow.trans' (mul_le_mul_of_nonneg_right hmantissa (zpow_pos two_pos e).le)

theorem roundWithAccuracy_of_shifts {accuracy : Accuracy} {em : ExtendedMantissa} {e' : Int}
    (hfirst : shiftToTargetExponent Format.binary64 M E accuracy = (em, e'))
    (hsecond : shiftToTargetExponent Format.binary64 em.roundedMantissa e' .exact =
      (⟨m, false, false⟩, e)) (hpos : 0 < m) (s : Sign) :
    roundWithAccuracy Format.binary64 s M E accuracy = .finite s m e hpos := by
  rw [roundWithAccuracy, hfirst]
  simp only
  rw [hsecond]
  exact dif_neg (Nat.ne_of_gt hpos)

/-- A number that is nearer to zero than the power of two that it rounds to is rounded to it. -/
theorem roundWithAccuracy_narrow {accuracy : Accuracy} (hdouble : IsDouble m e)
    (hr : Rounds m e r) (hnarrow : isNarrow m e = true) (hbelow : r < 2 ^ 52 * 2 ^ e)
    (hcut : Cuts (.ofMantissaAndAccuracy M accuracy) (r / 2 ^ E))
    (hbits : E ≤ -1074 ∨ 2 ^ (52 + E) ≤ r) (s : Sign) :
    roundWithAccuracy Format.binary64 s M E accuracy = .finite s m e hdouble.pos := by
  have hunit : (0 : ℚ) < 2 ^ e := zpow_pos two_pos e
  have hlow := (le_div_iff₀ hunit).mpr hr.low
  rw [if_pos hnarrow] at hlow
  rw [isNarrow, Bool.and_eq_true, beq_iff_eq, bne_iff_ne] at hnarrow
  obtain ⟨rfl, hne⟩ := hnarrow
  have hleast : -1074 ≤ e - 1 := by
    have := hdouble.least
    omega
  have hhalf : (2 : ℚ) ^ e = 2 ^ (e - 1) * 2 := by
    rw [← zpow_add_one₀ two_ne_zero, Int.sub_add_cancel]
  have hunit' : (0 : ℚ) < 2 ^ (e - 1) := zpow_pos two_pos _
  have hdouble' : r / 2 ^ (e - 1) = 2 * (r / 2 ^ e) := by
    rw [hhalf]
    field_simp
  have hbelow' := (div_lt_iff₀ hunit).mpr hbelow
  have hlow' : ((2 ^ 53 : ℕ) : ℚ) - 1 / 2 ≤ r / 2 ^ (e - 1) := by
    push_cast at hlow ⊢
    linarith
  have hhigh' : r / 2 ^ (e - 1) < ((2 ^ 53 : ℕ) : ℚ) := by
    push_cast at hbelow' ⊢
    linarith
  have hfull : 2 ^ 52 * 2 ^ (e - 1) ≤ r := by
    rw [← le_div_iff₀ hunit']
    push_cast at hlow'
    linarith
  have hlt : r < 2 ^ 53 * 2 ^ (e - 1) := by
    rw [← div_lt_iff₀ hunit']
    exact_mod_cast hhigh'
  obtain ⟨em, hfirst, hround⟩ := exists_shiftToTargetExponent hcut hbits hleast hlt
    (Or.inl hfull) hlow' (by linarith) nofun
  refine roundWithAccuracy_of_shifts hfirst ?_ hdouble.pos s
  rw [hround, shiftToTargetExponent_two_pow hleast, Int.sub_add_cancel]

/-- A number that rounds to a double is rounded to it. -/
theorem roundWithAccuracy_eq {accuracy : Accuracy} (hdouble : IsDouble m e) (hr : Rounds m e r)
    (hcut : Cuts (.ofMantissaAndAccuracy M accuracy) (r / 2 ^ E))
    (hbits : E ≤ -1074 ∨ 2 ^ (52 + E) ≤ r) (s : Sign) :
    roundWithAccuracy Format.binary64 s M E accuracy = .finite s m e hdouble.pos := by
  by_cases hbelow : isNarrow m e = true ∧ r < 2 ^ 52 * 2 ^ e
  · exact roundWithAccuracy_narrow hdouble hr hbelow.1 hbelow.2 hcut hbits s
  · have hunit : (0 : ℚ) < 2 ^ e := zpow_pos two_pos e
    have hlow := (le_div_iff₀ hunit).mpr hr.low
    have hhigh := (div_le_iff₀ hunit).mpr hr.high
    have hmantissa : (m : ℚ) ≤ 2 ^ 53 - 1 := by
      have hle : m + 1 ≤ 2 ^ 53 := hdouble.lt
      have hcast : (m + 1 : ℚ) ≤ 2 ^ 53 := by exact_mod_cast hle
      linarith
    have hlt : r < 2 ^ 53 * 2 ^ e := (div_lt_iff₀ hunit).mp (by linarith)
    have hlow' : (m - 1 / 2 : ℚ) ≤ r / 2 ^ e := by
      refine hlow.trans' (sub_le_sub_left ?_ _)
      split <;> norm_num
    have hfull : 2 ^ 52 * 2 ^ e ≤ r ∨ e = -1074 := by
      by_cases hnarrow : isNarrow m e = true
      · exact Or.inl (not_lt.mp fun h => hbelow ⟨hnarrow, h⟩)
      · exact hr.full hdouble (Bool.eq_false_iff.mpr hnarrow)
    obtain ⟨em, hfirst, hround⟩ := exists_shiftToTargetExponent hcut hbits hdouble.least hlt hfull
      hlow' hhigh fun hodd => ⟨(lt_div_iff₀ hunit).mpr (hr.odd hodd).1,
        (div_lt_iff₀ hunit).mpr (hr.odd hodd).2⟩
    refine roundWithAccuracy_of_shifts hfirst ?_ hdouble.pos s
    rw [hround, shiftToTargetExponent_of_lt hdouble.lt hdouble.least]

end Exponents

end CartoStyle.Decimal
