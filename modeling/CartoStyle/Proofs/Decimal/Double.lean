import Mathlib
import CartoStyle.Proofs.Decimal.Numeral

/-!
Equality of doubles. Two finite doubles other than the negative zero are equal
as numbers only if they have the same bits. A double is taken apart into its
sign, its mantissa and its exponent, which together are its bits.
-/

namespace CartoStyle.Decimal

open Float.Model UnpackedFloat

def bitsOf (x : Float) : Nat := x.toBits.toNat

def powerOf (n : Nat) : Nat := n / 2 ^ 52 % 2 ^ 11

def signOf (n : Nat) : Sign := if n / 2 ^ 63 % 2 = 0 then .positive else .negative

theorem bitsOf_lt (x : Float) : bitsOf x < 2 ^ 64 := x.toBits.toNat_lt

theorem eq_of_bitsOf_eq {x y : Float} (h : bitsOf x = bitsOf y) : x = y := by
  obtain ⟨⟨bits, hbits⟩⟩ := x
  obtain ⟨⟨bits', hbits'⟩⟩ := y
  have heq : bits = bits' := UInt64.toNat_inj.mp h
  subst heq
  rfl

section Unpacking

variable {b : BitVec Format.binary64.numBits}

theorem toNat_unpackMantissa (b : BitVec Format.binary64.numBits) :
    (unpackMantissa b).toNat = b.toNat % 2 ^ 52 := by
  simp [unpackMantissa, BitVec.extractLsb_toNat]

theorem toNat_unpackExponent (b : BitVec Format.binary64.numBits) :
    (unpackExponent b).toNat = powerOf b.toNat := by
  simp [unpackExponent, BitVec.extractLsb_toNat, Nat.shiftRight_eq_div_pow, powerOf]

theorem ofBitVec_unpackSign (b : BitVec Format.binary64.numBits) :
    Sign.ofBitVec (unpackSign b) = signOf b.toNat := by
  have hsign : (unpackSign b).toNat = b.toNat / 2 ^ 63 % 2 := by
    simp [unpackSign, BitVec.extractLsb_toNat, Nat.shiftRight_eq_div_pow]
  rw [Sign.ofBitVec, signOf, ← hsign]
  by_cases h : unpackSign b = 0#1
  · rw [if_pos h, if_pos (by rw [h]; rfl)]
  · have hne : (unpackSign b).toNat ≠ 0 := fun hzero => h (BitVec.eq_of_toNat_eq hzero)
    rw [if_neg h, if_neg hne]

theorem unpackExponent_ne_top (h : powerOf b.toNat ≠ 2047) : unpackExponent b ≠ -1#11 := by
  intro heq
  rw [← toNat_unpackExponent, heq] at h
  exact h rfl

/-- A double that is neither infinite nor missing is a zero, or its bits without the sign are
its mantissa with the exponent above it. -/
theorem unpack_cases (h : powerOf b.toNat ≠ 2047) :
    (UnpackedFloat.unpack Format.binary64 b = .zero (signOf b.toNat) ∧ b.toNat % 2 ^ 63 = 0) ∨
      ∃ m e hpos, UnpackedFloat.unpack Format.binary64 b = .finite (signOf b.toNat) m e hpos ∧
        ((b.toNat % 2 ^ 63 : Nat) : Int) = m + (e + 1074) * 2 ^ 52 := by
  have htop := unpackExponent_ne_top h
  have hexponent := toNat_unpackExponent b
  have hmantissa := toNat_unpackMantissa b
  unfold UnpackedFloat.unpack
  simp only [powerOf] at h hexponent
  by_cases hzero : unpackExponent b = 0#11
  · rw [hzero] at hexponent
    have hpower : b.toNat / 2 ^ 52 % 2 ^ 11 = 0 := hexponent.symm
    by_cases hnone : unpackMantissa b = 0#52
    · left
      rw [hnone] at hmantissa
      have hfraction : b.toNat % 2 ^ 52 = 0 := hmantissa.symm
      simp only
      rw [if_neg htop, if_pos hzero, dif_pos hnone, ofBitVec_unpackSign]
      refine ⟨rfl, by omega⟩
    · right
      have hpos : 0 < (unpackMantissa b).toNat :=
        Nat.pos_of_ne_zero fun hfraction => hnone (BitVec.eq_of_toNat_eq hfraction)
      simp only
      rw [if_neg htop, if_pos hzero, dif_neg hnone, ofBitVec_unpackSign, hzero]
      refine ⟨_, _, hpos, rfl, ?_⟩
      show ((b.toNat % 2 ^ 63 : Nat) : Int) =
        ((unpackMantissa b).toNat : Int) + (0 - 1075 + 1 + 1074) * 2 ^ 52
      rw [hmantissa]
      omega
  · right
    have hpower : b.toNat / 2 ^ 52 % 2 ^ 11 ≠ 0 := by
      intro hpower
      rw [hpower] at hexponent
      exact hzero (BitVec.eq_of_toNat_eq hexponent)
    have happend : (1#1 ++ unpackMantissa b).toNat = 2 ^ 52 + b.toNat % 2 ^ 52 := by
      rw [BitVec.toNat_append, hmantissa,
        ← Nat.shiftLeft_add_eq_or_of_lt (Nat.mod_lt _ (by decide))]
      rfl
    have hpos : 0 < (1#1 ++ unpackMantissa b).toNat := by omega
    simp only
    rw [if_neg htop, if_neg hzero, ofBitVec_unpackSign]
    refine ⟨_, _, hpos, rfl, ?_⟩
    show ((b.toNat % 2 ^ 63 : Nat) : Int) = ((1#1 ++ unpackMantissa b).toNat : Int) +
      ((unpackExponent b).toNat - 1075 + 1074) * 2 ^ 52
    rw [happend, hexponent]
    omega

end Unpacking

section Comparing

variable {x y : Float}

def partsOf (x : Float) : UnpackedFloat := UnpackedFloat.unpack Format.binary64 x.toBits.toBitVec

theorem beq_iff_compare : (x == y) = true ↔ (partsOf x).compare (partsOf y) = some .eq := by
  show ((partsOf x).compare (partsOf y) == some .eq) = true ↔ _
  exact beq_iff_eq

theorem compare_finite_iff {s t : Sign} {m n : Nat} {e f : Int} {hm : 0 < m} {hn : 0 < n} :
    UnpackedFloat.compare (.finite s m e hm) (.finite t n f hn) = some .eq ↔
      s = t ∧ m = n ∧ e = f := by
  cases s <;> cases t <;>
    simp [UnpackedFloat.compare, Ordering.then_eq_eq, and_comm]

theorem powerOf_bitsOf_ne (hx : IsFinite x) : powerOf (bitsOf x) ≠ 2047 := by
  intro hpower
  have hpower : x.toBits.toNat / Nat.pow 2 52 % Nat.pow 2 11 = 2047 := hpower
  rw [IsFinite, view, hpower] at hx
  by_cases hfraction : x.toBits.toNat % Nat.pow 2 52 = 0
  · simp [hfraction] at hx
  · simp [hfraction] at hx

theorem parts_cases (hx : IsFinite x) :
    (partsOf x = .zero (signOf (bitsOf x)) ∧ bitsOf x % 2 ^ 63 = 0) ∨
      ∃ m e hpos, partsOf x = .finite (signOf (bitsOf x)) m e hpos ∧
        ((bitsOf x % 2 ^ 63 : Nat) : Int) = m + (e + 1074) * 2 ^ 52 :=
  unpack_cases (powerOf_bitsOf_ne hx)

theorem view_eq_zero_true (h : bitsOf x = 2 ^ 63) : view x = .zero true := by
  have h : x.toBits.toNat = 2 ^ 63 := h
  rw [view, h]
  rfl

/-- Finite doubles other than the negative zero that are equal as numbers are the same. -/
theorem eq_of_beq (hx : IsFinite x) (hy : IsFinite y) (hxzero : view x ≠ .zero true)
    (hyzero : view y ≠ .zero true) (h : (x == y) = true) : x = y := by
  have hxbits := bitsOf_lt x
  have hybits := bitsOf_lt y
  rw [beq_iff_compare] at h
  apply eq_of_bitsOf_eq
  rcases parts_cases hx with ⟨hxparts, hxrest⟩ | ⟨m, e, hm, hxparts, hxrest⟩ <;>
    rcases parts_cases hy with ⟨hyparts, hyrest⟩ | ⟨n, f, hn, hyparts, hyrest⟩ <;>
    rw [hxparts, hyparts] at h
  · have hxne := mt view_eq_zero_true hxzero
    have hyne := mt view_eq_zero_true hyzero
    omega
  · cases hsign : signOf (bitsOf y) <;> rw [hsign] at h <;> cases h
  · cases hsign : signOf (bitsOf x) <;> rw [hsign] at h <;> cases h
  · obtain ⟨hsign, rfl, rfl⟩ := compare_finite_iff.mp h
    have hsign : bitsOf x / 2 ^ 63 % 2 = bitsOf y / 2 ^ 63 % 2 := by
      simp only [signOf] at hsign
      split at hsign <;> split at hsign <;> first | omega | cases hsign
    omega

/-- Only what is no number differs from itself. -/
theorem beq_self_of_ne (hx : partsOf x ≠ .notANumber) : (x == x) = true := by
  rw [beq_iff_compare]
  cases hparts : partsOf x with
  | infinity s => cases s <;> rfl
  | notANumber => exact absurd hparts hx
  | zero s => rfl
  | finite s m e hm => exact compare_finite_iff.mpr ⟨rfl, rfl, rfl⟩

/-- A finite double equals itself. -/
theorem beq_self (hx : IsFinite x) : (x == x) = true := by
  refine beq_self_of_ne fun hnan => ?_
  rcases parts_cases hx with ⟨hparts, -⟩ | ⟨m, e, hm, hparts, -⟩ <;> rw [hparts] at hnan <;>
    cases hnan

/-- A factor of a finite product equals itself. -/
theorem beq_self_of_mul (h : IsFinite (x * y)) : (x == x) = true := by
  refine beq_self_of_ne fun hx => ?_
  have hmul : x * y = ⟨pack .notANumber⟩ := by
    show Float.mul x y = _
    rw [Float.mul]
    congr 1
    show pack (UnpackedFloat.mul _ (partsOf x) _) = _
    rw [hx]
    rfl
  have hview : view ⟨pack .notANumber⟩ = .nan := rfl
  rw [hmul, IsFinite, hview] at h
  exact h

theorem lt_iff_compare : x < y ↔ (partsOf x).compare (partsOf y) = some .lt := by
  show Float.lt x y = true ↔ _
  rw [Float.lt, decide_eq_true_iff]
  show ((partsOf x).compare (partsOf y) == some .lt) = true ↔ _
  exact beq_iff_eq

theorem le_iff_compare :
    x ≤ y ↔ ((partsOf x).compare (partsOf y)).any Ordering.isLE = true := by
  show Float.le x y = true ↔ _
  rw [Float.le, decide_eq_true_iff]
  rfl

/-- A double is at most another if it is less than the other or equal to it. -/
theorem le_iff_lt_or_beq : x ≤ y ↔ x < y ∨ (x == y) = true := by
  rw [le_iff_compare, lt_iff_compare, beq_iff_compare]
  match (partsOf x).compare (partsOf y) with
  | none => simp
  | some .lt => simp
  | some .eq => simp
  | some .gt => simp

theorem le_iff_lt_of_beq (h : (x == y) = false) : x ≤ y ↔ x < y := by
  rw [le_iff_lt_or_beq, h]
  simp

theorem compare_eq_comm (u v : UnpackedFloat) :
    u.compare v = some .eq ↔ v.compare u = some .eq := by
  cases u with
  | notANumber => cases v <;> simp [UnpackedFloat.compare]
  | infinity s =>
    cases v with
    | infinity t => cases s <;> cases t <;> decide
    | _ => cases s <;> simp [UnpackedFloat.compare]
  | zero s =>
    cases v with
    | infinity t | finite t => cases t <;> simp [UnpackedFloat.compare]
    | _ => simp [UnpackedFloat.compare]
  | finite s m e hm =>
    cases v with
    | finite t n f hn =>
      rw [compare_finite_iff, compare_finite_iff]
      simp only [eq_comm]
    | infinity t => cases t <;> cases s <;> simp [UnpackedFloat.compare]
    | _ => cases s <;> simp [UnpackedFloat.compare]

theorem beq_comm : (x == y) = (y == x) := by
  rw [Bool.eq_iff_iff, beq_iff_compare, beq_iff_compare, compare_eq_comm]

end Comparing

end CartoStyle.Decimal
