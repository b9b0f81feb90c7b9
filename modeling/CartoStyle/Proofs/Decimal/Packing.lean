import CartoStyle.Proofs.Decimal.Double
import CartoStyle.Proofs.Decimal.Rounding

/-!
The bits of doubles. A finite double is its sign, its mantissa and its
exponent packed into its bits, where they are found again.
-/

namespace CartoStyle.Decimal

open Float.Model UnpackedFloat

variable {m : Nat} {e : Int}

def signFor (negative : Bool) : Sign := if negative then .negative else .positive

def biased (m : Nat) (e : Int) : Nat := if 2 ^ 52 ≤ m then (e + 1075).toNat else 0

def bitsFor (negative : Bool) (m : Nat) (e : Int) : Nat :=
  negative.toNat * 2 ^ 63 + biased m e * 2 ^ 52 + m % 2 ^ 52

theorem toNat_packComponents (negative : Bool) (p : BitVec 11) (f : BitVec 52) :
    (packComponents Format.binary64 (signFor negative) p f).toNat =
      negative.toNat * 2 ^ 63 + p.toNat * 2 ^ 52 + f.toNat := by
  have hsign : (signFor negative).toBitVec.toNat = negative.toNat := by
    cases negative <;> rfl
  rw [packComponents, BitVec.toNat_append, BitVec.toNat_append,
    ← Nat.shiftLeft_add_eq_or_of_lt p.isLt, ← Nat.shiftLeft_add_eq_or_of_lt f.isLt, hsign,
    Nat.shiftLeft_eq, Nat.shiftLeft_eq]
  show (negative.toNat * 2 ^ 11 + p.toNat) * 2 ^ 52 + f.toNat = _
  omega

theorem IsDouble.biased_lt (h : IsDouble m e) : biased m e < 2047 := by
  have := h.most
  rw [biased]
  split <;> omega

theorem IsDouble.toNat_pack (h : IsDouble m e) (negative : Bool) :
    (UnpackedFloat.pack Format.binary64 (.finite (signFor negative) m e h.pos)).toNat =
      bitsFor negative m e := by
  have hleast := h.least
  have hmost := h.most
  have hshort : ¬ 2 ^ 11 ≤ (e + 1023 + 52).toNat + 1 := by omega
  have hpower : e + 1023 + 52 = e + 1075 := by omega
  rw [UnpackedFloat.pack]
  show (if 2 ^ 11 ≤ (e + 1023 + 52).toNat + 1 then _ else if m.log2 + 1 = 53 then _ else _ :
    BitVec Format.binary64.numBits).toNat = _
  rw [if_neg hshort, bitsFor, biased]
  by_cases hfull : 2 ^ 52 ≤ m
  · have hbits : m.log2 + 1 = 53 := by
      rw [(Nat.log2_eq_iff h.pos.ne').mpr ⟨hfull, h.lt⟩]
    rw [if_pos hbits, if_pos hfull, toNat_packComponents, BitVec.toNat_ofNat, BitVec.toNat_ofNat]
    show negative.toNat * 2 ^ 63 + (e + 1023 + 52).toNat % 2 ^ 11 * 2 ^ 52 + m % 2 ^ 52 = _
    rw [hpower, Nat.mod_eq_of_lt (by omega)]
  · have hbits : m.log2 + 1 ≠ 53 := fun hbits => by
      have := (Nat.log2_lt h.pos.ne').mpr (Nat.lt_of_not_le hfull)
      omega
    rw [if_neg hbits, if_neg hfull, toNat_packComponents, BitVec.toNat_ofNat]
    rfl

/-- The fields of the bits of a double. -/
theorem IsDouble.unpack_fields (h : IsDouble m e) {negative : Bool}
    {b : BitVec Format.binary64.numBits} (hb : b.toNat = bitsFor negative m e) :
    Sign.ofBitVec (unpackSign b) = signFor negative ∧
      (unpackExponent b).toNat = biased m e ∧ (unpackMantissa b).toNat = m % 2 ^ 52 := by
  have hbiased := h.biased_lt
  have hsignBit : negative.toNat ≤ 1 := negative.toNat_le
  refine ⟨?_, ?_, ?_⟩
  · rw [ofBitVec_unpackSign, signOf, hb, bitsFor]
    cases negative with
    | false =>
      rw [if_pos (by simp; omega)]
      rfl
    | true =>
      rw [if_neg (by simp; omega)]
      rfl
  · rw [toNat_unpackExponent, powerOf, hb, bitsFor]
    omega
  · rw [toNat_unpackMantissa, hb, bitsFor]
    omega

/-- A double is found in its bits. -/
theorem IsDouble.unpack_eq (h : IsDouble m e) {negative : Bool}
    {b : BitVec Format.binary64.numBits} (hb : b.toNat = bitsFor negative m e) :
    UnpackedFloat.unpack Format.binary64 b = .finite (signFor negative) m e h.pos := by
  obtain ⟨hsign, hexponent, hmantissa⟩ := h.unpack_fields hb
  have hbiased := h.biased_lt
  have htop : unpackExponent b ≠ -1#11 := unpackExponent_ne_top (by
    rw [← toNat_unpackExponent]
    omega)
  unfold UnpackedFloat.unpack
  simp only
  rw [if_neg htop]
  by_cases hfull : 2 ^ 52 ≤ m
  · have hnormal : biased m e = (e + 1075).toNat := if_pos hfull
    have hleast := h.least
    have hlt := h.lt
    have hzero : unpackExponent b ≠ 0#11 := by
      intro hzero
      rw [hzero] at hexponent
      have hpower : 0 = biased m e := hexponent
      omega
    have happend : (1#1 ++ unpackMantissa b).toNat = 2 ^ 52 + m % 2 ^ 52 := by
      rw [BitVec.toNat_append, hmantissa,
        ← Nat.shiftLeft_add_eq_or_of_lt (Nat.mod_lt _ (by decide))]
      rfl
    rw [if_neg hzero, UnpackedFloat.finite.injEq]
    refine ⟨hsign, by rw [happend]; omega, ?_⟩
    show ((unpackExponent b).toNat : Int) - (1023 + 52) = e
    rw [hexponent]
    omega
  · have hsubnormal : biased m e = 0 := if_neg hfull
    have hexponent' := h.full.resolve_left hfull
    have hpos := h.pos
    have hzero : unpackExponent b = 0#11 := BitVec.eq_of_toNat_eq (hexponent.trans hsubnormal)
    have hnone : unpackMantissa b ≠ 0#52 := by
      intro hnone
      rw [hnone] at hmantissa
      have hrest : 0 = m % 2 ^ 52 := hmantissa
      omega
    rw [if_pos hzero, dif_neg hnone, UnpackedFloat.finite.injEq]
    refine ⟨hsign, by rw [hmantissa]; omega, ?_⟩
    show ((unpackExponent b).toNat : Int) - (1023 + 52) + 1 = e
    rw [hexponent]
    omega

theorem toNat_ofModel_pack (u : UnpackedFloat) :
    bitsOf (.ofModel (.pack u)) = (UnpackedFloat.pack Format.binary64 u).toNat := rfl

/-- The parts of a double that was packed. -/
theorem IsDouble.partsOf_pack (h : IsDouble m e) (negative : Bool) :
    partsOf (.ofModel (.pack (.finite (signFor negative) m e h.pos))) =
      .finite (signFor negative) m e h.pos :=
  h.unpack_eq (h.toNat_pack negative)

theorem view_eq (x : Float) : view x =
    if bitsOf x / 2 ^ 52 % 2 ^ 11 == 2047 then
      if bitsOf x % 2 ^ 52 == 0 then .infinite (bitsOf x / 2 ^ 63 == 1) else .nan
    else if bitsOf x / 2 ^ 52 % 2 ^ 11 == 0 then
      if bitsOf x % 2 ^ 52 == 0 then .zero (bitsOf x / 2 ^ 63 == 1)
      else .finite (bitsOf x / 2 ^ 63 == 1) (bitsOf x % 2 ^ 52) (-1074) false
    else .finite (bitsOf x / 2 ^ 63 == 1) (2 ^ 52 + bitsOf x % 2 ^ 52)
      (Int.ofNat (bitsOf x / 2 ^ 52 % 2 ^ 11) - 1075)
      (bitsOf x % 2 ^ 52 == 0 && bitsOf x / 2 ^ 52 % 2 ^ 11 != 1) := rfl

theorem toNat_sign (x : Float) : (bitsOf x / 2 ^ 63 == 1).toNat = bitsOf x / 2 ^ 63 := by
  have hlt : bitsOf x / 2 ^ 63 < 2 := Nat.div_lt_of_lt_mul (bitsOf_lt x)
  rcases Nat.lt_succ_iff_lt_or_eq.mp hlt with h | h
  · rw [Nat.lt_one_iff.mp h]
    rfl
  · rw [h]
    rfl

/-- The view of a finite double is of a mantissa and an exponent of doubles, with its bits. -/
theorem view_finite {x : Float} {negative narrow : Bool}
    (hview : view x = .finite negative m e narrow) :
    IsDouble m e ∧ narrow = isNarrow m e ∧ bitsOf x = bitsFor negative m e := by
  have hbits := bitsOf_lt x
  have hsign := toNat_sign x
  rw [view_eq] at hview
  generalize bitsOf x = n at *
  split at hview
  · split at hview <;> cases hview
  · rename_i htop
    rw [beq_iff_eq] at htop
    split at hview
    · rename_i hpower
      rw [beq_iff_eq] at hpower
      split at hview
      · cases hview
      · rename_i hfraction
        rw [beq_iff_eq] at hfraction
        injection hview with hnegative hm he hnarrow
        subst hm he hnarrow hnegative
        have hlt : n % 2 ^ 52 < 2 ^ 52 := Nat.mod_lt _ (by decide)
        refine ⟨⟨by omega, by omega, by omega, by omega, by omega⟩, ?_, ?_⟩
        · rw [isNarrow, bne_self_eq_false, Bool.and_false]
        · rw [bitsFor, biased, if_neg (by omega), hsign]
          omega
    · rename_i hpower
      rw [beq_iff_eq] at hpower
      injection hview with hnegative hm he hnarrow
      subst hm he hnarrow hnegative
      have hlt : n % 2 ^ 52 < 2 ^ 52 := Nat.mod_lt _ (by decide)
      have hpower' : n / 2 ^ 52 % 2 ^ 11 < 2 ^ 11 := Nat.mod_lt _ (by decide)
      have he : Int.ofNat (n / 2 ^ 52 % 2 ^ 11) = (n / 2 ^ 52 % 2 ^ 11 : Nat) := rfl
      refine ⟨⟨by omega, by omega, by omega, by omega, by omega⟩, ?_, ?_⟩
      · rw [isNarrow, he]
        congr 1
        · rw [Bool.eq_iff_iff, beq_iff_eq, beq_iff_eq]
          omega
        · rw [Bool.eq_iff_iff, bne_iff_ne, bne_iff_ne]
          omega
      · rw [bitsFor, biased, if_pos (by omega), hsign, he]
        omega

/-- A finite double other than zero is its sign, mantissa and exponent packed together. -/
theorem eq_pack_of_view {x : Float} {negative narrow : Bool}
    (hview : view x = .finite negative m e narrow) (h : IsDouble m e) :
    x = .ofModel (.pack (.finite (signFor negative) m e h.pos)) := by
  apply eq_of_bitsOf_eq
  rw [(view_finite hview).2.2, toNat_ofModel_pack, h.toNat_pack]

theorem eq_pack_of_view_zero {x : Float} {negative : Bool} (hview : view x = .zero negative) :
    x = .ofModel (.pack (.zero (signFor negative))) := by
  have hbits := bitsOf_lt x
  have hsign := toNat_sign x
  have hpack : bitsOf (.ofModel (.pack (.zero (signFor negative)))) = negative.toNat * 2 ^ 63 := by
    rw [toNat_ofModel_pack]
    show (packComponents Format.binary64 (signFor negative) 0#11 0#52).toNat = _
    rw [toNat_packComponents, BitVec.toNat_zero, BitVec.toNat_zero, Nat.zero_mul, Nat.add_zero]
  apply eq_of_bitsOf_eq
  rw [hpack]
  rw [view_eq] at hview
  generalize bitsOf x = n at *
  split at hview
  · split at hview <;> cases hview
  · split at hview
    · rename_i hpower
      rw [beq_iff_eq] at hpower
      split at hview
      · rename_i hfraction
        rw [beq_iff_eq] at hfraction
        injection hview with hnegative
        subst hnegative
        rw [hsign]
        omega
      · cases hview
    · cases hview

/-- The powers of two of the doubles that are not numbers or not finite. -/
theorem powerOf_of_not_isFinite {x : Float} (hx : ¬ IsFinite x) : powerOf (bitsOf x) = 2047 := by
  refine Classical.byContradiction fun hpower => hx ?_
  have hpower : (bitsOf x / 2 ^ 52 % 2 ^ 11 == 2047) = false := beq_eq_false_iff_ne.mpr hpower
  rw [IsFinite, view_eq, hpower, if_neg Bool.false_ne_true]
  by_cases hzero : bitsOf x / 2 ^ 52 % 2 ^ 11 == 0
  · rw [if_pos hzero]
    by_cases hfraction : bitsOf x % 2 ^ 52 == 0
    · rw [if_pos hfraction]
      trivial
    · rw [if_neg hfraction]
      trivial
  · rw [if_neg hzero]
    trivial

theorem isFinite_iff {x : Float} : IsFinite x ↔ x.isFinite = true := by
  have hparts : x.isFinite = (partsOf x).isFinite := rfl
  constructor
  · intro hx
    rw [hparts]
    rcases parts_cases hx with ⟨hzero, -⟩ | ⟨m, e, hm, hfinite, -⟩
    · rw [hzero]
      rfl
    · rw [hfinite]
      rfl
  · intro hfinite
    refine Classical.byContradiction fun hx => ?_
    have hpower := powerOf_of_not_isFinite hx
    obtain ⟨b, hb⟩ : ∃ b : BitVec Format.binary64.numBits, b = x.toBits.toBitVec := ⟨_, rfl⟩
    have htop : unpackExponent b = -1#11 :=
      BitVec.eq_of_toNat_eq ((toNat_unpackExponent b).trans (hb ▸ hpower))
    rw [hparts, partsOf, ← hb] at hfinite
    unfold UnpackedFloat.unpack at hfinite
    simp only at hfinite
    rw [if_pos htop] at hfinite
    by_cases hmantissa : unpackMantissa b = 0#52
    · rw [if_pos hmantissa] at hfinite
      cases hfinite
    · rw [if_neg hmantissa] at hfinite
      cases hfinite

theorem IsDouble.neg_pack (h : IsDouble m e) :
    -Float.ofModel (.pack (.finite .positive m e h.pos)) =
      .ofModel (.pack (.finite .negative m e h.pos)) := by
  show Float.ofModel (.pack (UnpackedFloat.neg
    (partsOf (.ofModel (.pack (.finite (signFor false) m e h.pos)))))) = _
  rw [h.partsOf_pack]
  rfl

theorem neg_pack_zero :
    -Float.ofModel (.pack (.zero .positive)) = .ofModel (.pack (.zero .negative)) := rfl

end CartoStyle.Decimal
