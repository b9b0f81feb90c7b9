import CartoStyle.Decimal.Layout
import CartoStyle.Expression.Lexeme
import CartoStyle.Proofs.Pattern.Matching

/-!
The plain text of a finite number is a numeral: an optional sign and digits with an
optional fraction. It has no exponent and no name.
-/

namespace CartoStyle.Decimal

open Pattern

variable {cs : List Char}

theorem matches_digits_iff :
    Matches Lexeme.digits cs ↔ cs ≠ [] ∧ ∀ c ∈ cs, c.isDigit = true :=
  matches_atLeastOne_one_iff

/-- Digits, and perhaps a point with further digits. -/
theorem matches_numeral_of_digits (negative : Bool) {whole fraction : List Char}
    (hwhole : Matches Lexeme.digits whole)
    (hfraction : fraction = [] ∨ ∃ ds, fraction = '.' :: ds ∧ Matches Lexeme.digits ds) :
    Matches Lexeme.numeral ((if negative then ['-'] else []) ++ (whole ++ fraction)) := by
  have hsign : Matches (optional (literal "-")) (if negative then ['-'] else []) := by
    cases negative with
    | false => exact .right .nothing
    | true => exact .left (matches_literal_iff.mpr rfl)
  refine .seq hsign (.left (.seq hwhole ?_))
  rcases hfraction with rfl | ⟨ds, rfl, hds⟩
  · exact .right .nothing
  · exact .left (matches_seq_iff.mpr ⟨['.'], ds, rfl, matches_literal_iff.mpr rfl, hds⟩)

theorem matches_digits_toDigits (n : Nat) : Matches Lexeme.digits (Nat.toDigits 10 n) :=
  matches_digits_iff.mpr ⟨Nat.toDigits_ne_nil, fun _ hc =>
    Nat.isDigit_of_mem_toDigits (by decide) (by decide) hc⟩

theorem isDigit_of_mem_zeros {n : Int} : ∀ c ∈ Layout.zeros n, c.isDigit = true := by
  intro c hc
  obtain rfl : c = '0' := (List.mem_replicate.mp hc).2
  rfl

/-- Digits around a point are a numeral, wherever the point stands. -/
theorem matches_positionalForm (negative : Bool) {digits : List Char}
    (hdigits : Matches Lexeme.digits digits) (point : Int) :
    Matches Lexeme.numeral ((if negative then ['-'] else []) ++
      Layout.plain.positionalForm digits point) := by
  obtain ⟨hne, hall⟩ := matches_digits_iff.mp hdigits
  rw [Layout.positionalForm]
  by_cases hlow : point ≤ 0
  · rw [if_pos hlow]
    have hwhole : Matches Lexeme.digits ['0'] := matches_digits_iff.mpr ⟨nofun, by simp⟩
    have hfraction : Matches Lexeme.digits (Layout.zeros (-point) ++ digits) := by
      refine matches_digits_iff.mpr ⟨by simp [hne], fun c hc => ?_⟩
      rcases List.mem_append.mp hc with hc | hc
      · exact isDigit_of_mem_zeros c hc
      · exact hall c hc
    have hform := matches_numeral_of_digits negative hwhole (Or.inr ⟨_, rfl, hfraction⟩)
    simpa using hform
  · rw [if_neg hlow]
    by_cases hhigh : digits.length ≤ point
    · rw [if_pos hhigh]
      have hwhole : Matches Lexeme.digits (digits ++ Layout.zeros (point - digits.length)) := by
        refine matches_digits_iff.mpr ⟨by simp [hne], fun c hc => ?_⟩
        rcases List.mem_append.mp hc with hc | hc
        · exact hall c hc
        · exact isDigit_of_mem_zeros c hc
      exact matches_numeral_of_digits negative hwhole (Or.inl rfl)
    · rw [if_neg hhigh, List.append_assoc]
      have hwhole : Matches Lexeme.digits (digits.take point.toNat) := by
        refine matches_digits_iff.mpr ⟨?_, fun c hc => hall c (List.mem_of_mem_take hc)⟩
        rw [← List.length_pos_iff, List.length_take]
        omega
      have hfraction : Matches Lexeme.digits (digits.drop point.toNat) := by
        refine matches_digits_iff.mpr ⟨?_, fun c hc => hall c (List.mem_of_mem_drop hc)⟩
        rw [← List.length_pos_iff, List.length_drop]
        omega
      exact matches_numeral_of_digits negative hwhole (Or.inr ⟨_, rfl, hfraction⟩)

def IsFinite (x : Float) : Prop :=
  match view x with
  | .nan | .infinite _ => False
  | .zero _ | .finite _ _ _ _ => True

/-- The text of a finite number is a numeral. -/
theorem matches_display {x : Float} (hx : IsFinite x) :
    Matches Lexeme.numeral (display x).toList := by
  rw [IsFinite] at hx
  rw [display, Layout.write]
  cases hview : view x with
  | nan =>
    rw [hview] at hx
    exact hx.elim
  | infinite negative =>
    rw [hview] at hx
    exact hx.elim
  | zero negative =>
    have hzero : Matches Lexeme.digits ['0'] := matches_digits_iff.mpr ⟨nofun, by simp⟩
    cases negative with
    | false => exact matches_numeral_of_digits false hzero (Or.inl rfl)
    | true => exact matches_numeral_of_digits true hzero (Or.inl rfl)
  | finite negative mantissa exponent narrow =>
    have hform := matches_positionalForm negative
      (matches_digits_toDigits (shortest .up mantissa exponent narrow).coefficient)
      ((shortest .up mantissa exponent narrow).lead + 1)
    cases negative with
    | false => simpa [Layout.magnitude, Layout.isPositional, Layout.plain, Digits.list] using hform
    | true => simpa [Layout.magnitude, Layout.isPositional, Layout.plain, Digits.list] using hform

/-- A number that is infinite or missing is written as a name. -/
theorem display_of_not_isFinite {x : Float} (hx : ¬ IsFinite x) :
    display x = "NaN" ∨ display x = "inf" ∨ display x = "-inf" := by
  rw [IsFinite] at hx
  rw [display, Layout.write]
  cases hview : view x with
  | nan => exact Or.inl rfl
  | infinite negative =>
    cases negative with
    | false => exact Or.inr (Or.inl rfl)
    | true => exact Or.inr (Or.inr rfl)
  | zero negative =>
    rw [hview] at hx
    exact absurd trivial hx
  | finite negative mantissa exponent narrow =>
    rw [hview] at hx
    exact absurd trivial hx

/-- The names of numbers are no numerals. -/
theorem isFinite_of_matches_display {x : Float} (h : Matches Lexeme.numeral (display x).toList) :
    IsFinite x := by
  refine Classical.byContradiction fun hx => ?_
  rw [← accepts_iff] at h
  rcases display_of_not_isFinite hx with hname | hname | hname <;>
    · rw [hname] at h
      revert h
      decide

/-- A number whose text is a numeral and is read as that number. -/
structure IsNumber (x : Float) : Prop where
  accepted : Matches Lexeme.numeral (display x).toList
  reads : read? (display x) = some x

theorem IsNumber.finite {x : Float} (h : IsNumber x) : IsFinite x :=
  isFinite_of_matches_display h.accepted

end CartoStyle.Decimal
