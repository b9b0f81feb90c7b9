import CartoStyle.Proofs.Decimal.Numeral
import CartoStyle.Proofs.Pattern.PrefixFree
import CartoStyle.Proofs.Text.Character
import CartoStyle.Text.Quoting

/-!
Lexemes in written conditions and property values. A numeral, a word or a
hexadecimal form ends where a boundary follows it; a quoted text ends at its own
closing quote.
-/

namespace CartoStyle.Lexeme

open Pattern

variable {cs rest : List Char}

def isBoundary (c : Char) : Bool := " (),".toList.contains c

/-- Nothing follows, or a boundary does. -/
def Bounded (rest : List Char) : Prop := ∀ c, rest.head? = some c → isBoundary c = true

theorem bounded_nil : Bounded [] := nofun

theorem bounded_cons {c : Char} (h : isBoundary c = true) (cs : List Char) :
    Bounded (c :: cs) := by
  intro d hd
  cases hd
  exact h

/-- No match of a pattern without boundaries goes on into what follows. -/
theorem eq_nil_of_bounded {p : Pattern} (hp : ∀ c, isBoundary c = true → p.occurs c = false)
    (hrest : Bounded rest) {more : List Char} (hmore : more <+: rest)
    (h : Matches p (cs ++ more)) : more = [] := by
  refine eq_nil_of_occurs h fun c hc => hp c (hrest c ?_)
  obtain ⟨_, rfl⟩ := hmore
  cases more with
  | nil => cases hc
  | cons d more => exact hc

theorem eq_of_isBoundary {c : Char} (h : isBoundary c = true) :
    c = ' ' ∨ c = '(' ∨ c = ')' ∨ c = ',' := by
  simpa [isBoundary] using h

theorem occurs_numeral {c : Char} (h : isBoundary c = true) : numeral.occurs c = false := by
  rcases eq_of_isBoundary h with rfl | rfl | rfl | rfl <;> rfl

/-- Digits, signs and points make up numerals. -/
theorem eq_of_occurs_numeral {c : Char} (h : numeral.occurs c = true) :
    c.isDigit = true ∨ c = '-' ∨ c = '.' := by
  have hc : c = '-' ∨ c.isDigit = true ∨ c = '.' ∨ c.isDigit = true := by
    simpa [numeral, digits, occurs, Pattern.optional, literal, atLeastOne] using h
  rcases hc with hc | hc | hc | hc
  · exact Or.inr (Or.inl hc)
  · exact Or.inl hc
  · exact Or.inr (Or.inr hc)
  · exact Or.inl hc

/-- A numeral begins with a sign, a point or a digit. -/
theorem begins_numeral {c : Char} (h : Matches numeral (c :: cs)) :
    c.isDigit = true ∨ c = '-' ∨ c = '.' := by
  have hc := begins_of_matches h
  have hc : c = '-' ∨ c.isDigit = true ∨ c = '.' := by
    simpa [numeral, digits, begins, acceptsEmpty, Pattern.optional, literal, atLeastOne] using hc
  rcases hc with hc | hc | hc
  · exact Or.inr (Or.inl hc)
  · exact Or.inl hc
  · exact Or.inr (Or.inr hc)

/-- The value of the numeral that is written for a number. -/
theorem number_display {x : Float} (hx : Decimal.IsNumber x) :
    number (Decimal.display x).toList = x := by
  rw [number, String.ofList_toList, hx.reads]
  rfl

theorem matches_quoted {q : Char} (hq : Text.isQuote q = true) (h : q ∉ cs) :
    Matches quoted (q :: (cs ++ [q])) := by
  have hinner : Matches (many (one (· != q))) cs := by
    refine matches_many_one_iff.mpr fun c hc => bne_iff_ne.mpr ?_
    rintro rfl
    exact h hc
  have hq : q = '\'' ∨ q = '"' := by simpa [Text.isQuote] using hq
  rcases hq with rfl | rfl
  · exact .left (matches_seq_iff.mpr ⟨['\''], cs ++ ['\''], rfl, matches_literal_iff.mpr rfl,
      .seq hinner (matches_seq_iff.mpr ⟨['\''], [], rfl, matches_literal_iff.mpr rfl, .nothing⟩)⟩)
  · exact .right (matches_seq_iff.mpr ⟨['"'], cs ++ ['"'], rfl, matches_literal_iff.mpr rfl,
      .seq hinner (matches_seq_iff.mpr ⟨['"'], [], rfl, matches_literal_iff.mpr rfl, .nothing⟩)⟩)

theorem prefixFree_quoted : PrefixFree quoted := by
  have hside (s : String) (q : Char) (hs : s.toList = [q]) :
      PrefixFree (inOrder [literal s, many (one (· != q)), literal s]) := by
    refine prefixFree_seq (prefixFree_literal _) (prefixFree_many_seq (prefixFree_one _)
      (prefixFree_seq (prefixFree_literal _) prefixFree_nothing) rfl ?_ ?_)
    · simp [acceptsEmpty, literal, hs]
    · simp [begins, acceptsEmpty, literal, hs]
  refine prefixFree_alt (hside _ _ rfl) (hside _ _ rfl) rfl rfl ?_
  simp [begins, literal, acceptsEmpty, inOrder]

theorem inner_quoted (q : Char) (cs : List Char) : inner (q :: (cs ++ [q])) = cs := by
  simp [inner]

/-- A quoted text does not hold the quotes that it stands between. -/
theorem exists_of_matches_quoted (h : Matches quoted cs) :
    ∃ q ds, Text.isQuote q = true ∧ q ∉ ds ∧ cs = q :: (ds ++ [q]) := by
  have hside {q : Char} {s : String} (hs : s.toList = [q])
      (h : Matches (inOrder [literal s, many (one (· != q)), literal s]) cs) :
      ∃ ds, q ∉ ds ∧ cs = q :: (ds ++ [q]) := by
    obtain ⟨xs, ys, rfl, hx, hy⟩ := matches_seq_iff.mp h
    obtain ⟨ds, zs, rfl, hds, hz⟩ := matches_seq_iff.mp hy
    obtain ⟨us, vs, rfl, hu, hv⟩ := matches_seq_iff.mp hz
    rw [matches_literal_iff.mp hx, matches_literal_iff.mp hu, matches_nothing_iff.mp hv, hs]
    refine ⟨ds, fun hq => ?_, by simp⟩
    simpa using matches_many_one_iff.mp hds q hq
  rcases matches_alt_iff.mp h with h | h
  · obtain ⟨ds, hds, rfl⟩ := hside rfl h
    exact ⟨'\'', ds, rfl, hds, rfl⟩
  · obtain ⟨ds, hds, rfl⟩ := hside rfl h
    exact ⟨'"', ds, rfl, hds, rfl⟩

/-- At most one kind of quote stands in the text. -/
def IsQuotable (s : String) : Prop := '\'' ∉ s.toList ∨ '"' ∉ s.toList

theorem isQuotable_of_matches_quoted (h : Matches quoted cs) :
    IsQuotable (String.ofList (inner cs)) := by
  obtain ⟨q, ds, hq, hds, rfl⟩ := exists_of_matches_quoted h
  rw [inner_quoted, IsQuotable, String.toList_ofList]
  have hq : q = '\'' ∨ q = '"' := by simpa [Text.isQuote] using hq
  rcases hq with rfl | rfl
  · exact Or.inl hds
  · exact Or.inr hds

end CartoStyle.Lexeme
