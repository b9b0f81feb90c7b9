import CartoStyle.Expression.PropertyValue
import CartoStyle.Proofs.Expression.Spelling
import CartoStyle.Proofs.Text.Trimming

/-!
The lexemes of written property values. Each is read into its token if a boundary
follows it, and texts of several lexemes keep boundaries between them.
-/

namespace CartoStyle.PropertyValue

open Pattern Lexeme

abbrev Spells (cs : List Char) (ts : List Token) : Prop :=
  lexicon.Spells Token.ofLexeme? cs ts

variable {cs ds : List Char} {ts us : List Token}

theorem skipsBlanks : lexicon.SkipsBlanks Token.ofLexeme? :=
  ⟨.blanks, by decide, rfl, fun _ => rfl⟩

theorem candidates_of_begins {k : Kind} {c : Char}
    (h : ∀ j : Kind, j.pattern.begins c = decide (j = k)) : lexicon.candidates c = [k] := by
  have hfilter : lexicon.candidates c = lexicon.kinds.filter fun j => decide (j = k) :=
    List.filter_congr fun j _ => h j
  rw [hfilter]
  cases k <;> rfl

/-- The characters with which lexemes other than numerals and words begin. -/
def marks : List Char := ['(', ')', ',', '#', ' ', '\t', '\r', '\n', '\x0c', '\'', '"', '[']

theorem candidates_of_isDigit {c : Char} (h : c.isDigit = true) :
    lexicon.candidates c = [.number] := by
  have halpha := Text.isAlpha_of_isDigit h
  have hmark : c ∉ '_' :: '@' :: marks := Text.not_mem_of_all (by decide) h
  simp only [marks, List.mem_cons, not_or] at hmark
  refine candidates_of_begins fun j => ?_
  cases j <;> simp [Kind.pattern, begins, literal, acceptsEmpty, Lexeme.blanks, Lexeme.numeral,
    digits, quoted, Pattern.optional, atLeastOne, inOrder, hmark, h, halpha]

/-- A digit, a sign and a point begin numerals alone. -/
theorem candidates_of_numeral {c : Char} (h : c.isDigit = true ∨ c = '-' ∨ c = '.') :
    lexicon.candidates c = [.number] := by
  rcases h with h | rfl | rfl
  · exact candidates_of_isDigit h
  · decide
  · decide

/-- The first character of a lexeme of another kind is no blank. -/
theorem occurs_blanks_of_candidates {k : Kind} {c : Char} (hcand : lexicon.candidates c = [k])
    (hk : k ≠ .blanks) : Lexeme.blanks.occurs c = false := by
  rw [← Bool.not_eq_true]
  intro hblank
  have hmem : Kind.blanks ∈ lexicon.candidates c := by
    refine List.mem_filter.mpr ⟨by decide, ?_⟩
    simpa [lexicon, Kind.pattern, Lexeme.blanks, begins, occurs, atLeastOne, acceptsEmpty]
      using hblank
  rw [hcand] at hmem
  exact hk (List.mem_singleton.mp hmem).symm

def IsHex (colour : String) : Prop :=
  ∃ ds, colour.toList = '#' :: ds ∧ ds ≠ [] ∧ ∀ c ∈ ds, isHexDigit c = true

theorem spells_hex {colour : String} (h : IsHex colour) :
    Spells colour.toList [.hex colour] := by
  obtain ⟨ds, hcolour, hne, hds⟩ := h
  have hmatch : Kind.hex.pattern.Matches colour.toList := by
    rw [hcolour]
    exact matches_seq_iff.mpr ⟨['#'], ds, rfl, matches_literal_iff.mpr rfl,
      matches_atLeastOne_one_iff.mpr ⟨hne, hds⟩⟩
  have hboundary : ∀ d, isBoundary d = true → Kind.hex.pattern.occurs d = false := by
    intro d hd
    rcases eq_of_isBoundary hd with rfl | rfl | rfl | rfl <;> rfl
  have htoken : Token.ofLexeme? (.hex, colour.toList) = some (.hex colour) := by
    simp [Token.ofLexeme?]
  rw [hcolour] at hmatch htoken ⊢
  exact Lexicon.spells_unquoted (l := lexicon) (k := .hex) (by decide) rfl hboundary hmatch htoken

/-- A numeral is one token, the number that it is read as. -/
theorem spells_numeral (hmatch : Matches numeral cs) : Spells cs [.number (Lexeme.number cs)] :=
  Lexicon.spells_numeral (l := lexicon) (k := .number) rfl (fun _ hc => candidates_of_numeral hc)
    hmatch rfl

theorem spells_number {x : Float} (hx : Decimal.IsNumber x) :
    Spells (Decimal.display x).toList [.number x] := by
  have hnumeral := spells_numeral hx.accepted
  rwa [number_display hx] at hnumeral

theorem spells_quoted {s : String} (h : IsQuotable s) :
    Spells (Text.quote s).toList [.quoted s] := by
  have hcand : ∀ q, q = '\'' ∨ q = '"' → lexicon.candidates q = [.quoted] := by
    rintro q (rfl | rfl) <;> decide
  exact Lexicon.spells_quote rfl hcand h fun cs hcs => by simp [Token.ofLexeme?, hcs]

structure IsBraceName (name : String) : Prop where
  no_bracket : ']' ∉ name.toList
  trimmed : Text.FreeEnds Text.isBlank name.toList

theorem spells_brace {name : String} (h : IsBraceName name) :
    Spells ('[' :: (name.toList ++ [']'])) [.brace name] := by
  have hmatch : Kind.brace.pattern.Matches ('[' :: (name.toList ++ [']'])) := by
    have hmany : Matches (many (one (· != ']'))) name.toList := by
      refine matches_many_one_iff.mpr fun c hc => bne_iff_ne.mpr ?_
      rintro rfl
      exact h.no_bracket hc
    exact matches_seq_iff.mpr ⟨['['], name.toList ++ [']'], rfl, matches_literal_iff.mpr rfl,
      .seq hmany (matches_seq_iff.mpr ⟨[']'], [], rfl, matches_literal_iff.mpr rfl, .nothing⟩)⟩
  have hfree : Kind.brace.pattern.PrefixFree := by
    refine prefixFree_seq (prefixFree_literal _) (prefixFree_many_seq (prefixFree_one _)
      (prefixFree_seq (prefixFree_literal _) prefixFree_nothing) rfl rfl ?_)
    simp [begins, literal, acceptsEmpty]
  have htoken : Token.ofLexeme? (.brace, '[' :: (name.toList ++ [']'])) = some (.brace name) := by
    simp [Token.ofLexeme?, Lexeme.inner, h.trimmed.dropEnds_eq]
  exact Lexicon.spells_enclosed (l := lexicon) (k := .brace) (by decide) rfl hfree hmatch htoken

def isWordFirst (c : Char) : Bool := c.isAlpha || c == '_' || c == '@'

def isWordChar (c : Char) : Bool :=
  c.isAlphanum || c == '_' || c == '-' || c == '.' || c == ':' || c == '/'

def IsWord (w : String) : Prop :=
  ∃ c cs, w.toList = c :: cs ∧ isWordFirst c = true ∧ ∀ d ∈ cs, isWordChar d = true

theorem candidates_of_isWordFirst {c : Char} (h : isWordFirst c = true) :
    lexicon.candidates c = [.word] := by
  have hdigit : c.isDigit = false := by
    rw [← Bool.not_eq_true]
    intro hdigit
    have hc : c = '_' ∨ c = '@' := by simpa [isWordFirst, Text.isAlpha_of_isDigit hdigit] using h
    rcases hc with rfl | rfl <;> cases hdigit
  have hmark : c ∉ '-' :: '.' :: marks := Text.not_mem_of_all (by decide) h
  simp only [marks, List.mem_cons, not_or] at hmark
  rw [isWordFirst] at h
  refine candidates_of_begins fun j => ?_
  cases j <;> simp [Kind.pattern, begins, literal, acceptsEmpty, Lexeme.blanks, Lexeme.numeral,
    digits, quoted, Pattern.optional, atLeastOne, inOrder, hmark, h, hdigit]

theorem spells_word {w : String} (h : IsWord w) : Spells w.toList [.word w] := by
  obtain ⟨c, cs, hw, hc, hcs⟩ := h
  have hmatch : Kind.word.pattern.Matches (c :: cs) := .cons hc (matches_many_one_iff.mpr hcs)
  have hboundary : ∀ d, isBoundary d = true → Kind.word.pattern.occurs d = false := by
    intro d hd
    rcases eq_of_isBoundary hd with rfl | rfl | rfl | rfl <;> rfl
  have htoken : Token.ofLexeme? (.word, w.toList) = some (.word w) := by
    simp [Token.ofLexeme?]
  rw [hw] at htoken ⊢
  have hcand := candidates_of_isWordFirst hc
  exact Lexicon.spells_unquoted hcand (occurs_blanks_of_candidates hcand (by decide)) hboundary
    hmatch htoken

section Sequences

theorem reads_openParen (h : lexicon.Reads Token.ofLexeme? cs us) :
    lexicon.Reads Token.ofLexeme? ('(' :: cs) (.openParen :: us) :=
  h.mark (k := .openParen) (by decide) rfl rfl

theorem reads_closeParen (h : lexicon.Reads Token.ofLexeme? cs us) :
    lexicon.Reads Token.ofLexeme? (')' :: cs) (.closeParen :: us) :=
  h.mark (k := .closeParen) (by decide) rfl rfl

theorem reads_comma (h : lexicon.Reads Token.ofLexeme? cs us) :
    lexicon.Reads Token.ofLexeme? (',' :: cs) (.comma :: us) :=
  h.mark (k := .comma) (by decide) rfl rfl

/-- Two texts with a comma between them. -/
theorem Spells.append_comma (h : Spells cs ts) (hnext : Spells ds us) :
    Spells (cs ++ ',' :: ' ' :: ds) (ts ++ .comma :: us) := by
  obtain ⟨c, more, rfl, hc⟩ := h.first
  refine ⟨⟨c, _, List.cons_append, hc⟩, fun rest vs hrest hreads => ?_⟩
  have htail := reads_comma ((hnext.reads rest vs hrest hreads).space skipsBlanks hnext.head)
  simpa using h.reads _ _ (bounded_cons rfl _) htail

/-- A word in front of a text in parentheses. -/
theorem Spells.call {w : String} (hw : IsWord w) (h : Spells cs ts) :
    Spells (w.toList ++ '(' :: (cs ++ [')'])) (.word w :: .openParen :: (ts ++ [.closeParen])) := by
  have hword := spells_word hw
  obtain ⟨c, more, hcons, hc⟩ := hword.first
  refine ⟨⟨c, _, by rw [hcons, List.cons_append], hc⟩, fun rest us hrest hreads => ?_⟩
  have htail := reads_openParen (h.reads _ _ (bounded_cons rfl rest) (reads_closeParen hreads))
  simpa using hword.reads _ _ (bounded_cons rfl _) htail

/-- A word in front of empty parentheses. -/
theorem spells_bareCall {w : String} (hw : IsWord w) :
    Spells (w.toList ++ ['(', ')']) [.word w, .openParen, .closeParen] := by
  have hword := spells_word hw
  obtain ⟨c, more, hcons, hc⟩ := hword.first
  refine ⟨⟨c, _, by rw [hcons, List.cons_append], hc⟩, fun rest us hrest hreads => ?_⟩
  simpa using hword.reads _ _ (bounded_cons rfl _) (reads_openParen (reads_closeParen hreads))

end Sequences

end CartoStyle.PropertyValue
