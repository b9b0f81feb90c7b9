import CartoStyle.Expression.Condition
import CartoStyle.Expression.Written
import CartoStyle.Proofs.Expression.Spelling

/-!
The lexemes of written conditions. Signs and keywords compete with longer signs and
with identifiers, and are read as themselves where a boundary follows them. An
identifier is not read as a keyword if no mixture of cases makes it one.
-/

namespace CartoStyle.Condition

open Pattern Lexeme

abbrev Spells (cs : List Char) (ts : List Token) : Prop :=
  lexicon.Spells Token.ofLexeme? cs ts

variable {cs ds : List Char} {ts us : List Token}

theorem skipsBlanks : lexicon.SkipsBlanks Token.ofLexeme? := ⟨.blanks, rfl, rfl, fun _ => rfl⟩

/-- The word in any mixture of cases. -/
theorem matches_anyCase_iff {s : String} :
    Matches (anyCase s) cs ↔ cs.map Char.toLower = s.toList.map Char.toLower := by
  have hword : ∀ word : List Char, ∀ cs, Matches (word.foldr
      (fun c p => seq (one (·.toLower == c.toLower)) p) nothing) cs ↔
        cs.map Char.toLower = word.map Char.toLower := by
    intro word
    induction word with
    | nil => simp [matches_nothing_iff]
    | cons c word ih =>
      intro cs
      rw [List.foldr_cons, matches_seq_iff]
      constructor
      · rintro ⟨xs, ys, rfl, hx, hy⟩
        obtain ⟨d, rfl, hd⟩ := matches_one_iff.mp hx
        simp [(ih ys).mp hy, eq_of_beq hd]
      · intro hcs
        cases cs with
        | nil => cases hcs
        | cons d ds =>
          simp only [List.map_cons, List.cons.injEq] at hcs
          exact ⟨[d], ds, rfl, .one (by simp [hcs.1]), (ih ds).mpr hcs.2⟩
  exact hword s.toList cs

def keywords : List String := ["and", "or", "not", "like", "ilike", "is", "null"]

def isIdentifierFirst (c : Char) : Bool := c.isAlpha || c == '_' || c == '@'

def isIdentifierChar (c : Char) : Bool :=
  c.isAlphanum || c == '_' || c == '-' || c == '.' || c == ':'

/-- The text is an identifier that no mixture of cases makes a keyword. -/
structure IsIdentifier (name : String) : Prop where
  form : ∃ c cs, name.toList = c :: cs ∧ isIdentifierFirst c = true ∧
    ∀ d ∈ cs, isIdentifierChar d = true
  not_keyword : name.toLower ∉ keywords

/-- The signs and words of comparisons are read as their operators. -/
theorem exists_spells_sign {op : Operator} (h : op.isComparison = true) :
    ∃ t, t.comparison? = some op ∧ Spells (Expression.sign op).toList [t] := by
  cases op with
  | equal => exact ⟨.equal, rfl, Lexicon.spells_of_all (k := .fixed .equal "=") []
      [.fixed .equal "=="] rfl rfl rfl rfl rfl rfl⟩
  | notEqual => exact ⟨.notEqual, rfl, Lexicon.spells_of_all (k := .fixed .notEqual "!=") []
      [] rfl rfl rfl rfl rfl rfl⟩
  | greater => exact ⟨.greater, rfl, Lexicon.spells_of_all (k := .fixed .greater ">") []
      [.fixed .greaterOrEqual ">="] rfl rfl rfl rfl rfl rfl⟩
  | greaterOrEqual =>
    exact ⟨.greaterOrEqual, rfl, Lexicon.spells_of_all (k := .fixed .greaterOrEqual ">=")
      [.fixed .greater ">"] [] rfl rfl rfl rfl rfl rfl⟩
  | less => exact ⟨.less, rfl, Lexicon.spells_of_all (k := .fixed .less "<")
      [.fixed .notEqual "<>"] [.fixed .lessOrEqual "<="] rfl rfl rfl rfl rfl rfl⟩
  | lessOrEqual =>
    exact ⟨.lessOrEqual, rfl, Lexicon.spells_of_all (k := .fixed .lessOrEqual "<=")
      [.fixed .notEqual "<>", .fixed .less "<"] [] rfl rfl rfl rfl rfl rfl⟩
  | like => exact ⟨.like, rfl, Lexicon.spells_of_all (k := .keyword .like "like") []
      [.identifier] rfl rfl rfl rfl rfl rfl⟩
  | ilike => exact ⟨.ilike, rfl, Lexicon.spells_of_all (k := .keyword .ilike "ilike") []
      [.keyword .is "is", .identifier] rfl rfl rfl rfl rfl rfl⟩
  | _ => cases h

theorem spells_and : Spells "and".toList [.and] :=
  Lexicon.spells_of_all (k := .keyword .and "and") [] [.identifier] rfl rfl rfl rfl rfl rfl

theorem spells_or : Spells "or".toList [.or] :=
  Lexicon.spells_of_all (k := .keyword .or "or") [] [.identifier] rfl rfl rfl rfl rfl rfl

theorem spells_not : Spells "not".toList [.not] :=
  Lexicon.spells_of_all (k := .keyword .not "not") [] [.keyword .null "null", .identifier]
    rfl rfl rfl rfl rfl rfl

theorem spells_is : Spells "is".toList [.is] :=
  Lexicon.spells_of_all (k := .keyword .is "is") [.keyword .ilike "ilike"] [.identifier]
    rfl rfl rfl rfl rfl rfl

theorem spells_null : Spells "null".toList [.null] :=
  Lexicon.spells_of_all (k := .keyword .null "null") [.keyword .not "not"] [.identifier]
    rfl rfl rfl rfl rfl rfl

/-- Only keywords compete with identifiers. -/
theorem competitor_of_begins {c : Char} (hc : isIdentifierFirst c = true) {j : Kind}
    (hj : j ∈ lexicon.kinds) (hbegins : j.pattern.begins c = true) :
    j = .identifier ∨ ∃ t, ∃ w ∈ keywords, j = .keyword t w := by
  have hmark : c ∉ ['(', ')', '=', '!', '>', '<', ' ', '\t', '\r', '\n', '\x0c', '-', '.', '\'',
      '"'] := Text.not_mem_of_all (by decide) hc
  have hdigit : c.isDigit = false := by
    rw [← Bool.not_eq_true]
    intro hdigit
    have hc : c = '_' ∨ c = '@' := by
      simpa [isIdentifierFirst, Text.isAlpha_of_isDigit hdigit] using hc
    rcases hc with rfl | rfl <;> cases hdigit
  simp only [List.mem_cons, not_or] at hmark
  cases j with
  | identifier => exact Or.inl rfl
  | keyword t w =>
    refine Or.inr ⟨t, w, ?_, rfl⟩
    simp only [lexicon, List.mem_cons, Kind.keyword.injEq, reduceCtorEq, false_or, or_false,
      List.not_mem_nil] at hj
    rcases hj with hj | hj | hj | hj | hj | hj | hj <;>
      · rw [hj.2]
        decide
  | fixed t w =>
    simp only [lexicon, List.mem_cons, Kind.fixed.injEq, reduceCtorEq, or_false,
      List.not_mem_nil] at hj
    rcases hj with hj | hj | hj | hj | hj | hj | hj | hj | hj | hj <;>
      · rw [hj.2] at hbegins
        simp [Kind.pattern, begins, literal, acceptsEmpty, hmark] at hbegins
  | blanks => simp [Kind.pattern, Lexeme.blanks, begins, atLeastOne, acceptsEmpty, hmark] at hbegins
  | number =>
    simp [Kind.pattern, numeral, digits, begins, atLeastOne, acceptsEmpty, Pattern.optional,
      literal, hmark, hdigit] at hbegins
  | quoted =>
    simp [Kind.pattern, Lexeme.quoted, begins, acceptsEmpty, inOrder, literal, hmark] at hbegins

theorem not_matches_keyword {name w : String} (h : name.toLower ∉ keywords) (hw : w ∈ keywords) :
    ¬ Matches (anyCase w) name.toList := by
  intro hmatch
  have hlower : w.toLower = w := by
    refine Text.toLower_eq_self ?_
    have hall : keywords.all (fun w => w.toList.map Char.toLower == w.toList) = true := by decide
    exact eq_of_beq (List.all_eq_true.mp hall w hw)
  have hname : name.toLower = w.toLower := by
    rw [← String.toList_inj]
    exact String.toList_map.trans ((matches_anyCase_iff.mp hmatch).trans String.toList_map.symm)
  rw [hname, hlower] at h
  exact h hw

theorem spells_identifier {name : String} (h : IsIdentifier name) :
    Spells name.toList [.identifier name] := by
  obtain ⟨⟨c, cs, hname, hc, hcs⟩, hkeyword⟩ := h
  have hmatch : Kind.identifier.pattern.Matches (c :: cs) :=
    .cons hc (matches_many_one_iff.mpr hcs)
  have hbegins : Kind.identifier.pattern.begins c = true := begins_of_matches hmatch
  have hcand : lexicon.candidates c =
      (lexicon.kinds.dropLast.filter fun j => j.pattern.begins c) ++ .identifier :: [] := by
    have hsplit : lexicon.candidates c =
        (lexicon.kinds.dropLast ++ [Kind.identifier]).filter fun j => j.pattern.begins c := rfl
    rw [hsplit, List.filter_append]
    simp only [List.filter_cons, hbegins, if_true, List.filter_nil]
  have hcompetitor : ∀ j ∈ lexicon.candidates c,
      j = .identifier ∨ ∃ t, ∃ w ∈ keywords, j = .keyword t w := by
    intro j hj
    obtain ⟨hj, hbegins⟩ := List.mem_filter.mp hj
    exact competitor_of_begins hc hj hbegins
  have htoken : Token.ofLexeme? (.identifier, name.toList) = some (.identifier name) := by
    simp [Token.ofLexeme?]
  have hfirst : Lexeme.blanks.occurs c = false := by
    have hblank : c ∉ " \t\r\n\x0c".toList := Text.not_mem_of_all (by decide) hc
    simpa [Lexeme.blanks, occurs, atLeastOne] using hblank
  rw [hname] at htoken ⊢
  refine Lexicon.spells_of_candidates _ hcand hfirst ?_ hmatch ?_ htoken
  · intro j hj d hd
    rw [← hcand] at hj
    rcases hcompetitor j hj with rfl | ⟨t, w, hw, rfl⟩
    · rcases eq_of_isBoundary hd with rfl | rfl | rfl | rfl <;> rfl
    · have hall : keywords.all (fun w => " (),".toList.all fun d => !(anyCase w).occurs d) = true :=
        rfl
      have hd : d ∈ " (),".toList := by simpa [isBoundary] using hd
      show (anyCase w).occurs d = false
      simpa using List.all_eq_true.mp (List.all_eq_true.mp hall w hw) d hd
  · intro j hj hjmatch
    have hj' : j ∈ lexicon.candidates c := by
      rw [hcand]
      exact List.mem_append_left _ hj
    rcases hcompetitor j hj' with rfl | ⟨t, w, hw, rfl⟩
    · have hlast : Kind.identifier ∈ lexicon.kinds.dropLast := (List.mem_filter.mp hj).1
      simp [lexicon] at hlast
    · rw [← hname] at hjmatch
      exact not_matches_keyword hkeyword hw hjmatch

theorem candidates_of_isDigit {c : Char} (h : c.isDigit = true) :
    lexicon.candidates c = [.number] := by
  have hmark : c ∉ ['(', ')', '=', '!', '>', '<', ' ', '\t', '\r', '\n', '\x0c', '\'', '"', '_',
      '@', 'a', 'o', 'n', 'l', 'i'] := Text.not_mem_of_all (by decide) h
  have hlower := Text.toLower_of_isDigit h
  simp only [List.mem_cons, not_or] at hmark
  simp [Lexicon.candidates, lexicon, Kind.pattern, begins, literal, anyCase, Lexeme.blanks, numeral,
    digits, Lexeme.quoted, Pattern.optional, atLeastOne, inOrder, acceptsEmpty, hmark, h, hlower,
    Text.isAlpha_of_isDigit h]

/-- A numeral is one token, the number that it is read as. -/
theorem spells_numeral (hmatch : Matches numeral cs) :
    Spells cs [.number (Lexeme.number cs)] := by
  have hcand : ∀ c, c.isDigit = true ∨ c = '-' ∨ c = '.' → lexicon.candidates c = [.number] := by
    rintro c (hc | rfl | rfl)
    · exact candidates_of_isDigit hc
    · rfl
    · rfl
  exact Lexicon.spells_numeral rfl hcand hmatch rfl

theorem spells_quoted {s : String} (h : IsQuotable s) :
    Spells (Text.quote s).toList [.quoted s] := by
  have hcand : ∀ q, q = '\'' ∨ q = '"' → lexicon.candidates q = [.quoted] := by
    rintro q (rfl | rfl) <;> rfl
  exact Lexicon.spells_quote rfl hcand h fun cs hcs => by simp [Token.ofLexeme?, hcs]

/-- Parentheses around a text. -/
theorem Spells.parens (h : Spells cs ts) :
    Spells ('(' :: (cs ++ [')'])) (.openParen :: (ts ++ [.closeParen])) := by
  refine ⟨⟨_, _, rfl, rfl⟩, fun rest us hrest hreads => ?_⟩
  have hclose : lexicon.Reads Token.ofLexeme? (')' :: rest) (.closeParen :: us) :=
    hreads.mark (k := Kind.fixed .closeParen ")") rfl rfl rfl
  have hinner := h.reads _ _ (bounded_cons rfl rest) hclose
  have hopen : lexicon.Reads Token.ofLexeme? ('(' :: (cs ++ ')' :: rest))
      (.openParen :: (ts ++ .closeParen :: us)) :=
    hinner.mark (k := Kind.fixed .openParen "(") rfl rfl rfl
  simpa using hopen

end CartoStyle.Condition
