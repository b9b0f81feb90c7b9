import CartoStyle.Proofs.Sheet.Lexeme
import CartoStyle.Proofs.Text.Trimming
import CartoStyle.Sheet.Outline

/-!
The texts in directives and in title comments come back from their tokens, as
long as nothing at their ends is taken for blanks or quotes around them.
-/

namespace CartoStyle

open Pattern

/-- A quoted text stands between two quotes of one kind. -/
theorem Text.exists_quote_around (s : String) :
    ∃ q : Char, isQuote q = true ∧ (quote s).toList = q :: (s.toList ++ [q]) := by
  unfold quote
  split
  · exact ⟨'"', rfl, by simp⟩
  · exact ⟨'\'', rfl, by simp⟩

namespace Sheet

/-- The text is kept by the directive that it is written into. -/
structure IsDirectiveText (text : String) : Prop where
  no_semicolon : ';' ∉ text.toList
  free_ends : Text.FreeEnds Text.isQuote text.toList

/-- The text without the quotes at its ends, as it is read from the directive that it is written
into. -/
def unquoted (text : String) : String := String.ofList (Text.dropEnds Text.isQuote text.toList)

theorem IsDirectiveText.unquoted_eq {text : String} (h : IsDirectiveText text) :
    unquoted text = text := by
  rw [unquoted, h.free_ends.dropEnds_eq, String.ofList_toList]

theorem directiveText_quote (keyword text : String) : Token.directiveText keyword
    (keyword.toList ++ ((' ' :: (Text.quote text).toList) ++ [';'])) = unquoted text := by
  obtain ⟨q, hq, hquote⟩ := Text.exists_quote_around text
  have htrim : Text.dropEnds Text.isBlank (' ' :: (q :: (text.toList ++ [q]))) =
      q :: (text.toList ++ [q]) := (Text.freeEnds_quoted hq text.toList).dropEnds_space
  have hunquote : Text.dropEnds Text.isQuote (q :: (text.toList ++ [q])) =
      Text.dropEnds Text.isQuote text.toList :=
    Text.dropEnds_around [q] [q] (by simpa using hq) (by simpa using hq)
  rw [Token.directiveText, ← String.length_toList, List.drop_left,
    List.dropLast_concat, hquote, htrim, hunquote, unquoted]

/-- The line of a directive, which is empty without a text. -/
theorem Lexes.directiveLine {rest : List Char} {ts : List Token} {k : Token.Kind}
    {keyword : String} (hk : (k, keyword) ∈ Token.directiveKinds) {make : String → Token}
    (hmake : ∀ cs, Token.ofTile k cs = make (Token.directiveText keyword cs))
    {text : Option String} (htext : ∀ t ∈ text, ';' ∉ t.toList) (h : Lexes rest ts) :
    Lexes ((Outline.directive keyword text).toList ++ rest)
      ((text.map unquoted).toList.map make ++ ts) := by
  cases text with
  | none => exact h
  | some text =>
    have hsemicolon : ';' ∉ ' ' :: (Text.quote text).toList := by
      obtain ⟨q, hq, hquote⟩ := Text.exists_quote_around text
      have hne : ';' ≠ q := by
        rintro rfl
        cases hq
      simp [hquote, hne, htext text rfl]
    have hline := h.newline.directive hk hsemicolon
    rw [hmake, directiveText_quote] at hline
    simpa [Outline.directive] using hline

/-- The text is kept by the title comment that it is written into. -/
structure IsTitleText (text : String) : Prop where
  no_closing : ¬ ['*', '/'] <:+: text.toList
  trimmed : Text.FreeEnds Text.isBlank text.toList
  free_ends : Text.FreeEnds Text.isQuote text.toList

/-- A title without stars keeps its form if its ends do. -/
theorem isTitleText_of_checks {t : String} (hclosing : '*' ∉ t.toList)
    (hblanks : t.toList.head?.all (!Text.isBlank ·) = true ∧
      t.toList.getLast?.all (!Text.isBlank ·) = true)
    (hquotes : t.toList.head?.all (!Text.isQuote ·) = true ∧
      t.toList.getLast?.all (!Text.isQuote ·) = true) : IsTitleText t :=
  ⟨fun h => hclosing (h.subset List.mem_cons_self), .of_all hblanks.1 hblanks.2,
    .of_all hquotes.1 hquotes.2⟩

namespace Token

theorem prefixFree_title : PrefixFree Kind.title.pattern := by
  refine prefixFree_seq (prefixFree_literal _) (prefixFree_many_seq (prefixFree_one _)
    (prefixFree_seq (prefixFree_literal _) (prefixFree_seq prefixFree_commentRest
      prefixFree_nothing)) rfl rfl ?_)
  simp [begins, literal, acceptsEmpty, among]

theorem prefixFree_comment : PrefixFree Kind.comment.pattern :=
  prefixFree_seq (prefixFree_literal _) prefixFree_commentRest

theorem titleText_eq {text : String} (h : IsTitleText text) :
    titleText ("/* @title ".toList ++ (text.toList ++ " */".toList)) = text := by
  have hinner : (("/* @title ".toList ++ (text.toList ++ " */".toList)).drop 2).dropLast.dropLast =
      " @title ".toList ++ (text.toList ++ [' ']) := by
    have hcat : ("/* @title ".toList ++ (text.toList ++ " */".toList)).drop 2 =
        ((" @title ".toList ++ (text.toList ++ [' '])) ++ ['*']) ++ ['/'] := by simp
    rw [hcat, List.dropLast_concat, List.dropLast_concat]
  -- Without a text the blank after the keyword is trimmed away as well.
  obtain ⟨argument, htrim, hleading, hargument⟩ : ∃ argument,
      Text.dropEnds Text.isBlank (" @title ".toList ++ (text.toList ++ [' '])) =
        "@title".toList ++ argument ∧
      Text.dropLeading "@title".toList argument = argument ∧
      Text.dropEnds Text.isBlank argument = text.toList := by
    cases htext : text.toList with
    | nil => exact ⟨[], by decide, Text.dropLeading_of_not_prefix rfl, rfl⟩
    | cons c cs =>
      have hends := h.trimmed
      rw [htext] at hends
      refine ⟨' ' :: c :: cs, ?_, Text.dropLeading_of_not_prefix rfl, ?_⟩
      · have hfree : Text.FreeEnds Text.isBlank ("@title ".toList ++ (c :: cs)) := by
          refine ⟨?_, ?_⟩
          · intro d hd
            obtain rfl : '@' = d := by simpa using hd
            rfl
          · intro d hd
            refine hends.last d ?_
            simpa [List.getLast?_append, List.getLast?_cons] using hd
        have hblank : ∀ c ∈ [' '], Text.isBlank c = true := List.forall_mem_singleton.mpr rfl
        have htrim := hfree.dropEnds_around [' '] [' '] hblank hblank
        simpa using htrim
      · exact hends.dropEnds_space
  have hdrop : Text.dropLeading "@title".toList ("@title".toList ++ argument) = argument := by
    rw [Text.dropLeading, if_pos ⟨by decide, by simp⟩, List.drop_left, hleading]
  simp only [titleText, hinner, htrim, hdrop, hargument, h.free_ends.dropEnds_eq,
    h.trimmed.dropEnds_eq, String.ofList_toList]

theorem matches_title {cs : List Char} (hopen : ¬ ['*', '/'] <:+: cs) :
    Matches Kind.title.pattern ("/* @title ".toList ++ (cs ++ " */".toList)) ∧
      Matches Kind.comment.pattern ("/* @title ".toList ++ (cs ++ " */".toList)) := by
  have hclosing : afterClosing false (cs ++ " */".toList) = some [] :=
    afterClosing_of_open false hopen _
  constructor
  · have hrest : Matches commentRest (' ' :: (cs ++ " */".toList)) :=
      matches_commentRest_iff.mpr hclosing
    have hparts : Matches Kind.title.pattern ("/*".toList ++ ([' '] ++ ("@title".toList ++
        ((' ' :: (cs ++ " */".toList)) ++ [])))) :=
      .seq (matches_literal_iff.mpr rfl) (.seq (matches_many_among_iff.mpr (by simp))
        (.seq (matches_literal_iff.mpr rfl) (.seq hrest .nothing)))
    simpa using hparts
  · have hrest : Matches commentRest (" @title ".toList ++ (cs ++ " */".toList)) :=
      matches_commentRest_iff.mpr hclosing
    exact matches_seq_iff.mpr ⟨"/*".toList, _, by simp, matches_literal_iff.mpr rfl, hrest⟩

end Token

/-- A title comment ends at its closing. -/
theorem Lexes.title {rest : List Char} {ts : List Token} {text : String} (htext : IsTitleText text)
    (h : Lexes rest ts) :
    Lexes ("/* @title ".toList ++ (text.toList ++ (" */".toList ++ rest))) (.title text :: ts) := by
  obtain ⟨htitle, hcomment⟩ := Token.matches_title htext.no_closing
  have htoken := h.token (k := .title)
    ("/* @title ".toList ++ (text.toList ++ " */".toList)) ?_ rfl
  · rw [Token.ofTile, Token.titleText_eq htext] at htoken
    simpa using htoken
  · have hcand : Token.lexicon.candidates '/' = [.title, .comment] := by decide
    refine Lexicon.tiles_of_candidates [] hcand htitle ?_ (by simp)
    intro j hj more _ hlonger
    have hj : j = .title ∨ j = .comment := by simpa using hj
    rcases hj with rfl | rfl
    · exact Token.prefixFree_title _ _ htitle hlonger
    · exact Token.prefixFree_comment _ _ hcomment hlonger

end Sheet

end CartoStyle
