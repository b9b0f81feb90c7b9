import CartoStyle.Proofs.Lexicon.Tiling
import CartoStyle.Proofs.Sheet.Annotation
import CartoStyle.Proofs.Sheet.Declaration

/-!
Tokens in front of a line feed. A match begins with a stem that does not depend on what
follows, and behind the stem it has no line feed. A tile that starts where the match starts
contains its stem, so no match goes on from a tile past a line feed behind it, and the
tokens in front of the line feed are the same whatever follows.
-/

namespace CartoStyle.Sheet.Token

open Pattern

variable {j k : Kind} {c : Char} {cs more : List Char}

theorem mem_kinds (k : Kind) : k ∈ lexicon.kinds := by
  cases k <;> decide

theorem mem_candidates (h : k.pattern.Matches (c :: cs)) : k ∈ lexicon.candidates c :=
  List.mem_filter.mpr ⟨mem_kinds k, begins_of_matches h⟩

/-- A kind that alone begins with a character is the kind of every match that does. -/
theorem eq_of_candidates (hcand : lexicon.candidates c = [j]) (h : k.pattern.Matches (c :: cs)) :
    k = j := by
  have hmem := mem_candidates h
  rw [hcand] at hmem
  exact List.mem_singleton.mp hmem

theorem matches_comment_of_title (h : Kind.title.pattern.Matches cs) :
    Kind.comment.pattern.Matches cs := by
  obtain ⟨opening, _, rfl, hopening, h⟩ := matches_seq_iff.mp h
  obtain ⟨blanks, _, rfl, hblanks, h⟩ := matches_seq_iff.mp h
  obtain ⟨word, _, rfl, hword, h⟩ := matches_seq_iff.mp h
  obtain ⟨rest, _, rfl, hrest, h⟩ := matches_seq_iff.mp h
  obtain rfl := matches_nothing_iff.mp h
  obtain rfl := matches_literal_iff.mp hword
  rw [matches_many_among_iff] at hblanks
  have hstar : ∀ c ∈ blanks ++ "@title".toList, c ≠ '*' := by
    intro c hc
    rcases List.mem_append.mp hc with hc | hc
    · have hblank := hblanks c hc
      rintro rfl
      exact absurd hblank (by decide)
    · rintro rfl
      exact absurd hc (by decide)
  refine matches_seq_iff.mpr ⟨opening, _, rfl, hopening, matches_commentRest_iff.mpr ?_⟩
  rw [List.append_nil, ← List.append_assoc, afterClosing_append_of_no_star hstar]
  exact matches_commentRest_iff.mp hrest

theorem candidates_of_begins_declaration (h : declaration.begins c = true) :
    lexicon.candidates c = [.property] := by
  have hc : c = 'f' ∨ c = 's' ∨ c = 'm' ∨ c = 'l' ∨ c = 'r' ∨ c = 'f' ∨ c = 'h' ∨ c = 's' ∨
      c = 'r' ∨ c = 'o' := by
    simpa [declaration, begins, inOrder, anyOf, families, literal, acceptsEmpty] using h
  rcases hc with rfl | rfl | rfl | rfl | rfl | rfl | rfl | rfl | rfl | rfl <;> decide

/-- A match that begins with a bracket has all of it. -/
theorem exists_bracket_of_matches (h : k.pattern.Matches ('[' :: cs)) :
    ∃ inner tail, '[' :: cs = inner ++ tail ∧ Matches bracket inner := by
  have hmem := mem_candidates h
  have hcand : lexicon.candidates '[' = [.pseudoSelector, .selector] := by decide
  rw [hcand, List.mem_cons, List.mem_singleton] at hmem
  rcases hmem with rfl | rfl
  · obtain ⟨p, hp, hpseudo⟩ := matches_anyOf_iff.mp h
    simp only [List.mem_cons, List.not_mem_nil, or_false] at hp
    rcases hp with rfl | rfl | rfl
    · exact absurd hpseudo (not_matches_of_begins rfl)
    · obtain ⟨inner, name, hsplit, hinner, -⟩ := matches_seq_iff.mp hpseudo
      exact ⟨inner, name, hsplit, hinner⟩
    · exact absurd hpseudo (not_matches_of_begins rfl)
  · rcases matches_alt_iff.mp h with hstar | hbracket
    · exact absurd hstar (not_matches_of_begins rfl)
    · exact ⟨_, [], (List.append_nil _).symm, hbracket⟩

/-- A stem of a match: the match begins with it and has no line feed behind it, and every tile at
the place of the match begins with it as well. -/
structure IsStem (stem : Pattern) (cs : List Char) : Prop where
  prefixFree : stem.PrefixFree
  begins : ∃ front back, cs = front ++ back ∧ stem.Matches front ∧ '\n' ∉ back
  tile : ∀ k : Kind, ∀ lexeme rest, cs = lexeme ++ rest → lexeme ≠ [] →
    k.pattern.Matches lexeme → ∃ front back, lexeme = front ++ back ∧ stem.Matches front

/-- Without a line feed the empty stem is enough. -/
theorem isStem_nothing (h : '\n' ∉ cs) : IsStem .nothing cs where
  prefixFree := prefixFree_nothing
  begins := ⟨[], cs, rfl, .nothing, h⟩
  tile _ lexeme _ _ _ _ := ⟨[], lexeme, rfl, .nothing⟩

/-- The whole match is a stem if every tile at its place matches the same prefix-free pattern. -/
theorem isStem_of_prefixFree {p : Pattern} (hfree : p.PrefixFree) (h : p.Matches (c :: cs))
    (htile : ∀ k : Kind, ∀ lexeme rest, c :: cs = c :: (lexeme ++ rest) →
      k.pattern.Matches (c :: lexeme) → p.Matches (c :: lexeme)) : IsStem p (c :: cs) where
  prefixFree := hfree
  begins := ⟨c :: cs, [], (List.append_nil _).symm, h, List.not_mem_nil⟩
  tile k lexeme rest hsplit hne hk := by
    cases lexeme with
    | nil => exact absurd rfl hne
    | cons d lexeme =>
      cases hsplit
      exact ⟨c :: lexeme, [], (List.append_nil _).symm, htile k lexeme rest rfl hk⟩

theorem not_mem_newline_of_occurs {p : Pattern} (hp : p.occurs '\n' = false) (h : p.Matches cs) :
    '\n' ∉ cs := by
  intro hmem
  have hoccurs := occurs_of_matches h '\n' hmem
  rw [hp] at hoccurs
  cases hoccurs

theorem isStem_bracket {inner back : List Char} (hinner : Matches bracket inner)
    (hback : '\n' ∉ back) : IsStem bracket (inner ++ back) where
  prefixFree := prefixFree_bracket
  begins := ⟨inner, back, rfl, hinner, hback⟩
  tile k lexeme rest hsplit hne hk := by
    obtain ⟨_, -, rfl⟩ := matches_bracket_iff.mp hinner
    cases lexeme with
    | nil => exact absurd rfl hne
    | cons d lexeme =>
      obtain ⟨rfl, -⟩ := List.cons.inj hsplit
      exact exists_bracket_of_matches hk

theorem isStem_directive {keyword : String} (hj : (j, keyword) ∈ directiveKinds)
    (h : Matches (directive keyword) (c :: cs)) : IsStem (directive keyword) (c :: cs) := by
  refine isStem_of_prefixFree (prefixFree_directive keyword) h fun k lexeme rest hsplit hk => ?_
  obtain rfl : c = '@' := by
    obtain ⟨word, hword⟩ := exists_keyword_eq hj
    obtain ⟨argument, -, heq⟩ := matches_directive_iff.mp h
    rw [hword] at heq
    exact (List.cons.inj heq).1
  obtain ⟨other, hother⟩ := exists_keyword_of_candidate (mem_candidates hk)
  rw [pattern_of_directive hother] at hk
  rw [hsplit, ← List.cons_append] at h
  obtain rfl := eq_of_directives hj hother h hk
  have hsame : ∀ e ∈ directiveKinds, ∀ f ∈ directiveKinds, e.1 = f.1 → e.2 = f.2 := by decide
  rw [show keyword = other from hsame _ hj _ hother rfl]
  exact hk

theorem isStem_comment (h : Kind.comment.pattern.Matches (c :: cs)) :
    IsStem Kind.comment.pattern (c :: cs) := by
  refine isStem_of_prefixFree prefixFree_comment h fun k lexeme _ _ hk => ?_
  obtain rfl : c = '/' := by
    obtain ⟨opening, _, heq, hopening, -⟩ := matches_seq_iff.mp h
    obtain rfl := matches_literal_iff.mp hopening
    cases heq
    rfl
  have hmem := mem_candidates hk
  have hcand : lexicon.candidates '/' = [.title, .comment] := by decide
  rw [hcand, List.mem_cons, List.mem_singleton] at hmem
  rcases hmem with rfl | rfl
  · exact matches_comment_of_title hk
  · exact hk

/-- Every match has a stem. -/
theorem exists_isStem (h : j.pattern.Matches (c :: cs)) : ∃ stem, IsStem stem (c :: cs) := by
  have hlineless (hj : j.pattern.occurs '\n' = false) : ∃ stem, IsStem stem (c :: cs) :=
    ⟨.nothing, isStem_nothing (not_mem_newline_of_occurs hj h)⟩
  cases j with
  | openBrace | comma | whitespace | closeBrace => exact hlineless (by decide)
  | mode => exact ⟨_, isStem_directive (j := .mode) (by decide) h⟩
  | styleTitle => exact ⟨_, isStem_directive (j := .styleTitle) (by decide) h⟩
  | styleAbstract => exact ⟨_, isStem_directive (j := .styleAbstract) (by decide) h⟩
  | title => exact ⟨_, isStem_comment (matches_comment_of_title h)⟩
  | comment => exact ⟨_, isStem_comment h⟩
  | newline =>
    have hcand : lexicon.candidates c = [.newline] := by
      rcases matches_newline_iff.mp h with h | h <;>
        · cases h
          decide
    refine ⟨_, isStem_of_prefixFree prefixFree_newline h fun k lexeme _ _ hk => ?_⟩
    rwa [eq_of_candidates hcand hk] at hk
  | property =>
    have hcand := candidates_of_begins_declaration (begins_of_matches h)
    refine ⟨_, isStem_of_prefixFree prefixFree_declaration h fun k lexeme _ _ hk => ?_⟩
    rwa [eq_of_candidates hcand hk] at hk
  | selector =>
    rcases matches_alt_iff.mp h with hstar | hbracket
    · exact ⟨_, isStem_nothing (not_mem_newline_of_occurs (by decide) hstar)⟩
    · rw [← List.append_nil (c :: cs)]
      exact ⟨_, isStem_bracket hbracket List.not_mem_nil⟩
  | pseudoSelector =>
    obtain ⟨p, hp, hpseudo⟩ := matches_anyOf_iff.mp h
    simp only [List.mem_cons, List.not_mem_nil, or_false] at hp
    rcases hp with rfl | rfl | rfl
    · exact ⟨_, isStem_nothing (not_mem_newline_of_occurs (by decide) hpseudo)⟩
    · obtain ⟨inner, name, hsplit, hinner, hname⟩ := matches_seq_iff.mp hpseudo
      rw [hsplit]
      exact ⟨_, isStem_bracket hinner (not_mem_newline_of_occurs (by decide) hname)⟩
    · exact ⟨_, isStem_nothing (not_mem_newline_of_occurs (by decide) hpseudo)⟩

/-- No match goes on from a tile past a line feed behind it. -/
theorem not_matches_past_newline {lexeme between : List Char} (hne : lexeme ≠ [])
    (hk : k.pattern.Matches lexeme) :
    ¬ j.pattern.Matches (lexeme ++ (between ++ '\n' :: more)) := by
  intro hj
  obtain ⟨stem, hstem⟩ : ∃ stem, IsStem stem (lexeme ++ (between ++ '\n' :: more)) := by
    cases lexeme with
    | nil => exact absurd rfl hne
    | cons c lexeme => exact exists_isStem hj
  obtain ⟨front, back, hsplit, hfront, hback⟩ := hstem.begins
  obtain ⟨inner, tail, rfl, hinner⟩ := hstem.tile k lexeme _ rfl hne hk
  rw [List.append_assoc] at hsplit
  obtain ⟨-, rfl⟩ := hstem.prefixFree.unique hsplit hinner hfront
  exact hback (by simp)

theorem separates_newline (rest : List Char) : lexicon.Separates ('\n' :: rest) := by
  intro j _ k _ lexeme between more hne hmore hpre hk
  cases more with
  | nil => exact absurd rfl hmore
  | cons d more =>
    obtain ⟨rfl, -⟩ := List.cons_prefix_cons.mp hpre
    exact not_matches_past_newline hne hk

/-- The tiling of a text that is tiled completely goes on behind a line feed with the tiling of
what follows. -/
theorem tiling_append_newline {xs ys left : List Char} {tiles tiles' : List (Kind × List Char)}
    (hxs : lexicon.Tiling xs tiles []) (hys : lexicon.Tiling ys tiles' left) :
    lexicon.Tiling (xs ++ '\n' :: ys) (tiles ++ (.newline, ['\n']) :: tiles') left := by
  refine hxs.append ?_ (separates_newline ys)
  have htiling := lexicon.tiling_tiles ('\n' :: ys)
  rwa [tiles_newline, hys.tiles_eq] at htiling

end CartoStyle.Sheet.Token
