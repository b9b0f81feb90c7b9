import CartoStyle.Proofs.Lexicon
import CartoStyle.Proofs.Sheet.Comment

/-!
Reading the tokens of a stylesheet one after the other. A text of some kind is
the next tile whatever follows it, apart from a few neighbours that would make
the tile longer: blanks after blanks, a semicolon after a closing brace, a colon
after a selector, and more of a name after a pseudo-selector.
-/

namespace CartoStyle.Sheet

open Pattern

/-- The text is tiled completely, and its tokens apart from trivia are these. -/
def Lexes (cs : List Char) (ts : List Token) : Prop :=
  ∃ tiles, Token.lexicon.tiles cs = (tiles, []) ∧
    (tiles.map fun tile => Token.ofTile tile.1 tile.2).filter (!·.isTrivia) = ts

theorem lexes_nil : Lexes [] [] := ⟨[], by rw [Lexicon.tiles], rfl⟩

variable {cs rest : List Char} {ts : List Token}

/-- A tile in front of a text, which is trivia or a token. -/
theorem Lexes.tile (cs : List Char) {k : Token.Kind} (hrest : Lexes rest ts)
    (htile : Token.lexicon.tiles (cs ++ rest) =
      ((k, cs) :: (Token.lexicon.tiles rest).1, (Token.lexicon.tiles rest).2)) :
    Lexes (cs ++ rest)
      (if (Token.ofTile k cs).isTrivia then ts else Token.ofTile k cs :: ts) := by
  obtain ⟨tiles, htiles, rfl⟩ := hrest
  refine ⟨(k, cs) :: tiles, by rw [htile, htiles], ?_⟩
  rw [List.map_cons, List.filter_cons]
  cases (Token.ofTile k cs).isTrivia <;> rfl

theorem Lexes.token (cs : List Char) {k : Token.Kind} (hrest : Lexes rest ts)
    (htile : Token.lexicon.tiles (cs ++ rest) =
      ((k, cs) :: (Token.lexicon.tiles rest).1, (Token.lexicon.tiles rest).2))
    (htoken : (Token.ofTile k cs).isTrivia = false) :
    Lexes (cs ++ rest) (Token.ofTile k cs :: ts) := by
  simpa [htoken] using hrest.tile cs htile

theorem Lexes.trivia (cs : List Char) {k : Token.Kind} (hrest : Lexes rest ts)
    (htile : Token.lexicon.tiles (cs ++ rest) =
      ((k, cs) :: (Token.lexicon.tiles rest).1, (Token.lexicon.tiles rest).2))
    (htoken : (Token.ofTile k cs).isTrivia = true) : Lexes (cs ++ rest) ts := by
  simpa [htoken] using hrest.tile cs htile

theorem map_token_locate (tiles : List (Token.Kind × List Char)) (start : Nat) :
    (locate start tiles).map (·.token) = tiles.map fun tile => Token.ofTile tile.1 tile.2 := by
  induction tiles generalizing start with
  | nil => rfl
  | cons tile tiles ih => rw [locate, List.map_cons, List.map_cons, ih]

/-- The tokens of a text that is tiled completely. -/
theorem Lexes.lex_eq_ok {source : String} (h : Lexes source.toList ts) :
    ∃ located, lex source = .ok located ∧ located.map (·.token) = ts ∧
      ∀ t ∈ located, t.token.isTrivia = false := by
  obtain ⟨tiles, htiles, rfl⟩ := h
  have htokenize : tokenize source = .ok (locate 0 tiles) := by
    rw [tokenize, htiles]
    rfl
  refine ⟨_, lex_eq_ok_iff.mpr ⟨_, htokenize, rfl⟩, ?_, ?_⟩
  · rw [← map_token_locate tiles 0, List.filter_map]
    rfl
  · intro t ht
    simpa using (List.mem_filter.mp ht).2

namespace Token

/-- A kind that alone begins with a character and is prefix-free is the next tile whatever
follows. -/
theorem tiles_of_prefixFree {k : Kind} {c : Char} (cs : List Char)
    (hcand : lexicon.candidates c = [k])
    (hfree : k.pattern.PrefixFree) (hmatch : k.pattern.Matches (c :: cs)) (rest : List Char) :
    lexicon.tiles (c :: (cs ++ rest)) =
      ((k, c :: cs) :: (lexicon.tiles rest).1, (lexicon.tiles rest).2) := by
  refine Lexicon.tiles_of_candidates [] hcand hmatch ?_ (by simp)
  intro j hj more hmore hlonger
  obtain rfl : j = k := by simpa using hj
  exact hfree _ _ hmatch hlonger

end Token

theorem Lexes.openBrace (h : Lexes rest ts) : Lexes ('\x7b' :: rest) (.openBrace :: ts) := by
  have htile := Token.tiles_of_prefixFree (k := .openBrace) (c := '\x7b') [] (by decide)
    (prefixFree_literal _) (matches_literal_iff.mpr rfl) rest
  exact h.token ['\x7b'] htile rfl

theorem Lexes.comma (h : Lexes rest ts) : Lexes (',' :: rest) (.comma :: ts) := by
  have htile := Token.tiles_of_prefixFree (k := .comma) (c := ',') [] (by decide)
    (prefixFree_literal _) (matches_literal_iff.mpr rfl) rest
  exact h.token [','] htile rfl

theorem Token.matches_newline_iff :
    Token.Kind.newline.pattern.Matches cs ↔ cs = ['\r', '\n'] ∨ cs = ['\n'] := by
  constructor
  · intro h
    obtain ⟨cr, lf, rfl, hcr, hlf⟩ := matches_seq_iff.mp h
    obtain rfl := matches_literal_iff.mp hlf
    rcases matches_alt_iff.mp hcr with hcr | hcr
    · obtain ⟨c, rfl, hc⟩ := matches_one_iff.mp hcr
      obtain rfl : c = '\r' := by simpa using hc
      exact Or.inl rfl
    · obtain rfl := matches_nothing_iff.mp hcr
      exact Or.inr rfl
  · have hlf : Matches (literal "\n") ['\n'] := matches_literal_iff.mpr rfl
    rintro (rfl | rfl)
    · exact matches_seq_iff.mpr ⟨['\r'], ['\n'], rfl, .left (.one rfl), hlf⟩
    · exact matches_seq_iff.mpr ⟨[], ['\n'], rfl, .right .nothing, hlf⟩

theorem Token.prefixFree_newline : PrefixFree Token.Kind.newline.pattern := by
  intro xs ys hx hy
  rw [matches_newline_iff] at hx hy
  rcases hx with rfl | rfl <;> rcases hy with hy | hy <;> simp_all

theorem Token.tiles_newline (rest : List Char) : Token.lexicon.tiles ('\n' :: rest) =
    ((.newline, ['\n']) :: (Token.lexicon.tiles rest).1, (Token.lexicon.tiles rest).2) :=
  tiles_of_prefixFree (k := .newline) [] (by decide) prefixFree_newline
    (matches_newline_iff.mpr (Or.inr rfl)) rest

theorem Lexes.newline (h : Lexes rest ts) : Lexes ('\n' :: rest) ts :=
  h.trivia ['\n'] (Token.tiles_newline rest) rfl

/-- A run of blanks that no further blank follows. -/
theorem Lexes.blanks (h : Lexes rest ts) (cs : List Char)
    (hcs : ∀ c ∈ cs, c ∈ " \t\x0c".toList)
    (hhead : ∀ c, rest.head? = some c → c ∉ " \t\x0c".toList) : Lexes (cs ++ rest) ts := by
  cases cs with
  | nil => exact h
  | cons c cs =>
    have hmatch : Token.Kind.whitespace.pattern.Matches (c :: cs) :=
      Token.matches_atLeastOne_among_iff.mpr ⟨nofun, hcs⟩
    have hcand : Token.lexicon.candidates c = [.whitespace] := by
      have hc : c = ' ' ∨ c = '\t' ∨ c = '\x0c' := by simpa using hcs c List.mem_cons_self
      rcases hc with rfl | rfl | rfl <;> decide
    refine h.trivia (k := .whitespace) (c :: cs) ?_ rfl
    refine Lexicon.tiles_of_candidates [] hcand hmatch ?_ (by simp)
    intro j hj more hmore hlonger
    obtain rfl : j = .whitespace := by simpa using hj
    obtain ⟨-, hall⟩ := Token.matches_atLeastOne_among_iff.mp hlonger
    cases more with
    | nil => rfl
    | cons d more =>
      obtain ⟨_, rfl⟩ := hmore
      exact absurd (hall d (by simp)) (hhead d rfl)

/-- A closing brace that no semicolon follows. -/
theorem Lexes.closeBrace (h : Lexes rest ts) (hhead : rest.head? ≠ some ';') :
    Lexes ('\x7d' :: rest) (.closeBrace :: ts) := by
  have hmatch : Token.Kind.closeBrace.pattern.Matches ['\x7d'] :=
    matches_seq_iff.mpr ⟨['\x7d'], [], rfl, matches_literal_iff.mpr rfl, .done⟩
  have hcand : Token.lexicon.candidates '\x7d' = [.closeBrace] := by decide
  refine h.token (k := .closeBrace) ['\x7d'] ?_ rfl
  refine Lexicon.tiles_of_candidates [] hcand hmatch ?_ (by simp)
  intro j hj more hmore hlonger
  obtain rfl : j = .closeBrace := by simpa using hj
  obtain ⟨brace, semicolons, hsplit, hbrace, hsemicolons⟩ := matches_seq_iff.mp hlonger
  obtain rfl := matches_literal_iff.mp hbrace
  obtain rfl : more = semicolons := by simpa using hsplit
  cases more with
  | nil => rfl
  | cons c more =>
    obtain ⟨_, rfl⟩ := hmore
    have hc : c = ';' := by simpa using Token.matches_many_among_iff.mp hsemicolons c (by simp)
    exact absurd (congrArg some hc) hhead

namespace Token

def directiveKinds : List (Kind × String) :=
  [(.mode, "@mode"), (.styleTitle, "@styleTitle"), (.styleAbstract, "@styleAbstract")]

theorem pattern_of_directive {k : Kind} {keyword : String} (h : (k, keyword) ∈ directiveKinds) :
    k.pattern = directive keyword := by
  simp only [directiveKinds, List.mem_cons, Prod.mk.injEq, List.not_mem_nil, or_false] at h
  rcases h with ⟨rfl, rfl⟩ | ⟨rfl, rfl⟩ | ⟨rfl, rfl⟩ <;> rfl

theorem matches_directive_iff {keyword : String} : Matches (directive keyword) cs ↔
    ∃ argument, ';' ∉ argument ∧ cs = keyword.toList ++ (argument ++ [';']) := by
  constructor
  · intro h
    obtain ⟨word, _, rfl, hword, h⟩ := matches_seq_iff.mp h
    obtain ⟨argument, _, rfl, hargument, h⟩ := matches_seq_iff.mp h
    obtain ⟨semicolon, _, rfl, hsemicolon, h⟩ := matches_seq_iff.mp h
    obtain rfl := matches_nothing_iff.mp h
    obtain rfl := matches_literal_iff.mp hword
    obtain rfl := matches_literal_iff.mp hsemicolon
    rw [matches_many_except_iff] at hargument
    exact ⟨argument, fun hmem => hargument ';' hmem (by decide), by simp⟩
  · rintro ⟨argument, hargument, rfl⟩
    refine .seq (matches_literal_iff.mpr rfl) (.seq ?_ (.seq (matches_literal_iff.mpr rfl)
      .nothing))
    refine matches_many_except_iff.mpr fun c hc hmem => hargument ?_
    obtain rfl : c = ';' := by simpa using hmem
    exact hc

theorem prefixFree_directive (keyword : String) : PrefixFree (directive keyword) := by
  refine prefixFree_seq (prefixFree_literal _) (prefixFree_many_seq (prefixFree_one _)
    (prefixFree_seq (prefixFree_literal _) prefixFree_nothing) rfl rfl ?_)
  simp [begins, literal, acceptsEmpty, except]

/-- No keyword of a directive begins another one. -/
theorem eq_of_directives {j k : Kind} {first second : String} {more : List Char}
    (hj : (j, first) ∈ directiveKinds) (hk : (k, second) ∈ directiveKinds)
    (hfirst : Matches (directive first) (cs ++ more)) (hsecond : Matches (directive second) cs) :
    j = k := by
  obtain ⟨_, -, hfirst⟩ := matches_directive_iff.mp hfirst
  obtain ⟨_, -, rfl⟩ := matches_directive_iff.mp hsecond
  rw [List.append_assoc] at hfirst
  have hpre : first.toList <+: second.toList ∨ second.toList <+: first.toList :=
    List.prefix_or_prefix_of_prefix ⟨_, hfirst.symm⟩ (List.prefix_append _ _)
  have hdistinct : ∀ a ∈ directiveKinds, ∀ b ∈ directiveKinds,
      a.2.toList <+: b.2.toList → a.1 = b.1 := by decide
  rcases hpre with hpre | hpre
  · exact hdistinct _ hj _ hk hpre
  · exact (hdistinct _ hk _ hj hpre).symm

theorem exists_keyword_eq {k : Kind} {keyword : String} (h : (k, keyword) ∈ directiveKinds) :
    ∃ word, keyword.toList = '@' :: word := by
  simp only [directiveKinds, List.mem_cons, Prod.mk.injEq, List.not_mem_nil, or_false] at h
  rcases h with ⟨-, rfl⟩ | ⟨-, rfl⟩ | ⟨-, rfl⟩ <;> exact ⟨_, rfl⟩

/-- Only directives begin with an at sign. -/
theorem exists_keyword_of_candidate {k : Kind} (h : k ∈ lexicon.candidates '@') :
    ∃ keyword, (k, keyword) ∈ directiveKinds := by
  have hall : ∀ k ∈ lexicon.candidates '@', ∃ e ∈ directiveKinds, e.1 = k := by decide
  obtain ⟨⟨_, keyword⟩, hmem, rfl⟩ := hall k h
  exact ⟨keyword, hmem⟩

/-- Where a directive is, no other one and no longer one is. -/
theorem eq_of_matches_directive {j k : Kind} {keyword : String} {more : List Char}
    (hk : (k, keyword) ∈ directiveKinds) (hmatch : Matches (directive keyword) cs)
    (hj : j ∈ lexicon.candidates '@') (hmore : j.pattern.Matches (cs ++ more)) :
    j = k ∧ more = [] := by
  obtain ⟨other, hother⟩ := exists_keyword_of_candidate hj
  rw [pattern_of_directive hother] at hmore
  obtain rfl := eq_of_directives hother hk hmore hmatch
  rw [← pattern_of_directive hother, pattern_of_directive hk] at hmore
  exact ⟨rfl, prefixFree_directive keyword _ _ hmatch hmore⟩

end Token

/-- A directive reaches to its semicolon. -/
theorem Lexes.directive {k : Token.Kind} {keyword : String}
    (hk : (k, keyword) ∈ Token.directiveKinds) {argument : List Char} (hargument : ';' ∉ argument)
    (h : Lexes rest ts) :
    Lexes (keyword.toList ++ (argument ++ ';' :: rest))
      (Token.ofTile k (keyword.toList ++ (argument ++ [';'])) :: ts) := by
  have hmatch : Matches (Token.directive keyword) (keyword.toList ++ (argument ++ [';'])) :=
    Token.matches_directive_iff.mpr ⟨argument, hargument, rfl⟩
  have hcandidates : ∀ e ∈ Token.directiveKinds, e.1 ∈ Token.lexicon.candidates '@' ∧
      ∀ cs, (Token.ofTile e.1 cs).isTrivia = false := by
    simp only [Token.directiveKinds, List.forall_mem_cons]
    exact ⟨⟨by decide, fun _ => rfl⟩, ⟨by decide, fun _ => rfl⟩, ⟨by decide, fun _ => rfl⟩,
      List.forall_mem_nil _⟩
  obtain ⟨hcandidate, htoken⟩ := hcandidates _ hk
  obtain ⟨pre, post, hcand, hpre⟩ := List.eq_append_cons_of_mem hcandidate
  have hother {j : Token.Kind} (hj : j ∈ pre ++ k :: post) {more : List Char}
      (hj' : j.pattern.Matches ((keyword.toList ++ (argument ++ [';'])) ++ more)) :
      j = k ∧ more = [] :=
    Token.eq_of_matches_directive hk hmatch (hcand ▸ hj) hj'
  have htile : Token.lexicon.tiles ((keyword.toList ++ (argument ++ [';'])) ++ rest) =
      ((k, keyword.toList ++ (argument ++ [';'])) :: (Token.lexicon.tiles rest).1,
        (Token.lexicon.tiles rest).2) := by
    obtain ⟨word, hword⟩ := Token.exists_keyword_eq hk
    rw [← Token.pattern_of_directive hk] at hmatch
    rw [hword] at hmatch hother ⊢
    refine Lexicon.tiles_of_candidates pre hcand hmatch ?_ ?_
    · exact fun j hj more _ hj' => (hother hj hj').2
    · intro j hj hj'
      rw [← List.append_nil ('@' :: _)] at hj'
      obtain ⟨rfl, -⟩ := hother (List.mem_append_left _ hj) hj'
      exact hpre hj
  have hlexes := h.token _ htile (htoken _)
  simpa using hlexes

namespace Token

theorem matches_bracket_iff :
    Matches bracket cs ↔ ∃ inner, ']' ∉ inner ∧ cs = '[' :: (inner ++ [']']) := by
  constructor
  · intro h
    obtain ⟨left, _, rfl, hleft, h⟩ := matches_seq_iff.mp h
    obtain ⟨inner, _, rfl, hinner, h⟩ := matches_seq_iff.mp h
    obtain ⟨right, _, rfl, hright, h⟩ := matches_seq_iff.mp h
    obtain rfl := matches_nothing_iff.mp h
    obtain rfl := matches_literal_iff.mp hleft
    obtain rfl := matches_literal_iff.mp hright
    rw [matches_many_except_iff] at hinner
    exact ⟨inner, fun hmem => hinner ']' hmem (by decide), rfl⟩
  · rintro ⟨inner, hinner, rfl⟩
    have hmany : Matches (many (except "]")) inner := by
      refine matches_many_except_iff.mpr fun c hc hmem => hinner ?_
      obtain rfl : c = ']' := by simpa using hmem
      exact hc
    have hright : Matches (literal "]") [']'] := matches_literal_iff.mpr rfl
    exact matches_seq_iff.mpr ⟨['['], inner ++ [']'], rfl, matches_literal_iff.mpr rfl,
      .seq hmany (matches_seq_iff.mpr ⟨[']'], [], rfl, hright, .nothing⟩)⟩

theorem prefixFree_bracket : PrefixFree bracket := by
  refine prefixFree_seq (prefixFree_literal _) (prefixFree_many_seq (prefixFree_one _)
    (prefixFree_seq (prefixFree_literal _) prefixFree_nothing) rfl rfl ?_)
  simp [begins, literal, acceptsEmpty, except]

theorem prefixFree_selector : PrefixFree Kind.selector.pattern := by
  refine prefixFree_alt (prefixFree_literal _) prefixFree_bracket rfl rfl ?_
  simp [begins, literal, acceptsEmpty, bracket, inOrder]

theorem head?_of_matches_partName (h : Matches partName cs) : cs.head? = some ':' := by
  obtain ⟨colon, name, rfl, hcolon, -⟩ := matches_seq_iff.mp h
  obtain rfl := matches_literal_iff.mp hcolon
  rfl

/-- A selector is no start of a pseudo-selector unless a colon follows. -/
theorem not_matches_pseudoSelector {more : List Char} (h : Matches Kind.selector.pattern cs)
    (hmore : more.head? ≠ some ':') : ¬ Matches Kind.pseudoSelector.pattern (cs ++ more) := by
  intro hpseudo
  have hsel {left right : List Char} (hsplit : cs ++ more = left ++ right)
      (hleft : Matches Kind.selector.pattern left) (hright : Matches partName right) : False := by
    obtain ⟨-, rfl⟩ := prefixFree_selector.unique hsplit h hleft
    exact hmore (head?_of_matches_partName hright)
  obtain ⟨p, hp, hpseudo⟩ := matches_anyOf_iff.mp hpseudo
  simp only [List.mem_cons, List.not_mem_nil, or_false] at hp
  rcases hp with rfl | rfl | rfl
  · obtain ⟨left, right, hsplit, hleft, hright⟩ := matches_seq_iff.mp hpseudo
    exact hsel hsplit (.left hleft) hright
  · obtain ⟨left, right, hsplit, hleft, hright⟩ := matches_seq_iff.mp hpseudo
    exact hsel hsplit (.right hleft) hright
  · have hcolon := head?_of_matches_partName hpseudo
    rcases matches_alt_iff.mp h with h | h
    · obtain rfl := matches_literal_iff.mp h
      simp at hcolon
    · obtain ⟨inner, -, rfl⟩ := matches_bracket_iff.mp h
      simp at hcolon

end Token

theorem head?_ne_of_start {c : Char} {more : List Char} (hmore : more <+: rest)
    (hhead : rest.head? ≠ some c) : more.head? ≠ some c := by
  obtain ⟨_, rfl⟩ := hmore
  cases more with
  | nil => nofun
  | cons d more => exact hhead

/-- A selector that no colon follows. -/
theorem Lexes.selector (h : Lexes rest ts)
    (hcs : Matches Token.Kind.selector.pattern cs) (hhead : rest.head? ≠ some ':') :
    Lexes (cs ++ rest) (.selector (String.ofList cs) :: ts) := by
  refine h.token (k := .selector) cs ?_ rfl
  cases cs with
  | nil => exact absurd hcs (by simp [← acceptsEmpty_iff, Token.Kind.pattern, acceptsEmpty,
      literal, Token.bracket, inOrder])
  | cons c cs =>
    have hcand : Token.lexicon.candidates c = [.pseudoSelector] ++ .selector :: [] := by
      rcases matches_alt_iff.mp hcs with h | h
      · cases matches_literal_iff.mp h
        decide
      · obtain ⟨_, -, heq⟩ := Token.matches_bracket_iff.mp h
        cases heq
        decide
    refine Lexicon.tiles_of_candidates _ hcand hcs ?_ ?_
    · intro j hj more hmore hlonger
      have hj : j = .pseudoSelector ∨ j = .selector := by simpa using hj
      rcases hj with rfl | rfl
      · exact absurd hlonger
          (Token.not_matches_pseudoSelector hcs (head?_ne_of_start hmore hhead))
      · exact Token.prefixFree_selector _ _ hcs hlonger
    · intro j hj hmatch
      obtain rfl : j = .pseudoSelector := by simpa using hj
      rw [← List.append_nil (c :: cs)] at hmatch
      exact Token.not_matches_pseudoSelector hcs (by simp) hmatch

def isPartChar (c : Char) : Bool := c.isAlphanum || c == '-' || c == '(' || c == ')'

/-- A pseudo-selector whose name does not go on in what follows. -/
theorem Lexes.pseudoSelector (h : Lexes rest ts) (cs : List Char) (hne : cs ≠ [])
    (hcs : ∀ c ∈ cs, isPartChar c = true)
    (hhead : ∀ c, rest.head? = some c → isPartChar c = false) :
    Lexes (':' :: (cs ++ rest)) (.pseudoSelector (String.ofList (':' :: cs)) :: ts) := by
  have hmatch : Token.Kind.pseudoSelector.pattern.Matches (':' :: cs) :=
    matches_anyOf_iff.mpr ⟨Token.partName, by simp,
      matches_seq_iff.mpr ⟨[':'], cs, rfl, matches_literal_iff.mpr rfl,
        matches_atLeastOne_one_iff.mpr ⟨hne, hcs⟩⟩⟩
  have hcand : Token.lexicon.candidates ':' = [.pseudoSelector] := by decide
  refine h.token (k := .pseudoSelector) (':' :: cs) ?_ rfl
  refine Lexicon.tiles_of_candidates [] hcand hmatch ?_ (by simp)
  intro j hj more hmore hlonger
  obtain rfl : j = .pseudoSelector := by simpa using hj
  obtain ⟨p, hp, hlonger⟩ := matches_anyOf_iff.mp hlonger
  simp only [List.mem_cons, List.not_mem_nil, or_false] at hp
  rcases hp with rfl | rfl | rfl
  · exact absurd hlonger (not_matches_of_begins rfl)
  · exact absurd hlonger (not_matches_of_begins rfl)
  · obtain ⟨colon, name, hsplit, hcolon, hname⟩ := matches_seq_iff.mp hlonger
    obtain rfl := matches_literal_iff.mp hcolon
    obtain rfl : cs ++ more = name := by simpa using hsplit
    cases more with
    | nil => rfl
    | cons c more =>
      obtain ⟨_, rfl⟩ := hmore
      have hpart : isPartChar c = true := (matches_atLeastOne_one_iff.mp hname).2 c (by simp)
      rw [hhead c rfl] at hpart
      cases hpart

end CartoStyle.Sheet
