import CartoStyle.Proofs.Lexicon.Tiling
import CartoStyle.Sheet.Token

/-!
The tokens of a text and their byte ranges. The ranges follow each other without gaps from
the start of the text, each holds the longest text at its place that a kind of token
matches, and they reach the end of the text or a place where no kind matches. This
determines the tokens of a text that has them, and the error of one that has none.
-/

namespace CartoStyle.Sheet

def Token.kind : Token → Kind
  | whitespace => .whitespace
  | newline => .newline
  | openBrace => .openBrace
  | closeBrace => .closeBrace
  | comma => .comma
  | mode _ => .mode
  | styleTitle _ => .styleTitle
  | styleAbstract _ => .styleAbstract
  | pseudoSelector _ => .pseudoSelector
  | selector _ => .selector
  | property _ => .property
  | title _ => .title
  | comment => .comment

theorem Token.kind_ofTile (k : Kind) (cs : List Char) : (ofTile k cs).kind = k := by
  cases k <;> rfl

/-- The token is read from the next tile of the text at its byte range. -/
def Located.IsTileOf (t : Located) (cs : List Char) : Prop :=
  ∃ before lexeme rest, cs = before ++ (lexeme ++ rest) ∧ t.start = byteLength before ∧
    t.stop = byteLength (before ++ lexeme) ∧ Token.lexicon.IsNext t.token.kind lexeme rest ∧
      t.token = Token.ofTile t.token.kind lexeme

/-- The byte ranges follow each other without gaps between two offsets, and none is empty. -/
def Contiguous : Nat → List Located → Nat → Prop
  | start, [], stop => start = stop
  | start, t :: ts, stop => t.start = start ∧ t.start < t.stop ∧ Contiguous t.stop ts stop

/-- The tokens tile the text from its start up to an offset. -/
structure Tiles (source : String) (ts : List Located) (stop : Nat) : Prop where
  contiguous : Contiguous 0 ts stop
  isTile : ∀ t ∈ ts, t.IsTileOf source.toList

/-- No kind of token matches a start of what is left of the text from an offset on. -/
def StopsAt (source : String) (stop : Nat) (rest : List Char) : Prop :=
  ∃ before, source.toList = before ++ rest ∧ byteLength before = stop ∧ rest ≠ [] ∧
    Token.lexicon.Stops rest

variable {source : String} {ts : List Located} {tiles : List (Token.Kind × List Char)}
  {before todo rest : List Char} {stop : Nat}

section Search

theorem tokenize_of_tiling (h : Token.lexicon.Tiling source.toList tiles []) :
    tokenize source = .ok (locate 0 tiles) := by
  rw [tokenize, h.tiles_eq]
  rfl

theorem tokenize_of_stops (h : Token.lexicon.Tiling source.toList tiles rest) (hne : rest ≠ [])
    (hsplit : source.toList = before ++ rest) :
    tokenize source = .error (.lexical (Position.after before) (fragment rest)) := by
  have hempty : rest.isEmpty = false := List.isEmpty_eq_false_iff.mpr hne
  have htake : source.toList.take (source.toList.length - rest.length) = before := by
    rw [hsplit, List.length_append, Nat.add_sub_cancel, List.take_left]
  rw [tokenize, h.tiles_eq]
  simp only [hempty, Bool.false_eq_true, if_false, htake]

/-- The tiling of a text covers it, or it stops where the error is. -/
theorem tokenize_cases (source : String) :
    (∃ tiles, Token.lexicon.Tiling source.toList tiles [] ∧
      tokenize source = .ok (locate 0 tiles)) ∨
    ∃ tiles before rest, Token.lexicon.Tiling source.toList tiles rest ∧
      source.toList = before ++ rest ∧ rest ≠ [] ∧
      tokenize source = .error (.lexical (Position.after before) (fragment rest)) := by
  have htiling := Token.lexicon.tiling_tiles source.toList
  cases hrest : (Token.lexicon.tiles source.toList).2 with
  | nil =>
    rw [hrest] at htiling
    exact Or.inl ⟨_, htiling, tokenize_of_tiling htiling⟩
  | cons c rest =>
    rw [hrest] at htiling
    have hsplit := htiling.flatten_append.symm
    have hne := List.cons_ne_nil c rest
    exact Or.inr ⟨_, _, _, htiling, hsplit, hne, tokenize_of_stops htiling hne hsplit⟩

theorem exists_tiling_of_tokenize (h : tokenize source = .ok ts) :
    ∃ tiles, Token.lexicon.Tiling source.toList tiles [] ∧ ts = locate 0 tiles := by
  rcases tokenize_cases source with ⟨tiles, htiling, hok⟩ | ⟨_, _, _, _, _, _, herror⟩
  · rw [hok] at h
    exact ⟨tiles, htiling, (Except.ok.inj h).symm⟩
  · rw [herror] at h
    cases h

theorem stops_of_tiling (h : Token.lexicon.Tiling todo tiles rest) : Token.lexicon.Stops rest := by
  induction h with
  | stop h => exact h
  | tile _ _ ih => exact ih

/-- The tokens of the tiles of a text tile it, behind whatever has been tiled before. -/
theorem exists_contiguous_locate (h : Token.lexicon.Tiling todo tiles rest) (before : List Char) :
    ∃ tiled, todo = tiled ++ rest ∧
      Contiguous (byteLength before) (locate (byteLength before) tiles)
        (byteLength (before ++ tiled)) ∧
      ∀ t ∈ locate (byteLength before) tiles, t.IsTileOf (before ++ todo) := by
  induction h generalizing before with
  | stop h => exact ⟨[], rfl, by simp [locate, Contiguous], nofun⟩
  | @tile k lexeme todo left tiles h _ ih =>
    obtain ⟨tiled, rfl, hcontiguous, htile⟩ := ih (before ++ lexeme)
    rw [byteLength_append] at hcontiguous htile
    have hpos := byteLength_pos h.ne_nil
    refine ⟨lexeme ++ tiled, (List.append_assoc _ _ _).symm, ⟨rfl, ?_, ?_⟩, ?_⟩
    · simp only [Nat.lt_add_right_iff_pos, hpos]
    · rwa [List.append_assoc] at hcontiguous
    · refine List.forall_mem_cons.mpr ⟨?_, ?_⟩
      · refine ⟨before, lexeme, tiled ++ left, rfl, rfl, (byteLength_append _ _).symm, ?_, ?_⟩
        · rw [Token.kind_ofTile]
          exact h
        · rw [Token.kind_ofTile]
      · intro t ht
        have hmem := htile t ht
        rwa [List.append_assoc] at hmem

/-- Tokens that tile a text behind what has been tiled before are those of the tiles of the
text, as far as they go. -/
theorem exists_tiling_of_contiguous
    (h : Contiguous (byteLength before) ts stop) (htile : ∀ t ∈ ts, t.IsTileOf (before ++ todo)) :
    ∃ tiles tiled rest, ts = locate (byteLength before) tiles ∧ todo = tiled ++ rest ∧
      byteLength (before ++ tiled) = stop ∧ ∀ more left, Token.lexicon.Tiling rest more left →
        Token.lexicon.Tiling todo (tiles ++ more) left := by
  induction ts generalizing before todo with
  | nil =>
    refine ⟨[], [], todo, rfl, rfl, ?_, fun _ _ hmore => hmore⟩
    rw [List.append_nil]
    exact h
  | cons t ts ih =>
    obtain ⟨token, start, stop'⟩ := t
    obtain ⟨hstart, -, hlater⟩ := h
    obtain ⟨⟨front, lexeme, todo', hsplit, hfront, hstop, hnext, htoken⟩, hmem⟩ :=
      List.forall_mem_cons.mp htile
    dsimp only at hstart hfront hstop hnext htoken hlater
    -- The range of the token begins where the tiles before it end.
    obtain ⟨rfl, rfl⟩ := append_inj_of_byteLength hsplit (hstart.symm.trans hfront)
    rw [← List.append_assoc] at hmem
    rw [hstop] at hlater
    obtain ⟨tiles, tiled, rest, rfl, rfl, hend, hmore⟩ := ih hlater hmem
    refine ⟨(token.kind, lexeme) :: tiles, lexeme ++ tiled, rest, ?_,
      (List.append_assoc _ _ _).symm, ?_, ?_⟩
    · rw [locate, ← htoken, ← byteLength_append, hstart, hstop]
    · rw [← List.append_assoc, hend]
    · exact fun more left hrest => .tile hnext (hmore more left hrest)

end Search

theorem Tiles.exists_tiling (h : Tiles source ts stop) :
    ∃ tiles tiled rest, ts = locate 0 tiles ∧ source.toList = tiled ++ rest ∧
      byteLength tiled = stop ∧ ∀ more left, Token.lexicon.Tiling rest more left →
        Token.lexicon.Tiling source.toList (tiles ++ more) left := by
  have hcontiguous : Contiguous (byteLength []) ts stop := h.contiguous
  exact exists_tiling_of_contiguous hcontiguous h.isTile

/-- A text has the tokens that tile it to its end. -/
theorem tokenize_eq_ok_iff : tokenize source = .ok ts ↔ Tiles source ts source.utf8ByteSize := by
  constructor
  · intro h
    obtain ⟨tiles, htiling, rfl⟩ := exists_tiling_of_tokenize h
    obtain ⟨tiled, hsplit, hcontiguous, htile⟩ := exists_contiguous_locate htiling []
    rw [List.append_nil] at hsplit
    rw [← byteLength_toList]
    exact ⟨by rwa [hsplit], htile⟩
  · intro h
    obtain ⟨tiles, tiled, rest, rfl, hsplit, hstop, hmore⟩ := h.exists_tiling
    have hrest : rest = [] := by
      by_cases hne : rest = []
      · exact hne
      have hpos := byteLength_pos hne
      rw [← byteLength_toList, hsplit, byteLength_append] at hstop
      omega
    subst hrest
    have htiling := hmore [] [] (.stop fun _ _ _ hpre hne => absurd (List.prefix_nil.mp hpre) hne)
    rw [List.append_nil] at htiling
    exact tokenize_of_tiling htiling

/-- A text has no tokens exactly if tokens tile it up to a place where no kind matches, and the
error is found at this place. -/
theorem tokenize_eq_error_iff {e : Error} :
    tokenize source = .error e ↔ ∃ ts stop place rest, Tiles source ts stop ∧
      StopsAt source stop rest ∧ Position.at? source stop = some place ∧
        e = .lexical place (fragment rest) := by
  constructor
  · intro h
    rcases tokenize_cases source with
      ⟨_, _, hok⟩ | ⟨tiles, before, rest, htiling, hsplit, hne, herror⟩
    · rw [hok] at h
      cases h
    · obtain ⟨tiled, hsplit', hcontiguous, htile⟩ := exists_contiguous_locate htiling []
      obtain rfl : before = tiled := List.append_cancel_right (hsplit.symm.trans hsplit')
      rw [herror] at h
      cases h
      exact ⟨_, _, _, _, ⟨hcontiguous, htile⟩,
        ⟨before, hsplit, rfl, hne, stops_of_tiling htiling⟩,
        Position.at?_byteLength hsplit, rfl⟩
  · rintro ⟨ts, stop, place, rest, htiles, ⟨before, hsplit, rfl, hne, hstops⟩, hat, rfl⟩
    obtain ⟨tiles, tiled, rest', rfl, hsplit', hstop, hmore⟩ := htiles.exists_tiling
    obtain ⟨rfl, rfl⟩ := append_inj_of_byteLength (hsplit'.symm.trans hsplit) hstop
    have htiling := hmore [] rest' (.stop hstops)
    rw [List.append_nil] at htiling
    rw [Position.at?_byteLength hsplit] at hat
    cases hat
    exact tokenize_of_stops htiling hne hsplit

/-- The tokens of a text tile it by the longest match; where that is impossible, the error is
found where the tiling stops. The reading without trivia has the other tokens of the same
tiling and the same errors. -/
theorem tokenize_and_lex_iff_tiles (source : String) :
    (∀ ts, tokenize source = .ok ts ↔ Tiles source ts source.utf8ByteSize) ∧
    (∀ e, tokenize source = .error e ↔ ∃ ts stop place rest, Tiles source ts stop ∧
      StopsAt source stop rest ∧ Position.at? source stop = some place ∧
        e = .lexical place (fragment rest)) ∧
    (∀ ts, lex source = .ok ts ↔
      ∃ all, tokenize source = .ok all ∧ ts = all.filter (!·.token.isTrivia)) ∧
    ∀ e, lex source = .error e ↔ tokenize source = .error e := by
  refine ⟨fun _ => tokenize_eq_ok_iff, fun _ => tokenize_eq_error_iff, fun _ => lex_eq_ok_iff,
    fun e => ?_⟩
  rw [lex]
  cases tokenize source with
  | error e => simp [Except.map]
  | ok all => simp [Except.map]

end CartoStyle.Sheet
