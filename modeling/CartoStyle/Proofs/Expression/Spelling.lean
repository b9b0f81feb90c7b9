import CartoStyle.Proofs.Expression.Lexeme
import CartoStyle.Proofs.Lexicon

/-!
Written texts and their tokens. A text that spells some tokens is read as them in
front of any boundary, and texts with blanks between them are read one after the
other.
-/

namespace CartoStyle.Lexicon

open Pattern Lexeme

variable {Kind Token : Type} {l : Lexicon Kind} {read? : Kind × List Char → Option Token}

/-- The text stands for the tokens in front of any boundary, and does not begin with a blank. -/
structure Spells (l : Lexicon Kind) (read? : Kind × List Char → Option Token) (cs : List Char)
    (ts : List Token) : Prop where
  first : ∃ c more, cs = c :: more ∧ Lexeme.blanks.occurs c = false
  reads : ∀ rest us, Bounded rest → l.Reads read? rest us → l.Reads read? (cs ++ rest) (ts ++ us)

/-- Blanks are lexemes of a kind of their own and no tokens. -/
def SkipsBlanks (l : Lexicon Kind) (read? : Kind × List Char → Option Token) : Prop :=
  ∃ k, l.candidates ' ' = [k] ∧ l.pattern k = Lexeme.blanks ∧ ∀ cs, read? (k, cs) = none

variable {k : Kind} {t : Token} {c : Char} {cs ds rest : List Char} {ts us : List Token}

/-- The first tile, of a kind that alone can begin with its first character. -/
theorem Reads.candidate (cs : List Char) (hcand : l.candidates c = [k])
    (hmatch : (l.pattern k).Matches (c :: cs))
    (hlonger : ∀ more, more <+: rest → (l.pattern k).Matches (c :: (cs ++ more)) → more = [])
    (h : l.Reads read? rest us) :
    l.Reads read? (c :: (cs ++ rest)) ((read? (k, c :: cs)).toList ++ us) :=
  h.tile (c :: cs) (tiles_of_candidate hcand hmatch hlonger)

/-- A punctuation mark is a token whatever follows. -/
theorem Reads.mark (hcand : l.candidates c = [k])
    (hk : l.pattern k = literal (String.singleton c)) (ht : read? (k, [c]) = some t)
    (h : l.Reads read? cs us) : l.Reads read? (c :: cs) (t :: us) := by
  have hmatch : (l.pattern k).Matches [c] := by
    rw [hk]
    exact matches_literal_iff.mpr (by simp)
  have hreads := h.candidate [] hcand hmatch fun more _ hmore => by
    rw [hk] at hmatch hmore
    exact prefixFree_literal _ [c] more hmatch hmore
  rw [ht] at hreads
  exact hreads

/-- A single blank in front of something else is no token. -/
theorem Reads.space (hblanks : l.SkipsBlanks read?) (h : l.Reads read? cs us)
    (hhead : ∀ c, cs.head? = some c → Lexeme.blanks.occurs c = false) :
    l.Reads read? (' ' :: cs) us := by
  obtain ⟨k, hcand, hk, hnone⟩ := hblanks
  have hmatch : (l.pattern k).Matches [' '] := by
    rw [hk]
    exact matches_atLeastOne_one_iff.mpr ⟨nofun, by simp⟩
  have hreads := h.candidate [] hcand hmatch fun more hstart hmore => by
    rw [hk] at hmore
    have hmore : Lexeme.blanks.Matches ([' '] ++ more) := hmore
    refine eq_nil_of_occurs hmore fun d hd => hhead d ?_
    obtain ⟨_, rfl⟩ := hstart
    cases more with
    | nil => cases hd
    | cons e more => exact hd
  rw [hnone] at hreads
  exact hreads

theorem Spells.head (h : l.Spells read? cs ts) :
    ∀ c, (cs ++ rest).head? = some c → Lexeme.blanks.occurs c = false := by
  obtain ⟨⟨c, more, rfl, hc⟩, -⟩ := h
  intro d hd
  cases hd
  exact hc

/-- A lexeme of a kind without boundaries in it. -/
theorem spells_unquoted (hcand : l.candidates c = [k]) (hfirst : Lexeme.blanks.occurs c = false)
    (hk : ∀ d, isBoundary d = true → (l.pattern k).occurs d = false)
    (hmatch : (l.pattern k).Matches (c :: cs)) (htoken : read? (k, c :: cs) = some t) :
    l.Spells read? (c :: cs) [t] := by
  refine ⟨⟨c, cs, rfl, hfirst⟩, fun rest us hrest h => ?_⟩
  have htile := h.candidate cs hcand hmatch fun more hmore
    (hlonger : (l.pattern k).Matches (c :: cs ++ more)) =>
      eq_nil_of_bounded hk hrest hmore hlonger
  rw [htoken] at htile
  exact htile

/-- A lexeme whose competitors have no boundaries in them either. -/
theorem spells_of_candidates (pre : List Kind) {post : List Kind}
    (hcand : l.candidates c = pre ++ k :: post) (hfirst : Lexeme.blanks.occurs c = false)
    (hoccurs : ∀ j ∈ pre ++ k :: post, ∀ d, isBoundary d = true → (l.pattern j).occurs d = false)
    (hmatch : (l.pattern k).Matches (c :: cs))
    (hpre : ∀ j ∈ pre, ¬ (l.pattern j).Matches (c :: cs))
    (htoken : read? (k, c :: cs) = some t) : l.Spells read? (c :: cs) [t] := by
  refine ⟨⟨c, cs, rfl, hfirst⟩, fun rest us hrest h => ?_⟩
  have htile := h.tile (k := k) (c :: cs) <| tiles_of_candidates pre hcand hmatch
    (fun j hj more hmore (hlonger : (l.pattern j).Matches (c :: cs ++ more)) =>
      eq_nil_of_bounded (hoccurs j hj) hrest hmore hlonger) hpre
  rw [htoken] at htile
  exact htile

/-- A fixed lexeme, by evaluation of its competitors. -/
theorem spells_of_all (pre post : List Kind) (hcand : l.candidates c = pre ++ k :: post)
    (hfirst : Lexeme.blanks.occurs c = false)
    (hoccurs : ((pre ++ k :: post).all fun j =>
      " (),".toList.all fun d => !(l.pattern j).occurs d) = true)
    (hmatch : (l.pattern k).accepts (c :: cs) = true)
    (hpre : (pre.all fun j => !(l.pattern j).accepts (c :: cs)) = true)
    (htoken : read? (k, c :: cs) = some t) : l.Spells read? (c :: cs) [t] := by
  refine spells_of_candidates pre hcand hfirst ?_ (accepts_iff.mp hmatch) ?_ htoken
  · intro j hj d hd
    have hd : d ∈ " (),".toList := by simpa [isBoundary] using hd
    simpa using List.all_eq_true.mp (List.all_eq_true.mp hoccurs j hj) d hd
  · intro j hj hmatches
    have hj := List.all_eq_true.mp hpre j hj
    rw [accepts_iff.mpr hmatches] at hj
    cases hj

/-- A lexeme of a kind that ends by itself. -/
theorem spells_enclosed (hcand : l.candidates c = [k]) (hfirst : Lexeme.blanks.occurs c = false)
    (hk : (l.pattern k).PrefixFree) (hmatch : (l.pattern k).Matches (c :: cs))
    (htoken : read? (k, c :: cs) = some t) : l.Spells read? (c :: cs) [t] := by
  refine ⟨⟨c, cs, rfl, hfirst⟩, fun rest us _ h => ?_⟩
  have htile := h.candidate cs hcand hmatch fun more _ hlonger => hk (c :: cs) more hmatch hlonger
  rw [htoken] at htile
  exact htile

/-- A numeral, if nothing else begins like one. -/
theorem spells_numeral (hk : l.pattern k = numeral)
    (hcand : ∀ c, c.isDigit = true ∨ c = '-' ∨ c = '.' → l.candidates c = [k])
    (hmatch : Matches numeral cs) (htoken : read? (k, cs) = some t) : l.Spells read? cs [t] := by
  cases cs with
  | nil =>
    rw [← acceptsEmpty_iff] at hmatch
    cases hmatch
  | cons c cs =>
    have hbegins := begins_numeral hmatch
    have hfirst : Lexeme.blanks.occurs c = false := by
      rcases hbegins with hc | rfl | rfl
      · have hblank : c ∉ " \t\r\n\x0c".toList := Text.not_mem_of_all (by decide) hc
        simpa [Lexeme.blanks, occurs, atLeastOne] using hblank
      · rfl
      · rfl
    rw [← hk] at hmatch
    exact spells_unquoted (hcand c hbegins) hfirst (fun d hd => hk ▸ occurs_numeral hd) hmatch
      htoken

/-- A text in quotes, if nothing else begins with a quote. -/
theorem spells_quote (hk : l.pattern k = quoted)
    (hcand : ∀ q, q = '\'' ∨ q = '"' → l.candidates q = [k]) {s : String} (h : IsQuotable s)
    (htoken : ∀ cs, inner cs = s.toList → read? (k, cs) = some t) :
    l.Spells read? (Text.quote s).toList [t] := by
  obtain ⟨q, hq, hmem, hquote⟩ := Text.exists_quote_eq h
  have hmatch : (l.pattern k).Matches (q :: (s.toList ++ [q])) := by
    rw [hk]
    exact matches_quoted hq hmem
  have hq : q = '\'' ∨ q = '"' := by simpa [Text.isQuote] using hq
  have hfirst : Lexeme.blanks.occurs q = false := by
    rcases hq with rfl | rfl <;> rfl
  rw [hquote]
  exact spells_enclosed (hcand q hq) hfirst (hk ▸ prefixFree_quoted) hmatch
    (htoken _ (inner_quoted q s.toList))

/-- Two texts with a blank between them. -/
theorem Spells.append_space (hblanks : l.SkipsBlanks read?) (h : l.Spells read? cs ts)
    (hnext : l.Spells read? ds us) : l.Spells read? (cs ++ ' ' :: ds) (ts ++ us) := by
  obtain ⟨c, more, rfl, hc⟩ := h.first
  refine ⟨⟨c, _, List.cons_append, hc⟩, fun rest vs hrest hreads => ?_⟩
  have htail := (hnext.reads rest vs hrest hreads).space hblanks hnext.head
  simpa using h.reads _ _ (bounded_cons rfl _) htail

/-- A text that spells tokens consists of them. -/
theorem Spells.tiling?_eq (h : l.Spells read? cs ts) :
    (l.tiling? cs).map (·.filterMap read?) = some ts := by
  have hreads := h.reads [] [] bounded_nil reads_nil
  rw [List.append_nil, List.append_nil] at hreads
  exact hreads.tiling?_eq

end CartoStyle.Lexicon
