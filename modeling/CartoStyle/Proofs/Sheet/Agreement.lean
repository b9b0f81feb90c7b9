import CartoStyle.Proofs.Sheet.Tiling
import CartoStyle.Proofs.Sheet.Trivia
import CartoStyle.Proofs.Text.Boundary

/-!
Readings with and without trivia. They end alike: both give the same block tree, or both fail
with the same fault. Only the place of the fault may differ, as a header begins at the trivia in
front of it.
-/

namespace CartoStyle.Sheet

/-- Two readings give the same, or fail with the same fault of nesting at whatever places. -/
inductive Agree {α : Type} : Except Error α → Except Error α → Prop
  | ok (a : α) : Agree (.ok a) (.ok a)
  | nesting (place place' : Position) (fault : SheetFault) :
      Agree (.error (.nesting place fault)) (.error (.nesting place' fault))

variable {source : String} {ts us : List Located} {offset : Nat}

theorem exists_fail_eq (h : IsBoundary source offset) :
    ∃ place, ∀ (α : Type) (fault : SheetFault),
      (Progress.fail source offset fault : Except Error α) = .error (.nesting place fault) := by
  obtain ⟨place, hplace⟩ := h.exists_ofOffset_eq
  refine ⟨place, fun α fault => ?_⟩
  rw [Progress.fail, hplace]
  rfl

/-- The tokens of a text start at boundaries between characters. -/
theorem isBoundary_of_tokenize (h : tokenize source = .ok ts) :
    ∀ t ∈ ts, IsBoundary source t.start := by
  intro t ht
  obtain ⟨before, lexeme, rest, hsplit, hstart, -⟩ := (tokenize_eq_ok_iff.mp h).isTile t ht
  exact isBoundary_iff.mpr ⟨before, lexeme ++ rest, hsplit, hstart.symm⟩

theorem agree_of_filter_eq (hts : ∀ t ∈ ts, IsBoundary source t.start)
    (hus : ∀ u ∈ us, IsBoundary source u.start)
    (h : ts.filter (!·.token.isTrivia) = us.filter (!·.token.isTrivia)) :
    Agree (Stylesheet.ofTokens source ts) (Stylesheet.ofTokens source us) := by
  rcases Stylesheet.ofTokens_of_filter_eq h with
    ⟨sheet, hsame⟩ | ⟨t, ht, u, hu, fault, hsame⟩
  · rw [(hsame source).1, (hsame source).2]
    exact .ok sheet
  · obtain ⟨place, hplace⟩ := exists_fail_eq (hts t ht)
    obtain ⟨place', hplace'⟩ := exists_fail_eq (hus u hu)
    rw [(hsame source).1, (hsame source).2, hplace, hplace']
    exact .nesting place place' fault

/-- The tokens of a text are read alike with and without the trivia among them, and so are any
two lists of tokens at boundaries that are the same but for the trivia. -/
theorem agree_ofTokens (source : String) :
    (∀ all, tokenize source = .ok all →
      Agree (Stylesheet.ofTokens source all)
        (Stylesheet.ofTokens source (all.filter (!·.token.isTrivia)))) ∧
    ∀ ts us : List Located, (∀ t ∈ ts, IsBoundary source t.start) →
      (∀ u ∈ us, IsBoundary source u.start) →
      ts.filter (!·.token.isTrivia) = us.filter (!·.token.isTrivia) →
      Agree (Stylesheet.ofTokens source ts) (Stylesheet.ofTokens source us) := by
  refine ⟨fun all hall => ?_, fun ts us hts hus => agree_of_filter_eq hts hus⟩
  have hstarts := isBoundary_of_tokenize hall
  exact agree_of_filter_eq hstarts (fun u hu => hstarts u (List.mem_filter.mp hu).1) (by simp)

section Star

def starSource : String := " *"

def starTokens : List Located := [⟨.whitespace, 0, 1⟩, ⟨.selector "*", 1, 2⟩]

def notedTokens : List Located := [⟨.comment, 2, 2⟩, ⟨.selector "*", 1, 2⟩, ⟨.comment, 0, 0⟩]

theorem tokenize_starSource : tokenize starSource = .ok starTokens := by
  with_unfolding_all rfl

/-- The selector is without a block at column one, two and three. -/
theorem agree_starTokens :
    tokenize starSource = .ok starTokens ∧
      Agree (Stylesheet.ofTokens starSource starTokens)
        (Stylesheet.ofTokens starSource [⟨.selector "*", 1, 2⟩]) ∧
      (∀ t ∈ starTokens, IsBoundary starSource t.start) ∧
      (∀ u ∈ notedTokens, IsBoundary starSource u.start) ∧
      starTokens.filter (!·.token.isTrivia) = notedTokens.filter (!·.token.isTrivia) ∧
      Agree (Stylesheet.ofTokens starSource starTokens)
        (Stylesheet.ofTokens starSource notedTokens) := by
  obtain ⟨hdropped, hnoted⟩ := agree_ofTokens starSource
  have hstarts := isBoundary_of_tokenize tokenize_starSource
  have hends : ∀ u ∈ notedTokens, IsBoundary starSource u.start := by
    have hstart : IsBoundary starSource 0 := isBoundary_iff.mpr ⟨[], [' ', '*'], rfl, rfl⟩
    have hinner : IsBoundary starSource 1 := isBoundary_iff.mpr ⟨[' '], ['*'], rfl, rfl⟩
    have hend : IsBoundary starSource 2 := isBoundary_iff.mpr ⟨[' ', '*'], [], rfl, rfl⟩
    exact List.forall_mem_cons.mpr ⟨hend, List.forall_mem_cons.mpr ⟨hinner,
      List.forall_mem_singleton.mpr hstart⟩⟩
  have hfilter : starTokens.filter (!·.token.isTrivia) =
      notedTokens.filter (!·.token.isTrivia) := rfl
  exact ⟨tokenize_starSource, hdropped _ tokenize_starSource, hstarts, hends, hfilter,
    hnoted _ _ hstarts hends hfilter⟩

end Star

end CartoStyle.Sheet
