import CartoStyle.Proofs.Sheet.Placing

/-!
Trivia may stand anywhere. They only decide at which offset a header is said to
begin, and whether an empty one is pending. In the empty text all offsets have
the same position, so a reading there in which both are forgotten takes every
token to the same result, and what it gives there it gives in every text.
-/

namespace CartoStyle.Sheet

/-- What has been read of a header, whatever its offset and even if nothing has. -/
def Header.settled (h : Option Header) : Header := { h.getD { start := 0 } with start := 0 }

theorem Header.settled_push (h : Option Header) (start : Nat) (t : Token) :
    settled (some ((h.getD { start }).push t)) = (settled h).push t := by
  cases h <;> cases t <;> rfl

namespace Progress

/-- A reading that has forgotten where its header begins. -/
def settled (p : Progress) : Progress := { p with header := some (Header.settled p.header) }

/-- In the empty text every offset stands for its only place. -/
theorem fail_empty {α : Type} (offset : Nat) (fault : SheetFault) :
    (fail "" offset fault : Except Error α) = .error (.nesting .start fault) := by
  cases offset <;> rfl

/-- A reading opens a block whether or not it knows where its header begins. -/
theorem openBlock_settled (p : Progress) (start : Nat) :
    p.settled.openBlock "" start = p.openBlock "" start := by
  cases hheader : p.header with
  | none =>
    have hsel : (Header.settled none).selectors.isEmpty = true := rfl
    simp only [openBlock, settled, hheader, hsel, if_true, fail_empty]
  | some h =>
    have hsel : (Header.settled (some h)).selectors = h.selectors := rfl
    have htitle : (Header.settled (some h)).title = h.title := rfl
    simp only [openBlock, settled, hheader, hsel, htitle, fail_empty]

theorem selects_settled (h : Option Header) :
    (Header.settled h).selects = true ↔ ∃ header ∈ h, header.selects = true := by
  cases h <;> simp [Header.settled]

/-- A token is read the same way from a reading that has forgotten the beginning of its
header. -/
theorem step_settled (p : Progress) (t : Located) :
    (p.settled.step "" t).map settled = (p.step "" t).map settled := by
  rcases header_or_open_or_closes t.token with ht | hopen | hcloses
  · rw [step_header _ _ ht, step_header _ _ ht]
    simp only [Except.map, settled, Header.settled_push]
    rfl
  · rw [step_eq_openBlock "" _ hopen, step_eq_openBlock "" _ hopen, openBlock_settled]
  · have hpending : p.settled.header = some (Header.settled p.header) := rfl
    by_cases hselects : ∃ h ∈ p.header, h.selects = true
    · obtain ⟨h, hheader, hh⟩ := hselects
      rw [step_missingOpen "" hcloses hpending ((selects_settled _).mpr ⟨h, hheader, hh⟩),
        step_missingOpen "" hcloses hheader hh]
    · have hidle : ∀ h ∈ p.header, h.selects = false := by simpa using hselects
      have hsettled : ∀ h ∈ p.settled.header, h.selects = false := by
        rintro h ⟨⟩
        rw [← Bool.not_eq_true, selects_settled]
        exact hselects
      rw [step_eq_statement "" p hcloses hidle, step_eq_statement "" p.settled hcloses hsettled]
      rfl

theorem finish_settled (p : Progress) : p.settled.finish "" = p.finish "" := by
  cases hheader : p.header with
  | none => simp only [finish, settled, hheader]; rfl
  | some h =>
    have hsel : (Header.settled (some h)).selects = h.selects := rfl
    by_cases hselects : h.selects = true
    · simp only [finish, settled, hheader, Option.filter, hsel, hselects, if_true, fail_empty]
    · simp [finish, settled, hheader, Option.filter, hsel, hselects]

theorem run_settled (p : Progress) (ts : List Located) : p.settled.run "" ts = p.run "" ts := by
  induction ts generalizing p with
  | nil => exact finish_settled p
  | cons t ts ih =>
    have hmap (q : Progress) : q.run "" (t :: ts) =
        (q.step "" t).map settled >>= fun r => r.run "" ts := by
      rw [run_cons]
      cases q.step "" t with
      | error e => rfl
      | ok r => exact (ih r).symm
    rw [hmap, hmap, step_settled]

/-- Dropping the trivia changes no reading of the empty text. -/
theorem run_filter (p : Progress) (ts : List Located) :
    p.run "" (ts.filter (!·.token.isTrivia)) = p.run "" ts := by
  induction ts generalizing p with
  | nil => rfl
  | cons t ts ih =>
    by_cases ht : t.token.isTrivia = true
    · have hstep := step_header "" p (t := t) (by simp [ht])
      have hpush (h : Header) : h.push t.token = h := by
        cases htoken : t.token <;> simp_all [Token.isTrivia, Header.push]
      have hsame : ({ p with header := some ((p.header.getD { start := t.start }).push t.token) } :
          Progress).settled = p.settled := by
        simp only [settled]
        rw [Header.settled_push, show (Header.settled p.header).push t.token = _ from hpush _]
      rw [List.filter_cons_of_neg (by simp [ht]), run_cons_of_ok hstep, ih, ← run_settled p,
        ← hsame, run_settled]
    · rw [List.filter_cons_of_pos (by simp [ht]), run_cons, run_cons]
      exact congrArg _ (funext ih)

end Progress

namespace Stylesheet

variable {source : String} {ts us : List Located} {sheet : Stylesheet}

/-- Two lists of tokens that are the same but for the trivia are read into the same block tree,
or both fail with the same fault, each at the start of one of its tokens. -/
theorem ofTokens_of_filter_eq
    (h : ts.filter (!·.token.isTrivia) = us.filter (!·.token.isTrivia)) :
    (∃ sheet, ∀ source, ofTokens source ts = .ok sheet ∧ ofTokens source us = .ok sheet) ∨
      ∃ t ∈ ts, ∃ u ∈ us, ∃ fault, ∀ source,
        ofTokens source ts = Progress.fail source t.start fault ∧
          ofTokens source us = Progress.fail source u.start fault := by
  have hempty : ofTokens "" ts = ofTokens "" us := by
    rw [ofTokens_eq_run, ofTokens_eq_run, ← Progress.run_filter {} ts, h, Progress.run_filter]
  cases uniform_ofTokens ts with
  | ok sheet hts =>
    cases uniform_ofTokens us with
    | ok sheet' hus =>
      rw [hts, hus] at hempty
      cases hempty
      exact Or.inl ⟨sheet, fun source => ⟨hts source, hus source⟩⟩
    | fail offset fault hus =>
      rw [hts, hus, Progress.fail_empty] at hempty
      cases hempty
  | fail offset fault hts hoffset =>
    cases uniform_ofTokens us with
    | ok sheet hus =>
      rw [hts, hus, Progress.fail_empty] at hempty
      cases hempty
    | fail offset' fault' hus hoffset' =>
      rw [hts, hus, Progress.fail_empty, Progress.fail_empty] at hempty
      cases hempty
      obtain ⟨t, ht, rfl⟩ := hoffset
      obtain ⟨u, hu, rfl⟩ := hoffset'
      exact Or.inr ⟨t, ht, u, hu, fault, fun source => ⟨hts source, hus source⟩⟩

/-- The block tree of some tokens is that of the tokens without the trivia. -/
theorem ofTokens_filter_eq_ok_iff :
    ofTokens source (ts.filter (!·.token.isTrivia)) = .ok sheet ↔
      ofTokens source ts = .ok sheet := by
  have hfilter : (ts.filter (!·.token.isTrivia)).filter (!·.token.isTrivia) =
      ts.filter (!·.token.isTrivia) := by simp
  rcases ofTokens_of_filter_eq hfilter with ⟨sheet', hsame⟩ | ⟨t, -, u, -, fault, hsame⟩
  · rw [(hsame source).1, (hsame source).2]
  · rw [(hsame source).1, (hsame source).2]
    exact iff_of_false Progress.fail_ne_ok Progress.fail_ne_ok

end Stylesheet

end CartoStyle.Sheet
