import CartoStyle.Proofs.Sheet.Grammar

/-!
What the parser has read of a header after a run of header tokens: its
alternatives, its title, and whether anything but titles was among them. A
header can open a block exactly if some selector in it has a text.
-/

namespace CartoStyle.Sheet

/-- The joined selector texts between the commas of a header, empty ones included, with a
text in front of the first. -/
def piecesFrom (text : String) (header : List Token) : List String :=
  ((header.splitOn .comma).map fun piece =>
    String.join (piece.filterMap Token.asSelector?)).modifyHead (text ++ ·)

theorem piecesFrom_nil (text : String) : piecesFrom text [] = [text] := by
  simp [piecesFrom]

theorem piecesFrom_empty (ts : List Token) :
    piecesFrom "" ts =
      (ts.splitOn .comma).map fun piece => String.join (piece.filterMap Token.asSelector?) := by
  unfold piecesFrom
  cases ts.splitOn Token.comma <;> simp

theorem piecesFrom_comma (text : String) (ts : List Token) :
    piecesFrom text (.comma :: ts) = text :: piecesFrom "" ts := by
  rw [piecesFrom_empty]
  simp [piecesFrom, List.splitOn, List.splitOnP_cons_eq_if_modifyHead]

/-- A token other than a comma puts its text in front of the first piece. -/
theorem piecesFrom_cons (text : String) {t : Token} (ht : t ≠ .comma) (ts : List Token) :
    piecesFrom text (t :: ts) = piecesFrom (text ++ t.asSelector?.getD "") ts := by
  have hbeq : (t == Token.comma) = false := beq_eq_false_iff_ne.mpr ht
  simp only [piecesFrom, List.splitOn, List.splitOnP_cons_eq_if_modifyHead, hbeq]
  cases hparts : ts.splitOnP (· == Token.comma) with
  | nil => exact absurd hparts (List.splitOnP_ne_nil _ _)
  | cons part parts =>
    cases hsel : t.asSelector? <;> simp [hsel, String.append_assoc]

theorem alternativesOf_eq_filter (header : List Token) :
    alternativesOf header = (piecesFrom "" header).filter (!·.isEmpty) := by
  rw [piecesFrom_empty]
  rfl

/-- No piece has a text exactly if no selector has one. -/
theorem filter_piecesFrom_eq_nil_iff (text : String) (ts : List Token) :
    (piecesFrom text ts).filter (!·.isEmpty) = [] ↔
      text = "" ∧ ∀ t ∈ ts, ∀ s, t.asSelector? = some s → s = "" := by
  induction ts generalizing text with
  | nil => simp [piecesFrom_nil]
  | cons t ts ih =>
    by_cases ht : t = .comma
    · subst ht
      have hrest := ih ""
      simp only [true_and] at hrest
      have hcomma : Token.comma.asSelector? = none := rfl
      by_cases htext : text = "" <;> simp [piecesFrom_comma, htext, hrest, hcomma]
    · rw [piecesFrom_cons text ht, ih, String.append_eq_empty_iff]
      cases hsel : t.asSelector? <;> simp [hsel, and_assoc]

/-- A header has an alternative exactly if one of its selectors has a text. -/
theorem alternativesOf_eq_nil_iff (ts : List Token) :
    alternativesOf ts = [] ↔ ∀ t ∈ ts, ∀ text, t.asSelector? = some text → text = "" := by
  rw [alternativesOf_eq_filter, filter_piecesFrom_eq_nil_iff]
  simp only [true_and]

theorem isHeader_iff {ts : List Token} :
    IsHeader ts ↔ (∀ t ∈ ts, t.isHeader = true) ∧ alternativesOf ts ≠ [] := by
  rw [ne_eq, alternativesOf_eq_nil_iff]
  constructor
  · rintro ⟨hmem, t, ht, text, hsel, hne⟩
    exact ⟨hmem, fun h => hne (h t ht text hsel)⟩
  · rintro ⟨hmem, hsome⟩
    refine ⟨hmem, Classical.byContradiction fun hno => hsome ?_⟩
    intro t ht text hsel
    exact Classical.byContradiction fun hne => hno ⟨t, ht, text, hsel, hne⟩

namespace Header

def pushAll (h : Header) (ts : List Token) : Header := ts.foldl push h

theorem pushAll_cons (h : Header) (t : Token) (ts : List Token) :
    h.pushAll (t :: ts) = (h.push t).pushAll ts := rfl

/-- The alternatives in progress grow by the pieces of the tokens that follow. -/
theorem selectors_pushAll (h : Header) (ts : List Token) :
    (h.pushAll ts).selectors =
      h.finished ++ (piecesFrom h.current ts).filter (!·.isEmpty) := by
  induction ts generalizing h with
  | nil =>
    by_cases hempty : h.current.isEmpty = true <;>
      simp [pushAll, piecesFrom_nil, selectors, hempty]
  | cons t ts ih =>
    rw [pushAll_cons, ih]
    by_cases ht : t = .comma
    · subst ht
      rw [piecesFrom_comma]
      by_cases hempty : h.current.isEmpty = true <;>
        simp [push, selectors, hempty]
    · rw [piecesFrom_cons _ ht]
      cases t <;> simp_all [push, Token.asSelector?]

theorem title_pushAll (h : Header) (ts : List Token) :
    (h.pushAll ts).title = (titleOf? ts).or h.title := by
  induction ts generalizing h with
  | nil => rfl
  | cons t ts ih =>
    rw [pushAll_cons, ih]
    cases htitle : t.asTitle? with
    | none => cases t <;> simp_all [push, titleOf?, Token.asTitle?]
    | some text =>
      cases t <;> simp_all [push, titleOf?, Token.asTitle?, List.getLast?_cons]

/-- Anything but a title makes a header select. -/
theorem selects_pushAll (h : Header) {ts : List Token} (hts : ∀ t ∈ ts, t.isHeader = true) :
    (h.pushAll ts).selects = (h.selects || ts.any (·.asTitle?.isNone)) := by
  induction ts generalizing h with
  | nil => simp [pushAll]
  | cons t ts ih =>
    have ht := hts t List.mem_cons_self
    rw [pushAll_cons, ih _ fun u hu => hts u (List.mem_cons_of_mem t hu)]
    cases t <;> simp_all [push, Token.asTitle?, Token.isHeader]

end Header

end CartoStyle.Sheet
