import CartoStyle.Proofs.Sheet.Closed
import CartoStyle.Proofs.Value.Rendering

/-!
The value texts of expressions as values of properties. They close what they open,
trimming leaves them alone, and none of them is the word for an absent value.
-/

namespace CartoStyle.PropertyValue

open Lexeme Sheet

/-- The text may be the value of a property in a row. -/
structure IsSteady (text : String) : Prop where
  closed : IsClosed 0 text.toList
  ne_empty : text ≠ ""
  trimmed : Text.FreeEnds Text.isBlank text.toList
  ne_none : text ≠ "none"

theorem IsSteady.isValue {text : String} (h : IsSteady text) : IsValue text :=
  h.closed.isValue h.ne_empty h.trimmed

/-- Printing characters without a meaning in values make up a steady text. -/
theorem isSteady_of_plain {text : String} {c : Char} {cs : List Char} (hcs : text.toList = c :: cs)
    (h : ∀ d ∈ c :: cs, isPlain d = true ∧ Text.isBlank d = false) (hnone : text ≠ "none") :
    IsSteady text where
  closed := by
    rw [hcs]
    exact isClosed_of_isPlain fun d hd => (h d hd).1
  ne_empty := by
    rintro rfl
    cases hcs
  trimmed := by
    rw [hcs]
    exact .of_forall fun d hd => (h d hd).2
  ne_none := hnone

/-- Letters, digits and the other characters of words are plain. -/
theorem plain_of_isWordChar {c : Char} (h : isWordChar c = true) :
    isPlain c = true ∧ Text.isBlank c = false := by
  refine ⟨isPlain_of_not_mem (Text.not_mem_of_all (by decide) h), ?_⟩
  have hc : ((((c.isAlphanum = true ∨ c = '_') ∨ c = '-') ∨ c = '.') ∨ c = ':') ∨ c = '/' := by
    simpa [isWordChar] using h
  rcases hc with ((((hc | rfl) | rfl) | rfl) | rfl) | rfl
  · exact Text.isBlank_of_isAlphanum hc
  all_goals rfl

theorem plain_of_isWordFirst {c : Char} (h : isWordFirst c = true) :
    isPlain c = true ∧ Text.isBlank c = false := by
  refine ⟨isPlain_of_not_mem (Text.not_mem_of_all (by decide) h), ?_⟩
  have hc : (c.isAlpha = true ∨ c = '_') ∨ c = '@' := by simpa [isWordFirst] using h
  rcases hc with (hc | rfl) | rfl
  · exact Text.isBlank_of_isAlphanum (by simp [Char.isAlphanum, hc])
  all_goals rfl

theorem isWordChar_of_isHexDigit {c : Char} (h : isHexDigit c = true) : isWordChar c = true := by
  have halnum : c.isAlphanum = true := by
    simp only [isHexDigit, Bool.or_eq_true, Bool.and_eq_true, decide_eq_true_eq, Char.le_def,
      UInt32.le_iff_toNat_le] at h
    rw [Text.isAlphanum_iff]
    rcases h with (h | h) | h
    · exact Or.inr (Text.isDigit_iff.mp h)
    all_goals
      obtain ⟨hlow, hhigh⟩ := h
      simp only [Char.reduceVal, UInt32.reduceToNat, ← Char.toNat_val] at hlow hhigh ⊢
      omega
  simp [isWordChar, halnum]

theorem isSteady_hex {colour : String} (h : IsHex colour) : IsSteady colour := by
  obtain ⟨ds, hcolour, -, hds⟩ := h
  refine isSteady_of_plain hcolour (List.forall_mem_cons.mpr ⟨by decide, fun d hd =>
    plain_of_isWordChar (isWordChar_of_isHexDigit (hds d hd))⟩) ?_
  rintro rfl
  have hfirst := congrArg List.head? hcolour
  simp at hfirst

theorem isWordChar_of_numeral {c : Char} (h : numeral.occurs c = true) : isWordChar c = true := by
  rcases eq_of_occurs_numeral h with hc | rfl | rfl
  · simp [isWordChar, Char.isAlphanum, hc]
  · rfl
  · rfl

theorem isSteady_number {x : Float} (hx : Decimal.IsFinite x) : IsSteady (Decimal.display x) := by
  have hoccurs := Pattern.occurs_of_matches (Decimal.matches_display hx)
  have hne : (Decimal.display x).toList ≠ [] := by
    intro hnil
    have hmatch := Decimal.matches_display hx
    rw [hnil, ← Pattern.acceptsEmpty_iff] at hmatch
    cases hmatch
  obtain ⟨c, cs, hcs⟩ := List.exists_cons_of_ne_nil hne
  refine isSteady_of_plain hcs (fun d hd => plain_of_isWordChar (isWordChar_of_numeral ?_)) ?_
  · rw [← hcs] at hd
    exact hoccurs d hd
  · intro hnone
    have hn := hoccurs 'n' (by rw [hnone]; decide)
    cases hn

theorem ne_none_of_head {text : String} {c : Char} (h : text.toList.head? = some c)
    (hc : c ≠ 'n') : text ≠ "none" := by
  rintro rfl
  obtain rfl : 'n' = c := by simpa using h
  exact hc rfl

/-- A quoted text is steady if it is quoted in a way that reads back. -/
theorem isSteady_quote {s : String} (h : IsQuotable s) : IsSteady (Text.quote s) := by
  obtain ⟨q, hq, hmem, hquote⟩ := Text.exists_quote_eq h
  refine ⟨?_, ?_, ?_, ?_⟩
  · rw [hquote]
    exact isClosed_quoted hq hmem
  · intro hempty
    rw [hempty] at hquote
    cases hquote
  · rw [hquote]
    exact Text.freeEnds_quoted hq s.toList
  · refine ne_none_of_head (c := q) (by rw [hquote]; rfl) ?_
    rintro rfl
    cases hq

theorem isSteady_text {s : String} (h : IsQuotable s) :
    IsSteady (Expression.text s).valueText := by
  rw [Expression.text, Expression.valueText, Expression.literalText]
  by_cases hbare : Text.isBareWord s = true
  · obtain ⟨⟨c, cs, hs, hc, hcs⟩, hplain⟩ := isWord_of_isBareWord hbare
    rw [if_pos hbare]
    refine isSteady_of_plain hs (List.forall_mem_cons.mpr ⟨plain_of_isWordFirst hc, fun d hd =>
      plain_of_isWordChar (hcs d hd)⟩) ?_
    rintro rfl
    exact hplain (by decide)
  · rw [if_neg hbare]
    exact isSteady_quote h

theorem toList_ne_of_mem {text : String} {c : Char} (h : c ∈ text.toList)
    (hc : c ∉ "none".toList) : text ≠ "none" := by
  rintro rfl
  exact hc h

/-- A word in front of a closed text in parentheses. -/
theorem isSteady_call {w text : String} (hw : IsWord w) {inner : List Char}
    (hinner : IsClosed 1 inner) (htext : text.toList = w.toList ++ '(' :: (inner ++ [')'])) :
    IsSteady text := by
  obtain ⟨c, cs, hcs, hc, hrest⟩ := hw
  have hword : IsClosed 0 w.toList := by
    rw [hcs]
    exact isClosed_of_isPlain (List.forall_mem_cons.mpr ⟨(plain_of_isWordFirst hc).1, fun d hd =>
      (plain_of_isWordChar (hrest d hd)).1⟩)
  refine ⟨?_, ?_, ⟨?_, ?_⟩, ?_⟩
  · rw [htext]
    exact hword.append (isClosed_enclosed (Or.inl rfl) hinner)
  · rintro rfl
    simp at htext
  · intro d hd
    rw [htext, hcs] at hd
    cases hd
    exact (plain_of_isWordFirst hc).2
  · intro d hd
    have hsplit : text.toList = (w.toList ++ '(' :: inner) ++ [')'] := by simp [htext]
    rw [hsplit, List.getLast?_concat] at hd
    cases hd
    rfl
  · exact toList_ne_of_mem (c := '(') (by simp [htext]) (by decide)

theorem isSteady_drawing {op : Operator} (hop : op = .symbol ∨ op = .url) {s : String}
    (h : IsQuotable s) : IsSteady (Expression.apply op [.text s]).valueText :=
  isSteady_call (isWord_drawing hop) ((isSteady_quote h).closed.mono (Nat.zero_le 1))
    (toList_valueText_drawing hop s)

theorem isSteady_brace {name : String} (h : IsClosed 1 name.toList) :
    IsSteady (Expression.apply .brace [.get name]).valueText := by
  have htext : (Expression.apply .brace [.get name]).valueText.toList =
      '[' :: (name.toList ++ [']']) := by
    simp [Expression.valueText, Expression.valueTexts, Expression.get, Expression.plainFirst,
      Expression.text]
  refine ⟨?_, ?_, ⟨?_, ?_⟩, ?_⟩
  · rw [htext]
    exact isClosed_enclosed (Or.inr rfl) h
  · intro hempty
    rw [hempty] at htext
    cases htext
  · intro c hc
    rw [htext] at hc
    cases hc
    rfl
  · intro c hc
    rw [htext, ← List.cons_append, List.getLast?_concat] at hc
    cases hc
    rfl
  · exact ne_none_of_head (c := '[') (by rw [htext]; rfl) (by decide)

/-- The texts of atoms with blanks between them. -/
theorem isSteady_words {texts : List String} (hne : texts ≠ []) (h : ∀ t ∈ texts, IsSteady t) :
    IsSteady (" ".intercalate texts) := by
  induction texts with
  | nil => exact absurd rfl hne
  | cons t texts ih =>
    have ht := h t List.mem_cons_self
    by_cases hnil : texts = []
    · subst hnil
      simpa using ht
    · have hmore := ih hnil fun u hu => h u (List.mem_cons_of_mem t hu)
      have hspace : IsClosed 0 [' '] := isClosed_of_isPlain (List.forall_mem_singleton.mpr rfl)
      have htext : (" ".intercalate (t :: texts)).toList =
          t.toList ++ ([' '] ++ (" ".intercalate texts).toList) := by
        rw [String.intercalate_cons_of_ne_nil hnil]
        simp
      refine ⟨?_, ?_, ?_, ?_⟩
      · rw [htext]
        exact ht.closed.append (hspace.append hmore.closed)
      · intro hempty
        rw [hempty] at htext
        simp at htext
      · rw [htext]
        exact ht.trimmed.between hmore.trimmed (by simpa using ht.ne_empty)
          (mt String.toList_eq_nil_iff.mp hmore.ne_empty) [' ']
      · exact toList_ne_of_mem (c := ' ') (by simp [htext]) (by decide)

end CartoStyle.PropertyValue
