import CartoStyle.Proofs.Sheet.Declaration

/-!
Texts that close what they open. They can be put together, quoted or set in
brackets without disturbing the text around them, and one without a comma at its
top level is a value.
-/

namespace CartoStyle.Sheet

open Text

/-- With so many brackets around it, the text closes what it opens, has no comma outside all
brackets, and ends no declaration. -/
structure IsClosed (depth : Nat) (cs : List Char) : Prop where
  after : ∀ d, depth ≤ d → Nesting.after ⟨none, d⟩ cs = ⟨none, d⟩
  whole : ∀ d, depth ≤ d → splitFrom ',' ⟨none, d⟩ cs = [cs]
  guarded : isGuarded none cs = true

variable {depth : Nat} {c : Char} {cs ds : List Char}

theorem isClosed_nil : IsClosed depth [] := ⟨fun _ _ => rfl, fun _ _ => rfl, rfl⟩

theorem IsClosed.mono {more : Nat} (hle : depth ≤ more) (h : IsClosed depth cs) :
    IsClosed more cs where
  after d hd := h.after d (Nat.le_trans hle hd)
  whole d hd := h.whole d (Nat.le_trans hle hd)
  guarded := h.guarded

theorem IsClosed.append (h : IsClosed depth cs) (h' : IsClosed depth ds) :
    IsClosed depth (cs ++ ds) where
  after d hd := by rw [Nesting.after_append, h.after d hd, h'.after d hd]
  whole d hd := by
    rw [splitFrom_append (h.whole d hd), h.after d hd, h'.whole d hd]
    rfl
  guarded := isGuarded_append h.guarded h'.guarded

/-- A character that has no meaning to the scan of a value. -/
def isPlain (c : Char) : Bool :=
  !Nesting.isReserved c && c != ',' && !"\x7b\x7d;".toList.contains c

def specialChars : List Char := ['\'', '"', '(', '[', ')', ']', ',', '\x7b', '\x7d', ';']

theorem isPlain_of_not_mem (h : c ∉ specialChars) : isPlain c = true := by
  simp only [specialChars, List.mem_cons, not_or] at h
  simp [isPlain, Nesting.isReserved, h]

theorem splitFrom_cons {st : Nesting} (h : st.splitsAt ',' c = false) :
    splitFrom ',' st (c :: cs) = (splitFrom ',' (st.step c) cs).modifyHead (c :: ·) := by
  rw [splitFrom, if_neg (by simp [h])]

theorem isClosed_single {d : Nat} (hreserved : Nesting.isReserved c = false)
    (hcomma : c ≠ ',' ∨ 0 < d) (hguarded : "\x7b\x7d;".toList.contains c = false) :
    IsClosed d [c] := by
  have hstep (n : Nat) : Nesting.step ⟨none, n⟩ c = ⟨none, n⟩ := by
    simp only [Nesting.isReserved, Bool.or_eq_false_iff] at hreserved
    simp [Nesting.step, hreserved]
  refine ⟨fun n _ => hstep n, fun n hn => ?_, ?_⟩
  · rw [splitFrom_cons, hstep]
    · rfl
    · rcases hcomma with hcomma | hpos
      · simp [Nesting.splitsAt, hcomma]
      · have hne : n ≠ 0 := by omega
        simp [Nesting.splitsAt, Nesting.top, hne]
  · simp only [Nesting.isReserved, Bool.or_eq_false_iff] at hreserved
    have hquote : isQuote c = false := by simp [isQuote, hreserved]
    rw [isGuarded, if_neg (by simp [hquote]), hguarded]
    rfl

theorem isClosed_of_isPlain (h : ∀ c ∈ cs, isPlain c = true) : IsClosed depth cs := by
  induction cs with
  | nil => exact isClosed_nil
  | cons c cs ih =>
    have hc := h c List.mem_cons_self
    simp only [isPlain, Bool.and_eq_true, Bool.not_eq_true', bne_iff_ne, ne_eq] at hc
    exact (isClosed_single hc.1.1 (Or.inl hc.1.2) hc.2).append
      (ih fun d hd => h d (List.mem_cons_of_mem c hd))

/-- Inside brackets a comma separates nothing. -/
theorem isClosed_comma : IsClosed (depth + 1) [',', ' '] :=
  (isClosed_single rfl (Or.inr (Nat.succ_pos depth)) rfl).append
    (isClosed_of_isPlain (List.forall_mem_singleton.mpr rfl))

/-- Quotes around a text without them close. -/
theorem isClosed_quoted {q : Char} (hq : isQuote q = true) (h : q ∉ cs) :
    IsClosed depth (q :: (cs ++ [q])) := by
  have hinner : (∀ d, Nesting.after ⟨some q, d⟩ (cs ++ [q]) = ⟨none, d⟩) ∧
      (∀ d, splitFrom ',' ⟨some q, d⟩ (cs ++ [q]) = [cs ++ [q]]) ∧
      isGuarded (some q) (cs ++ [q]) = true := by
    induction cs with
    | nil =>
      refine ⟨fun d => ?_, fun d => ?_, ?_⟩
      · simp [Nesting.after, Nesting.step]
      · rw [List.nil_append, splitFrom_cons (by simp [Nesting.splitsAt, Nesting.top])]
        simp [splitFrom]
      · simp [isGuarded]
    | cons c cs ih =>
      rw [List.mem_cons, not_or] at h
      obtain ⟨hne, hmem⟩ := h
      obtain ⟨hafter, hwhole, hguarded⟩ := ih hmem
      have hstep (d : Nat) : Nesting.step ⟨some q, d⟩ c = ⟨some q, d⟩ := by
        simp [Nesting.step, Ne.symm hne]
      refine ⟨fun d => ?_, fun d => ?_, ?_⟩
      · rw [List.cons_append]
        show Nesting.after (Nesting.step ⟨some q, d⟩ c) (cs ++ [q]) = _
        rw [hstep, hafter]
      · rw [List.cons_append, splitFrom_cons (by simp [Nesting.splitsAt, Nesting.top]), hstep,
          hwhole]
        rfl
      · rw [List.cons_append, isGuarded, if_neg (by simpa using Ne.symm hne)]
        exact hguarded
  obtain ⟨hafter, hwhole, hguarded⟩ := hinner
  have hquote : (q == '\'' || q == '"') = true := hq
  have hstep (d : Nat) : Nesting.step ⟨none, d⟩ q = ⟨some q, d⟩ := by
    simp only [Nesting.step, hquote, if_true]
  refine ⟨fun d _ => ?_, fun d _ => ?_, ?_⟩
  · show Nesting.after (Nesting.step ⟨none, d⟩ q) (cs ++ [q]) = _
    rw [hstep, hafter]
  · have hreserved : Nesting.isReserved q = true := by simp [Nesting.isReserved, hquote]
    rw [splitFrom_cons (by simp [Nesting.splitsAt, hreserved]), hstep, hwhole]
    rfl
  · rw [isGuarded, if_pos hq]
    exact hguarded

/-- Brackets around a text that is closed inside them. -/
theorem isClosed_enclosed {o c : Char} (hpair : (o, c) = ('(', ')') ∨ (o, c) = ('[', ']'))
    (h : IsClosed (depth + 1) cs) : IsClosed depth (o :: (cs ++ [c])) := by
  have hopen (d : Nat) : Nesting.step ⟨none, d⟩ o = ⟨none, d + 1⟩ := by
    rcases hpair with hpair | hpair <;> cases hpair <;> rfl
  have hclose (d : Nat) : Nesting.step ⟨none, d + 1⟩ c = ⟨none, d⟩ := by
    rcases hpair with hpair | hpair <;> cases hpair <;> rfl
  have hreserved : Nesting.isReserved o = true ∧ Nesting.isReserved c = true := by
    rcases hpair with hpair | hpair <;> cases hpair <;> decide
  have hguards : isGuarded none [o] = true ∧ isGuarded none [c] = true := by
    rcases hpair with hpair | hpair <;> cases hpair <;> decide
  refine ⟨fun d hd => ?_, fun d hd => ?_, ?_⟩
  · show Nesting.after (Nesting.step ⟨none, d⟩ o) (cs ++ [c]) = _
    rw [hopen, Nesting.after_append, h.after (d + 1) (Nat.succ_le_succ hd)]
    exact hclose d
  · rw [splitFrom_cons (by simp [Nesting.splitsAt, hreserved.1]), hopen,
      splitFrom_append (h.whole (d + 1) (Nat.succ_le_succ hd)),
      h.after (d + 1) (Nat.succ_le_succ hd),
      splitFrom_cons (by simp [Nesting.splitsAt, hreserved.2])]
    rfl
  · exact isGuarded_append hguards.1 (isGuarded_append h.guarded hguards.2)

/-- Closed texts with a closed separator between them. -/
theorem isClosed_intercalate {separator : List Char} (hsep : IsClosed depth separator)
    {parts : List (List Char)} (h : ∀ p ∈ parts, IsClosed depth p) :
    IsClosed depth (separator.intercalate parts) :=
  intercalate_induction isClosed_nil (fun _ _ hx hy => hx.append hy) hsep h

/-- A closed text is a value if trimming leaves it alone. -/
theorem IsClosed.isValue {value : String} (h : IsClosed 0 value.toList)
    (hne : value ≠ "") (htrimmed : FreeEnds isBlank value.toList) : IsValue value where
  ne_empty := hne
  trimmed := htrimmed
  guarded := h.guarded
  part := ⟨h.whole 0 (Nat.le_refl 0), h.after 0 (Nat.le_refl 0)⟩

end CartoStyle.Sheet
