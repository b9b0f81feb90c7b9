import CartoStyle.Proofs.Text.Boundary
import CartoStyle.Sheet.Nesting

/-!
Positions identify byte offsets. One more character moves a position forward, so boundaries have
positions in their own order. The line of a position counts the line feeds in front of it and the
column the characters since the last of them, so the text from the position on is found again,
and with it the offset.
-/

namespace CartoStyle.Position

section Order

/-- The line first, then the column. -/
def key (p : Position) : ℕ ×ₗ ℕ := toLex (p.line, p.column)

theorem key_injective : Function.Injective key := by
  rintro ⟨line, column⟩ ⟨line', column'⟩ h
  simpa [key] using h

/-- A position is before another if its line is, or in the same line if its column is. -/
instance : PartialOrder Position := PartialOrder.lift key key_injective

theorem lt_iff {p q : Position} :
    p < q ↔ p.line < q.line ∨ p.line = q.line ∧ p.column < q.column :=
  Prod.Lex.lt_iff

theorem lt_advance (p : Position) (c : Char) : p < p.advance c := by
  by_cases hc : c = '\n'
  · rw [advance, if_pos hc]
    exact lt_iff.mpr (Or.inl (Nat.lt_succ_self p.line))
  · rw [advance, if_neg hc]
    exact lt_iff.mpr (Or.inr ⟨rfl, Nat.lt_succ_self p.column⟩)

theorem le_foldl_advance (p : Position) (cs : List Char) : p ≤ cs.foldl advance p := by
  induction cs generalizing p with
  | nil => exact le_refl p
  | cons c cs ih => exact (lt_advance p c).le.trans (ih (p.advance c))

theorem after_append (xs ys : List Char) : after (xs ++ ys) = ys.foldl advance (after xs) :=
  List.foldl_append

theorem after_lt_after_append (xs : List Char) {ys : List Char} (hne : ys ≠ []) :
    after xs < after (xs ++ ys) := by
  obtain ⟨c, cs, rfl⟩ := List.exists_cons_of_ne_nil hne
  rw [after_append]
  exact (lt_advance _ c).trans_le (le_foldl_advance _ cs)

end Order

section Lines

/-- A line begins behind these characters: they are none, or a line feed is the last of them. -/
def OpensLine (front : List Char) : Prop := front = [] ∨ front.getLast? = some '\n'

theorem exists_opensLine (cs : List Char) :
    ∃ front line, cs = front ++ line ∧ OpensLine front ∧ '\n' ∉ line := by
  induction cs using List.reverseRecOn with
  | nil => exact ⟨[], [], rfl, Or.inl rfl, List.not_mem_nil⟩
  | append_singleton cs c ih =>
    obtain ⟨front, line, rfl, hfront, hline⟩ := ih
    -- One more character ends the line or belongs to it.
    by_cases hc : c = '\n'
    · subst hc
      exact ⟨front ++ line ++ ['\n'], [], (List.append_nil _).symm,
        Or.inr List.getLast?_concat, List.not_mem_nil⟩
    · refine ⟨front, line ++ [c], List.append_assoc _ _ _, hfront, ?_⟩
      simpa [hline] using Ne.symm hc

/-- The line counts the line feeds. -/
theorem line_foldl_advance (p : Position) (cs : List Char) :
    (cs.foldl advance p).line = p.line + cs.count '\n' := by
  induction cs generalizing p with
  | nil => rfl
  | cons c cs ih =>
    rw [List.foldl_cons, ih, List.count_cons, advance]
    by_cases hc : c = '\n'
    · simp only [hc, if_true, BEq.rfl]
      omega
    · simp [hc]

/-- Within a line the column counts the characters. -/
theorem foldl_advance_of_not_mem (p : Position) {cs : List Char} (h : '\n' ∉ cs) :
    cs.foldl advance p = ⟨p.line, p.column + cs.length⟩ := by
  induction cs generalizing p with
  | nil => rfl
  | cons c cs ih =>
    obtain ⟨hc, hcs⟩ := not_or.mp (mt List.mem_cons.mpr h)
    rw [List.foldl_cons, ih _ hcs, advance, if_neg (Ne.symm hc), List.length_cons,
      Nat.add_assoc, Nat.add_comm 1]

theorem line_after (cs : List Char) : (after cs).line = cs.count '\n' + 1 := by
  rw [after, line_foldl_advance, Nat.add_comm]
  rfl

theorem after_of_opensLine {front : List Char} (h : OpensLine front) :
    after front = ⟨front.count '\n' + 1, 1⟩ := by
  rcases h with rfl | hlast
  · rfl
  · obtain ⟨cs, rfl⟩ := List.getLast?_eq_some_iff.mp hlast
    rw [after_append, List.foldl_cons, List.foldl_nil, advance, if_pos rfl, line_after,
      List.count_append, List.count_singleton_self]

theorem after_append_of_opensLine {front line : List Char} (hfront : OpensLine front)
    (hline : '\n' ∉ line) : after (front ++ line) = ⟨front.count '\n' + 1, line.length + 1⟩ := by
  rw [after_append, foldl_advance_of_not_mem _ hline, after_of_opensLine hfront, Nat.add_comm 1]

end Lines

section Recovery

/-- The text after its n-th line feed; nothing if it has fewer. -/
def afterLineFeeds? : Nat → List Char → Option (List Char)
  | 0, cs => some cs
  | _ + 1, [] => none
  | n + 1, c :: cs => if c = '\n' then afterLineFeeds? n cs else afterLineFeeds? (n + 1) cs

@[simp] theorem afterLineFeeds?_zero (cs : List Char) : afterLineFeeds? 0 cs = some cs := by
  cases cs <;> rfl

/-- The byte offset that a position stands for: behind the line feeds that end the lines before
its own, and behind the characters that come before it in its line. Nothing if the text has fewer
lines, or the line fewer characters. -/
def offset? (source : String) : Position → Option Nat
  | ⟨line + 1, column + 1⟩ =>
    (afterLineFeeds? line source.toList).bind fun text =>
      if column ≤ (text.takeWhile (· != '\n')).length then
        some (source.utf8ByteSize - byteLength (text.drop column))
      else none
  | _ => none

theorem afterLineFeeds?_append {front : List Char} (h : OpensLine front) (text : List Char) :
    afterLineFeeds? (front.count '\n') (front ++ text) = some text := by
  induction front with
  | nil => exact afterLineFeeds?_zero text
  | cons c cs ih =>
    have hlast : (c :: cs).getLast? = some '\n' := h.resolve_left (List.cons_ne_nil c cs)
    cases cs with
    | nil =>
      obtain rfl : c = '\n' := Option.some.inj hlast
      exact afterLineFeeds?_zero text
    | cons d ds =>
      rw [List.getLast?_cons_cons] at hlast
      have hrest := ih (Or.inr hlast)
      by_cases hc : c = '\n'
      · subst hc
        rw [List.count_cons_self, List.cons_append, afterLineFeeds?, if_pos rfl]
        exact hrest
      · -- The line feed that ends the front is still to come.
        obtain ⟨n, hn⟩ := Nat.exists_eq_succ_of_ne_zero
          (List.count_pos_iff.mpr (List.mem_of_getLast? hlast)).ne'
        rw [List.count_cons_of_ne hc, hn, List.cons_append, afterLineFeeds?, if_neg hc]
        rw [hn] at hrest
        exact hrest

theorem offset?_after {source : String} {before text : List Char}
    (h : source.toList = before ++ text) :
    offset? source (after before) = some (byteLength before) := by
  -- The position counts the line feeds of the front and the characters of the line.
  obtain ⟨front, line, rfl, hfront, hline⟩ := exists_opensLine before
  rw [List.append_assoc] at h
  have hpos : ∀ c ∈ line, (c != '\n') = true := fun c hc =>
    bne_iff_ne.mpr (ne_of_mem_of_not_mem hc hline)
  have hfits : line.length ≤ ((line ++ text).takeWhile (· != '\n')).length := by
    rw [List.takeWhile_append_of_pos hpos, List.length_append]
    exact Nat.le_add_right _ _
  have hsize : source.utf8ByteSize = byteLength (front ++ line) + byteLength text := by
    rw [← byteLength_toList, h, ← List.append_assoc, byteLength_append]
  rw [after_append_of_opensLine hfront hline, offset?, h, afterLineFeeds?_append hfront,
    Option.bind_some, if_pos hfits, List.drop_left, hsize, Nat.add_sub_cancel]

end Recovery

section Offsets

variable {source : String} {a b : Nat}

theorem exists_ofOffset_lt (ha : IsBoundary source a) (hb : IsBoundary source b) (h : a < b) :
    ∃ p q, ofOffset source a = .ok p ∧ ofOffset source b = .ok q ∧ p < q := by
  obtain ⟨first, rest, hfirst, rfl⟩ := isBoundary_iff.mp ha
  obtain ⟨second, rest', hsecond, rfl⟩ := isBoundary_iff.mp hb
  obtain ⟨between, rfl, hne⟩ :=
    exists_append_of_byteLength_lt (hfirst.symm.trans hsecond) h
  exact ⟨_, _, ofOffset_byteLength hfirst, ofOffset_byteLength hsecond,
    after_lt_after_append first hne⟩

theorem exists_ofOffset_offset? (h : IsBoundary source a) :
    ∃ p, ofOffset source a = .ok p ∧ offset? source p = some a := by
  obtain ⟨before, text, hsplit, rfl⟩ := isBoundary_iff.mp h
  exact ⟨_, ofOffset_byteLength hsplit, offset?_after hsplit⟩

/-- Faults at different boundaries are reported at different places. -/
theorem place_ne_of_fail {α : Type} {fault fault' : SheetFault} {place place' : Position}
    (ha : IsBoundary source a) (hb : IsBoundary source b) (hne : a ≠ b)
    (hfail : (Sheet.Progress.fail source a fault : Except Error α) =
      .error (.nesting place fault))
    (hfail' : (Sheet.Progress.fail source b fault' : Except Error α) =
      .error (.nesting place' fault')) : place ≠ place' := by
  obtain ⟨p, hp, hback⟩ := exists_ofOffset_offset? ha
  obtain ⟨q, hq, hback'⟩ := exists_ofOffset_offset? hb
  rw [Sheet.Progress.fail, hp] at hfail
  rw [Sheet.Progress.fail, hq] at hfail'
  cases hfail
  cases hfail'
  rintro rfl
  exact hne (Option.some.inj (hback.symm.trans hback'))

/-- Every boundary has a position, the positions are in the order of the boundaries, and a
position leads back to its boundary. So no two boundaries share the place that an error at one
of them is reported at. -/
theorem ofOffset_strictMono_and_inverse (source : String) :
    (∀ a b, IsBoundary source a → IsBoundary source b → a < b →
      ∃ p q, ofOffset source a = .ok p ∧ ofOffset source b = .ok q ∧ p < q) ∧
    (∀ a, IsBoundary source a → ∃ p, ofOffset source a = .ok p ∧ offset? source p = some a) ∧
    ∀ a b, IsBoundary source a → IsBoundary source b → a ≠ b →
      ∀ (α : Type) (fault fault' : SheetFault) (place place' : Position),
        (Sheet.Progress.fail source a fault : Except Error α) = .error (.nesting place fault) →
        (Sheet.Progress.fail source b fault' : Except Error α) =
          .error (.nesting place' fault') → place ≠ place' :=
  ⟨fun _ _ => exists_ofOffset_lt, fun _ => exists_ofOffset_offset?,
    fun _ _ ha hb hne _ _ _ _ _ => place_ne_of_fail ha hb hne⟩

def wideSource : String := "é\r\n日b"

/-- The line begins at byte four and its second character at byte seven. -/
theorem ofOffset_wideSource :
    IsBoundary wideSource 4 ∧ IsBoundary wideSource 7 ∧
      (∃ p q, ofOffset wideSource 4 = .ok p ∧ ofOffset wideSource 7 = .ok q ∧ p < q) ∧
      ofOffset wideSource 4 = .ok ⟨2, 1⟩ ∧ ofOffset wideSource 7 = .ok ⟨2, 2⟩ ∧
      (∃ p, ofOffset wideSource 7 = .ok p ∧ offset? wideSource p = some 7) ∧
      (⟨2, 1⟩ : Position) ≠ ⟨2, 2⟩ := by
  obtain ⟨hlt, hback, hplaces⟩ := ofOffset_strictMono_and_inverse wideSource
  have hline : IsBoundary wideSource 4 :=
    isBoundary_iff.mpr ⟨['é', '\r', '\n'], ['日', 'b'], rfl, rfl⟩
  have hsecond : IsBoundary wideSource 7 :=
    isBoundary_iff.mpr ⟨['é', '\r', '\n', '日'], ['b'], rfl, rfl⟩
  exact ⟨hline, hsecond, hlt 4 7 hline hsecond (by decide), rfl, rfl, hback 7 hsecond,
    hplaces 4 7 hline hsecond (by decide) Unit .strayClose .unclosedBlock _ _ rfl rfl⟩

end Offsets

end CartoStyle.Position
