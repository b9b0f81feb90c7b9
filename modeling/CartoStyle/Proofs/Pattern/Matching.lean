import CartoStyle.Pattern.Longest

/-!
What the patterns that lexicons are built from match, and with which characters
their matches can begin.
-/

namespace CartoStyle.Pattern

variable {cs : List Char}

theorem matches_one_iff {accepts : Char → Bool} :
    Matches (.one accepts) cs ↔ ∃ c, cs = [c] ∧ accepts c = true := by
  constructor
  · intro h
    cases h with
    | one hc => exact ⟨_, rfl, hc⟩
  · rintro ⟨c, rfl, hc⟩
    exact .one hc

theorem matches_many_one_iff {accepts : Char → Bool} :
    Matches (.many (.one accepts)) cs ↔ ∀ c ∈ cs, accepts c = true := by
  induction cs with
  | nil => simp [Matches.done]
  | cons c cs ih =>
    rw [matches_many_cons_iff, List.forall_mem_cons, ← ih]
    constructor
    · rintro ⟨xs, ys, rfl, hx, hy⟩
      obtain ⟨d, hd, hc⟩ := matches_one_iff.mp hx
      cases hd
      exact ⟨hc, hy⟩
    · rintro ⟨hc, hcs⟩
      exact ⟨[], cs, rfl, .one hc, hcs⟩

theorem matches_atLeastOne_one_iff {accepts : Char → Bool} :
    Matches (atLeastOne (.one accepts)) cs ↔ cs ≠ [] ∧ ∀ c ∈ cs, accepts c = true := by
  rw [atLeastOne, matches_seq_iff]
  constructor
  · rintro ⟨xs, ys, rfl, hx, hy⟩
    obtain ⟨c, rfl, hc⟩ := matches_one_iff.mp hx
    exact ⟨nofun, List.forall_mem_cons.mpr ⟨hc, matches_many_one_iff.mp hy⟩⟩
  · rintro ⟨hne, hcs⟩
    cases cs with
    | nil => exact absurd rfl hne
    | cons c cs =>
      obtain ⟨hc, hrest⟩ := List.forall_mem_cons.mp hcs
      exact ⟨[c], cs, rfl, .one hc, matches_many_one_iff.mpr hrest⟩

theorem matches_foldr_one_iff {word : List Char} :
    Matches (word.foldr (fun c p => seq (one (· == c)) p) nothing) cs ↔ cs = word := by
  induction word generalizing cs with
  | nil => exact matches_nothing_iff
  | cons c word ih =>
    rw [List.foldr_cons, matches_seq_iff]
    constructor
    · rintro ⟨xs, ys, rfl, hx, hy⟩
      obtain ⟨d, rfl, hd⟩ := matches_one_iff.mp hx
      rw [ih.mp hy, eq_of_beq hd]
      rfl
    · rintro rfl
      exact ⟨[c], word, rfl, .one (beq_self_eq_true c), ih.mpr rfl⟩

/-- A fixed text matches itself alone. -/
theorem matches_literal_iff {s : String} : Matches (literal s) cs ↔ cs = s.toList :=
  matches_foldr_one_iff

theorem matches_anyOf_iff {ps : List Pattern} :
    Matches (anyOf ps) cs ↔ ∃ p ∈ ps, Matches p cs := by
  induction ps with
  | nil => simp [anyOf, not_matches_never]
  | cons p ps ih =>
    simp only [List.mem_cons, exists_eq_or_imp, ← ih]
    exact matches_alt_iff

/-- One character after the other, of the pattern that begins here and of what follows. -/
theorem Matches.cons {accepts : Char → Bool} {p : Pattern} {c : Char} (hc : accepts c = true)
    (h : Matches p cs) : Matches (.seq (.one accepts) p) (c :: cs) :=
  .seq (.one hc) h

/-- The pattern matches the text, by its remainders. -/
def accepts : Pattern → List Char → Bool
  | p, [] => p.acceptsEmpty
  | p, c :: cs => (p.after c).accepts cs

theorem accepts_iff {p : Pattern} : p.accepts cs = true ↔ Matches p cs := by
  induction cs generalizing p with
  | nil => exact acceptsEmpty_iff p
  | cons c cs ih => rw [accepts, ih, matches_after_iff]

def begins : Pattern → Char → Bool
  | never, _ => false
  | nothing, _ => false
  | one accepts, c => accepts c
  | seq a b, c => a.begins c || (a.acceptsEmpty && b.begins c)
  | alt a b, c => a.begins c || b.begins c
  | many a, c => a.begins c

/-- The first character of a match is one with which matches begin. -/
theorem begins_of_matches {p : Pattern} {c : Char} (h : Matches p (c :: cs)) :
    p.begins c = true := by
  induction p generalizing cs with
  | never => exact (not_matches_never h).elim
  | nothing => cases matches_nothing_iff.mp h
  | one accepts =>
    obtain ⟨d, hd, hc⟩ := matches_one_iff.mp h
    cases hd
    exact hc
  | seq a b iha ihb =>
    obtain ⟨xs, ys, hsplit, hx, hy⟩ := matches_seq_iff.mp h
    cases xs with
    | nil =>
      rw [List.nil_append] at hsplit
      rw [← hsplit] at hy
      simp [begins, (acceptsEmpty_iff a).mpr hx, ihb hy]
    | cons x xs =>
      cases hsplit
      simp [begins, iha hx]
  | alt a b iha ihb =>
    rcases matches_alt_iff.mp h with h | h
    · simp [begins, iha h]
    · simp [begins, ihb h]
  | many a iha =>
    obtain ⟨xs, ys, -, hx, -⟩ := matches_many_cons_iff.mp h
    exact iha hx

theorem not_matches_of_begins {p : Pattern} {c : Char} (h : p.begins c = false) :
    ¬ Matches p (c :: cs) := by
  intro hmatch
  rw [begins_of_matches hmatch] at h
  cases h

def occurs : Pattern → Char → Bool
  | never, _ => false
  | nothing, _ => false
  | one accepts, c => accepts c
  | seq a b, c => a.occurs c || b.occurs c
  | alt a b, c => a.occurs c || b.occurs c
  | many a, c => a.occurs c

theorem occurs_of_matches {p : Pattern} (h : Matches p cs) : ∀ c ∈ cs, p.occurs c = true := by
  induction h with
  | nothing => simp
  | one hc => simpa [occurs] using hc
  | seq _ _ ihx ihy =>
    intro c hc
    rcases List.mem_append.mp hc with hc | hc
    · simp [occurs, ihx c hc]
    · simp [occurs, ihy c hc]
  | left _ ih =>
    intro c hc
    simp [occurs, ih c hc]
  | right _ ih =>
    intro c hc
    simp [occurs, ih c hc]
  | done => simp
  | more _ _ ihx ihy =>
    intro c hc
    rcases List.mem_append.mp hc with hc | hc
    · exact ihx c hc
    · exact ihy c hc

/-- No match goes on into a text that begins with a character that no match has. -/
theorem eq_nil_of_occurs {p : Pattern} {more : List Char} (h : Matches p (cs ++ more))
    (hmore : ∀ c, more.head? = some c → p.occurs c = false) : more = [] := by
  cases more with
  | nil => rfl
  | cons c more =>
    have hc := occurs_of_matches h c (by simp)
    rw [hmore c rfl] at hc
    cases hc

end CartoStyle.Pattern
