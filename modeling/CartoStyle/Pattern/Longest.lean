import CartoStyle.Pattern

/-!
What the search for matches finds. The remainder of a pattern after a
character denotes exactly the texts that complete the character to a match,
and the longest match is a match than which no longer one exists.
-/

namespace CartoStyle.Pattern

theorem not_matches_never {cs : List Char} : ¬ Matches .never cs := nofun

theorem matches_nothing_iff {cs : List Char} : Matches .nothing cs ↔ cs = [] :=
  ⟨fun h => by cases h; rfl, fun h => h ▸ .nothing⟩

theorem matches_seq_iff {a b : Pattern} {cs : List Char} :
    Matches (.seq a b) cs ↔ ∃ xs ys, cs = xs ++ ys ∧ Matches a xs ∧ Matches b ys := by
  constructor
  · intro h
    cases h with
    | seq hx hy => exact ⟨_, _, rfl, hx, hy⟩
  · rintro ⟨xs, ys, rfl, hx, hy⟩
    exact .seq hx hy

theorem matches_alt_iff {a b : Pattern} {cs : List Char} :
    Matches (.alt a b) cs ↔ Matches a cs ∨ Matches b cs := by
  constructor
  · intro h
    cases h with
    | left h => exact Or.inl h
    | right h => exact Or.inr h
  · rintro (h | h)
    · exact .left h
    · exact .right h

/-- A pattern accepts the empty text as the function says. -/
theorem acceptsEmpty_iff (p : Pattern) : p.acceptsEmpty = true ↔ Matches p [] := by
  induction p with
  | never => simp [acceptsEmpty, not_matches_never]
  | nothing => simp [acceptsEmpty, matches_nothing_iff]
  | one accepts =>
    simp only [acceptsEmpty, Bool.false_eq_true, false_iff]
    nofun
  | seq a b iha ihb =>
    simp only [acceptsEmpty, Bool.and_eq_true, iha, ihb, matches_seq_iff, List.nil_eq,
      List.append_eq_nil_iff]
    constructor
    · rintro ⟨ha, hb⟩
      exact ⟨[], [], ⟨rfl, rfl⟩, ha, hb⟩
    · rintro ⟨_, _, ⟨rfl, rfl⟩, ha, hb⟩
      exact ⟨ha, hb⟩
  | alt a b iha ihb => simp only [acceptsEmpty, Bool.or_eq_true, iha, ihb, matches_alt_iff]
  | many a _ => exact ⟨fun _ => .done, fun _ => rfl⟩

/-- Showing a part that never matches changes no matches of a sequence. -/
theorem matches_thenOn_iff {a b : Pattern} {cs : List Char} :
    Matches (a.thenOn b) cs ↔ Matches (.seq a b) cs := by
  unfold thenOn
  split
  · simp [matches_seq_iff, not_matches_never]
  · rw [matches_seq_iff]
    simp only [matches_nothing_iff]
    exact ⟨fun h => ⟨[], _, rfl, rfl, h⟩, fun ⟨_, _, heq, hx, hy⟩ => by simp_all⟩
  · simp [matches_seq_iff, not_matches_never]
  · exact Iff.rfl

/-- Leaving out an alternative that never matches changes no matches of a choice. -/
theorem matches_orElse_iff {a b : Pattern} {cs : List Char} :
    Matches (a.orElse b) cs ↔ Matches (.alt a b) cs := by
  unfold orElse
  split
  · simp [matches_alt_iff, not_matches_never]
  · simp [matches_alt_iff, not_matches_never]
  · exact Iff.rfl

/-- A repetition that matches a text with a first character matches the item that begins
with it, and then further items. -/
theorem matches_many_cons_iff {a : Pattern} {c : Char} {cs : List Char} :
    Matches (.many a) (c :: cs) ↔
      ∃ xs ys, cs = xs ++ ys ∧ Matches a (c :: xs) ∧ Matches (.many a) ys := by
  constructor
  · intro h
    generalize hp : Pattern.many a = p at h
    generalize hd : c :: cs = ds at h
    induction h with
    | @more _ xs ys hx hy _ ihy =>
      injection hp with hp
      subst hp
      cases xs with
      | nil => exact ihy rfl hd
      | cons x xs =>
        rw [List.cons_append] at hd
        injection hd with hc hcs
        subst hc
        exact ⟨xs, ys, hcs, hx, hy⟩
    | done => cases hd
    | _ => cases hp
  · rintro ⟨xs, ys, rfl, hx, hy⟩
    exact .more hx hy

/-- The remainder after a character denotes the texts that complete it to a match. -/
theorem matches_after_iff {p : Pattern} {c : Char} {cs : List Char} :
    Matches (p.after c) cs ↔ Matches p (c :: cs) := by
  induction p generalizing cs with
  | never => simp [after, not_matches_never]
  | nothing => simp [after, not_matches_never, matches_nothing_iff]
  | one accepts =>
    unfold after
    split
    · next h =>
      rw [matches_nothing_iff]
      exact ⟨fun hcs => hcs ▸ .one h, fun hm => by cases hm; rfl⟩
    · next h =>
      refine ⟨fun hm => (not_matches_never hm).elim, fun hm => ?_⟩
      cases hm with
      | one hc => exact absurd hc h
  | seq a b iha ihb =>
    have hfirst : (∃ xs ys, cs = xs ++ ys ∧ Matches a (c :: xs) ∧ Matches b ys) ∨
        (Matches a [] ∧ Matches b (c :: cs)) ↔ Matches (.seq a b) (c :: cs) := by
      rw [matches_seq_iff]
      constructor
      · rintro (⟨xs, ys, rfl, hx, hy⟩ | ⟨ha, hb⟩)
        · exact ⟨c :: xs, ys, rfl, hx, hy⟩
        · exact ⟨[], c :: cs, rfl, ha, hb⟩
      · rintro ⟨xs, ys, heq, hx, hy⟩
        cases xs with
        | nil => exact Or.inr ⟨hx, by rw [List.nil_append] at heq; rwa [heq]⟩
        | cons x xs =>
          rw [List.cons_append] at heq
          injection heq with hc hcs
          subst hc
          exact Or.inl ⟨xs, ys, hcs, hx, hy⟩
    rw [← hfirst]
    unfold after
    split
    · next hempty =>
      rw [matches_orElse_iff, matches_alt_iff, matches_thenOn_iff, matches_seq_iff, ihb]
      simp only [iha, (acceptsEmpty_iff a).mp hempty, true_and]
    · next hempty =>
      have hnot : ¬ Matches a [] := fun h => hempty ((acceptsEmpty_iff a).mpr h)
      rw [matches_thenOn_iff, matches_seq_iff]
      simp only [iha, hnot, false_and, or_false]
  | alt a b iha ihb => simp only [after, matches_orElse_iff, matches_alt_iff, iha, ihb]
  | many a iha =>
    rw [after, matches_thenOn_iff, matches_seq_iff, matches_many_cons_iff]
    simp only [iha]

/-- A pattern without any match finds none. -/
theorem longest?_eq_none_iff {p : Pattern} {cs : List Char} :
    p.longest? cs = none ↔ ∀ n, n ≤ cs.length → ¬ Matches p (cs.take n) := by
  induction cs generalizing p with
  | nil =>
    simp [longest?, ← acceptsEmpty_iff]
  | cons c cs ih =>
    have hsplit : (∀ n, n ≤ (c :: cs).length → ¬ Matches p ((c :: cs).take n)) ↔
        ¬ Matches p [] ∧ ∀ n, n ≤ cs.length → ¬ Matches (p.after c) (cs.take n) := by
      simp only [matches_after_iff]
      constructor
      · intro h
        exact ⟨h 0 (Nat.zero_le _), fun n hn => h (n + 1) (Nat.succ_le_succ hn)⟩
      · rintro ⟨hzero, hrest⟩ n hn
        cases n with
        | zero => exact hzero
        | succ n => exact hrest n (Nat.le_of_succ_le_succ hn)
    rw [hsplit, ← ih, ← acceptsEmpty_iff]
    rw [longest?]
    split
    · next hnever =>
      have hp : p = .never := by
        cases p <;> simp_all [isNever]
      subst hp
      have hnone : longest? .never cs = none :=
        ih.mpr fun _ _ => not_matches_never
      simp only [acceptsEmpty, after, hnone, Bool.false_eq_true, not_false_eq_true, and_self]
    · cases (p.after c).longest? cs <;> simp only [reduceCtorEq, and_false, and_true]
      split <;> simp_all

/-- A length that is found is that of a match than which no longer one exists. -/
theorem matches_of_longest? {p : Pattern} {cs : List Char} {n : Nat} (h : p.longest? cs = some n) :
    n ≤ cs.length ∧ Matches p (cs.take n) ∧
      ∀ m, n < m → m ≤ cs.length → ¬ Matches p (cs.take m) := by
  induction cs generalizing p n with
  | nil =>
    rw [longest?] at h
    split at h
    · next hempty =>
      cases h
      exact ⟨Nat.le_refl 0, (acceptsEmpty_iff p).mp hempty,
        fun m hm hle => absurd hm (Nat.not_lt.mpr hle)⟩
    · cases h
  | cons c cs ih =>
    rw [longest?] at h
    split at h
    · cases h
    · cases hrest : (p.after c).longest? cs with
      | some k =>
        rw [hrest] at h
        cases h
        obtain ⟨hk, hmatch, hlonger⟩ := ih hrest
        refine ⟨Nat.succ_le_succ hk, matches_after_iff.mp hmatch, fun m hm hle hmatch' => ?_⟩
        obtain ⟨m, rfl⟩ := Nat.exists_eq_succ_of_ne_zero (Nat.ne_of_gt (Nat.zero_lt_of_lt hm))
        exact hlonger m (Nat.lt_of_succ_lt_succ hm) (Nat.le_of_succ_le_succ hle)
          (matches_after_iff.mpr hmatch')
      | none =>
        have hno := longest?_eq_none_iff.mp hrest
        simp only [hrest] at h
        split at h
        · next hempty =>
          cases h
          refine ⟨Nat.zero_le _, (acceptsEmpty_iff p).mp hempty, fun m hm hle hmatch => ?_⟩
          obtain ⟨m, rfl⟩ := Nat.exists_eq_succ_of_ne_zero (Nat.ne_of_gt hm)
          exact hno m (Nat.le_of_succ_le_succ hle) (matches_after_iff.mpr hmatch)
        · cases h

/-- The search finds a length exactly if the start of that length is a match and no longer
start is one. -/
theorem longest?_eq_some_iff {p : Pattern} {cs : List Char} {n : Nat} :
    p.longest? cs = some n ↔
      n ≤ cs.length ∧ Matches p (cs.take n) ∧
        ∀ m, n < m → m ≤ cs.length → ¬ Matches p (cs.take m) := by
  refine ⟨matches_of_longest?, fun ⟨hn, hmatch, hmax⟩ => ?_⟩
  cases hfound : p.longest? cs with
  | none => exact absurd hmatch (longest?_eq_none_iff.mp hfound n hn)
  | some k =>
    obtain ⟨hk, hmatch', hmax'⟩ := matches_of_longest? hfound
    have hle : ¬ k < n := fun hlt => hmax' n hlt hn hmatch
    have hge : ¬ n < k := fun hlt => hmax k hlt hk hmatch'
    rw [Nat.le_antisymm (Nat.not_lt.mp hge) (Nat.not_lt.mp hle)]

end CartoStyle.Pattern
