import CartoStyle.Proofs.Pattern.Matching

/-!
Patterns with no match that goes on to a longer one. What such a pattern matches
at the start of a text does not depend on what follows, so its longest match is
its only one. Repetitions qualify once something follows them that begins
differently.
-/

namespace CartoStyle.Pattern

/-- No match is the start of a longer one. -/
def PrefixFree (p : Pattern) : Prop :=
  ∀ xs ys, Matches p xs → Matches p (xs ++ ys) → ys = []

/-- Two starts of one text that a prefix-free pattern matches are the same. -/
theorem PrefixFree.unique {p : Pattern} (hp : p.PrefixFree) {xs ys xs' ys' : List Char}
    (h : xs ++ xs' = ys ++ ys') (hx : Matches p xs) (hy : Matches p ys) :
    xs = ys ∧ xs' = ys' := by
  rcases List.append_eq_append_iff.mp h with ⟨more, rfl, rfl⟩ | ⟨more, rfl, rfl⟩
  · obtain rfl := hp xs more hx hy
    exact ⟨(List.append_nil xs).symm, rfl⟩
  · obtain rfl := hp ys more hy hx
    exact ⟨List.append_nil ys, rfl⟩

theorem prefixFree_nothing : PrefixFree .nothing := by
  intro xs ys hx hy
  rw [matches_nothing_iff] at hx hy
  exact (List.append_eq_nil_iff.mp hy).2

theorem prefixFree_one (accepts : Char → Bool) : PrefixFree (.one accepts) := by
  intro xs ys hx hy
  obtain ⟨c, rfl, -⟩ := matches_one_iff.mp hx
  obtain ⟨d, hd, -⟩ := matches_one_iff.mp hy
  cases hd
  rfl

theorem prefixFree_literal (s : String) : PrefixFree (literal s) := by
  intro xs ys hx hy
  rw [matches_literal_iff] at hx hy
  rw [← hx] at hy
  exact List.append_cancel_left (hy.trans (List.append_nil xs).symm)

theorem prefixFree_seq {a b : Pattern} (ha : a.PrefixFree) (hb : b.PrefixFree) :
    PrefixFree (.seq a b) := by
  intro xs ys hx hy
  obtain ⟨x, x', rfl, hx, hx'⟩ := matches_seq_iff.mp hx
  obtain ⟨y, y', hsplit, hy, hy'⟩ := matches_seq_iff.mp hy
  rw [List.append_assoc] at hsplit
  obtain ⟨rfl, rfl⟩ := ha.unique hsplit hx hy
  exact hb x' ys hx' hy'

/-- A choice is prefix-free if its sides are and begin with different characters. -/
theorem prefixFree_alt {a b : Pattern} (ha : a.PrefixFree) (hb : b.PrefixFree)
    (hane : a.acceptsEmpty = false) (hbne : b.acceptsEmpty = false)
    (hdisjoint : ∀ c, a.begins c = true → b.begins c = false) : PrefixFree (.alt a b) := by
  have hane : ¬ Matches a [] := fun h => by simp [(acceptsEmpty_iff a).mpr h] at hane
  have hbne : ¬ Matches b [] := fun h => by simp [(acceptsEmpty_iff b).mpr h] at hbne
  intro xs ys hx hy
  cases xs with
  | nil =>
    rcases matches_alt_iff.mp hx with h | h
    · exact absurd h hane
    · exact absurd h hbne
  | cons c xs =>
    rcases matches_alt_iff.mp hx with hx | hx <;> rcases matches_alt_iff.mp hy with hy | hy
    · exact ha _ _ hx hy
    · exact absurd hy (not_matches_of_begins (hdisjoint c (begins_of_matches hx)))
    · exact absurd hx (not_matches_of_begins (hdisjoint c (begins_of_matches hy)))
    · exact hb _ _ hx hy

/-- A repetition that is followed by something that begins differently ends at the same
place for every continuation. -/
theorem PrefixFree.many_unique {a : Pattern} (ha : a.PrefixFree) (hane : a.acceptsEmpty = false)
    {xs ys xs' ys' : List Char} (hx : Matches (.many a) xs) (hy : Matches (.many a) ys)
    (h : xs ++ xs' = ys ++ ys') (hx' : ∀ c, xs'.head? = some c → a.begins c = false)
    (hy' : ∀ c, ys'.head? = some c → a.begins c = false) : xs = ys ∧ xs' = ys' := by
  have hane : ¬ Matches a [] := fun h => by simp [(acceptsEmpty_iff a).mpr h] at hane
  have hnone {zs zs' : List Char} (hz : Matches (.many a) zs)
      (hhead : ∀ c, (zs ++ zs').head? = some c → a.begins c = false) : zs = [] := by
    cases zs with
    | nil => rfl
    | cons c zs =>
      obtain ⟨us, -, -, hu, -⟩ := matches_many_cons_iff.mp hz
      exact absurd hu (not_matches_of_begins (hhead c rfl))
  induction hlen : xs.length using Nat.strongRecOn generalizing xs ys with
  | _ n ih =>
    cases xs with
    | nil =>
      rw [List.nil_append] at h
      rw [h] at hx'
      obtain rfl := hnone hy hx'
      exact ⟨rfl, h⟩
    | cons c xs =>
      cases ys with
      | nil =>
        rw [List.nil_append] at h
        rw [← h] at hy'
        cases hnone hx hy'
      | cons d ys =>
        obtain ⟨us, vs, rfl, hu, hv⟩ := matches_many_cons_iff.mp hx
        obtain ⟨us', vs', rfl, hu', hv'⟩ := matches_many_cons_iff.mp hy
        rw [← List.cons_append, ← List.cons_append, List.append_assoc, List.append_assoc] at h
        obtain ⟨hus, hrest⟩ := ha.unique h hu hu'
        cases hus
        have hshorter : vs.length < n := by
          simp only [← hlen, List.length_cons, List.length_append]
          omega
        obtain ⟨rfl, rfl⟩ := ih vs.length hshorter hv hv' hrest rfl
        exact ⟨rfl, rfl⟩

/-- A repetition is prefix-free together with what ends it. -/
theorem prefixFree_many_seq {a b : Pattern} (ha : a.PrefixFree) (hb : b.PrefixFree)
    (hane : a.acceptsEmpty = false) (hbne : b.acceptsEmpty = false)
    (hdisjoint : ∀ c, b.begins c = true → a.begins c = false) :
    PrefixFree (.seq (.many a) b) := by
  have hhead {zs : List Char} (ws : List Char) (hz : Matches b zs) :
      ∀ c, (zs ++ ws).head? = some c → a.begins c = false := by
    intro c hc
    cases zs with
    | nil => simp [(acceptsEmpty_iff b).mpr hz] at hbne
    | cons d zs =>
      obtain rfl : d = c := by simpa using hc
      exact hdisjoint d (begins_of_matches hz)
  intro xs ys hx hy
  obtain ⟨x, x', rfl, hx, hx'⟩ := matches_seq_iff.mp hx
  obtain ⟨y, y', hsplit, hy, hy'⟩ := matches_seq_iff.mp hy
  rw [List.append_assoc] at hsplit
  have hend := hhead [] hy'
  rw [List.append_nil] at hend
  obtain ⟨rfl, rfl⟩ := ha.many_unique hane hx hy hsplit (hhead ys hx') hend
  exact hb x' ys hx' hy'

end CartoStyle.Pattern
