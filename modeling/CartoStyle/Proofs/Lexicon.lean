import CartoStyle.Lexicon
import CartoStyle.Proofs.Pattern.PrefixFree

/-!
When the first tile of a text is known. The tile must be a match of its kind, no
kind may match further into what follows, and no kind of higher precedence may
match the tile itself. Only the kinds that can begin with the first character
have to be looked at.
-/

namespace CartoStyle.Lexicon

variable {Kind : Type} {l : Lexicon Kind} {k : Kind} {c : Char} {cs rest : List Char}

theorem best?_of_longest {pattern : Kind → Pattern} {pre post : List Kind} {n : Nat}
    (hpre : ∀ j ∈ pre, ∀ m, ((pattern j).after c).longest? cs = some m → m < n)
    (hk : ((pattern k).after c).longest? cs = some n)
    (hpost : ∀ j ∈ post, ∀ m, ((pattern j).after c).longest? cs = some m → m ≤ n) :
    best? pattern c cs (pre ++ k :: post) = some (k, n) := by
  have hbest {ks : List Kind} {bound : Nat}
      (hks : ∀ j ∈ ks, ∀ m, ((pattern j).after c).longest? cs = some m → m ≤ bound) :
      ∀ j m, best? pattern c cs ks = some (j, m) → m ≤ bound := by
    induction ks with
    | nil => exact fun _ _ h => by cases h
    | cons i ks ih =>
      have ih := ih fun j hj => hks j (List.mem_cons_of_mem i hj)
      have hi := hks i List.mem_cons_self
      intro j m h
      rw [best?] at h
      split at h
      · exact ih j m h
      · cases h
        exact hi _ ‹_›
      · split at h
        · cases h
          exact hi _ ‹_›
        · cases h
          exact ih _ _ ‹_›
  induction pre with
  | nil =>
    rw [List.nil_append, best?, hk]
    cases hrest : best? pattern c cs post with
    | none => rfl
    | some other => simp [hbest hpost other.1 other.2 hrest]
  | cons i pre ih =>
    have ih := ih fun j hj => hpre j (List.mem_cons_of_mem i hj)
    rw [List.cons_append, best?, ih]
    cases hi : ((pattern i).after c).longest? cs with
    | none => rfl
    | some m =>
      have hlt := hpre i List.mem_cons_self m hi
      simp [Nat.not_le.mpr hlt]

/-- The first tile of a text, from the kinds that match its start. -/
theorem tiles_cons_append {pre post : List Kind} (hkinds : l.kinds = pre ++ k :: post)
    (hmatch : (l.pattern k).Matches (c :: cs))
    (hlonger : ∀ j ∈ l.kinds, ∀ more, more <+: rest →
      (l.pattern j).Matches (c :: (cs ++ more)) → more = [])
    (hpre : ∀ j ∈ pre, ¬ (l.pattern j).Matches (c :: cs)) :
    l.tiles (c :: (cs ++ rest)) = ((k, c :: cs) :: (l.tiles rest).1, (l.tiles rest).2) := by
  have hnone : ∀ j ∈ l.kinds, ∀ m, cs.length < m → m ≤ (cs ++ rest).length →
      ¬ ((l.pattern j).after c).Matches ((cs ++ rest).take m) := by
    intro j hj m hlt hle hm
    rw [Pattern.matches_after_iff, List.take_append,
      List.take_of_length_le (Nat.le_of_lt hlt)] at hm
    have hnil := congrArg List.length (hlonger j hj _ (List.take_prefix _ _) hm)
    simp only [List.length_append, List.length_take, List.length_nil] at hle hnil
    omega
  have htake : (cs ++ rest).take cs.length = cs := by simp
  have hk : ((l.pattern k).after c).longest? (cs ++ rest) = some cs.length := by
    refine Pattern.longest?_eq_some_iff.mpr ⟨by simp, ?_, hnone k (by simp [hkinds])⟩
    rw [Pattern.matches_after_iff, htake]
    exact hmatch
  have hbound : ∀ j ∈ l.kinds, ∀ m, ((l.pattern j).after c).longest? (cs ++ rest) = some m →
      m ≤ cs.length := by
    intro j hj m hm
    obtain ⟨hle, hmatch, -⟩ := Pattern.longest?_eq_some_iff.mp hm
    by_cases hlt : cs.length < m
    · exact absurd hmatch (hnone j hj m hlt hle)
    · exact Nat.le_of_not_lt hlt
  have hbest : best? l.pattern c (cs ++ rest) l.kinds = some (k, cs.length) := by
    rw [hkinds] at hbound ⊢
    refine best?_of_longest ?_ hk fun j hj => hbound j (by simp [hj])
    intro j hj m hm
    refine Nat.lt_of_le_of_ne (hbound j (by simp [hj]) m hm) ?_
    rintro rfl
    obtain ⟨-, hmatch, -⟩ := Pattern.longest?_eq_some_iff.mp hm
    rw [Pattern.matches_after_iff, htake] at hmatch
    exact hpre j hj hmatch
  rw [tiles, hbest]
  simp

/-- The kinds with a match that begins with a character, as far as the character tells. -/
def candidates (l : Lexicon Kind) (c : Char) : List Kind :=
  l.kinds.filter fun k => (l.pattern k).begins c

/-- The first tile of a text, from the kinds that can begin with its first character. -/
theorem tiles_of_candidates (pre : List Kind) {post : List Kind}
    (hcand : l.candidates c = pre ++ k :: post)
    (hmatch : (l.pattern k).Matches (c :: cs))
    (hlonger : ∀ j ∈ pre ++ k :: post, ∀ more, more <+: rest →
      (l.pattern j).Matches (c :: (cs ++ more)) → more = [])
    (hpre : ∀ j ∈ pre, ¬ (l.pattern j).Matches (c :: cs)) :
    l.tiles (c :: (cs ++ rest)) = ((k, c :: cs) :: (l.tiles rest).1, (l.tiles rest).2) := by
  obtain ⟨before, after, hkinds, hbefore, hafter⟩ := List.filter_eq_append_iff.mp hcand
  obtain ⟨skipped, post', rfl, hskipped, hk, -⟩ := List.filter_eq_cons_iff.mp hafter
  have hnot {j : Kind} {ds : List Char} (h : ¬ (l.pattern j).begins c = true) :
      ¬ (l.pattern j).Matches (c :: ds) := fun hj => h (Pattern.begins_of_matches hj)
  have hcandidate {j : Kind} {ds : List Char} (hj : j ∈ l.kinds)
      (hjmatch : (l.pattern j).Matches (c :: ds)) : j ∈ pre ++ k :: post := by
    rw [← hcand]
    exact List.mem_filter.mpr ⟨hj, Pattern.begins_of_matches hjmatch⟩
  rw [← List.append_assoc] at hkinds
  refine tiles_cons_append hkinds hmatch ?_ ?_
  · intro j hj more hmore hjmatch
    exact hlonger j (hcandidate hj hjmatch) more hmore hjmatch
  · intro j hj hjmatch
    rcases List.mem_append.mp hj with hj | hj
    · refine hpre j ?_ hjmatch
      rw [← hbefore]
      exact List.mem_filter.mpr ⟨hj, Pattern.begins_of_matches hjmatch⟩
    · exact hnot (hskipped j hj) hjmatch

/-- The first tile of a text that a single kind can begin, if no match of that kind goes on
into what follows. -/
theorem tiles_of_candidate (hcand : l.candidates c = [k])
    (hmatch : (l.pattern k).Matches (c :: cs))
    (hlonger : ∀ more, more <+: rest → (l.pattern k).Matches (c :: (cs ++ more)) → more = []) :
    l.tiles (c :: (cs ++ rest)) = ((k, c :: cs) :: (l.tiles rest).1, (l.tiles rest).2) := by
  refine tiles_of_candidates [] hcand hmatch ?_ (by simp)
  intro j hj
  obtain rfl : j = k := by simpa using hj
  exact hlonger

section Reads

variable {Token : Type} {read? : Kind × List Char → Option Token} {ts : List Token}

def Reads (l : Lexicon Kind) (read? : Kind × List Char → Option Token) (cs : List Char)
    (ts : List Token) : Prop :=
  ∃ tiles, l.tiles cs = (tiles, []) ∧ tiles.filterMap read? = ts

theorem reads_nil : l.Reads read? [] [] := ⟨[], by rw [tiles], rfl⟩

/-- One more tile in front. -/
theorem Reads.tile (cs : List Char) (h : l.Reads read? rest ts)
    (htile : l.tiles (cs ++ rest) = ((k, cs) :: (l.tiles rest).1, (l.tiles rest).2)) :
    l.Reads read? (cs ++ rest) ((read? (k, cs)).toList ++ ts) := by
  obtain ⟨tiles, htiles, rfl⟩ := h
  refine ⟨(k, cs) :: tiles, by rw [htile, htiles], ?_⟩
  rw [List.filterMap_cons]
  cases read? (k, cs) <;> rfl

theorem Reads.tiling?_eq (h : l.Reads read? cs ts) :
    (l.tiling? cs).map (·.filterMap read?) = some ts := by
  obtain ⟨tiles, htiles, rfl⟩ := h
  rw [tiling?, htiles]
  rfl

end Reads

end CartoStyle.Lexicon
