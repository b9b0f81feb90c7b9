import CartoStyle.Proofs.Lexicon

/-!
Tilings by the longest match, described without the search for it. A tile is the longest
text at its place that any kind matches, of the first kind that matches this text, and the
tiling goes on until no kind matches anything. Every text has exactly one such tiling,
which is the one that is found. It is kept when a text follows into which no match goes on.
-/

namespace CartoStyle.Lexicon

variable {Kind : Type} {l : Lexicon Kind} {k : Kind} {c : Char} {cs rest left lexeme : List Char}

/-- No kind matches a start of the text that has a character. -/
def Stops (l : Lexicon Kind) (cs : List Char) : Prop :=
  ∀ j ∈ l.kinds, ∀ lexeme, lexeme <+: cs → lexeme ≠ [] → ¬ (l.pattern j).Matches lexeme

/-- A text of this kind is the next tile in front of the rest. -/
structure IsNext (l : Lexicon Kind) (k : Kind) (lexeme rest : List Char) : Prop where
  ne_nil : lexeme ≠ []
  isMatch : (l.pattern k).Matches lexeme
  longest : ∀ j ∈ l.kinds, ∀ more, more <+: rest →
    (l.pattern j).Matches (lexeme ++ more) → more = []
  /-- No kind of higher precedence matches the same text. -/
  first : ∃ earlier later, l.kinds = earlier ++ k :: later ∧
    ∀ j ∈ earlier, ¬ (l.pattern j).Matches lexeme

/-- The tiles of a text one after the other, and what is left where they stop. -/
inductive Tiling (l : Lexicon Kind) : List Char → List (Kind × List Char) → List Char → Prop
  | stop {cs : List Char} (h : l.Stops cs) : Tiling l cs [] cs
  | tile {k : Kind} {lexeme rest left : List Char} {tiles : List (Kind × List Char)}
      (h : l.IsNext k lexeme rest) (hrest : Tiling l rest tiles left) :
      Tiling l (lexeme ++ rest) ((k, lexeme) :: tiles) left

section Search

variable {pattern : Kind → Pattern} {ks : List Kind} {n : Nat}

theorem best?_eq_none_iff :
    best? pattern c cs ks = none ↔ ∀ k ∈ ks, ((pattern k).after c).longest? cs = none := by
  induction ks with
  | nil => simp [best?]
  | cons k ks ih =>
    rw [List.forall_mem_cons, ← ih, best?]
    cases ((pattern k).after c).longest? cs with
    | none => simp
    | some n =>
      cases best? pattern c cs ks with
      | none => simp
      | some other =>
        simp only [reduceCtorEq, false_and, iff_false]
        split <;> exact Option.some_ne_none _

/-- The search finds the first kind with a match that is as long as any. -/
theorem exists_of_best?_eq_some (h : best? pattern c cs ks = some (k, n)) :
    ((pattern k).after c).longest? cs = some n ∧ ∃ earlier later, ks = earlier ++ k :: later ∧
      (∀ j ∈ earlier, ∀ m, ((pattern j).after c).longest? cs = some m → m < n) ∧
      ∀ j ∈ later, ∀ m, ((pattern j).after c).longest? cs = some m → m ≤ n := by
  induction ks generalizing k n with
  | nil => cases h
  | cons i ks ih =>
    rw [best?] at h
    cases hi : ((pattern i).after c).longest? cs with
    | none =>
      rw [hi] at h
      obtain ⟨hk, earlier, later, rfl, hearlier, hlater⟩ := ih h
      refine ⟨hk, i :: earlier, later, rfl, List.forall_mem_cons.mpr ⟨?_, hearlier⟩, hlater⟩
      intro m hm
      rw [hi] at hm
      cases hm
    | some m =>
      cases hbest : best? pattern c cs ks with
      | none =>
        rw [hi, hbest] at h
        cases h
        refine ⟨hi, [], ks, rfl, List.forall_mem_nil _, fun j hj m hm => ?_⟩
        rw [best?_eq_none_iff.mp hbest j hj] at hm
        cases hm
      | some other =>
        obtain ⟨j, p⟩ := other
        obtain ⟨hj, earlier, later, rfl, hearlier, hlater⟩ := ih hbest
        rw [hi, hbest] at h
        by_cases hle : p ≤ m
        · simp only [hle, if_true] at h
          cases h
          refine ⟨hi, [], earlier ++ j :: later, rfl, List.forall_mem_nil _, fun q hq r hr => ?_⟩
          rcases List.mem_append.mp hq with hq | hq
          · exact Nat.le_trans (Nat.le_of_lt (hearlier q hq r hr)) hle
          rcases List.mem_cons.mp hq with rfl | hq
          · rw [hj] at hr
            cases hr
            exact hle
          · exact Nat.le_trans (hlater q hq r hr) hle
        · simp only [hle, if_false] at h
          cases h
          refine ⟨hj, i :: earlier, later, rfl, List.forall_mem_cons.mpr ⟨?_, hearlier⟩, hlater⟩
          intro q hq
          rw [hi] at hq
          cases hq
          exact Nat.lt_of_not_le hle

end Search

/-- Where the search finds nothing the tiling stops. -/
theorem stops_of_best? (h : best? l.pattern c cs l.kinds = none) : l.Stops (c :: cs) := by
  intro j hj lexeme hpre hne hmatch
  have hnone := Pattern.longest?_eq_none_iff.mp (best?_eq_none_iff.mp h j hj)
  cases lexeme with
  | nil => exact hne rfl
  | cons d lexeme =>
    obtain ⟨rfl, tail, rfl⟩ := List.cons_prefix_cons.mp hpre
    refine hnone lexeme.length (by simp) ?_
    rw [List.take_left, Pattern.matches_after_iff]
    exact hmatch

theorem best?_of_stops (h : l.Stops (c :: cs)) : best? l.pattern c cs l.kinds = none := by
  refine best?_eq_none_iff.mpr fun j hj => Pattern.longest?_eq_none_iff.mpr fun n hn hmatch => ?_
  refine h j hj (c :: cs.take n) ?_ (List.cons_ne_nil _ _) (Pattern.matches_after_iff.mp hmatch)
  exact (List.prefix_cons_inj c).mpr (List.take_prefix n cs)

/-- What the search finds is the next tile. -/
theorem isNext_of_best? {n : Nat} (h : best? l.pattern c cs l.kinds = some (k, n)) :
    l.IsNext k (c :: cs.take n) (cs.drop n) := by
  obtain ⟨hk, earlier, later, hkinds, hearlier, hlater⟩ := exists_of_best?_eq_some h
  obtain ⟨hn, hmatch, -⟩ := Pattern.longest?_eq_some_iff.mp hk
  -- A longer match of some kind would have a longest match that is longer as well.
  have hbound {j : Kind} (hj : j ∈ l.kinds) {m : Nat}
      (hm : ((l.pattern j).after c).longest? cs = some m) : m ≤ n := by
    rw [hkinds] at hj
    rcases List.mem_append.mp hj with hj | hj
    · exact Nat.le_of_lt (hearlier j hj m hm)
    rcases List.mem_cons.mp hj with rfl | hj
    · exact Nat.le_of_eq (Option.some.inj (hm.symm.trans hk))
    · exact hlater j hj m hm
  have hlongest {j : Kind} {m : Nat} (hm : m ≤ cs.length)
      (hjm : (l.pattern j).Matches (c :: cs.take m)) :
      ∃ p, ((l.pattern j).after c).longest? cs = some p ∧ m ≤ p := by
    rw [← Pattern.matches_after_iff] at hjm
    cases hfound : ((l.pattern j).after c).longest? cs with
    | none => exact absurd hjm (Pattern.longest?_eq_none_iff.mp hfound m hm)
    | some p =>
      refine ⟨p, rfl, Nat.le_of_not_lt fun hlt => ?_⟩
      exact (Pattern.longest?_eq_some_iff.mp hfound).2.2 m hlt hm hjm
  refine ⟨List.cons_ne_nil _ _, Pattern.matches_after_iff.mp hmatch, ?_, earlier, later, hkinds, ?_⟩
  · rintro j hj more ⟨tail, htail⟩ hjm
    have hlen : more.length ≤ cs.length - n := by
      have := congrArg List.length htail
      rw [List.length_append, List.length_drop] at this
      omega
    have htake : cs.take n ++ more = cs.take (n + more.length) := by
      rw [List.take_add, ← htail, List.take_left]
    rw [List.cons_append, htake] at hjm
    obtain ⟨p, hp, hle⟩ := hlongest (by omega) hjm
    have := hbound hj hp
    exact List.length_eq_zero_iff.mp (by omega)
  · intro j hj hjm
    obtain ⟨p, hp, hle⟩ := hlongest hn hjm
    exact absurd (hearlier j hj p hp) (Nat.not_lt.mpr hle)

/-- The tiling that is found is the one by the longest match. -/
theorem tiling_tiles (l : Lexicon Kind) (cs : List Char) :
    l.Tiling cs (l.tiles cs).1 (l.tiles cs).2 := by
  fun_induction tiles l cs with
  | case1 => exact .stop fun j hj lexeme hpre hne => absurd (List.prefix_nil.mp hpre) hne
  | case2 c cs h => exact .stop (stops_of_best? h)
  | case3 c cs k extra h later rest heq ih =>
    rw [heq] at ih
    have htile := Tiling.tile (isNext_of_best? h) ih
    rwa [List.cons_append, List.take_append_drop] at htile

theorem tiling_of_tiling? {tiles : List (Kind × List Char)} (h : l.tiling? cs = some tiles) :
    l.Tiling cs tiles [] := by
  have htiling := l.tiling_tiles cs
  rw [tiling?] at h
  split at h
  · next heq =>
    cases h
    rwa [heq] at htiling
  · cases h

/-- Every tile is the next one somewhere. -/
theorem Tiling.exists_isNext {tiles : List (Kind × List Char)} (h : l.Tiling cs tiles left)
    {tile : Kind × List Char} (htile : tile ∈ tiles) : ∃ rest, l.IsNext tile.1 tile.2 rest := by
  induction h with
  | stop => cases htile
  | tile hnext _ ih =>
    rcases List.mem_cons.mp htile with rfl | htile
    · exact ⟨_, hnext⟩
    · exact ih htile

/-- A text has no other tiling by the longest match. -/
theorem Tiling.tiles_eq {tiles : List (Kind × List Char)} (h : l.Tiling cs tiles left) :
    l.tiles cs = (tiles, left) := by
  induction h with
  | @stop cs h =>
    cases cs with
    | nil => rw [Lexicon.tiles]
    | cons c cs => rw [Lexicon.tiles, best?_of_stops h]
  | @tile k lexeme rest left tiles h _ ih =>
    obtain ⟨hne, hmatch, hlonger, earlier, later, hkinds, hearlier⟩ := h
    cases lexeme with
    | nil => exact absurd rfl hne
    | cons c lexeme =>
      rw [List.cons_append, tiles_cons_append hkinds hmatch hlonger hearlier, ih]

theorem Tiling.flatten_append {tiles : List (Kind × List Char)} (h : l.Tiling cs tiles left) :
    (tiles.map Prod.snd).flatten ++ left = cs := by
  have happend := l.tiles_append cs
  rwa [h.tiles_eq] at happend

/-- No match of a kind goes on from a match of some kind into the text. -/
def Separates (l : Lexicon Kind) (cs : List Char) : Prop :=
  ∀ j ∈ l.kinds, ∀ k ∈ l.kinds, ∀ lexeme between more, lexeme ≠ [] → more ≠ [] → more <+: cs →
    (l.pattern k).Matches lexeme → ¬ (l.pattern j).Matches (lexeme ++ (between ++ more))

theorem IsNext.mem_kinds (h : l.IsNext k lexeme rest) : k ∈ l.kinds := by
  obtain ⟨earlier, later, hkinds, -⟩ := h.first
  simp [hkinds]

/-- A tile stays one when a text follows that separates. -/
theorem IsNext.append (h : l.IsNext k lexeme rest) (hsep : l.Separates cs) :
    l.IsNext k lexeme (rest ++ cs) := by
  refine { h with longest := fun j hj more hmore hjm => ?_ }
  obtain ⟨tail, htail⟩ := hmore
  rcases List.append_eq_append_iff.mp htail with ⟨inner, rfl, -⟩ | ⟨beyond, rfl, rfl⟩
  · exact h.longest j hj more (List.prefix_append more inner) hjm
  · cases beyond with
    | nil =>
      rw [List.append_nil] at hjm ⊢
      exact h.longest j hj rest (List.prefix_refl rest) hjm
    | cons d beyond =>
      exact absurd hjm (hsep j hj k h.mem_kinds lexeme rest (d :: beyond) h.ne_nil
        (List.cons_ne_nil d beyond) (List.prefix_append _ tail) h.isMatch)

/-- The tiling of a text that is tiled completely goes on with the tiling of what follows. -/
theorem Tiling.append {tiles more : List (Kind × List Char)} (h : l.Tiling cs tiles [])
    (hrest : l.Tiling rest more left) (hsep : l.Separates rest) :
    l.Tiling (cs ++ rest) (tiles ++ more) left := by
  generalize hend : ([] : List Char) = stop at h
  induction h with
  | stop h =>
    subst hend
    exact hrest
  | tile h _ ih =>
    rw [List.append_assoc]
    exact .tile (h.append hsep) (ih hend)

end CartoStyle.Lexicon
