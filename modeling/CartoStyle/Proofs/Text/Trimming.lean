import CartoStyle.Text.Blank

/-!
Texts that trimming leaves alone, and trimming of texts with something around
them that it removes.
-/

namespace CartoStyle.Text

/-- The text neither begins nor ends with a character of the class. -/
structure FreeEnds (p : Char → Bool) (cs : List Char) : Prop where
  first : ∀ c, cs.head? = some c → p c = false
  last : ∀ c, cs.getLast? = some c → p c = false

variable {p : Char → Bool} {pre cs post : List Char}

theorem FreeEnds.nil : FreeEnds p [] := ⟨nofun, nofun⟩

theorem FreeEnds.of_forall (h : ∀ c ∈ cs, p c = false) : FreeEnds p cs where
  first c hc := h c (List.mem_of_head? hc)
  last c hc := h c (List.mem_of_getLast? hc)

theorem FreeEnds.of_all (hfirst : cs.head?.all (!p ·) = true)
    (hlast : cs.getLast?.all (!p ·) = true) : FreeEnds p cs where
  first c hc := by simpa [hc] using hfirst
  last c hc := by simpa [hc] using hlast

/-- The ends of a text are those of its first and its last part. -/
theorem FreeEnds.between (hpre : FreeEnds p pre) (hpost : FreeEnds p post) (hpre_ne : pre ≠ [])
    (hpost_ne : post ≠ []) (cs : List Char) : FreeEnds p (pre ++ (cs ++ post)) where
  first c hc := by
    obtain ⟨d, ds, rfl⟩ := List.exists_cons_of_ne_nil hpre_ne
    exact hpre.first c hc
  last c hc := by
    have hlast := List.getLast?_eq_some_getLast hpost_ne
    rw [List.getLast?_append, List.getLast?_append, hlast] at hc
    exact hpost.last c (hlast.trans hc)

theorem FreeEnds.dropEnds_eq (h : FreeEnds p cs) : dropEnds p cs = cs :=
  dropEnds_of_ends h.first h.last

theorem dropEnds_sublist (p : Char → Bool) (cs : List Char) : (dropEnds p cs).Sublist cs := by
  have hright (ds : List Char) : (dropRight p ds).Sublist ds := by
    rw [dropRight, ← List.reverse_sublist, List.reverse_reverse]
    exact List.dropWhile_sublist p
  exact (hright _).trans (List.dropWhile_sublist p)

/-- Trimming takes away what stands around the rest. -/
theorem exists_eq_dropEnds_around (p : Char → Bool) (cs : List Char) :
    ∃ pre post, cs = pre ++ (dropEnds p cs ++ post) ∧ (∀ c ∈ pre, p c = true) ∧
      ∀ c ∈ post, p c = true := by
  have hall {q : Char → Bool} {ds : List Char} : ∀ c ∈ ds.takeWhile q, q c = true := fun _ hc =>
    List.all_eq_true.mp List.all_takeWhile _ hc
  have hright (ds : List Char) : ds = dropRight p ds ++ (ds.reverse.takeWhile p).reverse := by
    rw [dropRight, ← List.reverse_append, List.takeWhile_append_dropWhile, List.reverse_reverse]
  refine ⟨cs.takeWhile p, ((cs.dropWhile p).reverse.takeWhile p).reverse, ?_, hall, ?_⟩
  · rw [dropEnds, ← hright, List.takeWhile_append_dropWhile]
  · exact fun c hc => hall c (List.mem_reverse.mp hc)

/-- Nothing is left to trim after trimming. -/
theorem freeEnds_dropEnds (p : Char → Bool) (cs : List Char) : FreeEnds p (dropEnds p cs) where
  first c hc := by
    obtain ⟨after, hafter⟩ : dropRight p (cs.dropWhile p) <+: cs.dropWhile p := by
      rw [dropRight, ← List.reverse_suffix, List.reverse_reverse]
      exact List.dropWhile_suffix p
    have hhead : (cs.dropWhile p).head? = some c := by
      rw [← hafter, List.head?_append]
      simp only [dropEnds] at hc
      rw [hc]
      rfl
    have hnot := List.head?_dropWhile_not p cs
    rw [hhead] at hnot
    simpa using hnot
  last c hc := by
    rw [dropEnds, dropRight, List.getLast?_reverse] at hc
    have hnot := List.head?_dropWhile_not p (cs.dropWhile p).reverse
    rw [hc] at hnot
    simpa using hnot

theorem dropRight_append (hpost : ∀ c ∈ post, p c = true) :
    dropRight p (cs ++ post) = dropRight p cs := by
  have hrev : ∀ c ∈ post.reverse, p c = true := fun c hc => hpost c (List.mem_reverse.mp hc)
  rw [dropRight, List.reverse_append, List.dropWhile_append_of_pos hrev, dropRight]

theorem dropEnds_append (hpost : ∀ c ∈ post, p c = true) :
    dropEnds p (cs ++ post) = dropEnds p cs := by
  rw [dropEnds, dropEnds, List.dropWhile_append]
  by_cases hall : (cs.dropWhile p).isEmpty = true
  · have hdrop : (post ++ []).dropWhile p = [].dropWhile p := List.dropWhile_append_of_pos hpost
    rw [List.append_nil, List.dropWhile_nil] at hdrop
    rw [if_pos hall, hdrop, List.isEmpty_iff.mp hall]
  · rw [if_neg hall, dropRight_append hpost]

/-- Characters of the class around a text are trimmed away with those at its ends. -/
theorem dropEnds_around (pre post : List Char) (hpre : ∀ c ∈ pre, p c = true)
    (hpost : ∀ c ∈ post, p c = true) : dropEnds p (pre ++ (cs ++ post)) = dropEnds p cs := by
  have hdrop : dropEnds p (pre ++ (cs ++ post)) = dropEnds p (cs ++ post) := by
    rw [dropEnds, List.dropWhile_append_of_pos hpre, dropEnds]
  rw [hdrop, dropEnds_append hpost]

/-- Trimming removes exactly what stands around a text with free ends. -/
theorem FreeEnds.dropEnds_around (h : FreeEnds p cs) (pre post : List Char)
    (hpre : ∀ c ∈ pre, p c = true) (hpost : ∀ c ∈ post, p c = true) :
    dropEnds p (pre ++ (cs ++ post)) = cs := by
  rw [Text.dropEnds_around pre post hpre hpost, h.dropEnds_eq]

theorem FreeEnds.dropEnds_space (h : FreeEnds isBlank cs) :
    dropEnds isBlank (' ' :: cs) = cs := by
  have htrim := h.dropEnds_around [' '] [] (List.forall_mem_singleton.mpr rfl) (by simp)
  rwa [List.append_nil] at htrim

theorem isBlank_of_isQuote {c : Char} (h : isQuote c = true) : isBlank c = false := by
  have hc : c = '\'' ∨ c = '"' := by simpa [isQuote] using h
  rcases hc with rfl | rfl <;> rfl

theorem freeEnds_quoted {q : Char} (hq : isQuote q = true) (cs : List Char) :
    FreeEnds isBlank (q :: (cs ++ [q])) where
  first c hc := by
    obtain rfl : q = c := by simpa using hc
    exact isBlank_of_isQuote hq
  last c hc := by
    rw [← List.cons_append, List.getLast?_concat] at hc
    obtain rfl : q = c := by simpa using hc
    exact isBlank_of_isQuote hq

end CartoStyle.Text
