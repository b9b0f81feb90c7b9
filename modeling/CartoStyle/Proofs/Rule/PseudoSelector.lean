import Mathlib
import CartoStyle.Proofs.Decimal.Layout
import CartoStyle.Rule.PseudoSelector

/-!
Which selectors speak about parts. A text in front of a colon, a part name and perhaps an index
is the base of a pseudo-selector if it lies on one line; a selector that ends in a star or a
bracket is none, whatever it holds.
-/

namespace CartoStyle.Rule.PseudoSelector

variable {selector base part : String} {cs ds : List Char}

/-- What stands behind the last colon is cut off. -/
theorem takeWhile_reverse_append (cs : List Char) (hds : ':' ∉ ds) :
    (cs ++ ':' :: ds).reverse.takeWhile (· != ':') = ds.reverse ∧
      (cs ++ ':' :: ds).reverse.dropWhile (· != ':') = ':' :: cs.reverse := by
  have hall : ∀ c ∈ ds.reverse, (c != ':') = true := by
    intro c hc
    rw [bne_iff_ne]
    rintro rfl
    exact hds (List.mem_reverse.mp hc)
  have hsplit : (cs ++ ':' :: ds).reverse = ds.reverse ++ ':' :: cs.reverse := by simp
  rw [hsplit, List.takeWhile_append_of_pos hall, List.dropWhile_append_of_pos hall]
  simp

/-- The name of a part in any case: a letter, and then letters and hyphens. -/
def IsName (part : String) : Prop :=
  ∃ c cs, part.toList = c :: cs ∧ c.isAlpha = true ∧ ∀ d ∈ cs, d.isAlpha = true ∨ d = '-'

/-- An optional index as it is written: its decimal digits in parentheses, behind any number of
zeros. -/
def indexText (zeros : Nat) : Option Nat → String
  | none => ""
  | some n => "(" ++ String.ofList (List.replicate zeros '0' ++ Nat.toDigits 10 n) ++ ")"

theorem isDigit_of_mem_padded (zeros n : Nat) :
    ∀ c ∈ List.replicate zeros '0' ++ Nat.toDigits 10 n, c.isDigit = true := by
  intro c hc
  rcases List.mem_append.mp hc with hc | hc
  · rw [List.eq_of_mem_replicate hc]
    rfl
  · exact Nat.isDigit_of_mem_toDigits (by decide) (by decide) hc

/-- A written index is read. -/
theorem index?_indexText {index : Option Nat} (zeros : Nat) (h : ∀ n ∈ index, n < indexLimit) :
    index? (indexText zeros index).toList = some index := by
  cases index with
  | none => rfl
  | some n =>
    have hdigits := isDigit_of_mem_padded zeros n
    have htext : (indexText zeros (some n)).toList =
        '(' :: ((List.replicate zeros '0' ++ Nat.toDigits 10 n) ++ [')']) := by simp [indexText]
    have hvalue : Decimal.ofDigits (List.replicate zeros '0' ++ Nat.toDigits 10 n) = n := by
      rw [Decimal.ofDigits_zeros_append, Decimal.ofDigits_toDigits]
    have hne : (List.replicate zeros '0' ++ Nat.toDigits 10 n).isEmpty = false := by
      simp [Nat.toDigits_ne_nil]
    have htake : ((List.replicate zeros '0' ++ Nat.toDigits 10 n) ++ [')']).takeWhile Char.isDigit =
        List.replicate zeros '0' ++ Nat.toDigits 10 n := by
      rw [List.takeWhile_append_of_pos hdigits]
      exact List.append_nil _
    rw [htext, index?]
    simp only [htake, List.drop_left, hvalue, hne, Bool.not_false, Bool.true_and, beq_self_eq_true,
      if_true, h n rfl]

theorem not_mem_indexText {c : Char} (hdigit : c.isDigit = false) (hopen : c ≠ '(')
    (hclose : c ≠ ')') (zeros : Nat) (index : Option Nat) :
    c ∉ (indexText zeros index).toList := by
  cases index with
  | none => exact List.not_mem_nil
  | some n =>
    intro hc
    have hmem : c ∈ List.replicate zeros '0' ++ Nat.toDigits 10 n := by
      simpa [indexText, hopen, hclose] using hc
    rw [isDigit_of_mem_padded zeros n c hmem] at hdigit
    cases hdigit

/-- Neither a name nor an index holds a colon, so the colon in front of them is the last one and
the base is what stands before it. -/
theorem parse?_eq (base : String) (hpart : IsName part) (zeros : Nat) (index : Option Nat)
    (hindex : ∀ n ∈ index, n < indexLimit) :
    parse? (base ++ (":" ++ (part ++ indexText zeros index))) =
      if '\n' ∈ base.toList then none else some { base, part := part.toLower, index } := by
  obtain ⟨c, cs, hcons, hc, hcs⟩ := hpart
  have hname : ∀ d ∈ part.toList, (d.isAlpha || d == '-') = true := by
    rw [hcons]
    refine List.forall_mem_cons.mpr ⟨by simp [hc], fun d hd => ?_⟩
    rw [Bool.or_eq_true, beq_iff_eq]
    exact hcs d hd
  have hcolon : ':' ∉ part.toList ++ (indexText zeros index).toList := by
    intro hmem
    rcases List.mem_append.mp hmem with hmem | hmem
    · cases hname _ hmem
    · exact not_mem_indexText rfl (by decide) (by decide) zeros index hmem
  have hlist : (base ++ (":" ++ (part ++ indexText zeros index))).toList =
      base.toList ++ ':' :: (part.toList ++ (indexText zeros index).toList) := by simp
  obtain ⟨hending, hrest⟩ := takeWhile_reverse_append base.toList hcolon
  have hstop : (indexText zeros index).toList.takeWhile (fun d => d.isAlpha || d == '-') = [] := by
    cases index with
    | none => rfl
    | some n => simp [indexText]
  have htake : (part.toList ++ (indexText zeros index).toList).takeWhile
      (fun d => d.isAlpha || d == '-') = part.toList := by
    rw [List.takeWhile_append_of_pos hname, hstop, List.append_nil]
  have hfirst : part.toList.head?.any Char.isAlpha = true := by
    rw [hcons]
    exact hc
  simp only [parse?, hlist, hending, hrest, List.reverse_reverse, htake, hfirst, List.drop_left,
    index?_indexText zeros hindex, String.ofList_toList, Option.map_some, List.contains_reverse]
  by_cases hline : '\n' ∈ base.toList <;> simp [hline]

structure IsPartName (part : String) : Prop where
  ne_nil : part.toList ≠ []
  letters : ∀ c ∈ part.toList, c.isAlpha = true
  lower : part.toLower = part

theorem IsPartName.isName (h : IsPartName part) : IsName part := by
  obtain ⟨c, cs, hcons⟩ := List.exists_cons_of_ne_nil h.ne_nil
  have hletters := h.letters
  rw [hcons] at hletters
  obtain ⟨hc, hcs⟩ := List.forall_mem_cons.mp hletters
  exact ⟨c, cs, hcons, hc, fun d hd => Or.inl (hcs d hd)⟩

/-- A selector in front of a part name is the base of a pseudo-selector. -/
theorem parse?_append (hbase : '\n' ∉ base.toList) (hpart : IsPartName part) :
    parse? (base ++ (":" ++ part)) = some { base, part, index := none } := by
  have hplain := parse?_eq base hpart.isName 0 none nofun
  rwa [indexText, String.append_empty, if_neg hbase, hpart.lower] at hplain

theorem index?_eq_none {d : Char} (hd : d ≠ ')') (h : cs.getLast? = some d) : index? cs = none := by
  cases cs with
  | nil => cases h
  | cons c cs =>
    by_cases hopen : c = '('
    · subst hopen
      have hclose : cs.drop (cs.takeWhile Char.isDigit).length ≠ [')'] := by
        intro hdrop
        rw [← List.take_append_drop (cs.takeWhile Char.isDigit).length cs, hdrop,
          ← List.cons_append, List.getLast?_concat] at h
        exact hd (Option.some.inj h).symm
      simp [index?, hclose]
    · simp [index?, hopen]

/-- The letters in front of a bracket do not reach it. -/
theorem getLast?_drop_takeWhile {p : Char → Bool} {c : Char} (hc : p c = false) (cs : List Char) :
    ((cs ++ [c]).drop ((cs ++ [c]).takeWhile p).length).getLast? = some c := by
  have hdrop : (cs ++ [c]).drop ((cs ++ [c]).takeWhile p).length = (cs ++ [c]).dropWhile p :=
    (congrArg (List.drop _) List.takeWhile_append_dropWhile).symm.trans List.drop_left
  obtain ⟨before, hbefore⟩ := List.dropWhile_suffix p (l := cs ++ [c])
  have hne : (cs ++ [c]).dropWhile p ≠ [] := by
    rw [Ne, List.dropWhile_eq_nil_iff]
    intro hall
    have htrue := hall c (by simp)
    rw [hc] at htrue
    cases htrue
  rw [hdrop, ← List.getLast?_append_of_ne_nil before hne, hbefore, List.getLast?_concat]

/-- A selector that ends in a star or a bracket speaks about no part. -/
theorem parse?_eq_none {c : Char} (hc : c = '*' ∨ c = ']')
    (h : selector.toList.getLast? = some c) : parse? selector = none := by
  have hcolon : c ≠ ':' := by rcases hc with rfl | rfl <;> decide
  have hclose : c ≠ ')' := by rcases hc with rfl | rfl <;> decide
  have hname : (c.isAlpha || c == '-') = false := by rcases hc with rfl | rfl <;> rfl
  obtain ⟨cs, hcs⟩ := List.getLast?_eq_some_iff.mp h
  have hending : (selector.toList.reverse.takeWhile (· != ':')).reverse =
      (cs.reverse.takeWhile (· != ':')).reverse ++ [c] := by
    simp [hcs, hcolon]
  have hindex := index?_eq_none hclose (getLast?_drop_takeWhile
    (p := fun d => d.isAlpha || d == '-') hname (cs.reverse.takeWhile (· != ':')).reverse)
  rw [← hending] at hindex
  rw [parse?]
  split
  · rfl
  · simp only [hindex, Option.map_none, ite_self]

end CartoStyle.Rule.PseudoSelector
