import CartoStyle.Proofs.Text.Trimming
import CartoStyle.Text.Split

/-!
Splitting a joined list. Parts in which nothing separates, and of which only the last leaves
something open, come back from a splitting of the parts joined by separators. Every splitting
gives such parts, and they stay so if blanks are trimmed and parts left out.
-/

namespace CartoStyle.Text

def Nesting.after (st : Nesting) (cs : List Char) : Nesting := cs.foldl step st

theorem Nesting.after_append (st : Nesting) (xs ys : List Char) :
    st.after (xs ++ ys) = (st.after xs).after ys := List.foldl_append

variable {separator : Char} {st : Nesting} {cs : List Char} {parts : List (List Char)}

section Quotes

/-- Only quotes are kept as open quotes. -/
theorem Nesting.isQuote_of_after (h : ∀ q ∈ st.quote, isQuote q = true) (cs : List Char) :
    ∀ q ∈ (st.after cs).quote, isQuote q = true := by
  induction cs generalizing st with
  | nil => exact h
  | cons c cs ih =>
    have hstep : ∀ q ∈ (st.step c).quote, isQuote q = true := by
      unfold step
      split
      · split
        · nofun
        · exact h
      · split
        · next hquote =>
          rintro q ⟨⟩
          exact hquote
        · split
          · exact h
          · split
            · exact h
            · exact h
    exact ih hstep

theorem Nesting.isQuote_of_top : ∀ q ∈ top.quote, isQuote q = true := nofun

theorem Nesting.step_of_isBlank (h : ∀ q ∈ st.quote, isQuote q = true) {c : Char}
    (hc : isBlank c = true) : st.step c = st := by
  have hne {d : Char} (hd : isBlank d = false) : (c == d) = false := by
    rw [beq_eq_false_iff_ne]
    rintro rfl
    rw [hc] at hd
    cases hd
  unfold step
  split
  · next q hq =>
    rw [hne (isBlank_of_isQuote (h q hq))]
    rfl
  · simp [hne (d := '\'') rfl, hne (d := '"') rfl, hne (d := '(') rfl, hne (d := '[') rfl,
      hne (d := ')') rfl, hne (d := ']') rfl]

/-- Blanks neither open nor close anything. -/
theorem Nesting.after_of_isBlank (h : ∀ q ∈ st.quote, isQuote q = true)
    (hcs : ∀ c ∈ cs, isBlank c = true) : st.after cs = st := by
  induction cs with
  | nil => rfl
  | cons c cs ih =>
    obtain ⟨hc, hcs⟩ := List.forall_mem_cons.mp hcs
    show (st.step c).after cs = st
    rw [step_of_isBlank h hc, ih hcs]

/-- The blanks around a text make no difference to what is open at its end. -/
theorem Nesting.after_around {pre post : List Char} (hpre : ∀ c ∈ pre, isBlank c = true)
    (hpost : ∀ c ∈ post, isBlank c = true) :
    top.after (pre ++ (cs ++ post)) = top.after cs := by
  rw [after_append, after_of_isBlank isQuote_of_top hpre, after_append,
    after_of_isBlank (isQuote_of_after isQuote_of_top cs) hpost]

end Quotes

section Parts

theorem Nesting.splitsAt_iff (hsep : isReserved separator = false) {c : Char} :
    st.splitsAt separator c = true ↔ c = separator ∧ st = top := by
  rw [splitsAt, Bool.and_eq_true, Bool.and_eq_true, beq_iff_eq, beq_iff_eq]
  constructor
  · exact fun h => ⟨h.2, h.1.1⟩
  · rintro ⟨rfl, rfl⟩
    exact ⟨⟨rfl, by rw [hsep]; rfl⟩, rfl⟩

/-- In a single part nothing separates. -/
theorem splitFrom_cons_eq_singleton {c : Char} (h : splitFrom separator st (c :: cs) = [c :: cs]) :
    st.splitsAt separator c = false ∧ splitFrom separator (st.step c) cs = [cs] := by
  rw [splitFrom] at h
  by_cases hsplits : st.splitsAt separator c = true
  · rw [if_pos hsplits] at h
    cases h
  · rw [if_neg hsplits] at h
    refine ⟨Bool.eq_false_iff.mpr hsplits, ?_⟩
    cases hparts : splitFrom separator (st.step c) cs with
    | nil => exact absurd hparts (splitFrom_ne_nil _ _ _)
    | cons part parts =>
      rw [hparts, List.modifyHead_cons, List.cons.injEq, List.cons.injEq] at h
      rw [h.1.2, h.2]

/-- A text is a single part exactly if the separator stands in it only where something is open. -/
theorem splitFrom_eq_singleton_iff (hsep : Nesting.isReserved separator = false) :
    splitFrom separator st cs = [cs] ↔
      ∀ xs ys, cs = xs ++ separator :: ys → st.after xs ≠ .top := by
  induction cs generalizing st with
  | nil => simp [splitFrom]
  | cons c cs ih =>
    constructor
    · intro h xs ys hcs
      obtain ⟨hfirst, hrest⟩ := splitFrom_cons_eq_singleton h
      cases xs with
      | nil =>
        obtain ⟨rfl, rfl⟩ := List.cons.inj hcs
        rintro rfl
        rw [(Nesting.splitsAt_iff hsep).mpr ⟨rfl, rfl⟩] at hfirst
        cases hfirst
      | cons x xs =>
        obtain ⟨rfl, rfl⟩ := List.cons.inj hcs
        exact ih.mp hrest xs ys rfl
    · intro h
      have hfirst : ¬ st.splitsAt separator c = true := fun hc => by
        obtain ⟨rfl, rfl⟩ := (Nesting.splitsAt_iff hsep).mp hc
        exact h [] cs rfl rfl
      have hrest : splitFrom separator (st.step c) cs = [cs] :=
        ih.mpr fun xs ys hcs => h (c :: xs) ys (by rw [hcs]; rfl)
      rw [splitFrom, if_neg hfirst, hrest]
      rfl

/-- A part in which nothing separates is put in front of what follows. -/
theorem splitFrom_append (h : splitFrom separator st cs = [cs]) (rest : List Char) :
    splitFrom separator st (cs ++ rest) =
      (splitFrom separator (st.after cs) rest).modifyHead (cs ++ ·) := by
  induction cs generalizing st with
  | nil =>
    rw [List.nil_append, show st.after [] = st from rfl]
    cases splitFrom separator st rest <;> rfl
  | cons c cs ih =>
    obtain ⟨hsplits, htail⟩ := splitFrom_cons_eq_singleton h
    rw [List.cons_append, splitFrom, if_neg (by simp [hsplits]), ih htail]
    show _ = (splitFrom separator ((st.step c).after cs) rest).modifyHead _
    cases splitFrom separator ((st.step c).after cs) rest <;> rfl

/-- A part of a list: nothing in it separates, and it leaves nothing open. -/
structure IsPart (separator : Char) (cs : List Char) : Prop where
  whole : splitTop separator cs = [cs]
  closed : Nesting.top.after cs = .top

theorem splitTop_cons_separator (hsep : Nesting.isReserved separator = false) (cs : List Char) :
    splitTop separator (separator :: cs) = [] :: splitTop separator cs := by
  rw [splitTop, splitFrom, if_pos ((Nesting.splitsAt_iff hsep).mpr ⟨rfl, rfl⟩)]
  rfl

theorem splitTop_append (h : IsPart separator cs) (rest : List Char) :
    splitTop separator (cs ++ rest) = (splitTop separator rest).modifyHead (cs ++ ·) := by
  rw [splitTop, splitFrom_append h.whole, h.closed]
  rfl

/-- The parts of a text: nothing in them separates, and only the last may leave something open. -/
inductive AreParts (separator : Char) : List (List Char) → Prop
  | last {cs : List Char} (whole : splitTop separator cs = [cs]) : AreParts separator [cs]
  | cons {cs : List Char} {parts : List (List Char)} (part : IsPart separator cs)
      (later : AreParts separator parts) : AreParts separator (cs :: parts)

theorem areParts_of_forall (hne : parts ≠ []) (h : ∀ p ∈ parts, IsPart separator p) :
    AreParts separator parts := by
  induction parts with
  | nil => exact absurd rfl hne
  | cons p parts ih =>
    obtain ⟨hp, hparts⟩ := List.forall_mem_cons.mp h
    by_cases hrest : parts = []
    · rw [hrest]
      exact .last hp.whole
    · exact .cons hp (ih hrest hparts)

theorem AreParts.ne_nil (h : AreParts separator parts) : parts ≠ [] := by
  cases h <;> nofun

/-- What a scan from a given nesting gives first, and what it gives from there on. -/
theorem exists_splitFrom_eq (separator : Char) (st : Nesting) (cs : List Char) :
    ∃ part parts, splitFrom separator st cs = part :: parts ∧
      splitFrom separator st part = [part] ∧
        (parts = [] ∨ st.after part = .top ∧ AreParts separator parts) := by
  induction cs generalizing st with
  | nil => exact ⟨[], [], rfl, rfl, Or.inl rfl⟩
  | cons c cs ih =>
    by_cases hsplits : st.splitsAt separator c = true
    · -- A separator is found at the top level, so the rest is scanned from there.
      have htop : st = .top := by
        simp only [Nesting.splitsAt, Bool.and_eq_true, beq_iff_eq] at hsplits
        exact hsplits.1.1
      subst htop
      obtain ⟨part, parts, hparts, hpart, hlater⟩ := ih .top
      refine ⟨[], part :: parts, by rw [splitFrom, if_pos hsplits, hparts], rfl, Or.inr ⟨rfl, ?_⟩⟩
      rcases hlater with rfl | ⟨hclosed, hlater⟩
      · exact .last hpart
      · exact .cons ⟨hpart, hclosed⟩ hlater
    · obtain ⟨part, parts, hparts, hpart, hlater⟩ := ih (st.step c)
      refine ⟨c :: part, parts, ?_, ?_, hlater⟩
      · rw [splitFrom, if_neg hsplits, hparts, List.modifyHead_cons]
      · rw [splitFrom, if_neg hsplits, hpart, List.modifyHead_cons]

/-- Every splitting gives parts. -/
theorem areParts_splitTop (separator : Char) (cs : List Char) :
    AreParts separator (splitTop separator cs) := by
  obtain ⟨part, parts, hparts, hpart, hlater⟩ := exists_splitFrom_eq separator .top cs
  rw [splitTop, hparts]
  rcases hlater with rfl | ⟨hclosed, hlater⟩
  · exact .last hpart
  · exact .cons ⟨hpart, hclosed⟩ hlater

theorem AreParts.map (h : AreParts separator parts) {f : List Char → List Char}
    (hwhole : ∀ cs, splitTop separator cs = [cs] → splitTop separator (f cs) = [f cs])
    (hclosed : ∀ cs, Nesting.top.after cs = .top → Nesting.top.after (f cs) = .top) :
    AreParts separator (parts.map f) := by
  induction h with
  | last whole => exact .last (hwhole _ whole)
  | cons part _ ih => exact .cons ⟨hwhole _ part.whole, hclosed _ part.closed⟩ ih

/-- Parts may be left out, the last one as well. -/
theorem AreParts.filter (h : AreParts separator parts) (keep : List Char → Bool) :
    parts.filter keep = [] ∨ AreParts separator (parts.filter keep) := by
  induction h with
  | @last cs whole =>
    by_cases hcs : keep cs = true
    · rw [List.filter_cons_of_pos hcs]
      exact Or.inr (.last whole)
    · exact Or.inl (List.filter_cons_of_neg hcs)
  | @cons cs parts part later ih =>
    by_cases hcs : keep cs = true
    · rw [List.filter_cons_of_pos hcs]
      rcases ih with hnone | hlater
      · rw [hnone]
        exact Or.inr (.last part.whole)
      · exact Or.inr (.cons part hlater)
    · rwa [List.filter_cons_of_neg hcs]

/-- The parts of a text come back from the text that joins them. -/
theorem AreParts.splitTop_intercalate (hsep : Nesting.isReserved separator = false)
    (h : AreParts separator parts) :
    splitTop separator ([separator].intercalate parts) = parts := by
  induction h with
  | last whole => simpa using whole
  | cons part later ih =>
    rw [List.intercalate_cons_of_ne_nil later.ne_nil, List.append_assoc, List.singleton_append,
      splitTop_append part, splitTop_cons_separator hsep, ih, List.modifyHead_cons,
      List.append_nil]

end Parts

section Blanks

/-- A text in which nothing separates stays so without the blanks around it. -/
theorem splitTop_around {pre post : List Char} (hsep : Nesting.isReserved separator = false)
    (hpre : ∀ c ∈ pre, isBlank c = true)
    (h : splitTop separator (pre ++ (cs ++ post)) = [pre ++ (cs ++ post)]) :
    splitTop separator cs = [cs] := by
  refine (splitFrom_eq_singleton_iff hsep).mpr fun xs ys hcs hopen => ?_
  refine (splitFrom_eq_singleton_iff hsep).mp h (pre ++ xs) (ys ++ post) ?_ ?_
  · simp [hcs]
  · rw [Nesting.after_append, Nesting.after_of_isBlank Nesting.isQuote_of_top hpre, hopen]

theorem AreParts.map_dropEnds (h : AreParts separator parts)
    (hsep : Nesting.isReserved separator = false) :
    AreParts separator (parts.map (dropEnds isBlank)) := by
  refine h.map (fun cs hwhole => ?_) fun cs hclosed => ?_
  · obtain ⟨pre, post, hcs, hpre, -⟩ := exists_eq_dropEnds_around isBlank cs
    rw [hcs] at hwhole
    exact splitTop_around hsep hpre hwhole
  · obtain ⟨pre, post, hcs, hpre, hpost⟩ := exists_eq_dropEnds_around isBlank cs
    rwa [hcs, Nesting.after_around hpre hpost] at hclosed

theorem intercalate_cons_space (separator : Char) (part : List Char) (parts : List (List Char)) :
    [separator, ' '].intercalate (part :: parts) =
      [separator].intercalate (part :: parts.map (' ' :: ·)) := by
  induction parts generalizing part with
  | nil => simp
  | cons next parts ih =>
    have hspace (ps : List (List Char)) : [separator].intercalate ((' ' :: next) :: ps) =
        ' ' :: [separator].intercalate (next :: ps) := by
      cases ps <;> simp [List.intercalate, List.intersperse]
    calc [separator, ' '].intercalate (part :: next :: parts)
        = part ++ [separator, ' '] ++ [separator, ' '].intercalate (next :: parts) :=
          List.intercalate_cons_of_ne_nil (List.cons_ne_nil _ _)
      _ = part ++ [separator] ++
            [separator].intercalate ((' ' :: next) :: parts.map (' ' :: ·)) := by
          rw [ih, hspace]
          simp
      _ = [separator].intercalate (part :: (next :: parts).map (' ' :: ·)) :=
          (List.intercalate_cons_of_ne_nil (List.cons_ne_nil _ _)).symm

/-- A joined list splits into its parts, each but the first behind the blank that follows a
separator. -/
theorem AreParts.splitTop_intercalate_space (hsep : Nesting.isReserved separator = false)
    (hblank : separator ≠ ' ') {part : List Char} (h : AreParts separator (part :: parts)) :
    splitTop separator ([separator, ' '].intercalate (part :: parts)) =
      part :: parts.map (' ' :: ·) := by
  have hspace : IsPart separator [' '] := by
    refine ⟨(splitFrom_eq_singleton_iff hsep).mpr fun xs ys hcs => ?_, by decide⟩
    cases xs with
    | nil => exact absurd (List.cons.inj hcs).1.symm hblank
    | cons x xs => simp at hcs
  have hparts : AreParts separator (part :: parts.map (' ' :: ·)) := by
    cases h with
    | last whole => exact .last whole
    | cons hpart later =>
      refine .cons hpart (later.map (fun cs hwhole => ?_) fun cs hclosed => ?_)
      · rw [← List.singleton_append, splitTop_append hspace, hwhole]
        rfl
      · rw [← List.singleton_append, Nesting.after_append, hspace.closed, hclosed]
  rw [intercalate_cons_space, hparts.splitTop_intercalate hsep]

/-- Trimmed texts in which nothing separates come back from their list. -/
theorem map_dropEnds_splitTop_intercalate {texts : List String}
    (hparts : AreParts ',' (texts.map String.toList))
    (htrimmed : ∀ t ∈ texts, FreeEnds isBlank t.toList) :
    (splitTop ',' (", ".intercalate texts).toList).map (dropEnds isBlank) =
      texts.map String.toList := by
  cases texts with
  | nil => exact absurd rfl hparts.ne_nil
  | cons t texts =>
    obtain ⟨ht, htexts⟩ := List.forall_mem_cons.mp htrimmed
    have hcomma : ", ".toList = [',', ' '] := rfl
    rw [List.map_cons] at hparts
    rw [String.toList_intercalate, List.map_cons, hcomma,
      hparts.splitTop_intercalate_space (by decide) (by decide), List.map_cons, ht.dropEnds_eq,
      List.map_map, List.map_map]
    exact congrArg _ (List.map_congr_left fun u hu => (htexts u hu).dropEnds_space)

theorem map_trim_splitTopLevel_intercalate {texts : List String}
    (hparts : AreParts ',' (texts.map String.toList))
    (htrimmed : ∀ t ∈ texts, FreeEnds isBlank t.toList) :
    (splitTopLevel ',' (", ".intercalate texts)).map trim = texts := by
  have htrim : trim ∘ String.ofList = String.ofList ∘ dropEnds isBlank := by
    funext cs
    simp [trim]
  rw [splitTopLevel, List.map_map, htrim, ← List.map_map,
    map_dropEnds_splitTop_intercalate hparts htrimmed]
  simp

end Blanks

end CartoStyle.Text
