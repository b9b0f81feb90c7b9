import CartoStyle.Proofs.Style.Template

/-!
The placeholders of a label template. They are the leftmost texts between double braces that do
not overlap, and the segments between them stand for themselves. Each template has one such cut,
it is the one that is written, and reading gives the cut back with the names trimmed, whatever
single braces the segments hold.
-/

namespace CartoStyle.Style.Template

variable {cs before name rest : List Char} {pieces : List Piece} {c : Char}

def Begins (cs : List Char) : Prop :=
  ∃ name rest, '\x7d' ∉ name ∧ cs = (Piece.placeholder name).text ++ rest

/-- A segment between placeholders; an empty one is no piece. -/
def segment (cs : List Char) : List Piece := if cs.isEmpty then [] else [.literal cs]

/-- The cut of a text at its leftmost placeholders that do not overlap. -/
inductive Cuts : List Char → List Piece → Prop
  | last {cs : List Char} (hnone : ∀ after, after <:+ cs → ¬ Begins after) : Cuts cs (segment cs)
  | placeholder {before name rest : List Char} {pieces : List Piece} (hname : '\x7d' ∉ name)
      (hfirst : ∀ after, after <:+ before → after ≠ [] →
        ¬ Begins (after ++ ((Piece.placeholder name).text ++ rest)))
      (hrest : Cuts rest pieces) :
      Cuts (before ++ ((Piece.placeholder name).text ++ rest))
        (segment before ++ .placeholder name :: pieces)

section Search

theorem placeholder?_eq_some_iff : placeholder? cs = some (name, rest) ↔
    '\x7d' ∉ name ∧ cs = (Piece.placeholder name).text ++ rest := by
  constructor
  · intro h
    refine ⟨?_, eq_of_placeholder? h⟩
    unfold placeholder? at h
    split at h
    · split at h
      · cases h
        exact fun hmem => by simpa using List.mem_takeWhile_imp hmem
      · cases h
    · cases h
  · rintro ⟨hname, rfl⟩
    have hall : ∀ c ∈ name, (c != '\x7d') = true := fun c hc =>
      bne_iff_ne.mpr fun h => hname (h ▸ hc)
    have htext : (Piece.placeholder name).text ++ rest =
        '\x7b' :: '\x7b' :: (name ++ '\x7d' :: '\x7d' :: rest) := by simp [Piece.text]
    rw [htext, placeholder?, List.dropWhile_append_of_pos hall, List.takeWhile_append_of_pos hall]
    simp

theorem placeholder?_eq_none_iff : placeholder? cs = none ↔ ¬ Begins cs := by
  rw [Option.eq_none_iff_forall_ne_some]
  constructor
  · rintro h ⟨name, rest, hcs⟩
    exact h (name, rest) (placeholder?_eq_some_iff.mpr hcs)
  · rintro h ⟨name, rest⟩ hsome
    exact h ⟨name, rest, placeholder?_eq_some_iff.mp hsome⟩

theorem not_begins_nil : ¬ Begins [] := by
  rintro ⟨name, rest, -, h⟩
  simp [Piece.text] at h

theorem push_segment (c : Char) (cs : List Char) : push c (segment cs) = segment (c :: cs) := by
  cases cs <;> rfl

theorem push_segment_append (c : Char) (cs name : List Char) (pieces : List Piece) :
    push c (segment cs ++ .placeholder name :: pieces) =
      segment (c :: cs) ++ .placeholder name :: pieces := by
  cases cs <;> rfl

/-- A character where no placeholder begins goes to the segment behind it. -/
theorem Cuts.push (h : Cuts cs pieces) (hnone : ¬ Begins (c :: cs)) :
    Cuts (c :: cs) (push c pieces) := by
  cases h with
  | last hlater =>
    rw [push_segment]
    refine .last fun after hafter => ?_
    rcases List.suffix_cons_iff.mp hafter with rfl | hafter
    · exact hnone
    · exact hlater after hafter
  | @placeholder before name rest pieces hname hfirst hrest =>
    rw [push_segment_append, ← List.cons_append]
    refine .placeholder hname (fun after hafter hne => ?_) hrest
    rcases List.suffix_cons_iff.mp hafter with rfl | hafter
    · exact hnone
    · exact hfirst after hafter hne

/-- The search from left to right finds the cut. -/
theorem cuts_cut (cs : List Char) : Cuts cs (cut cs) := by
  induction cs using cut.induct with
  | case1 cs name rest h ih =>
    obtain ⟨hname, rfl⟩ := placeholder?_eq_some_iff.mp h
    rw [cut_of_eq_some h]
    refine @Cuts.placeholder [] name rest _ hname (fun after hafter hne => ?_) ih
    exact absurd (List.suffix_nil.mp hafter) hne
  | case2 h =>
    rw [cut_nil]
    refine @Cuts.last [] fun after hafter => ?_
    rw [List.suffix_nil.mp hafter]
    exact not_begins_nil
  | case3 c cs h ih =>
    rw [cut_cons_of_eq_none h]
    exact ih.push (placeholder?_eq_none_iff.mp h)

theorem cut_of_not_begins (h : ∀ after, after <:+ cs → ¬ Begins after) : cut cs = segment cs := by
  induction cs with
  | nil => exact cut_nil
  | cons c cs ih =>
    have hcs := ih fun after hafter => h after (hafter.trans (List.suffix_cons c cs))
    rw [cut_cons_of_eq_none (placeholder?_eq_none_iff.mpr (h _ List.suffix_rfl)), hcs, push_segment]

theorem cut_append_placeholder (hname : '\x7d' ∉ name)
    (hfirst : ∀ after, after <:+ before → after ≠ [] →
      ¬ Begins (after ++ ((Piece.placeholder name).text ++ rest))) :
    cut (before ++ ((Piece.placeholder name).text ++ rest)) =
      segment before ++ .placeholder name :: cut rest := by
  induction before with
  | nil => exact cut_of_eq_some (placeholder?_eq_some_iff.mpr ⟨hname, rfl⟩)
  | cons c before ih =>
    have hbefore := ih fun after hafter => hfirst after (hafter.trans (List.suffix_cons c before))
    have hnone := hfirst _ List.suffix_rfl (List.cons_ne_nil c before)
    rw [List.cons_append] at hnone ⊢
    rw [cut_cons_of_eq_none (placeholder?_eq_none_iff.mpr hnone), hbefore, push_segment_append]

/-- There is no other cut. -/
theorem Cuts.eq_cut (h : Cuts cs pieces) : pieces = cut cs := by
  induction h with
  | last hnone => exact (cut_of_not_begins hnone).symm
  | placeholder hname hfirst _ ih => rw [cut_append_placeholder hname hfirst, ← ih]

end Search

/-- A template has one cut. If its pieces have a written form, what is read of the label that
writes it is the template with the names of its placeholders trimmed, and so the template itself
if they were trimmed. -/
theorem existsUnique_cuts_and_template (t : String) :
    (∃! pieces, Cuts t.toList pieces) ∧
    ∀ pieces, Cuts t.toList pieces → (∀ p ∈ pieces, p.IsReadable) →
      ∃ e, PropertyValue.parse "label" (expression t).valueText = .ok e ∧
        Style.template e = String.ofList (pieces.flatMap fun p => p.trimmed.text) ∧
        ((∀ p ∈ pieces, p.trimmed = p) → Style.template e = t) := by
  refine ⟨⟨cut t.toList, cuts_cut t.toList, fun _ h => h.eq_cut⟩, ?_⟩
  rintro pieces hcuts hpieces
  obtain rfl := hcuts.eq_cut
  refine ⟨_, parse_expression hpieces, template_expressions t, fun htrimmed => ?_⟩
  rw [template_expressions, flatMap_trimmed_cut htrimmed, String.ofList_toList]

section Roads

instance : (p : Piece) → Decidable p.IsReadable
  | .literal cs => inferInstanceAs (Decidable ('\'' ∉ (String.ofList cs).toList ∨
      '"' ∉ (String.ofList cs).toList))
  | .placeholder name => inferInstanceAs (Decidable (']' ∉ name))

/-- Two placeholders beside each other, the second behind a third brace, and braces that are no
placeholder. -/
def roadTemplate : String := "Road \x7b\x7b name \x7d\x7d\x7b\x7b\x7ba\x7d\x7d \x7bb\x7d\x7d"

def roadPieces : List Piece :=
  [.literal "Road ".toList, .placeholder " name ".toList, .placeholder "\x7ba".toList,
    .literal " \x7bb\x7d\x7d".toList]

theorem template_roadTemplate :
    Cuts roadTemplate.toList roadPieces ∧ (∀ p ∈ roadPieces, p.IsReadable) ∧
      ∃ e, PropertyValue.parse "label" (expression roadTemplate).valueText = .ok e ∧
        Style.template e = "Road \x7b\x7bname\x7d\x7d\x7b\x7b\x7ba\x7d\x7d \x7bb\x7d\x7d" := by
  have hcut : cut roadTemplate.toList = roadPieces := by decide +kernel
  have hcuts : Cuts roadTemplate.toList roadPieces := hcut ▸ cuts_cut roadTemplate.toList
  have hpieces : ∀ p ∈ roadPieces, p.IsReadable := by decide +kernel
  obtain ⟨e, hparse, htemplate, -⟩ :=
    (existsUnique_cuts_and_template roadTemplate).2 roadPieces hcuts hpieces
  have htext : String.ofList (roadPieces.flatMap fun p => p.trimmed.text) =
      "Road \x7b\x7bname\x7d\x7d\x7b\x7b\x7ba\x7d\x7d \x7bb\x7d\x7d" := by decide +kernel
  exact ⟨hcuts, hpieces, e, hparse, htemplate.trans htext⟩

end Roads

end CartoStyle.Style.Template
