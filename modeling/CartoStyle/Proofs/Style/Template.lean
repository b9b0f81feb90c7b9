import CartoStyle.Proofs.Value.Closed
import CartoStyle.Proofs.Value.Rendering
import CartoStyle.Style.OfRow
import CartoStyle.Style.Template

/-!
Label templates come back from the expressions that write them. Cutting a
template loses no character, so the pieces that are read joined together are
the template again if no placeholder was trimmed on the way.
-/

namespace CartoStyle.Style.Template

variable {cs name rest : List Char} {t : String}

def Piece.text : Piece → List Char
  | .literal cs => cs
  | .placeholder name => '\x7b' :: '\x7b' :: (name ++ ['\x7d', '\x7d'])

theorem eq_of_placeholder? (h : placeholder? cs = some (name, rest)) :
    cs = (Piece.placeholder name).text ++ rest := by
  unfold placeholder? at h
  split at h
  · next ds =>
    split at h
    · next heq =>
      simp only [Option.some.injEq, Prod.mk.injEq] at h
      obtain ⟨rfl, rfl⟩ := h
      have hsplit := List.takeWhile_append_dropWhile (p := (· != '\x7d')) (l := ds)
      rw [heq] at hsplit
      simp [Piece.text, hsplit]
    · cases h
  · cases h

theorem flatMap_push (c : Char) (pieces : List Piece) :
    (push c pieces).flatMap Piece.text = c :: pieces.flatMap Piece.text := by
  cases pieces with
  | nil => rfl
  | cons piece later => cases piece <;> rfl

theorem cut_of_eq_some (h : placeholder? cs = some (name, rest)) :
    cut cs = .placeholder name :: cut rest := by
  rw [cut]
  split
  · next heq =>
    rw [h] at heq
    cases heq
    rfl
  · next heq =>
    rw [h] at heq
    cases heq

theorem cut_cons_of_eq_none {c : Char} (h : placeholder? (c :: cs) = none) :
    cut (c :: cs) = push c (cut cs) := by
  rw [cut]
  split
  · next heq =>
    rw [h] at heq
    cases heq
  · rfl

theorem cut_nil : cut [] = [] := by
  rw [cut]
  rfl

/-- Cutting loses no character. -/
theorem flatMap_cut (cs : List Char) : (cut cs).flatMap Piece.text = cs := by
  induction cs using cut.induct with
  | case1 cs name rest h ih =>
    rw [cut_of_eq_some h, List.flatMap_cons, ih, ← eq_of_placeholder? h]
  | case2 h => rw [cut_nil, List.flatMap_nil]
  | case3 c cs h ih => rw [cut_cons_of_eq_none h, flatMap_push, ih]

def Piece.trimmed : Piece → Piece
  | .literal cs => .literal cs
  | .placeholder name => .placeholder (Text.dropEnds Text.isBlank name)

/-- The pieces of a template are the template again if no placeholder has to be trimmed. -/
theorem flatMap_trimmed_cut (h : ∀ p ∈ cut cs, p.trimmed = p) :
    (cut cs).flatMap (fun p => p.trimmed.text) = cs := by
  rw [List.flatMap_congr fun p hp => congrArg Piece.text (h p hp)]
  exact flatMap_cut cs

def Piece.IsReadable : Piece → Prop
  | .literal cs => Lexeme.IsQuotable (String.ofList cs)
  | .placeholder name => ']' ∉ name

theorem isAtom_expression {p : Piece} (h : p.IsReadable) : PropertyValue.IsAtom p.expression := by
  cases p with
  | literal cs => exact .text h
  | placeholder name =>
    refine .brace ⟨?_, ?_⟩
    · rw [String.toList_ofList]
      exact fun hmem => h ((Text.dropEnds_sublist _ _).mem hmem)
    · rw [String.toList_ofList]
      exact Text.freeEnds_dropEnds _ _

theorem template_expression (p : Piece) :
    Style.template p.expression = String.ofList p.trimmed.text := by
  cases p with
  | literal cs => rfl
  | placeholder name =>
    rw [← String.toList_inj]
    simp [Piece.expression, Style.template, Style.templates, Piece.trimmed, Piece.text,
      Expression.get, Expression.text, Expression.readFirst, Expression.read, Value.toText?]

def expressions (t : String) : List Expression :=
  if (cut t.toList).isEmpty then [.text ""] else (cut t.toList).map Piece.expression

theorem expressions_ne_nil (t : String) : expressions t ≠ [] := by
  rw [expressions]
  split
  · nofun
  · next h => simpa using h

theorem isAtom_of_mem_expressions (h : ∀ p ∈ cut t.toList, p.IsReadable) :
    ∀ e ∈ expressions t, PropertyValue.IsAtom e := by
  rw [expressions]
  split
  · exact List.forall_mem_singleton.mpr (.text (Or.inl (by simp)))
  · exact List.forall_mem_map.mpr fun p hp => isAtom_expression (h p hp)

theorem valueText_expression (t : String) :
    (expression t).valueText = " ".intercalate ((expressions t).map Expression.valueText) := by
  have hexpression : expression t = .apply .text (expressions t) := rfl
  rw [hexpression, Expression.valueText, PropertyValue.valueTexts_eq_map]

/-- The label expression of a template is read as its pieces. -/
theorem parse_expression (h : ∀ p ∈ cut t.toList, p.IsReadable) :
    PropertyValue.parse "label" (expression t).valueText =
      .ok (PropertyValue.whole "label" (expressions t)) := by
  have hne := expressions_ne_nil t
  have hvalue : (PropertyValue.whole "label" (expressions t)).valueText =
      " ".intercalate ((expressions t).map Expression.valueText) :=
    PropertyValue.valueText_whole _ hne
  rw [valueText_expression, ← hvalue]
  exact PropertyValue.parse_whole _ hne (isAtom_of_mem_expressions h)

theorem templates_eq_map (es : List Expression) : Style.templates es = es.map Style.template := by
  induction es with
  | nil => rfl
  | cons e es ih => rw [Style.templates, ih, List.map_cons]

theorem template_whole (es : List Expression) :
    Style.template (PropertyValue.whole "label" es) = String.join (es.map Style.template) := by
  have hseveral (fs : List Expression) : Style.template (.apply .text fs) =
      String.join (fs.map Style.template) := by
    rw [Style.template, templates_eq_map]
  match es with
  | [] => exact hseveral []
  | [e] => simp [PropertyValue.whole]
  | e :: f :: es => exact hseveral (e :: f :: es)

/-- What is read of a template is the template with its names trimmed. -/
theorem template_expressions (t : String) :
    Style.template (PropertyValue.whole "label" (expressions t)) =
      String.ofList ((cut t.toList).flatMap fun p => p.trimmed.text) := by
  rw [template_whole, expressions, ← String.toList_inj]
  split
  · next h =>
    rw [List.isEmpty_iff.mp h]
    rfl
  · simp only [List.map_map, String.toList_join, Function.comp_def, template_expression,
      String.toList_ofList, List.flatMap]

/-- A piece that can stand in a value: a placeholder closes what it opens. -/
def Piece.IsLegible : Piece → Prop
  | .literal cs => Lexeme.IsQuotable (String.ofList cs)
  | .placeholder name => ']' ∉ name ∧ Sheet.IsClosed 1 (Text.dropEnds Text.isBlank name)

theorem Piece.IsLegible.isReadable {p : Piece} (h : p.IsLegible) : p.IsReadable := by
  cases p with
  | literal cs => exact h
  | placeholder name => exact h.1

theorem Piece.IsLegible.isSteady {p : Piece} (h : p.IsLegible) :
    PropertyValue.IsSteady p.expression.valueText := by
  cases p with
  | literal cs => exact PropertyValue.isSteady_text h
  | placeholder name =>
    refine PropertyValue.isSteady_brace ?_
    rw [String.toList_ofList]
    exact h.2

/-- The text that writes a template can stand in a row. -/
theorem isSteady_expression (h : ∀ p ∈ cut t.toList, p.IsLegible) :
    PropertyValue.IsSteady (expression t).valueText := by
  rw [valueText_expression]
  refine PropertyValue.isSteady_words (by simpa using expressions_ne_nil t) ?_
  rw [expressions]
  split
  · exact List.forall_mem_singleton.mpr (PropertyValue.isSteady_text (Or.inl (by simp)))
  · rw [List.map_map]
    exact List.forall_mem_map.mpr fun p hp => (h p hp).isSteady

/-- A piece that neither trimming nor the punctuation of values affects. -/
def Piece.IsSteady : Piece → Prop
  | .literal cs => Lexeme.IsQuotable (String.ofList cs)
  | .placeholder name =>
    Text.FreeEnds Text.isBlank name ∧ ∀ c ∈ name, Sheet.isPlain c = true

theorem Piece.IsSteady.isLegible {p : Piece} (h : p.IsSteady) : p.IsLegible := by
  cases p with
  | literal cs => exact h
  | placeholder name =>
    refine ⟨fun hmem => ?_, ?_⟩
    · cases h.2 _ hmem
    · rw [h.1.dropEnds_eq]
      exact Sheet.isClosed_of_isPlain h.2

theorem Piece.IsSteady.trimmed_eq {p : Piece} (h : p.IsSteady) : p.trimmed = p := by
  cases p with
  | literal cs => rfl
  | placeholder name => rw [Piece.trimmed, h.1.dropEnds_eq]

def IsWritable (t : String) : Prop := ∀ p ∈ cut t.toList, p.IsSteady

theorem IsWritable.parse_eq (h : IsWritable t) :
    PropertyValue.parse "label" (expression t).valueText =
      .ok (PropertyValue.whole "label" (expressions t)) :=
  parse_expression fun p hp => (h p hp).isLegible.isReadable

/-- The template is read back. -/
theorem IsWritable.template_eq (h : IsWritable t) :
    Style.template (PropertyValue.whole "label" (expressions t)) = t := by
  rw [template_expressions, flatMap_trimmed_cut fun p hp => (h p hp).trimmed_eq,
    String.ofList_toList]

theorem IsWritable.isSteady (h : IsWritable t) :
    PropertyValue.IsSteady (expression t).valueText :=
  isSteady_expression fun p hp => (h p hp).isLegible

end CartoStyle.Style.Template
