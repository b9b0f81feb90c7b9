import CartoStyle.Expression.Written
import CartoStyle.Proofs.Value.Grammar
import CartoStyle.Proofs.Value.Lexeme

/-!
The value text of an expression is read as that expression. The expressions
concerned are atoms, among them calls with arguments, and atoms in a row.
-/

namespace CartoStyle.PropertyValue

open Lexeme

def Writes (k : Category) (cs : List Char) (es : List Expression) : Prop :=
  ∃ ts, Spells cs ts ∧ Derives k ts es

variable {cs ds : List Char} {e arg : Expression} {es args : List Expression}

theorem Writes.single (h : Writes .atom cs [e]) : Writes .atoms cs [e] := by
  obtain ⟨ts, hspells, hderives⟩ := h
  refine ⟨ts, hspells, ?_⟩
  have hatoms := Derives.cons hderives .nil
  rwa [List.append_nil] at hatoms

theorem Writes.cons (h : Writes .atom cs [e]) (hmore : Writes .atoms ds es) :
    Writes .atoms (cs ++ ' ' :: ds) (e :: es) := by
  obtain ⟨ts, hspells, hderives⟩ := h
  obtain ⟨us, hspells', hderives'⟩ := hmore
  exact ⟨ts ++ us, hspells.append_space skipsBlanks hspells', .cons hderives hderives'⟩

theorem Writes.last (h : Writes .atoms cs es) (harg : argument es = .ok arg) :
    Writes .arguments cs [arg] := by
  obtain ⟨ts, hspells, hderives⟩ := h
  exact ⟨ts, hspells, .last hderives harg⟩

theorem Writes.next (h : Writes .atoms cs es) (harg : argument es = .ok arg)
    (hmore : Writes .arguments ds args) :
    Writes .arguments (cs ++ ',' :: ' ' :: ds) (arg :: args) := by
  obtain ⟨ts, hspells, hderives⟩ := h
  obtain ⟨us, hspells', hderives'⟩ := hmore
  exact ⟨ts ++ .comma :: us, Spells.append_comma hspells hspells', .next hderives harg hderives'⟩

theorem Writes.call {w : String} (hw : IsWord w) (h : Writes .arguments cs args) :
    Writes .atom (w.toList ++ '(' :: (cs ++ [')'])) [.apply (.ofName w.toLower) args] := by
  obtain ⟨ts, hspells, hderives⟩ := h
  exact ⟨_, Spells.call hw hspells, .call w hderives⟩

/-- A text that is read as atoms is the value that combines them. -/
theorem Writes.parse_eq {key text : String} (h : Writes .atoms text.toList es)
    (he : combine key es = .ok e) : parse key text = .ok e := by
  obtain ⟨ts, hspells, hderives⟩ := h
  have htokens : tokens? text = some ts := hspells.tiling?_eq
  simp only [parse, htokens, ofTokens_of_derives hderives, he]
  rfl

/-- Atoms in a row as one expression; a single one stands for itself. -/
def row : List Expression → Expression
  | [e] => e
  | es => .array es

theorem argument_eq (h : es ≠ []) : argument es = .ok (row es) := by
  cases es with
  | nil => exact absurd rfl h
  | cons e es => cases es <;> rfl

structure IsCallName (name : String) : Prop where
  word : IsWord name
  lower : name.toLower = name
  unknown : Operator.ofName name = .other name

inductive IsAtom : Expression → Prop
  | hex {colour : String} (h : IsHex colour) : IsAtom (.hex colour)
  | number {x : Float} (h : Decimal.IsNumber x) : IsAtom (.number x)
  | text {s : String} (h : IsQuotable s) : IsAtom (.text s)
  | truth (b : Bool) : IsAtom (.truth b)
  | symbol {s : String} (h : IsQuotable s) : IsAtom (.symbol s)
  | url {s : String} (h : IsQuotable s) : IsAtom (.url s)
  | brace {name : String} (h : IsBraceName name) : IsAtom (.apply .brace [.get name])
  | call {name : String} {rows : List (List Expression)} (hname : IsCallName name)
      (hne : ∀ es ∈ rows, es ≠ []) (h : ∀ es ∈ rows, ∀ e ∈ es, IsAtom e) :
      IsAtom (.apply (.other name) (rows.map row))

theorem valueTexts_eq_map (es : List Expression) :
    Expression.valueTexts es = es.map Expression.valueText := by
  induction es with
  | nil => rfl
  | cons e es ih => rw [Expression.valueTexts, ih, List.map_cons]

theorem valueText_row (h : es ≠ []) :
    (row es).valueText = " ".intercalate (es.map Expression.valueText) := by
  have harray :
      (Expression.array es).valueText = " ".intercalate (es.map Expression.valueText) := by
    rw [Expression.array, Expression.valueText, valueTexts_eq_map]
  cases es with
  | nil => exact absurd rfl h
  | cons e es =>
    cases es with
    | nil => simp [row]
    | cons f es => exact harray

/-- Texts of atoms with blanks between them. -/
theorem writes_intercalate_atoms {texts : List String} (hne : es ≠ [])
    (h : List.Forall₂ (fun t e => Writes .atom t.toList [e]) texts es) :
    Writes .atoms (" ".intercalate texts).toList es := by
  induction h with
  | nil => exact absurd rfl hne
  | @cons t e texts es he hmore ih =>
    by_cases hnil : es = []
    · subst hnil
      cases hmore
      simpa using he.single
    · have htexts : texts ≠ [] := by
        rintro rfl
        exact hnil (List.forall₂_nil_left_iff.mp hmore)
      rw [String.intercalate_cons_of_ne_nil htexts]
      simpa using he.cons (ih hnil)

/-- Texts of arguments with commas between them. -/
theorem writes_intercalate_arguments {texts : List String} {rows : List (List Expression)}
    (hne : rows ≠ [])
    (h : List.Forall₂ (fun t es => es ≠ [] ∧ Writes .atoms t.toList es) texts rows) :
    Writes .arguments (", ".intercalate texts).toList (rows.map row) := by
  induction h with
  | nil => exact absurd rfl hne
  | @cons t es texts rows hes hmore ih =>
    obtain ⟨hatoms, hwrites⟩ := hes
    by_cases hnil : rows = []
    · subst hnil
      cases hmore
      simpa using hwrites.last (argument_eq hatoms)
    · have htexts : texts ≠ [] := by
        rintro rfl
        exact hnil (List.forall₂_nil_left_iff.mp hmore)
      rw [String.intercalate_cons_of_ne_nil htexts]
      simpa using hwrites.next (argument_eq hatoms) (ih hnil)

theorem isWord_of_isBareWord {s : String} (h : Text.isBareWord s = true) :
    IsWord s ∧ s ∉ Text.reservedWords := by
  rw [Text.isBareWord] at h
  split at h
  · cases h
  · next c cs hcs =>
    simp only [Bool.and_eq_true, List.all_eq_true, Bool.not_eq_true', List.contains_eq_mem,
      decide_eq_false_iff_not] at h
    obtain ⟨⟨hfirst, hrest⟩, hword⟩ := h
    refine ⟨⟨c, cs, hcs, ?_, fun d hd => ?_⟩, hword⟩
    · rw [Text.isWordStart] at hfirst
      simp [isWordFirst, hfirst]
    · have hd := hrest d hd
      simp only [Text.isWordRest, Bool.or_eq_true] at hd
      simp only [isWordChar, Bool.or_eq_true]
      exact Or.inl (Or.inl hd)

theorem writes_text {s : String} (h : IsQuotable s) :
    Writes .atom (Expression.text s).valueText.toList [.text s] := by
  rw [Expression.text, Expression.valueText, Expression.literalText]
  by_cases hbare : Text.isBareWord s = true
  · obtain ⟨hword, hplain⟩ := isWord_of_isBareWord hbare
    have hexpr : wordExpression s = .text s := by
      have hne : s ≠ "true" ∧ s ≠ "false" := by
        constructor <;>
          · rintro rfl
            exact hplain (by decide)
      rw [wordExpression, if_neg hne.1, if_neg hne.2]
    have hderives := Derives.word s
    rw [hexpr] at hderives
    rw [if_pos hbare]
    exact ⟨_, spells_word hword, hderives⟩
  · rw [if_neg hbare]
    exact ⟨_, spells_quoted h, .quoted s⟩

theorem writes_truth (b : Bool) :
    Writes .atom (Expression.truth b).valueText.toList [.truth b] := by
  have hword (w : String) (hw : IsWord w) : Writes .atom w.toList [wordExpression w] :=
    ⟨_, spells_word hw, .word w⟩
  cases b with
  | false => exact hword "false" ⟨'f', "alse".toList, rfl, rfl, List.all_eq_true.mp (by decide)⟩
  | true => exact hword "true" ⟨'t', "rue".toList, rfl, rfl, List.all_eq_true.mp (by decide)⟩

theorem isWord_drawing {op : Operator} (hop : op = .symbol ∨ op = .url) : IsWord op.name := by
  rcases hop with rfl | rfl
  · exact ⟨'s', "ymbol".toList, rfl, rfl, List.all_eq_true.mp (by decide)⟩
  · exact ⟨'u', "rl".toList, rfl, rfl, List.all_eq_true.mp (by decide)⟩

/-- The text of a quoted name in the call of a symbol or of an address. -/
theorem toList_valueText_drawing {op : Operator} (hop : op = .symbol ∨ op = .url) (s : String) :
    (Expression.apply op [.text s]).valueText.toList =
      op.name.toList ++ '(' :: ((Text.quote s).toList ++ [')']) := by
  rcases hop with rfl | rfl <;>
    simp [Expression.valueText, Expression.readFirst, Expression.read, Expression.text,
      Value.toText?, Operator.name]

theorem writes_drawing {op : Operator} (hop : op = .symbol ∨ op = .url) {s : String}
    (h : IsQuotable s) :
    Writes .atom (Expression.apply op [.text s]).valueText.toList [.apply op [.text s]] := by
  have hquoted : Writes .atom (Text.quote s).toList [.text s] :=
    ⟨_, spells_quoted h, .quoted s⟩
  have hcall := (hquoted.single.last rfl).call (isWord_drawing hop)
  have hlower : op.name.toList.map Char.toLower = op.name.toList := by
    rcases hop with rfl | rfl <;> decide
  have hname : Operator.ofName op.name = op := by
    rcases hop with rfl | rfl <;> exact Operator.ofName_name rfl
  rwa [Text.toLower_eq_self hlower, hname, ← toList_valueText_drawing hop] at hcall

/-- A function with a name of its own in front of its arguments. -/
theorem writes_call {name : String} {texts : List String} {rows : List (List Expression)}
    (hname : IsCallName name)
    (h : List.Forall₂ (fun t es => es ≠ [] ∧ Writes .atoms t.toList es) texts rows) :
    Writes .atom (name ++ "(" ++ ", ".intercalate texts ++ ")").toList
      [.apply (.other name) (rows.map row)] := by
  have hop : Operator.ofName name.toLower = .other name := by rw [hname.lower, hname.unknown]
  by_cases hnil : rows = []
  · subst hnil
    cases h
    have hderives := Derives.bareCall name
    rw [hop] at hderives
    exact ⟨_, by simpa using spells_bareCall hname.word, hderives⟩
  · have hcall := (writes_intercalate_arguments hnil h).call hname.word
    rw [hop] at hcall
    simpa using hcall

/-- The value text of an atom is read as that atom. -/
theorem writes_of_isAtom (h : IsAtom e) : Writes .atom e.valueText.toList [e] := by
  induction h with
  | hex h => exact ⟨_, spells_hex h, .hex _⟩
  | number h => exact ⟨_, spells_number h, .number _⟩
  | text h => exact writes_text h
  | truth b => exact writes_truth b
  | symbol h => exact writes_drawing (Or.inl rfl) h
  | url h => exact writes_drawing (Or.inr rfl) h
  | @brace name h =>
    have hspells := spells_brace h
    have htext : (Expression.apply .brace [.get name]).valueText.toList =
        '[' :: (name.toList ++ [']']) := by
      simp [Expression.valueText, Expression.valueTexts, Expression.get, Expression.plainFirst,
        Expression.text]
    rw [htext]
    exact ⟨_, hspells, .brace name⟩
  | @call name rows hname hne _ ih =>
    have htexts : (rows.map row).map Expression.valueText =
        rows.map fun es => " ".intercalate (es.map Expression.valueText) := by
      rw [List.map_map]
      exact List.map_congr_left fun es hes => valueText_row (hne es hes)
    rw [Expression.valueText, valueTexts_eq_map, htexts]
    refine writes_call hname (List.forall₂_map_left_iff.mpr (List.forall₂_same.mpr ?_))
    intro es hes
    refine ⟨hne es hes, writes_intercalate_atoms (hne es hes) ?_⟩
    exact List.forall₂_map_left_iff.mpr (List.forall₂_same.mpr (ih es hes))

def whole (key : String) : List Expression → Expression
  | [e] => e
  | es => .apply (if key = "label" then .text else .array) es

theorem combine_eq {key : String} (h : es ≠ []) : combine key es = .ok (whole key es) := by
  cases es with
  | nil => exact absurd rfl h
  | cons e es => cases es <;> rfl

theorem valueText_whole (key : String) (h : es ≠ []) :
    (whole key es).valueText = " ".intercalate (es.map Expression.valueText) := by
  have hseveral : (Expression.apply (if key = "label" then .text else .array) es).valueText =
      " ".intercalate (es.map Expression.valueText) := by
    split <;> rw [Expression.valueText, valueTexts_eq_map]
  cases es with
  | nil => exact absurd rfl h
  | cons e es =>
    cases es with
    | nil => simp [whole]
    | cons f es => exact hseveral

/-- Atoms are read back from the value text of the property that they make up. -/
theorem parse_whole (key : String) (hne : es ≠ []) (h : ∀ e ∈ es, IsAtom e) :
    parse key (whole key es).valueText = .ok (whole key es) := by
  have hwrites := writes_intercalate_atoms hne (List.forall₂_map_left_iff.mpr
    (List.forall₂_same.mpr fun e he => writes_of_isAtom (h e he)))
  rw [← valueText_whole key hne] at hwrites
  exact hwrites.parse_eq (combine_eq hne)

/-- An atom is read back from its value text. -/
theorem parse_atom {key : String} (h : IsAtom e) : parse key e.valueText = .ok e :=
  (writes_of_isAtom h).single.parse_eq rfl

/-- Outside of labels the value does not depend on the key. -/
theorem parse_of_ne_label {key key' text : String} (hkey : key ≠ "label") (hkey' : key' ≠ "label")
    (h : parse key text = .ok e) : parse key' text = .ok e := by
  have hcombine (es : List Expression) : combine key' es = combine key es := by
    match es with
    | [] => rfl
    | [_] => rfl
    | _ :: _ :: _ => simp only [combine, if_neg hkey, if_neg hkey']
  rw [parse] at h ⊢
  cases htokens : tokens? text with
  | none =>
    rw [htokens] at h
    cases h
  | some ts =>
    have hread : ofTokens key' ts = ofTokens key ts := by simp only [ofTokens, hcombine]
    simp only [htokens] at h ⊢
    rw [hread]
    cases hvalue : ofTokens key ts with
    | error fault =>
      rw [hvalue] at h
      cases h
    | ok e =>
      rw [hvalue] at h
      exact h

end CartoStyle.PropertyValue
