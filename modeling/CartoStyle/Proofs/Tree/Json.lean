import CartoStyle.Proofs.Decimal.Layout
import CartoStyle.Tree.Json

/-!
What JSON keeps of a tree. Its content is all of the tree if the numbers are finite. A text reads
as a tree if the tree is found at its start whatever comes after it, as long as nothing comes that
could continue a number. The texts of constants and strings read as what they were written for, and
so do lists and objects if their items do, but not all numbers: the short way of reading rounds
twice.
-/

namespace CartoStyle

/-- Every text in the tree has one property, and every number another. -/
inductive Tree.Every (p : String → Prop) (q : Float → Prop) : Tree → Prop
  | null : Every p q .null
  | bool (b : Bool) : Every p q (.bool b)
  | number {x : Float} (hx : q x) : Every p q (.number x)
  | text {s : String} (hs : p s) : Every p q (.text s)
  | list {items : List Tree} (hitems : ∀ t ∈ items, t.Every p q) : Every p q (.list items)
  | object {fs : Fields} (hfields : ∀ f ∈ fs, f.2.Every p q) : Every p q (.object fs)

namespace Tree

variable {p : String → Prop} {q : Float → Prop}

@[simp] theorem every_number_iff {x : Float} : (number x).Every p q ↔ q x :=
  ⟨fun | .number hx => hx, .number⟩

@[simp] theorem every_text_iff {s : String} : (text s).Every p q ↔ p s :=
  ⟨fun | .text hs => hs, .text⟩

@[simp] theorem every_list_iff {items : List Tree} :
    (list items).Every p q ↔ ∀ t ∈ items, t.Every p q :=
  ⟨fun | .list hitems => hitems, .list⟩

@[simp] theorem every_object_iff {fs : Fields} :
    (object fs).Every p q ↔ ∀ f ∈ fs, f.2.Every p q :=
  ⟨fun | .object hfields => hfields, .object⟩

attribute [simp] Every.null Every.bool

abbrev EveryNumber (q : Float → Prop) (t : Tree) : Prop := t.Every (fun _ => True) q

abbrev IsFinite (t : Tree) : Prop := t.EveryNumber Decimal.IsFinite

end Tree

namespace Json

variable {cs rest : List Char} {t : Tree}

section Content

theorem contents_eq_map (items : List Tree) : contents items = items.map content := by
  induction items with
  | nil => rw [contents, List.map_nil]
  | cons t ts ih => rw [contents, ih, List.map_cons]

theorem fieldContents_eq_map (fs : Tree.Fields) :
    fieldContents fs = fs.map fun f => (f.1, content f.2) := by
  induction fs with
  | nil => rw [fieldContents, List.map_nil]
  | cons f fs ih => rw [fieldContents, ih, List.map_cons]

/-- A tree with finite numbers is its own content. -/
theorem content_of_isFinite (ht : t.IsFinite) : content t = t := by
  induction ht with
  | null | bool | text => rw [content] <;> nofun
  | number hx => rw [content, if_pos (Decimal.isFinite_iff.mp hx)]
  | list _ ih => rw [content, contents_eq_map, List.map_congr_left ih, List.map_id']
  | @object fs _ ih =>
    have hfields : ∀ f ∈ fs, (f.1, content f.2) = f := fun f hf => by rw [ih f hf]
    rw [content, fieldContents_eq_map, List.map_congr_left hfields, List.map_id']

end Content

def isEnd (c : Char) : Bool := isSpace c || c == ',' || c == ']' || c == '\x7d'

/-- The text does not go on in a way that could be a part of the value before it. -/
def Ends (rest : List Char) : Prop := ∀ c ∈ rest.head?, isEnd c = true

theorem isEnd_iff {c : Char} : isEnd c = true ↔
    c = ' ' ∨ c = '\t' ∨ c = '\n' ∨ c = '\r' ∨ c = ',' ∨ c = ']' ∨ c = '\x7d' := by
  simp [isEnd, isSpace, or_assoc]

theorem isDigit_of_isEnd {c : Char} (h : isEnd c = true) : c.isDigit = false := by
  rcases isEnd_iff.mp h with rfl | rfl | rfl | rfl | rfl | rfl | rfl <;> decide

theorem ends_cons {c : Char} (h : isEnd c = true) : Ends (c :: cs) := by
  intro d hd
  obtain rfl : c = d := Option.some.inj hd
  exact h

/-- The text is read as the tree at the start of every text. -/
def ReadsAs (cs : List Char) (t : Tree) : Prop :=
  ∀ fuel rest, 2 * cs.length ≤ fuel → Ends rest → value? (fuel + 1) (cs ++ rest) = some (t, rest)

section Numbers

open Decimal

theorem digits?_append {ds rest : List Char} (hne : ds ≠ []) (hds : ∀ c ∈ ds, c.isDigit = true)
    (hrest : ∀ c ∈ rest.head?, c.isDigit = false) : digits? (ds ++ rest) = some (ds, rest) := by
  rw [digits?, (span_digits hds hrest).1]
  simp [hne]

/-- No point or mark of a power of ten comes after a number. -/
theorem Ends.ne {c d : Char} (hrest : Ends (c :: rest)) (hd : isEnd d = false) : c ≠ d := by
  rintro rfl
  rw [hrest c rfl] at hd
  cases hd

theorem Ends.isDigit (hrest : Ends rest) : ∀ c ∈ rest.head?, c.isDigit = false := fun c hc =>
  isDigit_of_isEnd (hrest c hc)

theorem isDigit_of_head?_append {as : List Char} (has : ∀ c ∈ as.head?, c.isDigit = false)
    (hrest : ∀ c ∈ rest.head?, c.isDigit = false) :
    ∀ c ∈ (as ++ rest).head?, c.isDigit = false := by
  cases as with
  | nil => exact hrest
  | cons a as => exact has

theorem fraction?_fractionText {w : Written} (hw : w.IsNumeral) (hrest : Ends rest) :
    fraction? (Written.fractionText w.fraction ++ (Written.powerText w.power ++ rest)) =
      some (Written.fractionText w.fraction, Written.powerText w.power ++ rest) := by
  obtain ⟨whole, fraction, power⟩ := w
  cases fraction with
  | nil =>
    cases power with
    | some n => rfl
    | none =>
      cases rest with
      | nil => rfl
      | cons c cs =>
        have hpoint := hrest.ne (show isEnd '.' = false by decide)
        show fraction? (c :: cs) = some ([], c :: cs)
        rw [fraction?]
        rintro cs heq
        exact hpoint (List.cons.inj heq).1
  | cons d ds =>
    show (digits? (d :: ds ++ (Written.powerText power ++ rest))).map
      (fun p => ('.' :: p.1, p.2)) = _
    rw [digits?_append (by simp) hw.fraction
      (isDigit_of_head?_append (Written.isDigit_of_head?_powerText power) hrest.isDigit)]
    rfl

theorem exponent?_append (n : Int) (hrest : Ends rest) :
    exponent? ((if n < 0 then ['-'] else []) ++ Nat.toDigits 10 n.natAbs ++ rest) =
      some ('e' :: ((if n < 0 then ['-'] else []) ++ Nat.toDigits 10 n.natAbs), rest) := by
  have hdigits := digits?_append (@Nat.toDigits_ne_nil n.natAbs 10)
    (fun c hc => Nat.isDigit_of_mem_toDigits (by decide) (by decide) hc) hrest.isDigit
  by_cases hn : n < 0
  · rw [if_pos hn]
    show (digits? (Nat.toDigits 10 n.natAbs ++ rest)).map
      (fun p => ('e' :: '-' :: p.1, p.2)) = _
    rw [hdigits]
    rfl
  · obtain ⟨d, ds, hds⟩ := List.exists_cons_of_ne_nil (@Nat.toDigits_ne_nil n.natAbs 10)
    have hd : d.isDigit = true :=
      Nat.isDigit_of_mem_toDigits (by decide) (by decide) (hds ▸ List.mem_cons_self)
    rw [if_neg hn, List.nil_append]
    rw [hds] at hdigits ⊢
    rw [List.cons_append] at hdigits ⊢
    rw [exponent?, hdigits]
    · rfl
    · rintro cs heq
      exact ne_of_isDigit hd (by decide) (List.cons.inj heq).1
    · rintro cs heq
      exact ne_of_isDigit hd (by decide) (List.cons.inj heq).1

theorem power?_powerText (power : Option Int) (hrest : Ends rest) :
    power? (Written.powerText power ++ rest) = some (Written.powerText power, rest) := by
  cases power with
  | some n => exact exponent?_append n hrest
  | none =>
    cases rest with
    | nil => rfl
    | cons c cs =>
      have hsmall := hrest.ne (show isEnd 'e' = false by decide)
      have hlarge := hrest.ne (show isEnd 'E' = false by decide)
      show power? (c :: cs) = some ([], c :: cs)
      rw [power?]
      · rintro cs heq
        exact hsmall (List.cons.inj heq).1
      · rintro cs heq
        exact hlarge (List.cons.inj heq).1

def minus (negative : Bool) : List Char := if negative then ['-'] else []

theorem sign_append (negative : Bool) {w : Written} (hw : w.IsNumeral) :
    sign (minus negative ++ (w.text ++ rest)) = (minus negative, w.text ++ rest) := by
  cases negative with
  | true => rfl
  | false =>
    obtain ⟨c, cs, hcons, hc⟩ := hw.exists_text_cons
    show sign (w.text ++ rest) = ([], w.text ++ rest)
    rw [hcons, List.cons_append, sign]
    rintro cs heq
    exact ne_of_isDigit hc (by decide) (List.cons.inj heq).1

/-- The text of a number is found where the number ends. -/
theorem numeral?_append (negative : Bool) {w : Written} (hw : w.IsNumeral) (hrest : Ends rest) :
    numeral? (minus negative ++ (w.text ++ rest)) = some (minus negative ++ w.text, rest) := by
  have htext : w.text ++ rest =
      w.whole ++ (Written.fractionText w.fraction ++ (Written.powerText w.power ++ rest)) := by
    rw [Written.text, List.append_assoc, List.append_assoc]
  have hwhole := digits?_append hw.nonempty hw.whole (isDigit_of_head?_append
    (Written.isDigit_of_head?_fractionText w.fraction w.power) hrest.isDigit)
  have hleading : (w.whole.head? != some '0' || w.whole.length == 1) = true := by
    simpa using hw.leading
  rw [List.append_assoc] at hwhole
  rw [numeral?, sign_append negative hw]
  show (digits? (w.text ++ rest)).bind _ = _
  rw [htext, hwhole, Option.bind_some]
  dsimp only
  rw [hleading]
  show (fraction? _).bind _ = _
  rw [fraction?_fractionText hw hrest, Option.bind_some]
  show (power? _).bind _ = _
  rw [power?_powerText w.power hrest, Option.bind_some]
  simp [Written.text]

def ReadsBack (x : Float) : Prop := x.isFinite = true ∧ float? (numberText x).toList = some x

/-- The number is found at its place, whatever comes after its text. -/
theorem number?_numberText {x : Float} (hx : ReadsBack x) (hrest : Ends rest) :
    number? ((numberText x).toList ++ rest) = some (.number x, rest) := by
  obtain ⟨hfinite, hread⟩ := hx
  obtain ⟨negative, w, htext, hw, -⟩ := exists_written numberLayout (isFinite_iff.mpr hfinite)
  have hparts : (if negative then '-' :: w.text else w.text) = minus negative ++ w.text := by
    cases negative <;> rfl
  have hnumeral := numeral?_append negative hw hrest
  rw [numberText, if_pos hfinite] at hread ⊢
  rw [hparts] at htext
  rw [← List.append_assoc, ← htext] at hnumeral
  rw [number?, hnumeral]
  show (float? (numberLayout.write x).toList).bind _ = _
  rw [hread]
  rfl

/-- The text of a number begins with its sign or a digit. -/
theorem exists_numberText_cons {x : Float} (hx : x.isFinite = true) :
    ∃ c cs, (numberText x).toList = c :: cs ∧ (c = '-' ∨ c.isDigit = true) := by
  obtain ⟨negative, w, htext, hw, -⟩ := exists_written numberLayout (isFinite_iff.mpr hx)
  rw [numberText, if_pos hx, htext]
  cases negative with
  | true => exact ⟨_, _, rfl, Or.inl rfl⟩
  | false =>
    obtain ⟨c, cs, hcons, hc⟩ := hw.exists_text_cons
    exact ⟨c, cs, hcons, Or.inr hc⟩

end Numbers

section Strings

variable {c : Char}

theorem string?_plain (hquote : c ≠ '"') (hescape : c ≠ '\\') (hprints : 0x20 ≤ c.toNat) :
    string? (c :: cs) = (string? cs).map fun (text, rest) => (c :: text, rest) := by
  have hguard : (guard (0x20 ≤ c.toNat ∧ c ≠ '\\') : Option Unit) = some () :=
    if_pos ⟨hprints, hescape⟩
  rw [string?, hguard]
  · cases string? cs <;> rfl
  · exact hquote
  all_goals
    intros
    exact hescape ‹_›

theorem string?_escape {d : Char} (h : escaped? d = some c) :
    string? ('\\' :: d :: cs) = (string? cs).map fun (text, rest) => (c :: text, rest) := by
  have hne : d ≠ 'u' := by
    rintro rfl
    cases h
  rw [string?, h]
  · show (string? cs).bind _ = _
    cases string? cs <;> rfl
  all_goals
    intros
    exact hne ‹_›

/-- Whether a string goes on with another code unit. -/
theorem unit_cases (cs : List Char) :
    (∃ e f g h rest, cs = '\\' :: 'u' :: e :: f :: g :: h :: rest) ∨
      ∀ e f g h rest, cs = '\\' :: 'u' :: e :: f :: g :: h :: rest → False := by
  by_cases hcs : ∃ e f g h rest, cs = '\\' :: 'u' :: e :: f :: g :: h :: rest
  · exact Or.inl hcs
  · exact Or.inr fun e f g h rest heq => hcs ⟨e, f, g, h, rest, heq⟩

theorem string?_unit_none {a b d e : Char} (h : unit? a b d e = none) :
    string? ('\\' :: 'u' :: a :: b :: d :: e :: cs) = none := by
  rcases unit_cases cs with ⟨f, g, i, j, rest, rfl⟩ | hcs
  · rw [string?, h]
    rfl
  · rw [string?, h]
    · rfl
    · exact hcs

theorem string?_unit {a b d e : Char} {n : Nat} (h : unit? a b d e = some n) (hn : n < 0xD800) :
    string? ('\\' :: 'u' :: a :: b :: d :: e :: cs) =
      (string? cs).map fun (text, rest) => (Char.ofNat n :: text, rest) := by
  have hchar : charOf? n = some (Char.ofNat n) := if_pos (Or.inl hn)
  rcases unit_cases cs with ⟨f, g, i, j, rest, rfl⟩ | hcs
  · rw [string?, h]
    cases hnext : unit? f g i j with
    | none =>
      rw [string?_unit_none hnext]
      rfl
    | some k =>
      have hlow : ¬ (0xD800 ≤ n ∧ n < 0xDC00) := by omega
      show (if 0xD800 ≤ n ∧ n < 0xDC00 then _ else (charOf? n).bind _) = _
      rw [if_neg hlow, hchar]
      show (string? _).bind _ = _
      cases string? ('\\' :: 'u' :: f :: g :: i :: j :: rest) <;> rfl
  · rw [string?, h]
    · show (charOf? n).bind _ = _
      rw [hchar]
      show (string? cs).bind _ = _
      cases string? cs <;> rfl
    · exact hcs

/-- The form of a control character is four hexadecimal digits with its code. -/
theorem exists_unit : ∀ n : Fin 32, ∃ d e,
    List.replicate (4 - (Nat.toDigits 16 n).length) '0' ++ Nat.toDigits 16 n = ['0', '0', d, e] ∧
      unit? '0' '0' d e = some n.val := by
  intro n
  refine ⟨if n.val < 16 then '0' else '1', Nat.digitChar (n % 16), ?_⟩
  revert n
  decide

/-- A character is read back from its form in a string. -/
theorem string?_escapeChar (c : Char) (cs : List Char) :
    string? (escapeChar c ++ cs) = (string? cs).map fun (text, rest) => (c :: text, rest) := by
  unfold escapeChar
  split
  · exact string?_escape rfl
  · exact string?_escape rfl
  · exact string?_escape rfl
  · exact string?_escape rfl
  · exact string?_escape rfl
  · exact string?_escape rfl
  · exact string?_escape rfl
  · rename_i hquote hescape _ _ _ _ _
    by_cases hcontrol : c.toNat < 0x20
    · obtain ⟨d, e, hdigits, hunit⟩ := exists_unit ⟨c.toNat, hcontrol⟩
      rw [if_pos hcontrol]
      simp only at hdigits ⊢
      rw [List.append_assoc ['\\', 'u'], hdigits]
      have hread := @string?_unit cs '0' '0' d e c.toNat hunit (by omega)
      rwa [Char.ofNat_toNat] at hread
    · rw [if_neg hcontrol]
      exact string?_plain hquote hescape (Nat.le_of_not_lt hcontrol)

theorem string?_flatMap (text rest : List Char) :
    string? (text.flatMap escapeChar ++ '"' :: rest) = some (text, rest) := by
  induction text with
  | nil => rfl
  | cons c text ih =>
    rw [List.flatMap_cons, List.append_assoc, string?_escapeChar, ih]
    rfl

end Strings

section Values

variable {fuel : Nat}

theorem skip_append {pre : List Char} (hpre : ∀ c ∈ pre, isSpace c = true) (cs : List Char) :
    skip (pre ++ cs) = skip cs :=
  List.dropWhile_append_of_pos hpre

theorem skip_cons {c : Char} (hc : isSpace c = false) : skip (c :: cs) = c :: cs :=
  List.dropWhile_cons_of_neg (by simp [hc])

/-- Space before a value is skipped. -/
theorem value?_append {pre : List Char} (hpre : ∀ c ∈ pre, isSpace c = true) (cs : List Char) :
    value? fuel (pre ++ cs) = value? fuel cs := by
  cases fuel with
  | zero => rw [value?, value?]
  | succ fuel =>
    have hskip := skip_append hpre cs
    unfold value?
    rw [hskip]

theorem readsAs_null : ReadsAs "null".toList .null := fun _ _ _ _ => rfl

theorem readsAs_bool (b : Bool) : ReadsAs (if b then "true" else "false").toList (.bool b) := by
  cases b <;> exact fun _ _ _ _ => rfl

theorem readsAs_number {x : Float} (hx : ReadsBack x) :
    ReadsAs (numberText x).toList (.number x) := by
  intro fuel rest _ hrest
  obtain ⟨c, cs, hcons, hc⟩ := exists_numberText_cons hx.1
  have hnumber := number?_numberText hx hrest
  rw [hcons, List.cons_append] at hnumber ⊢
  have hne {d : Char} (hd : d.isDigit = false) (hminus : '-' ≠ d) : c ≠ d :=
    hc.elim (fun hc => hc ▸ hminus) fun hc => Decimal.ne_of_isDigit hc hd
  have hspace : isSpace c = false := by
    simp only [isSpace, Bool.or_eq_false_iff, beq_eq_false_iff_ne]
    exact ⟨⟨⟨hne (by decide) (by decide), hne (by decide) (by decide)⟩,
      hne (by decide) (by decide)⟩, hne (by decide) (by decide)⟩
  unfold value?
  rw [skip_cons hspace]
  split
  next heq => exact absurd (List.cons.inj heq).1 (hne (by decide) (by decide))
  next heq => exact absurd (List.cons.inj heq).1 (hne (by decide) (by decide))
  next heq => exact absurd (List.cons.inj heq).1 (hne (by decide) (by decide))
  next heq => exact absurd (List.cons.inj heq).1 (hne (by decide) (by decide))
  next heq => exact absurd (List.cons.inj heq).1 (hne (by decide) (by decide))
  next heq => exact absurd (List.cons.inj heq).1 (hne (by decide) (by decide))
  next => exact hnumber

theorem toList_quote (s : String) :
    (quote s).toList = '"' :: (s.toList.flatMap escapeChar ++ ['"']) := by
  rw [quote, String.toList_ofList]
  rfl

theorem string?_quote (s : String) (rest : List Char) :
    string? (s.toList.flatMap escapeChar ++ ['"'] ++ rest) = some (s.toList, rest) := by
  rw [List.append_assoc, List.singleton_append, string?_flatMap]

theorem readsAs_text (s : String) : ReadsAs (quote s).toList (.text s) := by
  intro fuel rest _ _
  rw [toList_quote, List.cons_append]
  show (string? (s.toList.flatMap escapeChar ++ ['"'] ++ rest)).map
    (fun (text, rest) => (Tree.text (String.ofList text), rest)) = _
  rw [string?_quote]
  show some (Tree.text (String.ofList s.toList), rest) = _
  rw [String.ofList_toList]

def joined (indent : List Char) (lines : List (List Char)) : List Char :=
  [',', '\n'].intercalate (lines.map (indent ++ ·))

theorem joined_singleton (indent line : List Char) : joined indent [line] = indent ++ line :=
  List.intercalate_singleton

theorem joined_cons (indent line : List Char) {lines : List (List Char)} (hlines : lines ≠ []) :
    joined indent (line :: lines) = indent ++ line ++ (',' :: '\n' :: joined indent lines) := by
  rw [joined, List.map_cons, List.intercalate_cons_of_ne_nil (by simpa using hlines),
    List.append_assoc]
  rfl

/-- The space between the last line and the closing bracket, and the bracket. -/
theorem skip_closing {indent : List Char} (hindent : ∀ c ∈ indent, isSpace c = true) {c : Char}
    (hc : isSpace c = false) (rest : List Char) :
    skip ('\n' :: (indent ++ c :: rest)) = c :: rest := by
  have hspace : ∀ c ∈ '\n' :: indent, isSpace c = true := by
    rintro c (_ | ⟨_, hc⟩)
    · rfl
    · exact hindent c hc
  rw [← List.cons_append, skip_append hspace, skip_cons hc]

section Lines

variable {α : Type} {read : Nat → List Char → Option (List α × List Char)} {opening closing : Char}

def ReadsLine (read : Nat → List Char → Option (List α × List Char)) (closing : Char)
    (line : List Char) (a : α) : Prop :=
  ∀ fuel pre inner rest, (∀ c ∈ pre, isSpace c = true) → (∀ c ∈ inner, isSpace c = true) →
    2 * line.length ≤ fuel → Ends rest →
      (∀ after, skip rest = ',' :: after →
        read (fuel + 2) (pre ++ (inner ++ line ++ rest)) =
          (read (fuel + 1) after).map fun (as, rest) => (a :: as, rest)) ∧
      ∀ after, skip rest = closing :: after →
        read (fuel + 2) (pre ++ (inner ++ line ++ rest)) = some ([a], after)

/-- Lines that are read one by one are read below each other, up to the closing bracket. -/
theorem read_joined {indent inner : List Char} (hindent : ∀ c ∈ indent, isSpace c = true)
    (hinner : ∀ c ∈ inner, isSpace c = true) (hclosing : isSpace closing = false)
    {lines : List (List Char)} {as : List α} (h : List.Forall₂ (ReadsLine read closing) lines as)
    (hlines : lines ≠ []) {pre : List Char} (hpre : ∀ c ∈ pre, isSpace c = true)
    (rest : List Char) {fuel : Nat} (hfuel : 2 * (joined inner lines).length + 1 ≤ fuel) :
    read (fuel + 1) (pre ++ (joined inner lines ++ '\n' :: (indent ++ closing :: rest))) =
      some (as, rest) := by
  induction h generalizing fuel pre with
  | nil => exact absurd rfl hlines
  | @cons line a lines as hline hrest ih =>
    obtain ⟨fuel, rfl⟩ : ∃ f, fuel = f + 1 := ⟨fuel - 1, by omega⟩
    by_cases hlast : lines = []
    · subst hlast
      obtain rfl := List.forall₂_nil_left_iff.mp hrest
      rw [joined_singleton, List.length_append] at hfuel
      rw [joined_singleton]
      exact (hline fuel pre inner _ hpre hinner (by omega) (ends_cons (by decide))).2 rest
        (skip_closing hindent hclosing rest)
    · rw [joined_cons inner line hlast] at hfuel ⊢
      simp only [List.length_append, List.length_cons] at hfuel
      have hmore := @ih hlast ['\n'] (by simp [isSpace]) fuel (by omega)
      rw [List.singleton_append] at hmore
      rw [List.append_assoc, List.cons_append, List.cons_append,
        (hline fuel pre inner _ hpre hinner (by omega) (ends_cons (by decide))).1 _
          (skip_cons (by decide)), hmore]
      rfl

/-- Lines between brackets are read as the list or the object of what they are read as. -/
theorem readsAs_lines {wrap : List α → Tree}
    (hwrap : ∀ {fuel : Nat} {cs rest : List Char} {as : List α}, read fuel cs = some (as, rest) →
      value? (fuel + 1) (opening :: cs) = some (wrap as, rest))
    {indent inner : List Char} (hindent : ∀ c ∈ indent, isSpace c = true)
    (hinner : ∀ c ∈ inner, isSpace c = true) (hclosing : isSpace closing = false)
    {lines : List (List Char)} {as : List α} (h : List.Forall₂ (ReadsLine read closing) lines as)
    (hlines : lines ≠ []) :
    ReadsAs (opening :: '\n' :: (joined inner lines ++ '\n' :: (indent ++ [closing])))
      (wrap as) := by
  intro fuel rest hfuel _
  simp only [List.length_append, List.length_cons] at hfuel
  obtain ⟨fuel, rfl⟩ : ∃ f, fuel = f + 1 := ⟨fuel - 1, by omega⟩
  have hread := @read_joined _ read closing indent inner hindent hinner hclosing lines as h hlines
    ['\n'] (by simp [isSpace]) rest fuel (by omega)
  have htext : opening :: '\n' :: (joined inner lines ++ '\n' :: (indent ++ [closing])) ++ rest =
      opening :: (['\n'] ++ (joined inner lines ++ '\n' :: (indent ++ closing :: rest))) := by
    simp
  rw [htext]
  exact hwrap hread

end Lines

/-- The item of a list in a line. -/
theorem readsLine_item {line : List Char} (hline : ReadsAs line t) :
    ReadsLine items? ']' line t := by
  intro fuel pre inner rest hpre hinner hfuel hrest
  have hvalue : value? (fuel + 1) (pre ++ (inner ++ line ++ rest)) = some (t, rest) := by
    rw [value?_append hpre, List.append_assoc, value?_append hinner]
    exact hline fuel rest hfuel hrest
  rw [items?, hvalue, Option.bind_eq_bind, Option.bind_some]
  dsimp only
  refine ⟨fun after hafter => ?_, fun after hafter => ?_⟩
  · rw [hafter]
    show (items? (fuel + 1) after).bind _ = (items? (fuel + 1) after).map _
    cases items? (fuel + 1) after <;> rfl
  · rw [hafter]
    rfl

/-- The name and the value of a field in a line. -/
theorem readsLine_field {cs : List Char} (name : String) (hcs : ReadsAs cs t) :
    ReadsLine members? '\x7d' ((quote name).toList ++ ':' :: ' ' :: cs) (name, t) := by
  intro fuel pre inner rest hpre hinner hfuel hrest
  have hskip : skip (pre ++ (inner ++ ((quote name).toList ++ ':' :: ' ' :: cs) ++ rest)) =
      '"' :: (name.toList.flatMap escapeChar ++ ['"'] ++ (':' :: ' ' :: (cs ++ rest))) := by
    rw [skip_append hpre, List.append_assoc, skip_append hinner, toList_quote]
    simp only [List.cons_append, List.append_assoc]
    exact skip_cons (by decide)
  have hvalue : value? (fuel + 1) (' ' :: (cs ++ rest)) = some (t, rest) := by
    rw [← List.singleton_append, value?_append (by simp [isSpace])]
    refine hcs fuel rest ?_ hrest
    simp only [List.length_append, List.length_cons] at hfuel
    omega
  rw [members?, hskip]
  show (∀ after, _ → (string? _).bind _ = _) ∧ ∀ after, _ → (string? _).bind _ = _
  rw [string?_quote, Option.bind_some]
  dsimp only
  rw [skip_cons (show isSpace ':' = false by decide)]
  show (∀ after, _ → (value? (fuel + 1) _).bind _ = _) ∧
    ∀ after, _ → (value? (fuel + 1) _).bind _ = _
  rw [hvalue, Option.bind_some, String.ofList_toList]
  dsimp only
  refine ⟨fun after hafter => ?_, fun after hafter => ?_⟩
  · rw [hafter]
    show (members? (fuel + 1) after).bind _ = (members? (fuel + 1) after).map _
    cases members? (fuel + 1) after <;> rfl
  · rw [hafter]
    rfl

theorem value?_skip (fuel : Nat) (cs : List Char) : value? fuel (skip cs) = value? fuel cs := by
  have hspace : ∀ c ∈ cs.takeWhile isSpace, isSpace c = true := fun c hc => by
    simpa using List.mem_takeWhile_imp hc
  have hsplit := @value?_append fuel _ hspace (skip cs)
  rwa [skip, List.takeWhile_append_dropWhile, eq_comm] at hsplit

theorem items?_skip (fuel : Nat) (cs : List Char) : items? fuel (skip cs) = items? fuel cs := by
  cases fuel with
  | zero => rw [items?, items?]
  | succ fuel => rw [items?, items?, value?_skip]

theorem members?_skip (fuel : Nat) (cs : List Char) :
    members? fuel (skip cs) = members? fuel cs := by
  have hskip : skip (skip cs) = skip cs := List.dropWhile_idempotent _ _
  cases fuel with
  | zero => rw [members?, members?]
  | succ fuel => rw [members?, members?, hskip]

/-- No item begins with the closing bracket. -/
theorem items?_closing (fuel : Nat) (cs : List Char) : items? fuel (']' :: cs) = none := by
  match fuel with
  | 0 => rw [items?]
  | 1 => rw [items?, value?]; rfl
  | fuel + 2 => rfl

theorem members?_closing (fuel : Nat) (cs : List Char) : members? fuel ('\x7d' :: cs) = none := by
  cases fuel with
  | zero => rw [members?]
  | succ fuel => rfl

theorem value?_list {items : List Tree} (h : items? fuel cs = some (items, rest)) :
    value? (fuel + 1) ('[' :: cs) = some (.list items, rest) := by
  rw [← items?_skip] at h
  have hopen : skip ('[' :: cs) = '[' :: cs := rfl
  rw [value?, hopen]
  simp only
  split
  next heq =>
    rw [heq, items?_closing] at h
    cases h
  next =>
    rw [h]
    rfl

theorem value?_object {fs : Tree.Fields} (h : members? fuel cs = some (fs, rest)) :
    value? (fuel + 1) ('\x7b' :: cs) = some (.object fs, rest) := by
  rw [← members?_skip] at h
  have hopen : skip ('\x7b' :: cs) = '\x7b' :: cs := rfl
  rw [value?, hopen]
  simp only
  split
  next heq =>
    rw [heq, members?_closing] at h
    cases h
  next =>
    rw [h]
    rfl

end Values

section Trees

theorem renderItems_eq_map (indent : String) (items : List Tree) :
    renderItems indent items = items.map (render indent) := by
  induction items with
  | nil => rw [renderItems, List.map_nil]
  | cons t ts ih => rw [renderItems, ih, List.map_cons]

theorem renderFields_eq_map (indent : String) (fs : Tree.Fields) :
    renderFields indent fs = fs.map fun f => quote f.1 ++ ": " ++ render indent f.2 := by
  induction fs with
  | nil => rw [renderFields, List.map_nil]
  | cons f fs ih => rw [renderFields, ih, List.map_cons]

theorem toList_bracketed_nil (opening closing indent : String) :
    (bracketed opening closing indent []).toList = opening.toList ++ closing.toList := by
  rw [bracketed, if_pos (by rfl), String.toList_append]

theorem toList_bracketed (opening closing indent : String) {lines : List String}
    (hlines : lines ≠ []) :
    (bracketed opening closing indent lines).toList =
      opening.toList ++ '\n' :: (joined (indent ++ "  ").toList (lines.map String.toList) ++
        '\n' :: (indent.toList ++ closing.toList)) := by
  have hjoined : (",\n".intercalate (lines.map (indent ++ "  " ++ ·))).toList =
      joined (indent ++ "  ").toList (lines.map String.toList) := by
    rw [String.toList_intercalate, joined]
    simp only [List.map_map, Function.comp_def, String.toList_append]
    rfl
  rw [bracketed, if_neg (by simpa using hlines), String.toList_append, String.toList_append,
    String.toList_append, String.toList_append, hjoined, String.toList_append, List.append_assoc,
    List.append_assoc, List.append_assoc, List.append_assoc]
  rfl

theorem isSpace_of_mem_indented {indent : String} (h : ∀ c ∈ indent.toList, isSpace c = true) :
    ∀ c ∈ (indent ++ "  ").toList, isSpace c = true := by
  intro c hc
  rw [String.toList_append] at hc
  rcases List.mem_append.mp hc with hc | hc
  · exact h c hc
  · obtain rfl : c = ' ' := by simpa using hc
    rfl

/-- By induction on the tree, below any indentation. -/
theorem readsAs_render (ht : t.EveryNumber ReadsBack) {indent : String}
    (hindent : ∀ c ∈ indent.toList, isSpace c = true) :
    ReadsAs (render indent t).toList t := by
  induction ht generalizing indent with
  | null =>
    rw [render]
    exact readsAs_null
  | bool b =>
    rw [render]
    exact readsAs_bool b
  | number hx =>
    rw [render]
    exact readsAs_number hx
  | @text s _ =>
    rw [render]
    exact readsAs_text s
  | @list items _ ih =>
    rw [render, renderItems_eq_map]
    by_cases hitems : items = []
    · subst hitems
      rw [List.map_nil, toList_bracketed_nil]
      exact fun _ _ _ _ => rfl
    · have hinner := isSpace_of_mem_indented hindent
      rw [toList_bracketed _ _ _ (by simpa using hitems)]
      refine readsAs_lines value?_list hindent hinner (by decide) ?_ (by simpa using hitems)
      rw [List.forall₂_map_left_iff, List.forall₂_map_left_iff, List.forall₂_same]
      exact fun t ht => readsLine_item (ih t ht hinner)
  | @object fs _ ih =>
    rw [render, renderFields_eq_map]
    by_cases hfields : fs = []
    · subst hfields
      rw [List.map_nil, toList_bracketed_nil]
      exact fun _ _ _ _ => rfl
    · have hinner := isSpace_of_mem_indented hindent
      rw [toList_bracketed _ _ _ (by simpa using hfields)]
      refine readsAs_lines value?_object hindent hinner (by decide) ?_ (by simpa using hfields)
      rw [List.forall₂_map_left_iff, List.forall₂_map_left_iff, List.forall₂_same]
      intro f hf
      rw [String.toList_append, String.toList_append, List.append_assoc]
      exact readsLine_field f.1 (ih f hf hinner)

/-- A tree is read back from its text, and from the lines that end with it, if the numbers in it are
read back and it is not nested too deep. -/
theorem parse?_write (ht : t.EveryNumber ReadsBack) (hdepth : depth t ≤ 127) {after : String}
    (hafter : ∀ c ∈ after.toList, isSpace c = true) : parse? (write t ++ after) = some t := by
  have hends : Ends after.toList := fun c hc => by
    rw [isEnd, hafter c (List.mem_of_mem_head? hc)]
    rfl
  have hskip : skip after.toList = [] := List.dropWhile_eq_nil_iff.mpr hafter
  have hvalue := @readsAs_render t ht "" nofun
    (2 * ((write t).toList ++ after.toList).length + 1) after.toList
    (by rw [write, List.length_append]; omega) hends
  rw [parse?, String.toList_append]
  show (value? (2 * ((write t).toList ++ after.toList).length + 1 + 1)
    ((render "" t).toList ++ after.toList)).bind _ = _
  rw [hvalue, Option.bind_some]
  dsimp only
  rw [hskip, decide_eq_true hdepth]
  rfl

/-- The double nearest to an eleventh is written with sixteen digits, which do not fit in the
fifty-three bits of a double. -/
theorem not_forall_parse?_write : ¬ ∀ t : Tree, t.IsFinite → parse? (write t) = some t := by
  intro h
  have hfinite : Decimal.IsFinite (1 / 11) := Decimal.isFinite_iff.mpr (by decide +kernel)
  have hread := congrArg (Option.map (Tree.number? · == some (1 / 11)))
    (h (.number (1 / 11)) (.number hfinite))
  have hother : (parse? (write (.number (1 / 11)))).map (Tree.number? · == some (1 / 11)) =
      some false := by decide +kernel
  rw [hother] at hread
  cases hread

end Trees

end Json

end CartoStyle
