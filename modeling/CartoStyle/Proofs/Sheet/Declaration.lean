import CartoStyle.Proofs.Sheet.Lexeme
import CartoStyle.Proofs.Text.Character
import CartoStyle.Proofs.Text.Splitting

/-!
Declarations as tokens. A declaration ends at its first semicolon outside
quotes, whatever follows, and is read into its key and its values if these have
no comma at their top level.
-/

namespace CartoStyle.Sheet

open Pattern

/-- Quotes are closed, and braces and semicolons stand only between quotes. -/
def isGuarded : (quote : Option Char) → List Char → Bool
  | none, [] => true
  | some _, [] => false
  | none, c :: cs =>
    if Text.isQuote c then isGuarded (some c) cs
    else !"\x7b\x7d;".toList.contains c && isGuarded none cs
  | some q, c :: cs => if c == q then isGuarded none cs else isGuarded (some q) cs

theorem isGuarded_append {quote : Option Char} {xs ys : List Char}
    (hx : isGuarded quote xs = true) (hy : isGuarded none ys = true) :
    isGuarded quote (xs ++ ys) = true := by
  induction xs generalizing quote with
  | nil =>
    cases quote with
    | none => exact hy
    | some q => cases hx
  | cons c xs ih =>
    cases quote with
    | none =>
      rw [isGuarded] at hx
      rw [List.cons_append, isGuarded]
      by_cases hc : Text.isQuote c = true
      · rw [if_pos hc] at hx ⊢
        exact ih hx
      · rw [if_neg hc, Bool.and_eq_true] at hx ⊢
        exact ⟨hx.1, ih hx.2⟩
    | some q =>
      rw [isGuarded] at hx
      rw [List.cons_append, isGuarded]
      by_cases hc : (c == q) = true
      · rw [if_pos hc] at hx ⊢
        exact ih hx
      · rw [if_neg hc] at hx ⊢
        exact ih hx

/-- A property of the parts and of the separator between them, which texts that have it keep when
they are put together. -/
theorem intercalate_induction {P : List Char → Prop} {separator : List Char} (hnil : P [])
    (happend : ∀ xs ys, P xs → P ys → P (xs ++ ys)) (hsep : P separator)
    {parts : List (List Char)} (h : ∀ p ∈ parts, P p) : P (separator.intercalate parts) := by
  induction parts with
  | nil => exact hnil
  | cons part parts ih =>
    have hpart := h part List.mem_cons_self
    have ih := ih fun p hp => h p (List.mem_cons_of_mem _ hp)
    by_cases hnone : parts = []
    · subst hnone
      simpa using hpart
    · rw [List.intercalate_cons_of_ne_nil hnone]
      exact happend _ _ (happend _ _ hpart hsep) ih

theorem isGuarded_intercalate {separator : List Char} (hsep : isGuarded none separator = true)
    {parts : List (List Char)} (hparts : ∀ p ∈ parts, isGuarded none p = true) :
    isGuarded none (separator.intercalate parts) = true :=
  intercalate_induction (P := fun cs => isGuarded none cs = true) rfl
    (fun _ _ hx hy => isGuarded_append hx hy) hsep hparts

namespace Token

def valueItem : Pattern :=
  anyOf [
    except "\x7b\x7d;'\"",
    inOrder [literal "'", many (except "'"), literal "'"],
    inOrder [literal "\"", many (except "\""), literal "\""]]

theorem matches_quoted {q : String} {c : Char} (hq : q.toList = [c]) {inner : List Char}
    (hinner : c ∉ inner) :
    Matches (inOrder [literal q, many (except q), literal q]) (c :: (inner ++ [c])) := by
  have hmany : Matches (many (except q)) inner := by
    refine matches_many_except_iff.mpr fun d hd hmem => hinner ?_
    obtain rfl : d = c := by simpa [hq] using hmem
    exact hd
  have hquote : Matches (literal q) [c] := matches_literal_iff.mpr hq.symm
  exact matches_seq_iff.mpr ⟨[c], inner ++ [c], rfl, hquote,
    .seq hmany (matches_seq_iff.mpr ⟨[c], [], rfl, hquote, .nothing⟩)⟩

theorem matches_valueItem_quoted {q : Char} (hq : Text.isQuote q = true) {inner : List Char}
    (hinner : q ∉ inner) : Matches valueItem (q :: (inner ++ [q])) := by
  have hq : q = '\'' ∨ q = '"' := by simpa [Text.isQuote] using hq
  rcases hq with rfl | rfl
  · exact .right (.left (matches_quoted rfl hinner))
  · exact .right (.right (.left (matches_quoted rfl hinner)))

/-- A guarded text is a sequence of items. After the beginning of a quoted part the rest of
that part comes first. -/
theorem matches_many_valueItem {cs : List Char} :
    (isGuarded none cs = true → Matches (many valueItem) cs) ∧
      ∀ q, isGuarded (some q) cs = true →
        ∃ inner tail, cs = inner ++ q :: tail ∧ q ∉ inner ∧ Matches (many valueItem) tail := by
  induction cs with
  | nil => exact ⟨fun _ => .done, fun _ h => by cases h⟩
  | cons c cs ih =>
    obtain ⟨ihPlain, ihQuoted⟩ := ih
    constructor
    · intro h
      rw [isGuarded] at h
      by_cases hc : Text.isQuote c = true
      · rw [if_pos hc] at h
        obtain ⟨inner, tail, rfl, hinner, htail⟩ := ihQuoted c h
        have hmore := Matches.more (matches_valueItem_quoted hc hinner) htail
        simpa using hmore
      · rw [if_neg hc, Bool.and_eq_true] at h
        have hplain : Matches valueItem [c] := by
          refine .left (.one ?_)
          have hquote : c ≠ '\'' ∧ c ≠ '"' := by simpa [Text.isQuote] using hc
          have hother : c ≠ '\x7b' ∧ c ≠ '\x7d' ∧ c ≠ ';' := by simpa using h.1
          simp [hquote, hother]
        exact .more hplain (ihPlain h.2)
    · intro q h
      rw [isGuarded] at h
      by_cases hc : c = q
      · subst hc
        rw [if_pos (beq_self_eq_true c)] at h
        exact ⟨[], cs, rfl, List.not_mem_nil, ihPlain h⟩
      · rw [if_neg (by simpa using hc)] at h
        obtain ⟨inner, tail, rfl, hinner, htail⟩ := ihQuoted q h
        refine ⟨c :: inner, tail, rfl, ?_, htail⟩
        intro hmem
        rcases List.mem_cons.mp hmem with hmem | hmem
        · exact hc hmem.symm
        · exact hinner hmem

def isKeyChar (c : Char) : Bool := c.isAlphanum || c == '_' || c == '-'

theorem prefixFree_valueItem : PrefixFree valueItem := by
  have hquoted (q : String) (hq : ∀ c, (literal q).begins c = true → (except q).begins c = false)
      (hne : (literal q).acceptsEmpty = false) :
      PrefixFree (inOrder [literal q, many (except q), literal q]) := by
    refine prefixFree_seq (prefixFree_literal _) (prefixFree_many_seq (prefixFree_one _)
      (prefixFree_seq (prefixFree_literal _) prefixFree_nothing) rfl ?_ ?_)
    · simp [acceptsEmpty, hne]
    · simpa [begins, hne] using hq
  have hsingle := hquoted "'" (by simp [begins, literal, acceptsEmpty, except]) rfl
  have hdouble := hquoted "\"" (by simp [begins, literal, acceptsEmpty, except]) rfl
  have hnever : PrefixFree .never := fun _ _ h _ => (not_matches_never h).elim
  refine prefixFree_alt (prefixFree_one _) (prefixFree_alt hsingle
    (prefixFree_alt hdouble hnever rfl rfl ?_) rfl rfl ?_) rfl rfl ?_
  all_goals simp [begins, literal, acceptsEmpty, except, inOrder]

theorem prefixFree_anyOf_families : PrefixFree (anyOf (families.map literal)) := by
  have hdistinct : ∀ v ∈ families, ∀ w ∈ families, v.toList <+: w.toList → v = w := by decide
  intro xs ys hx hy
  obtain ⟨_, hv, hx⟩ := matches_anyOf_iff.mp hx
  obtain ⟨_, hw, hy⟩ := matches_anyOf_iff.mp hy
  obtain ⟨v, hvmem, rfl⟩ := List.mem_map.mp hv
  obtain ⟨w, hwmem, rfl⟩ := List.mem_map.mp hw
  rw [matches_literal_iff] at hx hy
  obtain rfl := hdistinct v hvmem w hwmem ⟨ys, by rw [← hx, hy]⟩
  rw [← hx] at hy
  exact List.append_cancel_left (hy.trans (List.append_nil xs).symm)

theorem prefixFree_declaration : PrefixFree declaration := by
  have hend : PrefixFree (inOrder [many valueItem, literal ";"]) := by
    refine prefixFree_many_seq prefixFree_valueItem
      (prefixFree_seq (prefixFree_literal _) prefixFree_nothing) rfl rfl ?_
    simp [begins, literal, acceptsEmpty, valueItem, anyOf, except, inOrder]
  have hvalue : PrefixFree (inOrder [many (among " \t"), literal ":", many valueItem,
      literal ";"]) := by
    refine prefixFree_many_seq (prefixFree_one _) (prefixFree_seq (prefixFree_literal _) hend)
      rfl rfl ?_
    simp [begins, literal, acceptsEmpty, among]
  refine prefixFree_seq prefixFree_anyOf_families
    (prefixFree_many_seq (prefixFree_one _) hvalue rfl rfl ?_)
  intro c hc
  have hc : (c = ' ' ∨ c = '\t') ∨ c = ':' := by
    simpa [begins, literal, acceptsEmpty, among, inOrder] using hc
  rcases hc with (rfl | rfl) | rfl <;> rfl

def IsKey (key : String) : Prop :=
  ∃ family ∈ families, ∃ word : List Char,
    key.toList = family.toList ++ word ∧ ∀ c ∈ word, isKeyChar c = true

theorem matches_declaration {key : String} (hkey : IsKey key) {value : List Char}
    (hvalue : isGuarded none value = true) :
    Matches declaration (key.toList ++ ':' :: (value ++ [';'])) := by
  obtain ⟨family, hfamily, word, hsplit, hword⟩ := hkey
  rw [hsplit, List.append_assoc]
  have hfamily : Matches (anyOf (families.map literal)) family.toList := matches_anyOf_iff.mpr
    ⟨literal family, List.mem_map_of_mem hfamily, matches_literal_iff.mpr rfl⟩
  have hsemicolon : Matches (literal ";") [';'] := matches_literal_iff.mpr rfl
  have hend : Matches (inOrder [many valueItem, literal ";"]) (value ++ [';']) :=
    .seq (matches_many_valueItem.1 hvalue)
      (matches_seq_iff.mpr ⟨[';'], [], rfl, hsemicolon, .nothing⟩)
  refine .seq hfamily (.seq (matches_many_one_iff.mpr hword) (matches_seq_iff.mpr ?_))
  exact ⟨[], ':' :: (value ++ [';']), rfl, .done,
    matches_seq_iff.mpr ⟨[':'], value ++ [';'], rfl, matches_literal_iff.mpr rfl, hend⟩⟩

theorem isKeyChar_of_isKey {key : String} (h : IsKey key) :
    ∀ c ∈ key.toList, isKeyChar c = true := by
  obtain ⟨family, hfamily, word, hsplit, hword⟩ := h
  have hall : families.all (·.toList.all isKeyChar) = true := by decide
  intro c hc
  rw [hsplit] at hc
  rcases List.mem_append.mp hc with hc | hc
  · exact List.all_eq_true.mp (List.all_eq_true.mp hall family hfamily) c hc
  · exact hword c hc

/-- The first character of a key belongs to no other kind of token. -/
theorem exists_first_of_isKey {key : String} (h : IsKey key) :
    ∃ c cs, key.toList = c :: cs ∧ lexicon.candidates c = [.property] ∧
      c ∉ " \t\x0c".toList := by
  obtain ⟨family, hfamily, word, hsplit, -⟩ := h
  have hfirst : families.all (·.toList.head?.any fun c =>
      lexicon.candidates c = [.property] ∧ c ∉ " \t\x0c".toList) = true := by decide
  have hfirst := List.all_eq_true.mp hfirst family hfamily
  cases hfam : family.toList with
  | nil => simp [hfam] at hfirst
  | cons c cs =>
    rw [hfam] at hfirst
    exact ⟨c, cs ++ word, by rw [hsplit, hfam, List.cons_append], of_decide_eq_true hfirst⟩

end Token

/-- A value that may stand in a list of values. -/
structure IsValue (value : String) : Prop where
  ne_empty : value ≠ ""
  trimmed : Text.FreeEnds Text.isBlank value.toList
  guarded : isGuarded none value.toList = true
  part : Text.IsPart ',' value.toList

theorem isBlank_of_isKeyChar {c : Char} (h : Token.isKeyChar c = true) :
    Text.isBlank c = false := by
  have hc : (c.isAlphanum = true ∨ c = '_') ∨ c = '-' := by simpa [Token.isKeyChar] using h
  rcases hc with (hc | rfl) | rfl
  · exact Text.isBlank_of_isAlphanum hc
  · rfl
  · rfl

def splitValues (text : String) : List String :=
  (((Text.splitTop ',' text.toList).map (Text.dropEnds Text.isBlank)).filter
    (!·.isEmpty)).map String.ofList

/-- Trimmed texts in which nothing separates come back, but for empty ones. -/
theorem splitValues_intercalate_of_isPart {values : List String}
    (hpart : ∀ v ∈ values, Text.IsPart ',' v.toList)
    (htrimmed : ∀ v ∈ values, Text.FreeEnds Text.isBlank v.toList) :
    splitValues (", ".intercalate values) = values.filter (!·.isEmpty) := by
  by_cases hnil : values = []
  · subst hnil
    decide
  · have hparts := Text.areParts_of_forall (by simpa using hnil) (List.forall_mem_map.mpr hpart)
    rw [splitValues, Text.map_dropEnds_splitTop_intercalate hparts htrimmed, List.filter_map,
      List.map_map]
    have hempty : ((!·.isEmpty) ∘ String.toList) = fun v : String => !v.isEmpty := by
      funext v
      rw [Bool.eq_iff_iff]
      simp
    rw [hempty]
    simp [Function.comp_def]

/-- Values without a comma at their top level come back from their list. -/
theorem splitValues_intercalate {values : List String} (hvalues : ∀ v ∈ values, IsValue v) :
    splitValues (", ".intercalate values) = values := by
  rw [splitValues_intercalate_of_isPart (fun v hv => (hvalues v hv).part)
    fun v hv => (hvalues v hv).trimmed, List.filter_eq_self]
  intro v hv
  simpa using (hvalues v hv).ne_empty

/-- A key and its values come back from the text of their declaration. -/
theorem declarationOf_eq {key : String} (hkey : Token.IsKey key) (text : String) :
    Token.declarationOf (key.toList ++ ':' :: ((' ' :: text.toList) ++ [';'])) =
      { key, values := splitValues text } := by
  have hkeyChar := Token.isKeyChar_of_isKey hkey
  have hcolon : ∀ c ∈ key.toList, (c != ':') = true := by
    intro c hc
    refine bne_iff_ne.mpr ?_
    rintro rfl
    exact absurd (hkeyChar ':' hc) (by decide)
  have htake : (key.toList ++ ':' :: ((' ' :: text.toList) ++ [';'])).takeWhile
      (· != ':') = key.toList := by
    rw [List.takeWhile_append_of_pos hcolon]
    simp
  have hdrop : ((key.toList ++ ':' :: ((' ' :: text.toList) ++ [';'])).drop
      (key.toList.length + 1)).dropLast = ' ' :: text.toList := by
    rw [List.drop_length_add_append, List.drop_succ_cons, List.drop_zero, List.dropLast_concat]
  have htrim : Text.dropEnds Text.isBlank key.toList = key.toList :=
    (Text.FreeEnds.of_forall fun c hc => isBlank_of_isKeyChar (hkeyChar c hc)).dropEnds_eq
  -- The blank after the colon goes to the first value, from which it is trimmed.
  have hspace : Text.IsPart ',' [' '] := ⟨by decide, by decide⟩
  have hblank (cs : List Char) :
      Text.dropEnds Text.isBlank (' ' :: cs) = Text.dropEnds Text.isBlank cs := by
    rw [Text.dropEnds, Text.dropEnds, List.dropWhile_cons_of_pos rfl]
  have hvalues : (Text.splitTop ',' (' ' :: text.toList)).map (Text.dropEnds Text.isBlank) =
      (Text.splitTop ',' text.toList).map (Text.dropEnds Text.isBlank) := by
    rw [← List.singleton_append, Text.splitTop_append hspace]
    cases Text.splitTop ',' text.toList with
    | nil => rfl
    | cons part parts => simp [hblank]
  simp only [Token.declarationOf, htake, hdrop, htrim, hvalues, splitValues, String.ofList_toList]

/-- A declaration is one token, whatever follows. -/
theorem Lexes.property {rest : List Char} {ts : List Token} (h : Lexes rest ts) {key : String}
    (hkey : Token.IsKey key) {text : String} (htext : isGuarded none text.toList = true) :
    Lexes (key.toList ++ ':' :: ((' ' :: text.toList) ++ ';' :: rest))
      (.property { key, values := splitValues text } :: ts) := by
  have hspace : isGuarded none [' '] = true := by decide
  have hmatch := Token.matches_declaration hkey (isGuarded_append hspace htext)
  obtain ⟨c, cs, hcs, hcand, -⟩ := Token.exists_first_of_isKey hkey
  have htoken := h.token (k := .property)
    (key.toList ++ ':' :: ((' ' :: text.toList) ++ [';'])) ?_ rfl
  · rw [Token.ofTile, declarationOf_eq hkey] at htoken
    simpa using htoken
  · rw [List.singleton_append] at hmatch
    rw [hcs] at hmatch ⊢
    exact Token.tiles_of_prefixFree _ hcand Token.prefixFree_declaration hmatch rest

end CartoStyle.Sheet
