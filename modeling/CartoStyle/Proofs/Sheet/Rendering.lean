import CartoStyle.Proofs.Sheet.Annotation
import CartoStyle.Proofs.Sheet.Declaration
import CartoStyle.Proofs.Sheet.Derivation

/-!
The text of an outline is read back into a stylesheet with the same structure.
Every line of the text is followed to its tokens, and the tokens of a rule form a
block of the grammar. Texts that the punctuation of their place would cut short
or swallow are excluded.
-/

namespace CartoStyle.Sheet

/-- A star, or a condition in brackets. -/
def IsPiece (cs : List Char) : Prop :=
  cs = ['*'] ∨ ∃ inner, ']' ∉ inner ∧ cs = '[' :: (inner ++ [']'])

def IsSelector (s : String) : Prop :=
  ∃ pieces : List (List Char), pieces ≠ [] ∧ (∀ p ∈ pieces, IsPiece p) ∧ s.toList = pieces.flatten

structure IsPropertyList (form : String → Prop) (ps : PropertyList) : Prop where
  keys : ∀ e ∈ ps, Token.IsKey e.1
  values : ∀ e ∈ ps, ∀ v ∈ e.2, form v

/-- The part is kept by the text it is written into. -/
structure OutlinePart.Writable (form : String → Prop) (p : OutlinePart) : Prop where
  name_ne_empty : p.part ≠ ""
  name : ∀ c ∈ p.part.toList, isPartChar c = true
  properties : IsPropertyList form p.properties

structure OutlineRule.Writable (form : String → Prop) (r : OutlineRule) : Prop where
  selectors_ne_nil : r.selectors ≠ []
  selectors : ∀ s ∈ r.selectors, IsSelector s
  title : ∀ t, r.title = some t → IsTitleText t
  properties : IsPropertyList form r.properties
  parts : ∀ p ∈ r.parts, p.Writable form

structure Outline.Writable (form : String → Prop) (o : Outline) : Prop where
  mode : ∀ t, o.mode = some t → IsDirectiveText t
  title : ∀ t, o.title = some t → IsDirectiveText t
  abstract : ∀ t, o.abstract = some t → IsDirectiveText t
  rules : ∀ r ∈ o.rules, r.Writable form

def IsIndent (indent : String) : Prop := ∀ c ∈ indent.toList, c ∈ " \t\x0c".toList

def OutlinePart.block (p : OutlinePart) (group id : Nat) : Block where
  selectors := [":" ++ p.part]
  title := none
  properties := KeyMap.ofList p.properties
  level := 2
  group := group
  id := id
  children := []

def OutlineRule.block (r : OutlineRule) (group : Nat) : Block where
  selectors := r.selectors
  title := r.title
  properties := KeyMap.ofList r.properties
  level := 1
  group := group
  id := 1
  children := r.parts.mapIdx fun i p => p.block group (2 + i)

def Outline.sheet (o : Outline) : Stylesheet where
  directives := { mode := o.mode, title := o.title, abstract := o.abstract }
  blocks := o.rules.mapIdx fun i r => r.block i

/-- The text stands in a declaration without ending it. -/
def IsGuarded (value : String) : Prop := isGuarded none value.toList = true

/-- The properties with the values that their texts are read into. -/
def spread (ps : PropertyList) : PropertyList :=
  ps.map fun e => (e.1, splitValues (", ".intercalate e.2))

def OutlinePart.spread (p : OutlinePart) : OutlinePart :=
  { p with properties := Sheet.spread p.properties }

def OutlineRule.spread (r : OutlineRule) : OutlineRule :=
  { r with properties := Sheet.spread r.properties, parts := r.parts.map OutlinePart.spread }

def Outline.spread (o : Outline) : Outline := { o with rules := o.rules.map OutlineRule.spread }

section Form

variable {form other : String → Prop}

theorem IsPropertyList.mono (h : ∀ v, form v → other v) {ps : PropertyList}
    (hps : IsPropertyList form ps) : IsPropertyList other ps :=
  ⟨hps.keys, fun e he v hv => h v (hps.values e he v hv)⟩

theorem OutlinePart.Writable.mono (h : ∀ v, form v → other v) {p : OutlinePart}
    (hp : p.Writable form) : p.Writable other :=
  { hp with properties := hp.properties.mono h }

theorem OutlineRule.Writable.mono (h : ∀ v, form v → other v) {r : OutlineRule}
    (hr : r.Writable form) : r.Writable other :=
  { hr with
    properties := hr.properties.mono h
    parts := fun p hp => (hr.parts p hp).mono h }

theorem Outline.Writable.mono (h : ∀ v, form v → other v) {o : Outline}
    (ho : o.Writable form) : o.Writable other :=
  { ho with rules := fun r hr => (ho.rules r hr).mono h }

/-- Values without a comma at their top level stay as they are. -/
theorem IsPropertyList.spread_eq {ps : PropertyList} (hps : IsPropertyList IsValue ps) :
    spread ps = ps := by
  refine (List.map_congr_left fun e he => ?_).trans (List.map_id ps)
  rw [splitValues_intercalate (hps.values e he), id]

theorem OutlinePart.Writable.spread_eq {p : OutlinePart} (hp : p.Writable IsValue) :
    p.spread = p := by
  rw [OutlinePart.spread, hp.properties.spread_eq]

theorem OutlineRule.Writable.spread_eq {r : OutlineRule} (hr : r.Writable IsValue) :
    r.spread = r := by
  have hparts : r.parts.map OutlinePart.spread = r.parts :=
    (List.map_congr_left fun p hp => (hr.parts p hp).spread_eq).trans (List.map_id _)
  rw [OutlineRule.spread, hr.properties.spread_eq, hparts]

theorem Outline.Writable.spread_eq {o : Outline} (ho : o.Writable IsValue) : o.spread = o := by
  have hrules : o.rules.map OutlineRule.spread = o.rules :=
    (List.map_congr_left fun r hr => (ho.rules r hr).spread_eq).trans (List.map_id _)
  rw [Outline.spread, hrules]

end Form

section Lines

variable {rest : List Char} {ts : List Token} {indent : String}

/-- A single blank in front of something else. -/
theorem Lexes.space (h : Lexes rest ts)
    (hhead : ∀ c, rest.head? = some c → c ∉ " \t\x0c".toList) : Lexes (' ' :: rest) ts :=
  h.blanks [' '] (List.forall_mem_singleton.mpr (by decide)) hhead

theorem not_blank_of_isKey {key : String} (hkey : Token.IsKey key) (more : List Char) :
    ∀ c, (key.toList ++ more).head? = some c → c ∉ " \t\x0c".toList := by
  obtain ⟨c, cs, hcs, -, hblank⟩ := Token.exists_first_of_isKey hkey
  intro d hd
  obtain rfl : c = d := by simpa [hcs] using hd
  exact hblank

theorem Lexes.properties {ps : PropertyList} (hps : IsPropertyList IsGuarded ps)
    (hindent : IsIndent indent) (h : Lexes rest ts) :
    Lexes ((renderProperties indent ps).toList ++ rest)
      ((spread ps).map (fun e => .property ⟨e.1, e.2⟩) ++ ts) := by
  induction ps with
  | nil => exact h
  | cons e ps ih =>
    obtain ⟨key, values⟩ := e
    have hkey := hps.keys _ List.mem_cons_self
    have hrest := ih ⟨fun f hf => hps.keys f (List.mem_cons_of_mem _ hf),
      fun f hf => hps.values f (List.mem_cons_of_mem _ hf)⟩
    have hvalues : ∀ v ∈ values, isGuarded none v.toList = true :=
      hps.values _ List.mem_cons_self
    have hguarded : isGuarded none (", ".intercalate values).toList = true := by
      rw [String.toList_intercalate]
      refine isGuarded_intercalate (by decide) ?_
      simpa using hvalues
    have hline := hrest.newline.property hkey hguarded
    have hindented := hline.blanks _ hindent (not_blank_of_isKey hkey _)
    simpa [renderProperties, spread] using hindented

def OutlinePart.tokens (p : OutlinePart) : List Token :=
  .pseudoSelector (":" ++ p.part) :: .openBrace ::
    (p.properties.map (fun e => .property ⟨e.1, e.2⟩) ++ [.closeBrace])

theorem Lexes.part {p : OutlinePart} (hp : p.Writable IsGuarded) (hindent : IsIndent indent)
    (h : Lexes rest ts) : Lexes ((p.render indent).toList ++ rest) (p.spread.tokens ++ ts) := by
  have hindents : IsIndent (indent ++ indent) := by
    intro c hc
    rw [String.toList_append] at hc
    rcases List.mem_append.mp hc with hc | hc
    · exact hindent c hc
    · exact hindent c hc
  have hclose := (h.newline.closeBrace (by simp)).blanks _ hindent (by simp)
  have hbody := (hclose.properties hp.properties hindents).newline.openBrace
  have hname := (hbody.space (by simp)).pseudoSelector p.part.toList
    (by simpa using hp.name_ne_empty) hp.name (by simp [isPartChar])
  have hline := hname.blanks _ hindent (by simp)
  have hofList : String.ofList (':' :: p.part.toList) = ":" ++ p.part := by
    rw [← String.toList_inj]
    simp
  rw [hofList] at hline
  simpa [OutlinePart.render, OutlinePart.tokens, OutlinePart.spread] using hline

theorem Lexes.parts {ps : List OutlinePart} (hps : ∀ p ∈ ps, p.Writable IsGuarded)
    (hindent : IsIndent indent) (h : Lexes rest ts) :
    Lexes ((String.join (ps.map (OutlinePart.render indent))).toList ++ rest)
      ((ps.map OutlinePart.spread).flatMap OutlinePart.tokens ++ ts) := by
  induction ps with
  | nil => exact h
  | cons p ps ih =>
    have hrest := ih fun q hq => hps q (List.mem_cons_of_mem p hq)
    have hpart := hrest.part (hps p List.mem_cons_self) hindent
    simpa using hpart

def pieceTokens (pieces : List (List Char)) : List Token :=
  pieces.map fun p => .selector (String.ofList p)

theorem IsPiece.matches {cs : List Char} (h : IsPiece cs) :
    Pattern.Matches Token.Kind.selector.pattern cs := by
  rcases h with rfl | ⟨inner, hinner, rfl⟩
  · exact .left (Pattern.matches_literal_iff.mpr rfl)
  · exact .right (Token.matches_bracket_iff.mpr ⟨inner, hinner, rfl⟩)

theorem head?_flatten_pieces {pieces : List (List Char)} (hne : pieces ≠ [])
    (hpieces : ∀ p ∈ pieces, IsPiece p) (more : List Char) :
    (pieces.flatten ++ more).head? = some '*' ∨ (pieces.flatten ++ more).head? = some '[' := by
  cases pieces with
  | nil => exact absurd rfl hne
  | cons p pieces =>
    rcases hpieces p List.mem_cons_self with rfl | ⟨inner, -, rfl⟩
    · exact Or.inl rfl
    · exact Or.inr rfl

theorem Lexes.pieces {pieces : List (List Char)} (hpieces : ∀ p ∈ pieces, IsPiece p)
    (h : Lexes rest ts) (hhead : rest.head? ≠ some ':') :
    Lexes (pieces.flatten ++ rest) (pieceTokens pieces ++ ts) := by
  induction pieces with
  | nil => exact h
  | cons p pieces ih =>
    have hlater : ∀ q ∈ pieces, IsPiece q := fun q hq => hpieces q (List.mem_cons_of_mem p hq)
    have hcolon : (pieces.flatten ++ rest).head? ≠ some ':' := by
      by_cases hne : pieces = []
      · rw [hne]
        exact hhead
      · rcases head?_flatten_pieces hne hlater rest with hq | hq <;> simp [hq]
    have hp := (ih hlater).selector (hpieces p List.mem_cons_self).matches hcolon
    simpa [pieceTokens] using hp

def alternativeTokens (alternatives : List (List (List Char))) : List Token :=
  [Token.comma].intercalate (alternatives.map pieceTokens)

theorem alternativeTokens_cons_cons (pieces next : List (List Char))
    (later : List (List (List Char))) :
    alternativeTokens (pieces :: next :: later) =
      pieceTokens pieces ++ .comma :: alternativeTokens (next :: later) := by
  rw [alternativeTokens, List.map_cons, List.intercalate_cons_of_ne_nil (by simp)]
  simp [alternativeTokens]

theorem isHeader_of_mem_alternativeTokens {alternatives : List (List (List Char))} :
    ∀ t ∈ alternativeTokens alternatives, t.isHeader = true ∧ t.asTitle? = none := by
  have hpieces {pieces : List (List Char)} :
      ∀ t ∈ pieceTokens pieces, t.isHeader = true ∧ t.asTitle? = none := by
    intro t ht
    obtain ⟨p, -, rfl⟩ := List.mem_map.mp ht
    exact ⟨rfl, rfl⟩
  induction alternatives with
  | nil => simp [alternativeTokens]
  | cons pieces later ih =>
    cases later with
    | nil => simpa [alternativeTokens] using hpieces
    | cons next later =>
      rw [alternativeTokens_cons_cons]
      intro t ht
      rcases List.mem_append.mp ht with ht | ht
      · exact hpieces t ht
      · rcases List.mem_cons.mp ht with rfl | ht
        · exact ⟨rfl, rfl⟩
        · exact ih t ht

theorem piecesFrom_pieceTokens (text : String) (pieces : List (List Char)) (ts : List Token) :
    piecesFrom text (pieceTokens pieces ++ ts) =
      piecesFrom (text ++ String.ofList pieces.flatten) ts := by
  induction pieces generalizing text with
  | nil => simp [pieceTokens]
  | cons p pieces ih =>
    rw [pieceTokens, List.map_cons, List.cons_append, piecesFrom_cons _ (by simp)]
    refine (ih _).trans ?_
    simp [Token.asSelector?, String.append_assoc]

theorem piecesFrom_alternativeTokens {pieces : List (List Char)}
    {later : List (List (List Char))} :
    piecesFrom "" (alternativeTokens (pieces :: later)) =
      (pieces :: later).map fun ps => String.ofList ps.flatten := by
  induction later generalizing pieces with
  | nil =>
    have hpieces := piecesFrom_pieceTokens "" pieces []
    rw [List.append_nil, piecesFrom_nil, String.empty_append] at hpieces
    simpa [alternativeTokens] using hpieces
  | cons next later ih =>
    rw [alternativeTokens_cons_cons, piecesFrom_pieceTokens, piecesFrom_comma, ih]
    simp

theorem Lexes.alternatives {pieces : List (List Char)} {later : List (List (List Char))}
    (hpieces : ∀ ps ∈ pieces :: later, ps ≠ [] ∧ ∀ p ∈ ps, IsPiece p)
    (h : Lexes rest ts) (hhead : rest.head? ≠ some ':') :
    Lexes ([',', ' '].intercalate ((pieces :: later).map List.flatten) ++ rest)
      (alternativeTokens (pieces :: later) ++ ts) := by
  induction later generalizing pieces with
  | nil =>
    have hpieces := h.pieces (hpieces pieces List.mem_cons_self).2 hhead
    simpa [alternativeTokens] using hpieces
  | cons next later ih =>
    have hrest := ih fun ps hps => hpieces ps (List.mem_cons_of_mem pieces hps)
    obtain ⟨hne, hnext⟩ := hpieces next (by simp)
    have hfirst : ∀ c, ([',', ' '].intercalate ((next :: later).map List.flatten) ++
        rest).head? = some c → c ∉ " \t\x0c".toList := by
      obtain ⟨more, hmore⟩ : ∃ more, [',', ' '].intercalate ((next :: later).map List.flatten) ++
          rest = next.flatten ++ more := by
        cases later with
        | nil => exact ⟨rest, by simp⟩
        | cons third later =>
          refine ⟨[',', ' '] ++ [',', ' '].intercalate ((third :: later).map List.flatten) ++ rest,
            ?_⟩
          rw [List.map_cons, List.intercalate_cons_of_ne_nil (by simp)]
          simp
      intro c hc
      rw [hmore] at hc
      rcases head?_flatten_pieces hne hnext more with hstart | hstart <;>
        · rw [hstart] at hc
          cases hc
          decide
    have hline := (hrest.space hfirst).comma.pieces (hpieces pieces List.mem_cons_self).2 (by simp)
    rw [alternativeTokens_cons_cons, List.map_cons, List.intercalate_cons_of_ne_nil (by simp)]
    simpa using hline

theorem exists_pieces {selectors : List String} (h : ∀ s ∈ selectors, IsSelector s) :
    ∃ alternatives : List (List (List Char)),
      (∀ ps ∈ alternatives, ps ≠ [] ∧ ∀ p ∈ ps, IsPiece p) ∧
        alternatives.map (fun ps => String.ofList ps.flatten) = selectors := by
  induction selectors with
  | nil => exact ⟨[], by simp, rfl⟩
  | cons s selectors ih =>
    obtain ⟨pieces, hne, hpieces, hs⟩ := h s List.mem_cons_self
    obtain ⟨later, hlater, hselectors⟩ := ih fun t ht => h t (List.mem_cons_of_mem s ht)
    refine ⟨pieces :: later, List.forall_mem_cons.mpr ⟨⟨hne, hpieces⟩, hlater⟩, ?_⟩
    rw [List.map_cons, hselectors, ← hs, String.ofList_toList]

theorem IsSelector.ne_empty {s : String} (h : IsSelector s) : s ≠ "" := by
  obtain ⟨pieces, hne, hpieces, hs⟩ := h
  rintro rfl
  have hhead := head?_flatten_pieces hne hpieces []
  rw [List.append_nil, ← hs] at hhead
  simp at hhead

def OutlineRule.head (r : OutlineRule) : String :=
  ((r.title.map fun title => "/* @title " ++ title ++ " */\n").getD "") ++
    ", ".intercalate r.selectors

theorem Lexes.titleLine {title : Option String} (htitle : ∀ t, title = some t → IsTitleText t)
    (h : Lexes rest ts) :
    Lexes (((title.map fun title => "/* @title " ++ title ++ " */\n").getD "").toList ++ rest)
      (title.toList.map .title ++ ts) := by
  cases title with
  | none => exact h
  | some title =>
    have hline := h.newline.title (htitle title rfl)
    simpa using hline

/-- The title and the selectors of a rule form a header. -/
theorem OutlineRule.Writable.exists_header {form : String → Prop} {r : OutlineRule}
    (hr : r.Writable form) :
    ∃ header, IsHeader header ∧ alternativesOf header = r.selectors ∧
      titleOf? header = r.title ∧ ∀ rest ts, rest.head? ≠ some ':' → Lexes rest ts →
        Lexes (r.head.toList ++ rest) (header ++ ts) := by
  obtain ⟨alternatives, hpieces, hselectors⟩ := exists_pieces hr.selectors
  obtain ⟨pieces, later, rfl⟩ : ∃ pieces later, alternatives = pieces :: later := by
    refine List.exists_cons_of_ne_nil ?_
    rintro rfl
    exact hr.selectors_ne_nil hselectors.symm
  have htitles (ts : List Token) :
      piecesFrom "" (r.title.toList.map .title ++ ts) = piecesFrom "" ts := by
    cases r.title with
    | none => rfl
    | some title => exact piecesFrom_cons "" (by simp) ts
  have halternatives : alternativesOf (r.title.toList.map .title ++
      alternativeTokens (pieces :: later)) = r.selectors := by
    rw [alternativesOf_eq_filter, htitles, piecesFrom_alternativeTokens, hselectors,
      List.filter_eq_self]
    intro s hs
    simpa using (hr.selectors s hs).ne_empty
  refine ⟨_, isHeader_iff.mpr ⟨?_, ?_⟩, halternatives, ?_, ?_⟩
  · intro t ht
    rcases List.mem_append.mp ht with ht | ht
    · obtain ⟨title, -, rfl⟩ := List.mem_map.mp ht
      rfl
    · exact (isHeader_of_mem_alternativeTokens t ht).1
  · rw [halternatives]
    exact hr.selectors_ne_nil
  · have hnone : (alternativeTokens (pieces :: later)).filterMap Token.asTitle? = [] :=
      List.filterMap_eq_nil_iff.mpr fun t ht => (isHeader_of_mem_alternativeTokens t ht).2
    rw [titleOf?, List.filterMap_append, hnone, List.append_nil]
    cases r.title <;> rfl
  · intro rest ts hhead h
    have hline := (h.alternatives hpieces hhead).titleLine hr.title
    have hlists : (", ".intercalate r.selectors).toList =
        [',', ' '].intercalate ((pieces :: later).map List.flatten) := by
      rw [String.toList_intercalate, ← hselectors, List.map_map]
      simp [Function.comp_def]
    rw [OutlineRule.head, String.toList_append, hlists]
    simpa using hline

end Lines

end CartoStyle.Sheet
