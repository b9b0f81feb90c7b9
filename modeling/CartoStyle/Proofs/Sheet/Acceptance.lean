import CartoStyle.Proofs.Sheet.Header

/-!
The block parser accepts exactly the token lists of the grammar and builds the
block tree of their derivation. Trivia leave no trace beyond the offset at which
a header is said to begin, so it is enough to follow the other tokens. Along a
derivation every run of the parser is known step by step; from an accepting run
a derivation is found by taking the tokens off the front.
-/

namespace CartoStyle.Sheet

def OpenBlock.ofHeader (start id : Nat) (header : List Token) : OpenBlock where
  start := start
  selectors := alternativesOf header
  title := titleOf? header
  id := id

def OpenBlock.extended (b : OpenBlock) (ps : List Property) (bs : List Block) : OpenBlock :=
  { b with
    properties := ps.foldl (fun m p => m.insert p.key p.values) b.properties
    children := b.children ++ bs }

theorem OpenBlock.extended_nil (b : OpenBlock) : b.extended [] [] = b := by
  simp [extended]

namespace Progress

variable {source : String}

def run (p : Progress) (source : String) (ts : List Located) : Except Error Stylesheet := do
  (← ts.foldlM (fun p t => p.step source t) p).finish source

theorem run_nil (p : Progress) : p.run source [] = p.finish source := rfl

theorem run_cons (p : Progress) (t : Located) (ts : List Located) :
    p.run source (t :: ts) = (p.step source t >>= fun q => q.run source ts) := by
  simp only [run, List.foldlM_cons, bind_assoc]

theorem run_cons_of_ok {p q : Progress} {t : Located} (h : p.step source t = .ok q)
    (ts : List Located) : p.run source (t :: ts) = q.run source ts := by
  rw [run_cons, h]
  rfl

theorem step_of_run {p : Progress} {t : Located} {ts : List Located} {sheet : Stylesheet}
    (h : p.run source (t :: ts) = .ok sheet) :
    ∃ q, p.step source t = .ok q ∧ q.run source ts = .ok sheet := by
  rw [run_cons] at h
  cases hstep : p.step source t with
  | error e =>
    rw [hstep] at h
    cases h
  | ok q =>
    rw [hstep] at h
    exact ⟨q, rfl, h⟩

theorem fail_ne_ok {α : Type} {offset : Nat} {fault : SheetFault} {a : α} :
    fail source offset fault ≠ .ok a := by
  intro h
  unfold fail at h
  cases hplace : Position.ofOffset source offset with
  | error e =>
    rw [hplace] at h
    cases h
  | ok place =>
    rw [hplace] at h
    cases h

variable (source) in
/-- A header token, or trivia, only extends the header. -/
theorem step_header (p : Progress) {t : Located}
    (ht : (t.token.isHeader || t.token.isTrivia) = true) :
    p.step source t =
      .ok { p with header := some ((p.header.getD { start := t.start }).push t.token) } := by
  rw [step, if_pos ht]

variable (source) in
theorem step_eq_openBlock (p : Progress) {t : Located} (ht : t.token = .openBrace) :
    p.step source t = p.openBlock source t.start := by
  simp [step, ht, Token.isHeader, Token.isTrivia]

/-- A header opens a block exactly if it has an alternative. -/
theorem step_openBrace (p : Progress) (h : Header) {t : Located} (ht : t.token = .openBrace)
    (hheader : p.header = some h) (hsel : h.selectors ≠ []) :
    p.step source t = .ok
      { p with
        stack :=
          { start := t.start, selectors := h.selectors, title := h.title
            id := if p.stack.isEmpty then 1 else p.lastId + 1 } :: p.stack
        header := none
        lastId := if p.stack.isEmpty then 1 else p.lastId + 1 } := by
  have hempty : h.selectors.isEmpty = false := List.isEmpty_eq_false_iff.mpr hsel
  rw [step_eq_openBlock source p ht, openBlock, hheader]
  simp [hempty]

theorem openBlock_of_step {p q : Progress} {t : Located} (ht : t.token = .openBrace)
    (h : p.step source t = .ok q) : ∃ header, p.header = some header ∧ header.selectors ≠ [] := by
  rw [step_eq_openBlock source p ht, openBlock] at h
  cases hheader : p.header with
  | none =>
    rw [hheader] at h
    exact absurd h fail_ne_ok
  | some header =>
    rw [hheader] at h
    refine ⟨header, rfl, ?_⟩
    intro hnil
    simp only [hnil, List.isEmpty_nil, if_true] at h
    exact fail_ne_ok h

/-- Tokens that end a statement: closing braces, properties and directives. -/
def Closes (t : Token) : Prop :=
  t.isHeader = false ∧ t.isTrivia = false ∧ t ≠ .openBrace

theorem header_or_open_or_closes (t : Token) :
    (t.isHeader || t.isTrivia) = true ∨ t = .openBrace ∨ Closes t := by
  by_cases ht : (t.isHeader || t.isTrivia) = true
  · exact Or.inl ht
  · simp only [Bool.or_eq_true, not_or, Bool.not_eq_true] at ht
    by_cases hopen : t = .openBrace
    · exact Or.inr (Or.inl hopen)
    · exact Or.inr (Or.inr ⟨ht.1, ht.2, hopen⟩)

theorem step_statement (p : Progress) {t : Located} (ht : Closes t.token)
    (hheader : p.header = none) : p.step source t = p.statement source t.start t.token := by
  obtain ⟨hhead, htrivia, hopen⟩ := ht
  rw [step, if_neg (by simp [hhead, htrivia])]
  cases htoken : t.token <;> simp_all

variable (source) in
/-- A header that does not select is dropped by the statement that follows it. -/
theorem step_idle (p : Progress) {t : Located} (ht : Closes t.token) {h : Header}
    (hidle : h.selects = false) :
    ({ p with header := some h } : Progress).step source t =
      ({ p with header := none } : Progress).step source t := by
  rw [step_statement { p with header := none } ht rfl]
  obtain ⟨hhead, htrivia, hopen⟩ := ht
  rw [step, if_neg (by simp [hhead, htrivia])]
  cases htoken : t.token <;> simp_all

variable (source) in
/-- Where no header selects, a statement is read as it stands. -/
theorem step_eq_statement (p : Progress) {t : Located} (ht : Closes t.token)
    (hidle : ∀ h ∈ p.header, h.selects = false) :
    p.step source t =
      ({ p with header := none } : Progress).statement source t.start t.token := by
  rw [← step_statement { p with header := none } ht rfl]
  cases hheader : p.header with
  | none => rw [← hheader]
  | some h =>
    have hp : p = { p with header := some h } := by rw [← hheader]
    rw [← step_idle source p ht (hidle h hheader), ← hp]

variable (source) in
/-- A statement cannot follow a header that selects. -/
theorem step_missingOpen {p : Progress} {t : Located} (ht : Closes t.token) {h : Header}
    (hheader : p.header = some h) (hselects : h.selects = true) :
    p.step source t = fail source t.start .missingOpen := by
  obtain ⟨hhead, htrivia, hopen⟩ := ht
  rw [step, if_neg (by simp [hhead, htrivia]), hheader]
  cases htoken : t.token with
  | openBrace => exact absurd htoken hopen
  | _ => exact if_pos hselects

theorem selects_of_step {p q : Progress} {t : Located} (ht : Closes t.token) {h : Header}
    (hheader : p.header = some h) (hstep : p.step source t = .ok q) : h.selects = false := by
  rw [← Bool.not_eq_true]
  intro hselects
  rw [step_missingOpen source ht hheader hselects] at hstep
  exact fail_ne_ok hstep

/-- A run of header tokens after an open header. -/
theorem run_header_some (p : Progress) (h : Header) {hs : List Located}
    (hhs : ∀ t ∈ hs, t.token.isHeader = true) (tail : List Located) :
    ({ p with header := some h } : Progress).run source (hs ++ tail) =
      ({ p with header := some (h.pushAll (hs.map (·.token))) } : Progress).run source tail := by
  induction hs generalizing h with
  | nil => rfl
  | cons t hs ih =>
    have ht : (t.token.isHeader || t.token.isTrivia) = true := by
      simp [hhs t List.mem_cons_self]
    rw [List.cons_append, run_cons_of_ok (step_header source _ ht)]
    exact ih _ fun u hu => hhs u (List.mem_cons_of_mem t hu)

variable (source) in
/-- A run of header tokens where no header is open. -/
theorem run_header (p : Progress) {hs : List Located} (hne : hs ≠ [])
    (hhs : ∀ t ∈ hs, t.token.isHeader = true) :
    ∃ start, ∀ tail,
      ({ p with header := none } : Progress).run source (hs ++ tail) =
        ({ p with header := some (({ start } : Header).pushAll (hs.map (·.token))) } :
          Progress).run source tail := by
  cases hs with
  | nil => exact absurd rfl hne
  | cons t hs =>
    refine ⟨t.start, fun tail => ?_⟩
    have ht : (t.token.isHeader || t.token.isTrivia) = true := by
      simp [hhs t List.mem_cons_self]
    rw [List.cons_append, run_cons_of_ok (step_header source _ ht)]
    exact run_header_some p _ (fun u hu => hhs u (List.mem_cons_of_mem t hu)) tail

/-- A header of titles alone makes no difference where no header goes on. -/
theorem run_idle (p : Progress) {h : Header} (hidle : h.selects = false) {ts : List Located}
    (hclean : ∀ t ∈ ts, t.token.isTrivia = false) (hend : EndsHeader (ts.map (·.token))) :
    ({ p with header := some h } : Progress).run source ts =
      ({ p with header := none } : Progress).run source ts := by
  cases ts with
  | nil =>
    have hfilter : (some h).filter (·.selects) = none := by simp [Option.filter, hidle]
    simp only [run_nil, finish, hfilter, Option.filter_none]
  | cons t ts =>
    obtain ⟨hhead, hopen⟩ := hend t.token rfl
    have ht : Closes t.token := ⟨hhead, hclean t List.mem_cons_self, hopen⟩
    rw [run_cons, run_cons, step_idle source p ht hidle]

theorem pushAll_titles (start : Nat) (run : List String) :
    (({ start } : Header).pushAll (run.map .title)).selects = false := by
  rw [Header.selects_pushAll _ (by simp [Token.isHeader])]
  simp [Token.asTitle?]

/-- Titles in front of a statement, or at the end, leave no trace. -/
theorem run_titles (p : Progress) {run : List String} (hrun : run ≠ []) {hs : List Located}
    (hhs : hs.map (·.token) = run.map .title) {ts : List Located}
    (hclean : ∀ t ∈ ts, t.token.isTrivia = false) (hend : EndsHeader (ts.map (·.token))) :
    ({ p with header := none } : Progress).run source (hs ++ ts) =
      ({ p with header := none } : Progress).run source ts := by
  have hne : hs ≠ [] := by
    rintro rfl
    exact hrun (List.map_eq_nil_iff.mp hhs.symm)
  have hheader : ∀ t ∈ hs, t.token.isHeader = true := by
    intro t ht
    have hmem : t.token ∈ run.map Token.title := hhs ▸ List.mem_map_of_mem ht
    obtain ⟨text, -, htext⟩ := List.mem_map.mp hmem
    rw [← htext]
    rfl
  obtain ⟨start, hstart⟩ := run_header source p hne hheader
  rw [hstart, hhs, run_idle p (pushAll_titles start run) hclean hend]

theorem selectors_pushAll_start (start : Nat) (ts : List Token) :
    (({ start } : Header).pushAll ts).selectors = alternativesOf ts := by
  rw [Header.selectors_pushAll, alternativesOf_eq_filter]
  rfl

theorem title_pushAll_start (start : Nat) (ts : List Token) :
    (({ start } : Header).pushAll ts).title = titleOf? ts := by
  rw [Header.title_pushAll]
  simp

def nextId (p : Progress) : Nat := if p.stack.isEmpty then 1 else p.lastId + 1

/-- A header and an opening brace put an open block on the stack. -/
theorem run_open (p : Progress) {hs : List Located} (hheader : IsHeader (hs.map (·.token)))
    {o : Located} (ho : o.token = .openBrace) (tail : List Located) :
    ({ p with header := none } : Progress).run source (hs ++ o :: tail) =
      ({ p with
          stack := .ofHeader o.start (p.nextId) (hs.map (·.token)) :: p.stack
          header := none
          lastId := p.nextId } : Progress).run source tail := by
  obtain ⟨hmem, hsel⟩ := isHeader_iff.mp hheader
  have hne : hs ≠ [] := by
    rintro rfl
    exact hsel ((alternativesOf_eq_nil_iff _).mpr (by simp))
  have hhs : ∀ t ∈ hs, t.token.isHeader = true := fun t ht =>
    hmem t.token (List.mem_map_of_mem ht)
  obtain ⟨start, hstart⟩ := run_header source p hne hhs
  rw [hstart, run_cons_of_ok (step_openBrace _ _ ho rfl (by rwa [selectors_pushAll_start]))]
  rw [selectors_pushAll_start, title_pushAll_start]
  rfl

theorem close_extended (p : Progress) (start id : Nat) (header : List Token) (ps : List Property)
    (cs : List Block) (level : Nat) :
    p.close ((OpenBlock.ofHeader start id header).extended ps cs) level =
      { selectors := alternativesOf header, title := titleOf? header, properties := declared ps
        level, group := p.blocks.length, id, children := cs } := by
  simp [close, OpenBlock.ofHeader, OpenBlock.extended, declared, KeyMap.ofList, List.foldl_map]

/-- A closing brace finishes a top-level block. -/
theorem run_closeTop (p : Progress) (b : OpenBlock) {c : Located} (hc : c.token = .closeBrace)
    (tail : List Located) :
    ({ p with stack := [b], header := none } : Progress).run source (c :: tail) =
      ({ p with stack := [], header := none, blocks := p.blocks ++ [p.close b 1] } :
        Progress).run source tail := by
  have hcloses : Closes c.token := by
    rw [hc]
    exact ⟨rfl, rfl, nofun⟩
  apply run_cons_of_ok
  rw [step_statement _ hcloses rfl, hc]
  rfl

theorem endsHeader_closeBrace {c : Located} (hc : c.token = .closeBrace) (tail : List Located) :
    EndsHeader ((c :: tail).map (·.token)) := by
  intro t ht
  obtain rfl : c.token = t := by simpa using ht
  rw [hc]
  exact ⟨rfl, nofun⟩

variable (source) in
/-- A closing brace makes the innermost block a child of the one around it. -/
theorem run_close (p : Progress) (b parent : OpenBlock) (rest : List OpenBlock) {c : Located}
    (hc : c.token = .closeBrace) (tail : List Located) :
    ({ p with stack := b :: parent :: rest, header := none } : Progress).run source (c :: tail) =
      ({ p with
          stack := parent.extended [] [p.close b (rest.length + 2)] :: rest
          header := none } : Progress).run source tail := by
  have hcloses : Closes c.token := by
    rw [hc]
    exact ⟨rfl, rfl, nofun⟩
  apply run_cons_of_ok
  rw [step_statement _ hcloses rfl, hc]
  rfl

section Blocks

variable {lts hs tail : List Located} {o c : Located}

theorem map_token_block {inner : List Located} (ho : o.token = .openBrace)
    (hc : c.token = .closeBrace) :
    (hs ++ o :: (inner ++ c :: tail)).map (·.token) =
      hs.map (·.token) ++
        .openBrace :: (inner.map (·.token) ++ .closeBrace :: tail.map (·.token)) := by
  simp [ho, hc]

/-- Where the tokens are those of a block and others, the block ends within them. -/
theorem exists_eq_block {header inner ts : List Token}
    (h : lts.map (·.token) = header ++ .openBrace :: (inner ++ .closeBrace :: ts)) :
    ∃ hs o linner c tail, lts = hs ++ o :: (linner ++ c :: tail) ∧ hs.map (·.token) = header ∧
      o.token = .openBrace ∧ linner.map (·.token) = inner ∧ c.token = .closeBrace ∧
      tail.map (·.token) = ts := by
  obtain ⟨hs, opened, rfl, hhs, hopened⟩ := List.map_eq_append_iff.mp h
  obtain ⟨o, body, rfl, ho, hbody⟩ := List.map_eq_cons_iff.mp hopened
  obtain ⟨linner, closed, rfl, hlinner, hclosed⟩ := List.map_eq_append_iff.mp hbody
  obtain ⟨c, tail, rfl, hc, htail⟩ := List.map_eq_cons_iff.mp hclosed
  exact ⟨hs, o, linner, c, tail, rfl, hhs, ho, hlinner, hc, htail⟩

end Blocks

variable (source) in
/-- A block whose body is read becomes a child of the block around it. -/
theorem run_innerBlock {mid : Nat} {hs inner tail : List Located} {o c : Located}
    {ps : List Property} {cs : List Block} (p : Progress) (b : OpenBlock) (rest : List OpenBlock)
    (hheader : IsHeader (hs.map (·.token))) (ho : o.token = .openBrace)
    (hc : c.token = .closeBrace)
    (hinner : ∀ opened : OpenBlock,
      ({ p with stack := opened :: b :: rest, header := none, lastId := p.lastId + 1 } :
          Progress).run source (inner ++ c :: tail) =
        ({ p with stack := opened.extended ps cs :: b :: rest, header := none, lastId := mid } :
          Progress).run source (c :: tail)) :
    ({ p with stack := b :: rest, header := none } : Progress).run source
        (hs ++ o :: (inner ++ c :: tail)) =
      ({ p with
          stack := b.extended []
            [{ selectors := alternativesOf (hs.map (·.token)), title := titleOf? (hs.map (·.token)),
               properties := declared ps, level := rest.length + 2, group := p.blocks.length,
               id := p.lastId + 1, children := cs }] :: rest
          header := none
          lastId := mid } : Progress).run source tail := by
  have hnext : ({ p with stack := b :: rest } : Progress).nextId = p.lastId + 1 := rfl
  rw [run_open { p with stack := b :: rest } hheader ho, hnext, hinner]
  have hclose := run_close source { p with lastId := mid }
    ((OpenBlock.ofHeader o.start (p.lastId + 1) (hs.map (·.token))).extended ps cs) b rest hc tail
  rw [hclose, close_extended]

variable (source) in
/-- The reading of a body extends the block that it stands in. -/
theorem run_body {group level last next : Nat} {ts : List Token} {ps : List Property}
    {bs : List Block} (h : Body group level last ts ps bs next) (p : Progress) (b : OpenBlock)
    (rest : List OpenBlock) (hgroup : p.blocks.length = group) (hlevel : rest.length + 2 = level)
    (hlast : p.lastId = last) {lts : List Located} (hlts : lts.map (·.token) = ts)
    {tail : List Located} (hclean : ∀ t ∈ lts ++ tail, t.token.isTrivia = false)
    (htail : EndsHeader (tail.map (·.token))) :
    ({ p with stack := b :: rest, header := none } : Progress).run source (lts ++ tail) =
      ({ p with stack := b.extended ps bs :: rest, header := none, lastId := next } :
        Progress).run source tail := by
  induction h generalizing p b rest lts tail with
  | nil =>
    obtain rfl := List.map_eq_nil_iff.mp hlts
    rw [b.extended_nil, ← hlast]
    rfl
  | @property level last next ts ps bs prop h ih =>
    obtain ⟨t, lts, rfl, ht, hlts⟩ := List.map_eq_cons_iff.mp hlts
    have hcloses : Closes t.token := by
      rw [ht]
      exact ⟨rfl, rfl, nofun⟩
    have hstep : ({ p with stack := b :: rest, header := none } : Progress).step source t =
        .ok { p with
          stack := { b with properties := b.properties.insert prop.key prop.values } :: rest
          header := none } := by
      rw [step_statement _ hcloses rfl, ht]
      rfl
    rw [List.cons_append, run_cons_of_ok hstep]
    exact ih p _ rest hgroup hlevel hlast hlts
      (fun u hu => hclean u (List.mem_cons_of_mem t hu)) htail
  | @titles level last next ts ps bs run hrun hend h ih =>
    obtain ⟨hs, lts, rfl, hhs, hlts⟩ := List.map_eq_append_iff.mp hlts
    rw [List.append_assoc] at hclean ⊢
    obtain ⟨-, hclean⟩ := List.forall_mem_append.mp hclean
    have hends : EndsHeader ((lts ++ tail).map (·.token)) := by
      rw [List.map_append, hlts]
      cases ts with
      | nil => exact htail
      | cons t ts => exact hend
    rw [run_titles { p with stack := b :: rest } hrun hhs hclean hends]
    exact ih p b rest hgroup hlevel hlast hlts hclean htail
  | @block level last mid next header inner ts ps qs cs bs hheader hinner h ihinner ih =>
    obtain ⟨hs, o, linner, c, lts, rfl, rfl, ho, hlinner, hc, hmore⟩ := exists_eq_block hlts
    subst hgroup hlevel hlast
    have hcat : hs ++ o :: (linner ++ c :: lts) ++ tail =
        hs ++ o :: (linner ++ (c :: (lts ++ tail))) := by simp
    rw [hcat] at hclean ⊢
    obtain ⟨-, hcleanInner⟩ := List.forall_mem_cons.mp (List.forall_mem_append.mp hclean).2
    obtain ⟨-, hcleanRest⟩ := List.forall_mem_cons.mp (List.forall_mem_append.mp hcleanInner).2
    rw [run_innerBlock source p b rest hheader ho hc fun opened =>
      ihinner { p with lastId := p.lastId + 1 } opened (b :: rest) rfl rfl rfl hlinner hcleanInner
        (endsHeader_closeBrace hc _)]
    refine (ih { p with lastId := mid } _ rest rfl rfl rfl hmore hcleanRest htail).trans ?_
    simp [OpenBlock.extended]

end Progress

def Directives.push (d : Directives) : Token → Directives
  | .mode text => { d with mode := some text }
  | .styleTitle text => { d with title := some text }
  | .styleAbstract text => { d with abstract := some text }
  | _ => d

theorem Directives.foldl_push (d : Directives) (ts : List Token) :
    ts.foldl push d =
      { mode := (ts.filterMap Token.asMode?).getLast?.or d.mode
        title := (ts.filterMap Token.asStyleTitle?).getLast?.or d.title
        abstract := (ts.filterMap Token.asStyleAbstract?).getLast?.or d.abstract } := by
  induction ts generalizing d with
  | nil => rfl
  | cons t ts ih =>
    rw [List.foldl_cons, ih]
    cases t <;>
      simp [push, Token.asMode?, Token.asStyleTitle?, Token.asStyleAbstract?, List.getLast?_cons]

theorem Directives.ofTokens_eq_foldl (ts : List Token) : ofTokens ts = ts.foldl push {} := by
  simp [foldl_push, ofTokens]

theorem Directives.foldl_push_of_none (d : Directives) {ts : List Token}
    (h : ∀ t ∈ ts, t.isDirective = false) : ts.foldl push d = d := by
  induction ts with
  | nil => rfl
  | cons t ts ih =>
    have ht := h t List.mem_cons_self
    have hpush : d.push t = d := by cases t <;> simp_all [push, Token.isDirective]
    rw [List.foldl_cons, hpush, ih fun u hu => h u (List.mem_cons_of_mem t hu)]

theorem IsHeader.not_directive {header : List Token} (h : IsHeader header) :
    ∀ t ∈ header, t.isDirective = false := by
  intro t ht
  have hmem := h.members t ht
  cases t <;> simp_all [Token.isHeader, Token.isDirective]

/-- A body holds no directives. -/
theorem Body.not_directive {group level last next : Nat} {ts : List Token} {ps : List Property}
    {bs : List Block} (h : Body group level last ts ps bs next) :
    ∀ t ∈ ts, t.isDirective = false := by
  induction h with
  | nil => simp
  | property p h ih => simpa [Token.isDirective] using ih
  | titles hrun hend h ih =>
    intro t ht
    rcases List.mem_append.mp ht with ht | ht
    · obtain ⟨text, -, rfl⟩ := List.mem_map.mp ht
      rfl
    · exact ih t ht
  | block hheader hinner h ihinner ih =>
    intro t ht
    simp only [List.mem_append, List.mem_cons] at ht
    rcases ht with ht | rfl | ht | rfl | ht
    · exact hheader.not_directive t ht
    · rfl
    · exact ihinner t ht
    · rfl
    · exact ih t ht

namespace Progress

variable {source : String}

variable (source) in
/-- The reading of a top-level block adds it to the blocks. -/
theorem run_topBlock {next : Nat} {hs inner tail : List Located} {o c : Located}
    {ps : List Property} {cs : List Block} (p : Progress) (hheader : IsHeader (hs.map (·.token)))
    (ho : o.token = .openBrace)
    (hinner : Body p.blocks.length 2 1 (inner.map (·.token)) ps cs next)
    (hc : c.token = .closeBrace)
    (hclean : ∀ t ∈ inner ++ c :: tail, t.token.isTrivia = false) :
    ({ p with stack := [], header := none } : Progress).run source
        (hs ++ o :: (inner ++ c :: tail)) =
      ({ p with
          stack := []
          header := none
          lastId := next
          blocks := p.blocks ++
            [{ selectors := alternativesOf (hs.map (·.token)), title := titleOf? (hs.map (·.token)),
               properties := declared ps, level := 1, group := p.blocks.length, id := 1,
               children := cs }] } : Progress).run source tail := by
  rw [run_open { p with stack := [] } hheader ho]
  have hinnerRun := run_body source hinner { p with stack := [], lastId := 1 }
    (.ofHeader o.start 1 (hs.map (·.token))) [] rfl rfl rfl rfl hclean
    (endsHeader_closeBrace hc tail)
  rw [show ({ p with stack := [] } : Progress).nextId = 1 from rfl, hinnerRun,
    run_closeTop { p with lastId := next } _ hc, close_extended]

variable (source) in
/-- The reading of a stylesheet adds its blocks and its directives. -/
theorem run_items {group : Nat} {ts : List Token} {bs : List Block} (h : Items group ts bs)
    (p : Progress) (hgroup : p.blocks.length = group) {lts : List Located}
    (hlts : lts.map (·.token) = ts) (hclean : ∀ t ∈ lts, t.token.isTrivia = false) :
    ({ p with stack := [], header := none } : Progress).run source lts =
      .ok { directives := ts.foldl .push p.directives, blocks := p.blocks ++ bs } := by
  induction h generalizing p lts with
  | nil =>
    obtain rfl := List.map_eq_nil_iff.mp hlts
    simp [run_nil, finish]
  | @directive group t ts bs hd h ih =>
    obtain ⟨t, lts, rfl, rfl, hrest⟩ := List.map_eq_cons_iff.mp hlts
    have hstep : ({ p with stack := [], header := none } : Progress).step source t =
        .ok { p with directives := p.directives.push t.token, stack := [], header := none } := by
      have hcloses : Closes t.token := by
        cases htoken : t.token <;>
          simp_all [Closes, Token.isDirective, Token.isHeader, Token.isTrivia]
      rw [step_statement _ hcloses rfl]
      cases htoken : t.token <;> simp_all [statement, Directives.push, Token.isDirective]
    rw [run_cons_of_ok hstep]
    exact ih { p with directives := p.directives.push t.token } hgroup hrest
      fun u hu => hclean u (List.mem_cons_of_mem t hu)
  | @titles group ts bs run hrun hend h ih =>
    obtain ⟨hs, lts, rfl, hhs, hlts⟩ := List.map_eq_append_iff.mp hlts
    obtain ⟨-, hclean⟩ := List.forall_mem_append.mp hclean
    have htitles : ∀ t ∈ run.map Token.title, t.isDirective = false := by simp [Token.isDirective]
    rw [run_titles { p with stack := [] } hrun hhs hclean (hlts ▸ hend), List.foldl_append,
      Directives.foldl_push_of_none _ htitles]
    exact ih p hgroup hlts hclean
  | @block group next header inner ts ps cs bs hheader hinner h ih =>
    obtain ⟨hs, o, linner, c, lts, rfl, rfl, ho, rfl, hc, rfl⟩ := exists_eq_block hlts
    subst hgroup
    obtain ⟨-, hcleanInner⟩ := List.forall_mem_cons.mp (List.forall_mem_append.mp hclean).2
    obtain ⟨-, hcleanRest⟩ := List.forall_mem_cons.mp (List.forall_mem_append.mp hcleanInner).2
    rw [run_topBlock source p hheader ho hinner hc hcleanInner,
      ih { p with lastId := next, blocks := p.blocks ++ [_] } (by simp) rfl hcleanRest]
    simp only [List.foldl_append, List.foldl_cons]
    rw [Directives.foldl_push_of_none _ hheader.not_directive,
      Directives.foldl_push_of_none _ hinner.not_directive]
    simp [Directives.push]

end Progress

end CartoStyle.Sheet
