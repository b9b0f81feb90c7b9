import CartoStyle.Proofs.Sheet.Lexeme
import CartoStyle.Proofs.Sheet.Trivia

/-!
An accepting run of the block parser yields a derivation. What stands at the
front of the tokens is a statement, a run of titles that belongs to no block, or
a header with its opening brace; taking it off leaves a shorter run. Within an
open block the run reaches the closing brace of that block, since the end of the
tokens is refused while a block is open.
-/

namespace CartoStyle.Sheet

theorem titles_of_not_selects {start : Nat} {ts : List Token}
    (hts : ∀ t ∈ ts, t.isHeader = true)
    (hidle : (({ start } : Header).pushAll ts).selects = false) :
    ∃ run : List String, ts = run.map .title := by
  rw [Header.selects_pushAll _ hts, Bool.false_or] at hidle
  induction ts with
  | nil => exact ⟨[], rfl⟩
  | cons t ts ih =>
    rw [List.any_cons, Bool.or_eq_false_iff] at hidle
    obtain ⟨run, hrun⟩ := ih (fun u hu => hts u (List.mem_cons_of_mem t hu)) hidle.2
    obtain ⟨text, htext⟩ : ∃ text, t = .title text := by
      cases t <;> simp_all [Token.asTitle?]
    exact ⟨text :: run, by rw [hrun, htext, List.map_cons]⟩

namespace Progress

variable {source : String} {sheet : Stylesheet}

theorem stack_of_finish {p : Progress} (h : p.finish source = .ok sheet) : p.stack = [] := by
  cases hstack : p.stack with
  | nil => rfl
  | cons b rest =>
    rw [finish, hstack] at h
    cases hheader : p.header.filter (·.selects) <;>
      · rw [hheader] at h
        exact absurd h fail_ne_ok

theorem selects_of_finish {p : Progress} {header : Header} (hheader : p.header = some header)
    (h : p.finish source = .ok sheet) : header.selects = false := by
  cases hsel : header.selects with
  | false => rfl
  | true =>
    have hfilter : p.header.filter (·.selects) = some header := by
      simp [hheader, Option.filter, hsel]
    rw [finish, hfilter] at h
    exact absurd h fail_ne_ok

/-- What may stand at the front of tokens that are read successfully. -/
inductive Front (lts : List Located) : Prop
  | none (h : lts = [])
  | statement {t : Located} {tail : List Located} (h : lts = t :: tail) (ht : Closes t.token)
  | titles {run : List String} {hs tail : List Located} (h : lts = hs ++ tail) (hrun : run ≠ [])
      (hhs : hs.map (·.token) = run.map .title) (hend : EndsHeader (tail.map (·.token)))
  | header {hs : List Located} {o : Located} {tail : List Located} (h : lts = hs ++ o :: tail)
      (hheader : IsHeader (hs.map (·.token))) (ho : o.token = .openBrace)

theorem exists_header_run (lts : List Located) :
    ∃ hs tail, lts = hs ++ tail ∧ (∀ t ∈ hs, t.token.isHeader = true) ∧
      ∀ t, tail.head? = some t → t.token.isHeader = false := by
  refine ⟨lts.takeWhile (·.token.isHeader), lts.dropWhile (·.token.isHeader),
    List.takeWhile_append_dropWhile.symm, ?_, ?_⟩
  · intro t ht
    exact List.all_eq_true.mp List.all_takeWhile t ht
  · intro t ht
    have hnot := List.head?_dropWhile_not (fun t : Located => t.token.isHeader) lts
    rw [ht] at hnot
    exact hnot

/-- The longest run of header tokens decides what stands at the front. -/
theorem front_of_run {p : Progress} {lts : List Located}
    (hclean : ∀ t ∈ lts, t.token.isTrivia = false)
    (h : ({ p with header := none } : Progress).run source lts = .ok sheet) : Front lts := by
  obtain ⟨hs, tail, hsplit, hhs, htail⟩ := exists_header_run lts
  have hmem : ∀ t ∈ hs.map (·.token), t.isHeader = true := by simpa using hhs
  have hrunNe {run : List String} (hrun : hs.map (·.token) = run.map .title) (hne : hs ≠ []) :
      run ≠ [] := by
    rintro rfl
    exact hne (List.map_eq_nil_iff.mp hrun)
  rw [hsplit] at h
  by_cases hne : hs = []
  · rw [hne, List.nil_append] at h hsplit
    cases tail with
    | nil => exact .none hsplit
    | cons t tail =>
      have htrivia : t.token.isTrivia = false := hclean t (by rw [hsplit]; exact List.mem_cons_self)
      refine .statement hsplit ⟨htail t rfl, htrivia, fun hopen => ?_⟩
      obtain ⟨q, hq, -⟩ := step_of_run h
      obtain ⟨header, hheader, -⟩ := openBlock_of_step hopen hq
      cases hheader
  · obtain ⟨start, hstart⟩ := run_header source p hne hhs
    rw [hstart] at h
    cases tail with
    | nil =>
      obtain ⟨run, hrun⟩ := titles_of_not_selects hmem (selects_of_finish rfl h)
      exact .titles hsplit (hrunNe hrun hne) hrun nofun
    | cons t tail =>
      obtain ⟨q, hq, -⟩ := step_of_run h
      by_cases hopen : t.token = .openBrace
      · obtain ⟨header, hheader, hsel⟩ := openBlock_of_step hopen hq
        cases hheader
        rw [selectors_pushAll_start] at hsel
        exact .header hsplit (isHeader_iff.mpr ⟨hmem, hsel⟩) hopen
      · have htrivia : t.token.isTrivia = false := hclean t (by rw [hsplit]; simp)
        have hcloses : Closes t.token := ⟨htail t rfl, htrivia, hopen⟩
        obtain ⟨run, hrun⟩ := titles_of_not_selects hmem (selects_of_step hcloses rfl hq)
        refine .titles hsplit (hrunNe hrun hne) hrun ?_
        intro u hu
        obtain rfl : t.token = u := by simpa using hu
        exact ⟨htail t rfl, hopen⟩

theorem length_le_of_titles {n : Nat} {run : List String} (hrun : run ≠ [])
    {hs tail : List Located} (hhs : hs.map (·.token) = run.map .title)
    (hlen : (hs ++ tail).length ≤ n + 1) : tail.length ≤ n := by
  have hne : hs ≠ [] := by
    rintro rfl
    exact hrun (List.map_eq_nil_iff.mp hhs.symm)
  have hpos := List.length_pos_iff.mpr hne
  rw [List.length_append] at hlen
  omega

theorem length_le_of_header {n : Nat} {hs tail : List Located} {o : Located}
    (hlen : (hs ++ o :: tail).length ≤ n + 1) : tail.length ≤ n := by
  rw [List.length_append, List.length_cons] at hlen
  omega

/-- A run that succeeds with an open block reaches the closing brace of that block, and a
body stands in front of it. -/
theorem body_of_run {n : Nat} {lts : List Located} (hlen : lts.length ≤ n) {p : Progress}
    {b : OpenBlock} {rest : List OpenBlock} (hclean : ∀ t ∈ lts, t.token.isTrivia = false)
    (h : ({ p with stack := b :: rest, header := none } : Progress).run source lts = .ok sheet) :
    ∃ inner c tail ps bs next, lts = inner ++ c :: tail ∧ c.token = .closeBrace ∧
      Body p.blocks.length (rest.length + 2) p.lastId (inner.map (·.token)) ps bs next := by
  induction n generalizing lts p b rest with
  | zero =>
    obtain rfl := List.length_eq_zero_iff.mp (Nat.le_zero.mp hlen)
    rw [run_nil] at h
    have hstack := stack_of_finish h
    cases hstack
  | succ n ih =>
    rcases front_of_run (p := { p with stack := b :: rest }) hclean h with
      rfl | @⟨t, tail, rfl, ht⟩ | @⟨run, hs, tail, rfl, hrun, hhs, hend⟩ |
      @⟨hs, o, tail, rfl, hheader, ho⟩
    · rw [run_nil] at h
      have hstack := stack_of_finish h
      cases hstack
    · obtain ⟨-, hcleanTail⟩ := List.forall_mem_cons.mp hclean
      have hlenTail : tail.length ≤ n := Nat.le_of_succ_le_succ hlen
      obtain ⟨q, hq, hrest⟩ := step_of_run h
      rw [step_statement _ ht rfl] at hq
      cases htoken : t.token with
      | closeBrace => exact ⟨[], t, tail, [], [], p.lastId, rfl, htoken, .nil⟩
      | property prop =>
        rw [htoken] at hq
        cases hq
        obtain ⟨inner, c, tail, ps, bs, next, rfl, hc, hbody⟩ :=
          ih (p := p) hlenTail hcleanTail hrest
        refine ⟨t :: inner, c, tail, prop :: ps, bs, next, rfl, hc, ?_⟩
        rw [List.map_cons, htoken]
        exact hbody.property prop
      | mode | styleTitle | styleAbstract =>
        rw [htoken] at hq
        exact absurd hq fail_ne_ok
      | _ =>
        have hno := ht
        simp [htoken, Closes, Token.isHeader, Token.isTrivia] at hno
    · obtain ⟨-, hcleanTail⟩ := List.forall_mem_append.mp hclean
      rw [run_titles { p with stack := b :: rest } hrun hhs hcleanTail hend] at h
      obtain ⟨inner, c, tail, ps, bs, next, rfl, hc, hbody⟩ :=
        ih (p := p) (length_le_of_titles hrun hhs hlen) hcleanTail h
      refine ⟨hs ++ inner, c, tail, ps, bs, next, by simp, hc, ?_⟩
      rw [List.map_append, hhs]
      refine hbody.titles hrun ?_
      intro u hu
      refine hend u ?_
      rw [List.map_append, List.head?_append, hu]
      rfl
    · have hlenTail := length_le_of_header hlen
      obtain ⟨-, hcleanTail⟩ := List.forall_mem_cons.mp (List.forall_mem_append.mp hclean).2
      have hopened := h
      rw [run_open { p with stack := b :: rest } hheader ho] at hopened
      obtain ⟨inner, c, tail, ps, cs, mid, rfl, hc, hinner⟩ :=
        ih (p := { p with lastId := p.lastId + 1 }) hlenTail hcleanTail hopened
      rw [run_innerBlock source p b rest hheader ho hc fun opened =>
        run_body source hinner { p with lastId := p.lastId + 1 } opened (b :: rest) rfl rfl rfl rfl
          hcleanTail (endsHeader_closeBrace hc tail)] at h
      obtain ⟨-, hcleanRest⟩ := List.forall_mem_cons.mp (List.forall_mem_append.mp hcleanTail).2
      obtain ⟨later, d, tail, qs, bs, next, rfl, hd, hlater⟩ :=
        ih (p := { p with lastId := mid }) (length_le_of_header (Nat.le_succ_of_le hlenTail))
          hcleanRest h
      have hblock : Body p.blocks.length (rest.length + 2) p.lastId _ _ _ _ :=
        .block hheader hinner hlater
      rw [← map_token_block ho hc] at hblock
      exact ⟨hs ++ o :: (inner ++ c :: later), d, tail, qs, _, next, by simp, hd, hblock⟩

/-- A run that succeeds where no block is open has read a stylesheet. -/
theorem items_of_run {n : Nat} {lts : List Located} (hlen : lts.length ≤ n) {p : Progress}
    (hclean : ∀ t ∈ lts, t.token.isTrivia = false)
    (h : ({ p with stack := [], header := none } : Progress).run source lts = .ok sheet) :
    ∃ bs, Items p.blocks.length (lts.map (·.token)) bs := by
  induction n generalizing lts p with
  | zero =>
    obtain rfl := List.length_eq_zero_iff.mp (Nat.le_zero.mp hlen)
    exact ⟨[], .nil⟩
  | succ n ih =>
    rcases front_of_run (p := { p with stack := [] }) hclean h with
      rfl | @⟨t, tail, rfl, ht⟩ | @⟨run, hs, tail, rfl, hrun, hhs, hend⟩ |
      @⟨hs, o, tail, rfl, hheader, ho⟩
    · exact ⟨[], .nil⟩
    · obtain ⟨-, hcleanTail⟩ := List.forall_mem_cons.mp hclean
      obtain ⟨q, hq, hrest⟩ := step_of_run h
      rw [step_statement _ ht rfl] at hq
      obtain ⟨d, rfl, hdirective⟩ : ∃ d,
          q = { p with directives := d, stack := [], header := none } ∧
            t.token.isDirective = true := by
        cases htoken : t.token with
        | mode | styleTitle | styleAbstract =>
          rw [htoken] at hq
          cases hq
          exact ⟨_, rfl, rfl⟩
        | _ =>
          rw [htoken] at hq
          exact absurd hq fail_ne_ok
      obtain ⟨bs, hbs⟩ := ih (p := { p with directives := d }) (Nat.le_of_succ_le_succ hlen)
        hcleanTail hrest
      exact ⟨bs, hbs.directive hdirective⟩
    · obtain ⟨-, hcleanTail⟩ := List.forall_mem_append.mp hclean
      rw [run_titles { p with stack := [] } hrun hhs hcleanTail hend] at h
      obtain ⟨bs, hbs⟩ := ih (p := p) (length_le_of_titles hrun hhs hlen) hcleanTail h
      refine ⟨bs, ?_⟩
      rw [List.map_append, hhs]
      exact hbs.titles hrun hend
    · have hlenTail := length_le_of_header hlen
      obtain ⟨-, hcleanTail⟩ := List.forall_mem_cons.mp (List.forall_mem_append.mp hclean).2
      have hopened := h
      rw [run_open { p with stack := [] } hheader ho] at hopened
      obtain ⟨inner, c, tail, ps, cs, next, rfl, hc, hinner⟩ :=
        body_of_run (p := { p with lastId := 1 }) hlenTail hcleanTail hopened
      rw [run_topBlock source p hheader ho hinner hc hcleanTail] at h
      obtain ⟨-, hcleanRest⟩ := List.forall_mem_cons.mp (List.forall_mem_append.mp hcleanTail).2
      obtain ⟨bs, hbs⟩ := ih (p := { p with lastId := next, blocks := p.blocks ++ [_] })
        (length_le_of_header (Nat.le_succ_of_le hlenTail)) hcleanRest h
      rw [List.length_append, List.length_singleton] at hbs
      have hblock := Items.block hheader hinner hbs
      rw [← map_token_block ho hc] at hblock
      exact ⟨_, hblock⟩

end Progress

namespace Stylesheet

variable {source : String} {tokens : List Located} {sheet : Stylesheet}

variable (source) in
/-- The tokens of a derivation are read into its tree. -/
theorem ofTokens_of_derives (hclean : ∀ t ∈ tokens, t.token.isTrivia = false)
    (h : Derives (tokens.map (·.token)) sheet) : ofTokens source tokens = .ok sheet := by
  have hrun := Progress.run_items source h.items {} rfl rfl hclean
  rw [ofTokens_eq_run]
  refine hrun.trans (congrArg Except.ok ?_)
  simp only [List.nil_append, ← Directives.ofTokens_eq_foldl, ← h.directives]

theorem derives_of_ofTokens (hclean : ∀ t ∈ tokens, t.token.isTrivia = false)
    (h : ofTokens source tokens = .ok sheet) : Derives (tokens.map (·.token)) sheet := by
  obtain ⟨bs, hbs⟩ := Progress.items_of_run (p := {}) (Nat.le_refl _) hclean h
  have hderives : Derives (tokens.map (·.token))
      { directives := .ofTokens (tokens.map (·.token)), blocks := bs } := ⟨hbs, rfl⟩
  have hread := ofTokens_of_derives source hclean hderives
  cases h.symm.trans hread
  exact ⟨hbs, rfl⟩

theorem isTrivia_of_lex (h : lex source = .ok tokens) :
    ∀ t ∈ tokens, t.token.isTrivia = false := by
  obtain ⟨all, -, rfl⟩ := lex_eq_ok_iff.mp h
  intro t ht
  simpa using (List.mem_filter.mp ht).2

/-- A stylesheet text that is read has tokens that derive its block tree. -/
theorem exists_derives_of_parse (h : parse source = .ok sheet) :
    ∃ tokens, lex source = .ok tokens ∧ Derives (tokens.map (·.token)) sheet := by
  rw [parse] at h
  cases hlex : lex source with
  | error e =>
    rw [hlex] at h
    cases h
  | ok tokens =>
    rw [hlex] at h
    exact ⟨tokens, rfl, derives_of_ofTokens (isTrivia_of_lex hlex) h⟩

/-- A text is read into the block tree that its tokens derive. -/
theorem parse_of_derives {ts : List Token} (hlexes : Lexes source.toList ts)
    (h : Derives ts sheet) : parse source = .ok sheet := by
  obtain ⟨located, hlex, rfl, hclean⟩ := hlexes.lex_eq_ok
  rw [parse, hlex]
  exact ofTokens_of_derives source hclean h

/-- The block parser accepts the token lists of the grammar, whatever trivia stand in them,
and builds the block tree of the derivation. -/
theorem ofTokens_eq_ok_iff :
    ofTokens source tokens = .ok sheet ↔
      Derives ((tokens.filter (!·.token.isTrivia)).map (·.token)) sheet := by
  have hclean : ∀ t ∈ tokens.filter (!·.token.isTrivia), t.token.isTrivia = false := by
    intro t ht
    simpa using (List.mem_filter.mp ht).2
  rw [← ofTokens_filter_eq_ok_iff]
  exact ⟨derives_of_ofTokens hclean, ofTokens_of_derives source hclean⟩

end Stylesheet

end CartoStyle.Sheet
