import CartoStyle.Proofs.Sheet.Acceptance

/-!
Where nesting errors are placed. The text a reading is given only turns offsets into positions,
so whether it succeeds, and with what fault it fails, is the same for all texts. Every error is
placed at the start of a token.
-/

namespace CartoStyle.Sheet

namespace Progress

/-- A reading does the same in every text: it gives a value with one property, or it fails with a
fault at an offset with another. -/
inductive Uniform {α : Type} (P : Nat → Prop) (Q : α → Prop) (read : String → Except Error α) : Prop
  | ok (a : α) (h : ∀ source, read source = .ok a) (ha : Q a)
  | fail (offset : Nat) (fault : SheetFault)
      (h : ∀ source, read source = Progress.fail source offset fault) (hoffset : P offset)

theorem Uniform.bind {α β : Type} {P : Nat → Prop} {Q : α → Prop} {R : β → Prop}
    {read : String → Except Error α} {next : String → α → Except Error β}
    (h : Uniform P Q read) (hnext : ∀ a, Q a → Uniform P R fun source => next source a) :
    Uniform P R fun source => read source >>= next source := by
  cases h with
  | ok a hread ha =>
    simp only [hread]
    exact hnext a ha
  | fail offset fault hread hoffset =>
    refine .fail offset fault (fun source => ?_) hoffset
    rw [hread]
    unfold Progress.fail
    cases Position.ofOffset source offset <;> rfl

/-- The offsets that a reading may place an error at have a property. -/
structure Places (P : Nat → Prop) (p : Progress) : Prop where
  header : ∀ h ∈ p.header, P h.start
  stack : ∀ b ∈ p.stack, P b.start

variable {P : Nat → Prop} {p : Progress}

theorem places_empty : Places P {} := ⟨nofun, nofun⟩

theorem Places.dropHeader (hp : p.Places P) : ({ p with header := none } : Progress).Places P :=
  ⟨nofun, hp.stack⟩

theorem uniform_statement (hp : p.Places P) {start : Nat} (hstart : P start) (t : Token) :
    Uniform P (Places P) fun source => p.statement source start t := by
  obtain ⟨directives, blocks, stack, header, lastId⟩ := p
  cases t with
  | closeBrace =>
    rcases stack with _ | ⟨b, _ | ⟨parent, rest⟩⟩
    · exact .fail _ _ (fun _ => rfl) hstart
    · exact .ok _ (fun _ => rfl) ⟨hp.header, fun _ => nofun⟩
    · obtain ⟨-, hstack⟩ := List.forall_mem_cons.mp hp.stack
      obtain ⟨hparent, hrest⟩ := List.forall_mem_cons.mp hstack
      exact .ok _ (fun _ => rfl) ⟨hp.header, List.forall_mem_cons.mpr ⟨hparent, hrest⟩⟩
  | property prop =>
    rcases stack with _ | ⟨b, rest⟩
    · exact .fail _ _ (fun _ => rfl) hstart
    · obtain ⟨hb, hrest⟩ := List.forall_mem_cons.mp hp.stack
      exact .ok _ (fun _ => rfl) ⟨hp.header, List.forall_mem_cons.mpr ⟨hb, hrest⟩⟩
  | mode | styleTitle | styleAbstract =>
    rcases stack with _ | ⟨b, rest⟩
    · exact .ok _ (fun _ => rfl) ⟨hp.header, fun _ => nofun⟩
    · exact .fail _ _ (fun _ => rfl) hstart
  | _ => exact .fail _ _ (fun _ => rfl) hstart

theorem uniform_openBlock (hp : p.Places P) {start : Nat} (hstart : P start) :
    Uniform P (Places P) fun source => p.openBlock source start := by
  obtain ⟨directives, blocks, stack, header, lastId⟩ := p
  cases header with
  | none => exact .fail _ _ (fun _ => rfl) hstart
  | some h =>
    by_cases hempty : h.selectors.isEmpty = true
    · exact .fail _ _ (fun _ => if_pos hempty) (hp.header h rfl)
    · exact .ok _ (fun _ => if_neg hempty)
        ⟨fun _ => nofun, List.forall_mem_cons.mpr ⟨hstart, hp.stack⟩⟩

/-- A header begins at its first token. -/
theorem Places.pushHeader (hp : p.Places P) {t : Located} (ht : P t.start) :
    ({ p with header := some ((p.header.getD { start := t.start }).push t.token) } :
      Progress).Places P := by
  have hstart (h : Header) (u : Token) : (h.push u).start = h.start := by cases u <;> rfl
  refine ⟨fun h hh => ?_, hp.stack⟩
  obtain rfl := Option.some.inj hh
  rw [hstart]
  cases hprev : p.header with
  | none => exact ht
  | some prev => exact hp.header prev hprev

/-- One more token is taken, or it fails at its own offset or that of the header. -/
theorem uniform_step (hp : p.Places P) {t : Located} (ht : P t.start) :
    Uniform P (Places P) fun source => p.step source t := by
  rcases header_or_open_or_closes t.token with hheader | hopen | hcloses
  · exact .ok _ (fun source => step_header source p hheader) (hp.pushHeader ht)
  · simp only [step_eq_openBlock _ p hopen]
    exact uniform_openBlock hp ht
  · by_cases hselects : ∃ h ∈ p.header, h.selects = true
    · obtain ⟨h, hheader, hh⟩ := hselects
      exact .fail _ _ (fun source => step_missingOpen source hcloses hheader hh) ht
    · have hidle : ∀ h ∈ p.header, h.selects = false := by simpa using hselects
      simp only [step_eq_statement _ p hcloses hidle]
      exact uniform_statement hp.dropHeader ht t.token

theorem uniform_finish (hp : p.Places P) : Uniform P (fun _ => True) p.finish := by
  cases hheader : p.header.filter (·.selects) with
  | some h =>
    have hmem : h ∈ p.header := (Option.filter_eq_some_iff.mp hheader).1
    exact .fail _ _ (fun source => by rw [finish, hheader]) (hp.header h hmem)
  | none =>
    cases hstack : p.stack with
    | nil => exact .ok _ (fun source => by rw [finish, hheader, hstack]) trivial
    | cons b rest =>
      have hb := hp.stack b (by rw [hstack]; exact List.mem_cons_self)
      exact .fail _ _ (fun source => by rw [finish, hheader, hstack]) hb

theorem uniform_run (hp : p.Places P) {ts : List Located} (hts : ∀ t ∈ ts, P t.start) :
    Uniform P (fun _ => True) fun source => p.run source ts := by
  induction ts generalizing p with
  | nil => exact uniform_finish hp
  | cons t ts ih =>
    obtain ⟨ht, hts⟩ := List.forall_mem_cons.mp hts
    simp only [run_cons]
    exact (uniform_step hp ht).bind fun q hq => ih hq hts

end Progress

theorem Stylesheet.ofTokens_eq_run (source : String) (tokens : List Located) :
    ofTokens source tokens = ({} : Progress).run source tokens := rfl

/-- Tokens are read into the same block tree in every text, or they fail with the same fault at
the start of one of them. -/
theorem Stylesheet.uniform_ofTokens (tokens : List Located) :
    Progress.Uniform (fun offset => ∃ t ∈ tokens, t.start = offset) (fun _ => True)
      fun source => ofTokens source tokens :=
  Progress.uniform_run Progress.places_empty fun t ht => ⟨t, ht, rfl⟩

end CartoStyle.Sheet
