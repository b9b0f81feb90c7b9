import Mathlib
import CartoStyle.Proofs.Condition.Derivation
import CartoStyle.Proofs.Condition.Rendering
import CartoStyle.Proofs.Decimal.Layout
import CartoStyle.Proofs.Lexicon.Tiling

/-!
Canonical condition texts. Conditions may be spelled in many ways, with either kind of quotes or
none around a text, further parentheses, other signs and keywords in any case; but what they are
made of can always be written. A text between quotes leaves one kind of quotes unused, and no
attribute is a keyword, since a keyword is read first. So every condition has a canonical text,
which is read as the same expression and is its own canonical text.
-/

namespace CartoStyle.Condition

open Lexeme Pattern

variable {text : String} {ts : List Token} {t : Token} {e v : Expression} {k : Category}

/-- No numeral of the text stands for a number beyond the range of doubles. -/
def HasFiniteNumerals (text : String) : Prop :=
  ∀ ts, tokens? text = some ts → ∀ x, Token.number x ∈ ts → Decimal.IsFinite x

def Token.IsSpellable : Token → Prop
  | number x => Decimal.IsFinite x
  | quoted s => IsQuotable s
  | identifier name => IsIdentifier name
  | _ => True

section Tokens

/-- Identifiers come last among the kinds. -/
theorem eq_dropLast_of_kinds {earlier later : List Kind}
    (h : lexicon.kinds = earlier ++ .identifier :: later) :
    earlier = lexicon.kinds.dropLast := by
  have hlast : lexicon.kinds = lexicon.kinds.dropLast ++ Kind.identifier :: [] := rfl
  have hfront : Kind.identifier ∉ lexicon.kinds.dropLast := by simp [lexicon]
  rw [hlast] at h
  exact ((List.append_cons_inj_of_notMem hfront List.not_mem_nil).mp h).1.symm

theorem exists_keyword_kind {w : String} (hw : w ∈ keywords) :
    w.toList.map Char.toLower = w.toList ∧ ∃ t, Kind.keyword t w ∈ lexicon.kinds.dropLast := by
  revert w
  simp only [keywords, List.forall_mem_cons, List.not_mem_nil, false_imp_iff, implies_true,
    and_true]
  refine ⟨⟨?_, .and, ?_⟩, ⟨?_, .or, ?_⟩, ⟨?_, .not, ?_⟩, ⟨?_, .like, ?_⟩, ⟨?_, .ilike, ?_⟩,
    ⟨?_, .is, ?_⟩, ⟨?_, .null, ?_⟩⟩ <;> first | decide | simp [lexicon]

/-- A lexeme that is taken for an identifier is no keyword in whatever case. -/
theorem isIdentifier_of_isNext {lexeme rest : List Char}
    (h : lexicon.IsNext .identifier lexeme rest) : IsIdentifier (String.ofList lexeme) := by
  obtain ⟨-, hmatch, -, earlier, later, hkinds, hfirst⟩ := h
  obtain rfl := eq_dropLast_of_kinds hkinds
  have hform : ∃ c cs, lexeme = c :: cs ∧ isIdentifierFirst c = true ∧
      ∀ d ∈ cs, isIdentifierChar d = true := by
    obtain ⟨xs, cs, rfl, hx, hcs⟩ := matches_seq_iff.mp hmatch
    obtain ⟨c, rfl, hc⟩ := matches_one_iff.mp hx
    exact ⟨c, cs, rfl, hc, matches_many_one_iff.mp hcs⟩
  refine ⟨by rwa [String.toList_ofList], fun hkeyword => ?_⟩
  obtain ⟨hlower, t, hmem⟩ := exists_keyword_kind hkeyword
  refine hfirst _ hmem (matches_anyCase_iff.mpr ?_)
  rw [hlower]
  simp [String.toLower]

/-- Signs and keywords are tokens without a text of their own. -/
theorem isSpellable_of_mem_kinds {kind : Kind} (h : kind ∈ lexicon.kinds) {w : String}
    (hkind : kind = .fixed t w ∨ kind = .keyword t w) : t.IsSpellable := by
  rcases hkind with rfl | rfl
  · simp only [lexicon, List.mem_cons, Kind.fixed.injEq, reduceCtorEq, or_false,
      List.not_mem_nil] at h
    rcases h with h | h | h | h | h | h | h | h | h | h <;>
      · rw [h.1]
        trivial
  · simp only [lexicon, List.mem_cons, Kind.keyword.injEq, reduceCtorEq, false_or, or_false,
      List.not_mem_nil] at h
    rcases h with h | h | h | h | h | h | h <;>
      · rw [h.1]
        trivial

theorem isSpellable_of_tokens? (htokens : tokens? text = some ts) (hfinite : HasFiniteNumerals text)
    (ht : t ∈ ts) : t.IsSpellable := by
  obtain ⟨tiles, htiles, rfl⟩ := Option.map_eq_some_iff.mp htokens
  obtain ⟨⟨kind, lexeme⟩, htile, hread⟩ := List.mem_filterMap.mp ht
  obtain ⟨rest, hnext⟩ := (Lexicon.tiling_of_tiling? htiles).exists_isNext htile
  cases kind with
  | blanks => cases hread
  | fixed sign w =>
    cases hread
    exact isSpellable_of_mem_kinds hnext.mem_kinds (Or.inl rfl)
  | keyword word w =>
    cases hread
    exact isSpellable_of_mem_kinds hnext.mem_kinds (Or.inr rfl)
  | number =>
    cases hread
    exact hfinite _ htokens _ ht
  | quoted =>
    cases hread
    exact isQuotable_of_matches_quoted hnext.isMatch
  | identifier =>
    cases hread
    exact isIdentifier_of_isNext hnext

end Tokens

section Expressions

/-- An identifier holds no quotes. -/
theorem IsIdentifier.isQuotable {name : String} (h : IsIdentifier name) : IsQuotable name := by
  obtain ⟨⟨c, cs, hname, hc, hcs⟩, -⟩ := h
  refine Or.inl fun hquote => ?_
  rw [hname] at hquote
  rcases List.mem_cons.mp hquote with rfl | hquote
  · cases hc
  · cases hcs _ hquote

theorem exists_isLiteral (h : Operand t v) (ht : t.IsSpellable) :
    ∃ l, v = .literal l ∧ IsLiteral (fun _ => True) l := by
  cases h with
  | number x => exact ⟨_, rfl, .number (Decimal.isNumber_iff.mpr ht)⟩
  | quoted s => exact ⟨_, rfl, .text ht fun _ _ => trivial⟩
  | null => exact ⟨_, rfl, .null⟩
  | true => exact ⟨_, rfl, .bool true⟩
  | false => exact ⟨_, rfl, .bool false⟩
  | word h => exact ⟨_, rfl, .text ht.isQuotable fun _ _ => trivial⟩

/-- A comparison made of spellable tokens has a condition text. -/
theorem isCondition_of_compares (h : Compares ts e) (hts : ∀ t ∈ ts, t.IsSpellable) :
    IsCondition (fun _ => True) e := by
  cases h with
  | @sign name t u op v hop hv =>
    obtain ⟨l, rfl, hl⟩ := exists_isLiteral hv (hts u (by simp))
    refine .comparison ?_ (hts (.identifier name) (by simp)) hl
    cases t <;> cases hop <;> rfl
  | @notLike name u v hv | @notIlike name u v hv =>
    obtain ⟨l, rfl, hl⟩ := exists_isLiteral hv (hts u (by simp))
    exact .not (.comparison rfl (hts (.identifier name) (by simp)) hl)
  | isNull name => exact .comparison rfl (hts (.identifier name) (by simp)) .null
  | isNotNull name => exact .not (.comparison rfl (hts (.identifier name) (by simp)) .null)

theorem isCondition_combine {op : Operator} {es : List Expression} (hop : op = .any ∨ op = .all)
    (h : ∀ f ∈ e :: es, IsCondition (fun _ => True) f) :
    IsCondition (fun _ => True) (combine op e es) := by
  cases es with
  | nil => exact h e List.mem_cons_self
  | cons f es =>
    rcases hop with rfl | rfl
    · exact .any (by simp) h
    · exact .all (by simp) h

theorem mem_joined {word : Token} {others : List (List Token × Expression)}
    {o : List Token × Expression} (ho : o ∈ others) (ht : t ∈ o.1) : t ∈ joined word others :=
  List.mem_flatMap.mpr ⟨o, ho, List.mem_cons_of_mem word ht⟩

/-- What spellable tokens are read as has a condition text. -/
theorem isCondition_of_derives (h : Derives k ts e) (hts : ∀ t ∈ ts, t.IsSpellable) :
    IsCondition (fun _ => True) e := by
  induction h with
  | comparison h => exact isCondition_of_compares h hts
  | not _ ih => exact .not (ih fun t ht => hts t (List.mem_cons_of_mem _ ht))
  | parens _ ih =>
    exact ih fun t ht => hts t (List.mem_cons_of_mem _ (List.mem_append_left _ ht))
  | all _ _ ih ihothers | any _ _ ih ihothers =>
    refine isCondition_combine (by simp) (List.forall_mem_cons.mpr ⟨?_, ?_⟩)
    · exact ih fun t ht => hts t (List.mem_append_left _ ht)
    · refine List.forall_mem_map.mpr fun o ho => ihothers o ho fun t ht => ?_
      exact hts t (List.mem_append_right _ (mem_joined ho ht))

end Expressions

/-- What a condition is read as can be written; the text is read as the same expression, and
writing what it is read as gives the text again. -/
theorem exists_canonical_of_parse (h : parse text = .ok e) (hfinite : HasFiniteNumerals text) :
    ∃ canonical, e.condition = .ok canonical ∧ parse canonical = .ok e ∧
      (parse canonical >>= Expression.condition) = .ok canonical := by
  obtain ⟨ts, htokens, hderives⟩ := parse_eq_ok_iff_means.mp h
  have hcondition : IsCondition (fun _ => True) e :=
    isCondition_of_derives hderives fun t ht => isSpellable_of_tokens? htokens hfinite ht
  obtain ⟨canonical, hwritten, -, hread⟩ := exists_condition_eq hcondition
  refine ⟨canonical, hwritten, hread, ?_⟩
  rw [hread]
  exact hwritten

section Houses

def housesText : String := "NOT(kind<>\"Baker's\"oR((height==2.50AND Name iLIKE House)))"

theorem hasFiniteNumerals_housesText : HasFiniteNumerals housesText := by
  intro ts htokens x hx
  have hall : ((tokens? housesText).all fun ts => ts.all fun
      | .number x => x.isFinite
      | _ => true) = true := by decide +kernel
  rw [htokens] at hall
  exact Decimal.isFinite_iff.mpr (List.all_eq_true.mp hall _ hx)

theorem parse_canonical_housesText :
    HasFiniteNumerals housesText ∧ ∃ e, parse housesText = .ok e ∧
      e.condition = .ok "not (kind != \"Baker's\" or (height = 2.5 and Name ilike 'House'))" ∧
      parse "not (kind != \"Baker's\" or (height = 2.5 and Name ilike 'House'))" = .ok e := by
  have hcanonical : (parse housesText).toOption.bind (·.condition.toOption) =
      some "not (kind != \"Baker's\" or (height = 2.5 and Name ilike 'House'))" := by
    decide +kernel
  cases hparse : parse housesText with
  | error fault =>
    rw [hparse] at hcanonical
    cases hcanonical
  | ok e =>
    obtain ⟨canonical, hwritten, hread, -⟩ :=
      exists_canonical_of_parse hparse hasFiniteNumerals_housesText
    rw [hparse] at hcanonical
    have hcondition : e.condition.toOption =
      some "not (kind != \"Baker's\" or (height = 2.5 and Name ilike 'House'))" := hcanonical
    rw [hwritten] at hcondition
    obtain rfl := Option.some.inj hcondition
    exact ⟨hasFiniteNumerals_housesText, e, rfl, hwritten, hread⟩

end Houses

end CartoStyle.Condition
