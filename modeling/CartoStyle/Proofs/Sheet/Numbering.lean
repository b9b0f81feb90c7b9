import Mathlib.Data.List.Basic
import CartoStyle.Proofs.Sheet.Derivation
import CartoStyle.Proofs.Sheet.Path

/-!
The numbers of the blocks are coordinates. A body takes up as many identifiers as there are blocks
in it, in the order of the walk, and a top-level block begins anew with the next group. So the pair
of group and identifier ascends along the walk, and the walk visits the blocks in the order in which
their opening braces stand among the tokens.
-/

namespace CartoStyle.Sheet

def Block.Precedes (b c : Block) : Prop := b.group < c.group ∨ (b.group = c.group ∧ b.id < c.id)

/-- The numbers of the blocks are their coordinates. -/
structure Stylesheet.IsNumbered (s : Stylesheet) : Prop where
  group : ∀ i path b, s.at? (i :: path) = some b → b.group = i
  ids : ∀ i, (s.walk.filter (·.group == i)).map (·.id) =
    List.range' 1 (s.walk.filter (·.group == i)).length
  top : ∀ b ∈ s.blocks, b.level = 1
  nested : ∀ b ∈ s.walk, ∀ c ∈ b.children, c.level = b.level + 1
  ascending : s.walk.Pairwise Block.Precedes

def significant (ts : List Token) : List Token := ts.filter (!·.isTrivia)

/-- The opening brace with that number, counted from zero, is the one of the block: between the
statement before it and the brace stands the header of the block, and behind the brace its body, up
to a closing brace. Trivia may stand anywhere. -/
inductive OpensAt : List Token → Nat → Block → Prop
  | intro {before lead inner after : List Token} {ps : List Property} {next : Nat} {b : Block}
      (hbefore : ∀ t, (significant before).getLast? = some t → t.isHeader = false)
      (hheader : IsHeader (significant lead))
      (hinner : Body b.group (b.level + 1) b.id (significant inner) ps b.children next)
      (hselectors : b.selectors = alternativesOf (significant lead))
      (htitle : b.title = titleOf? (significant lead)) (hproperties : b.properties = declared ps) :
      OpensAt (before ++ (lead ++ .openBrace :: (inner ++ .closeBrace :: after)))
        (before.count .openBrace) b

/-- The opening braces among the tokens are those of the blocks, in their order. -/
structure OpensInOrder (ts : List Token) (bs : List Block) : Prop where
  count : ts.count .openBrace = bs.length
  opens : ∀ k b, bs[k]? = some b → OpensAt ts k b

/-- Blocks on one level and the blocks in them, numbered one after the other. The numbers are the
level and the last identifiers before and after the blocks. -/
inductive Numbered (group : Nat) : (level last : Nat) → List Block → (next : Nat) → Prop
  | nil {level last : Nat} : Numbered group level last [] last
  | cons {level last mid next : Nat} {b : Block} {bs : List Block} (hgroup : b.group = group)
      (hlevel : b.level = level) (hid : b.id = last + 1)
      (hinner : Numbered group (level + 1) (last + 1) b.children mid)
      (h : Numbered group level mid bs next) : Numbered group level last (b :: bs) next

/-- Top-level blocks in consecutive groups, each numbered anew. -/
inductive NumberedFrom : (group : Nat) → List Block → Prop
  | nil {group : Nat} : NumberedFrom group []
  | cons {group next : Nat} {b : Block} {bs : List Block} (hb : Numbered group 1 0 [b] next)
      (h : NumberedFrom (group + 1) bs) : NumberedFrom group (b :: bs)

variable {group level last next k : Nat} {ts us inner header : List Token} {ps : List Property}
  {bs cs : List Block} {b c : Block}

section Numbers

theorem Body.numbered (h : Body group level last ts ps bs next) :
    Numbered group level last bs next := by
  induction h with
  | nil => exact .nil
  | property _ _ ih => exact ih
  | titles _ _ _ ih => exact ih
  | block _ _ _ ihinner ih => exact .cons rfl rfl rfl ihinner ih

theorem Items.numberedFrom (h : Items group ts bs) : NumberedFrom group bs := by
  induction h with
  | nil => exact .nil
  | directive _ _ ih => exact ih
  | titles _ _ _ ih => exact ih
  | block _ hinner _ ih => exact .cons (.cons rfl rfl rfl hinner.numbered .nil) ih

theorem walkAll_singleton (b : Block) : Block.walkAll [b] = b.walk := by
  rw [Block.walkAll, Block.walkAll, List.append_nil]

/-- The identifiers run on along the walk. -/
theorem Numbered.map_id (h : Numbered group level last bs next) :
    (Block.walkAll bs).map (·.id) = List.range' (last + 1) (Block.walkAll bs).length ∧
      next = last + (Block.walkAll bs).length := by
  induction h with
  | nil => exact ⟨rfl, rfl⟩
  | @cons _ last _ _ b bs _ _ hid _ _ ihinner ih =>
    obtain ⟨hinner, rfl⟩ := ihinner
    obtain ⟨hlater, rfl⟩ := ih
    have hrange := List.range'_append_1 (s := last + 1 + 1) (m := (Block.walkAll b.children).length)
      (n := (Block.walkAll bs).length)
    rw [Nat.add_right_comm (last + 1)] at hrange
    simp only [Block.walkAll, Block.walk_eq, List.cons_append, List.map_cons, List.map_append, hid,
      hinner, hlater, List.length_cons, List.length_append, List.range'_succ, hrange, true_and]
    omega

theorem Numbered.group_eq (h : Numbered group level last bs next) :
    ∀ b ∈ Block.walkAll bs, b.group = group := by
  induction h with
  | nil => exact nofun
  | cons hgroup _ _ _ _ ihinner ih =>
    rw [Block.walkAll, Block.walk_eq]
    exact List.forall_mem_append.mpr ⟨List.forall_mem_cons.mpr ⟨hgroup, ihinner⟩, ih⟩

theorem Numbered.level_eq (h : Numbered group level last bs next) :
    ∀ b ∈ bs, b.level = level := by
  induction h with
  | nil => exact nofun
  | cons _ hlevel _ _ _ _ ih => exact List.forall_mem_cons.mpr ⟨hlevel, ih⟩

/-- Children lie one level below their parents. -/
theorem Numbered.nested (h : Numbered group level last bs next) :
    ∀ b ∈ Block.walkAll bs, ∀ c ∈ b.children, c.level = b.level + 1 := by
  induction h with
  | nil => exact nofun
  | cons _ hlevel _ hinner _ ihinner ih =>
    rw [Block.walkAll, Block.walk_eq]
    refine List.forall_mem_append.mpr ⟨List.forall_mem_cons.mpr ⟨fun c hc => ?_, ihinner⟩, ih⟩
    rw [hinner.level_eq c hc, hlevel]

theorem Numbered.ascending (h : Numbered group level last bs next) :
    (Block.walkAll bs).Pairwise Block.Precedes := by
  have hgroup := h.group_eq
  have hids := List.pairwise_map.mp (h.map_id.1 ▸ List.pairwise_lt_range')
  exact hids.imp_of_mem fun hb hc hid => Or.inr ⟨(hgroup _ hb).trans (hgroup _ hc).symm, hid⟩

/-- A single block and the blocks in it belong to one group. -/
theorem Numbered.group_walk (h : Numbered group level last [b] next) :
    ∀ c ∈ b.walk, c.group = group :=
  walkAll_singleton b ▸ h.group_eq

theorem NumberedFrom.group_le (h : NumberedFrom group bs) :
    ∀ b ∈ Block.walkAll bs, group ≤ b.group := by
  induction h with
  | nil => exact nofun
  | cons hb _ ih =>
    rw [Block.walkAll]
    exact List.forall_mem_append.mpr
      ⟨fun c hc => Nat.le_of_eq (hb.group_walk c hc).symm, fun c hc => Nat.le_of_succ_le (ih c hc)⟩

/-- The group of a block is the position of the top-level block around it. -/
theorem NumberedFrom.group_eq (h : NumberedFrom group bs) (hb : bs[k]? = some b) :
    ∀ c ∈ b.walk, c.group = group + k := by
  induction h generalizing k with
  | nil => cases hb
  | cons hfirst _ ih =>
    cases k with
    | zero =>
      cases hb
      exact hfirst.group_walk
    | succ k =>
      rw [← Nat.add_assoc, Nat.add_right_comm]
      exact ih hb

/-- The blocks of a group are numbered from one. -/
theorem NumberedFrom.map_id (h : NumberedFrom group bs) (k : Nat) :
    ((Block.walkAll bs).filter (·.group == k)).map (·.id) =
      List.range' 1 ((Block.walkAll bs).filter (·.group == k)).length := by
  induction h with
  | nil => rfl
  | @cons group _ b _ hb hrest ih =>
    have hown := hb.group_walk
    rw [Block.walkAll, List.filter_append]
    by_cases hk : group = k
    · have hnone : (Block.walkAll _).filter (·.group == k) = [] :=
        List.filter_eq_nil_iff.mpr fun c hc => by
          have hle := hrest.group_le c hc
          simp only [beq_iff_eq]
          omega
      rw [List.filter_eq_self.mpr fun c hc => by simpa [hown c hc] using hk, hnone,
        List.append_nil]
      exact walkAll_singleton b ▸ hb.map_id.1
    · rw [List.filter_eq_nil_iff.mpr fun c hc => by simpa [hown c hc] using hk, List.nil_append]
      exact ih

theorem NumberedFrom.level_eq (h : NumberedFrom group bs) : ∀ b ∈ bs, b.level = 1 := by
  induction h with
  | nil => exact nofun
  | cons hb _ ih =>
    exact List.forall_mem_cons.mpr ⟨hb.level_eq _ (List.mem_singleton_self _), ih⟩

theorem NumberedFrom.nested (h : NumberedFrom group bs) :
    ∀ b ∈ Block.walkAll bs, ∀ c ∈ b.children, c.level = b.level + 1 := by
  induction h with
  | nil => exact nofun
  | @cons _ _ b _ hb _ ih =>
    rw [Block.walkAll]
    exact List.forall_mem_append.mpr ⟨walkAll_singleton b ▸ hb.nested, ih⟩

/-- The numbers ascend along the walk. -/
theorem NumberedFrom.ascending (h : NumberedFrom group bs) :
    (Block.walkAll bs).Pairwise Block.Precedes := by
  induction h with
  | nil => exact List.Pairwise.nil
  | @cons _ _ b _ hb hrest ih =>
    rw [Block.walkAll, List.pairwise_append]
    refine ⟨walkAll_singleton b ▸ hb.ascending, ih, fun c hc d hd => Or.inl ?_⟩
    rw [hb.group_walk c hc]
    exact hrest.group_le d hd

theorem Stylesheet.isNumbered {s : Stylesheet} (h : NumberedFrom 0 s.blocks) : s.IsNumbered where
  group i path b hb := by
    obtain ⟨top, htop, hmem⟩ := exists_of_at? hb
    rw [h.group_eq htop b hmem, Nat.zero_add]
  ids := h.map_id
  top := h.level_eq
  nested := h.nested
  ascending := h.ascending

end Numbers

section Braces

theorem significant_append (ts us : List Token) :
    significant (ts ++ us) = significant ts ++ significant us := List.filter_append ..

theorem significant_eq_self (h : ∀ t ∈ ts, t.isTrivia = false) : significant ts = ts :=
  List.filter_eq_self.mpr fun t ht => by simp [h t ht]

theorem count_significant (ts : List Token) :
    (significant ts).count .openBrace = ts.count .openBrace :=
  List.count_filter rfl

theorem IsHeader.not_trivia (h : IsHeader header) : ∀ t ∈ header, t.isTrivia = false := by
  intro t ht
  have hmember := h.members t ht
  cases t <;> first | rfl | cases hmember

theorem IsHeader.count_eq_zero (h : IsHeader header) : header.count .openBrace = 0 := by
  rw [List.count_eq_zero]
  intro hmem
  cases h.members _ hmem

theorem count_titles (run : List String) : (run.map Token.title).count .openBrace = 0 := by
  rw [List.count_eq_zero]
  simp

theorem Body.not_trivia (h : Body group level last ts ps bs next) :
    ∀ t ∈ ts, t.isTrivia = false := by
  induction h with
  | nil => exact nofun
  | property _ _ ih => exact List.forall_mem_cons.mpr ⟨rfl, ih⟩
  | titles _ _ _ ih => exact List.forall_mem_append.mpr ⟨by simp [Token.isTrivia], ih⟩
  | block hheader _ _ ihinner ih =>
    exact List.forall_mem_append.mpr ⟨hheader.not_trivia, List.forall_mem_cons.mpr ⟨rfl,
      List.forall_mem_append.mpr ⟨ihinner, List.forall_mem_cons.mpr ⟨rfl, ih⟩⟩⟩⟩

/-- Behind tokens that end no statement in the middle of a header, braces open the same blocks. -/
theorem OpensAt.append_left (h : OpensAt ts k b)
    (hus : ∀ t, (significant us).getLast? = some t → t.isHeader = false) :
    OpensAt (us ++ ts) (us.count .openBrace + k) b := by
  obtain ⟨hbefore, hheader, hinner, hselectors, htitle, hproperties⟩ := h
  rw [← List.append_assoc, ← List.count_append]
  refine .intro (fun t ht => ?_) hheader hinner hselectors htitle hproperties
  rw [significant_append, List.getLast?_append, Option.or_eq_some_iff] at ht
  rcases ht with ht | ⟨-, ht⟩
  · exact hbefore t ht
  · exact hus t ht

/-- A token that may not stand in front of a block ends every header. -/
theorem OpensAt.behind (h : OpensAt ts k b) (us : List Token) {t : Token}
    (ht : (t.isHeader || t.isTrivia) = false) :
    OpensAt (us ++ t :: ts) ((us ++ [t]).count .openBrace + k) b := by
  rw [Bool.or_eq_false_iff] at ht
  have hlast : significant (us ++ [t]) = significant us ++ [t] := by
    rw [significant_append, significant_eq_self (List.forall_mem_singleton.mpr ht.2)]
  have hends : ∀ u, (significant (us ++ [t])).getLast? = some u → u.isHeader = false := by
    intro u hu
    rw [hlast, List.getLast?_concat] at hu
    cases hu
    exact ht.1
  have hopens := h.append_left hends
  rwa [List.append_assoc] at hopens

theorem OpensAt.append_right (h : OpensAt ts k b) (us : List Token) : OpensAt (ts ++ us) k b := by
  obtain @⟨before, lead, inner, after, ps, next, _, hbefore, hheader, hinner, hselectors, htitle,
    hproperties⟩ := h
  have hopens : OpensAt (before ++ (lead ++ .openBrace :: (inner ++ .closeBrace :: (after ++ us))))
      (before.count .openBrace) b :=
    .intro hbefore hheader hinner hselectors htitle hproperties
  simpa using hopens

/-- Titles that belong to no block are none of a header. -/
theorem OpensAt.titles (h : OpensAt ts k b) (hclean : ∀ t ∈ ts, t.isTrivia = false)
    (hend : EndsHeader ts) (run : List String) : OpensAt (run.map .title ++ ts) k b := by
  obtain @⟨before, lead, inner, after, ps, next, _, hbefore, hheader, hinner, hselectors, htitle,
    hproperties⟩ := h
  have hsame : significant before = before :=
    significant_eq_self fun t ht => hclean t (List.mem_append_left _ ht)
  have hlead : significant lead = lead :=
    significant_eq_self fun t ht => hclean t (List.mem_append_right _ (List.mem_append_left _ ht))
  have hcount : (run.map Token.title ++ before).count .openBrace = before.count .openBrace := by
    rw [List.count_append, count_titles, Nat.zero_add]
  rw [← List.append_assoc, ← hcount]
  refine .intro (fun t ht => ?_) hheader hinner hselectors htitle hproperties
  rw [significant_append, List.getLast?_append, Option.or_eq_some_iff, hsame] at ht
  rcases ht with ht | ⟨hnone, -⟩
  · exact hbefore t (hsame.symm ▸ ht)
  · -- The tokens would begin with the header, where a header cannot go on.
    obtain rfl := List.getLast?_eq_none_iff.mp hnone
    rw [hlead] at hheader
    obtain ⟨u, hu, -⟩ := hheader.selects
    obtain ⟨v, rest, rfl⟩ := List.exists_cons_of_ne_nil (List.ne_nil_of_mem hu)
    have hhead := hheader.members v List.mem_cons_self
    rw [(hend v rfl).1] at hhead
    cases hhead

/-- A block stands in front of the blocks in it, and these in front of the blocks behind it. -/
theorem OpensInOrder.cons (hheader : IsHeader header)
    (hinner : Body b.group (b.level + 1) b.id inner ps b.children next)
    (hselectors : b.selectors = alternativesOf header) (htitle : b.title = titleOf? header)
    (hproperties : b.properties = declared ps)
    (hchildren : OpensInOrder inner (Block.walkAll b.children))
    (hrest : OpensInOrder ts (Block.walkAll bs)) :
    OpensInOrder (header ++ .openBrace :: (inner ++ .closeBrace :: ts))
      (Block.walkAll (b :: bs)) := by
  have hlead := significant_eq_self hheader.not_trivia
  have hbody := significant_eq_self hinner.not_trivia
  have hwalk : Block.walkAll (b :: bs) =
      b :: (Block.walkAll b.children ++ Block.walkAll bs) := by
    rw [Block.walkAll, Block.walk_eq, List.cons_append]
  have hheaders := hheader.count_eq_zero
  rw [hwalk]
  constructor
  · simp [hheaders, hchildren.count, hrest.count]
  · intro k c hc
    cases k with
    | zero =>
      cases hc
      have hnone : ∀ t, (significant []).getLast? = some t → t.isHeader = false := by
        simp [significant]
      have hopens : OpensAt ([] ++ (header ++ .openBrace :: (inner ++ .closeBrace :: ts))) 0 b :=
        .intro hnone (hlead.symm ▸ hheader) (hbody.symm ▸ hinner) (hlead.symm ▸ hselectors)
          (hlead.symm ▸ htitle) hproperties
      exact hopens
    | succ k =>
      rw [List.getElem?_cons_succ] at hc
      by_cases hk : k < (Block.walkAll b.children).length
      · rw [List.getElem?_append_left hk] at hc
        have hopens := ((hchildren.opens k c hc).append_right (.closeBrace :: ts)).behind header
          (t := .openBrace) rfl
        rwa [List.count_append, hheaders, Nat.zero_add, List.count_singleton_self,
          Nat.add_comm] at hopens
      · rw [List.getElem?_append_right (Nat.le_of_not_lt hk)] at hc
        have hopens := (hrest.opens _ c hc).behind (header ++ .openBrace :: inner)
          (t := .closeBrace) rfl
        have hplace :
            ((header ++ Token.openBrace :: inner) ++ [Token.closeBrace]).count Token.openBrace +
              (k - (Block.walkAll b.children).length) = k + 1 := by
          have hclose : [Token.closeBrace].count .openBrace = 0 := rfl
          rw [List.count_append, List.count_append, List.count_cons_self, hheaders,
            hchildren.count, hclose]
          omega
        rw [hplace] at hopens
        simpa using hopens

/-- In a body the braces open its blocks in the order of the walk. -/
theorem Body.opensInOrder (h : Body group level last ts ps bs next) :
    OpensInOrder ts (Block.walkAll bs) := by
  induction h with
  | nil => exact ⟨rfl, nofun⟩
  | property p _ ih =>
    refine ⟨ih.count, fun k b hb => ?_⟩
    have hopens := (ih.opens k b hb).behind [] (t := .property p) rfl
    simpa using hopens
  | titles hrun hend h ih =>
    refine ⟨?_, fun k b hb => (ih.opens k b hb).titles h.not_trivia hend _⟩
    rw [List.count_append, count_titles, Nat.zero_add, ih.count]
  | block hheader hinner _ ihinner ih => exact .cons hheader hinner rfl rfl rfl ihinner ih

theorem Items.not_trivia (h : Items group ts bs) : ∀ t ∈ ts, t.isTrivia = false := by
  induction h with
  | nil => exact nofun
  | @directive _ t _ _ ht _ ih =>
    refine List.forall_mem_cons.mpr ⟨?_, ih⟩
    cases t <;> first | rfl | cases ht
  | titles _ _ _ ih => exact List.forall_mem_append.mpr ⟨by simp [Token.isTrivia], ih⟩
  | block hheader hinner _ ih =>
    exact List.forall_mem_append.mpr ⟨hheader.not_trivia, List.forall_mem_cons.mpr ⟨rfl,
      List.forall_mem_append.mpr ⟨hinner.not_trivia, List.forall_mem_cons.mpr ⟨rfl, ih⟩⟩⟩⟩

/-- The braces of a stylesheet open its blocks in the order of the walk. -/
theorem Items.opensInOrder (h : Items group ts bs) : OpensInOrder ts (Block.walkAll bs) := by
  induction h with
  | nil => exact ⟨rfl, nofun⟩
  | @directive _ t _ _ ht _ ih =>
    have hends : (t.isHeader || t.isTrivia) = false ∧ t ≠ .openBrace := by
      cases t <;> simp_all [Token.isDirective, Token.isHeader, Token.isTrivia]
    refine ⟨by rw [List.count_cons_of_ne hends.2, ih.count], fun k b hb => ?_⟩
    have hopens := (ih.opens k b hb).behind [] hends.1
    rw [List.nil_append, List.nil_append, List.count_singleton, if_neg (by simpa using hends.2),
      Nat.zero_add] at hopens
    exact hopens
  | titles _ hend h ih =>
    refine ⟨?_, fun k b hb => (ih.opens k b hb).titles h.not_trivia hend _⟩
    rw [List.count_append, count_titles, Nat.zero_add, ih.count]
  | block hheader hinner _ ih =>
    exact .cons hheader hinner rfl rfl rfl hinner.opensInOrder ih

/-- Trivia among the tokens change nothing. -/
theorem OpensAt.of_significant (h : OpensAt (significant ts) k b) : OpensAt ts k b := by
  generalize hts : significant ts = clean at h
  obtain @⟨before, lead, inner, after, ps, next, _, hbefore, hheader, hinner, hselectors, htitle,
    hproperties⟩ := h
  obtain ⟨before', behind, rfl, rfl, hbehind⟩ := List.filter_eq_append_iff.mp hts
  obtain ⟨lead', opened, rfl, rfl, hopened⟩ := List.filter_eq_append_iff.mp hbehind
  obtain ⟨gap, body, rfl, hgap, -, hbody⟩ := List.filter_eq_cons_iff.mp hopened
  obtain ⟨inner', closed, rfl, rfl, hclosed⟩ := List.filter_eq_append_iff.mp hbody
  obtain ⟨gap', after', rfl, hgap', -, -⟩ := List.filter_eq_cons_iff.mp hclosed
  have hsame (us : List Token) : significant (significant us) = significant us :=
    significant_eq_self fun t ht => by simpa using (List.mem_filter.mp ht).2
  have hpadded (us gap : List Token) (hgap : ∀ t ∈ gap, ¬ (!t.isTrivia) = true) :
      significant (significant us) = significant (us ++ gap) := by
    rw [hsame, significant_append, show significant gap = [] from List.filter_eq_nil_iff.mpr hgap,
      List.append_nil]
  have hopens : OpensAt
      (before' ++ (lead' ++ gap ++ .openBrace :: (inner' ++ gap' ++ .closeBrace :: after')))
      (before'.count .openBrace) b :=
    .intro (hsame before' ▸ hbefore) (hpadded lead' gap hgap ▸ hheader)
      (hpadded inner' gap' hgap' ▸ hinner) (hpadded lead' gap hgap ▸ hselectors)
      (hpadded lead' gap hgap ▸ htitle) hproperties
  rw [← count_significant] at hopens
  simp only [List.append_assoc] at hopens ⊢
  exact hopens

end Braces

/-- Of a stylesheet that is read from tokens, the blocks are numbered by their places, the walk
visits every place once, and the blocks of the walk are opened one after the other. -/
theorem Stylesheet.numbering_of_ofTokens {source : String} {tokens : List Located}
    {sheet : Stylesheet} (h : ofTokens source tokens = .ok sheet) :
    sheet.IsNumbered ∧ (∃ paths, sheet.IsWalkedAlong paths) ∧
      OpensInOrder (tokens.map (·.token)) sheet.walk := by
  have hitems := (ofTokens_eq_ok_iff.mp h).items
  have hclean : (tokens.filter (!·.token.isTrivia)).map (·.token) =
      significant (tokens.map (·.token)) := by
    rw [significant, List.filter_map]
    rfl
  have hopens := hitems.opensInOrder
  rw [hclean] at hopens
  refine ⟨isNumbered hitems.numberedFrom, ⟨_, sheet.isWalkedAlong_pathsFrom⟩, ?_, ?_⟩
  · rw [← count_significant, hopens.count]
    rfl
  · exact fun k b hb => (hopens.opens k b hb).of_significant

def nestedTokens : List Located :=
  [.selector "*", .whitespace, .openBrace, .title "Minor", .selector "[w = 1]", .comment,
    .openBrace, .pseudoSelector ":mark", .openBrace, .closeBrace, .closeBrace, .title "Lost",
    .property { key := "fill", values := ["#fff"] }, .selector "[w = 2]", .comma,
    .selector "[w = 3]", .openBrace, .closeBrace, .closeBrace, .newline, .selector "[r = 1]",
    .openBrace, .closeBrace].map fun token => { token, start := 0, stop := 0 }

def nestedSheet : Stylesheet where
  blocks := [⟨["*"], none, .ofList [("fill", ["#fff"])], 1, 0, 1,
      [⟨["[w = 1]"], some "Minor", .empty, 2, 0, 2, [⟨[":mark"], none, .empty, 3, 0, 3, []⟩]⟩,
        ⟨["[w = 2]", "[w = 3]"], none, .empty, 2, 0, 4, []⟩]⟩,
    ⟨["[r = 1]"], none, .empty, 1, 1, 1, []⟩]

theorem Stylesheet.numbering_nestedSheet :
    ofTokens "" nestedTokens = .ok nestedSheet ∧
      nestedSheet.walk.map (fun b => (b.level, b.group, b.id)) =
        [(1, 0, 1), (2, 0, 2), (3, 0, 3), (2, 0, 4), (1, 1, 1)] ∧
      nestedSheet.IsNumbered ∧ (∃ paths, nestedSheet.IsWalkedAlong paths) ∧
      OpensInOrder (nestedTokens.map (·.token)) nestedSheet.walk := by
  have hread : ofTokens "" nestedTokens = .ok nestedSheet := by with_unfolding_all rfl
  exact ⟨hread, rfl, numbering_of_ofTokens hread⟩

end CartoStyle.Sheet
