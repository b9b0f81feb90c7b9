import CartoStyle.Proofs.Sheet.Derivation
import CartoStyle.Proofs.Sheet.LineEnd
import CartoStyle.Proofs.Sheet.Tiling

/-!
Two stylesheets, the second on the lines behind the first. The tokens in front of a line feed
do not depend on what follows it. Behind a token that is no title the parser stands between
two statements, and all it keeps of the first text are its finished blocks, whose number is
the next group, and its directives. So the second text is read as it is alone, with higher
groups, and its directives replace those of the first.
-/

namespace CartoStyle.Sheet

mutual

/-- A block with the number of its group raised, and with it those of all blocks in it. -/
def Block.raise (n : Nat) : Block → Block
  | ⟨selectors, title, properties, level, group, id, children⟩ =>
    ⟨selectors, title, properties, level, group + n, id, Block.raiseAll n children⟩

def Block.raiseAll (n : Nat) : List Block → List Block
  | [] => []
  | b :: bs => b.raise n :: Block.raiseAll n bs

end

theorem Block.raiseAll_eq_map (n : Nat) (bs : List Block) :
    Block.raiseAll n bs = bs.map (Block.raise n) := by
  induction bs with
  | nil => rfl
  | cons b bs ih => rw [Block.raiseAll, ih, List.map_cons]

/-- Directives that others follow; the last one of a kind counts. -/
def Directives.followedBy (earlier later : Directives) : Directives where
  mode := later.mode.or earlier.mode
  title := later.title.or earlier.title
  abstract := later.abstract.or earlier.abstract

/-- The last token of the text, apart from trivia, is a title. -/
def EndsInTitle (source : String) : Prop :=
  ∃ ts t text, lex source = .ok ts ∧ ts.getLast? = some t ∧ t.token = .title text

section Grammar

variable {group level last next : Nat} {ts us : List Token} {ps : List Property}
  {bs cs : List Block}

theorem Body.raise (h : Body group level last ts ps bs next) (n : Nat) :
    Body (group + n) level last ts ps (Block.raiseAll n bs) next := by
  induction h with
  | nil => exact .nil
  | property p _ ih => exact ih.property p
  | titles hrun hend _ ih => exact ih.titles hrun hend
  | block hheader _ _ ihinner ih => exact .block hheader ihinner ih

/-- The grammar is the same for every group. -/
theorem Items.raise (h : Items group ts bs) (n : Nat) :
    Items (group + n) ts (Block.raiseAll n bs) := by
  induction h with
  | nil => exact .nil
  | directive ht _ ih => exact ih.directive ht
  | titles hrun hend _ ih => exact ih.titles hrun hend
  | block hheader hinner _ ih =>
    rw [Nat.add_right_comm] at ih
    exact .block hheader (hinner.raise n) ih

/-- The last token is no title that waits for a block. -/
def EndsStatement (ts : List Token) : Prop := ∀ t, ts.getLast? = some t → t.asTitle? = none

theorem EndsStatement.of_append (us : List Token) (h : EndsStatement (us ++ ts)) :
    EndsStatement ts := by
  intro t ht
  refine h t ?_
  rw [List.getLast?_append, ht]
  rfl

theorem EndsHeader.append (h : EndsHeader ts) (hne : ts ≠ []) : EndsHeader (ts ++ us) := by
  intro t ht
  rw [List.head?_append_of_ne_nil _ hne] at ht
  exact h t ht

/-- The statements of one text and behind them those of another. -/
theorem Items.append (h : Items group ts bs) (hlast : EndsStatement ts)
    (hrest : Items (group + bs.length) us cs) : Items group (ts ++ us) (bs ++ cs) := by
  induction h with
  | nil => exact hrest
  | @directive _ t _ _ ht _ ih => exact (ih (.of_append [t] hlast) hrest).directive ht
  | @titles _ ts _ run hrun hend _ ih =>
    have hne : ts ≠ [] := by
      rintro rfl
      have htitle := hlast (.title (run.getLast hrun))
      rw [List.append_nil, List.getLast?_map, List.getLast?_eq_some_getLast hrun] at htitle
      cases htitle rfl
    rw [List.append_assoc]
    exact (ih (hlast.of_append _) hrest).titles hrun (hend.append hne)
  | @block group _ header inner ts _ _ _ hheader hinner _ ih =>
    have hlater : EndsStatement ts := by
      refine .of_append (header ++ .openBrace :: (inner ++ [.closeBrace])) ?_
      simpa using hlast
    rw [List.length_cons, Nat.add_comm _ 1, ← Nat.add_assoc] at hrest
    have hblock := Items.block hheader hinner (ih hlater hrest)
    simpa using hblock

theorem Directives.ofTokens_append (ts us : List Token) :
    Directives.ofTokens (ts ++ us) =
      (Directives.ofTokens ts).followedBy (Directives.ofTokens us) := by
  simp only [Directives.ofTokens, Directives.followedBy, List.filterMap_append,
    List.getLast?_append]

/-- The tokens of one stylesheet and behind them those of another. -/
theorem Derives.append {s t : Stylesheet} (hs : Derives ts s) (ht : Derives us t)
    (hlast : EndsStatement ts) :
    Derives (ts ++ us) { directives := s.directives.followedBy t.directives,
                         blocks := s.blocks ++ t.blocks.map (Block.raise s.blocks.length) } := by
  constructor
  · have hraised := ht.items.raise s.blocks.length
    rw [Nat.zero_add, Block.raiseAll_eq_map] at hraised
    refine hs.items.append hlast ?_
    rwa [Nat.zero_add]
  · rw [hs.directives, ht.directives, Directives.ofTokens_append]

end Grammar

section Text

variable {source : String} {located : List Located} {ts us : List Token} {xs ys : List Char}

theorem lexes_iff_tiling : Lexes xs ts ↔ ∃ tiles, Token.lexicon.Tiling xs tiles [] ∧
    (tiles.map fun tile => Token.ofTile tile.1 tile.2).filter (!·.isTrivia) = ts := by
  constructor
  · rintro ⟨tiles, htiles, hts⟩
    have htiling := Token.lexicon.tiling_tiles xs
    rw [htiles] at htiling
    exact ⟨tiles, htiling, hts⟩
  · rintro ⟨tiles, htiling, hts⟩
    exact ⟨tiles, htiling.tiles_eq, hts⟩

/-- A line feed stands between the tokens in front of it and those behind it. -/
theorem Lexes.append_newline (hxs : Lexes xs ts) (hys : Lexes ys us) :
    Lexes (xs ++ '\n' :: ys) (ts ++ us) := by
  obtain ⟨tiles, htiling, rfl⟩ := lexes_iff_tiling.mp hxs
  obtain ⟨more, hmore, rfl⟩ := lexes_iff_tiling.mp hys
  refine lexes_iff_tiling.mpr ⟨_, Token.tiling_append_newline htiling hmore, ?_⟩
  rw [List.map_append, List.filter_append, List.map_cons, List.filter_cons_of_neg (by decide)]

theorem lexes_of_lex (h : lex source = .ok located) :
    Lexes source.toList (located.map (·.token)) := by
  obtain ⟨all, hall, rfl⟩ := lex_eq_ok_iff.mp h
  obtain ⟨tiles, htiling, rfl⟩ := exists_tiling_of_tokenize hall
  refine lexes_iff_tiling.mpr ⟨tiles, htiling, ?_⟩
  rw [← map_token_locate tiles 0, List.filter_map]
  rfl

namespace Stylesheet

variable {s t : Stylesheet}

/-- A stylesheet on the lines behind another one that does not end in a title: its blocks
follow those of the other, in groups that are counted on, and each of its directives
replaces the one of the other. -/
theorem parse_append_newline {a b : String} (ha : parse a = .ok s) (hb : parse b = .ok t)
    (hlast : ¬ EndsInTitle a) :
    parse (a ++ "\n" ++ b) =
      .ok { directives := s.directives.followedBy t.directives
            blocks := s.blocks ++ t.blocks.map (Block.raise s.blocks.length) } := by
  obtain ⟨ts, hlexA, hderivesA⟩ := exists_derives_of_parse ha
  obtain ⟨us, hlexB, hderivesB⟩ := exists_derives_of_parse hb
  have hends : EndsStatement (ts.map (·.token)) := by
    intro token htoken
    rw [List.getLast?_map, Option.map_eq_some_iff] at htoken
    obtain ⟨u, hu, rfl⟩ := htoken
    cases htitle : u.token with
    | title text => exact absurd ⟨ts, u, text, hlexA, hu, htitle⟩ hlast
    | _ => rfl
  refine parse_of_derives ?_ (hderivesA.append hderivesB hends)
  have hlexes := (lexes_of_lex hlexA).append_newline (lexes_of_lex hlexB)
  rwa [String.toList_append, String.toList_append, List.append_assoc]

def roadSource : String :=
  "@mode 'Flat'; @styleTitle 'Roads'; * \x7b stroke: #fff; \x7d /* end */"

def roadSheet : Stylesheet where
  directives := { mode := some "Flat", title := some "Roads" }
  blocks := [⟨["*"], none, .ofList [("stroke", ["#fff"])], 1, 0, 1, []⟩]

def riverSource : String :=
  "@styleTitle 'Rivers'; /* @title Small */ [w < 3] \x7b :mark \x7b size: 2; \x7d \x7d"

def riverSheet : Stylesheet where
  directives := { title := some "Rivers" }
  blocks := [⟨["[w < 3]"], some "Small", .empty, 1, 0, 1,
    [⟨[":mark"], none, .ofList [("size", ["2"])], 2, 0, 2, []⟩]⟩]

theorem not_endsInTitle_roadSource : ¬ EndsInTitle roadSource := by
  rintro ⟨ts, t, text, hlex, ht, htitle⟩
  have hlast : ((lex roadSource).toOption.bind (·.getLast?)).map (·.token) = some .closeBrace := by
    decide +kernel
  rw [hlex] at hlast
  simp only [Except.toOption, Option.bind_some, ht, Option.map_some, htitle] at hlast
  cases hlast

theorem parse_roads_rivers :
    parse roadSource = .ok roadSheet ∧ parse riverSource = .ok riverSheet ∧
      ¬ EndsInTitle roadSource ∧ parse (roadSource ++ "\n" ++ riverSource) = .ok {
        directives := { mode := some "Flat", title := some "Rivers" }
        blocks := [⟨["*"], none, .ofList [("stroke", ["#fff"])], 1, 0, 1, []⟩,
          ⟨["[w < 3]"], some "Small", .empty, 1, 1, 1,
            [⟨[":mark"], none, .ofList [("size", ["2"])], 2, 1, 2, []⟩]⟩] } := by
  have hroads : parse roadSource = .ok roadSheet := by with_unfolding_all rfl
  have hrivers : parse riverSource = .ok riverSheet := by with_unfolding_all rfl
  exact ⟨hroads, hrivers, not_endsInTitle_roadSource,
    parse_append_newline hroads hrivers not_endsInTitle_roadSource⟩

end Stylesheet

end Text

end CartoStyle.Sheet
