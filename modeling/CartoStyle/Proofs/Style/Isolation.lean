import CartoStyle.Proofs.Rule.Group
import CartoStyle.Proofs.Style.Arrangement

/-!
The rules of a top-level block and the other blocks of its stylesheet. A rule is read from
its record and from the pseudo-selector records in the scope of its group. These are the
records of its own block and those of level one, so what else the other blocks hold has no
influence on the rules of the block.
-/

namespace CartoStyle.Style

open CartoStyle.Rule Sheet

def rulesOfGroup (sheet : Stylesheet) (style : Style) (k : Nat) : List Rule :=
  (((Records.ofSheet sheet).rules.zip style.rules).filter (·.1.group == k)).map Prod.snd

variable {settings : Settings} {sheet sheet' : Stylesheet} {style style' : Style} {b : Block}
  {k : Nat}

/-- What a step gives for some items of a list is a part of what it gives for the list. -/
theorem mapM_filter_eq_ok {α β : Type} {f g : α → Except Error β} {xs : List α} {ys : List β}
    (h : xs.mapM f = .ok ys) {p : α → Bool} (hfg : ∀ x, p x = true → g x = f x) :
    (xs.filter p).mapM g = .ok (((xs.zip ys).filter (p ·.1)).map Prod.snd) := by
  rw [mapM_eq_ok_iff] at h ⊢
  induction h with
  | nil => exact .nil
  | @cons x y xs ys hxy _ ih =>
    by_cases hx : p x = true
    · simp only [List.zip_cons_cons, List.filter_cons, hx, if_true, List.map_cons]
      exact .cons ((hfg x hx).trans hxy) ih
    · simp only [List.zip_cons_cons, List.filter_cons, hx]
      exact ih

theorem mapM_of_ofSheet (h : ofSheet settings sheet = .ok style) :
    (Records.ofSheet sheet).rules.mapM (Rule.ofRecord settings (Records.ofSheet sheet).pseudo) =
      .ok style.rules := by
  simp only [ofSheet] at h
  cases hrules : (Records.ofSheet sheet).rules.mapM
      (Rule.ofRecord settings (Records.ofSheet sheet).pseudo) with
  | error fault =>
    rw [hrules] at h
    cases h
  | ok rules =>
    rw [hrules] at h
    cases h
    rfl

theorem ofRecord_filter_inScope (pseudo : List Record) (record : Record) :
    Rule.ofRecord settings (pseudo.filter (Record.inScope record.group)) record =
      Rule.ofRecord settings pseudo record := by
  simp only [Rule.ofRecord, Parts.ofRecords_filter_inScope]

/-- The rules of a group are read from the records of its block and those in its scope. -/
theorem mapM_rulesOfGroup (hgroup : IsGroupOf (recordsOf {} b) (recordsOfAll {} sheet.blocks) k)
    (h : ofSheet settings sheet = .ok style) :
    ((recordsOf {} b).filter (not ∘ Record.isPseudo)).mapM (Rule.ofRecord settings
        ((Records.ofSheet sheet).pseudo.filter (Record.inScope k))) =
      .ok (rulesOfGroup sheet style k) := by
  have hrecords : (Records.ofSheet sheet).rules.filter (·.group == k) =
      (recordsOf {} b).filter (not ∘ Record.isPseudo) := by
    rw [Records.ofSheet_eq]
    exact (hgroup.filter _).eq_append.1
  rw [← hrecords, rulesOfGroup]
  refine mapM_filter_eq_ok (mapM_of_ofSheet h) fun record hrecord => ?_
  obtain rfl : record.group = k := by simpa using hrecord
  exact ofRecord_filter_inScope _ _

/-- The scope of a group is determined by its block and the records of level one. -/
theorem filter_inScope_eq
    (hgroup : IsGroupOf (recordsOf {} b) (recordsOfAll {} sheet.blocks) k)
    (hgroup' : IsGroupOf (recordsOf {} b) (recordsOfAll {} sheet'.blocks) k)
    (hglobal : (Records.ofSheet sheet).global = (Records.ofSheet sheet').global) :
    (Records.ofSheet sheet).pseudo.filter (Record.inScope k) =
      (Records.ofSheet sheet').pseudo.filter (Record.inScope k) := by
  simp only [Records.global, Records.ofSheet_eq] at hglobal ⊢
  rw [(hgroup.filter _).filter_inScope, (hgroup'.filter _).filter_inScope, hglobal]

/-- Two stylesheets that have the same top-level block at some place, and the same
pseudo-selector records of level one, give the same rules for this block, whatever else stands
in the other blocks and however many of them there are. -/
theorem rulesOfGroup_eq_of_parse {source source' : String}
    (hparse : Stylesheet.parse source = .ok sheet) (hparse' : Stylesheet.parse source' = .ok sheet')
    (hblock : sheet.blocks[k]? = some b) (hblock' : sheet'.blocks[k]? = some b)
    (hglobal : (Records.ofSheet sheet).global = (Records.ofSheet sheet').global)
    (hstyle : ofSheet settings sheet = .ok style)
    (hstyle' : ofSheet settings sheet' = .ok style') :
    rulesOfGroup sheet style k = rulesOfGroup sheet' style' k := by
  obtain ⟨_, -, hderives⟩ := Stylesheet.exists_derives_of_parse hparse
  obtain ⟨_, -, hderives'⟩ := Stylesheet.exists_derives_of_parse hparse'
  have hgroup := isGroupOf_of_derives hderives hblock
  have hgroup' := isGroupOf_of_derives hderives' hblock'
  have hrules := mapM_rulesOfGroup hgroup hstyle
  rw [filter_inScope_eq hgroup hgroup' hglobal, mapM_rulesOfGroup hgroup' hstyle'] at hrules
  exact (Except.ok.inj hrules).symm

def pointBlock : Block :=
  ⟨["*"], none, .ofList [("mark", ["symbol(circle)"])], 1, 0, 1,
    [⟨[":mark"], none, .ofList [("fill", ["#fff"])], 2, 0, 2, []⟩]⟩

def markBlock : Block := ⟨[":mark"], none, .ofList [("stroke", ["#00f"])], 1, 2, 1, []⟩

/-- Between the points and the marks a block with a part that it keeps to itself. -/
def pointSheet : Stylesheet where
  blocks := [pointBlock, ⟨["*"], none, .empty, 1, 1, 1,
    [⟨[":mark"], none, .ofList [("fill", ["#000"])], 2, 1, 2, []⟩]⟩, markBlock]

def lineSheet : Stylesheet where
  blocks := [pointBlock, ⟨["*"], none, .ofList [("stroke", ["#111"])], 1, 1, 1, []⟩, markBlock]

def pointSource : String :=
  "* \x7b mark: symbol(circle); :mark \x7b fill: #fff; \x7d \x7d
   * \x7b :mark \x7b fill: #000; \x7d \x7d :mark \x7b stroke: #00f; \x7d"

def lineSource : String :=
  "* \x7b mark: symbol(circle); :mark \x7b fill: #fff; \x7d \x7d
   * \x7b stroke: #111; \x7d :mark \x7b stroke: #00f; \x7d"

theorem rulesOfGroup_pointSheet_lineSheet :
    ∃ style style', Stylesheet.parse pointSource = .ok pointSheet ∧
      Stylesheet.parse lineSource = .ok lineSheet ∧
      pointSheet.blocks[0]? = some pointBlock ∧ lineSheet.blocks[0]? = some pointBlock ∧
      (Records.ofSheet pointSheet).global = (Records.ofSheet lineSheet).global ∧
      ofSheet {} pointSheet = .ok style ∧ ofSheet {} lineSheet = .ok style' ∧
      rulesOfGroup pointSheet style 0 = rulesOfGroup lineSheet style' 0 := by
  have hpoint : Stylesheet.parse pointSource = .ok pointSheet := by with_unfolding_all rfl
  have hline : Stylesheet.parse lineSource = .ok lineSheet := by with_unfolding_all rfl
  have hglobal : (Records.ofSheet pointSheet).global = (Records.ofSheet lineSheet).global := by
    with_unfolding_all rfl
  have hok (sheet : Stylesheet) (h : (ofSheet {} sheet).toOption.isSome = true) :
      ∃ style, ofSheet {} sheet = .ok style := by
    cases hstyle : ofSheet {} sheet with
    | error fault =>
      rw [hstyle] at h
      cases h
    | ok style => exact ⟨style, rfl⟩
  obtain ⟨style, hstyle⟩ := hok pointSheet (by decide +kernel)
  obtain ⟨style', hstyle'⟩ := hok lineSheet (by decide +kernel)
  exact ⟨style, style', hpoint, hline, rfl, rfl, hglobal, hstyle, hstyle',
    rulesOfGroup_eq_of_parse hpoint hline rfl rfl hglobal hstyle hstyle'⟩

end CartoStyle.Style
