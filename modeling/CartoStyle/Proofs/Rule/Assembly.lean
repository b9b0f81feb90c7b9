import Mathlib.Algebra.BigOperators.Group.List.Basic
import CartoStyle.Proofs.Rule.Records
import CartoStyle.Proofs.Sheet.Path

/-!
The records of a block tree. Along the walk every block with properties, and every block without
children, gives one record, and the other blocks give none. A record joins one alternative of each
block on the way down to its own block, in all combinations, and those titles on the way that hold
something. The records are told apart without a change of their order.
-/

namespace CartoStyle.Rule

open Sheet

/-- One alternative of each block, by its position. -/
def IsChoice (branch : List Block) (choice : List Nat) : Prop :=
  List.Forall₂ (fun i b => i < b.selectors.length) choice branch

def chosen (branch : List Block) (choice : List Nat) : String :=
  String.join (List.zipWith (fun i b => b.selectors.getD i "") choice branch)

def titlesOf (branch : List Block) : List String :=
  (branch.filterMap (·.title)).filter (!·.isEmpty)

def hasRecord (branch : List Block) : Bool :=
  branch.getLast?.any fun b => !b.properties.isEmpty || b.children.isEmpty

/-- The record is that of the block at the end of the branch. Its selectors are the choices of
alternatives along the branch in lexicographic order. -/
structure IsRecordOf (branch : List Block) (r : Record) : Prop where
  selectors : ∃ choices : List (List Nat), choices.Pairwise (· < ·) ∧
    (∀ choice, choice ∈ choices ↔ IsChoice branch choice) ∧
    r.selectors = choices.map (chosen branch)
  count : r.selectors.length = (branch.map (·.selectors.length)).prod
  title : r.title =
    if titlesOf branch = [] then none else some (", ".intercalate (titlesOf branch))
  block : ∃ b, branch.getLast? = some b ∧ r.properties = b.properties ∧
    r.rows = splitRows b.properties ∧ r.level = b.level ∧ r.group = b.group ∧ r.id = b.id

variable {branch bs : List Block} {b : Block} {choice : List Nat} {path : Path}

section Choices

def choicesOf : List Block → List (List Nat)
  | [] => [[]]
  | b :: branch => (List.range b.selectors.length).flatMap fun i => (choicesOf branch).map (i :: ·)

theorem mem_choicesOf_iff : choice ∈ choicesOf branch ↔ IsChoice branch choice := by
  induction branch generalizing choice with
  | nil => simp [choicesOf, IsChoice]
  | cons b branch ih =>
    cases choice <;> simp [choicesOf, IsChoice, List.mem_flatMap, ih, and_comm]

theorem ascending_choicesOf (branch : List Block) : (choicesOf branch).Pairwise (· < ·) := by
  induction branch with
  | nil => exact List.pairwise_singleton _ _
  | cons b branch ih =>
    rw [choicesOf, List.pairwise_flatMap]
    constructor
    · intro i _
      exact ih.map _ fun c d hcd => List.cons_lt_cons_iff.mpr (Or.inr ⟨rfl, hcd⟩)
    · refine List.pairwise_lt_range.imp fun {i j} hij c hc d hd => ?_
      obtain ⟨c, -, rfl⟩ := List.mem_map.mp hc
      obtain ⟨d, -, rfl⟩ := List.mem_map.mp hd
      exact List.cons_lt_cons_iff.mpr (Or.inl hij)

theorem length_choicesOf (branch : List Block) :
    (choicesOf branch).length = (branch.map (·.selectors.length)).prod := by
  induction branch with
  | nil => rfl
  | cons b branch ih => simp [choicesOf, List.length_flatMap, ih]

/-- The combinations with the alternatives along a branch, in the order of the choices. -/
theorem foldl_combine (leads : List String) (branch : List Block) :
    branch.foldl (fun leads b => combine leads b.selectors) leads =
      leads.flatMap fun lead => (choicesOf branch).map (lead ++ chosen branch ·) := by
  induction branch generalizing leads with
  | nil => simp [choicesOf, chosen]
  | cons b branch ih =>
    have hrange : b.selectors = (List.range b.selectors.length).map (b.selectors.getD · "") :=
      List.ext_getElem (by simp) fun i hi _ => by simp [hi]
    have hchosen (i : Nat) (choice : List Nat) :
        chosen (b :: branch) (i :: choice) = b.selectors.getD i "" ++ chosen branch choice := by
      rw [chosen, List.zipWith_cons_cons, String.join_cons]
      rfl
    rw [List.foldl_cons, ih, combine, List.flatMap_assoc]
    refine List.flatMap_congr fun lead _ => ?_
    rw [choicesOf, List.map_flatMap]
    conv_lhs => rw [hrange]
    rw [List.map_map, List.flatMap_map]
    refine List.flatMap_congr fun i _ => ?_
    rw [List.map_map]
    refine List.map_congr_left fun choice _ => ?_
    rw [Function.comp_apply, Function.comp_apply, hchosen, String.append_assoc]

end Choices

section Tree

def Path.enterAll (path : Path) (branch : List Block) : Path :=
  branch.foldl (fun path b => path.enter b.selectors b.title) path

theorem selectors_enterAll (path : Path) (branch : List Block) :
    (path.enterAll branch).selectors =
      branch.foldl (fun leads b => combine leads b.selectors) path.selectors := by
  induction branch generalizing path with
  | nil => rfl
  | cons b branch ih => exact ih (path.enter b.selectors b.title)

theorem titles_enterAll (path : Path) (branch : List Block) :
    (path.enterAll branch).titles = path.titles ++ titlesOf branch := by
  induction branch generalizing path with
  | nil => simp [Path.enterAll, titlesOf]
  | cons b branch ih =>
    have hrest := ih (path.enter b.selectors b.title)
    rw [Path.enterAll, List.foldl_cons, ← Path.enterAll, hrest, Path.enter, List.append_assoc]
    cases htitle : b.title with
    | none => simp [titlesOf, htitle]
    | some title =>
      cases hempty : title.isEmpty <;> simp [titlesOf, htitle, hempty, Option.filter]

def ownRecord (path : Path) (b : Block) : Record where
  selectors := path.selectors
  properties := b.properties
  rows := splitRows b.properties
  title := path.title?
  level := b.level
  group := b.group
  id := b.id

/-- The record is the one that the block at the end of a branch gives under a path. -/
def Gives (path : Path) (branch : List Block) (r : Record) : Prop :=
  ∃ b, branch.getLast? = some b ∧ r = ownRecord (path.enterAll branch) b

theorem Gives.cons {r : Record} (h : Gives (path.enter b.selectors b.title) branch r) :
    Gives path (b :: branch) r := by
  obtain ⟨c, hc, rfl⟩ := h
  have hne : branch ≠ [] := by
    rintro rfl
    cases hc
  exact ⟨c, by rw [List.getLast?_cons_of_ne_nil hne, hc], rfl⟩

theorem recordsOf_eq (path : Path) (b : Block) : recordsOf path b =
    (if hasRecord [b] then [ownRecord (path.enter b.selectors b.title) b] else []) ++
      recordsOfAll (path.enter b.selectors b.title) b.children := by
  cases b
  rw [recordsOf]
  rfl

/-- A block with properties or without children gives a record. -/
theorem forall₂_own (path : Path) (b : Block) :
    List.Forall₂ (Gives path) ([[b]].filter hasRecord)
      (if hasRecord [b] then [ownRecord (path.enter b.selectors b.title) b] else []) := by
  by_cases hown : hasRecord [b] = true
  · rw [List.filter_cons_of_pos hown, if_pos hown]
    exact .cons ⟨b, rfl, rfl⟩ .nil
  · rw [List.filter_cons_of_neg hown, if_neg hown]
    exact .nil

theorem forall₂_recordsOfAll_of (h : ∀ b ∈ bs, ∀ path,
      List.Forall₂ (Gives path) (b.branches.filter hasRecord) (recordsOf path b)) (path : Path) :
    List.Forall₂ (Gives path) ((Block.branchesAll bs).filter hasRecord) (recordsOfAll path bs) := by
  induction bs with
  | nil => exact .nil
  | cons b bs ih =>
    rw [Block.branchesAll, List.filter_append, recordsOfAll]
    exact List.rel_append (h b List.mem_cons_self path)
      (ih fun c hc => h c (List.mem_cons_of_mem b hc))

/-- The records are those of the branches that have one, in the order of the walk. -/
theorem forall₂_recordsOfAll (path : Path) (bs : List Block) :
    List.Forall₂ (Gives path) ((Block.branchesAll bs).filter hasRecord) (recordsOfAll path bs) := by
  have hall (b : Block) : ∀ path,
      List.Forall₂ (Gives path) (b.branches.filter hasRecord) (recordsOf path b) := by
    induction b using Block.induction with
    | block b ih =>
      intro path
      have hchildren := forall₂_recordsOfAll_of ih (path.enter b.selectors b.title)
      have hends : ∀ branch ∈ Block.branchesAll b.children,
          hasRecord (b :: branch) = hasRecord branch := by
        intro branch hbranch
        rw [hasRecord, hasRecord, List.getLast?_cons_of_ne_nil (Block.mem_branches_ne_nil hbranch)]
      have hbelow : ((Block.branchesAll b.children).map (b :: ·)).filter hasRecord =
          ((Block.branchesAll b.children).filter hasRecord).map (b :: ·) := by
        rw [List.filter_map]
        exact congrArg _ (List.filter_congr hends)
      have hsplit : b.branches.filter hasRecord =
          [[b]].filter hasRecord ++
            ((Block.branchesAll b.children).filter hasRecord).map (b :: ·) := by
        rw [← hbelow, ← List.filter_append, Block.branches_eq]
        rfl
      rw [hsplit, recordsOf_eq]
      refine List.rel_append (forall₂_own path b) (List.forall₂_map_left_iff.mpr ?_)
      exact hchildren.imp fun _ _ => Gives.cons
  exact forall₂_recordsOfAll_of (fun b _ => hall b) path

/-- What a block gives under no other block is its record. -/
theorem Gives.isRecordOf {r : Record} (h : Gives {} branch r) : IsRecordOf branch r := by
  obtain ⟨b, hb, rfl⟩ := h
  have hselectors : (Path.enterAll {} branch).selectors =
      (choicesOf branch).map (chosen branch) := by
    rw [selectors_enterAll, foldl_combine]
    simp
  have htitles : (Path.enterAll {} branch).titles = titlesOf branch := by
    rw [titles_enterAll]
    rfl
  constructor
  · exact ⟨choicesOf branch, ascending_choicesOf branch, fun _ => mem_choicesOf_iff, hselectors⟩
  · rw [← length_choicesOf]
    exact (congrArg List.length hselectors).trans (List.length_map _)
  · rw [ownRecord, Path.title?, htitles]
    simp only [List.isEmpty_iff]
  · exact ⟨b, hb, rfl, rfl, rfl, rfl, rfl⟩

end Tree

/-- A stylesheet gives one record for every block with properties or without children, in the
order of the walk, and the records whose selectors all speak about parts are kept apart in that
order. -/
theorem Records.exists_ofSheet_eq (s : Stylesheet) :
    ∃ paths records, s.IsWalkedAlong paths ∧
      List.Forall₂ IsRecordOf ((paths.filterMap s.branch?).filter hasRecord) records ∧
      (∀ r ∈ records, r.isPseudo = true ↔
        ∀ selector ∈ r.selectors, ∃ p, PseudoSelector.parse? selector = some p) ∧
      ofSheet s =
        { rules := records.filter (!·.isPseudo), pseudo := records.filter (·.isPseudo) } := by
  refine ⟨Block.pathsFrom 0 s.blocks, recordsOfAll {} s.blocks, s.isWalkedAlong_pathsFrom, ?_, ?_,
    Records.ofSheet_eq s⟩
  · rw [s.filterMap_branch?_pathsFrom]
    exact (forall₂_recordsOfAll {} s.blocks).imp fun _ _ => Gives.isRecordOf
  · simp [Record.isPseudo, Option.isSome_iff_exists]

example :
    (Records.ofSheet { blocks := [⟨["[a=1]", "[a=2]"], some "Roads", .empty, 1, 0, 1,
      [⟨["[b=1]", "[b=2]"], some "Major", .empty, 2, 0, 2, []⟩,
        ⟨[":mark"], none, .empty, 2, 0, 3, []⟩]⟩] }).rules.map (fun r => (r.selectors, r.title)) =
        [(["[a=1][b=1]", "[a=1][b=2]", "[a=2][b=1]", "[a=2][b=2]"], some "Roads, Major")] := by
  decide +kernel

end CartoStyle.Rule
