import Mathlib.Data.List.Basic
import CartoStyle.Sheet.Block

/-!
Places in block trees. A path names a block by the positions of the blocks around it, each among
its siblings, and by its own. The paths of a stylesheet in lexicographic order lead to its blocks
in the order of the walk, so the walk visits every place once.
-/

namespace CartoStyle.Sheet

/-- What holds of a block whenever it holds of its children holds of every block. -/
@[elab_as_elim]
theorem Block.induction {motive : Block → Prop}
    (block : ∀ b : Block, (∀ c ∈ b.children, motive c) → motive b) (b : Block) : motive b :=
  @Block.rec motive (fun bs => ∀ b ∈ bs, motive b)
    (fun selectors title properties level group id children hchildren =>
      block ⟨selectors, title, properties, level, group, id, children⟩ hchildren)
    nofun (fun _ _ hb hbs => List.forall_mem_cons.mpr ⟨hb, hbs⟩) b

/-- The blocks along a path that leads down from some blocks, the outermost first. -/
def branchIn? : List Block → List Nat → Option (List Block)
  | _, [] => some []
  | bs, i :: path => (bs[i]?).bind fun b => (branchIn? b.children path).map (b :: ·)

mutual

/-- The paths from a block to itself and to all blocks in it, in the order of the walk. -/
def Block.paths : Block → List (List Nat)
  | ⟨_, _, _, _, _, _, children⟩ => [] :: Block.pathsFrom 0 children

/-- The paths to some blocks and to all blocks in them, if the first block has that position. -/
def Block.pathsFrom (position : Nat) : List Block → List (List Nat)
  | [] => []
  | b :: bs => b.paths.map (position :: ·) ++ Block.pathsFrom (position + 1) bs

end

mutual

def Block.branches : Block → List (List Block)
  | b@⟨_, _, _, _, _, _, children⟩ => [b] :: (Block.branchesAll children).map (b :: ·)

def Block.branchesAll : List Block → List (List Block)
  | [] => []
  | b :: bs => b.branches ++ Block.branchesAll bs

end

namespace Block

variable {b : Block} {bs : List Block} {path : List Nat} {branch : List Block} {position : Nat}

theorem walk_eq (b : Block) : b.walk = b :: walkAll b.children := by
  cases b
  rw [walk]

theorem paths_eq (b : Block) : b.paths = [] :: pathsFrom 0 b.children := by
  cases b
  rw [paths]

theorem branches_eq (b : Block) : b.branches = [b] :: (branchesAll b.children).map (b :: ·) := by
  cases b
  rw [branches]

section Paths

theorem mem_pathsFrom_iff : path ∈ pathsFrom position bs ↔
    ∃ i rest b, path = (position + i) :: rest ∧ bs[i]? = some b ∧ rest ∈ b.paths := by
  induction bs generalizing position with
  | nil => simp [pathsFrom]
  | cons b bs ih =>
    rw [pathsFrom, List.mem_append, List.mem_map, ih]
    constructor
    · rintro (⟨rest, hrest, rfl⟩ | ⟨i, rest, c, rfl, hc, hrest⟩)
      · exact ⟨0, rest, b, rfl, rfl, hrest⟩
      · exact ⟨i + 1, rest, c, by rw [Nat.add_right_comm, Nat.add_assoc], hc, hrest⟩
    · rintro ⟨i, rest, c, rfl, hc, hrest⟩
      cases i with
      | zero =>
        cases hc
        exact Or.inl ⟨rest, hrest, rfl⟩
      | succ i => exact Or.inr ⟨i, rest, c, by rw [Nat.add_right_comm, Nat.add_assoc], hc, hrest⟩

/-- The listed paths are those along which there is a block. -/
theorem mem_pathsFrom_zero_iff :
    path ∈ pathsFrom 0 bs ↔ path ≠ [] ∧ (branchIn? bs path).isSome = true := by
  induction path generalizing bs with
  | nil => simp [mem_pathsFrom_iff]
  | cons i rest ih =>
    rw [mem_pathsFrom_iff]
    constructor
    · rintro ⟨j, rest, b, heq, hb, hrest⟩
      rw [Nat.zero_add] at heq
      cases heq
      refine ⟨nofun, ?_⟩
      rw [paths_eq, List.mem_cons, ih] at hrest
      rcases hrest with rfl | ⟨-, hsome⟩
      · simp [branchIn?, hb]
      · simpa [branchIn?, hb] using hsome
    · rintro ⟨-, hsome⟩
      cases hb : bs[i]? with
      | none => simp [branchIn?, hb] at hsome
      | some b =>
        refine ⟨i, rest, b, by rw [Nat.zero_add], hb, ?_⟩
        rw [paths_eq, List.mem_cons, ih]
        by_cases hrest : rest = []
        · exact Or.inl hrest
        · exact Or.inr ⟨hrest, by simpa [branchIn?, hb] using hsome⟩

theorem ascending_pathsFrom (h : ∀ b ∈ bs, b.paths.Pairwise (· < ·)) (position : Nat) :
    (pathsFrom position bs).Pairwise (· < ·) := by
  induction bs generalizing position with
  | nil => exact List.Pairwise.nil
  | cons b bs ih =>
    rw [pathsFrom, List.pairwise_append]
    refine ⟨?_, ih (fun c hc => h c (List.mem_cons_of_mem b hc)) (position + 1), ?_⟩
    · have hb := h b List.mem_cons_self
      exact hb.map _ fun p q hpq => List.cons_lt_cons_iff.mpr (Or.inr ⟨rfl, hpq⟩)
    · intro p hp q hq
      obtain ⟨rest, -, rfl⟩ := List.mem_map.mp hp
      obtain ⟨i, rest', c, rfl, -, -⟩ := mem_pathsFrom_iff.mp hq
      exact List.cons_lt_cons_iff.mpr (Or.inl (by omega))

/-- A block comes before the blocks in it, and these come in the order of their positions. -/
theorem ascending_paths (b : Block) : b.paths.Pairwise (· < ·) := by
  induction b using Block.induction with
  | block b ih =>
    rw [paths_eq, List.pairwise_cons]
    refine ⟨fun p hp => ?_, ascending_pathsFrom ih 0⟩
    obtain ⟨i, rest, c, rfl, -, -⟩ := mem_pathsFrom_iff.mp hp
    exact List.nil_lt_cons _ _

end Paths

section Branches

theorem mem_branches_ne_nil (h : branch ∈ branchesAll bs) : branch ≠ [] := by
  induction bs with
  | nil => cases h
  | cons b bs ih =>
    rw [branchesAll, List.mem_append, branches_eq, List.mem_cons, List.mem_map] at h
    rcases h with (rfl | ⟨rest, -, rfl⟩) | h
    · exact List.cons_ne_nil b []
    · exact List.cons_ne_nil b rest
    · exact ih h

theorem map_branchIn?_of (h : ∀ b ∈ bs,
      b.paths.map (branchIn? b.children) = ([] :: branchesAll b.children).map some)
    {all : List Block} (hall : all.drop position = bs) :
    (pathsFrom position bs).map (branchIn? all) = (branchesAll bs).map some := by
  induction bs generalizing position with
  | nil => rfl
  | cons b bs ih =>
    have hfirst : all[position]? = some b := by
      rw [← Nat.add_zero position, ← List.getElem?_drop, hall]
      rfl
    have hrest : all.drop (position + 1) = bs := by
      rw [← List.drop_drop, hall]
      rfl
    have hstep : branchIn? all ∘ (position :: ·) = fun path =>
        (branchIn? b.children path).map (b :: ·) := by
      funext path
      simp [branchIn?, hfirst]
    have hb := congrArg (List.map (Option.map (b :: ·))) (h b List.mem_cons_self)
    rw [pathsFrom, branchesAll, List.map_append, List.map_append, List.map_map, hstep,
      ih (fun c hc => h c (List.mem_cons_of_mem b hc)) hrest, branches_eq]
    refine congrArg (· ++ _) ?_
    simpa [Function.comp_def] using hb

/-- Along the paths stand the branches. -/
theorem map_branchIn? (bs : List Block) :
    (pathsFrom 0 bs).map (branchIn? bs) = (branchesAll bs).map some := by
  have hall (b : Block) :
      b.paths.map (branchIn? b.children) = ([] :: branchesAll b.children).map some := by
    induction b using Block.induction with
    | block b ih =>
      rw [paths_eq, List.map_cons, List.map_cons, map_branchIn?_of ih (List.drop_zero)]
      rfl
  exact map_branchIn?_of (fun b _ => hall b) List.drop_zero

theorem map_getLast?_branchesAll_of
    (h : ∀ b ∈ bs, b.branches.map List.getLast? = b.walk.map some) :
    (branchesAll bs).map List.getLast? = (walkAll bs).map some := by
  induction bs with
  | nil => rfl
  | cons b bs ih =>
    rw [branchesAll, walkAll, List.map_append, List.map_append, h b List.mem_cons_self,
      ih fun c hc => h c (List.mem_cons_of_mem b hc)]

/-- At the ends of the branches stand the blocks of the walk. -/
theorem map_getLast?_branchesAll (bs : List Block) :
    (branchesAll bs).map List.getLast? = (walkAll bs).map some := by
  have hall (b : Block) : b.branches.map List.getLast? = b.walk.map some := by
    induction b using Block.induction with
    | block b ih =>
      have hends : ∀ branch ∈ branchesAll b.children,
          (b :: branch).getLast? = branch.getLast? := by
        intro branch hbranch
        rw [List.getLast?_cons_of_ne_nil (mem_branches_ne_nil hbranch)]
      rw [branches_eq, walk_eq, List.map_cons, List.map_cons, List.map_map,
        ← map_getLast?_branchesAll_of ih]
      exact congrArg _ (List.map_congr_left hends)
  exact map_getLast?_branchesAll_of fun b _ => hall b

/-- What stands at the end of a path is visited by the walk. -/
theorem mem_walkAll_of_branchIn? (h : branchIn? bs path = some branch)
    (hb : branch.getLast? = some b) : b ∈ walkAll bs := by
  have hpath : path ∈ pathsFrom 0 bs := by
    refine mem_pathsFrom_zero_iff.mpr ⟨?_, by rw [h]; rfl⟩
    rintro rfl
    cases h
    cases hb
  have hbranch : some branch ∈ (pathsFrom 0 bs).map (branchIn? bs) :=
    h ▸ List.mem_map_of_mem hpath
  rw [map_branchIn?, List.mem_map] at hbranch
  obtain ⟨_, hmem, ⟨⟩⟩ := hbranch
  have hlast : some b ∈ (branchesAll bs).map List.getLast? := hb ▸ List.mem_map_of_mem hmem
  rw [map_getLast?_branchesAll, List.mem_map] at hlast
  obtain ⟨_, hmem, ⟨⟩⟩ := hlast
  exact hmem

end Branches

end Block

namespace Stylesheet

def branch? (s : Stylesheet) (path : List Nat) : Option (List Block) := branchIn? s.blocks path

def at? (s : Stylesheet) (path : List Nat) : Option Block :=
  (s.branch? path).bind List.getLast?

/-- The paths are those of the walk: they lead to every place once, in lexicographic order, and
the blocks there are those of the walk. -/
structure IsWalkedAlong (s : Stylesheet) (paths : List (List Nat)) : Prop where
  ascending : paths.Pairwise (· < ·)
  places : ∀ path, path ∈ paths ↔ (s.at? path).isSome = true
  blocks : paths.map s.at? = s.walk.map some

theorem isSome_at?_iff {s : Stylesheet} {path : List Nat} :
    (s.at? path).isSome = true ↔ path ≠ [] ∧ (s.branch? path).isSome = true := by
  cases path with
  | nil => simp [at?, branch?, branchIn?]
  | cons i rest =>
    have hne : ∀ branch, s.branch? (i :: rest) = some branch → branch ≠ [] := by
      rintro branch hbranch rfl
      rw [branch?, branchIn?, Option.bind_eq_some_iff] at hbranch
      obtain ⟨b, -, hrest⟩ := hbranch
      simp at hrest
    cases hbranch : s.branch? (i :: rest) with
    | none => simp [at?, hbranch]
    | some branch => simp [at?, hbranch, hne branch hbranch]

/-- What stands below a top-level block is visited by the walk of that block. -/
theorem exists_of_at? {s : Stylesheet} {b : Block} {i : Nat} {path : List Nat}
    (h : s.at? (i :: path) = some b) : ∃ top, s.blocks[i]? = some top ∧ b ∈ top.walk := by
  rw [at?, Option.bind_eq_some_iff] at h
  obtain ⟨branch, hbranch, hb⟩ := h
  rw [branch?, branchIn?, Option.bind_eq_some_iff] at hbranch
  obtain ⟨top, htop, hbranch⟩ := hbranch
  obtain ⟨below, hbelow, rfl⟩ := Option.map_eq_some_iff.mp hbranch
  refine ⟨top, htop, ?_⟩
  rw [Block.walk_eq, List.mem_cons]
  cases below with
  | nil =>
    cases hb
    exact Or.inl rfl
  | cons c below =>
    rw [List.getLast?_cons_cons] at hb
    exact Or.inr (Block.mem_walkAll_of_branchIn? hbelow hb)

theorem filterMap_branch?_pathsFrom (s : Stylesheet) :
    (Block.pathsFrom 0 s.blocks).filterMap s.branch? = Block.branchesAll s.blocks := by
  have hmap := congrArg (List.filterMap id) (Block.map_branchIn? s.blocks)
  rw [List.filterMap_map, List.filterMap_map] at hmap
  exact hmap.trans List.filterMap_some

/-- Every stylesheet is walked along its paths. -/
theorem isWalkedAlong_pathsFrom (s : Stylesheet) :
    s.IsWalkedAlong (Block.pathsFrom 0 s.blocks) where
  ascending := Block.ascending_pathsFrom (fun b _ => b.ascending_paths) 0
  places _ := Block.mem_pathsFrom_zero_iff.trans isSome_at?_iff.symm
  blocks := by
    have hmap := congrArg (List.map fun branch => branch.bind List.getLast?)
      (Block.map_branchIn? s.blocks)
    rw [List.map_map, List.map_map] at hmap
    exact hmap.trans (Block.map_getLast?_branchesAll s.blocks)

end Stylesheet

end CartoStyle.Sheet
