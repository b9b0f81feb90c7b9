import CartoStyle.Pattern

/-!
Lexicons: kinds of lexemes, each with a pattern. A text is tiled from its
start by taking the longest non-empty match of any kind; of several kinds with
a match of that length the first one in the lexicon is taken. The tiling stops
at the end or where no kind matches.
-/

namespace CartoStyle

/-- Kinds of lexemes in order of precedence, and the pattern of each. -/
structure Lexicon (Kind : Type) where
  kinds : List Kind
  pattern : Kind → Pattern

namespace Lexicon

variable {Kind : Type}

/-- The kind with the longest match that begins with a character, and how many further
characters that match takes. -/
def best? (pattern : Kind → Pattern) (c : Char) (cs : List Char) :
    List Kind → Option (Kind × Nat)
  | [] => none
  | k :: ks =>
    match ((pattern k).after c).longest? cs, best? pattern c cs ks with
    | none, other => other
    | some n, none => some (k, n)
    | some n, some (other, m) => if m ≤ n then some (k, n) else some (other, m)

/-- The tiles of a text and what is left where no kind matches. -/
def tiles (l : Lexicon Kind) : List Char → List (Kind × List Char) × List Char
  | [] => ([], [])
  | c :: cs =>
    match best? l.pattern c cs l.kinds with
    | none => ([], c :: cs)
    | some (k, extra) =>
      let (later, rest) := l.tiles (cs.drop extra)
      ((k, c :: cs.take extra) :: later, rest)
termination_by cs => cs.length
decreasing_by
  simp only [List.length_drop, List.length_cons]
  omega

def tiling? (l : Lexicon Kind) (cs : List Char) : Option (List (Kind × List Char)) :=
  match l.tiles cs with
  | (found, []) => some found
  | (_, _ :: _) => none

/-- The tiles and what is left make up the text. -/
theorem tiles_append (l : Lexicon Kind) (cs : List Char) :
    ((l.tiles cs).1.map Prod.snd).flatten ++ (l.tiles cs).2 = cs := by
  fun_induction tiles l cs with
  | case1 => rfl
  | case2 c cs h => simp
  | case3 c cs k extra h later rest heq ih =>
    rw [heq] at ih
    simp only [List.map_cons, List.flatten_cons, List.append_assoc, ih, List.cons_append,
      List.take_append_drop]

end Lexicon

end CartoStyle
