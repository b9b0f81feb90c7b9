import CartoStyle.Expression.Written

/-!
Label templates and the expressions that write them. A template is cut at its
placeholders, names of attributes between double braces; the pieces become
texts and attributes in brackets. A placeholder holds no closing brace, and of
overlapping ones the leftmost counts.
-/

namespace CartoStyle.Style.Template

/-- A piece of a template. -/
inductive Piece where
  | literal (cs : List Char)
  | placeholder (name : List Char)
deriving DecidableEq

def placeholder? : List Char → Option (List Char × List Char)
  | '\x7b' :: '\x7b' :: cs =>
    match cs.dropWhile (· != '\x7d') with
    | '\x7d' :: '\x7d' :: rest => some (cs.takeWhile (· != '\x7d'), rest)
    | _ => none
  | _ => none

/-- What follows a placeholder is shorter than the text it was found in. -/
theorem length_of_placeholder? {cs name rest : List Char}
    (h : placeholder? cs = some (name, rest)) : rest.length < cs.length := by
  unfold placeholder? at h
  split at h
  · next ds =>
    have hle := (List.dropWhile_suffix (· != '\x7d') (l := ds)).length_le
    split at h
    · next heq =>
      rw [heq] at hle
      simp only [Option.some.injEq, Prod.mk.injEq] at h
      rw [← h.2]
      simp only [List.length_cons] at hle ⊢
      omega
    · simp at h
  · simp at h

def push (c : Char) : List Piece → List Piece
  | .literal cs :: later => .literal (c :: cs) :: later
  | later => .literal [c] :: later

def cut (cs : List Char) : List Piece :=
  match _h : placeholder? cs with
  | some (name, rest) => .placeholder name :: cut rest
  | none =>
    match cs with
    | [] => []
    | c :: cs => push c (cut cs)
termination_by cs.length
decreasing_by
  · exact length_of_placeholder? _h
  · simp

def Piece.expression : Piece → Expression
  | .literal cs => .text (String.ofList cs)
  | .placeholder name =>
    .apply .brace [.get (String.ofList (Text.dropEnds Text.isBlank name))]

/-- The expression that writes a template; the empty one is an empty text. -/
def expression (template : String) : Expression :=
  let pieces := cut template.toList
  .apply .text (if pieces.isEmpty then [.text ""] else pieces.map Piece.expression)

end CartoStyle.Style.Template
