/-!
Splitting at the top level. A separator divides a text where it stands
outside quotes and outside brackets and parentheses. The scan keeps the open
quote and the nesting depth; a closing bracket at depth zero leaves the depth
at zero. Joining the parts with the separator gives the text back.
-/

namespace CartoStyle.Text

/-- What surrounds a place of a text: an open quote and the number of open brackets. -/
structure Nesting where
  quote : Option Char
  depth : Nat
deriving DecidableEq

namespace Nesting

def top : Nesting := ⟨none, 0⟩

def step (st : Nesting) (c : Char) : Nesting :=
  match st.quote with
  | some q => if c == q then { st with quote := none } else st
  | none =>
    if c == '\'' || c == '"' then { st with quote := some c }
    else if c == '(' || c == '[' then { st with depth := st.depth + 1 }
    else if c == ')' || c == ']' then { st with depth := st.depth - 1 }
    else st

/-- Quotes, parentheses and brackets direct the scan, so they never separate. -/
def isReserved (c : Char) : Bool :=
  c == '\'' || c == '"' || c == '(' || c == '[' || c == ')' || c == ']'

/-- A character separates here when it is the separator and nothing is open. -/
def splitsAt (st : Nesting) (separator c : Char) : Bool :=
  st == top && !isReserved c && c == separator

end Nesting

def splitFrom (separator : Char) : Nesting → List Char → List (List Char)
  | _, [] => [[]]
  | st, c :: cs =>
    if st.splitsAt separator c then [] :: splitFrom separator st cs
    else (splitFrom separator (st.step c) cs).modifyHead (c :: ·)

def splitTop (separator : Char) (cs : List Char) : List (List Char) :=
  splitFrom separator .top cs

def splitTopLevel (separator : Char) (s : String) : List String :=
  (splitTop separator s.toList).map String.ofList

theorem splitFrom_ne_nil (separator : Char) (st : Nesting) (cs : List Char) :
    splitFrom separator st cs ≠ [] := by
  induction cs generalizing st with
  | nil => simp [splitFrom]
  | cons c cs ih =>
    rw [splitFrom]
    split
    · simp
    · cases hparts : splitFrom separator (st.step c) cs with
      | nil => exact absurd hparts (ih _)
      | cons _ _ => simp [List.modifyHead]

/-- No character is lost: the parts with separators between them are the text. -/
theorem intercalate_splitFrom (separator : Char) (st : Nesting) (cs : List Char) :
    [separator].intercalate (splitFrom separator st cs) = cs := by
  induction cs generalizing st with
  | nil => rfl
  | cons c cs ih =>
    rw [splitFrom]
    split
    · next h =>
      have hc : c = separator := by
        simp only [Nesting.splitsAt, Bool.and_eq_true, beq_iff_eq] at h
        exact h.2
      have hparts := splitFrom_ne_nil separator st cs
      rw [List.intercalate_cons_of_ne_nil hparts, ih, hc]
      rfl
    · have ih := ih (st.step c)
      cases hparts : splitFrom separator (st.step c) cs with
      | nil => exact absurd hparts (splitFrom_ne_nil _ _ _)
      | cons part parts =>
        rw [hparts] at ih
        rw [List.modifyHead_cons]
        cases parts with
        | nil => simpa [List.intercalate] using ih
        | cons next parts => simpa [List.intercalate, List.intersperse] using ih

end CartoStyle.Text
