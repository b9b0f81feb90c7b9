/-!
Blank characters and trimming. A character is blank when it has the Unicode
White_Space property. Trimming removes the blanks at both ends of a text and
nothing else; the same operation with another class removes quotes.
-/

namespace CartoStyle.Text

/-- The twenty-five characters with the Unicode White_Space property. -/
def isBlank (c : Char) : Bool :=
  let n := c.toNat
  (9 ≤ n && n ≤ 13) || n == 0x20 || n == 0x85 || n == 0xA0 || n == 0x1680 ||
    (0x2000 ≤ n && n ≤ 0x200A) || n == 0x2028 || n == 0x2029 || n == 0x202F ||
    n == 0x205F || n == 0x3000

def isQuote (c : Char) : Bool := c == '\'' || c == '"'

def dropRight (p : Char → Bool) (cs : List Char) : List Char :=
  (cs.reverse.dropWhile p).reverse

def dropEnds (p : Char → Bool) (cs : List Char) : List Char :=
  dropRight p (cs.dropWhile p)

def trim (s : String) : String := String.ofList (dropEnds isBlank s.toList)

private theorem dropWhile_of_head {p : Char → Bool} {cs : List Char}
    (h : ∀ c, cs.head? = some c → p c = false) : cs.dropWhile p = cs := by
  cases cs with
  | nil => rfl
  | cons c rest => simp [h c rfl]

/-- A text whose first and last characters are outside the class keeps every character. -/
theorem dropEnds_of_ends {p : Char → Bool} {cs : List Char}
    (hfirst : ∀ c, cs.head? = some c → p c = false)
    (hlast : ∀ c, cs.getLast? = some c → p c = false) : dropEnds p cs = cs := by
  have hrev : ∀ c, cs.reverse.head? = some c → p c = false := by
    simpa only [List.head?_reverse] using hlast
  rw [dropEnds, dropRight, dropWhile_of_head hfirst, dropWhile_of_head hrev, List.reverse_reverse]

/-- The text without the copies of a word that stand at its start. -/
def dropLeading (word cs : List Char) : List Char :=
  if word ≠ [] ∧ word.isPrefixOf cs then dropLeading word (cs.drop word.length) else cs
termination_by cs.length
decreasing_by
  rename_i h
  have hlen := (List.isPrefixOf_iff_prefix.mp h.2).length_le
  have hpos := List.length_pos_iff.mpr h.1
  simp only [List.length_drop]
  omega

/-- A text that does not start with the word keeps every character. -/
theorem dropLeading_of_not_prefix {word cs : List Char} (h : word.isPrefixOf cs = false) :
    dropLeading word cs = cs := by
  rw [dropLeading]
  simp [h]

end CartoStyle.Text
