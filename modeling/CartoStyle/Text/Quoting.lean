import CartoStyle.Text.Blank

/-!
Quoted text and bare words of the stylesheet language. There are two kinds of
quotes and no escapes, so a text that holds both kinds has no written form
that reads back. A bare word is written without quotes.
-/

namespace CartoStyle.Text

/-- The text in single quotes, or in double quotes when only those can hold it. -/
def quote (s : String) : String :=
  if s.toList.contains '\'' && !s.toList.contains '"' then "\"" ++ s ++ "\"" else "'" ++ s ++ "'"

def isWordStart (c : Char) : Bool := c.isAlpha || c == '_'

def isWordRest (c : Char) : Bool := c.isAlphanum || c == '_' || c == '-' || c == '.'

def reservedWords : List String := ["true", "false", "none", "null"]

def isBareWord (s : String) : Bool :=
  match s.toList with
  | [] => false
  | c :: cs => isWordStart c && cs.all isWordRest && !reservedWords.contains s

/-- A text with at most one kind of quote stands between quotes it does not hold. -/
theorem exists_quote_eq {s : String} (h : '\'' ∉ s.toList ∨ '"' ∉ s.toList) :
    ∃ q : Char, isQuote q = true ∧ q ∉ s.toList ∧
      (quote s).toList = q :: (s.toList ++ [q]) := by
  unfold quote
  by_cases hs : '\'' ∈ s.toList
  · have hd : '"' ∉ s.toList := h.resolve_left (not_not_intro hs)
    exact ⟨'"', rfl, hd, by simp [hs, hd]⟩
  · exact ⟨'\'', rfl, hs, by simp [hs]⟩

end CartoStyle.Text
