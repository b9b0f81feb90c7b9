import CartoStyle.Pattern
import CartoStyle.Decimal.Numeral

/-!
Lexemes that conditions and property values have in common: blanks between
tokens, numerals without an exponent, and quoted texts.
-/

namespace CartoStyle.Lexeme

open Pattern

def blanks : Pattern := atLeastOne (one " \t\r\n\x0c".toList.contains)

def digits : Pattern := atLeastOne (one Char.isDigit)

def numeral : Pattern :=
  seq (optional (literal "-"))
    (alt (seq digits (optional (seq (literal ".") digits))) (seq (literal ".") digits))

def quoted : Pattern :=
  alt (inOrder [literal "'", many (one (· != '\'')), literal "'"])
    (inOrder [literal "\"", many (one (· != '"')), literal "\""])

def inner (cs : List Char) : List Char := (cs.drop 1).dropLast

def number (cs : List Char) : Float := (Decimal.read? (String.ofList cs)).getD 0.0

end CartoStyle.Lexeme
