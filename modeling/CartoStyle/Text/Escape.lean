import CartoStyle.Text.Hidden
import CartoStyle.Text.Extending

/-!
Escaped text, as messages show it: between double quotes, with everything a
reader could not see or would misread written as an escape. Other characters
stand for themselves.
-/

namespace CartoStyle.Text

def hexDigits (n : Nat) : List Char := Nat.toDigits 16 n

def escapeChar (c : Char) : List Char :=
  match c with
  | '"' => ['\\', '"']
  | '\\' => ['\\', '\\']
  | '\n' => ['\\', 'n']
  | '\r' => ['\\', 'r']
  | '\t' => ['\\', 't']
  | '\x00' => ['\\', '0']
  | c =>
    if isHidden c || isExtending c then
      ['\\', 'u', '\x7b'] ++ hexDigits c.toNat ++ ['\x7d']
    else [c]

def escape (s : String) : String :=
  String.ofList (['"'] ++ s.toList.flatMap escapeChar ++ ['"'])

end CartoStyle.Text
