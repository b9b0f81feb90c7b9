/-!
Positions in a text. Offsets count bytes of the UTF-8 form; a position counts
lines and, within a line, characters, both from one. Offsets past the end
stand for the end. An offset inside a character has no position.
-/

namespace CartoStyle

/-- A line and a column, both counted from one. -/
structure Position where
  line : Nat
  column : Nat
deriving DecidableEq, Repr

def byteLength : List Char → Nat
  | [] => 0
  | c :: cs => c.utf8Size + byteLength cs

@[simp] theorem byteLength_nil : byteLength [] = 0 := rfl

@[simp] theorem byteLength_cons (c : Char) (cs : List Char) :
    byteLength (c :: cs) = c.utf8Size + byteLength cs := rfl

@[simp] theorem byteLength_append (xs ys : List Char) :
    byteLength (xs ++ ys) = byteLength xs + byteLength ys := by
  induction xs with
  | nil => simp
  | cons c xs ih => simp [ih, Nat.add_assoc]

theorem byteLength_toList (s : String) : byteLength s.toList = s.utf8ByteSize := by
  have hlist (cs : List Char) : (String.ofList cs).utf8ByteSize = byteLength cs := by
    induction cs with
    | nil => rfl
    | cons c cs ih => simp [String.ofList_cons, ih]
  rw [← hlist, String.ofList_toList]

theorem byteLength_pos {cs : List Char} (h : cs ≠ []) : 0 < byteLength cs := by
  cases cs with
  | nil => exact absurd rfl h
  | cons c cs =>
    have hpos := c.utf8Size_pos
    rw [byteLength_cons]
    omega

/-- The characters that end at or before a byte offset; nothing if the offset splits one. -/
def takeBytes? : List Char → Nat → Option (List Char)
  | _, 0 => some []
  | [], _ + 1 => some []
  | c :: cs, n + 1 =>
    if c.utf8Size ≤ n + 1 then (takeBytes? cs (n + 1 - c.utf8Size)).map (c :: ·) else none

/-- A boundary between characters is found by the bytes before it. -/
theorem takeBytes?_append (xs ys : List Char) :
    takeBytes? (xs ++ ys) (byteLength xs) = some xs := by
  induction xs with
  | nil => cases ys <;> rfl
  | cons c xs ih =>
    have hpos := c.utf8Size_pos
    rw [byteLength_cons, List.cons_append]
    obtain ⟨n, hn⟩ : ∃ n, c.utf8Size + byteLength xs = n + 1 := ⟨_, (Nat.succ_pred (by omega)).symm⟩
    have hsub : n + 1 - c.utf8Size = byteLength xs := by omega
    have hle : c.utf8Size ≤ n + 1 := by omega
    rw [hn, takeBytes?, if_pos hle, hsub, ih]
    rfl

/-- Two cuts of a text at the same byte offset are the same. -/
theorem append_inj_of_byteLength {xs ys xs' ys' : List Char} (h : xs ++ ys = xs' ++ ys')
    (hlen : byteLength xs = byteLength xs') : xs = xs' ∧ ys = ys' := by
  have htake := takeBytes?_append xs ys
  rw [h, hlen, takeBytes?_append] at htake
  cases htake
  exact ⟨rfl, List.append_cancel_left h⟩

namespace Position

def start : Position := ⟨1, 1⟩

/-- The position after one more character: a line feed opens a line. -/
def advance (p : Position) (c : Char) : Position :=
  if c = '\n' then ⟨p.line + 1, 1⟩ else ⟨p.line, p.column + 1⟩

def after (cs : List Char) : Position := cs.foldl advance start

/-- The position of a byte offset; nothing if the offset lies inside a character. -/
def at? (source : String) (offset : Nat) : Option Position :=
  (takeBytes? source.toList offset).map after

/-- The end of the first part of a text has the position that the part alone gives. -/
theorem at?_byteLength {source : String} {xs ys : List Char} (h : source.toList = xs ++ ys) :
    at? source (byteLength xs) = some (after xs) := by
  rw [at?, h, takeBytes?_append]
  rfl

end Position

end CartoStyle
