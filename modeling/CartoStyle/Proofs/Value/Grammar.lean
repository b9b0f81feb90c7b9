import CartoStyle.Expression.PropertyValue

/-!
The grammar of property values, and that the parser accepts what it derives. The
parser bounds the nesting of its calls by a number; three times the number of
tokens is enough.
-/

namespace CartoStyle.PropertyValue

/-- What some tokens are read as. -/
inductive Category where
  | atom
  | atoms
  | arguments
deriving DecidableEq, Repr

/-- The tokens are one atom, atoms in a row, or arguments between commas, with these
expressions. -/
inductive Derives : Category → List Token → List Expression → Prop
  | hex (colour : String) : Derives .atom [.hex colour] [.hex colour]
  | number (x : Float) : Derives .atom [.number x] [.number x]
  | quoted (s : String) : Derives .atom [.quoted s] [.text s]
  | brace (name : String) : Derives .atom [.brace name] [.apply .brace [.get name]]
  | word (w : String) : Derives .atom [.word w] [wordExpression w]
  | bareCall (w : String) :
      Derives .atom [.word w, .openParen, .closeParen] [.apply (.ofName w.toLower) []]
  | call (w : String) {ts : List Token} {args : List Expression} (h : Derives .arguments ts args) :
      Derives .atom (.word w :: .openParen :: (ts ++ [.closeParen]))
        [.apply (.ofName w.toLower) args]
  | nil : Derives .atoms [] []
  | cons {ts us : List Token} {e : Expression} {es : List Expression}
      (h : Derives .atom ts [e]) (hmore : Derives .atoms us es) :
      Derives .atoms (ts ++ us) (e :: es)
  | last {ts : List Token} {es : List Expression} {arg : Expression}
      (h : Derives .atoms ts es) (harg : argument es = .ok arg) : Derives .arguments ts [arg]
  | next {ts us : List Token} {es args : List Expression} {arg : Expression}
      (h : Derives .atoms ts es) (harg : argument es = .ok arg)
      (hmore : Derives .arguments us args) :
      Derives .arguments (ts ++ .comma :: us) (arg :: args)

def Token.beginsAtom : Token → Bool
  | openParen | closeParen | comma => false
  | _ => true

def Stops (ts : List Token) : Prop := ∀ t, ts.head? = some t → t = .comma ∨ t = .closeParen

/-- The parser reads the tokens as these expressions, whatever follows that does not belong to
them. -/
def Accepts : Category → List Token → List Expression → Prop
  | .atom, ts, es => ∃ t more e, ts = t :: more ∧ es = [e] ∧ t.beginsAtom = true ∧
      ∀ fuel rest, 3 * more.length ≤ fuel → rest.head? ≠ some .openParen →
        atom fuel t (more ++ rest) = .ok (e, rest)
  | .atoms, ts, es => (∀ t, ts.head? = some t → t.beginsAtom = true) ∧
      ∀ fuel rest, 3 * ts.length + 1 ≤ fuel → Stops rest → atoms fuel (ts ++ rest) = .ok (es, rest)
  | .arguments, ts, es => ts ≠ [] ∧ (∀ t, ts.head? = some t → t.beginsAtom = true) ∧
      ∀ fuel rest, 3 * ts.length + 2 ≤ fuel →
        arguments fuel (ts ++ .closeParen :: rest) = .ok (es, rest)

theorem stops_nil : Stops [] := nofun

theorem atoms_of_stops {fuel : Nat} {rest : List Token} (h : Stops rest) :
    atoms (fuel + 1) rest = .ok ([], rest) := by
  cases rest with
  | nil => rfl
  | cons t rest =>
    rcases h t rfl with rfl | rfl
    · rfl
    · rfl

theorem atoms_cons {fuel : Nat} {t : Token} (ht : t.beginsAtom = true) (ts : List Token) :
    atoms (fuel + 1) (t :: ts) = (do
      let (e, rest) ← atom fuel t ts
      let (es, rest) ← atoms fuel rest
      return (e :: es, rest)) := by
  cases t with
  | openParen => cases ht
  | closeParen => cases ht
  | comma => cases ht
  | _ => rfl

theorem accepts_single {t : Token} {e : Expression} (ht : t.beginsAtom = true)
    (h : ∀ fuel rest, rest.head? ≠ some .openParen → atom fuel t rest = .ok (e, rest)) :
    Accepts .atom [t] [e] :=
  ⟨t, [], e, rfl, rfl, ht, fun fuel rest _ hrest => h fuel rest hrest⟩

theorem atom_word {fuel : Nat} (w : String) {rest : List Token}
    (h : rest.head? ≠ some .openParen) :
    atom fuel (.word w) rest = .ok (wordExpression w, rest) := by
  cases rest with
  | nil => cases fuel <;> rfl
  | cons t rest =>
    cases t with
    | openParen => exact absurd rfl h
    | _ => cases fuel <;> rfl

theorem atom_call {fuel : Nat} (w : String) {ts : List Token} (h : ts.head? ≠ some .closeParen) :
    atom (fuel + 1) (.word w) (.openParen :: ts) = (do
      let (args, rest) ← arguments fuel ts
      return (.apply (.ofName w.toLower) args, rest)) := by
  cases ts with
  | nil => rfl
  | cons t ts =>
    cases t with
    | closeParen => exact absurd rfl h
    | _ => rfl

/-- An atom whose call has arguments. -/
theorem accepts_call (w : String) {ts : List Token} {args : List Expression}
    (h : Accepts .arguments ts args) :
    Accepts .atom (.word w :: .openParen :: (ts ++ [.closeParen]))
      [.apply (.ofName w.toLower) args] := by
  obtain ⟨hne, hbegins, hargs⟩ := h
  refine ⟨_, _, _, rfl, rfl, rfl, fun fuel rest hfuel _ => ?_⟩
  obtain ⟨t, us, rfl⟩ := List.exists_cons_of_ne_nil hne
  simp only [List.length_cons, List.length_append, List.length_nil] at hfuel
  obtain ⟨fuel, rfl⟩ : ∃ n, fuel = n + 1 := ⟨fuel - 1, by omega⟩
  have hfirst : (t :: (us ++ .closeParen :: rest)).head? ≠ some .closeParen := by
    intro ht
    cases ht
    cases hbegins _ rfl
  have hargs := hargs fuel rest (by simp only [List.length_cons]; omega)
  simp only [List.cons_append, List.append_assoc, List.nil_append] at hargs ⊢
  rw [atom_call w hfirst, hargs]
  rfl

theorem head?_append_of_stops {t : Token} {us rest : List Token} (hrest : Stops rest)
    (hus : ∀ t, us.head? = some t → t.beginsAtom = true) (ht : (us ++ rest).head? = some t) :
    t ≠ .openParen := by
  rintro rfl
  cases us with
  | nil => rcases hrest _ ht with h | h <;> cases h
  | cons u us =>
    cases ht
    cases hus _ rfl

theorem accepts_cons {ts us : List Token} {e : Expression} {es : List Expression}
    (h : Accepts .atom ts [e]) (hmore : Accepts .atoms us es) :
    Accepts .atoms (ts ++ us) (e :: es) := by
  obtain ⟨t, more, _, rfl, hsingle, ht, hatom⟩ := h
  cases hsingle
  obtain ⟨hbegins, hatoms⟩ := hmore
  refine ⟨?_, fun fuel rest hfuel hrest => ?_⟩
  · intro u hu
    cases hu
    exact ht
  · simp only [List.length_cons, List.length_append, List.cons_append] at hfuel
    obtain ⟨fuel, rfl⟩ : ∃ n, fuel = n + 1 := ⟨fuel - 1, by omega⟩
    have hnext : (us ++ rest).head? ≠ some .openParen := fun hopen =>
      head?_append_of_stops hrest hbegins hopen rfl
    rw [List.cons_append, List.cons_append, atoms_cons ht, List.append_assoc,
      hatom fuel _ (by omega) hnext]
    simp only [bind, Except.bind, hatoms fuel rest (by omega) hrest]
    rfl

theorem ne_nil_of_argument {ts : List Token} {es : List Expression} {arg : Expression}
    (h : Accepts .atoms ts es) (harg : argument es = .ok arg) : ts ≠ [] := by
  rintro rfl
  have hnone := h.2 1 [] (Nat.le_refl 1) stops_nil
  rw [List.append_nil, atoms_of_stops stops_nil] at hnone
  cases hnone
  cases harg

theorem arguments_of_closeParen {fuel : Nat} {ts rest : List Token} {es : List Expression}
    {arg : Expression} (h : atoms fuel ts = .ok (es, .closeParen :: rest))
    (harg : argument es = .ok arg) : arguments (fuel + 1) ts = .ok ([arg], rest) := by
  simp only [arguments, h, bind, Except.bind, harg]
  rfl

theorem arguments_of_comma {fuel : Nat} {ts rest after : List Token} {es args : List Expression}
    {arg : Expression} (h : atoms fuel ts = .ok (es, .comma :: rest))
    (harg : argument es = .ok arg) (hmore : arguments fuel rest = .ok (args, after)) :
    arguments (fuel + 1) ts = .ok (arg :: args, after) := by
  simp only [arguments, h, bind, Except.bind, harg, hmore]
  rfl

theorem accepts_of_derives {k : Category} {ts : List Token} {es : List Expression}
    (h : Derives k ts es) : Accepts k ts es := by
  induction h with
  | hex colour => exact accepts_single rfl fun fuel _ _ => by cases fuel <;> rfl
  | number x => exact accepts_single rfl fun fuel _ _ => by cases fuel <;> rfl
  | quoted s => exact accepts_single rfl fun fuel _ _ => by cases fuel <;> rfl
  | brace name => exact accepts_single rfl fun fuel _ _ => by cases fuel <;> rfl
  | word w => exact accepts_single rfl fun _ _ hrest => atom_word w hrest
  | bareCall w =>
    refine ⟨_, _, _, rfl, rfl, rfl, fun fuel rest hfuel _ => ?_⟩
    simp only [List.length_cons, List.length_nil] at hfuel
    obtain ⟨fuel, rfl⟩ : ∃ n, fuel = n + 1 := ⟨fuel - 1, by omega⟩
    rfl
  | call w _ ih => exact accepts_call w ih
  | nil =>
    refine ⟨nofun, fun fuel rest hfuel hrest => ?_⟩
    obtain ⟨fuel, rfl⟩ : ∃ n, fuel = n + 1 := ⟨fuel - 1, by omega⟩
    exact atoms_of_stops hrest
  | cons _ _ ih ihmore => exact accepts_cons ih ihmore
  | last _ harg ih =>
    refine ⟨ne_nil_of_argument ih harg, ih.1, fun fuel rest hfuel => ?_⟩
    obtain ⟨fuel, rfl⟩ : ∃ n, fuel = n + 1 := ⟨fuel - 1, by omega⟩
    have hstops : Stops (Token.closeParen :: rest) := by
      intro t ht
      cases ht
      exact Or.inr rfl
    exact arguments_of_closeParen (ih.2 fuel _ (by omega) hstops) harg
  | @next _ us _ _ _ _ harg _ ih ihmore =>
    obtain ⟨hne, hbegins, hargs⟩ := ihmore
    refine ⟨by simp, ?_, fun fuel rest hfuel => ?_⟩
    · intro t ht
      obtain ⟨u, us, hcons⟩ := List.exists_cons_of_ne_nil (ne_nil_of_argument ih harg)
      rw [hcons] at ht ih
      exact ih.1 t ht
    · simp only [List.length_append, List.length_cons] at hfuel
      obtain ⟨fuel, rfl⟩ : ∃ n, fuel = n + 1 := ⟨fuel - 1, by omega⟩
      have hstops : Stops (Token.comma :: (us ++ .closeParen :: rest)) := by
        intro t ht
        cases ht
        exact Or.inl rfl
      have hfirst := ih.2 fuel _ (by omega) hstops
      rw [List.append_assoc, List.cons_append]
      exact arguments_of_comma hfirst harg (hargs fuel rest (by omega))

/-- Derived atoms are the whole value of a property. -/
theorem ofTokens_of_derives {key : String} {ts : List Token} {es : List Expression}
    (h : Derives .atoms ts es) : ofTokens key ts = combine key es := by
  have hatoms := (accepts_of_derives h).2 (fuelFor ts) [] (by simp only [fuelFor]; omega) stops_nil
  rw [List.append_nil] at hatoms
  rw [ofTokens, hatoms]
  rfl

end CartoStyle.PropertyValue
