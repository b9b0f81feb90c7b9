import CartoStyle.Proofs.Fault
import CartoStyle.Proofs.Value.Grammar

/-!
What the value parser accepts, stated against the grammar. Each call reads a front of the
tokens that the grammar derives, and arguments are read up to the parenthesis that closes
them. So a property has a value exactly if its tokens are atoms in a row, at least one.
-/

namespace CartoStyle.PropertyValue

variable {ts rest : List Token} {e : Expression} {es : List Expression}

def Consumes (k : Category) (ts : List Token) (es : List Expression) (rest : List Token) : Prop :=
  ∃ used, ts = used ++ rest ∧ Derives k used es

/-- With this much fuel the parser reads only what the grammar derives. -/
structure Sound (fuel : Nat) : Prop where
  atoms : ∀ ts es rest, atoms fuel ts = .ok (es, rest) → Consumes .atoms ts es rest
  atom : ∀ t ts e rest, atom fuel t ts = .ok (e, rest) → Consumes .atom (t :: ts) [e] rest
  arguments : ∀ ts es rest, arguments fuel ts = .ok (es, rest) →
    Consumes .arguments ts es (.closeParen :: rest)

section Steps

variable {fuel : Nat}

theorem consumes_nil (ts : List Token) : Consumes .atoms ts [] ts := ⟨[], rfl, .nil⟩

/-- An atom of one token. -/
theorem consumes_token {t : Token} (h : Derives .atom [t] [e]) : Consumes .atom (t :: ts) [e] ts :=
  ⟨[t], rfl, h⟩

theorem Sound.atoms_succ (h : Sound fuel)
    (hread : PropertyValue.atoms (fuel + 1) ts = .ok (es, rest)) : Consumes .atoms ts es rest := by
  cases ts with
  | nil =>
    cases hread
    exact consumes_nil []
  | cons t ts =>
    cases hbegins : t.beginsAtom with
    | false =>
      cases t with
      | comma | closeParen =>
        cases hread
        exact consumes_nil _
      | openParen => cases fuel <;> cases hread
      | _ => cases hbegins
    | true =>
      rw [atoms_cons hbegins] at hread
      obtain ⟨⟨first, tail⟩, hfirst, hread⟩ := bind_eq_ok_iff.mp hread
      obtain ⟨⟨others, last⟩, hothers, hread⟩ := bind_eq_ok_iff.mp hread
      cases hread
      obtain ⟨used, hused, hatom⟩ := h.atom _ _ _ _ hfirst
      obtain ⟨more, rfl, hmore⟩ := h.atoms _ _ _ hothers
      exact ⟨used ++ more, by rw [hused, List.append_assoc], .cons hatom hmore⟩

/-- The arguments of a call and the parenthesis behind them. -/
theorem consumes_call (w : String) {args : List Expression}
    (h : Consumes .arguments ts args (.closeParen :: rest)) :
    Consumes .atom (.word w :: .openParen :: ts) [.apply (.ofName w.toLower) args] rest := by
  obtain ⟨used, rfl, hused⟩ := h
  refine ⟨.word w :: .openParen :: (used ++ [.closeParen]), ?_, .call w hused⟩
  rw [List.cons_append, List.cons_append, List.append_assoc, List.singleton_append]

theorem consumes_of_atom {t : Token}
    (hcall : ∀ n ts es rest, fuel = n + 1 → PropertyValue.arguments n ts = .ok (es, rest) →
      Consumes .arguments ts es (.closeParen :: rest))
    (hread : PropertyValue.atom fuel t ts = .ok (e, rest)) : Consumes .atom (t :: ts) [e] rest := by
  cases t with
  | hex colour => cases fuel <;> cases hread <;> exact consumes_token (.hex colour)
  | number x => cases fuel <;> cases hread <;> exact consumes_token (.number x)
  | quoted s => cases fuel <;> cases hread <;> exact consumes_token (.quoted s)
  | brace name => cases fuel <;> cases hread <;> exact consumes_token (.brace name)
  | word w =>
    by_cases hopen : ts.head? = some .openParen
    · obtain ⟨us, rfl⟩ := List.head?_eq_some_iff.mp hopen
      cases fuel with
      | zero => cases hread
      | succ fuel =>
        by_cases hclose : us.head? = some .closeParen
        · obtain ⟨vs, rfl⟩ := List.head?_eq_some_iff.mp hclose
          cases hread
          exact ⟨[.word w, .openParen, .closeParen], rfl, .bareCall w⟩
        · rw [atom_call w hclose] at hread
          obtain ⟨⟨args, tail⟩, hargs, hread⟩ := bind_eq_ok_iff.mp hread
          cases hread
          exact consumes_call w (hcall _ _ _ _ rfl hargs)
    · rw [atom_word w hopen] at hread
      cases hread
      exact consumes_token (.word w)
  | openParen | closeParen | comma => cases fuel <;> cases hread

theorem Sound.arguments_succ (h : Sound fuel)
    (hread : PropertyValue.arguments (fuel + 1) ts = .ok (es, rest)) :
    Consumes .arguments ts es (.closeParen :: rest) := by
  rw [PropertyValue.arguments] at hread
  obtain ⟨⟨row, tail⟩, hatoms, hafter⟩ := bind_eq_ok_iff.mp hread
  obtain ⟨arg, harg, hend⟩ := bind_eq_ok_iff.mp hafter
  obtain ⟨used, rfl, hused⟩ := h.atoms _ _ _ hatoms
  clear hread hafter
  cases tail with
  | nil => cases hend
  | cons t tail =>
    cases t with
    | comma =>
      obtain ⟨⟨args, last⟩, hargs, hlast⟩ := bind_eq_ok_iff.mp hend
      cases hlast
      obtain ⟨more, rfl, hmore⟩ := h.arguments _ _ _ hargs
      refine ⟨used ++ .comma :: more, ?_, .next hused harg hmore⟩
      rw [List.append_assoc, List.cons_append]
    | closeParen =>
      cases hend
      exact ⟨used, rfl, .last hused harg⟩
    | _ => cases hend

theorem sound (fuel : Nat) : Sound fuel := by
  induction fuel with
  | zero =>
    refine ⟨fun _ _ _ h => ?_, fun _ _ _ _ => consumes_of_atom nofun, fun _ _ _ h => ?_⟩
    · cases h
    · cases h
  | succ fuel ih =>
    refine ⟨fun _ _ _ => ih.atoms_succ, fun _ _ _ _ => consumes_of_atom ?_,
      fun _ _ _ => ih.arguments_succ⟩
    intro n ts es rest hn hargs
    cases hn
    exact ih.arguments _ _ _ hargs

end Steps

/-- Tokens are read to their end exactly as the grammar derives them, as the value that their
atoms make up. -/
theorem ofTokens_eq_ok_iff_derives {key : String} :
    ofTokens key ts = .ok e ↔ ∃ es, Derives .atoms ts es ∧ combine key es = .ok e := by
  constructor
  · intro h
    rw [ofTokens] at h
    obtain ⟨⟨es, rest⟩, hread, hend⟩ := bind_eq_ok_iff.mp h
    obtain ⟨used, hused, hderives⟩ := (sound _).atoms _ _ _ hread
    cases rest with
    | nil =>
      rw [hused, List.append_nil]
      exact ⟨es, hderives, hend⟩
    | cons t rest => cases hend
  · rintro ⟨es, hderives, hcombine⟩
    rw [ofTokens_of_derives hderives, hcombine]

end CartoStyle.PropertyValue
