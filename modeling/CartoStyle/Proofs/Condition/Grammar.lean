import CartoStyle.Expression.Condition

/-!
The grammar of conditions, and that the parser accepts what it derives. Conjunctions
bind more tightly than disjunctions, and negations more tightly than both; what
stands in parentheses may be anything.
-/

namespace CartoStyle.Condition

/-- How tightly a part of a condition binds. -/
inductive Category where
  | disjunction
  | conjunction
  | negation
deriving DecidableEq, Repr

/-- How parts of one strength are joined to a part of another: negations by the word and,
conjunctions by the word or. -/
inductive Connective : Category → Category → Type
  | and : Connective .negation .conjunction
  | or : Connective .conjunction .disjunction

variable {j k : Category}

def Connective.word : Connective j k → Token
  | and => .and
  | or => .or

def Connective.operator : Connective j k → Operator
  | and => .all
  | or => .any

/-- The token is a literal behind an operator. -/
inductive Operand : Token → Expression → Prop
  | number (x : Float) : Operand (.number x) (.number x)
  | quoted (s : String) : Operand (.quoted s) (.text s)
  | null : Operand .null .null
  | true : Operand (.identifier "true") (.literal (.bool true))
  | false : Operand (.identifier "false") (.literal (.bool false))
  | word {w : String} (h : w ≠ "true" ∧ w ≠ "false") : Operand (.identifier w) (.text w)

/-- The tokens are an attribute and what is said about it. -/
inductive Compares : List Token → Expression → Prop
  | sign (name : String) {t u : Token} {op : Operator} {v : Expression}
      (hop : t.comparison? = some op) (hv : Operand u v) :
      Compares [.identifier name, t, u] (.apply op [.get name, v])
  | notLike (name : String) {u : Token} {v : Expression} (hv : Operand u v) :
      Compares [.identifier name, .not, .like, u] (negate (.apply .like [.get name, v]))
  | notIlike (name : String) {u : Token} {v : Expression} (hv : Operand u v) :
      Compares [.identifier name, .not, .ilike, u] (negate (.apply .ilike [.get name, v]))
  | isNull (name : String) :
      Compares [.identifier name, .is, .null] (.apply .equal [.get name, .null])
  | isNotNull (name : String) :
      Compares [.identifier name, .is, .not, .null] (negate (.apply .equal [.get name, .null]))

theorem operand_eq {u : Token} {v : Expression} (h : Operand u v) (rest : List Token) :
    operand (u :: rest) = .ok (v, rest) := by
  cases h with
  | word h => rw [operand, if_neg h.1, if_neg h.2]
  | _ => rfl

theorem comparison_eq {ts : List Token} {e : Expression} (h : Compares ts e)
    (rest : List Token) : comparison (ts ++ rest) = .ok (e, rest) := by
  cases h with
  | sign name hop hv =>
    rename_i t u op v
    have hcompare : comparison (.identifier name :: t :: u :: rest) =
        compareWith op (.get name) (u :: rest) := by
      cases t <;> cases hop <;> rfl
    rw [List.cons_append, List.cons_append, List.cons_append, List.nil_append, hcompare,
      compareWith, operand_eq hv]
    rfl
  | notLike name hv | notIlike name hv =>
    simp only [List.cons_append, List.nil_append, comparison, predicate, compareWith,
      operand_eq hv]
    rfl
  | isNull name => rfl
  | isNotNull name => rfl

/-- The tokens of further operands, each behind the word that joins them. -/
def joined (word : Token) (operands : List (List Token × Expression)) : List Token :=
  operands.flatMap fun o => word :: o.1

/-- The tokens are a part of a condition with this expression. -/
inductive Derives : Category → List Token → Expression → Prop
  | comparison {ts : List Token} {e : Expression} (h : Compares ts e) : Derives .negation ts e
  | not {ts : List Token} {e : Expression} (h : Derives .negation ts e) :
      Derives .negation (.not :: ts) (negate e)
  | parens {ts : List Token} {e : Expression} (h : Derives .disjunction ts e) :
      Derives .negation (.openParen :: (ts ++ [.closeParen])) e
  | all {ts : List Token} {e : Expression} {others : List (List Token × Expression)}
      (h : Derives .negation ts e) (hothers : ∀ o ∈ others, Derives .negation o.1 o.2) :
      Derives .conjunction (ts ++ joined .and others)
        (combine .all e (others.map Prod.snd))
  | any {ts : List Token} {e : Expression} {others : List (List Token × Expression)}
      (h : Derives .conjunction ts e) (hothers : ∀ o ∈ others, Derives .conjunction o.1 o.2) :
      Derives .disjunction (ts ++ joined .or others)
        (combine .any e (others.map Prod.snd))

theorem Connective.derives (c : Connective j k) {ts : List Token} {e : Expression}
    {others : List (List Token × Expression)} (h : Derives j ts e)
    (hothers : ∀ o ∈ others, Derives j o.1 o.2) :
    Derives k (ts ++ joined c.word others) (combine c.operator e (others.map Prod.snd)) := by
  cases c with
  | and => exact .all h hothers
  | or => exact .any h hothers

def EndsConjunction (ts : List Token) : Prop := ∀ t, ts.head? = some t → t ≠ .and

def EndsDisjunction (ts : List Token) : Prop := ∀ t, ts.head? = some t → t ≠ .and ∧ t ≠ .or

/-- The tokens do not go on with a word that continues a part of this strength. -/
def Ends : Category → List Token → Prop
  | .negation, _ => True
  | .conjunction, ts => EndsConjunction ts
  | .disjunction, ts => EndsDisjunction ts

theorem ends_nil (k : Category) : Ends k [] := by
  cases k with
  | negation => trivial
  | conjunction => exact nofun
  | disjunction => exact nofun

theorem ends_closeParen (ts : List Token) : Ends .disjunction (.closeParen :: ts) := by
  intro t ht
  cases ht
  exact ⟨nofun, nofun⟩

def Category.read : Category → Nat → List Token → Reading
  | negation => Condition.negation
  | conjunction => Condition.conjunction
  | disjunction => Condition.disjunction

/-- How many calls lead from a part of this strength to the negations in it. -/
def Category.level : Category → Nat
  | negation => 0
  | conjunction => 1
  | disjunction => 2

namespace Connective

variable {fuel : Nat} {ts rest : List Token}

def readMore : Connective j k → Nat → List Token → Except FilterFault (List Expression × List Token)
  | and => conjuncts
  | or => disjuncts

theorem ends_lower (c : Connective j k) (h : Ends k ts) : Ends j ts := by
  cases c with
  | and => trivial
  | or => exact fun t ht => (h t ht).1

/-- The word between two parts ends the first of them. -/
theorem ends_word (c : Connective j k) (ts : List Token) : Ends j (c.word :: ts) := by
  cases c with
  | and => trivial
  | or =>
    intro t ht
    cases ht
    nofun

/-- The word between two parts does not end the chain that they belong to. -/
theorem not_ends_word (c : Connective j k) (ts : List Token) : ¬ Ends k (c.word :: ts) := by
  cases c with
  | and => exact fun h => h _ rfl rfl
  | or => exact fun h => (h _ rfl).2 rfl

theorem level_succ (c : Connective j k) : k.level = j.level + 1 := by
  cases c <;> rfl

theorem level_le (c : Connective j k) : j.level ≤ 1 := by
  cases c <;> decide

theorem read_succ (c : Connective j k) (fuel : Nat) (ts : List Token) :
    k.read (fuel + 1) ts = (do
      let (first, rest) ← j.read fuel ts
      let (others, rest) ← c.readMore fuel rest
      return (combine c.operator first others, rest)) := by
  cases c with
  | and =>
    show conjunction (fuel + 1) ts = _
    rw [conjunction]
    rfl
  | or =>
    show disjunction (fuel + 1) ts = _
    rw [disjunction]
    rfl

theorem readMore_word (c : Connective j k) (fuel : Nat) (ts : List Token) :
    c.readMore (fuel + 1) (c.word :: ts) = (do
      let (e, rest) ← j.read fuel ts
      let (es, rest) ← c.readMore fuel rest
      return (e :: es, rest)) := by
  cases c <;> rfl

/-- Without fuel or the word, no further part is read. -/
theorem readMore_eq (c : Connective j k) (h : fuel = 0 ∨ ts.head? ≠ some c.word) :
    c.readMore fuel ts = .ok ([], ts) := by
  match fuel, ts, c, h with
  | 0, _, and, _ => rfl
  | 0, _, or, _ => rfl
  | _ + 1, [], and, _ => rfl
  | _ + 1, [], or, _ => rfl
  | fuel + 1, t :: ts, and, h =>
    cases t with
    | and => exact absurd rfl (h.resolve_left (Nat.succ_ne_zero fuel))
    | _ => rfl
  | fuel + 1, t :: ts, or, h =>
    cases t with
    | or => exact absurd rfl (h.resolve_left (Nat.succ_ne_zero fuel))
    | _ => rfl

theorem readMore_of_ends (c : Connective j k) (h : Ends k rest) :
    c.readMore fuel rest = .ok ([], rest) := by
  refine c.readMore_eq (Or.inr fun hword => ?_)
  obtain ⟨ts, rfl⟩ := List.head?_eq_some_iff.mp hword
  exact c.not_ends_word ts h

end Connective

/-- The parser reads the tokens as this expression, whatever follows that does not belong to
them. -/
def Accepts (k : Category) (ts : List Token) (e : Expression) : Prop :=
  ∀ fuel rest, 4 * ts.length + k.level ≤ fuel → Ends k rest →
    k.read fuel (ts ++ rest) = .ok (e, rest)

theorem joined_cons (word : Token) (o : List Token × Expression)
    (others : List (List Token × Expression)) :
    joined word (o :: others) = word :: (o.1 ++ joined word others) := rfl

section Chains

variable {others : List (List Token × Expression)} {rest : List Token}

/-- A part ends where the further operands begin, or with the chain if there are none. -/
theorem Connective.ends_joined (c : Connective j k) (hrest : Ends k rest) :
    Ends j (joined c.word others ++ rest) := by
  cases others with
  | nil => exact c.ends_lower hrest
  | cons o others => exact c.ends_word _

/-- The further operands of a chain. Each of them ends at the next word. -/
theorem Connective.readMore_joined (c : Connective j k) (h : ∀ o ∈ others, Accepts j o.1 o.2)
    {fuel : Nat} (hfuel : 4 * (joined c.word others).length ≤ fuel) (hrest : Ends k rest) :
    c.readMore fuel (joined c.word others ++ rest) = .ok (others.map Prod.snd, rest) := by
  induction others generalizing fuel with
  | nil => exact c.readMore_of_ends hrest
  | cons o others ih =>
    rw [joined_cons] at hfuel ⊢
    simp only [List.length_cons, List.length_append] at hfuel
    obtain ⟨fuel, rfl⟩ : ∃ n, fuel = n + 1 := ⟨fuel - 1, by omega⟩
    have hlevel := c.level_le
    have hfirst := h o List.mem_cons_self fuel (joined c.word others ++ rest) (by omega)
      (c.ends_joined hrest)
    have hmore := ih (fun p hp => h p (List.mem_cons_of_mem o hp)) (by omega : _ ≤ fuel)
    rw [List.cons_append, List.append_assoc, c.readMore_word]
    simp only [hfirst, hmore, bind, Except.bind]
    rfl

theorem Connective.accepts (c : Connective j k) {ts : List Token} {e : Expression}
    (h : Accepts j ts e) (hothers : ∀ o ∈ others, Accepts j o.1 o.2) :
    Accepts k (ts ++ joined c.word others) (combine c.operator e (others.map Prod.snd)) := by
  intro fuel rest hfuel hrest
  rw [List.length_append, c.level_succ] at hfuel
  obtain ⟨fuel, rfl⟩ : ∃ n, fuel = n + 1 := ⟨fuel - 1, by omega⟩
  have hfirst := h fuel (joined c.word others ++ rest) (by omega) (c.ends_joined hrest)
  have hmore := c.readMore_joined hothers (by omega : _ ≤ fuel) hrest
  rw [List.append_assoc, c.read_succ]
  simp only [hfirst, hmore, bind, Except.bind]
  rfl

end Chains

theorem accepts_of_derives {ts : List Token} {e : Expression} (h : Derives k ts e) :
    Accepts k ts e := by
  induction h with
  | comparison h =>
    intro fuel rest hfuel _
    have hcomparison := comparison_eq h rest
    cases h <;>
      · simp only [List.length_cons, List.length_nil] at hfuel
        obtain ⟨fuel, rfl⟩ : ∃ n, fuel = n + 1 := ⟨fuel - 1, by omega⟩
        exact hcomparison
  | not h ih =>
    intro fuel rest hfuel _
    simp only [List.length_cons] at hfuel
    obtain ⟨fuel, rfl⟩ : ∃ n, fuel = n + 1 := ⟨fuel - 1, by omega⟩
    have hinner : negation fuel (_ ++ rest) = _ := ih fuel rest (by omega) trivial
    rw [List.cons_append, Category.read, negation, hinner]
    rfl
  | parens h ih =>
    intro fuel rest hfuel _
    simp only [List.length_cons, List.length_append, List.length_nil, Category.level] at hfuel
    obtain ⟨fuel, rfl⟩ : ∃ n, fuel = n + 1 := ⟨fuel - 1, by omega⟩
    have hinner : disjunction fuel (_ ++ .closeParen :: rest) = _ :=
      ih fuel (.closeParen :: rest) (by simp only [Category.level]; omega) (ends_closeParen rest)
    rw [List.cons_append, List.append_assoc, List.singleton_append, Category.read, negation]
    simp only [hinner, bind, Except.bind]
    rfl
  | all _ _ ih ihothers => exact Connective.and.accepts ih ihothers
  | any _ _ ih ihothers => exact Connective.or.accepts ih ihothers

/-- Derived tokens are read to their end. -/
theorem ofTokens_of_derives {ts : List Token} {e : Expression}
    (h : Derives .disjunction ts e) : ofTokens ts = .ok e := by
  have hread : disjunction (fuelFor ts) (ts ++ []) = .ok (e, []) :=
    accepts_of_derives h (fuelFor ts) [] (by simp only [fuelFor, Category.level]; omega) nofun
  rw [List.append_nil] at hread
  rw [ofTokens, hread]
  rfl

end CartoStyle.Condition
