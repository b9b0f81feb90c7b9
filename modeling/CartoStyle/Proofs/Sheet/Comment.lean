import CartoStyle.Proofs.Pattern.PrefixFree
import CartoStyle.Sheet.Token

/-!
Comments end at their first closing. The pattern of a comment spells this out by
runs of asterisks between other characters; here it is compared with a scan that
only remembers whether the last character was an asterisk.
-/

namespace CartoStyle.Sheet.Token

open Pattern

variable {cs rest : List Char}

theorem matches_many_except_iff {s : String} :
    Matches (many (except s)) cs ↔ ∀ c ∈ cs, c ∉ s.toList := by
  simp [except, matches_many_one_iff]

theorem matches_many_among_iff {s : String} :
    Matches (many (among s)) cs ↔ ∀ c ∈ cs, c ∈ s.toList := by
  simp [among, matches_many_one_iff]

theorem matches_atLeastOne_among_iff {s : String} :
    Matches (atLeastOne (among s)) cs ↔ cs ≠ [] ∧ ∀ c ∈ cs, c ∈ s.toList := by
  simp [among, matches_atLeastOne_one_iff]

/-- What follows the first closing of a comment. The flag says that the last character
before was an asterisk. -/
def afterClosing : (star : Bool) → List Char → Option (List Char)
  | _, [] => none
  | star, c :: cs => if star && c == '/' then some cs else afterClosing (c == '*') cs

theorem afterClosing_append_of_no_star (hcs : ∀ c ∈ cs, c ≠ '*') (rest : List Char) :
    afterClosing false (cs ++ rest) = afterClosing false rest := by
  induction cs with
  | nil => rfl
  | cons c cs ih =>
    obtain ⟨hc, hcs⟩ := List.forall_mem_cons.mp hcs
    simp only [List.cons_append, afterClosing, Bool.false_and, beq_eq_false_iff_ne.mpr hc,
      Bool.false_eq_true, if_false, ih hcs]

theorem afterClosing_append_of_stars (hne : cs ≠ []) (hcs : ∀ c ∈ cs, c = '*') (star : Bool)
    (rest : List Char) : afterClosing star (cs ++ rest) = afterClosing true rest := by
  induction cs generalizing star with
  | nil => exact absurd rfl hne
  | cons c cs ih =>
    obtain ⟨rfl, hrest⟩ := List.forall_mem_cons.mp hcs
    have hstep : afterClosing star ('*' :: (cs ++ rest)) = afterClosing true (cs ++ rest) := by
      simp [afterClosing]
    rw [List.cons_append, hstep]
    cases cs with
    | nil => rfl
    | cons d cs => exact ih nofun hrest true

def commentRound : Pattern := inOrder [except "/*", many (except "*"), atLeastOne (among "*")]

theorem afterClosing_append_of_round (h : Matches commentRound cs) (rest : List Char) :
    afterClosing true (cs ++ rest) = afterClosing true rest := by
  obtain ⟨first, _, rfl, hfirst, h⟩ := matches_seq_iff.mp h
  obtain ⟨others, _, rfl, hothers, h⟩ := matches_seq_iff.mp h
  obtain ⟨stars, _, rfl, hstars, h⟩ := matches_seq_iff.mp h
  obtain rfl := matches_nothing_iff.mp h
  obtain ⟨c, rfl, hc⟩ := matches_one_iff.mp hfirst
  obtain ⟨hne, hstars⟩ := matches_atLeastOne_among_iff.mp hstars
  rw [matches_many_except_iff] at hothers
  have hc : c ≠ '/' ∧ c ≠ '*' := by simpa using hc
  have hstep (ds : List Char) : afterClosing true (c :: ds) = afterClosing false ds := by
    simp [afterClosing, beq_eq_false_iff_ne.mpr hc.1, beq_eq_false_iff_ne.mpr hc.2]
  simp only [List.append_assoc, List.cons_append, List.nil_append]
  rw [hstep, afterClosing_append_of_no_star (by simpa using hothers),
    afterClosing_append_of_stars hne (by simpa using hstars)]

theorem afterClosing_append_of_rounds (h : Matches (many commentRound) cs) (rest : List Char) :
    afterClosing true (cs ++ rest) = afterClosing true rest := by
  generalize hp : many commentRound = p at h
  induction h with
  | done => rfl
  | more hx hy _ ih =>
    cases hp
    rw [List.append_assoc, afterClosing_append_of_round hx, ih rfl]
  | _ => cases hp

/-- The rest of a comment ends with its first closing. -/
theorem afterClosing_of_matches (h : Matches commentRest cs) (rest : List Char) :
    afterClosing false (cs ++ rest) = some rest := by
  obtain ⟨others, _, rfl, hothers, h⟩ := matches_seq_iff.mp h
  obtain ⟨stars, _, rfl, hstars, h⟩ := matches_seq_iff.mp h
  obtain ⟨rounds, _, rfl, hrounds, h⟩ := matches_seq_iff.mp h
  obtain ⟨slash, _, rfl, hslash, h⟩ := matches_seq_iff.mp h
  obtain rfl := matches_nothing_iff.mp h
  obtain rfl := matches_literal_iff.mp hslash
  obtain ⟨hne, hstars⟩ := matches_atLeastOne_among_iff.mp hstars
  rw [matches_many_except_iff] at hothers
  simp only [List.append_assoc]
  rw [afterClosing_append_of_no_star (by simpa using hothers),
    afterClosing_append_of_stars hne (by simpa using hstars),
    afterClosing_append_of_rounds hrounds]
  rfl

theorem prefixFree_commentRest : PrefixFree commentRest := by
  intro xs ys hx hy
  have hshort := afterClosing_of_matches hx ys
  have hlong := afterClosing_of_matches hy []
  rw [List.append_nil] at hlong
  cases hshort.symm.trans hlong
  rfl

def commentAfterStar : Pattern := inOrder [many (among "*"), many commentRound, literal "/"]

theorem commentRest_cons_star (h : Matches commentAfterStar cs) :
    Matches commentRest ('*' :: cs) := by
  obtain ⟨stars, tail, rfl, hstars, htail⟩ := matches_seq_iff.mp h
  have hatLeast : Matches (atLeastOne (among "*")) ('*' :: stars) := .cons rfl hstars
  exact matches_seq_iff.mpr ⟨[], '*' :: (stars ++ tail), rfl, .done,
    matches_seq_iff.mpr ⟨'*' :: stars, tail, rfl, hatLeast, htail⟩⟩

theorem commentAfterStar_cons_star (h : Matches commentAfterStar cs) :
    Matches commentAfterStar ('*' :: cs) := by
  obtain ⟨stars, tail, rfl, hstars, htail⟩ := matches_seq_iff.mp h
  have hmore : Matches (many (among "*")) (['*'] ++ stars) := .more (.one rfl) hstars
  exact matches_seq_iff.mpr ⟨'*' :: stars, tail, rfl, hmore, htail⟩

theorem commentRest_cons {c : Char} (hc : c ≠ '*') (h : Matches commentRest cs) :
    Matches commentRest (c :: cs) := by
  obtain ⟨others, tail, rfl, hothers, htail⟩ := matches_seq_iff.mp h
  have hmore : Matches (many (except "*")) ([c] ++ others) := .more (.one (by simp [hc])) hothers
  exact matches_seq_iff.mpr ⟨c :: others, tail, rfl, hmore, htail⟩

theorem commentAfterStar_cons {c : Char} (hstar : c ≠ '*') (hslash : c ≠ '/')
    (h : Matches commentRest cs) : Matches commentAfterStar (c :: cs) := by
  obtain ⟨others, _, rfl, hothers, h⟩ := matches_seq_iff.mp h
  obtain ⟨stars, _, rfl, hstars, h⟩ := matches_seq_iff.mp h
  obtain ⟨rounds, tail, rfl, hrounds, htail⟩ := matches_seq_iff.mp h
  have hround : Matches commentRound (c :: (others ++ (stars ++ []))) :=
    .cons (by simp [hstar, hslash]) (.seq hothers (.seq hstars .nothing))
  refine matches_seq_iff.mpr ⟨[], _, rfl, .done, matches_seq_iff.mpr ?_⟩
  exact ⟨_, tail, by simp, .more hround hrounds, htail⟩

/-- A text whose first closing is at its end is the rest of a comment; after an asterisk it
completes one. -/
theorem matches_of_afterClosing :
    (afterClosing false cs = some [] → Matches commentRest cs) ∧
      (afterClosing true cs = some [] → Matches commentAfterStar cs) := by
  induction cs with
  | nil => exact ⟨nofun, nofun⟩
  | cons c cs ih =>
    obtain ⟨ihRest, ihStar⟩ := ih
    by_cases hstar : c = '*'
    · subst hstar
      refine ⟨fun h => commentRest_cons_star (ihStar ?_),
        fun h => commentAfterStar_cons_star (ihStar ?_)⟩
      · simpa [afterClosing] using h
      · simpa [afterClosing] using h
    · have hflag : (c == '*') = false := beq_eq_false_iff_ne.mpr hstar
      refine ⟨fun h => commentRest_cons hstar (ihRest ?_), fun h => ?_⟩
      · simpa [afterClosing, hflag] using h
      · by_cases hslash : c = '/'
        · subst hslash
          obtain rfl : cs = [] := by simpa [afterClosing] using h
          exact .seq .done (.seq .done (.seq (matches_literal_iff.mpr rfl) .nothing))
        · refine commentAfterStar_cons hstar hslash (ihRest ?_)
          simpa [afterClosing, hflag, hslash] using h

theorem matches_commentRest_iff :
    Matches commentRest cs ↔ afterClosing false cs = some [] := by
  constructor
  · intro h
    have hscan := afterClosing_of_matches h []
    rwa [List.append_nil] at hscan
  · intro h
    exact matches_of_afterClosing.1 h

/-- A text without a closing leaves the comment open up to the blank behind it. -/
theorem afterClosing_of_open (star : Bool)
    (h : ¬ ['*', '/'] <:+: (if star then '*' :: cs else cs)) (rest : List Char) :
    afterClosing star (cs ++ ' ' :: rest) = afterClosing false rest := by
  induction cs generalizing star with
  | nil => cases star <;> rfl
  | cons c cs ih =>
    have hopen : ¬ ['*', '/'] <:+: c :: cs := by
      intro hcloses
      cases star with
      | true => exact h (hcloses.trans (List.suffix_cons '*' (c :: cs)).isInfix)
      | false => exact h hcloses
    have hslash : (star && c == '/') = false := by
      cases star with
      | false => rfl
      | true =>
        refine beq_eq_false_iff_ne.mpr ?_
        rintro rfl
        exact h (List.prefix_append ['*', '/'] cs).isInfix
    rw [List.cons_append, afterClosing, hslash]
    refine ih (c == '*') ?_
    by_cases hstar : c = '*'
    · subst hstar
      exact hopen
    · rw [if_neg (by simp [hstar])]
      exact fun hcloses => hopen (hcloses.trans (List.suffix_cons c cs).isInfix)

end CartoStyle.Sheet.Token
