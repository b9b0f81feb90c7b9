import CartoStyle.Sheet.Nesting

/-!
The grammar of stylesheets over tokens that are no trivia, with the block tree
of each derivation. A header is a run of header tokens that names at least one
alternative. A body holds properties, blocks, and runs of titles that belong
to no block; a stylesheet holds directives in place of properties. A run of
titles ends where neither a header token nor an opening brace follows, so it
is never a part of a longer header and every header is a maximal run.
-/

namespace CartoStyle.Sheet

namespace Token

def asSelector? : Token → Option String
  | selector text | pseudoSelector text => some text
  | _ => none

def asTitle? : Token → Option String
  | title text => some text
  | _ => none

def asMode? : Token → Option String
  | mode text => some text
  | _ => none

def asStyleTitle? : Token → Option String
  | styleTitle text => some text
  | _ => none

def asStyleAbstract? : Token → Option String
  | styleAbstract text => some text
  | _ => none

end Token

/-- The alternatives of a header: between its commas, the texts of its selectors joined.
Empty ones are left out. -/
def alternativesOf (header : List Token) : List String :=
  ((header.splitOn .comma).map fun piece =>
    String.join (piece.filterMap Token.asSelector?)).filter (!·.isEmpty)

/-- The title of a header is its last one. -/
def titleOf? (header : List Token) : Option String := (header.filterMap Token.asTitle?).getLast?

/-- The values that some declarations give to each key; the last declaration of a key counts. -/
def declared (ps : List Property) : KeyMap (List String) :=
  KeyMap.ofList (ps.map fun p => (p.key, p.values))

/-- The values of a key are those of its last declaration. -/
theorem get?_declared (ps : List Property) (key : String) :
    (declared ps).get? key = ((ps.filter (·.key == key)).getLast?).map (·.values) := by
  rw [declared, KeyMap.get?_ofList, List.filter_map, List.getLast?_map, Option.map_map]
  rfl

/-- What some tokens say about the whole style; the last directive of a kind counts. -/
def Directives.ofTokens (ts : List Token) : Directives where
  mode := (ts.filterMap Token.asMode?).getLast?
  title := (ts.filterMap Token.asStyleTitle?).getLast?
  abstract := (ts.filterMap Token.asStyleAbstract?).getLast?

/-- Tokens that may stand in front of a block and name at least one alternative. -/
structure IsHeader (header : List Token) : Prop where
  members : ∀ t ∈ header, t.isHeader = true
  selects : ∃ t ∈ header, ∃ text, t.asSelector? = some text ∧ text ≠ ""

/-- No header goes on here and no block opens. -/
def EndsHeader (ts : List Token) : Prop :=
  ∀ t, ts.head? = some t → t.isHeader = false ∧ t ≠ .openBrace

/-- The tokens between the braces of a block, with its declarations and its children. The
numbers are the level of the children and the last identifiers before and after them. -/
inductive Body (group : Nat) :
    (level last : Nat) → List Token → List Property → List Block → (next : Nat) → Prop
  | nil {level last : Nat} : Body group level last [] [] [] last
  | property {level last next : Nat} {ts : List Token} {ps : List Property} {bs : List Block}
      (p : Property) (h : Body group level last ts ps bs next) :
      Body group level last (.property p :: ts) (p :: ps) bs next
  | titles {level last next : Nat} {ts : List Token} {ps : List Property} {bs : List Block}
      {run : List String} (hrun : run ≠ []) (hend : EndsHeader ts)
      (h : Body group level last ts ps bs next) :
      Body group level last (run.map .title ++ ts) ps bs next
  | block {level last mid next : Nat} {header inner ts : List Token} {ps qs : List Property}
      {cs bs : List Block} (hheader : IsHeader header)
      (hinner : Body group (level + 1) (last + 1) inner ps cs mid)
      (h : Body group level mid ts qs bs next) :
      Body group level last (header ++ .openBrace :: (inner ++ .closeBrace :: ts)) qs
        ({ selectors := alternativesOf header, title := titleOf? header,
           properties := declared ps, level, group, id := last + 1, children := cs } :: bs) next

/-- The tokens of a stylesheet, with its top-level blocks. The number is the group of the
first of them. -/
inductive Items : (group : Nat) → List Token → List Block → Prop
  | nil {group : Nat} : Items group [] []
  | directive {group : Nat} {t : Token} {ts : List Token} {bs : List Block}
      (ht : t.isDirective = true) (h : Items group ts bs) : Items group (t :: ts) bs
  | titles {group : Nat} {ts : List Token} {bs : List Block} {run : List String}
      (hrun : run ≠ []) (hend : EndsHeader ts) (h : Items group ts bs) :
      Items group (run.map .title ++ ts) bs
  | block {group next : Nat} {header inner ts : List Token} {ps : List Property}
      {cs bs : List Block} (hheader : IsHeader header)
      (hinner : Body group 2 1 inner ps cs next) (h : Items (group + 1) ts bs) :
      Items group (header ++ .openBrace :: (inner ++ .closeBrace :: ts))
        ({ selectors := alternativesOf header, title := titleOf? header,
           properties := declared ps, level := 1, group, id := 1, children := cs } :: bs)

/-- The tokens are those of a stylesheet with this block tree and these directives. -/
structure Derives (ts : List Token) (sheet : Stylesheet) : Prop where
  items : Items 0 ts sheet.blocks
  directives : sheet.directives = Directives.ofTokens ts

end CartoStyle.Sheet
