import Mathlib.Data.List.Infix
import Mathlib.Data.List.Sections
import Mathlib.Tactic.Common

/-!
# The query language of the FTS5 index

The right side of `MATCH` is an expression: phrases of strings, near each other, in some columns, joined by `AND`,
`OR` and `NOT`.  Each column of a row is indexed as the list of its tokens.

* `lex`, `parse`             the expression of a text;
* `Expr.holds`               whether a row matches;
* `trigrams`, `termsMatch_trigrams`   under the tokenizer `trigram` a string stands where its characters do;
* `anyOf`, `parse_anyOf`     quoted strings with `OR` between them, `holds_anyOf`: and the rows that match.
-/

namespace Kajet.Fts5

abbrev Text := List Char

/-! ## tokens of an expression -/

inductive Token where
  /-- a bareword, or a text in quotes -/
  | string (bare : Bool) (s : Text)
  | and | or | not
  | lparen | rparen | lbrace | rbrace | colon | comma | plus | star | minus | caret
deriving DecidableEq

def bareword (c : Char) : Bool := 128 ≤ c.toNat || c.isAlphanum || c = '_' || c.toNat = 26

def blank (c : Char) : Bool := c = ' ' || c = '\t' || c = '\n' || c = '\r'

def keyword (w : Text) : Token :=
  if w = ['O', 'R'] then .or else if w = ['A', 'N', 'D'] then .and else if w = ['N', 'O', 'T'] then .not
  else .string true w

def punctuation : Char → Option Token
  | '(' => some .lparen
  | ')' => some .rparen
  | '{' => some .lbrace
  | '}' => some .rbrace
  | ':' => some .colon
  | ',' => some .comma
  | '+' => some .plus
  | '*' => some .star
  | '-' => some .minus
  | '^' => some .caret
  | _ => none

/-- The text up to the closing quote, and what follows it; two quotes are one. -/
def quoted : Text → Option (Text × Text)
  | [] => none
  | '"' :: '"' :: s => (quoted s).map fun x => ('"' :: x.1, x.2)
  | c :: s =>
    if c = '\x00' then none
    else if c = '"' then some ([], s)
    else (quoted s).map fun x => (c :: x.1, x.2)

def lexFrom : ℕ → Text → Option (List Token)
  | _, [] => some []
  | 0, _ :: _ => none
  | fuel + 1, c :: s =>
    if c = '\x00' then some []
    else if blank c then lexFrom fuel s
    else if c = '"' then (quoted s).bind fun x => (lexFrom fuel x.2).map (.string false x.1 :: ·)
    else if bareword c then
      (lexFrom fuel (s.dropWhile bareword)).map (keyword (c :: s.takeWhile bareword) :: ·)
    else (punctuation c).bind fun t => (lexFrom fuel s).map (t :: ·)

def lex (s : Text) : Option (List Token) := lexFrom s.length s

/-! ## expressions -/

/-- Strings with `+` between them; after a star the last token of a string may go on. -/
abbrev Phrase := List (Text × Bool)

structure ColumnFilter where
  inverted : Bool
  names : List Text
deriving DecidableEq

inductive Expr where
  | near (initial : Bool) (phrases : List Phrase) (distance : ℕ)
  | within (filter : ColumnFilter) (e : Expr)
  /-- the implicit `AND` -/
  | both (a b : Expr)
  | and (a b : Expr)
  | or (a b : Expr)
  | not (a b : Expr)
deriving DecidableEq

/-- What a parser finds at the beginning, and the rest. -/
abbrev Parser (α : Type) := List Token → Option (α × List Token)

def parsePhrase : Parser Phrase
  | .string _ s :: .star :: .plus :: ts => (parsePhrase ts).map fun x => ((s, true) :: x.1, x.2)
  | .string _ s :: .star :: ts => some ([(s, true)], ts)
  | .string _ s :: .plus :: ts => (parsePhrase ts).map fun x => ((s, false) :: x.1, x.2)
  | .string _ s :: ts => some ([(s, false)], ts)
  | _ => none

def parsePhrases : ℕ → Parser (List Phrase)
  | 0, _ => none
  | fuel + 1, ts => (parsePhrase ts).bind fun x =>
    match parsePhrases fuel x.2 with
    | some (phrases, rest) => some (x.1 :: phrases, rest)
    | none => some ([x.1], x.2)

def decimal (s : Text) : Option ℕ :=
  s.foldlM (fun n c => if c.isDigit then some (10 * n + (c.toNat - '0'.toNat)) else none) 0

/-- A phrase, or a group of phrases, ten tokens apart if it does not say. -/
def parseNear : Parser Expr
  | .caret :: ts => (parsePhrase ts).map fun x => (.near true [x.1] 10, x.2)
  | .string bare s :: .lparen :: ts =>
    if bare = true ∧ s = ['N', 'E', 'A', 'R'] then (parsePhrases ts.length ts).bind fun x =>
      match x.2 with
      | .rparen :: rest => some (.near false x.1 10, rest)
      | .comma :: .string _ n :: .rparen :: rest => (decimal n).map fun n => (.near false x.1 n, rest)
      | _ => none
    else none
  | ts => (parsePhrase ts).map fun x => (.near false [x.1] 10, x.2)

def columnNames : Parser (List Text)
  | .string _ s :: .rbrace :: ts => some ([s], ts)
  | .string _ s :: ts => (columnNames ts).map fun x => (s :: x.1, x.2)
  | _ => none

/-- With the colon. -/
def parseColumns (ts : List Token) : Option (ColumnFilter × List Token) :=
  let inverted := ts.head? = some .minus
  match if inverted then ts.tail else ts with
  | .lbrace :: ts => (columnNames ts).bind fun x =>
    match x.2 with
    | .colon :: rest => some (⟨inverted, x.1⟩, rest)
    | _ => none
  | .string _ s :: .colon :: rest => some (⟨inverted, [s]⟩, rest)
  | _ => none

def parseItem (ts : List Token) : Option (Expr × List Token) :=
  match parseColumns ts with
  | some (filter, ts) => (parseNear ts).map fun x => (.within filter x.1, x.2)
  | none => parseNear ts

/-- What follows without an operator. -/
def parseItems : ℕ → Expr → List Token → Expr × List Token
  | 0, e, ts => (e, ts)
  | fuel + 1, e, ts =>
    match parseItem ts with
    | some (e', rest) => parseItems fuel (.both e e') rest
    | none => (e, ts)

def parseParen (inner : Parser Expr) (ts : List Token) : Option (Expr × List Token) :=
  (inner ts).bind fun x =>
    match x.2 with
    | .rparen :: rest => some (x.1, rest)
    | _ => none

def parsePrimary (inner : Parser Expr) (ts : List Token) : Option (Expr × List Token) :=
  match ts, parseColumns ts with
  | .lparen :: ts, _ => parseParen inner ts
  | _, some (filter, .lparen :: ts) => (parseParen inner ts).map fun x => (.within filter x.1, x.2)
  | ts, _ => (parseItem ts).map fun x => parseItems x.2.length x.1 x.2

/-- Operators of one precedence, to the left. -/
def chain (op : Token) (make : Expr → Expr → Expr) (operand : Parser Expr) : ℕ → Expr → Parser Expr
  | _, e, [] => some (e, [])
  | 0, e, ts => some (e, ts)
  | fuel + 1, e, t :: ts =>
    if t = op then (operand ts).bind fun x => chain op make operand fuel (make e x.1) x.2 else some (e, t :: ts)

def level (op : Token) (make : Expr → Expr → Expr) (operand : Parser Expr) (ts : List Token) :
    Option (Expr × List Token) := (operand ts).bind fun x => chain op make operand x.2.length x.1 x.2

def parseExpr : ℕ → Parser Expr
  | 0, _ => none
  | fuel + 1, ts => level .or .or (level .and .and (level .not .not (parsePrimary (parseExpr fuel)))) ts

/-- Not a name of the index is an error. -/
def Expr.known (columns : List Text) : Expr → Bool
  | .near .. => true
  | .within filter e => (filter.names.all fun name => columns.any fun c => c.map Char.toLower = name.map Char.toLower) &&
    e.known columns
  | .both a b | .and a b | .or a b | .not a b => a.known columns && b.known columns

def parse (columns : List Text) (s : Text) : Option Expr :=
  (lex s).bind fun ts =>
    match parseExpr ts.length ts with
    | some (e, []) => if e.known columns then some e else none
    | _ => none

/-! ## rows -/

section
variable (tokenize : Text → List Text)

/-- Only the last token of a string may go on. -/
def mark (star : Bool) : List Text → List (Text × Bool)
  | [] => []
  | [t] => [(t, star)]
  | t :: ts => (t, false) :: mark star ts

def terms (phrase : Phrase) : List (Text × Bool) := phrase.flatMap fun x => mark x.2 (tokenize x.1)

def termsMatch : List (Text × Bool) → List Text → Bool
  | [], _ => true
  | _ :: _, [] => false
  | (t, star) :: ts, u :: us => (if star then t.isPrefixOf u else t = u) && termsMatch ts us

/-- Where a phrase stands, with its length; one without tokens stands nowhere. -/
def places (initial : Bool) (phrase : Phrase) (column : List Text) : List (ℕ × ℕ) :=
  let terms := terms tokenize phrase
  if terms = [] then []
  else ((List.range column.length).filter fun i => (!initial || i = 0) && termsMatch terms (column.drop i)).map
    (·, terms.length)

def clump (distance : ℕ) (found : List (ℕ × ℕ)) : Bool :=
  found.all fun x => found.all fun y => y.1 ≤ x.1 + x.2 + distance

namespace Expr

/-- An expression that no token is in. -/
def void : Expr → Bool
  | .near _ phrases _ => phrases.any fun p => terms tokenize p = []
  | .within _ e => e.void
  | .both a b => a.void && b.void
  | .and .. | .or .. | .not .. => false

def holds : Expr → List (Text × Text) → Bool
  | .near initial phrases distance, row => row.any fun column =>
    (phrases.map fun p => places tokenize initial p (tokenize column.2)).sections.any (clump distance)
  | .within filter e, row => e.holds <| row.filter fun column =>
    (filter.names.any fun name => column.1.map Char.toLower = name.map Char.toLower) != filter.inverted
  | .both a b, row => if b.void tokenize then a.holds row else if a.void tokenize then b.holds row
    else a.holds row && b.holds row
  | .and a b, row => a.holds row && b.holds row
  | .or a b, row => a.holds row || b.holds row
  | .not a b, row => a.holds row && !b.holds row

end Expr
end

/-! ## three characters at a time -/

def trigrams : Text → List Text
  | a :: b :: c :: s => [a, b, c] :: trigrams (b :: c :: s)
  | _ => []

/-- The tokenizer `trigram`, by folded characters. -/
def trigram (fold : Char → Char) (s : Text) : List Text := trigrams (s.map fold)

variable {s t : Text} {fold : Char → Char}

theorem trigrams_tail (c : Char) (s : Text) : (trigrams (c :: s)).tail = trigrams s := by
  match s with
  | [] => rfl
  | [_] => rfl
  | _ :: _ :: _ => rfl

theorem drop_trigrams (s : Text) (i : ℕ) : (trigrams s).drop i = trigrams (s.drop i) := by
  induction i generalizing s with
  | zero => rfl
  | succ i ih =>
    cases s with
    | nil => rfl
    | cons c s => rw [← List.drop_tail, trigrams_tail, List.drop_succ_cons, ih]

theorem mark_false (ts : List Text) : mark false ts = ts.map (·, false) := by
  induction ts with
  | nil => rfl
  | cons t ts ih =>
    cases ts with
    | nil => rfl
    | cons u ts =>
      rw [mark, ih, List.map_cons (l := u :: ts)]
      exact List.cons_ne_nil u ts

/-- **A string of three characters or more stands where its characters do.** -/
theorem termsMatch_trigrams (h : 3 ≤ s.length) :
    termsMatch ((trigrams s).map (·, false)) (trigrams t) = true ↔ s <+: t := by
  induction s generalizing t with
  | nil => simp at h
  | cons a s ih =>
    obtain ⟨b, c, s, rfl⟩ : ∃ b c s', s = b :: c :: s' := by
      match s, h with
      | b :: c :: s', _ => exact ⟨b, c, s', rfl⟩
    match t with
    | [] => simp [trigrams, termsMatch]
    | [x] => simp [trigrams, termsMatch]
    | [x, y] => simp [trigrams, termsMatch]
    | x :: y :: z :: t =>
      have hstep : termsMatch ((trigrams (a :: b :: c :: s)).map (·, false)) (trigrams (x :: y :: z :: t)) =
          (decide ([a, b, c] = [x, y, z]) &&
            termsMatch ((trigrams (b :: c :: s)).map (·, false)) (trigrams (y :: z :: t))) := rfl
      rw [hstep, Bool.and_eq_true, decide_eq_true_eq, List.cons_prefix_cons]
      cases s with
      | nil => simp [trigrams, termsMatch]
      | cons d s =>
        have hpre : [a, b, c] = [x, y, z] ∧ b :: c :: d :: s <+: y :: z :: t ↔
            a = x ∧ b :: c :: d :: s <+: y :: z :: t := by
          simp only [List.cons.injEq, List.cons_prefix_cons]
          tauto
        rw [ih (by simp), hpre]

theorem infix_iff_drop : s <:+: t ↔ ∃ i, s <+: t.drop i := by
  rw [List.infix_iff_prefix_suffix]
  constructor
  · rintro ⟨u, hsu, hut⟩
    exact ⟨_, List.suffix_iff_eq_drop.mp hut ▸ hsu⟩
  · exact fun ⟨i, hi⟩ => ⟨_, hi, List.drop_suffix i t⟩

/-! ## one of some texts -/

def quote (s : Text) : Text := '"' :: s ++ ['"']

/-- The texts in quotes, with `OR` between them. -/
def anyOf (ts : List Text) : Text := List.intercalate [' ', 'O', 'R', ' '] (ts.map quote)

def single (s : Text) : Expr := .near false [[(s, false)]] 10

def disjunction (ts : List Text) : Expr := (ts.tail.map single).foldl .or (single (ts.headD []))

/-- A text that means itself between quotes. -/
def Quotable (s : Text) : Prop := ∀ c ∈ s, c ≠ '"' ∧ c ≠ '\x00'

section
variable {rest : Text} {ts : List Text} {fuel : ℕ}

theorem quoted_append (h : Quotable s) (hrest : rest.head? ≠ some '"') : quoted (s ++ '"' :: rest) = some (s, rest) := by
  induction s with
  | nil =>
    rw [List.nil_append, quoted, if_neg (by decide), if_pos rfl]
    exact fun _ _ heq => hrest (congrArg List.head? heq)
  | cons c s ih =>
    obtain ⟨hc, hnul⟩ := h c List.mem_cons_self
    rw [List.cons_append, quoted, if_neg hnul, if_neg hc, ih fun d hd => h d (List.mem_cons_of_mem c hd)]
    · rfl
    · exact fun _ heq _ => hc heq

theorem lexFrom_quote (h : Quotable s) (hrest : rest.head? ≠ some '"') :
    lexFrom (fuel + 1) (quote s ++ rest) = (lexFrom fuel rest).map (.string false s :: ·) := by
  have hquote : quote s ++ rest = '"' :: (s ++ '"' :: rest) := by
    rw [quote, List.append_assoc]
    rfl
  rw [hquote, lexFrom, if_neg (by decide), if_neg (by decide), if_pos rfl, quoted_append h hrest]
  rfl

theorem lexFrom_or : lexFrom (fuel + 3) (' ' :: 'O' :: 'R' :: ' ' :: rest) = (lexFrom fuel rest).map (.or :: ·) := by
  rw [lexFrom, if_neg (by decide), if_pos (by decide), lexFrom, if_neg (by decide), if_neg (by decide),
    if_neg (by decide), if_pos (by decide)]
  show (lexFrom (fuel + 1) (' ' :: rest)).map (keyword ['O', 'R'] :: ·) = _
  rw [lexFrom, if_neg (by decide), if_pos (by decide)]
  rfl

theorem anyOf_cons_cons (s t : Text) (ts : List Text) :
    anyOf (s :: t :: ts) = quote s ++ ([' ', 'O', 'R', ' '] ++ anyOf (t :: ts)) := by
  rw [anyOf, anyOf, List.map_cons, List.map_cons, List.intercalate_cons_cons, List.append_assoc]

theorem lexFrom_anyOf (h : ∀ s ∈ ts, Quotable s) (hfuel : (anyOf ts).length ≤ fuel) :
    lexFrom fuel (anyOf ts) = some ((ts.map (Token.string false)).intersperse .or) := by
  induction ts generalizing fuel with
  | nil => cases fuel <;> rfl
  | cons s ts ih =>
    have hs := h s List.mem_cons_self
    cases ts with
    | nil =>
      obtain ⟨fuel, rfl⟩ : ∃ n, fuel = n + 1 := ⟨fuel - 1, by simp [anyOf, quote] at hfuel; omega⟩
      have hone : anyOf [s] = quote s ++ [] := by rw [anyOf, List.map_singleton, List.intercalate_singleton, List.append_nil]
      rw [hone, lexFrom_quote hs (by simp)]
      cases fuel <;> rfl
    | cons t ts =>
      rw [anyOf_cons_cons] at hfuel ⊢
      simp only [quote, List.length_append, List.length_cons, List.length_nil] at hfuel
      obtain ⟨fuel, rfl⟩ : ∃ n, fuel = n + 3 + 1 := ⟨fuel - 4, by omega⟩
      rw [lexFrom_quote hs (by simp)]
      show (lexFrom (fuel + 3) (' ' :: 'O' :: 'R' :: ' ' :: anyOf (t :: ts))).map _ = _
      rw [lexFrom_or, ih (fun x hx => h x (List.mem_cons_of_mem s hx)) (by omega)]
      rfl

theorem lex_anyOf (h : ∀ s ∈ ts, Quotable s) : lex (anyOf ts) = some ((ts.map (Token.string false)).intersperse .or) :=
  lexFrom_anyOf h le_rfl

/-! ### the expression -/

/-- Where the operand of an `OR` ends. -/
def Ends (ts : List Token) : Prop := ts = [] ∨ ∃ rest, ts = .or :: rest

variable {toks : List Token} {inner : Parser Expr}

theorem parsePrimary_string (h : Ends toks) : parsePrimary inner (.string false s :: toks) = some (single s, toks) := by
  obtain rfl | ⟨rest, rfl⟩ := h
  · rfl
  · rfl

theorem chain_ends {op : Token} {make : Expr → Expr → Expr} {operand : Parser Expr} {e : Expr} (hop : op ≠ .or)
    (h : Ends toks) : chain op make operand fuel e toks = some (e, toks) := by
  obtain rfl | ⟨rest, rfl⟩ := h
  · rw [chain]
  · cases fuel with
    | zero => rfl
    | succ fuel => rw [chain, if_neg hop.symm]

theorem operand_string (h : Ends toks) :
    level .and .and (level .not .not (parsePrimary inner)) (.string false s :: toks) = some (single s, toks) := by
  rw [level, level, parsePrimary_string h, Option.bind_some, chain_ends (by decide) h, Option.bind_some,
    chain_ends (by decide) h]

theorem intersperse_ends (toks : List Token) :
    ∃ rest, Ends rest ∧ ∀ t : Token, (t :: toks).intersperse .or = t :: rest := by
  cases toks with
  | nil => exact ⟨[], .inl rfl, fun _ => rfl⟩
  | cons u toks => exact ⟨_, .inr ⟨_, rfl⟩, fun _ => rfl⟩

theorem chain_disjunction {operand : Parser Expr}
    (hoperand : ∀ s toks, Ends toks → operand (.string false s :: toks) = some (single s, toks))
    (hfuel : ts.length ≤ fuel) (e : Expr) :
    chain .or .or operand fuel e (ts.flatMap fun t => [.or, .string false t]) =
      some ((ts.map single).foldl .or e, []) := by
  induction ts generalizing fuel e with
  | nil => cases fuel <;> rfl
  | cons t ts ih =>
    obtain ⟨fuel, rfl⟩ : ∃ n, fuel = n + 1 := ⟨fuel - 1, by rw [List.length_cons] at hfuel; omega⟩
    have hends : Ends (ts.flatMap fun t => [.or, .string false t]) := by
      cases ts with
      | nil => exact .inl rfl
      | cons u ts => exact .inr ⟨_, rfl⟩
    show chain .or .or operand (fuel + 1) e (.or :: .string false t :: ts.flatMap _) = _
    rw [chain, if_pos rfl, hoperand t _ hends]
    exact ih (by rw [List.length_cons] at hfuel; omega) _

theorem intersperse_eq (s : Text) (ts : List Text) : ((s :: ts).map (Token.string false)).intersperse .or =
    .string false s :: ts.flatMap fun t => [.or, .string false t] := by
  induction ts generalizing s with
  | nil => rfl
  | cons t ts ih =>
    show .string false s :: .or :: ((t :: ts).map (Token.string false)).intersperse .or = _
    rw [ih]
    rfl

theorem ends_flatMap (ts : List Text) : Ends (ts.flatMap fun t => [.or, .string false t]) := by
  cases ts with
  | nil => exact .inl rfl
  | cons t ts => exact .inr ⟨_, rfl⟩

theorem length_le_flatMap (ts : List Text) : ts.length ≤ (ts.flatMap fun t => [Token.or, .string false t]).length := by
  induction ts with
  | nil => exact le_rfl
  | cons t ts ih =>
    show ts.length + 1 ≤ (ts.flatMap fun t => [Token.or, .string false t]).length + 2
    omega

theorem known_foldl {columns : List Text} {e : Expr} (he : e.known columns = true) (ts : List Text) :
    ((ts.map single).foldl .or e).known columns = true := by
  induction ts generalizing e with
  | nil => exact he
  | cons t ts ih => exact ih (by rw [Expr.known, he]; rfl)

/-- **What is between the quotes is never an operator.** -/
theorem parse_anyOf {columns : List Text} (h : ∀ s ∈ ts, Quotable s) (hne : ts ≠ []) :
    parse columns (anyOf ts) = some (disjunction ts) := by
  obtain ⟨s, ts, rfl⟩ := List.exists_cons_of_ne_nil hne
  rw [parse, lex_anyOf h, Option.bind_some, intersperse_eq, List.length_cons, parseExpr, level,
    operand_string (ends_flatMap ts), Option.bind_some,
    chain_disjunction (fun s toks hends => operand_string hends) (length_le_flatMap ts)]
  exact if_pos (known_foldl rfl ts)

/-! ### the rows -/

theorem holds_foldl {tokenize : Text → List Text} {row : List (Text × Text)} (e : Expr) :
    ((ts.map single).foldl .or e).holds tokenize row = true ↔
      e.holds tokenize row = true ∨ ∃ t ∈ ts, (single t).holds tokenize row = true := by
  induction ts generalizing e with
  | nil => simp
  | cons t ts ih =>
    rw [List.map_cons, List.foldl_cons, ih, Expr.holds, Bool.or_eq_true, or_assoc]
    simp only [List.mem_cons, exists_eq_or_imp]

theorem places_ne_nil {column : Text} (h : 3 ≤ s.length) :
    places (trigram fold) false [(s, false)] (trigram fold column) ≠ [] ↔ s.map fold <:+: column.map fold := by
  have hterms : terms (trigram fold) [(s, false)] = (trigram fold s).map (·, false) := by
    rw [terms, List.flatMap_singleton, mark_false]
  have hne : (trigram fold s).map (·, false) ≠ ([] : List (Text × Bool)) := by
    match s, h with
    | a :: b :: c :: s, _ => exact List.cons_ne_nil _ _
  have hlen : 3 ≤ (s.map fold).length := by rwa [List.length_map]
  rw [places, hterms, if_neg hne, infix_iff_drop, Ne, List.map_eq_nil_iff, List.filter_eq_nil_iff]
  push Not
  have hat : ∀ i, termsMatch ((trigram fold s).map (·, false)) ((trigram fold column).drop i) = true ↔
      s.map fold <+: (column.map fold).drop i := fun i => by
    rw [trigram, trigram, drop_trigrams, termsMatch_trigrams hlen]
  constructor
  · rintro ⟨i, -, hi⟩
    exact ⟨i, (hat i).mp hi⟩
  · rintro ⟨i, hi⟩
    refine ⟨i, List.mem_range.mpr ?_, (hat i).mpr hi⟩
    -- behind the last token no string stands
    by_contra hout
    have hnil : (trigram fold column).drop i = [] := List.drop_eq_nil_of_le (by omega)
    have hmatch := (hat i).mpr hi
    rw [hnil] at hmatch
    obtain ⟨x, xs, hxs⟩ := List.exists_cons_of_ne_nil hne
    rw [hxs] at hmatch
    cases hmatch

theorem holds_single {row : List (Text × Text)} (h : 3 ≤ s.length) :
    (single s).holds (trigram fold) row = true ↔ ∃ column ∈ row, s.map fold <:+: column.2.map fold := by
  rw [single, Expr.holds, List.any_eq_true]
  refine exists_congr fun column => and_congr_right fun _ => ?_
  rw [← places_ne_nil h, List.map_singleton]
  generalize places (trigram fold) false [(s, false)] (trigram fold column.2) = found
  cases found with
  | nil => simp
  | cons x xs =>
    refine iff_of_true (List.any_eq_true.mpr ⟨[x], by simp, ?_⟩) (List.cons_ne_nil x xs)
    simp only [clump, List.all_cons, List.all_nil, Bool.and_true, decide_eq_true_eq]
    omega

/-- **The rows that match**: they have one of the texts in a column. -/
theorem holds_anyOf {columns : List Text} {row : List (Text × Text)} (h : ∀ s ∈ ts, Quotable s ∧ 3 ≤ s.length)
    (hne : ts ≠ []) : ∃ e, parse columns (anyOf ts) = some e ∧
      (e.holds (trigram fold) row = true ↔ ∃ s ∈ ts, ∃ column ∈ row, s.map fold <:+: column.2.map fold) := by
  refine ⟨_, parse_anyOf (fun s hs => (h s hs).1) hne, ?_⟩
  obtain ⟨s, ts, rfl⟩ := List.exists_cons_of_ne_nil hne
  rw [disjunction, List.tail_cons, holds_foldl, List.headD_cons, holds_single (h s List.mem_cons_self).2]
  simp only [List.mem_cons, exists_eq_or_imp]
  refine or_congr_right (exists_congr fun t => and_congr_right fun ht => ?_)
  exact holds_single (h t (List.mem_cons_of_mem s ht)).2

example : parse [] "a b* OR NOT".toList = none ∧ parse ["title".toList] "title : (a NOT \"OR\")".toList =
    some (.within ⟨false, ["title".toList]⟩ (.not (.near false [[("a".toList, false)]] 10) (single "OR".toList))) := by
  decide

end

end Kajet.Fts5
