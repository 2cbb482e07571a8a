import Mathlib.Data.List.Infix
import Mathlib.Tactic.Common

/-!
# The `GLOB` operator

`x GLOB pattern`: `*` stands for any text, `?` for one character, a class in brackets for one of its characters
(or, after `^`, for none of them); every other character stands for itself, with its case.

* `compile`, `glob`     the pattern by tokens, and the match;
* `glob_below`          a text without these characters, before `/*`, is a test of how a path begins.
-/

namespace Kajet.Glob

inductive Token where
  | literal (c : Char)
  | one
  | many
  | oneOf (inverted : Bool) (ranges : List (Char × Char))
deriving DecidableEq

/-- The ranges of a class and what follows its end; `prior`: the character before a hyphen. -/
def classFrom : Option Char → List Char → Option (List (Char × Char) × List Char)
  | _, [] => none
  | _, ']' :: p => some ([], p)
  | some _, '-' :: ']' :: p => some ([('-', '-')], p)
  | some a, '-' :: d :: p => (classFrom none p).map fun x => ((a, d) :: x.1, x.2)
  | _, c :: p => (classFrom (some c) p).map fun x => ((c, c) :: x.1, x.2)

/-- A bracket right after the opening one is a character of the class. -/
def classOf (p : List Char) : Option (Token × List Char) :=
  let inverted := p.head? = some '^'
  let p := if inverted then p.tail else p
  if p.head? = some ']' then
    (classFrom none p.tail).map fun x => (.oneOf inverted ((']', ']') :: x.1), x.2)
  else (classFrom none p).map fun x => (.oneOf inverted x.1, x.2)

/-- A class that does not end matches nothing. -/
def compileFrom : ℕ → List Char → Option (List Token)
  | _, [] => some []
  | 0, _ :: _ => none
  | fuel + 1, c :: p =>
    if c = '*' then (compileFrom fuel p).map (.many :: ·)
    else if c = '?' then (compileFrom fuel p).map (.one :: ·)
    else if c = '[' then (classOf p).bind fun x => (compileFrom fuel x.2).map (x.1 :: ·)
    else (compileFrom fuel p).map (.literal c :: ·)

def compile (p : List Char) : Option (List Token) := compileFrom p.length p

def matchTokens : List Token → List Char → Bool
  | [], t => t.isEmpty
  | .literal _ :: _, [] => false
  | .literal c :: p, d :: t => c = d && matchTokens p t
  | .one :: _, [] => false
  | .one :: p, _ :: t => matchTokens p t
  | .oneOf .. :: _, [] => false
  | .oneOf inverted ranges :: p, d :: t =>
    (ranges.any fun r => r.1.toNat ≤ d.toNat && d.toNat ≤ r.2.toNat) != inverted && matchTokens p t
  | .many :: p, t => t.tails.any (matchTokens p)

def glob (pattern t : List Char) : Bool := (compile pattern).any fun p => matchTokens p t

/-- No character of the text means anything in a pattern. -/
def Plain (t : List Char) : Prop := ∀ c ∈ t, c ≠ '*' ∧ c ≠ '?' ∧ c ≠ '['

instance (t : List Char) : Decidable (Plain t) := List.decidableBAll _ t

variable {t s : List Char}

theorem compileFrom_plain (ht : Plain t) (fuel : ℕ) (rest : List Char) :
    compileFrom (t.length + fuel) (t ++ rest) = (compileFrom fuel rest).map (t.map .literal ++ ·) := by
  induction t with
  | nil => simp
  | cons c t ih =>
    obtain ⟨hstar, hmark, hbracket⟩ := ht c List.mem_cons_self
    have hlen : (c :: t).length + fuel = t.length + fuel + 1 := by
      rw [List.length_cons]
      omega
    rw [hlen, List.cons_append, compileFrom, if_neg hstar, if_neg hmark, if_neg hbracket,
      ih fun d hd => ht d (List.mem_cons_of_mem _ hd), Option.map_map]
    rfl

theorem matchTokens_many (t : List Char) : matchTokens [.many] t = true := by
  rw [matchTokens, List.any_eq_true]
  exact ⟨[], (List.mem_tails _ _).mpr List.nil_suffix, rfl⟩

theorem matchTokens_literals : matchTokens (t.map .literal ++ [.many]) s = true ↔ t <+: s := by
  induction t generalizing s with
  | nil => simp [matchTokens_many]
  | cons c t ih =>
    cases s with
    | nil => simp [matchTokens]
    | cons d s => simp [matchTokens, ih]

theorem glob_plain (ht : Plain t) : glob (t ++ ['*']) s = true ↔ t <+: s := by
  have hcompile : compile (t ++ ['*']) = some (t.map .literal ++ [.many]) := by
    rw [compile, List.length_append, compileFrom_plain ht]
    rfl
  rw [glob, hcompile]
  exact matchTokens_literals

/-- **The paths below a path.** -/
theorem glob_below (ht : Plain t) : glob (t ++ ['/', '*']) s = true ↔ t ++ ['/'] <+: s := by
  have hplain : Plain (t ++ ['/']) := fun c hc => by
    rcases List.mem_append.mp hc with hc | hc
    · exact ht c hc
    · rw [List.mem_singleton.mp hc]
      decide
  rw [← glob_plain hplain, List.append_assoc]
  rfl

example : glob "a[0-9]/*".toList "a7/x".toList = true ∧ ¬ Plain "a[0-9]".toList := by decide

end Kajet.Glob
