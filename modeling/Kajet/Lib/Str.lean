import Mathlib.Data.List.DropRight
import Mathlib.Data.List.Basic
import Mathlib.Tactic.Common

/-!
# Python's `str` operations on lists of characters

* `strip`, `stripChars`      `s.strip()`, `s.strip(chars)`; `rstripChars` is `s.rstrip(chars)`;
* `partition`, `rpartition`  the parts around the first and around the last separator;
* `split`, `join`            `s.split(c)` and `c.join(parts)` for one character;
* `removePrefix`, `endsWith`.

The sections below say when `strip` changes nothing, where the separators of `partition` are, and
which characters `join` and `split` have.
-/

namespace Kajet.Str

/-- A Python string: its code points. -/
abbrev Text := List Char

instance lawfulBEqText : LawfulBEq Text := inferInstance

instance lawfulBEqTexts : LawfulBEq (Text × Text) := inferInstance

instance {p : Char → Prop} [DecidablePred p] (s : Text) : Decidable (∀ c ∈ s, p c) := List.decidableBAll p s

/-- `str.isspace` of one character. -/
def isSpace (c : Char) : Bool :=
  let n := c.toNat
  (9 ≤ n && n ≤ 13) || (28 ≤ n && n ≤ 32) || n = 0x85 || n = 0xa0 || n = 0x1680 ||
    (0x2000 ≤ n && n ≤ 0x200a) || n = 0x2028 || n = 0x2029 || n = 0x202f || n = 0x205f || n = 0x3000

/-- What `strip` leaves of `s` when it removes the characters that `p` selects. -/
def stripBy (p : Char → Bool) (s : Text) : Text := (s.dropWhile p).rdropWhile p

def strip (s : Text) : Text := stripBy isSpace s

def stripChars (chars : List Char) (s : Text) : Text := stripBy (· ∈ chars) s

def rstripChars (chars : List Char) (s : Text) : Text := s.rdropWhile (· ∈ chars)

/-- `s.partition(c)` without the separator; the tail is empty when there is none. -/
def partition (c : Char) (s : Text) : Text × Text :=
  (s.takeWhile (· ≠ c), (s.dropWhile (· ≠ c)).tail)

/-- `s.rpartition(c)` without the separator; the head is empty when there is none. -/
def rpartition (c : Char) (s : Text) : Text × Text :=
  ((s.rdropWhile (· ≠ c)).dropLast, s.rtakeWhile (· ≠ c))

def split (c : Char) (s : Text) : List Text := s.splitOn c

def join (c : Char) (parts : List Text) : Text := List.intercalate [c] parts

/-- `s.removeprefix(p)` when `s` has the prefix. -/
def removePrefix (p s : Text) : Option Text := if p.isPrefixOf s then some (s.drop p.length) else none

def endsWith (s suffix : Text) : Bool := suffix.isSuffixOf s

/-- `s.replace` of every run of spaces by one: `re.sub(r" +", " ", s)`. -/
def collapseSpaces : Text → Text
  | ' ' :: ' ' :: s => collapseSpaces (' ' :: s)
  | c :: s => c :: collapseSpaces s
  | [] => []

/-! ## strip -/

section
variable {p : Char → Bool} {s t : Text} {c : Char}

theorem stripBy_sublist : (stripBy p s).Sublist s :=
  (List.rdropWhile_prefix p _).sublist.trans (List.dropWhile_sublist p)

theorem mem_of_mem_strip (h : c ∈ strip s) : c ∈ s := stripBy_sublist.subset h

theorem dropWhile_eq_self : s.dropWhile p = s ↔ ∀ c, s.head? = some c → p c = false := by
  cases s with
  | nil => simp
  | cons c s =>
    rw [List.dropWhile_cons]
    cases hc : p c with
    | false => simp [hc]
    | true =>
      have hlen := (List.dropWhile_sublist p (l := s)).length_le
      constructor
      · intro h
        have := congrArg List.length h
        simp at this
        omega
      · intro h
        simpa [hc] using h c rfl

theorem rdropWhile_eq_self : s.rdropWhile p = s ↔ ∀ c, s.getLast? = some c → p c = false := by
  rw [List.rdropWhile_eq_self_iff]
  constructor
  · intro h c hc
    have hne : s ≠ [] := List.ne_nil_of_mem (List.mem_of_getLast? hc)
    rw [List.getLast?_eq_some_getLast hne] at hc
    cases hc
    simpa using h hne
  · intro h hne
    simpa using h _ (List.getLast?_eq_some_getLast hne)

/-- A text is stripped when no character that `p` selects stands at one of its ends. -/
theorem stripBy_eq_self : stripBy p s = s ↔
    (∀ c, s.head? = some c → p c = false) ∧ ∀ c, s.getLast? = some c → p c = false := by
  constructor
  · intro h
    have hlen := congrArg List.length h
    have h1 := (List.rdropWhile_prefix (p := p) (l := s.dropWhile p)).length_le
    have h2 := (List.dropWhile_suffix p (l := s)).length_le
    have hdrop : s.dropWhile p = s :=
      (List.dropWhile_suffix p).eq_of_length (by rw [stripBy] at hlen; omega)
    rw [stripBy, hdrop] at h
    exact ⟨dropWhile_eq_self.mp hdrop, rdropWhile_eq_self.mp h⟩
  · rintro ⟨hhead, hlast⟩
    rw [stripBy, dropWhile_eq_self.mpr hhead, rdropWhile_eq_self.mpr hlast]

@[simp] theorem stripBy_nil : stripBy p [] = [] := rfl

@[simp] theorem stripBy_stripBy : stripBy p (stripBy p s) = stripBy p s := by
  refine stripBy_eq_self.mpr ⟨?_, ?_⟩
  · intro c hc
    obtain ⟨post, hpost⟩ := List.rdropWhile_prefix p (s.dropWhile p)
    have hhead : (s.dropWhile p).head? = some c := by
      rw [← hpost, List.head?_append, Option.or_eq_some_iff]
      exact .inl hc
    exact dropWhile_eq_self.mp (List.dropWhile_idempotent p s) c hhead
  · exact rdropWhile_eq_self.mp (List.rdropWhile_idempotent p (s.dropWhile p))

theorem rdropWhile_append (s t : Text) :
    (s ++ t).rdropWhile p = if t.rdropWhile p = [] then s.rdropWhile p else s ++ t.rdropWhile p := by
  rw [List.rdropWhile, List.reverse_append, List.dropWhile_append, List.rdropWhile]
  by_cases ht : t.reverse.dropWhile p = []
  · simp [ht, List.rdropWhile]
  · simp [ht]

/-- A character that stays keeps what is before it. -/
theorem rdropWhile_append_cons (hc : p c = false) (s t : Text) :
    (s ++ c :: t).rdropWhile p = s ++ c :: t.rdropWhile p := by
  induction t using List.reverseRecOn with
  | nil => exact List.rdropWhile_concat_neg p s c (by simp [hc])
  | append_singleton t x ih =>
    rw [← List.cons_append, ← List.append_assoc]
    by_cases hx : p x = true
    · rw [List.rdropWhile_concat_pos p _ x hx, List.rdropWhile_concat_pos p _ x hx, ih]
    · rw [List.rdropWhile_concat_neg p _ x hx, List.rdropWhile_concat_neg p _ x hx, List.append_assoc]
      rfl

/-- What follows a character that stays, stays. -/
theorem stripBy_append_cons (hc : p c = false) (hlast : ∀ x, t.getLast? = some x → p x = false) :
    ∃ r, stripBy p (s ++ c :: t) = r ++ c :: t := by
  have hdrop : ∃ r, (s ++ c :: t).dropWhile p = r ++ c :: t := by
    induction s with
    | nil => exact ⟨[], List.dropWhile_cons_of_neg (by simp [hc])⟩
    | cons x s ih =>
      rw [List.cons_append, List.dropWhile_cons]
      split
      · exact ih
      · exact ⟨x :: s, rfl⟩
  obtain ⟨r, hr⟩ := hdrop
  refine ⟨r, ?_⟩
  rw [stripBy, hr]
  refine rdropWhile_eq_self.mpr fun x hx => ?_
  rw [List.getLast?_append, List.getLast?_cons, Option.some_or] at hx
  cases hx
  cases ht : t.getLast? with
  | none => exact hc
  | some x => exact hlast x ht

theorem strip_eq_nil : strip s = [] ↔ ∀ x ∈ s, isSpace x = true := by
  rw [strip, stripBy, List.rdropWhile_eq_nil_iff]
  constructor
  · intro h
    rw [← List.dropWhile_eq_nil_iff]
    cases hs : s.dropWhile isSpace with
    | nil => rfl
    | cons x r =>
      have hx := dropWhile_eq_self.mp (List.dropWhile_idempotent isSpace s) x (by rw [hs]; rfl)
      rw [h x (by rw [hs]; exact List.mem_cons_self)] at hx
      cases hx
  · exact fun h x hx => h x ((List.dropWhile_sublist _).subset hx)

@[simp] theorem strip_strip : strip (strip s) = strip s := stripBy_stripBy

/-! ## partition -/

theorem ne_of_notMem (h : c ∉ s) : ∀ x ∈ s, decide (x ≠ c) = true := by
  rintro x hx
  apply decide_eq_true
  rintro rfl
  exact h hx

theorem partition_append (h : c ∉ s) : partition c (s ++ c :: t) = (s, t) := by
  have hne := ne_of_notMem h
  rw [partition, List.takeWhile_append_of_pos hne, List.dropWhile_append_of_pos hne]
  simp

theorem eq_partition_append (h : c ∈ s) : s = (partition c s).1 ++ c :: (partition c s).2 := by
  obtain ⟨a, b, rfl, ha⟩ := List.eq_append_cons_of_mem h
  rw [partition_append ha]

/-- The last separator. -/
theorem exists_last (h : c ∈ s) : ∃ a b, s = a ++ c :: b ∧ c ∉ b := by
  obtain ⟨b, a, hrev, hb⟩ := List.eq_append_cons_of_mem (List.mem_reverse.mpr h)
  refine ⟨a.reverse, b.reverse, ?_, fun hmem => hb (List.mem_reverse.mp hmem)⟩
  rw [← List.reverse_reverse s, hrev]
  simp

theorem partition_of_notMem (h : c ∉ s) : partition c s = (s, []) := by
  have hne := ne_of_notMem h
  rw [partition, List.takeWhile_eq_self_iff.mpr hne, List.dropWhile_eq_nil_iff.mpr hne]
  rfl

theorem rpartition_append (h : c ∉ t) : rpartition c (s ++ c :: t) = (s, t) := by
  have hne := ne_of_notMem (mt List.mem_reverse.mp h)
  have hrev : (s ++ c :: t).reverse = t.reverse ++ c :: s.reverse := by simp
  rw [rpartition, List.rdropWhile, List.rtakeWhile, hrev, List.takeWhile_append_of_pos hne,
    List.dropWhile_append_of_pos hne]
  simp

theorem rpartition_of_notMem (h : c ∉ s) : rpartition c s = ([], s) := by
  have hne := ne_of_notMem (mt List.mem_reverse.mp h)
  rw [rpartition, List.rdropWhile, List.rtakeWhile, List.takeWhile_eq_self_iff.mpr hne,
    List.dropWhile_eq_nil_iff.mpr hne]
  simp
end

/-! ## join and split -/

section
variable {c x : Char} {p q s t : Text} {l : List Text}

@[simp] theorem join_nil : join c [] = [] := rfl
@[simp] theorem join_singleton : join c [p] = p := List.intercalate_singleton

@[simp] theorem join_cons_cons : join c (p :: q :: l) = p ++ c :: join c (q :: l) := by
  rw [join, List.intercalate_cons_cons, List.append_assoc]
  rfl

theorem mem_of_mem_join (h : x ∈ join c l) : x = c ∨ ∃ p ∈ l, x ∈ p := by
  induction l with
  | nil => cases h
  | cons p l ih =>
    cases l with
    | nil => exact .inr ⟨p, List.mem_cons_self, by simpa using h⟩
    | cons q l =>
      rw [join_cons_cons, List.mem_append, List.mem_cons] at h
      rcases h with h | rfl | h
      · exact .inr ⟨p, List.mem_cons_self, h⟩
      · exact .inl rfl
      · rcases ih h with rfl | ⟨r, hr, hx⟩
        · exact .inl rfl
        · exact .inr ⟨r, List.mem_cons_of_mem p hr, hx⟩

theorem mem_join_of_mem (hp : p ∈ l) (hx : x ∈ p) : x ∈ join c l := by
  induction l with
  | nil => cases hp
  | cons r l ih =>
    cases l with
    | nil =>
      obtain rfl := List.mem_singleton.mp hp
      simpa using hx
    | cons q l =>
      rw [join_cons_cons]
      rcases List.mem_cons.mp hp with rfl | hp
      · exact List.mem_append_left _ hx
      · exact List.mem_append_right _ (List.mem_cons_of_mem c (ih hp))

theorem join_concat (hl : l ≠ []) : join c (l ++ [p]) = join c l ++ c :: p := by
  induction l with
  | nil => exact absurd rfl hl
  | cons r l ih =>
    cases l with
    | nil => simp
    | cons q l =>
      have ih := ih (List.cons_ne_nil q l)
      rw [List.cons_append] at ih
      rw [List.cons_append, List.cons_append, join_cons_cons, ih, join_cons_cons, List.append_assoc]
      rfl

theorem head?_join (hp : p ≠ []) : (join c (p :: l)).head? = p.head? := by
  cases l with
  | nil => rw [join_singleton]
  | cons q l => rw [join_cons_cons, List.head?_append_of_ne_nil _ hp]

theorem getLast?_join (hp : p ≠ []) : (join c (l ++ [p])).getLast? = p.getLast? := by
  by_cases hl : l = []
  · rw [hl, List.nil_append, join_singleton]
  · rw [join_concat hl, List.getLast?_append, List.getLast?_cons_of_ne_nil hp, List.getLast?_eq_some_getLast hp,
      Option.some_or]

theorem join_split : join c (split c s) = s := List.intercalate_splitOn c

theorem split_join (hl : l ≠ []) (h : ∀ p ∈ l, c ∉ p) : split c (join c l) = l :=
  List.splitOn_intercalate c h hl

theorem join_append {l' : List Text} (hl : l ≠ []) (hl' : l' ≠ []) :
    join c (l ++ l') = join c l ++ c :: join c l' := by
  induction l with
  | nil => exact absurd rfl hl
  | cons r l ih =>
    cases l with
    | nil =>
      obtain ⟨q, l', rfl⟩ := List.exists_cons_of_ne_nil hl'
      simp
    | cons q l =>
      have ih := ih (List.cons_ne_nil q l)
      rw [List.cons_append] at ih
      rw [List.cons_append, List.cons_append, join_cons_cons, ih, join_cons_cons, List.append_assoc]
      rfl

theorem split_append : split c (s ++ c :: t) = split c s ++ split c t :=
  List.splitOn_append_cons_self s t

/-- What is before the first separator begins the first part. -/
theorem split_cons (hs : c ∉ s) (t : Text) :
    ∃ head tail, split c t = head :: tail ∧ split c (s ++ t) = (s ++ head) :: tail := by
  by_cases hc : c ∈ t
  · obtain ⟨a, b, rfl, ha⟩ := List.eq_append_cons_of_mem hc
    have hsa : c ∉ s ++ a := fun h => (List.mem_append.mp h).elim hs ha
    refine ⟨a, split c b, ?_, ?_⟩
    · rw [split_append, split, List.splitOn_eq_singleton ha, List.singleton_append]
    · rw [← List.append_assoc, split_append, split, List.splitOn_eq_singleton hsa, List.singleton_append]
  · have hst : c ∉ s ++ t := fun h => (List.mem_append.mp h).elim hs hc
    exact ⟨t, [], List.splitOn_eq_singleton hc, List.splitOn_eq_singleton hst⟩

theorem notMem_of_mem_split (hp : p ∈ split c s) : c ∉ p := by
  induction hn : s.length using Nat.strongRecOn generalizing s with
  | ind n ih =>
    by_cases hc : c ∈ s
    · obtain ⟨a, b, rfl, ha⟩ := List.eq_append_cons_of_mem hc
      rw [split_append, List.mem_append] at hp
      rcases hp with hp | hp
      · rw [split, List.splitOn_eq_singleton ha, List.mem_singleton] at hp
        exact hp ▸ ha
      · exact ih b.length (by rw [← hn, List.length_append, List.length_cons]; omega) hp rfl
    · rw [split, List.splitOn_eq_singleton hc, List.mem_singleton] at hp
      exact hp ▸ hc

/-- A part of a text has characters of the text only. -/
theorem mem_of_mem_split (hp : p ∈ split c s) (hx : x ∈ p) : x ∈ s := by
  rw [← join_split (c := c) (s := s)]
  exact mem_join_of_mem hp hx

/-- Words between the characters that `p` selects have none of these. -/
theorem mem_splitOnP {p : Char → Bool} {w : Text} (hw : w ∈ s.splitOnP p) : ∀ c ∈ w, p c = false := by
  induction s generalizing w with
  | nil =>
    obtain rfl := List.mem_singleton.mp hw
    exact fun c hc => absurd hc List.not_mem_nil
  | cons x s ih =>
    rw [List.splitOnP_cons_eq_if_modifyHead] at hw
    split at hw
    · rcases List.mem_cons.mp hw with rfl | hw
      · exact fun c hc => absurd hc List.not_mem_nil
      · exact ih hw
    · rename_i hx
      obtain ⟨y, rest, hrest⟩ := List.exists_cons_of_ne_nil (List.splitOnP_ne_nil p s)
      rw [hrest, List.modifyHead_cons] at hw
      rcases List.mem_cons.mp hw with rfl | hw
      · intro c hc
        rcases List.mem_cons.mp hc with rfl | hc
        · exact Bool.eq_false_iff.mpr hx
        · exact ih (hrest ▸ List.mem_cons_self) c hc
      · exact ih (hrest ▸ List.mem_cons_of_mem _ hw)

end

end Kajet.Str
