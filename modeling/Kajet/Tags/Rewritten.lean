import Kajet.Tags.Inline

/-!
# A rewritten text

The tags of the rewritten text are the images of the tags of the text, one for one, unless a tag that
moves is followed at once by another `#` and the character before that one changes its kind.

* `Unicode.Path`          canonical tags: `normalize` leaves them as they are;
* `tokenize_eq`           extraction reads the marks;
* `Unicode.collides`      the places where the rewriter goes wrong;
* `marks_rewrite_iff`     it goes right exactly when there are none.
-/

namespace Kajet.Tags
open Str Links

variable {u : Unicode} {t path cur old new group rest text : Text} {c : Char} {prev prev' : Option Char}

/-! ## canonical tags -/

def Unicode.Path (u : Unicode) (t : Text) : Prop := u.pathMatches t = true ∧ ∀ c ∈ t, u.lower [c] = [c]

theorem inTagBody_eq (c : Char) : u.inTagBody c = (u.isWordChar c || c = '-' || c = '/') := by
  unfold Unicode.inTagBody Unicode.isWordChar Unicode.isalnum
  by_cases h : c.toNat < 128
  · simp only [h, if_true, decide_true, Bool.true_and]
    cases c.isAlphanum <;> simp
  · simp only [h, if_false, decide_false, Bool.false_and, Bool.false_or]
    cases u.alnum c <;> simp

theorem inTagBody_hash : u.inTagBody '#' = false := by
  have h : u.isalnum '#' = false := rfl
  rw [inTagBody_eq, Unicode.isWordChar, h]
  rfl

theorem ne_hash_of_inTagBody (h : u.inTagBody c = true) : c ≠ '#' := by
  rintro rfl
  rw [inTagBody_hash] at h
  cases h

theorem isSpace_of_ascii (h : c.isAlphanum = true) : isSpace c = false := by
  have hrange : (65 ≤ c.toNat ∧ c.toNat ≤ 90) ∨ (97 ≤ c.toNat ∧ c.toNat ≤ 122) ∨
      (48 ≤ c.toNat ∧ c.toNat ≤ 57) := by
    have h : ((decide (65 ≤ c.val ∧ c.val ≤ 90) || decide (97 ≤ c.val) && decide (c.val ≤ 122)) ||
      decide (48 ≤ c.val) && decide (c.val ≤ 57)) = true := h
    simp only [Bool.or_eq_true, Bool.and_eq_true, decide_eq_true_eq, UInt32.le_iff_toNat_le] at h
    rcases h with (h | h) | h
    · exact .inl h
    · exact .inr (.inl h)
    · exact .inr (.inr h)
  unfold isSpace
  simp only [Bool.or_eq_false_iff, Bool.and_eq_false_iff, decide_eq_false_iff_not]
  omega

theorem isSpace_of_inTagBody (h : u.inTagBody c = true) : isSpace c = false := by
  rw [inTagBody_eq, Unicode.isWordChar, Bool.or_eq_true, Bool.or_eq_true, Bool.or_eq_true, decide_eq_true_eq,
    decide_eq_true_eq, decide_eq_true_eq] at h
  rcases h with ((h | rfl) | rfl) | rfl
  · unfold Unicode.isalnum at h
    split at h
    · exact isSpace_of_ascii h
    · exact u.alnum_space c h
  · decide
  · decide
  · decide

theorem pathMatches_iff : u.pathMatches t = true ↔
    ∀ s ∈ split '/' t, s ≠ [] ∧ ∀ c ∈ s, u.inSegment c = true := by
  simp [Unicode.pathMatches]

theorem inTagBody_of_path (h : u.pathMatches t = true) (hc : c ∈ t) : u.inTagBody c = true := by
  rw [← join_split (c := '/') (s := t)] at hc
  rw [inTagBody_eq]
  rcases mem_of_mem_join hc with rfl | ⟨s, hs, hc⟩
  · simp
  · have hseg := (pathMatches_iff.mp h s hs).2 c hc
    rw [Unicode.inSegment] at hseg
    rw [hseg]
    rfl

theorem pathSegments_of_path (h : u.pathMatches t = true) : pathSegments t = split '/' t :=
  List.filter_eq_self.mpr fun s hs => decide_eq_true (pathMatches_iff.mp h s hs).1

theorem Unicode.Path.ne_nil (h : u.Path t) : t ≠ [] := by
  rintro rfl
  have h := h.1
  cases h

theorem Unicode.Path.not_space (h : u.Path t) (hc : c ∈ t) : isSpace c = false :=
  isSpace_of_inTagBody (inTagBody_of_path h.1 hc)

theorem Unicode.Path.strip (h : u.Path t) : strip t = t :=
  stripBy_eq_self.mpr ⟨fun _ hc => h.not_space (List.mem_of_mem_head? hc),
    fun _ hc => h.not_space (List.mem_of_getLast? hc)⟩

/-- **Canonical tags** are left as they are, whatever space is around them. -/
theorem Unicode.Path.normalize_of_strip (h : u.Path t) (hstrip : Str.strip group = t) :
    u.normalize group = some t := by
  have hhash : t.dropWhile (fun c => decide (c = '#')) = t := by
    refine dropWhile_eq_self.mpr fun c hc => decide_eq_false ?_
    exact ne_hash_of_inTagBody (inTagBody_of_path h.1 (List.mem_of_mem_head? hc))
  unfold Unicode.normalize
  rw [hstrip, hhash, h.strip, pathSegments_of_path h.1]
  split
  · rename_i hnil
    exact absurd hnil (List.splitOn_ne_nil _ _)
  · dsimp only
    rw [join_split, u.lower_eq t h.2, Unicode.pathRe, h.1]
    rfl

theorem Unicode.Path.normalize (h : u.Path t) : u.normalize t = some t := h.normalize_of_strip h.strip

/-- Canonical but for a newline at the end. -/
def Unicode.Newlined (u : Unicode) (t : Text) : Prop := ∃ s, u.Path s ∧ t = s ++ ['\n']

theorem Unicode.Newlined.normalize (h : u.Newlined t) : ∃ s, u.Path s ∧ u.normalize t = some s := by
  obtain ⟨s, hs, rfl⟩ := h
  refine ⟨s, hs, hs.normalize_of_strip ?_⟩
  have hdrop : (s ++ ['\n']).dropWhile isSpace = s ++ ['\n'] := by
    refine dropWhile_eq_self.mpr fun c hc => hs.not_space (List.mem_of_mem_head? ?_)
    rwa [List.head?_append_of_ne_nil _ hs.ne_nil] at hc
  show ((s ++ ['\n']).dropWhile isSpace).rdropWhile isSpace = s
  rw [hdrop, List.rdropWhile_concat_pos _ _ _ (by decide)]
  exact rdropWhile_eq_self.mpr fun c hc => hs.not_space (List.mem_of_getLast? hc)

theorem normalize_eq_some (h : u.normalize group = some t) :
    (u.Path t ∨ u.Newlined t) ∧ ('\n' ∈ t → '\n' ∈ group) := by
  unfold Unicode.normalize at h
  split at h
  · cases h
  · dsimp only at h
    split at h
    · rename_i hre
      cases h
      refine ⟨?_, fun hmem => ?_⟩
      · rw [Unicode.pathRe, Bool.or_eq_true, Bool.and_eq_true, decide_eq_true_eq] at hre
        rcases hre with hre | ⟨hlast, hre⟩
        · exact .inl ⟨hre, u.lowered _⟩
        · refine .inr ⟨_, ⟨hre, fun c hc => u.lowered _ c (List.dropLast_subset _ hc)⟩, ?_⟩
          exact (List.dropLast_append_getLast? _ hlast).symm
      · have hjoin := u.lower_newline _ hmem
        rcases mem_of_mem_join hjoin with hc | ⟨s, hs, hc⟩
        · cases hc
        · have hmem := mem_of_mem_split (List.mem_filter.mp hs).1 hc
          exact mem_of_mem_strip ((List.dropWhile_sublist _).subset (mem_of_mem_strip hmem))
    · cases h

theorem path_of_group (hgroup : ∀ c ∈ group, u.inTagBody c = true) (h : u.normalize group = some t) : u.Path t := by
  obtain ⟨hpath | ⟨s, _, rfl⟩, hnewline⟩ := normalize_eq_some h
  · exact hpath
  · have hspace := isSpace_of_inTagBody (hgroup _ (hnewline (by simp)))
    exact absurd hspace (by decide)

theorem remapPath_path (hcur : u.Path cur) (hnew : u.Path new) (h : remapPath cur old new = some t) :
    u.Path t := by
  unfold remapPath at h
  split at h
  · cases h
    exact hnew
  · split at h <;> cases h
    rename_i hprefix
    obtain ⟨rest, hrest⟩ := List.isPrefixOf_iff_prefix.mp hprefix
    obtain rfl : old ++ '/' :: rest = cur := (List.append_cons ..).trans hrest
    rw [List.drop_left]
    refine ⟨pathMatches_iff.mpr fun s hs => ?_, fun c hc => ?_⟩
    · have hparts := pathMatches_iff.mp hcur.1
      rw [split_append] at hs hparts
      rcases List.mem_append.mp hs with hs | hs
      · exact pathMatches_iff.mp hnew.1 s hs
      · exact hparts s (List.mem_append_right _ hs)
    · rcases List.mem_append.mp hc with hc | hc
      · exact hnew.2 c hc
      · exact hcur.2 c (List.mem_append_right _ hc)

/-! ## reading the marks -/

theorem getLast?_or_cons (c : Char) (l : Text) (prev : Option Char) :
    (c :: l).getLast?.or prev = l.getLast?.or (some c) := by
  rw [List.getLast?_cons]
  cases l.getLast? <;> rfl

theorem marks_append (h : ∀ c ∈ group, c ≠ '#') (prev : Option Char) :
    u.marks prev (group ++ t) = u.marks (group.getLast?.or prev) t := by
  induction group generalizing prev with
  | nil => rfl
  | cons c group ih =>
    rw [getLast?_or_cons, List.cons_append, Unicode.marks, if_neg (h c List.mem_cons_self)]
    exact ih (fun x hx => h x (List.mem_cons_of_mem _ hx)) (some c)

theorem mem_takeWhile (h : c ∈ t.takeWhile u.inTagBody) : u.inTagBody c = true :=
  List.mem_takeWhile_imp h

theorem take_length_takeWhile (p : Char → Bool) (t : Text) : t.take (t.takeWhile p).length = t.takeWhile p :=
  (List.prefix_iff_eq_take.mp (List.takeWhile_prefix p)).symm

theorem drop_length_takeWhile (p : Char → Bool) (t : Text) : t.drop (t.takeWhile p).length = t.dropWhile p :=
  (congrArg (List.drop _) List.takeWhile_append_dropWhile.symm).trans List.drop_left

theorem takeWhile_dropWhile (p : Char → Bool) (t : Text) : (t.dropWhile p).takeWhile p = [] := by
  cases h : t.dropWhile p with
  | nil => rfl
  | cons c l =>
    have hc := List.head?_dropWhile_not p t
    rw [h] at hc
    exact List.takeWhile_cons_of_neg (by simpa using hc)

/-- **Extraction** reads the marks: there is no `#` in what a tag takes. -/
theorem tokenize_eq (taken : Nat) (hbody : ∀ c ∈ t.take taken, u.inTagBody c = true) :
    u.tokenize prev taken t = (u.marks prev t).filterMap id := by
  induction t generalizing prev taken with
  | nil => rfl
  | cons c rest ih =>
    cases taken with
    | succ taken =>
      rw [List.take_succ_cons] at hbody
      rw [Unicode.tokenize, Unicode.marks, if_neg (ne_hash_of_inTagBody (hbody c List.mem_cons_self))]
      exact ih taken fun x hx => hbody x (List.mem_cons_of_mem _ hx)
    | zero =>
      unfold Unicode.tokenize Unicode.marks
      by_cases hc : c = '#'
      · subst hc
        rw [if_pos rfl, Unicode.inlineTagRule]
        by_cases hboundary : u.boundary prev = true
        · rw [if_pos hboundary, if_pos hboundary]
          cases htag : u.normalize (rest.takeWhile u.inTagBody) with
          | none => exact ih 0 (by simp)
          | some tag =>
            have htake := @ih (some '#') (rest.takeWhile u.inTagBody).length fun x hx => by
              rw [take_length_takeWhile] at hx
              exact mem_takeWhile hx
            exact congrArg (tag :: ·) htake
        · rw [if_neg hboundary, if_neg hboundary]
          exact ih 0 (by simp)
      · have hrule : u.inlineTagRule prev (c :: rest) = none := by
          unfold Unicode.inlineTagRule
          split
          · rename_i heq
            cases heq
            exact absurd rfl hc
          · rfl
        rw [hrule, if_neg hc]
        exact ih 0 (by simp)

theorem extractInlineTags_eq (body : Text) : u.extractInlineTags body = (u.marks none body).filterMap id :=
  tokenize_eq 0 (by simp)

/-! ## where the rewriter goes wrong -/

/-- The text goes on with a `#` that a tag could follow. -/
def Unicode.opens (u : Unicode) : Text → Bool
  | '#' :: rest => (u.normalize (rest.takeWhile u.inTagBody)).isSome
  | _ => false

/-- Some tag moves, a `#` that a tag could follow is next to it, and that one starts a tag only
before the move or only after it. -/
def Unicode.collides (u : Unicode) (rewrite : Text → Option Text) : Option Char → Nat → Text → Bool
  | _, _, [] => false
  | _, taken + 1, c :: rest => collides u rewrite (some c) taken rest
  | prev, 0, c :: rest =>
    match u.rewriteRe prev (c :: rest) with
    | some group =>
      (u.boundary group.getLast? != u.boundary (u.repl rewrite group).getLast? &&
        u.opens (rest.drop group.length)) || collides u rewrite (some c) group.length rest
    | none => collides u rewrite (some c) 0 rest

/-- The tag that a rewritten tag becomes. -/
def image (rewrite : Text → Option Text) (tag : Text) : Text := (rewrite tag).getD tag

variable {rewrite : Text → Option Text}

theorem group_eq (t : Text) :
    (t.takeWhile fun c => u.isWordChar c || decide (c = '-') || decide (c = '/')) = t.takeWhile u.inTagBody := by
  congr
  exact funext fun c => (inTagBody_eq c).symm

/-- The text after a `#` keeps its tag characters. -/
theorem takeWhile_sub (taken : Nat) :
    (u.sub rewrite prev taken t).takeWhile u.inTagBody = (t.drop taken).takeWhile u.inTagBody := by
  induction t generalizing prev taken with
  | nil =>
    rw [List.drop_nil]
    rfl
  | cons c rest ih =>
    cases taken with
    | succ taken => exact ih taken
    | zero =>
      rw [List.drop_zero]
      by_cases hc : c = '#'
      · subst hc
        rw [List.takeWhile_cons_of_neg (by rw [inTagBody_hash]; exact Bool.false_ne_true)]
        unfold Unicode.sub
        split
        · exact List.takeWhile_cons_of_neg (by rw [inTagBody_hash]; exact Bool.false_ne_true)
        · exact List.takeWhile_cons_of_neg (by rw [inTagBody_hash]; exact Bool.false_ne_true)
      · have hre : u.rewriteRe prev (c :: rest) = none := by
          unfold Unicode.rewriteRe
          split
          · rename_i heq
            cases heq
            exact absurd rfl hc
          · rfl
        rw [Unicode.sub, hre]
        dsimp only
        rw [List.takeWhile_cons, List.takeWhile_cons, ih 0, List.drop_zero]

/-- A group stays, and so does its tag, or it is replaced by the tag's new path. -/
theorem repl_cases (group : Text) :
    (u.repl rewrite group = group ∧ (u.normalize group).map (image rewrite) = u.normalize group) ∨
      ∃ cur new, u.normalize group = some cur ∧ rewrite cur = some new ∧ u.repl rewrite group = new := by
  unfold Unicode.repl
  split
  · rename_i hnone
    exact .inl ⟨rfl, by rw [hnone]; rfl⟩
  · rename_i cur hcur
    split
    · rename_i hnone
      exact .inl ⟨rfl, by rw [hcur, Option.map_some, image, hnone]; rfl⟩
    · rename_i new hnew
      split
      · rename_i heq
        exact .inl ⟨rfl, by rw [hcur, Option.map_some, image, hnew, heq]; rfl⟩
      · exact .inr ⟨cur, new, hcur, hnew, rfl⟩

/-- What a group is replaced by is read as the image of its tag. -/
theorem repl_eq (hrewrite : ∀ cur new, u.Path cur → rewrite cur = some new → u.Path new)
    (hgroup : ∀ c ∈ group, u.inTagBody c = true) (hne : group ≠ []) :
    (∀ c ∈ u.repl rewrite group, u.inTagBody c = true) ∧ u.repl rewrite group ≠ [] ∧
      u.normalize (u.repl rewrite group) = (u.normalize group).map (image rewrite) := by
  rcases repl_cases group with ⟨hstays, htag⟩ | ⟨cur, new, hcur, hnew, hmoves⟩
  · rw [hstays]
    exact ⟨hgroup, hne, htag.symm⟩
  · have hpath := hrewrite cur new (path_of_group hgroup hcur) hnew
    rw [hmoves, hcur, Option.map_some, image, hnew]
    exact ⟨fun c hc => inTagBody_of_path hpath.1 hc, hpath.ne_nil, hpath.normalize⟩

theorem getLast?_or_of_ne (h : group ≠ []) : group.getLast?.or prev = group.getLast? := by
  rw [List.getLast?_eq_some_getLast h]
  rfl

/-- The tag that is read at a rewritten tag is the replacement. -/
theorem takeWhile_append_sub (hgroup : ∀ c ∈ group, u.inTagBody c = true) :
    (group ++ u.sub rewrite prev (t.takeWhile u.inTagBody).length t).takeWhile u.inTagBody = group := by
  rw [List.takeWhile_append_of_pos hgroup, takeWhile_sub, drop_length_takeWhile, takeWhile_dropWhile,
    List.append_nil]

theorem collides_iff : ∀ before after opens later : Bool,
    ((before = after ∨ opens = false) ∧ later = false) ↔ (before != after && opens || later) = false := by
  decide

theorem marks_sub_iff (hrewrite : ∀ cur new, u.Path cur → rewrite cur = some new → u.Path new) (taken : Nat)
    (hbody : ∀ c ∈ t.take taken, u.inTagBody c = true) :
    u.marks prev' (u.sub rewrite prev taken t) = (u.marks prev t).map (Option.map (image rewrite)) ↔
      (u.boundary ((t.take taken).getLast?.or prev) = u.boundary prev' ∨ u.opens (t.drop taken) = false) ∧
        u.collides rewrite prev taken t = false := by
  induction t generalizing prev prev' taken with
  | nil =>
    rw [List.drop_nil]
    exact ⟨fun _ => ⟨.inr rfl, rfl⟩, fun _ => rfl⟩
  | cons c rest ih =>
    cases taken with
    | succ taken =>
      rw [List.take_succ_cons] at hbody
      rw [List.take_succ_cons, getLast?_or_cons, List.drop_succ_cons, Unicode.marks,
        if_neg (ne_hash_of_inTagBody (hbody c List.mem_cons_self)), Unicode.sub, Unicode.collides]
      exact ih taken fun x hx => hbody x (List.mem_cons_of_mem _ hx)
    | zero =>
      rw [List.take_zero, List.drop_zero, List.getLast?_nil, Option.none_or]
      by_cases hc : c = '#'
      · subst hc
        -- what stands at the `#` before, and what is read there afterwards
        have hopens : u.opens ('#' :: rest) = (u.normalize (rest.takeWhile u.inTagBody)).isSome := rfl
        rw [Unicode.marks, if_pos rfl, List.map_cons, hopens]
        by_cases hmatch : u.boundary prev = true ∧ rest.takeWhile u.inTagBody ≠ []
        · obtain ⟨hboundary, hne⟩ := hmatch
          have hre : u.rewriteRe prev ('#' :: rest) = some (rest.takeWhile u.inTagBody) := by
            rw [Unicode.rewriteRe, group_eq, hboundary]
            exact if_pos (decide_eq_true hne)
          have hgroup : ∀ c ∈ rest.takeWhile u.inTagBody, u.inTagBody c = true := fun c => mem_takeWhile
          obtain ⟨hrepl, hreplne, hnormal⟩ := repl_eq hrewrite hgroup hne
          have hih := @ih (some '#') ((u.repl rewrite (rest.takeWhile u.inTagBody)).getLast?)
            (rest.takeWhile u.inTagBody).length fun x hx => by
              rw [take_length_takeWhile] at hx
              exact mem_takeWhile hx
          rw [take_length_takeWhile, getLast?_or_of_ne hne] at hih
          rw [Unicode.sub, Unicode.collides, hre, hboundary, if_pos rfl, ← hnormal]
          dsimp only
          rw [Unicode.marks, if_pos rfl, takeWhile_append_sub hrepl, marks_append
            (fun c hc => ne_hash_of_inTagBody (hrepl c hc)), getLast?_or_of_ne hreplne, List.cons.injEq, hih, hnormal]
          refine and_congr ?_ (collides_iff _ _ _ _)
          cases u.boundary prev' <;> cases u.normalize (rest.takeWhile u.inTagBody) <;> simp
        · have hre : u.rewriteRe prev ('#' :: rest) = none := by
            rw [Unicode.rewriteRe, group_eq]
            refine if_neg fun h => hmatch ?_
            rw [Bool.and_eq_true, decide_eq_true_eq] at h
            exact h
          have hih := @ih (some '#') (some '#') 0 (by simp)
          rw [List.take_zero, List.drop_zero, List.getLast?_nil, Option.none_or] at hih
          rw [Unicode.sub, Unicode.collides, hre]
          dsimp only
          rw [Unicode.marks, if_pos rfl, takeWhile_sub, List.drop_zero, List.cons.injEq, hih]
          by_cases hnil : rest.takeWhile u.inTagBody = []
          · have hnone : u.normalize [] = none := rfl
            rw [hnil, hnone]
            simp
          · have hboundary : u.boundary prev = false := by
              rw [← Bool.not_eq_true]
              exact fun h => hmatch ⟨h, hnil⟩
            rw [hboundary]
            cases u.boundary prev' <;> cases u.normalize (rest.takeWhile u.inTagBody) <;> simp
      · have hre : u.rewriteRe prev (c :: rest) = none := by
          unfold Unicode.rewriteRe
          split
          · rename_i heq
            cases heq
            exact absurd rfl hc
          · rfl
        have hopens : u.opens (c :: rest) = false := by
          unfold Unicode.opens
          split
          · rename_i heq
            cases heq
            exact absurd rfl hc
          · rfl
        rw [Unicode.sub, Unicode.collides, hre, Unicode.marks, if_neg hc, hopens]
        dsimp only
        rw [Unicode.marks, if_neg hc]
        have hih := @ih (some c) (some c) 0 (by simp)
        rw [List.take_zero, List.drop_zero, List.getLast?_nil, Option.none_or] at hih
        rw [hih]
        simp

/-- **The rewriter** keeps the marks apart exactly when nothing collides. -/
theorem marks_rewrite_iff (hrewrite : ∀ cur new, u.Path cur → rewrite cur = some new → u.Path new) (body : Text) :
    u.marks none (u.rewriteInlineTags body rewrite) = (u.marks none body).map (Option.map (image rewrite)) ↔
      u.collides rewrite none 0 body = false := by
  have h := @marks_sub_iff u body none none rewrite hrewrite 0 (by simp)
  rw [List.take_zero, List.getLast?_nil, Option.none_or] at h
  exact h.trans ⟨fun h => h.2, fun h => ⟨.inl rfl, h⟩⟩

theorem rewriteRe_eq_some (h : u.rewriteRe prev (c :: rest) = some group) :
    c = '#' ∧ u.boundary prev = true ∧ group = rest.takeWhile u.inTagBody ∧ group ≠ [] := by
  unfold Unicode.rewriteRe at h
  split at h
  · rename_i heq
    cases heq
    rw [group_eq] at h
    dsimp only at h
    split at h
    · rename_i hsat
      cases h
      rw [Bool.and_eq_true, decide_eq_true_eq] at hsat
      exact ⟨rfl, hsat.1, rfl, hsat.2⟩
    · cases h
  · cases h

/-- Where the expression does not match there is no tag. -/
theorem mem_marks_of_none (h : u.rewriteRe prev (c :: rest) = none) (tag : Text) :
    some tag ∈ u.marks prev (c :: rest) ↔ some tag ∈ u.marks (some c) rest := by
  rw [Unicode.marks]
  by_cases hc : c = '#'
  · subst hc
    rw [Unicode.rewriteRe, group_eq] at h
    rw [if_pos rfl, List.mem_cons]
    refine or_iff_right fun htag => ?_
    split at htag
    · rename_i hboundary
      by_cases hnil : rest.takeWhile u.inTagBody = []
      · rw [hnil] at htag
        cases htag
      · rw [hboundary] at h
        exact absurd h (by simp [hnil])
    · cases htag
  · rw [if_neg hc]

/-- The text stays exactly when none of its tags moves. -/
theorem sub_eq_iff (hrewrite : ∀ cur new, u.Path cur → rewrite cur = some new → u.Path new) (taken : Nat)
    (hbody : ∀ c ∈ t.take taken, u.inTagBody c = true) :
    u.sub rewrite prev taken t = t.drop taken ↔ ∀ tag, some tag ∈ u.marks prev t → image rewrite tag = tag := by
  induction t generalizing prev taken with
  | nil =>
    rw [List.drop_nil]
    exact ⟨fun _ tag h => (nomatch h), fun _ => rfl⟩
  | cons c rest ih =>
    cases taken with
    | succ taken =>
      rw [List.take_succ_cons] at hbody
      rw [List.drop_succ_cons, Unicode.marks, if_neg (ne_hash_of_inTagBody (hbody c List.mem_cons_self)), Unicode.sub]
      exact ih taken fun x hx => hbody x (List.mem_cons_of_mem _ hx)
    | zero =>
      have hih := @ih (some c) 0 (by simp)
      rw [List.drop_zero] at hih
      rw [List.drop_zero]
      unfold Unicode.sub
      cases hre : u.rewriteRe prev (c :: rest) with
      | none =>
        dsimp only
        rw [List.cons.injEq, eq_self, true_and, hih]
        exact forall_congr' fun tag => imp_congr_left (mem_marks_of_none hre tag).symm
      | some group =>
        obtain ⟨rfl, hboundary, rfl, hne⟩ := rewriteRe_eq_some hre
        have hgroup : ∀ c ∈ rest.takeWhile u.inTagBody, u.inTagBody c = true := fun c => mem_takeWhile
        have hrest := @ih (some '#') (rest.takeWhile u.inTagBody).length fun x hx => by
          rw [take_length_takeWhile] at hx
          exact mem_takeWhile hx
        -- the replacement is what is read after the `#` of the new text
        have hsplit : u.repl rewrite (rest.takeWhile u.inTagBody) ++
            u.sub rewrite (some '#') (rest.takeWhile u.inTagBody).length rest = rest ↔
            u.repl rewrite (rest.takeWhile u.inTagBody) = rest.takeWhile u.inTagBody ∧
            u.sub rewrite (some '#') (rest.takeWhile u.inTagBody).length rest =
              rest.drop (rest.takeWhile u.inTagBody).length := by
          constructor
          · intro h
            have hrepl := congrArg (List.takeWhile u.inTagBody) h
            rw [takeWhile_append_sub (repl_eq hrewrite hgroup hne).1] at hrepl
            refine ⟨hrepl, ?_⟩
            rw [hrepl] at h
            have hdrop := congrArg (List.drop (rest.takeWhile u.inTagBody).length) h
            rwa [List.drop_left] at hdrop
          · rintro ⟨hrepl, hsub⟩
            rw [hrepl, hsub, drop_length_takeWhile, List.takeWhile_append_dropWhile]
        have hstays : u.repl rewrite (rest.takeWhile u.inTagBody) = rest.takeWhile u.inTagBody ↔
            ∀ tag, some tag = u.normalize (rest.takeWhile u.inTagBody) → image rewrite tag = tag := by
          constructor
          · intro h tag htag
            have hnormal := (repl_eq hrewrite hgroup hne).2.2
            rw [h, ← htag] at hnormal
            exact (Option.some.inj hnormal).symm
          · intro h
            rcases repl_cases (rest.takeWhile u.inTagBody) with ⟨hrepl, _⟩ | ⟨cur, new, hcur, hnew, hrepl⟩
            · exact hrepl
            · have himage := h cur hcur.symm
              rw [image, hnew] at himage
              have himage : new = cur := himage
              rw [Unicode.repl, hcur]
              dsimp only
              rw [hnew]
              exact if_pos himage
        dsimp only
        rw [List.cons.injEq, eq_self, true_and, hsplit, hrest, hstays, Unicode.marks, if_pos rfl, hboundary, if_pos rfl]
        simp only [List.mem_cons, or_imp, forall_and]

theorem rewrite_eq_iff (hrewrite : ∀ cur new, u.Path cur → rewrite cur = some new → u.Path new) (body : Text) :
    u.rewriteInlineTags body rewrite = body ↔ ∀ tag, some tag ∈ u.marks none body → image rewrite tag = tag :=
  sub_eq_iff hrewrite 0 (by simp)

/-- A tag that is read has no newline at its end. -/
theorem path_of_mem_marks (h : some t ∈ u.marks prev group) : u.Path t := by
  induction group generalizing prev with
  | nil => cases h
  | cons c rest ih =>
    rw [Unicode.marks] at h
    split at h
    · rcases List.mem_cons.mp h with h | h
      · split at h
        · exact path_of_group (fun c => mem_takeWhile) h.symm
        · cases h
      · exact ih h
    · exact ih h

end Kajet.Tags
