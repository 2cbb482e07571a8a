import Kajet.Lib.Dict
import Kajet.Lib.Str

/-!
# The shared history walk

`file_histories` walks the commits once for many paths: every path has a budget, a commit is credited to
the paths that it touches, a path without budget is no longer followed.  The walker is a parameter.

* `Touches`, `Walks`   a change at a path or below it; what a walk filtered by some paths yields;
* `fileHistories`, `headShasForPaths`;
* `Seen`               the state of the walk after some commits, for every path on its own;
* `seen_step`, `sharedWalk_seen`   one commit, and the whole walk;
* `histories_eq`       the shared walk is the walk of each path.
-/

namespace Kajet.History
open Str

abbrev Bytes := List UInt8

/-- `p.encode()` -/
def encode (p : Text) : Bytes := (String.ofList p).toByteArray.data.toList

structure TreeChange where
  old : Option Bytes
  new : Option Bytes

/-- An entry of the walk; the message is decoded. -/
structure WalkEntry where
  sha : Text
  message : Text
  timestamp : ℤ
  /-- a merge has lists of them -/
  changes : List (TreeChange ⊕ List TreeChange)

structure HistoryEntry where
  sha : Text
  message : Text
  timestamp : ℤ
deriving DecidableEq

def historyEntry (e : WalkEntry) : HistoryEntry := ⟨e.sha, strip e.message, e.timestamp⟩

def flatChanges (e : WalkEntry) : List TreeChange := e.changes.flatMap (Sum.elim (fun c => [c]) id)

def changedPaths (e : WalkEntry) : List Bytes := (flatChanges e).flatMap fun c => c.new.toList ++ c.old.toList

def slash : UInt8 := 47

/-- `_matching_followed` -/
def matchingFollowed (followed : List Bytes) (changed : Bytes) : List Bytes :=
  followed.filter fun f => changed = f ∨ f.isPrefixOf changed ∧ changed[f.length]? = some slash

structure Shared where
  result : Dict Text (List HistoryEntry)
  /-- the budgets of the paths that are followed -/
  remaining : Dict Bytes ℕ

/-- The followed paths that a commit touches. -/
def matched (remaining : Dict Bytes ℕ) (e : WalkEntry) : List Bytes :=
  ((changedPaths e).dedup.flatMap (matchingFollowed remaining.keys)).dedup

def credit (byBytes : Dict Bytes Text) (entry : HistoryEntry) (s : Shared) (followed : Bytes) : Shared :=
  match byBytes.get? followed, s.remaining.get? followed with
  | some p, some n =>
    { result := s.result.set p ((s.result.get? p).getD [] ++ [entry])
      remaining := if n - 1 = 0 then s.remaining.erase followed else s.remaining.set followed (n - 1) }
  | _, _ => s

def sharedWalk (byBytes : Dict Bytes Text) : List WalkEntry → Shared → Shared
  | [], s => s
  | e :: es, s =>
    if matched s.remaining e = [] then sharedWalk byBytes es s
    else
      let s := (matched s.remaining e).foldl (credit byBytes (historyEntry e)) s
      if s.remaining.entries = [] then s else sharedWalk byBytes es s

/-- `walk`: the entries of a walk filtered by some paths; `none` is the `KeyError` of a repository without a
commit. -/
def fileHistories (walk : List Bytes → Option (List WalkEntry)) (relativePaths : List Text) (limit : ℕ) :
    Dict Text (List HistoryEntry) :=
  let result := Dict.fromKeys relativePaths []
  let byBytes := relativePaths.foldl (fun d p => d.set (encode p) p) Dict.empty
  let remaining := Dict.fromKeys byBytes.keys limit
  if remaining.entries = [] ∨ limit = 0 then result
  else
    match walk remaining.keys with
    | none => result
    | some entries => (sharedWalk byBytes entries ⟨result, remaining⟩).result

def headShasForPaths (walk : List Bytes → Option (List WalkEntry)) (relativePaths : List Text) :
    List (Text × Option Text) :=
  (fileHistories walk relativePaths 1).entries.map fun h => (h.1, h.2.head?.map (·.sha))

/-! ## what a walk yields -/

/-- A change at a path, or below it as a directory. -/
def Touches (path changed : Bytes) : Prop := changed = path ∨ (path ++ [slash]) <+: changed

instance (path changed : Bytes) : Decidable (Touches path changed) := inferInstanceAs (Decidable (_ ∨ _))

def touched (path : Bytes) (e : WalkEntry) : Bool := (changedPaths e).any fun c => Touches path c

/-- The walker keeps, in one order, the commits that touch one of the paths. -/
def Walks (walk : List Bytes → Option (List WalkEntry)) (order : Option (List WalkEntry)) : Prop :=
  ∀ paths, paths ≠ [] → walk paths = order.map fun entries => entries.filter fun e => paths.any fun p => touched p e

section
variable {walk : List Bytes → Option (List WalkEntry)} {order : Option (List WalkEntry)} {paths : List Text}
  {p q : Text} {f changed : Bytes} {e : WalkEntry} {entry : HistoryEntry} {s : Shared} {byBytes : Dict Bytes Text}
  {done entries : List WalkEntry} {limit : ℕ} {hits : List Bytes}

theorem encode_inj (h : encode p = encode q) : p = q := by
  have hbytes := ByteArray.ext (Array.ext' h)
  rwa [String.toByteArray_inj, String.ofList_inj] at hbytes

theorem touches_iff : Touches f changed ↔ changed = f ∨ f.isPrefixOf changed ∧ changed[f.length]? = some slash := by
  refine or_congr_right ?_
  rw [List.isPrefixOf_iff_prefix]
  constructor
  · rintro ⟨rest, rfl⟩
    refine ⟨⟨slash :: rest, by simp⟩, ?_⟩
    rw [List.append_assoc, List.getElem?_append_right (Nat.le_refl _), Nat.sub_self]
    rfl
  · rintro ⟨⟨rest, rfl⟩, hslash⟩
    rw [List.getElem?_append_right (Nat.le_refl _), Nat.sub_self] at hslash
    cases rest with
    | nil => cases hslash
    | cons b rest =>
      obtain rfl : b = slash := Option.some.inj hslash
      exact ⟨rest, by simp⟩

theorem mem_matched : f ∈ matched s.remaining e ↔ f ∈ s.remaining.keys ∧ touched f e = true := by
  rw [matched, List.mem_dedup, List.mem_flatMap, touched, List.any_eq_true]
  constructor
  · rintro ⟨c, hc, hf⟩
    obtain ⟨hkey, hmatch⟩ := List.mem_filter.mp hf
    exact ⟨hkey, c, List.mem_dedup.mp hc, decide_eq_true (touches_iff.mpr (of_decide_eq_true hmatch))⟩
  · rintro ⟨hkey, c, hc, htouch⟩
    exact ⟨c, List.mem_dedup.mpr hc, List.mem_filter.mpr
      ⟨hkey, decide_eq_true (touches_iff.mp (of_decide_eq_true htouch))⟩⟩

/-! ## the credits of one commit -/

/-- The names of the followed paths. -/
def Names (byBytes : Dict Bytes Text) (paths : List Text) : Prop := ∀ p ∈ paths, byBytes.get? (encode p) = some p

theorem credit_eq (hnames : Names byBytes paths) (hq : q ∈ paths) {n : ℕ}
    (hn : s.remaining.get? (encode q) = some n) : credit byBytes entry s (encode q) =
      { result := s.result.set q ((s.result.get? q).getD [] ++ [entry])
        remaining := if n - 1 = 0 then s.remaining.erase (encode q) else s.remaining.set (encode q) (n - 1) } := by
  rw [credit, hnames q hq, hn]

/-- A credit changes one path. -/
theorem credit_ne (entry : HistoryEntry) (hnames : Names byBytes paths) (hq : q ∈ paths) (hne : p ≠ q) :
    (credit byBytes entry s (encode q)).result.get? p = s.result.get? p ∧
      (credit byBytes entry s (encode q)).remaining.get? (encode p) = s.remaining.get? (encode p) := by
  have hbytes : encode p ≠ encode q := fun h => hne (encode_inj h)
  cases hn : s.remaining.get? (encode q) with
  | none =>
    rw [credit, hnames q hq, hn]
    exact ⟨rfl, rfl⟩
  | some n =>
    rw [credit_eq hnames hq hn]
    refine ⟨Dict.get?_set_ne hne, ?_⟩
    dsimp only
    split
    · rw [Dict.get?_erase, if_neg hbytes]
    · rw [Dict.get?_set_ne hbytes]

theorem credit_keys {g : Bytes} (h : g ∈ (credit byBytes entry s f).remaining.keys) : g ∈ s.remaining.keys := by
  unfold credit at h
  split at h
  · rename_i p n _ hn
    dsimp only at h
    split at h
    · exact (Dict.mem_keys_erase.mp h).2
    · exact (Dict.mem_keys_set.mp h).elim (fun heq => heq ▸ Dict.mem_keys.mpr ⟨n, hn⟩) id
  · exact h

/-- The credits of the other paths leave a path alone. -/
theorem credits_ne (entry : HistoryEntry) (hnames : Names byBytes paths) (hhits : ∀ g ∈ hits, ∃ q ∈ paths, encode q = g)
    (hp : encode p ∉ hits) :
    (hits.foldl (credit byBytes entry) s).result.get? p = s.result.get? p ∧
      (hits.foldl (credit byBytes entry) s).remaining.get? (encode p) = s.remaining.get? (encode p) := by
  induction hits generalizing s with
  | nil => exact ⟨rfl, rfl⟩
  | cons g hits ih =>
    obtain ⟨hne, hrest⟩ := not_or.mp fun h => hp (List.mem_cons.mpr h)
    obtain ⟨q, hq, rfl⟩ := hhits g List.mem_cons_self
    obtain ⟨hresult, hremaining⟩ := credit_ne entry (s := s) hnames hq (p := p) fun h => hne (h ▸ rfl)
    obtain ⟨hresult', hremaining'⟩ := ih (s := credit byBytes entry s (encode q))
      (fun g hg => hhits g (List.mem_cons_of_mem _ hg)) hrest
    exact ⟨hresult'.trans hresult, hremaining'.trans hremaining⟩

/-- A path that is hit is credited once. -/
theorem credits_hit (hnames : Names byBytes paths) (hhits : ∀ g ∈ hits, ∃ q ∈ paths, encode q = g)
    (hnodup : hits.Nodup) (hp : p ∈ paths) (hhit : encode p ∈ hits) {n : ℕ}
    (hn : s.remaining.get? (encode p) = some n) :
    (hits.foldl (credit byBytes entry) s).result.get? p = some ((s.result.get? p).getD [] ++ [entry]) ∧
      (hits.foldl (credit byBytes entry) s).remaining.get? (encode p) = if n - 1 = 0 then none else some (n - 1) := by
  induction hits generalizing s with
  | nil => cases hhit
  | cons g hits ih =>
    obtain ⟨hnot, hnodup'⟩ := List.nodup_cons.mp hnodup
    have hrest : ∀ g ∈ hits, ∃ q ∈ paths, encode q = g := fun g hg => hhits g (List.mem_cons_of_mem _ hg)
    rcases List.mem_cons.mp hhit with rfl | hlater
    · obtain ⟨hresult, hremaining⟩ :=
        credits_ne entry (s := credit byBytes entry s (encode p)) hnames hrest hnot
      rw [List.foldl_cons, hresult, hremaining, credit_eq hnames hp hn]
      refine ⟨Dict.get?_set_self, ?_⟩
      dsimp only
      split
      · rw [Dict.get?_erase, if_pos rfl]
      · rw [Dict.get?_set_self]
    · obtain ⟨q, hq, rfl⟩ := hhits g List.mem_cons_self
      obtain ⟨hresult, hremaining⟩ :=
        credit_ne entry (s := s) hnames hq (p := p) fun h => hnot (h ▸ hlater)
      rw [List.foldl_cons]
      have hstep := ih (s := credit byBytes entry s (encode q)) hrest hnodup' hlater (hremaining.trans hn)
      rwa [hresult] at hstep

theorem credits_keys {g : Bytes} (h : g ∈ (hits.foldl (credit byBytes entry) s).remaining.keys) :
    g ∈ s.remaining.keys := by
  induction hits generalizing s with
  | nil => exact h
  | cons _ _ ih => exact credit_keys (ih h)

/-! ## the walk -/

/-- The first entries of the walk of one path. -/
def alone (limit : ℕ) (entries : List WalkEntry) (p : Text) : List HistoryEntry :=
  ((entries.filter (touched (encode p))).take limit).map historyEntry

/-- After some commits every path has the history that it would have alone, and the rest of its budget. -/
structure Seen (paths : List Text) (limit : ℕ) (done : List WalkEntry) (s : Shared) : Prop where
  result : ∀ p ∈ paths, s.result.get? p = some (alone limit done p)
  others : ∀ p ∉ paths, s.result.get? p = none
  remaining : ∀ p ∈ paths, s.remaining.get? (encode p) =
    if (done.filter (touched (encode p))).length < limit
    then some (limit - (done.filter (touched (encode p))).length) else none
  followed : ∀ g ∈ s.remaining.keys, ∃ q ∈ paths, encode q = g

theorem alone_concat_of_not (h : touched (encode p) e = false) : alone limit (done ++ [e]) p = alone limit done p := by
  rw [alone, List.filter_append, List.filter_cons_of_neg (by simp [h]), List.filter_nil, List.append_nil, alone]

/-- A path that has its entries keeps them. -/
theorem alone_append_of_le (h : limit ≤ (done.filter (touched (encode p))).length) :
    alone limit (done ++ entries) p = alone limit done p := by
  rw [alone, List.filter_append, List.take_append_of_le_length h, alone]

theorem alone_concat_of_lt (h : touched (encode p) e = true) (hlt : (done.filter (touched (encode p))).length < limit) :
    alone limit (done ++ [e]) p = alone limit done p ++ [historyEntry e] := by
  rw [alone, List.filter_append, List.filter_cons_of_pos h, List.filter_nil,
    List.take_of_length_le (by rw [List.length_append]; exact hlt), List.map_append, alone,
    List.take_of_length_le hlt.le]
  rfl

/-- **One commit.** -/
theorem seen_step (hnames : Names byBytes paths) (h : Seen paths limit done s) :
    Seen paths limit (done ++ [e]) ((matched s.remaining e).foldl (credit byBytes (historyEntry e)) s) := by
  have hhits : ∀ g ∈ matched s.remaining e, ∃ q ∈ paths, encode q = g := fun g hg => h.followed g (mem_matched.mp hg).1
  have hlength : ∀ p, ((done ++ [e]).filter (touched (encode p))).length =
      (done.filter (touched (encode p))).length + if touched (encode p) e = true then 1 else 0 := by
    intro p
    rw [List.filter_append, List.length_append, List.filter_cons, List.filter_nil]
    split <;> rfl
  refine ⟨fun p hp => ?_, fun p hp => ?_, fun p hp => ?_, fun g hg => h.followed g (credits_keys hg)⟩
  case refine_2 =>
    have hnot : encode p ∉ matched s.remaining e := fun hhit => by
      obtain ⟨q, hq, heq⟩ := hhits _ hhit
      exact hp (encode_inj heq ▸ hq)
    rw [(credits_ne _ hnames hhits hnot).1, h.others p hp]
  all_goals
    have hold := h.remaining p hp
    by_cases hhit : encode p ∈ matched s.remaining e
  · obtain ⟨hkey, htouch⟩ := mem_matched.mp hhit
    split at hold
    · rename_i hlt
      rw [(credits_hit hnames hhits (List.nodup_dedup _) hp hhit hold).1, h.result p hp, Option.getD_some,
        alone_concat_of_lt htouch hlt]
    · exact (Dict.get?_eq_none.mp hold hkey).elim
  · rw [(credits_ne _ hnames hhits hhit).1, h.result p hp]
    cases htouch : touched (encode p) e with
    | false => rw [alone_concat_of_not htouch]
    | true =>
      split at hold
      · exact (hhit (mem_matched.mpr ⟨Dict.mem_keys.mpr ⟨_, hold⟩, htouch⟩)).elim
      · rename_i hge
        rw [alone_append_of_le (Nat.not_lt.mp hge)]
  · obtain ⟨hkey, htouch⟩ := mem_matched.mp hhit
    rw [hlength, if_pos htouch]
    split at hold
    · rename_i hlt
      rw [(credits_hit hnames hhits (List.nodup_dedup _) hp hhit hold).2]
      split
      · rw [if_neg (by omega)]
      · rw [if_pos (by omega), Nat.sub_sub]
    · exact (Dict.get?_eq_none.mp hold hkey).elim
  · rw [(credits_ne _ hnames hhits hhit).2, hold, hlength]
    cases htouch : touched (encode p) e with
    | false => rfl
    | true =>
      split at hold
      · exact (hhit (mem_matched.mpr ⟨Dict.mem_keys.mpr ⟨_, hold⟩, htouch⟩)).elim
      · rename_i hge
        rw [if_neg hge, if_neg (by simp only [if_true]; omega)]

/-- **The whole walk**, though it ends when no budget is left. -/
theorem sharedWalk_seen (hnames : Names byBytes paths) (h : Seen paths limit done s) (p : Text) :
    (sharedWalk byBytes entries s).result.get? p = if p ∈ paths then some (alone limit (done ++ entries) p) else none := by
  induction entries generalizing done s with
  | nil =>
    rw [sharedWalk, List.append_nil]
    split
    · exact h.result p ‹_›
    · exact h.others p ‹_›
  | cons e entries ih =>
    have hstep := seen_step (e := e) hnames h
    rw [List.append_cons, sharedWalk]
    split
    · rename_i hnone
      rw [hnone] at hstep
      exact ih hstep
    · dsimp only
      split
      · -- every path has its entries
        rename_i hempty
        split
        · rename_i hp
          have hgone := hstep.remaining p hp
          rw [Dict.get?, hempty] at hgone
          rw [hstep.result p hp]
          split at hgone
          · cases hgone
          · rename_i hge
            rw [alone_append_of_le (Nat.not_lt.mp hge)]
        · exact hstep.others p ‹_›
      · exact ih hstep

/-! ## from the first commit -/

/-- `by_bytes` -/
theorem get?_byBytes : (paths.foldl (fun d p => d.set (encode p) p) Dict.empty).get? f =
    paths.find? fun q => encode q = f := by
  have hget := Dict.get?_foldl_set (k := f) encode id paths Dict.empty fun _ _ _ _ h => encode_inj h
  rwa [Dict.get?_empty, Option.or_none, Option.map_id] at hget

theorem names_byBytes : Names (paths.foldl (fun d p => d.set (encode p) p) Dict.empty) paths := by
  intro p hp
  rw [get?_byBytes]
  cases hfind : paths.find? fun q => encode q = encode p with
  | none => exact (List.find?_eq_none.mp hfind p hp (decide_eq_true rfl)).elim
  | some q =>
    have hq : encode q = encode p := by simpa using List.find?_some hfind
    rw [encode_inj hq]

theorem mem_keys_byBytes : f ∈ (paths.foldl (fun d p => d.set (encode p) p) Dict.empty).keys ↔
    ∃ p ∈ paths, encode p = f := by
  rw [Dict.mem_keys]
  constructor
  · rintro ⟨p, hp⟩
    rw [get?_byBytes] at hp
    exact ⟨p, List.mem_of_find?_eq_some hp, by simpa using List.find?_some hp⟩
  · rintro ⟨p, hp, rfl⟩
    exact ⟨p, names_byBytes p hp⟩

theorem seen_nil (paths : List Text) (hlimit : 1 ≤ limit) : Seen paths limit [] ⟨Dict.fromKeys paths [],
    Dict.fromKeys (paths.foldl (fun d p => d.set (encode p) p) Dict.empty).keys limit⟩ := by
  refine ⟨fun p hp => ?_, fun p hp => ?_, fun p hp => ?_, fun g hg => ?_⟩
  · rw [Dict.get?_fromKeys, if_pos hp, alone, List.filter_nil, List.take_nil, List.map_nil]
  · rw [Dict.get?_fromKeys, if_neg hp]
  · rw [Dict.get?_fromKeys, if_pos (mem_keys_byBytes.mpr ⟨p, hp, rfl⟩), List.filter_nil, List.length_nil,
      if_pos (Nat.lt_of_lt_of_le Nat.zero_lt_one hlimit), Nat.sub_zero]
  · exact mem_keys_byBytes.mp (Dict.mem_keys_fromKeys.mp hg)

/-- A commit that touches a followed path is kept. -/
theorem alone_filter {followed : List Bytes} (hp : encode p ∈ followed) :
    alone limit (entries.filter fun e => followed.any fun f => touched f e) p = alone limit entries p := by
  rw [alone, List.filter_filter, alone]
  refine congrArg (fun es => (List.take limit es).map historyEntry) (List.filter_congr fun e _ => ?_)
  cases htouch : touched (encode p) e with
  | false => rfl
  | true =>
    rw [Bool.true_and]
    exact List.any_eq_true.mpr ⟨_, hp, htouch⟩

theorem walk_single (hwalk : Walks walk order) (p : Text) :
    walk [encode p] = order.map fun entries => entries.filter (touched (encode p)) := by
  rw [hwalk _ (List.cons_ne_nil _ _)]
  refine congrArg (fun keep => order.map fun entries => List.filter keep entries) (funext fun e => ?_)
  rw [List.any_cons, List.any_nil, Bool.or_false]

/-- Every path, repeated or below another one, has the first entries of its own walk. -/
theorem fileHistories_get? (hwalk : Walks walk order) (hlimit : 1 ≤ limit) (p : Text) :
    (fileHistories walk paths limit).get? p =
      if p ∈ paths then some ((((walk [encode p]).getD []).take limit).map historyEntry) else none := by
  have hseen := seen_nil paths hlimit
  unfold fileHistories
  dsimp only
  split
  · rename_i hnone
    have hnone := hnone.resolve_right (by omega)
    have hp : p ∉ paths := by
      intro hp
      have hkey := hseen.remaining p hp
      rw [Dict.get?, hnone, List.filter_nil, List.length_nil, if_pos (Nat.lt_of_lt_of_le Nat.zero_lt_one hlimit)] at hkey
      cases hkey
    rw [hseen.others p hp, if_neg hp]
  · rename_i hsome
    rw [walk_single hwalk p, hwalk (Dict.keys _) fun hkeys => hsome (.inl (List.map_eq_nil_iff.mp hkeys))]
    cases order with
    | none =>
      rw [Option.map_none, Option.map_none, Option.getD_none, List.take_nil, List.map_nil]
      by_cases hp : p ∈ paths
      · rw [if_pos hp]
        exact Dict.get?_fromKeys.trans (if_pos hp)
      · rw [if_neg hp]
        exact Dict.get?_fromKeys.trans (if_neg hp)
    | some entries =>
      dsimp only [Option.map_some]
      rw [sharedWalk_seen names_byBytes hseen, List.nil_append]
      by_cases hp : p ∈ paths
      · rw [if_pos hp, if_pos hp,
          alone_filter (Dict.mem_keys_fromKeys.mpr (mem_keys_byBytes.mpr ⟨p, hp, rfl⟩))]
        rfl
      · rw [if_neg hp, if_neg hp]

/-- **The shared walk is the walk of each path**, and the heads are the first commits of these walks. -/
theorem histories_eq (hwalk : Walks walk order) (hlimit : 1 ≤ limit) :
    (∀ p, (fileHistories walk paths limit).get? p =
      if p ∈ paths then some ((((walk [encode p]).getD []).take limit).map historyEntry) else none) ∧
    ∀ p sha, (p, sha) ∈ headShasForPaths walk paths ↔
      p ∈ paths ∧ sha = ((walk [encode p]).getD []).head?.map WalkEntry.sha := by
  refine ⟨fileHistories_get? hwalk hlimit, fun p sha => ?_⟩
  have hhead : ∀ es : List WalkEntry, (((es.take 1).map historyEntry).head?.map HistoryEntry.sha) =
      es.head?.map WalkEntry.sha := by
    intro es
    cases es <;> rfl
  rw [headShasForPaths, List.mem_map]
  constructor
  · rintro ⟨⟨q, history⟩, hmem, heq⟩
    obtain ⟨rfl, rfl⟩ := Prod.mk.inj heq
    have hget := (fileHistories_get? hwalk (Nat.le_refl 1) q).symm.trans (Dict.mem_entries_iff.mp hmem)
    split at hget
    · rename_i hq
      exact ⟨hq, by rw [← Option.some.inj hget, hhead]⟩
    · cases hget
  · rintro ⟨hp, rfl⟩
    refine ⟨⟨p, (((walk [encode p]).getD []).take 1).map historyEntry⟩, Dict.mem_entries_iff.mpr ?_, ?_⟩
    · rw [fileHistories_get? hwalk (Nat.le_refl 1), if_pos hp]
    · rw [hhead]

/-- A directory and a file below it. -/
theorem histories_eq_nested :
    let log : List WalkEntry :=
      [⟨['2'], ['t', 'w', 'o', '\n'], 20, [.inl ⟨some (encode ['a', '/', 'b']), some (encode ['a', '/', 'b'])⟩]⟩,
        ⟨['1'], ['o', 'n', 'e'], 10,
          [.inl ⟨none, some (encode ['a', '/', 'b'])⟩, .inl ⟨none, some (encode ['a', '/', 'c'])⟩]⟩]
    let walk := fun followed : List Bytes => some (log.filter fun e => followed.any fun f => touched f e)
    (∀ p, (fileHistories walk [['a'], ['a', '/', 'c'], ['a']] 1).get? p =
      if p ∈ [['a'], ['a', '/', 'c'], ['a']]
      then some ((((walk [encode p]).getD []).take 1).map historyEntry) else none) ∧
    ∀ p sha, (p, sha) ∈ headShasForPaths walk [['a'], ['a', '/', 'c'], ['a']] ↔
      p ∈ [['a'], ['a', '/', 'c'], ['a']] ∧ sha = ((walk [encode p]).getD []).head?.map WalkEntry.sha :=
  histories_eq (show Walks _ (some _) from fun _ _ => rfl) (Nat.le_refl 1)

end
end Kajet.History
