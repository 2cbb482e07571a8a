import Kajet.Lib.Capped
import Kajet.Lib.Dict
import Kajet.Lib.Rank
import Kajet.Lib.Str
import Mathlib.Data.Finset.Basic
import Mathlib.Data.List.Find
import Mathlib.Data.Rat.Defs
import Mathlib.Algebra.Order.Ring.Rat

/-!
# Ranking search candidates

Chunks that the full text and the vectors found, and notes that their metadata matched, are ranked together:
every list gives a share that falls with the rank, the share of a note goes to its best chunk or to a hit that
stands in for one.

* `fuseHybrid`
* `share`, `noteOf`, `base`   what the lists give to a chunk;
* `Candidates`     all candidates with their scores;
* `Fused`          the hits: the best candidates, not too many of one note;
* `fuseHybrid_fused`   what `fuseHybrid` returns.
-/

namespace Kajet.Search
open Str Rank

inductive MetadataMatch where
  | title | folder | tag
deriving DecidableEq

structure ChunkHit where
  /-- a hit without a chunk stands in for its note -/
  chunkId : Option Text
  noteId : Text
  title : Text
  folder : Text
  updatedAt : Text
  headerPath : List Text
  content : Text
  score : ℚ
  matchedOn : Option (List MetadataMatch)
deriving DecidableEq

structure MetadataHit where
  noteId : Text
  title : Text
  folder : Text
  updatedAt : Text
  matchedOn : List MetadataMatch
deriving DecidableEq

/-- The share of a rank. -/
def rrf (rank : ℕ) : ℚ := 1 / (60 + rank)

/-- `_filter` -/
def filterHits {α : Type*} (noteId : α → Text) (allowed : Option (Finset Text)) (hits : List α) : List α :=
  match allowed with
  | none => hits
  | some ids => hits.filter fun h => noteId h ∈ ids

/-- Candidates from the index have chunks; `none` is a failed assertion. -/
def keyed (hits : List ChunkHit) : Option (List (Text × ChunkHit)) := hits.mapM fun h => h.chunkId.map (·, h)

structure Tally where
  scores : Dict Text ℚ
  byId : Dict Text ChunkHit

def Tally.empty : Tally := ⟨Dict.empty, Dict.empty⟩

def Tally.count (t : Tally) (x : (Text × ChunkHit) × ℕ) : Tally where
  scores := t.scores.set x.1.1 ((t.scores.get? x.1.1).getD 0 + rrf x.2)
  byId := t.byId.setDefault x.1.1 x.1.2

def bestStep (byId : Dict Text ChunkHit) (best : Dict Text (ℚ × Text)) (e : Text × ℚ) : Dict Text (ℚ × Text) :=
  match byId.get? e.1 with
  | none => best
  | some hit =>
    if (best.get? hit.noteId).all fun b => b.1 < e.2 then best.set hit.noteId (e.2, e.1) else best

/-- `best_chunk_for_note` -/
def bestChunks (t : Tally) : Dict Text (ℚ × Text) := t.scores.entries.foldl (bestStep t.byId) Dict.empty

def standInKey (noteId : Text) : Text := "meta:".toList ++ noteId

def standIn (m : MetadataHit) : ChunkHit := ⟨none, m.noteId, m.title, m.folder, m.updatedAt, [], [], 0, none⟩

structure Boosted extends Tally where
  /-- `meta_matched` -/
  matched : Dict Text (List MetadataMatch)

def boostStep (best : Dict Text (ℚ × Text)) (b : Boosted) (x : MetadataHit × ℕ) : Boosted :=
  let matched := b.matched.set x.1.noteId ((b.matched.get? x.1.noteId).getD [] ++ x.1.matchedOn)
  match best.get? x.1.noteId with
  | some (_, chunkId) =>
    { b with scores := b.scores.set chunkId ((b.scores.get? chunkId).getD 0 + rrf x.2), matched }
  | none =>
    let key := standInKey x.1.noteId
    { scores := b.scores.set key ((b.scores.get? key).getD 0 + rrf x.2)
      byId := b.byId.setDefault key (standIn x.1), matched }

def Boosted.ranked (b : Boosted) : List ChunkHit :=
  (Rank.ranked (fun e : Text × ℚ => -e.2) b.scores.entries).filterMap fun e => (b.byId.get? e.1).map fun hit =>
    { hit with score := e.2, matchedOn := b.matched.get? hit.noteId }

/-- The last loop. -/
def capLoop (limit perNoteCap : ℕ) : (perNote : Dict Text ℕ) → (capped : List ChunkHit) → List ChunkHit → List ChunkHit
  | _, capped, [] => capped
  | perNote, capped, h :: rest =>
    let used := (perNote.get? h.noteId).getD 0
    if perNoteCap ≤ used then capLoop limit perNoteCap perNote capped rest
    else if limit ≤ (capped ++ [h]).length then capped ++ [h]
    else capLoop limit perNoteCap (perNote.set h.noteId (used + 1)) (capped ++ [h]) rest

/-- The candidates of both indexes, counted. -/
def tally (fts vec : List (Text × ChunkHit)) : Tally := vec.zipIdx.foldl Tally.count (fts.zipIdx.foldl Tally.count .empty)

def boosted (t : Tally) (metadata : List MetadataHit) : Boosted :=
  metadata.zipIdx.foldl (boostStep (bestChunks t)) { t with matched := Dict.empty }

def fuseHybrid (fts vec : List ChunkHit) (metadata : List MetadataHit) (limit perNoteCap : ℕ)
    (allowed : Option (Finset Text)) : Option (List ChunkHit) := do
  let fts ← keyed (filterHits (·.noteId) allowed fts)
  let vec ← keyed (filterHits (·.noteId) allowed vec)
  some (capLoop limit perNoteCap Dict.empty []
    (boosted (tally fts vec) (filterHits (·.noteId) allowed metadata)).ranked)

/-! ## shares -/

/-- What a list gives to a key. -/
def share {κ : Type*} [DecidableEq κ] (l : List κ) (k : κ) : ℚ := (l.findIdx? fun x => x = k).elim 0 rrf

section
variable (fts vec : List ChunkHit)

/-- The note of a chunk. -/
def noteOf (c : Text) : Option Text := ((fts ++ vec).find? fun h => h.chunkId = some c).map (·.noteId)

/-- What the two indexes give to a chunk. -/
def base (c : Text) : ℚ := share (fts.map (·.chunkId)) (some c) + share (vec.map (·.chunkId)) (some c)

end

/-- All candidates. The metadata give a share to the best chunk of each note, or to a hit that stands in for one. -/
structure Candidates (fts vec : List ChunkHit) (metadata : List MetadataHit) (best : Text → Option Text)
    (pool : List ChunkHit) : Prop where
  bestSome : ∀ n c, best n = some c → noteOf fts vec c = some n ∧
    ∀ c', noteOf fts vec c' = some n → base fts vec c' ≤ base fts vec c
  bestNone : ∀ n, best n = none → ∀ c, noteOf fts vec c ≠ some n
  chunks : ∀ c, c ∈ pool.filterMap (·.chunkId) ↔ noteOf fts vec c ≠ none
  chunksOnce : (pool.filterMap (·.chunkId)).Nodup
  standIns : ∀ n, n ∈ (pool.filter fun h => h.chunkId = none).map (·.noteId) ↔
    n ∈ metadata.map (·.noteId) ∧ best n = none
  standInsOnce : ((pool.filter fun h => h.chunkId = none).map (·.noteId)).Nodup
  chunkScore : ∀ h ∈ pool, ∀ c, h.chunkId = some c → noteOf fts vec c = some h.noteId ∧
    h.score = base fts vec c + if best h.noteId = some c then share (metadata.map (·.noteId)) h.noteId else 0
  standInScore : ∀ h ∈ pool, h.chunkId = none → h.score = share (metadata.map (·.noteId)) h.noteId

/-- The hits of three filtered lists. -/
structure Fused (fts vec : List ChunkHit) (metadata : List MetadataHit) (limit perNoteCap : ℕ) (hits : List ChunkHit) :
    Prop where
  length : hits.length ≤ limit
  sorted : hits.Pairwise fun a b => b.score ≤ a.score
  chunksOnce : (hits.filterMap (·.chunkId)).Nodup
  standInsOnce : ((hits.filter fun h => h.chunkId = none).map (·.noteId)).Nodup
  capped : ∀ n, hits.countP (fun h => h.noteId = n) ≤ perNoteCap
  optimal : ∃ best pool, Candidates fts vec metadata best pool ∧ (∀ h ∈ hits, h ∈ pool) ∧ ∀ x ∈ pool, x ∉ hits →
    (hits.countP (fun h => h.noteId = x.noteId) = perNoteCap ∧ ∀ h ∈ hits, h.noteId = x.noteId → x.score ≤ h.score) ∨
      hits.length = limit ∧ ∀ h ∈ hits, x.score ≤ h.score

/-! ## counting -/

section
variable {κ ι α : Type*} [DecidableEq κ] [DecidableEq ι]

theorem findIdx?_none {l : List κ} {k : κ} : (l.findIdx? fun x => x = k) = none ↔ k ∉ l := by
  rw [List.findIdx?_eq_none_iff]
  constructor
  · exact fun h hk => absurd rfl (of_decide_eq_false (h k hk))
  · exact fun h x hx => decide_eq_false fun heq => h (heq ▸ hx)

/-- Two keys at the same places have the same share. -/
theorem share_map_congr {l : List α} {f : α → κ} {g : α → ι} {a : κ} {b : ι} (h : ∀ x ∈ l, f x = a ↔ g x = b) :
    share (l.map f) a = share (l.map g) b := by
  refine congrArg (fun i : Option ℕ => i.elim 0 rrf) ?_
  induction l with
  | nil => rfl
  | cons x l ih =>
    rw [List.map_cons, List.map_cons, List.findIdx?_cons, List.findIdx?_cons,
      ih fun y hy => h y (List.mem_cons_of_mem x hy)]
    have hx := h x List.mem_cons_self
    by_cases hf : f x = a
    · simp [hf, hx.mp hf]
    · simp [hf, mt hx.mpr hf]

theorem share_of_not_mem {l : List κ} {k : κ} (h : k ∉ l) : share l k = 0 := by
  rw [share, findIdx?_none.mpr h]
  rfl

end

section
variable {l fts vec : List (Text × ChunkHit)} {t : Tally} {id : Text} {start : ℕ} {hits : List ChunkHit}

theorem count_scores (hl : (l.map Prod.fst).Nodup) : ((l.zipIdx start).foldl Tally.count t).scores.get? id =
    (((l.map Prod.fst).findIdx? fun x => x = id).map fun i => (t.scores.get? id).getD 0 + rrf (start + i)).or
      (t.scores.get? id) := by
  induction l generalizing t start with
  | nil => rfl
  | cons x l ih =>
    obtain ⟨hx, hl⟩ := List.nodup_cons.mp hl
    rw [List.zipIdx_cons, List.foldl_cons, ih hl, List.map_cons, List.findIdx?_cons]
    show (Option.map (fun i => ((t.scores.set x.1 _).get? id).getD 0 + rrf (start + 1 + i)) _).or
      ((t.scores.set x.1 _).get? id) = _
    rw [Dict.get?_set]
    by_cases h : id = x.1
    · subst h
      simp [findIdx?_none.mpr hx]
    · rw [if_neg h, if_neg (by simpa using Ne.symm h)]
      cases (l.map Prod.fst).findIdx? fun x => x = id with
      | none => rfl
      | some i =>
        show some (_ + rrf (start + 1 + i)) = some (_ + rrf (start + (i + 1)))
        rw [show start + 1 + i = start + (i + 1) by omega]

/-- **Counting a list** adds its shares. -/
theorem count_share {σ : ℚ} (hl : (l.map Prod.fst).Nodup) : (l.zipIdx.foldl Tally.count t).scores.get? id = some σ ↔
    (id ∈ l.map Prod.fst ∨ id ∈ t.scores.keys) ∧ (t.scores.get? id).getD 0 + share (l.map Prod.fst) id = σ := by
  rw [count_scores hl]
  unfold share
  cases hidx : (l.map Prod.fst).findIdx? fun x => x = id with
  | none =>
    have hnot := findIdx?_none.mp hidx
    cases hget : t.scores.get? id with
    | none => simp [hnot, Dict.get?_eq_none.mp hget]
    | some σ => simp [Dict.mem_keys.mpr ⟨σ, hget⟩]
  | some i =>
    have hmem : id ∈ l.map Prod.fst := by
      by_contra hnot
      rw [findIdx?_none.mpr hnot] at hidx
      cases hidx
    rw [and_iff_right (.inl hmem)]
    simp

/-- It keeps the first hit of every chunk. -/
theorem count_byId : ((l.zipIdx start).foldl Tally.count t).byId.get? id =
    (t.byId.get? id).or ((l.find? fun x => x.1 = id).map Prod.snd) := by
  induction l generalizing t start with
  | nil => exact (Option.or_none).symm
  | cons x l ih =>
    rw [List.zipIdx_cons, List.foldl_cons, ih, List.find?_cons]
    show ((t.byId.setDefault x.1 x.2).get? id).or _ = _
    rw [Dict.get?_setDefault, Option.or_assoc]
    by_cases h : id = x.1
    · simp [h]
    · simp [h, Ne.symm h]

theorem keyed_spec (h : keyed hits = some l) : l.map Prod.snd = hits ∧ ∀ x ∈ l, x.2.chunkId = some x.1 := by
  induction hits generalizing l with
  | nil =>
    cases h
    exact ⟨rfl, fun x hx => (nomatch hx)⟩
  | cons hit hits ih =>
    rw [keyed, List.mapM_cons] at h
    obtain ⟨x, hx, h⟩ := Option.bind_eq_some_iff.mp h
    obtain ⟨l', hl', h⟩ := Option.bind_eq_some_iff.mp h
    obtain rfl := Option.some.inj h
    obtain ⟨c, hc, rfl⟩ := Option.map_eq_some_iff.mp hx
    obtain ⟨hsnd, hids⟩ := ih hl'
    exact ⟨by rw [List.map_cons, hsnd], List.forall_mem_cons.mpr ⟨hc, hids⟩⟩

theorem keyed_isSome (h : ∀ hit ∈ hits, hit.chunkId ≠ none) : ∃ l, keyed hits = some l := by
  induction hits with
  | nil => exact ⟨[], rfl⟩
  | cons hit hits ih =>
    obtain ⟨hhit, hhits⟩ := List.forall_mem_cons.mp h
    obtain ⟨l, hl⟩ := ih hhits
    obtain ⟨c, hc⟩ := Option.ne_none_iff_exists'.mp hhit
    have hl : hits.mapM (fun h => h.chunkId.map (·, h)) = some l := hl
    refine ⟨(c, hit) :: l, ?_⟩
    rw [keyed, List.mapM_cons, hc, hl]
    rfl

/-! ## the best chunk of a note -/

/-- The notes of some scores, and the best one of each. -/
structure IsBest (byId : Dict Text ChunkHit) (done : List (Text × ℚ)) (best : Dict Text (ℚ × Text)) : Prop where
  found : ∀ n σ c, best.get? n = some (σ, c) → (c, σ) ∈ done ∧ (∃ hit, byId.get? c = some hit ∧ hit.noteId = n) ∧
    ∀ e ∈ done, ∀ hit, byId.get? e.1 = some hit → hit.noteId = n → e.2 ≤ σ
  missing : ∀ n, best.get? n = none → ∀ e ∈ done, ∀ hit, byId.get? e.1 = some hit → hit.noteId ≠ n

theorem bestStep_get? {byId : Dict Text ChunkHit} {best : Dict Text (ℚ × Text)} {e : Text × ℚ} {hit : ChunkHit} {n : Text}
    (hhit : byId.get? e.1 = some hit) : (bestStep byId best e).get? n =
      if hit.noteId = n ∧ (best.get? n).all (fun b => b.1 < e.2) = true then some (e.2, e.1) else best.get? n := by
  unfold bestStep
  rw [hhit]
  dsimp only
  by_cases hless : (best.get? hit.noteId).all (fun b => b.1 < e.2) = true
  · rw [if_pos hless, Dict.get?_set]
    by_cases hn : n = hit.noteId
    · rw [if_pos hn, if_pos ⟨hn.symm, hn ▸ hless⟩]
    · rw [if_neg hn, if_neg fun h => hn h.1.symm]
  · rw [if_neg hless, if_neg]
    rintro ⟨rfl, h⟩
    exact hless h

theorem bestStep_spec {byId : Dict Text ChunkHit} {done : List (Text × ℚ)} {best : Dict Text (ℚ × Text)} (e : Text × ℚ)
    (h : IsBest byId done best) : IsBest byId (done ++ [e]) (bestStep byId best e) := by
  cases hhit : byId.get? e.1 with
  | none =>
    have hsame : bestStep byId best e = best := by rw [bestStep, hhit]
    have hlast : ∀ {P : ChunkHit → Prop} hit, byId.get? e.1 = some hit → P hit := fun hit hsome => by
      rw [hhit] at hsome
      cases hsome
    rw [hsame]
    refine ⟨fun n σ c hc => ?_, fun n hn => List.forall_mem_append.mpr ⟨h.missing n hn,
      List.forall_mem_singleton.mpr hlast⟩⟩
    obtain ⟨hmem, hnote, hmax⟩ := h.found n σ c hc
    exact ⟨List.mem_append_left _ hmem, hnote, List.forall_mem_append.mpr ⟨hmax, List.forall_mem_singleton.mpr hlast⟩⟩
  | some hit =>
    have hlast : ∀ hit', byId.get? e.1 = some hit' → hit' = hit := fun hit' hsome =>
      Option.some.inj (hsome.symm.trans hhit)
    refine ⟨fun n σ c hc => ?_, fun n hn => ?_⟩
    · rw [bestStep_get? hhit] at hc
      split at hc
      · -- the new one is the best so far
        rename_i hwins
        obtain ⟨rfl, rfl⟩ := Prod.mk.inj (Option.some.inj hc)
        refine ⟨List.mem_append_right _ (List.mem_singleton.mpr rfl), ⟨hit, hhit, hwins.1⟩,
          List.forall_mem_append.mpr ⟨fun e' he' hit' hhit' hnote => ?_, List.forall_mem_singleton.mpr fun _ _ _ => le_rfl⟩⟩
        cases hbest : best.get? n with
        | none => exact (h.missing n hbest e' he' hit' hhit' hnote).elim
        | some b =>
          have hless : (b.1 < e.2) := by simpa [hbest] using hwins.2
          exact ((h.found n b.1 b.2 hbest).2.2 e' he' hit' hhit' hnote).trans hless.le
      · rename_i hloses
        obtain ⟨hmem, hnote, hmax⟩ := h.found n σ c hc
        refine ⟨List.mem_append_left _ hmem, hnote, List.forall_mem_append.mpr ⟨hmax,
          List.forall_mem_singleton.mpr fun hit' hhit' hn => ?_⟩⟩
        rw [hlast hit' hhit'] at hn
        by_contra hlt
        exact hloses ⟨hn, by simpa [hc] using hlt⟩
    · rw [bestStep_get? hhit] at hn
      split at hn
      · cases hn
      · rename_i hloses
        refine List.forall_mem_append.mpr ⟨h.missing n hn, List.forall_mem_singleton.mpr fun hit' hhit' hnote => ?_⟩
        rw [hlast hit' hhit'] at hnote
        exact hloses ⟨hnote, by simp [hn]⟩

theorem bestChunks_spec (t : Tally) : IsBest t.byId t.scores.entries (bestChunks t) := by
  unfold bestChunks
  generalize t.scores.entries = es
  induction es using List.reverseRecOn with
  | nil => exact ⟨fun n σ c hc => (nomatch hc), fun n _ e he => (nomatch he)⟩
  | append_singleton es e ih =>
    rw [List.foldl_append]
    exact bestStep_spec e ih

/-! ## the share of a note -/

/-- The hit that the share of a note goes to. -/
def target (best : Dict Text (ℚ × Text)) (m : MetadataHit) : Text :=
  match best.get? m.noteId with
  | some (_, chunkId) => chunkId
  | none => standInKey m.noteId

/-- The metadata are counted at their targets. -/
theorem boost_eq {best : Dict Text (ℚ × Text)} {metadata : List MetadataHit} {b : Boosted}
    (hbest : ∀ n σ c, best.get? n = some (σ, c) → (b.byId.get? c).isSome = true) :
    ((metadata.zipIdx start).foldl (boostStep best) b).toTally =
      ((metadata.map fun m => (target best m, standIn m)).zipIdx start).foldl Tally.count b.toTally := by
  induction metadata generalizing b start with
  | nil => rfl
  | cons m metadata ih =>
    have hstep : (boostStep best b (m, start)).toTally = b.toTally.count ((target best m, standIn m), start) := by
      unfold boostStep target Tally.count
      cases hm : best.get? m.noteId with
      | none => rfl
      | some e => simp only [Dict.setDefault, if_pos (hbest _ _ _ hm)]
    rw [List.zipIdx_cons, List.foldl_cons, List.map_cons, List.zipIdx_cons, List.foldl_cons, ← hstep]
    refine ih fun n σ c hc => ?_
    have hbyId : (boostStep best b (m, start)).byId = b.byId.setDefault (target best m) (standIn m) :=
      congrArg Tally.byId hstep
    rw [hbyId, Dict.get?_setDefault]
    obtain ⟨hit, hhit⟩ := Option.isSome_iff_exists.mp (hbest n σ c hc)
    rw [hhit]
    rfl

/-! ## the candidates -/

/-- The id of a hit, or the key of the note that it stands in for. -/
def keyOf (h : ChunkHit) : Text := h.chunkId.getD (standInKey h.noteId)

theorem map_filterMap_eq {α β : Type*} {f : α → Option β} {g : β → α} {l : List α}
    (h : ∀ a ∈ l, ∃ b, f a = some b ∧ g b = a) : (l.filterMap f).map g = l := by
  induction l with
  | nil => rfl
  | cons a l ih =>
    obtain ⟨hb, hl⟩ := List.forall_mem_cons.mp h
    obtain ⟨b, hb, hg⟩ := hb
    rw [List.filterMap_cons, hb, List.map_cons, hg, ih hl]

/-- The entries of the dictionary are the keys and the scores of the ranked hits. -/
theorem ranked_entries {b : Boosted} (h : ∀ e ∈ b.scores.entries, ∃ hit, b.byId.get? e.1 = some hit ∧ keyOf hit = e.1) :
    b.ranked.map (fun hit => (keyOf hit, hit.score)) = Rank.ranked (fun e : Text × ℚ => -e.2) b.scores.entries := by
  refine map_filterMap_eq fun e he => ?_
  obtain ⟨hit, hhit, hkey⟩ := h e (mem_ranked.mp he)
  exact ⟨{ hit with score := e.2, matchedOn := b.matched.get? hit.noteId }, by rw [hhit]; rfl, Prod.ext hkey rfl⟩

end

/-- Lists whose hits have their keys as ids, each key once a list, and whose stand-ins have keys of their own. -/
structure Legs (fts vec : List (Text × ChunkHit)) (metadata : List MetadataHit) : Prop where
  ids : ∀ x ∈ fts ++ vec, x.2.chunkId = some x.1
  ftsOnce : (fts.map Prod.fst).Nodup
  vecOnce : (vec.map Prod.fst).Nodup
  notesOnce : (metadata.map (·.noteId)).Nodup
  apart : ∀ m ∈ metadata, (∀ c, noteOf (fts.map Prod.snd) (vec.map Prod.snd) c ≠ some m.noteId) →
    standInKey m.noteId ∉ (fts ++ vec).map Prod.fst

section
variable {fts vec : List (Text × ChunkHit)} {metadata : List MetadataHit} {m m' : MetadataHit} {c n key : Text}
  {h : ChunkHit} {σ : ℚ}

theorem tally_byId : (tally fts vec).byId.get? c = ((fts ++ vec).find? fun x => x.1 = c).map Prod.snd := by
  rw [tally, count_byId, count_byId, List.find?_append]
  show (none.or _).or _ = _
  cases fts.find? fun x => x.1 = c <;> rfl

theorem noteOf_eq (hl : Legs fts vec metadata) :
    noteOf (fts.map Prod.snd) (vec.map Prod.snd) c = ((tally fts vec).byId.get? c).map (·.noteId) := by
  rw [tally_byId, noteOf, ← List.map_append, List.find?_map, Option.map_map, Option.map_map]
  refine congrArg _ (List.find?_congr fun x hx => ?_)
  show decide (x.2.chunkId = some c) = decide (x.1 = c)
  rw [hl.ids x hx]
  simp

theorem base_eq (hl : Legs fts vec metadata) : base (fts.map Prod.snd) (vec.map Prod.snd) c =
    share (fts.map Prod.fst) c + share (vec.map Prod.fst) c := by
  have hshare : ∀ l : List (Text × ChunkHit), (∀ x ∈ l, x.2.chunkId = some x.1) →
      share ((l.map Prod.snd).map (·.chunkId)) (some c) = share (l.map Prod.fst) c := by
    intro l hl
    rw [List.map_map]
    refine share_map_congr fun x hx => ?_
    rw [Function.comp_apply, hl x hx, Option.some_inj]
  rw [base, hshare fts fun x hx => hl.ids x (List.mem_append_left _ hx),
    hshare vec fun x hx => hl.ids x (List.mem_append_right _ hx)]

theorem tally_scores (hl : Legs fts vec metadata) : (tally fts vec).scores.get? c = some σ ↔
    c ∈ (fts ++ vec).map Prod.fst ∧ base (fts.map Prod.snd) (vec.map Prod.snd) c = σ := by
  have hfirst : ∀ {τ}, (fts.zipIdx.foldl Tally.count Tally.empty).scores.get? c = some τ ↔
      c ∈ fts.map Prod.fst ∧ share (fts.map Prod.fst) c = τ := by
    intro τ
    have hzero : (Tally.empty.scores.get? c).getD 0 = 0 := rfl
    have hnil : c ∉ Tally.empty.scores.keys := List.not_mem_nil
    rw [count_share hl.ftsOnce, hzero, zero_add]
    simp only [hnil, or_false]
  rw [tally, count_share hl.vecOnce, base_eq hl, List.map_append, List.mem_append]
  by_cases hf : c ∈ fts.map Prod.fst
  · have hget := hfirst.mpr ⟨hf, rfl⟩
    rw [and_iff_right (.inr (Dict.mem_keys.mpr ⟨_, hget⟩)), and_iff_right (.inl hf), hget]
    rfl
  · have hkeys : c ∉ (fts.zipIdx.foldl Tally.count Tally.empty).scores.keys := fun hmem => by
      obtain ⟨τ, hτ⟩ := Dict.mem_keys.mp hmem
      exact hf (hfirst.mp hτ).1
    rw [Dict.get?_eq_none.mpr hkeys, share_of_not_mem hf]
    simp only [hf, hkeys, or_false, false_or, Option.getD_none]

theorem mem_keys_tally (hl : Legs fts vec metadata) :
    c ∈ (tally fts vec).scores.keys ↔ c ∈ (fts ++ vec).map Prod.fst := by
  rw [Dict.mem_keys]
  constructor
  · rintro ⟨σ, hσ⟩
    exact ((tally_scores hl).mp hσ).1
  · exact fun hc => ⟨_, (tally_scores hl).mpr ⟨hc, rfl⟩⟩

theorem noteOf_ne_none (hl : Legs fts vec metadata) :
    noteOf (fts.map Prod.snd) (vec.map Prod.snd) c ≠ none ↔ c ∈ (fts ++ vec).map Prod.fst := by
  rw [noteOf_eq hl, tally_byId, Option.map_map, ne_eq, Option.map_eq_none_iff, List.find?_eq_none, List.mem_map]
  simp

/-! ## the best chunk, again -/

def bestOf (fts vec : List (Text × ChunkHit)) (n : Text) : Option Text :=
  ((bestChunks (tally fts vec)).get? n).map Prod.snd

theorem bestOf_some (hl : Legs fts vec metadata) (h : bestOf fts vec n = some c) :
    noteOf (fts.map Prod.snd) (vec.map Prod.snd) c = some n ∧
      ∀ c', noteOf (fts.map Prod.snd) (vec.map Prod.snd) c' = some n →
        base (fts.map Prod.snd) (vec.map Prod.snd) c' ≤ base (fts.map Prod.snd) (vec.map Prod.snd) c := by
  obtain ⟨⟨σ, c⟩, hbest, rfl⟩ := Option.map_eq_some_iff.mp h
  obtain ⟨hmem, ⟨hit, hhit, hnote⟩, hmax⟩ := (bestChunks_spec (tally fts vec)).found n σ c hbest
  have hbase := ((tally_scores hl).mp (Dict.mem_entries_iff.mp hmem)).2
  refine ⟨by rw [noteOf_eq hl, hhit, Option.map_some, hnote], fun c' hc' => ?_⟩
  obtain ⟨hit', hhit', hnote'⟩ := Option.map_eq_some_iff.mp ((noteOf_eq hl).symm.trans hc')
  have hids : c' ∈ (fts ++ vec).map Prod.fst := (noteOf_ne_none hl).mp (by rw [hc']; nofun)
  rw [hbase]
  exact hmax (c', _) (Dict.mem_entries_iff.mpr ((tally_scores hl).mpr ⟨hids, rfl⟩)) hit' hhit' hnote'

theorem bestOf_none (hl : Legs fts vec metadata) (h : bestOf fts vec n = none) (c : Text) :
    noteOf (fts.map Prod.snd) (vec.map Prod.snd) c ≠ some n := by
  intro hc
  obtain ⟨hit, hhit, hnote⟩ := Option.map_eq_some_iff.mp ((noteOf_eq hl).symm.trans hc)
  have hids : c ∈ (fts ++ vec).map Prod.fst := (noteOf_ne_none hl).mp (by rw [hc]; nofun)
  exact (bestChunks_spec (tally fts vec)).missing n (Option.map_eq_none_iff.mp h) (c, _)
    (Dict.mem_entries_iff.mpr ((tally_scores hl).mpr ⟨hids, rfl⟩)) hit hhit hnote

/-- Where the share of a note goes. -/
theorem target_cases (hl : Legs fts vec metadata) (hm : m ∈ metadata) :
    (bestOf fts vec m.noteId = some (target (bestChunks (tally fts vec)) m) ∧
        target (bestChunks (tally fts vec)) m ∈ (fts ++ vec).map Prod.fst) ∨
      bestOf fts vec m.noteId = none ∧ target (bestChunks (tally fts vec)) m = standInKey m.noteId ∧
        standInKey m.noteId ∉ (fts ++ vec).map Prod.fst := by
  unfold target
  cases hbest : (bestChunks (tally fts vec)).get? m.noteId with
  | some b =>
    have hsome : bestOf fts vec m.noteId = some b.2 := by rw [bestOf, hbest]; rfl
    exact .inl ⟨hsome, (noteOf_ne_none hl).mp (by rw [(bestOf_some hl hsome).1]; nofun)⟩
  | none =>
    have hnone : bestOf fts vec m.noteId = none := by rw [bestOf, hbest]; rfl
    exact .inr ⟨hnone, rfl, hl.apart m hm (bestOf_none hl hnone)⟩

theorem standInKey_inj {n n' : Text} (h : standInKey n = standInKey n') : n = n' := List.append_cancel_left h

/-- Two notes give their shares to two hits. -/
theorem target_inj (hl : Legs fts vec metadata) (hm : m ∈ metadata) (hm' : m' ∈ metadata)
    (h : target (bestChunks (tally fts vec)) m = target (bestChunks (tally fts vec)) m') : m.noteId = m'.noteId := by
  rcases target_cases hl hm with ⟨hbest, hids⟩ | ⟨-, hkey, hids⟩ <;>
    rcases target_cases hl hm' with ⟨hbest', hids'⟩ | ⟨-, hkey', hids'⟩
  · rw [h] at hbest
    exact Option.some.inj ((bestOf_some hl hbest).1.symm.trans (bestOf_some hl hbest').1)
  · rw [h, hkey'] at hids
    exact (hids' hids).elim
  · rw [← h, hkey] at hids'
    exact (hids hids').elim
  · exact standInKey_inj (hkey.symm.trans (h.trans hkey'))

/-! ## all candidates -/

theorem boosted_tally (fts vec : List (Text × ChunkHit)) (metadata : List MetadataHit) :
    (boosted (tally fts vec) metadata).toTally =
      (metadata.map fun m => (target (bestChunks (tally fts vec)) m, standIn m)).zipIdx.foldl Tally.count
        (tally fts vec) := by
  refine boost_eq fun n σ c hc => ?_
  obtain ⟨-, ⟨hit, hhit, -⟩, -⟩ := (bestChunks_spec (tally fts vec)).found n σ c hc
  exact Option.isSome_iff_exists.mpr ⟨hit, hhit⟩

theorem boosted_scores (hl : Legs fts vec metadata) : (boosted (tally fts vec) metadata).scores.get? key = some σ ↔
    (key ∈ metadata.map (target (bestChunks (tally fts vec))) ∨ key ∈ (fts ++ vec).map Prod.fst) ∧
      ((tally fts vec).scores.get? key).getD 0 + share (metadata.map (target (bestChunks (tally fts vec)))) key = σ := by
  have hfst : (metadata.map fun m => (target (bestChunks (tally fts vec)) m, standIn m)).map Prod.fst =
      metadata.map (target (bestChunks (tally fts vec))) := by
    rw [List.map_map]
    rfl
  have honce : (metadata.map (target (bestChunks (tally fts vec)))).Nodup :=
    (List.nodup_map_iff_inj_on (List.Nodup.of_map _ hl.notesOnce)).mpr fun m hm m' hm' h =>
      List.inj_on_of_nodup_map hl.notesOnce hm hm' (target_inj hl hm hm' h)
  rw [show (boosted (tally fts vec) metadata).scores = _ from congrArg Tally.scores (boosted_tally fts vec metadata),
    count_share (hfst ▸ honce), hfst, mem_keys_tally hl]

/-- A key of the candidates is the id of a chunk, or stands for a note without one. -/
theorem boosted_byId (hl : Legs fts vec metadata) (h : (boosted (tally fts vec) metadata).scores.get? key = some σ) :
    ∃ hit, (boosted (tally fts vec) metadata).byId.get? key = some hit ∧
      ((key ∈ (fts ++ vec).map Prod.fst ∧ hit.chunkId = some key ∧
          noteOf (fts.map Prod.snd) (vec.map Prod.snd) key = some hit.noteId) ∨
        (key ∉ (fts ++ vec).map Prod.fst ∧ hit.chunkId = none ∧ key = standInKey hit.noteId ∧
          hit.noteId ∈ metadata.map (·.noteId) ∧ bestOf fts vec hit.noteId = none)) := by
  have hbyId : (boosted (tally fts vec) metadata).byId.get? key = ((tally fts vec).byId.get? key).or
      (((metadata.map fun m => (target (bestChunks (tally fts vec)) m, standIn m)).find? fun x => x.1 = key).map
        Prod.snd) := by
    rw [show (boosted (tally fts vec) metadata).byId = _ from congrArg Tally.byId (boosted_tally fts vec metadata),
      count_byId]
  rw [hbyId]
  by_cases hids : key ∈ (fts ++ vec).map Prod.fst
  · obtain ⟨n, hn⟩ := Option.ne_none_iff_exists'.mp ((noteOf_ne_none hl).mpr hids)
    obtain ⟨hit, hhit, rfl⟩ := Option.map_eq_some_iff.mp ((noteOf_eq hl).symm.trans hn)
    refine ⟨hit, by rw [hhit]; rfl, .inl ⟨hids, ?_, hn⟩⟩
    obtain ⟨x, hx, rfl⟩ := Option.map_eq_some_iff.mp (tally_byId.symm.trans hhit)
    rw [hl.ids x (List.mem_of_find?_eq_some hx), show x.1 = key by simpa using List.find?_some hx]
  · have hnone : (tally fts vec).byId.get? key = none := by
      rw [tally_byId, Option.map_eq_none_iff, List.find?_eq_none]
      exact fun x hx hkey => hids (List.mem_map.mpr ⟨x, hx, of_decide_eq_true hkey⟩)
    obtain ⟨m₀, hm₀, htarget₀⟩ := List.mem_map.mp (((boosted_scores hl).mp h).1.resolve_right hids)
    cases hfind : (metadata.map fun m => (target (bestChunks (tally fts vec)) m, standIn m)).find? fun x => x.1 = key with
    | none =>
      exact absurd (decide_eq_true htarget₀) (List.find?_eq_none.mp hfind _ (List.mem_map.mpr ⟨m₀, hm₀, rfl⟩))
    | some x =>
      obtain ⟨m, hm, rfl⟩ := List.mem_map.mp (List.mem_of_find?_eq_some hfind)
      have htarget : target (bestChunks (tally fts vec)) m = key := by simpa using List.find?_some hfind
      rw [hnone]
      refine ⟨standIn m, rfl, .inr ⟨hids, rfl, ?_⟩⟩
      rcases target_cases hl hm with ⟨-, hmem⟩ | ⟨hbest, hkey, -⟩
      · exact (hids (htarget ▸ hmem)).elim
      · exact ⟨htarget.symm.trans hkey, List.mem_map.mpr ⟨m, hm, rfl⟩, hbest⟩

/-- The ranked hits are the keys with their scores. -/
theorem ranked_map (hl : Legs fts vec metadata) :
    (boosted (tally fts vec) metadata).ranked.map (fun hit => (keyOf hit, hit.score)) =
      Rank.ranked (fun e : Text × ℚ => -e.2) (boosted (tally fts vec) metadata).scores.entries := by
  refine ranked_entries fun e he => ?_
  obtain ⟨hit, hhit, ⟨-, hid, -⟩ | ⟨-, hid, hkey, -⟩⟩ := boosted_byId hl (Dict.mem_entries_iff.mp he)
  · exact ⟨hit, hhit, by rw [keyOf, hid, Option.getD_some]⟩
  · exact ⟨hit, hhit, by rw [keyOf, hid, Option.getD_none, ← hkey]⟩

theorem exists_ranked (hl : Legs fts vec metadata) (h : (boosted (tally fts vec) metadata).scores.get? key = some σ) :
    ∃ hit ∈ (boosted (tally fts vec) metadata).ranked, keyOf hit = key ∧ hit.score = σ := by
  have hmem : (key, σ) ∈ (boosted (tally fts vec) metadata).ranked.map fun hit => (keyOf hit, hit.score) := by
    rw [ranked_map hl, mem_ranked]
    exact Dict.mem_entries_iff.mpr h
  obtain ⟨hit, hhit, heq⟩ := List.mem_map.mp hmem
  exact ⟨hit, hhit, congrArg Prod.fst heq, congrArg Prod.snd heq⟩

/-- What the metadata give to a chunk. -/
theorem share_chunk (hl : Legs fts vec metadata) (hc : c ∈ (fts ++ vec).map Prod.fst)
    (hn : noteOf (fts.map Prod.snd) (vec.map Prod.snd) c = some n) :
    share (metadata.map (target (bestChunks (tally fts vec)))) c =
      if bestOf fts vec n = some c then share (metadata.map (·.noteId)) n else 0 := by
  have hown : ∀ m ∈ metadata, target (bestChunks (tally fts vec)) m = c → m.noteId = n ∧ bestOf fts vec n = some c := by
    intro m hm htarget
    rcases target_cases hl hm with ⟨hbest, -⟩ | ⟨-, hkey, hids⟩
    · rw [htarget] at hbest
      obtain rfl := Option.some.inj (hn.symm.trans (bestOf_some hl hbest).1)
      exact ⟨rfl, hbest⟩
    · exact (hids (hkey ▸ htarget ▸ hc)).elim
  by_cases hbest : bestOf fts vec n = some c
  · rw [if_pos hbest]
    refine share_map_congr fun m hm => ⟨fun htarget => (hown m hm htarget).1, fun hnote => ?_⟩
    subst hnote
    obtain ⟨b, hb, rfl⟩ := Option.map_eq_some_iff.mp hbest
    rw [target, hb]
  · rw [if_neg hbest]
    refine share_of_not_mem fun hmem => ?_
    obtain ⟨m, hm, htarget⟩ := List.mem_map.mp hmem
    exact hbest (hown m hm htarget).2

/-- What they give to a hit that stands in for a note. -/
theorem share_standIn (hl : Legs fts vec metadata) (hids : standInKey n ∉ (fts ++ vec).map Prod.fst)
    (hbest : bestOf fts vec n = none) :
    share (metadata.map (target (bestChunks (tally fts vec)))) (standInKey n) = share (metadata.map (·.noteId)) n := by
  refine share_map_congr fun m hm => ⟨fun htarget => ?_, fun hnote => ?_⟩
  · rcases target_cases hl hm with ⟨-, hmem⟩ | ⟨-, hkey, -⟩
    · exact (hids (htarget ▸ hmem)).elim
    · exact standInKey_inj (hkey.symm.trans htarget)
  · subst hnote
    rw [target, Option.map_eq_none_iff.mp hbest]

/-- **A ranked hit** is a chunk with its shares, or stands in for a note. -/
theorem ranked_cases (hl : Legs fts vec metadata) (hh : h ∈ (boosted (tally fts vec) metadata).ranked) :
    (∃ c ∈ (fts ++ vec).map Prod.fst, h.chunkId = some c ∧
        noteOf (fts.map Prod.snd) (vec.map Prod.snd) c = some h.noteId ∧
        h.score = base (fts.map Prod.snd) (vec.map Prod.snd) c +
          if bestOf fts vec h.noteId = some c then share (metadata.map (·.noteId)) h.noteId else 0) ∨
      h.chunkId = none ∧ standInKey h.noteId ∉ (fts ++ vec).map Prod.fst ∧ h.noteId ∈ metadata.map (·.noteId) ∧
        bestOf fts vec h.noteId = none ∧ h.score = share (metadata.map (·.noteId)) h.noteId := by
  obtain ⟨e, he, hsome⟩ := List.mem_filterMap.mp hh
  have hget := Dict.mem_entries_iff.mp (mem_ranked.mp he)
  obtain ⟨-, hscore⟩ := (boosted_scores hl).mp hget
  obtain ⟨hit, hhit, hcases⟩ := boosted_byId hl hget
  rw [hhit] at hsome
  obtain rfl := Option.some.inj hsome
  obtain ⟨hids, hid, hnote⟩ | ⟨hids, hid, hkey, hmeta, hbest⟩ := hcases
  · refine .inl ⟨e.1, hids, hid, hnote, ?_⟩
    show e.2 = _
    rw [← share_chunk hl hids hnote, ← hscore, (tally_scores hl).mpr ⟨hids, rfl⟩, Option.getD_some]
  · rw [hkey] at hids hscore
    refine .inr ⟨hid, hids, hmeta, hbest, ?_⟩
    show e.2 = _
    have hzero : (tally fts vec).scores.get? (standInKey hit.noteId) = none :=
      Dict.get?_eq_none.mpr fun hmem => hids ((mem_keys_tally hl).mp hmem)
    rw [← share_standIn hl hids hbest, ← hscore, hzero, Option.getD_none, zero_add]

theorem keys_nodup (hl : Legs fts vec metadata) : ((boosted (tally fts vec) metadata).ranked.map keyOf).Nodup := by
  have hfst : (boosted (tally fts vec) metadata).ranked.map keyOf =
      ((boosted (tally fts vec) metadata).ranked.map fun hit => (keyOf hit, hit.score)).map Prod.fst := by
    rw [List.map_map]
    rfl
  rw [hfst, ranked_map hl]
  exact ((ranked_perm _ _).map Prod.fst).nodup_iff.mpr (boosted (tally fts vec) metadata).scores.nodup

theorem keys_apart (hl : Legs fts vec metadata) :
    (boosted (tally fts vec) metadata).ranked.Pairwise fun a b => keyOf a ≠ keyOf b :=
  List.pairwise_map.mp (keys_nodup hl)

/-- **The ranked hits** are all candidates. -/
theorem candidates (hl : Legs fts vec metadata) : Candidates (fts.map Prod.snd) (vec.map Prod.snd) metadata
    (bestOf fts vec) (boosted (tally fts vec) metadata).ranked where
  bestSome n c := bestOf_some hl
  bestNone n h := bestOf_none hl h
  chunks c := by
    rw [List.mem_filterMap, noteOf_ne_none hl]
    constructor
    · rintro ⟨h, hh, hid⟩
      obtain ⟨c', hc', hid', -⟩ | ⟨hid', -⟩ := ranked_cases hl hh
      · rwa [Option.some.inj (hid.symm.trans hid')]
      · rw [hid] at hid'
        cases hid'
    · intro hc
      obtain ⟨h, hh, hkey, -⟩ := exists_ranked hl ((boosted_scores hl).mpr ⟨.inr hc, rfl⟩)
      refine ⟨h, hh, ?_⟩
      obtain ⟨c', hc', hid', -⟩ | ⟨hid', hids, -⟩ := ranked_cases hl hh
      · rw [keyOf, hid', Option.getD_some] at hkey
        rw [hid', hkey]
      · rw [keyOf, hid', Option.getD_none] at hkey
        exact (hids (hkey ▸ hc)).elim
  chunksOnce := by
    refine List.pairwise_filterMap.mpr ((keys_apart hl).imp fun {a b} hab c hc c' hc' heq => hab ?_)
    rw [keyOf, keyOf, hc, hc', heq, Option.getD_some, Option.getD_some]
  standIns n := by
    rw [List.mem_map]
    constructor
    · rintro ⟨h, hh, rfl⟩
      obtain ⟨hh, hnone⟩ := List.mem_filter.mp hh
      obtain ⟨c, -, hid, -⟩ | ⟨-, -, hmeta, hbest, -⟩ := ranked_cases hl hh
      · rw [hid] at hnone
        simp at hnone
      · exact ⟨hmeta, hbest⟩
    · rintro ⟨hmeta, hbest⟩
      obtain ⟨m, hm, rfl⟩ := List.mem_map.mp hmeta
      obtain ⟨hsome, -⟩ | ⟨-, hkey, hids⟩ := target_cases hl hm
      · rw [hbest] at hsome
        cases hsome
      · obtain ⟨h, hh, hkeyOf, -⟩ := exists_ranked hl
          ((boosted_scores hl).mpr ⟨.inl (List.mem_map.mpr ⟨m, hm, hkey⟩), rfl⟩)
        obtain ⟨c, hc, hid, -⟩ | ⟨hid, -⟩ := ranked_cases hl hh
        · rw [keyOf, hid, Option.getD_some] at hkeyOf
          exact (hids (hkeyOf ▸ hc)).elim
        · rw [keyOf, hid, Option.getD_none] at hkeyOf
          exact ⟨h, List.mem_filter.mpr ⟨hh, decide_eq_true hid⟩, standInKey_inj hkeyOf⟩
  standInsOnce := by
    rw [List.Nodup, List.pairwise_map, List.pairwise_filter]
    refine (keys_apart hl).imp fun {a b} hab ha hb hnote => hab ?_
    rw [keyOf, keyOf, of_decide_eq_true ha, of_decide_eq_true hb, hnote]
  chunkScore h hh c hid := by
    obtain ⟨c', -, hid', hnote, hscore⟩ | ⟨hid', -⟩ := ranked_cases hl hh
    · obtain rfl := Option.some.inj (hid.symm.trans hid')
      exact ⟨hnote, hscore⟩
    · rw [hid] at hid'
      cases hid'
  standInScore h hh hid := by
    obtain ⟨c', -, hid', -⟩ | ⟨-, -, -, -, hscore⟩ := ranked_cases hl hh
    · rw [hid] at hid'
      cases hid'
    · exact hscore

end

/-! ## the cut -/

/-- The last loop cuts the ranked list. -/
theorem capLoop_eq {limit perNoteCap : ℕ} {hits taken : List ChunkHit} {perNote : Dict Text ℕ}
    (h : taken.length < limit) : capLoop limit perNoteCap perNote taken hits =
      taken ++ (Capped.capped (·.noteId) perNoteCap (fun n => (perNote.get? n).getD 0) hits).take
        (limit - taken.length) := by
  induction hits generalizing perNote taken with
  | nil => rw [capLoop, Capped.capped, List.take_nil, List.append_nil]
  | cons hit hits ih =>
    have hlen : (taken ++ [hit]).length = taken.length + 1 := List.length_append
    unfold capLoop Capped.capped
    by_cases hfull : perNoteCap ≤ (perNote.get? hit.noteId).getD 0
    · rw [if_pos hfull, if_pos hfull, ih h]
    · rw [if_neg hfull, if_neg hfull, hlen]
      by_cases hlast : limit ≤ taken.length + 1
      · rw [if_pos hlast, show limit - taken.length = 0 + 1 by omega, List.take_succ_cons, List.take_zero]
      · have hused : (fun n => ((perNote.set hit.noteId ((perNote.get? hit.noteId).getD 0 + 1)).get? n).getD 0) =
            Function.update (fun n => (perNote.get? n).getD 0) hit.noteId ((perNote.get? hit.noteId).getD 0 + 1) := by
          funext n
          rw [Dict.get?_set, Function.update_apply]
          split <;> rfl
        rw [if_neg hlast, ih (by omega), hused, hlen, List.append_assoc, List.singleton_append,
          show limit - taken.length = limit - (taken.length + 1) + 1 by omega, List.take_succ_cons]

section
variable {fts vec : List ChunkHit} {keyedFts keyedVec : List (Text × ChunkHit)} {metadata : List MetadataHit}
  {limit perNoteCap : ℕ} {allowed : Option (Finset Text)}

theorem mem_filterHits {α : Type*} {noteId : α → Text} {l : List α} {a : α} :
    a ∈ filterHits noteId allowed l ↔ a ∈ l ∧ ∀ ids, allowed = some ids → noteId a ∈ ids := by
  cases allowed with
  | none => simp [filterHits]
  | some ids => simp [filterHits]

theorem filterHits_sublist {α : Type*} {noteId : α → Text} {l : List α} : (filterHits noteId allowed l).Sublist l := by
  cases allowed with
  | none => exact List.Sublist.refl l
  | some ids => exact List.filter_sublist

theorem map_fst_keyed {l : List (Text × ChunkHit)} (h : ∀ x ∈ l, x.2.chunkId = some x.1) :
    (l.map Prod.snd).map (·.chunkId) = (l.map Prod.fst).map some := by
  rw [List.map_map, List.map_map]
  exact List.map_congr_left h

theorem ranked_sorted (hl : Legs keyedFts keyedVec metadata) :
    (boosted (tally keyedFts keyedVec) metadata).ranked.Pairwise fun a b => b.score ≤ a.score := by
  have hmap : ((boosted (tally keyedFts keyedVec) metadata).ranked.map fun hit => (keyOf hit, hit.score)).Pairwise
      fun a b => -a.2 ≤ -b.2 := by
    rw [ranked_map hl]
    exact ranked_pairwise _ _
  exact (List.pairwise_map.mp hmap).imp fun {a b} hab => neg_le_neg_iff.mp hab

/-- **The cut** of the ranked hits. -/
theorem cut_fused (hl : Legs keyedFts keyedVec metadata) :
    Fused (keyedFts.map Prod.snd) (keyedVec.map Prod.snd) metadata limit perNoteCap
      (Capped.cut (·.noteId) perNoteCap limit (boosted (tally keyedFts keyedVec) metadata).ranked) where
  length := Capped.length_cut_le
  sorted := (ranked_sorted hl).sublist Capped.cut_sublist
  chunksOnce := (candidates hl).chunksOnce.sublist (Capped.cut_sublist.filterMap _)
  standInsOnce := (candidates hl).standInsOnce.sublist ((Capped.cut_sublist.filter _).map _)
  capped _ := Capped.count_cut_le
  optimal := ⟨bestOf keyedFts keyedVec, _, candidates hl, fun _ hh => Capped.cut_sublist.subset hh, fun _ hx hnot =>
    Capped.cut_omitted (fun _ _ _ hab hbc => hbc.trans hab) (ranked_sorted hl) hx hnot⟩

/-- The hits are a cut of the ranked candidates. -/
theorem fuseHybrid_eq (hf : keyed (filterHits (·.noteId) allowed fts) = some keyedFts)
    (hv : keyed (filterHits (·.noteId) allowed vec) = some keyedVec) (hlimit : 1 ≤ limit) :
    fuseHybrid fts vec metadata limit perNoteCap allowed = some (Capped.cut (·.noteId) perNoteCap limit
      (boosted (tally keyedFts keyedVec) (filterHits (·.noteId) allowed metadata)).ranked) := by
  unfold fuseHybrid
  rw [hf, hv]
  show some (capLoop _ _ _ [] _) = _
  rw [capLoop_eq (Nat.lt_of_succ_le hlimit)]
  rfl

theorem keyed_nodup (hf : keyed (filterHits (·.noteId) allowed fts) = some keyedFts)
    (hfts : (fts.map (·.chunkId)).Nodup) : (keyedFts.map Prod.fst).Nodup := by
  obtain ⟨hsnd, hid⟩ := keyed_spec hf
  refine List.Nodup.of_map some ?_
  rw [← map_fst_keyed hid, hsnd]
  exact hfts.sublist (filterHits_sublist.map _)

theorem legs_of_keyed (hf : keyed (filterHits (·.noteId) allowed fts) = some keyedFts)
    (hv : keyed (filterHits (·.noteId) allowed vec) = some keyedVec) (hfts : (fts.map (·.chunkId)).Nodup)
    (hvec : (vec.map (·.chunkId)).Nodup) (hmetadata : (metadata.map (·.noteId)).Nodup)
    (hapart : ∀ m ∈ filterHits (·.noteId) allowed metadata,
      (∀ c, noteOf (filterHits (·.noteId) allowed fts) (filterHits (·.noteId) allowed vec) c ≠ some m.noteId) →
        ∀ h ∈ filterHits (·.noteId) allowed fts ++ filterHits (·.noteId) allowed vec,
          h.chunkId ≠ some (standInKey m.noteId)) :
    Legs keyedFts keyedVec (filterHits (·.noteId) allowed metadata) := by
  obtain ⟨hsndf, hidf⟩ := keyed_spec hf
  obtain ⟨hsndv, hidv⟩ := keyed_spec hv
  refine ⟨List.forall_mem_append.mpr ⟨hidf, hidv⟩, keyed_nodup hf hfts, keyed_nodup hv hvec,
    hmetadata.sublist (filterHits_sublist.map _), fun m hm hnone hmem => ?_⟩
  rw [hsndf, hsndv] at hnone
  obtain ⟨x, hx, hkey⟩ := List.mem_map.mp hmem
  refine hapart m hm hnone x.2 ?_ (hkey ▸ List.forall_mem_append.mpr ⟨hidf, hidv⟩ x hx)
  rw [← hsndf, ← hsndv, ← List.map_append]
  exact List.mem_map.mpr ⟨x, hx, rfl⟩

/-- **Fusion.** The hits are the best candidates of the filtered lists, if no chunk has the key of a stand-in. -/
theorem fuseHybrid_fused (hids : ∀ h ∈ fts ++ vec, h.chunkId ≠ none) (hfts : (fts.map (·.chunkId)).Nodup)
    (hvec : (vec.map (·.chunkId)).Nodup) (hmetadata : (metadata.map (·.noteId)).Nodup) (hlimit : 1 ≤ limit)
    (hapart : ∀ m ∈ filterHits (·.noteId) allowed metadata,
      (∀ c, noteOf (filterHits (·.noteId) allowed fts) (filterHits (·.noteId) allowed vec) c ≠ some m.noteId) →
        ∀ h ∈ filterHits (·.noteId) allowed fts ++ filterHits (·.noteId) allowed vec,
          h.chunkId ≠ some (standInKey m.noteId)) :
    ∃ hits, fuseHybrid fts vec metadata limit perNoteCap allowed = some hits ∧
      Fused (filterHits (·.noteId) allowed fts) (filterHits (·.noteId) allowed vec)
        (filterHits (·.noteId) allowed metadata) limit perNoteCap hits ∧
      ∀ ids, allowed = some ids → ∀ h ∈ hits, h.noteId ∈ ids := by
  obtain ⟨hf, hv⟩ := List.forall_mem_append.mp hids
  obtain ⟨keyedFts, hf⟩ : ∃ l, keyed (filterHits (·.noteId) allowed fts) = some l :=
    keyed_isSome fun h hh => hf h (filterHits_sublist.subset hh)
  obtain ⟨keyedVec, hv⟩ : ∃ l, keyed (filterHits (·.noteId) allowed vec) = some l :=
    keyed_isSome fun h hh => hv h (filterHits_sublist.subset hh)
  have hl := legs_of_keyed hf hv hfts hvec hmetadata hapart
  have hcut : Fused (keyedFts.map Prod.snd) (keyedVec.map Prod.snd) (filterHits (·.noteId) allowed metadata) limit
      perNoteCap _ := cut_fused hl
  rw [(keyed_spec hf).1, (keyed_spec hv).1] at hcut
  refine ⟨_, fuseHybrid_eq hf hv hlimit, hcut, fun ids hallowed h hh => ?_⟩
  obtain ⟨c, -, -, hnote, -⟩ | ⟨-, -, hmeta, -⟩ := ranked_cases hl (Capped.cut_sublist.subset hh)
  · rw [(keyed_spec hf).1, (keyed_spec hv).1] at hnote
    obtain ⟨x, hx, hxnote⟩ := Option.map_eq_some_iff.mp hnote
    rw [← hxnote]
    rcases List.mem_append.mp (List.mem_of_find?_eq_some hx) with hmem | hmem
    · exact (mem_filterHits.mp hmem).2 ids hallowed
    · exact (mem_filterHits.mp hmem).2 ids hallowed
  · obtain ⟨m, hm, hmnote⟩ := List.mem_map.mp hmeta
    rw [← hmnote]
    exact (mem_filterHits.mp hm).2 ids hallowed

end

section Samples

def chunkOf (id noteId : String) : ChunkHit :=
  ⟨some id.toList, noteId.toList, "T".toList, "work".toList, "2026-02-01".toList, [], "text".toList, 0, none⟩

def matchOf (noteId : String) : MetadataHit := ⟨noteId.toList, "T".toList, "work".toList, "2026-02-01".toList, [.title]⟩

def visible : Finset Text := {"p".toList, "q".toList, "r".toList}

theorem fuseHybrid_fused_matched : ∃ hits,
    fuseHybrid [chunkOf "c1" "p", chunkOf "c2" "q", chunkOf "c3" "p", chunkOf "c4" "x"] [chunkOf "c2" "q"]
      [matchOf "p", matchOf "r"] 3 1 (some visible) = some hits ∧
    Fused [chunkOf "c1" "p", chunkOf "c2" "q", chunkOf "c3" "p"] [chunkOf "c2" "q"] [matchOf "p", matchOf "r"] 3 1 hits ∧
    ∀ ids, some visible = some ids → ∀ h ∈ hits, h.noteId ∈ ids :=
  fuseHybrid_fused (by decide +kernel) (by decide +kernel) (by decide +kernel) (by decide +kernel) (by decide)
    fun m hm _ => (by decide +kernel : ∀ m ∈ [matchOf "p", matchOf "r"], ∀ h ∈ [chunkOf "c1" "p", chunkOf "c2" "q",
      chunkOf "c3" "p"] ++ [chunkOf "c2" "q"], h.chunkId ≠ some (standInKey m.noteId)) m hm

/-- A chunk with the key of a stand-in takes the share of the other note. -/
theorem standIn_clash : ∃ hits,
    fuseHybrid [chunkOf "meta:n" "o"] [] [matchOf "n"] 5 3 none = some hits ∧
    ¬ Fused [chunkOf "meta:n" "o"] [] [matchOf "n"] 5 3 hits := by
  refine ⟨[{ chunkOf "meta:n" "o" with score := 1 / 60 + 1 / 60 }], by decide +kernel, fun h => ?_⟩
  obtain ⟨best, pool, hpool, hsub, -⟩ := h.optimal
  obtain ⟨-, hscore⟩ := hpool.chunkScore _ (hsub _ List.mem_cons_self) _ rfl
  have hshare : share ([matchOf "n"].map (·.noteId)) "o".toList = 0 := by decide +kernel
  have hbase : base [chunkOf "meta:n" "o"] [] "meta:n".toList = 1 / 60 := by decide +kernel
  have heq : (1 / 60 + 1 / 60 : ℚ) = base [chunkOf "meta:n" "o"] [] "meta:n".toList +
    if best "o".toList = some "meta:n".toList then share ([matchOf "n"].map (·.noteId)) "o".toList else 0 := hscore
  rw [hbase, hshare, ite_self] at heq
  exact absurd heq (by decide +kernel)

end Samples
end Kajet.Search
