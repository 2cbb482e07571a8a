import Kajet.Folders.Scope
import Kajet.Search.Fusion
import Mathlib.Algebra.Order.Field.Basic
import Mathlib.Tactic.Linarith
import Mathlib.Tactic.Positivity

/-!
# Searching with a larger limit

A search fuses the candidates of every workspace and keeps the best hits.  The limit also says how many metadata
matches a workspace contributes, unless the search is narrowed.

* `searchMetadata`, `workspaceHits`, `execute`   the search of the service;
* `cut_append`      more metadata matches do not change the first hits, if their notes have no chunk among the
                    candidates;
* `execute_raised`  a larger limit only adds hits where the further metadata matches have no chunk.
-/

namespace Kajet.Search
open Str Rank

/-! ## the search -/

inductive SearchMode where
  | hybrid | keywordOnly
deriving DecidableEq

inductive DegradedReason where
  | authFailed | misconfigured | unavailable
deriving DecidableEq

/-- The vector of a query, or why there is none. -/
structure QueryVector (β ι : Type*) where
  embedding : Option β
  identity : Option ι
  degradedReason : Option DegradedReason

structure SearchOutcome where
  results : List ChunkHit
  searchMode : SearchMode
  degradedReason : Option DegradedReason
  hasMore : Bool
deriving DecidableEq

structure NoteRow where
  noteId : Text
  title : Text
  folder : Text
  updatedAt : Text
deriving DecidableEq

/-- One workspace of the owner: its rows, and what the queries of the repositories find. -/
structure Corpus (β ι : Type*) where
  notes : List NoteRow
  notesOnce : (notes.map (·.noteId)).Nodup
  /-- note ids and paths -/
  tagRows : List (Text × Text)
  noteIdsForTags : List Text → Finset Text
  searchFts : (query : Text) → (limit : ℕ) → List ChunkHit
  searchChunksVec : β → ι → (k : ℕ) → List ChunkHit

/-- A query lists chunks once each; their generated ids have no colon. -/
def ChunkRows (hits : List ChunkHit) : Prop :=
  (∀ h ∈ hits, ∃ id, h.chunkId = some id ∧ ':' ∉ id) ∧ (hits.map (·.chunkId)).Nodup

structure Corpus.Indexed {β ι : Type*} (c : Corpus β ι) : Prop where
  fts : ∀ query limit, ChunkRows (c.searchFts query limit)
  vec : ∀ embedding identity k, ChunkRows (c.searchChunksVec embedding identity k)

/-- `s.split()` -/
def words (s : Text) : List Text := (s.splitOnP isSpace).filter (· ≠ [])

section
variable {β ι : Type*} (casefold : Text → Text) (query : Text) (tags : Option (List Text)) (folder : Option Text)
  (vector : QueryVector β ι) (c : Corpus β ι)

/-- What a token is found in. -/
def tokenMatches (n : NoteRow) (token : Text) : List MetadataMatch :=
  (if token <:+: casefold n.folder then [.folder] else []) ++
  (if ((c.tagRows.filter (·.1 = n.noteId)).map (casefold ·.2)).any (token <:+: ·) then [.tag] else []) ++
  if token <:+: casefold n.title then [.title] else []

/-- `sorted(matched_on)`; nothing if a token is not found. -/
def matchedOn (n : NoteRow) : List MetadataMatch :=
  let found := (words (casefold query)).map (tokenMatches casefold c n)
  if [] ∈ found then [] else [MetadataMatch.folder, .tag, .title].filter (· ∈ found.flatten)

structure RankedMatch where
  hit : MetadataHit
  exactTitle : Bool
  titlePrefix : Bool

/-- All matches, the most recent first; titles that begin with the query in front, and equal ones before them. -/
def metadataMatches : List MetadataHit :=
  let hits := c.notes.filterMap fun n =>
    match matchedOn casefold query c n with
    | [] => none
    | matched => some ⟨⟨n.noteId, n.title, n.folder, n.updatedAt, matched⟩, casefold n.title = casefold query,
        (casefold query).isPrefixOf (casefold n.title)⟩
  let hits := ranked (fun h : RankedMatch => OrderDual.toDual h.hit.updatedAt) hits
  let hits := ranked (fun h : RankedMatch => !h.titlePrefix) hits
  (ranked (fun h : RankedMatch => !h.exactTitle) hits).map (·.hit)

def searchMetadata (limit : ℕ) : List MetadataHit :=
  if words (casefold query) = [] then [] else (metadataMatches casefold query c).take limit

def noteIdsUnderFolder (folder : Text) : Finset Text :=
  ((c.notes.filter fun n => Folders.inFolder folder n.folder).map (·.noteId)).toFinset

/-- The notes that the search is narrowed to. -/
def allowedNotes : Option (Finset Text) :=
  let allowed := match tags with
    | none | some [] => none
    | some tags => some (c.noteIdsForTags tags)
  match folder with
  | none => allowed
  | some folder => some (allowed.elim (noteIdsUnderFolder c folder) (· ∩ noteIdsUnderFolder c folder))

def vecHits (candidateLimit : ℕ) : List ChunkHit :=
  match vector.embedding, vector.identity with
  | some embedding, some identity => c.searchChunksVec embedding identity candidateLimit
  | _, _ => []

/-- The body of the loop. -/
def workspaceHits (perWorkspaceLimit : ℕ) : Option (List ChunkHit) :=
  let allowed := allowedNotes tags folder c
  if allowed = some ∅ then some []
  else
    let candidateLimit := if allowed.isSome then 200 else 50
    let metaLimit := if allowed.isSome then candidateLimit else perWorkspaceLimit
    fuseHybrid (c.searchFts query candidateLimit) (vecHits vector c candidateLimit)
      (searchMetadata casefold query c metaLimit) perWorkspaceLimit 3 allowed

/-- One more than the limit tells whether there is more. -/
def perWorkspaceLimit (workspaces : List Text) (limit : ℕ) : ℕ :=
  (if 1 < workspaces.length then limit * 3 else limit) + 1

/-- `_execute` -/
def execute (db : Text → Corpus β ι) (workspaces : List Text) (limit : ℕ) : Option SearchOutcome := do
  let found ← workspaces.mapM fun ws =>
    workspaceHits casefold query tags folder vector (db ws) (perWorkspaceLimit workspaces limit)
  let results := ranked (fun h : ChunkHit => -h.score) found.flatten
  some {
    results := results.take limit
    searchMode := if vector.embedding.isSome then .hybrid else .keywordOnly
    degradedReason := vector.degradedReason
    hasMore := limit < results.length }

/-- The matches that only the larger limit fetches have no chunk among the candidates. -/
def Settled (limit limit' : ℕ) : Prop :=
  allowedNotes tags folder c = none → ∀ m ∈ (searchMetadata casefold query c limit').drop limit,
    ∀ h ∈ c.searchFts query 50 ++ vecHits vector c 50, h.noteId ≠ m.noteId

end

section
variable {fts vec : List (Text × ChunkHit)} {metadata extra : List MetadataHit} {m : MetadataHit} {key : Text}
  {limit perNoteCap : ℕ}

/-! ## one more metadata match -/

theorem share_nonneg {κ : Type*} [DecidableEq κ] (l : List κ) (k : κ) : 0 ≤ share l k := by
  unfold share
  cases l.findIdx? fun x => x = k with
  | none => exact le_rfl
  | some i => exact div_nonneg zero_le_one (by positivity)

theorem rrf_le_rrf {i j : ℕ} (h : i ≤ j) : rrf j ≤ rrf i := by
  unfold rrf
  have hcast : (i : ℚ) ≤ j := Nat.cast_le.mpr h
  exact one_div_le_one_div_of_le (by positivity) (by linarith)

/-- A listed key has at least the share of the end of the list. -/
theorem rrf_le_share {κ : Type*} [DecidableEq κ] {l : List κ} {k : κ} (h : k ∈ l) : rrf l.length ≤ share l k := by
  unfold share
  cases hidx : l.findIdx? fun x => x = k with
  | none => exact (findIdx?_none.mp hidx h).elim
  | some i =>
    obtain ⟨hlt, -⟩ := List.findIdx?_eq_some_iff_getElem.mp hidx
    exact rrf_le_rrf hlt.le

theorem Legs.of_append (hl : Legs fts vec (metadata ++ extra)) : Legs fts vec metadata where
  ids := hl.ids
  ftsOnce := hl.ftsOnce
  vecOnce := hl.vecOnce
  notesOnce := hl.notesOnce.sublist ((List.sublist_append_left _ _).map _)
  apart m hm := hl.apart m (List.mem_append_left _ hm)

/-- Every note that matched has a hit with its share. -/
theorem exists_hit (hl : Legs fts vec metadata) (hm : m ∈ metadata) :
    ∃ h ∈ (boosted (tally fts vec) metadata).ranked, h.noteId = m.noteId ∧ rrf metadata.length ≤ h.score := by
  have hshare : rrf metadata.length ≤ share (metadata.map (·.noteId)) m.noteId := by
    have hle := rrf_le_share (List.mem_map.mpr ⟨m, hm, rfl⟩ : m.noteId ∈ metadata.map (·.noteId))
    rwa [List.length_map] at hle
  obtain ⟨h, hh, hkey, -⟩ := exists_ranked hl ((boosted_scores hl).mpr ⟨.inl (List.mem_map.mpr ⟨m, hm, rfl⟩), rfl⟩)
  refine ⟨h, hh, ?_⟩
  obtain ⟨c, hc, hid, hnote, hscore⟩ | ⟨hid, hids, -, -, hscore⟩ := ranked_cases hl hh
  · -- the best chunk of the note
    rw [keyOf, hid, Option.getD_some] at hkey
    obtain ⟨hbest, -⟩ | ⟨-, htarget, hids⟩ := target_cases hl hm
    · rw [← hkey] at hbest
      obtain heq := Option.some.inj (hnote.symm.trans (bestOf_some hl hbest).1)
      rw [← heq] at hbest hshare
      refine ⟨heq, hshare.trans ?_⟩
      rw [hscore, if_pos hbest]
      exact le_add_of_nonneg_left (add_nonneg (share_nonneg _ _) (share_nonneg _ _))
    · exact (hids (htarget ▸ hkey ▸ hc)).elim
  · -- the hit that stands in for the note
    rw [keyOf, hid, Option.getD_none] at hkey
    obtain ⟨-, hmem⟩ | ⟨-, htarget, -⟩ := target_cases hl hm
    · exact (hids (hkey ▸ hmem)).elim
    · have heq := standInKey_inj (hkey.trans htarget)
      rw [← heq] at hshare
      exact ⟨heq, hshare.trans hscore.ge⟩

/-- **One more match** adds a hit after those that score more. -/
theorem ranked_concat (hl : Legs fts vec (metadata ++ [m])) (hchunks : ∀ x ∈ fts ++ vec, x.2.noteId ≠ m.noteId) :
    ∃ us hit vs, (boosted (tally fts vec) (metadata ++ [m])).ranked = us ++ hit :: vs ∧
      (boosted (tally fts vec) metadata).ranked = us ++ vs ∧
      ∀ h ∈ (boosted (tally fts vec) metadata).ranked, rrf metadata.length ≤ h.score → h ∈ us := by
  have hl' : Legs fts vec metadata := hl.of_append
  generalize hb : boosted (tally fts vec) metadata = b
  have hstep : boosted (tally fts vec) (metadata ++ [m]) =
      boostStep (bestChunks (tally fts vec)) b (m, metadata.length) := by
    rw [← hb, boosted, boosted, List.zipIdx_append, List.foldl_append, Nat.zero_add]
    rfl
  have hlast : m ∈ metadata ++ [m] := List.mem_append_right _ (List.mem_singleton.mpr rfl)
  have hnone : bestOf fts vec m.noteId = none := by
    cases hbest : bestOf fts vec m.noteId with
    | none => rfl
    | some c =>
      obtain ⟨h, hfind, hnote⟩ := Option.map_eq_some_iff.mp (bestOf_some hl hbest).1
      rw [← List.map_append] at hfind
      obtain ⟨x, hx, rfl⟩ := List.mem_map.mp (List.mem_of_find?_eq_some hfind)
      exact (hchunks x hx hnote).elim
  have hnew : m.noteId ∉ metadata.map (·.noteId) := fun hmem => by
    have honce := hl.notesOnce
    rw [List.map_append, List.nodup_append] at honce
    exact honce.2.2 _ hmem _ (List.mem_singleton.mpr rfl) rfl
  -- the notes of the other hits
  have hother : ∀ {k σ hit}, b.scores.get? k = some σ → b.byId.get? k = some hit →
      k ≠ standInKey m.noteId ∧ hit.noteId ≠ m.noteId := by
    intro k σ hit hget hhit
    subst hb
    obtain ⟨hit', hhit', hcases⟩ := boosted_byId hl' hget
    obtain rfl := Option.some.inj (hhit.symm.trans hhit')
    obtain ⟨hids, -, hnote⟩ | ⟨-, -, hkey, hmeta, -⟩ := hcases
    · constructor
      · rintro rfl
        obtain ⟨hsome, -⟩ | ⟨-, -, hnot⟩ := target_cases hl hlast
        · rw [hnone] at hsome
          cases hsome
        · exact hnot hids
      · obtain ⟨h, hfind, hh⟩ := Option.map_eq_some_iff.mp hnote
        rw [← List.map_append] at hfind
        obtain ⟨x, hx, rfl⟩ := List.mem_map.mp (List.mem_of_find?_eq_some hfind)
        exact hh ▸ hchunks x hx
    · have hne : hit.noteId ≠ m.noteId := fun heq => hnew (heq ▸ hmeta)
      exact ⟨fun heq => hne (standInKey_inj (hkey.symm.trans heq)), hne⟩
  have hfresh : b.scores.get? (standInKey m.noteId) = none := by
    cases hget : b.scores.get? (standInKey m.noteId) with
    | none => rfl
    | some σ =>
      obtain ⟨hit, hhit, -⟩ := boosted_byId hl' (hb.symm ▸ hget)
      exact ((hother hget (hb ▸ hhit)).1 rfl).elim
  have hbest : (bestChunks (tally fts vec)).get? m.noteId = none := Option.map_eq_none_iff.mp hnone
  rw [hstep, boostStep, hbest]
  dsimp only
  rw [hfresh, Boosted.ranked, Boosted.ranked, Dict.entries_set hfresh]
  obtain ⟨us, vs, hwith, hwithout, hsub⟩ := ranked_remove (fun e : Text × ℚ => -e.2) b.scores.entries []
    (standInKey m.noteId, Option.getD none 0 + rrf metadata.length)
  rw [List.append_nil] at hwithout
  rw [hwith, hwithout, List.filterMap_append, List.filterMap_cons, List.filterMap_append]
  have hsame : ∀ e ∈ us ++ vs, ((b.byId.setDefault (standInKey m.noteId) (standIn m)).get? e.1).map (fun hit =>
      { hit with
        score := e.2
        matchedOn := (b.matched.set m.noteId ((b.matched.get? m.noteId).getD [] ++ m.matchedOn)).get? hit.noteId }) =
      (b.byId.get? e.1).map fun hit => { hit with score := e.2, matchedOn := b.matched.get? hit.noteId } := by
    intro e he
    rw [← hwithout, mem_ranked] at he
    have hget := Dict.mem_entries_iff.mp he
    rw [Dict.get?_setDefault]
    cases hhit : b.byId.get? e.1 with
    | none =>
      rw [if_neg fun heq => by rw [heq, hfresh] at hget; cases hget]
      rfl
    | some hit =>
      rw [Option.some_or, Option.map_some, Option.map_some, Dict.get?_set, if_neg (hother hget hhit).2]
  have hhit : ∃ hit, (b.byId.setDefault (standInKey m.noteId) (standIn m)).get? (standInKey m.noteId) = some hit := by
    rw [Dict.get?_setDefault, if_pos rfl]
    cases b.byId.get? (standInKey m.noteId) with
    | none => exact ⟨_, rfl⟩
    | some hit => exact ⟨hit, rfl⟩
  obtain ⟨hit, hhit⟩ := hhit
  rw [hhit, List.filterMap_congr fun e he => hsame e (List.mem_append_left _ he),
    List.filterMap_congr fun e he => hsame e (List.mem_append_right _ he)]
  refine ⟨_, _, _, rfl, rfl, fun h hh hscore => ?_⟩
  rw [← List.filterMap_append, ← hwithout] at hh
  obtain ⟨e, he, hsome⟩ := List.mem_filterMap.mp hh
  refine List.mem_filterMap.mpr ⟨e, hsub.subset (List.mem_filter.mpr ⟨mem_ranked.mp he, ?_⟩), hsome⟩
  obtain ⟨hit', -, rfl⟩ := Option.map_eq_some_iff.mp hsome
  exact decide_eq_true (neg_le_neg ((zero_add (rrf metadata.length)).le.trans hscore))

/-- Matches whose notes have no chunk among the candidates do not change the first hits. -/
theorem cut_append (hcap : 1 ≤ perNoteCap) (hlimit : limit ≤ metadata.length) (hl : Legs fts vec (metadata ++ extra))
    (hchunks : ∀ m ∈ extra, ∀ x ∈ fts ++ vec, x.2.noteId ≠ m.noteId) :
    Capped.cut (·.noteId) perNoteCap limit (boosted (tally fts vec) (metadata ++ extra)).ranked =
      Capped.cut (·.noteId) perNoteCap limit (boosted (tally fts vec) metadata).ranked := by
  induction extra using List.reverseRecOn with
  | nil => rw [List.append_nil]
  | append_singleton extra m ih =>
    rw [← List.append_assoc] at hl ⊢
    obtain ⟨hextra, hm⟩ := List.forall_mem_append.mp hchunks
    rw [← ih hl.of_append hextra]
    obtain ⟨us, hit, vs, hwith, hwithout, hus⟩ := ranked_concat hl (hm m (List.mem_singleton.mpr rfl))
    rw [hwith, hwithout]
    -- all notes that matched have hits in front of the new one
    refine Capped.cut_insert (hlimit.trans ?_)
    have hnotes : ((metadata ++ extra).map (·.noteId)).length ≤ _ :=
      Capped.le_length_capped hcap hl.of_append.notesOnce fun n hn => by
        obtain ⟨m', hm', rfl⟩ := List.mem_map.mp hn
        obtain ⟨h, hh, hnote, hscore⟩ := exists_hit hl.of_append hm'
        exact ⟨h, hus h hh hscore, hnote⟩
    rw [List.length_map, List.length_append] at hnotes
    exact (Nat.le_add_right _ _).trans hnotes

theorem le_length_cut (hcap : 1 ≤ perNoteCap) (hl : Legs fts vec metadata) :
    min limit metadata.length ≤
      (Capped.cut (·.noteId) perNoteCap limit (boosted (tally fts vec) metadata).ranked).length := by
  have hnotes : min limit (metadata.map (·.noteId)).length ≤ _ := Capped.le_length_cut hcap hl.notesOnce fun n hn => by
    obtain ⟨m, hm, rfl⟩ := List.mem_map.mp hn
    obtain ⟨h, hh, hnote, -⟩ := exists_hit hl hm
    exact ⟨h, hh, hnote⟩
  rwa [List.length_map] at hnotes

end

section
variable {β ι : Type*} {casefold : Text → Text} {query : Text} {tags : Option (List Text)} {folder : Option Text}
  {vector : QueryVector β ι} {c : Corpus β ι} {allowed : Option (Finset Text)} {limit limit' k : ℕ}

/-! ## the metadata matches -/

theorem metadataMatches_once : ((metadataMatches casefold query c).map (·.noteId)).Nodup := by
  unfold metadataMatches
  rw [List.map_map, (((ranked_perm _ _).trans ((ranked_perm _ _).trans (ranked_perm _ _))).map _).nodup_iff]
  refine List.pairwise_map.mpr (List.pairwise_filterMap.mpr ((List.pairwise_map.mp c.notesOnce).imp ?_))
  intro a b hab x hx y hy
  -- a match has the id of its note
  have hid : ∀ {n : NoteRow} {r : RankedMatch}, (match matchedOn casefold query c n with
      | [] => none
      | matched => some (RankedMatch.mk ⟨n.noteId, n.title, n.folder, n.updatedAt, matched⟩
          (casefold n.title = casefold query) ((casefold query).isPrefixOf (casefold n.title)))) = some r →
      r.hit.noteId = n.noteId := by
    intro n r hr
    split at hr
    · cases hr
    · obtain rfl := Option.some.inj hr
      rfl
  show x.hit.noteId ≠ y.hit.noteId
  rw [hid hx, hid hy]
  exact hab

theorem searchMetadata_once : ((searchMetadata casefold query c limit).map (·.noteId)).Nodup := by
  unfold searchMetadata
  split
  · exact List.nodup_nil
  · exact metadataMatches_once.sublist ((List.take_sublist _ _).map _)

theorem searchMetadata_take (h : limit ≤ limit') :
    (searchMetadata casefold query c limit').take limit = searchMetadata casefold query c limit := by
  unfold searchMetadata
  split
  · exact List.take_nil
  · rw [List.take_take, Nat.min_eq_left h]

/-! ## one workspace -/

theorem ChunkRows.vecHits (hc : c.Indexed) : ChunkRows (vecHits vector c k) := by
  unfold Search.vecHits
  split
  · exact hc.vec _ _ _
  · exact ⟨fun h hh => (nomatch hh), List.nodup_nil⟩

/-- The candidates of the indexes have ids of their own. -/
theorem exists_legs (query : Text) (vector : QueryVector β ι) (hc : c.Indexed) (allowed : Option (Finset Text)) (k : ℕ) :
    ∃ fts vec,
    keyed (filterHits (·.noteId) allowed (c.searchFts query k)) = some fts ∧
    keyed (filterHits (·.noteId) allowed (vecHits vector c k)) = some vec ∧
    ∀ metadata : List MetadataHit, (metadata.map (·.noteId)).Nodup →
      Legs fts vec (filterHits (·.noteId) allowed metadata) := by
  have hkeyed : ∀ {hits}, ChunkRows hits → ∃ l, keyed (filterHits (·.noteId) allowed hits) = some l := by
    intro hits hrows
    refine keyed_isSome fun h hh => ?_
    obtain ⟨id, hid, -⟩ := hrows.1 h (filterHits_sublist.subset hh)
    rw [hid]
    nofun
  have hvec : ChunkRows (vecHits vector c k) := ChunkRows.vecHits hc
  obtain ⟨fts, hf⟩ := hkeyed (hc.fts query k)
  obtain ⟨vec, hv⟩ := hkeyed hvec
  refine ⟨fts, vec, hf, hv, fun metadata honce => ?_⟩
  refine legs_of_keyed hf hv (hc.fts query k).2 hvec.2 honce fun m _ _ h hh heq => ?_
  have hrow : ∃ id, h.chunkId = some id ∧ ':' ∉ id := by
    rcases List.mem_append.mp hh with hh | hh
    · exact (hc.fts query k).1 h (filterHits_sublist.subset hh)
    · exact hvec.1 h (filterHits_sublist.subset hh)
  obtain ⟨id, hid, hcolon⟩ := hrow
  obtain rfl := Option.some.inj (hid.symm.trans heq)
  exact hcolon (List.mem_append_left _ (by decide))

theorem workspaceHits_none (hnone : allowedNotes tags folder c = none) :
    workspaceHits casefold query tags folder vector c limit =
      fuseHybrid (c.searchFts query 50) (vecHits vector c 50) (searchMetadata casefold query c limit) limit 3 none := by
  unfold workspaceHits
  rw [hnone]
  rfl

/-- The matches of the larger limit are those of the smaller one, and more if these are as many as allowed. -/
theorem searchMetadata_append (casefold : Text → Text) (query : Text) (c : Corpus β ι) (h : limit ≤ limit') : ∃ extra,
    searchMetadata casefold query c limit' = searchMetadata casefold query c limit ++ extra ∧
      extra = (searchMetadata casefold query c limit').drop limit ∧
      (extra = [] ∨ limit ≤ (searchMetadata casefold query c limit).length) := by
  refine ⟨_, ?_, rfl, ?_⟩
  · conv_lhs => rw [← List.take_append_drop limit (searchMetadata casefold query c limit'), searchMetadata_take h]
  · rw [← searchMetadata_take h, List.length_take, List.drop_eq_nil_iff]
    omega

theorem neg_sorted {hits : List ChunkHit} (h : hits.Pairwise fun a b => b.score ≤ a.score) :
    hits.Pairwise fun a b => -a.score ≤ -b.score := h.imp fun hab => neg_le_neg hab

/-- **One workspace**: the hits of the smaller limit are the first ones. -/
theorem workspaceHits_settled (hc : c.Indexed) (hpos : 1 ≤ limit) (h : limit ≤ limit')
    (hs : Settled casefold query tags folder vector c limit limit') :
    ∃ hits, workspaceHits casefold query tags folder vector c limit = some (hits.take limit) ∧
      workspaceHits casefold query tags folder vector c limit' = some hits ∧
      hits.Pairwise fun a b => -a.score ≤ -b.score := by
  cases hallowed : allowedNotes tags folder c with
  | none =>
    obtain ⟨fts, vec, hf, hv, hlegs⟩ := exists_legs query vector hc none 50
    obtain ⟨extra, happend, hextra, hfull⟩ := searchMetadata_append casefold query c h
    have hl : Legs fts vec (searchMetadata casefold query c limit ++ extra) := happend ▸ hlegs _ searchMetadata_once
    have hchunks : ∀ m ∈ extra, ∀ x ∈ fts ++ vec, x.2.noteId ≠ m.noteId := fun m hm x hx => by
      refine hs hallowed m (hextra ▸ hm) x.2 ?_
      have hmem : x.2 ∈ (fts ++ vec).map Prod.snd := List.mem_map.mpr ⟨x, hx, rfl⟩
      rwa [List.map_append, (keyed_spec hf).1, (keyed_spec hv).1] at hmem
    rw [workspaceHits_none hallowed, workspaceHits_none hallowed, fuseHybrid_eq hf hv hpos,
      fuseHybrid_eq hf hv (hpos.trans h), happend]
    refine ⟨_, congrArg some ?_, rfl, neg_sorted ((ranked_sorted hl).sublist Capped.cut_sublist)⟩
    rw [Capped.take_cut h]
    rcases hfull with rfl | hfull
    · rw [List.append_nil]
    · exact (cut_append (by decide) hfull hl hchunks).symm
  | some ids =>
    unfold workspaceHits
    rw [hallowed]
    dsimp only
    by_cases hempty : some ids = some ∅
    · rw [if_pos hempty, if_pos hempty]
      exact ⟨[], by rw [List.take_nil], rfl, List.Pairwise.nil⟩
    · obtain ⟨fts, vec, hf, hv, hlegs⟩ := exists_legs query vector hc (some ids) 200
      rw [if_neg hempty, if_neg hempty]
      have hl := hlegs (searchMetadata casefold query c 200) searchMetadata_once
      exact ⟨_, by rw [Capped.take_cut h]; exact fuseHybrid_eq hf hv hpos, fuseHybrid_eq hf hv (hpos.trans h),
        neg_sorted ((ranked_sorted hl).sublist Capped.cut_sublist)⟩

/-- Without narrowing, every metadata match is found. -/
theorem workspaceHits_length (hc : c.Indexed) (hpos : 1 ≤ limit) (hnone : allowedNotes tags folder c = none) :
    ∃ hits, workspaceHits casefold query tags folder vector c limit = some hits ∧
      min limit (searchMetadata casefold query c limit).length ≤ hits.length := by
  obtain ⟨fts, vec, hf, hv, hlegs⟩ := exists_legs query vector hc none 50
  rw [workspaceHits_none hnone, fuseHybrid_eq hf hv hpos]
  exact ⟨_, rfl, le_length_cut (by decide) (hlegs _ searchMetadata_once)⟩

/-! ## all workspaces -/

variable {db : Text → Corpus β ι} {workspaces : List Text}

theorem perWorkspaceLimit_mono (workspaces : List Text) (h : limit ≤ limit') :
    perWorkspaceLimit workspaces limit ≤ perWorkspaceLimit workspaces limit' := by
  unfold perWorkspaceLimit
  split
  · omega
  · omega

theorem lt_perWorkspaceLimit (workspaces : List Text) (limit : ℕ) : limit < perWorkspaceLimit workspaces limit := by
  unfold perWorkspaceLimit
  split
  · omega
  · omega

/-- The hits of the smaller limit, workspace by workspace. -/
theorem mapM_settled {l : List Text} (hpos : 1 ≤ limit) (h : limit ≤ limit') (hindexed : ∀ ws ∈ l, (db ws).Indexed)
    (hs : ∀ ws ∈ l, Settled casefold query tags folder vector (db ws) limit limit') :
    ∃ found, l.mapM (fun ws => workspaceHits casefold query tags folder vector (db ws) limit) =
        some (found.map (·.take limit)) ∧
      l.mapM (fun ws => workspaceHits casefold query tags folder vector (db ws) limit') = some found ∧
      ∀ hits ∈ found, hits.Pairwise fun a b => -a.score ≤ -b.score := by
  induction l with
  | nil => exact ⟨[], rfl, rfl, fun p hp => (nomatch hp)⟩
  | cons ws l ih =>
    obtain ⟨hindexed, hindexeds⟩ := List.forall_mem_cons.mp hindexed
    obtain ⟨hs, hss⟩ := List.forall_mem_cons.mp hs
    obtain ⟨hits, hits₁, hits₂, hsorted⟩ := workspaceHits_settled hindexed hpos h hs
    obtain ⟨found, found₁, found₂, hfound⟩ := ih hindexeds hss
    exact ⟨hits :: found, by rw [List.mapM_cons, hits₁, found₁]; rfl, by rw [List.mapM_cons, hits₂, found₂]; rfl,
      List.forall_mem_cons.mpr ⟨hsorted, hfound⟩⟩

/-- Taking more than `limit` of each list keeps more than `limit` in all. -/
theorem lt_length_flatten {ls : List (List ChunkHit)} (h : limit < k) :
    limit < (ls.map (·.take k)).flatten.length ↔ limit < ls.flatten.length := by
  by_cases hlong : ∃ l ∈ ls, k ≤ l.length
  · obtain ⟨l, hl, hlen⟩ := hlong
    have h₁ := ((List.sublist_flatten_of_mem (List.mem_map.mpr ⟨l, hl, rfl⟩ : l.take k ∈ ls.map (·.take k)))).length_le
    have h₂ := (List.sublist_flatten_of_mem hl).length_le
    rw [List.length_take, Nat.min_eq_left hlen] at h₁
    exact ⟨fun _ => by omega, fun _ => by omega⟩
  · have hshort : ls.map (·.take k) = ls := by
      conv_rhs => rw [← List.map_id ls]
      refine List.map_congr_left fun l hl => List.take_of_length_le (Nat.le_of_lt (Nat.lt_of_not_le fun hlen => ?_))
      exact hlong ⟨l, hl, hlen⟩
    rw [hshort]

theorem execute_eq {found : List (List ChunkHit)} (h : workspaces.mapM (fun ws => workspaceHits casefold query tags
      folder vector (db ws) (perWorkspaceLimit workspaces limit)) = some found) :
    ∃ o, execute casefold query tags folder vector db workspaces limit = some o ∧
      o.results = (ranked (fun h : ChunkHit => -h.score) found.flatten).take limit ∧
      (o.hasMore = true ↔ limit < found.flatten.length) := by
  unfold execute
  rw [h]
  refine ⟨_, rfl, rfl, ?_⟩
  show decide (limit < (ranked _ found.flatten).length) = true ↔ _
  rw [decide_eq_true_iff, (ranked_perm _ _).length_eq]

theorem workspaceHits_isSome (hc : c.Indexed) (hpos : 1 ≤ limit) :
    ∃ hits, workspaceHits casefold query tags folder vector c limit = some hits := by
  unfold workspaceHits
  dsimp only
  split
  · exact ⟨_, rfl⟩
  · obtain ⟨fts, vec, hf, hv, -⟩ := exists_legs query vector hc (allowedNotes tags folder c)
      (if (allowedNotes tags folder c).isSome then 200 else 50)
    exact ⟨_, fuseHybrid_eq hf hv hpos⟩

theorem mapM_hits {f : Text → Option (List ChunkHit)} {l : List Text} (h : ∀ ws ∈ l, ∃ hits, f ws = some hits) :
    ∃ found, l.mapM f = some found ∧ ∀ ws ∈ l, ∀ hits, f ws = some hits → hits ∈ found := by
  induction l with
  | nil => exact ⟨[], rfl, fun ws hws => (nomatch hws)⟩
  | cons ws l ih =>
    obtain ⟨⟨hits, hhits⟩, hl⟩ := List.forall_mem_cons.mp h
    obtain ⟨found, hfound, hmem⟩ := ih hl
    refine ⟨hits :: found, by rw [List.mapM_cons, hhits, hfound]; rfl, List.forall_mem_cons.mpr ⟨?_, ?_⟩⟩
    · exact fun hits' h' => List.mem_cons.mpr (.inl (Option.some.inj (h'.symm.trans hhits)))
    · exact fun ws' hws' hits' h' => List.mem_cons_of_mem _ (hmem ws' hws' hits' h')

/-- Where a workspace has more matches than the smaller limit fetches, both searches find more than the limit. -/
theorem execute_long (vector : QueryVector β ι) {ws : Text} (hindexed : ∀ ws ∈ workspaces, (db ws).Indexed)
    (hws : ws ∈ workspaces)
    (hnone : allowedNotes tags folder (db ws) = none)
    (hlong : perWorkspaceLimit workspaces limit ≤
      (searchMetadata casefold query (db ws) (perWorkspaceLimit workspaces k)).length)
    (hk : limit ≤ k) : ∃ o, execute casefold query tags folder vector db workspaces k = some o ∧
      (limit = k → o.hasMore = true) ∧ (limit < k → limit < o.results.length) := by
  have hpos : 1 ≤ perWorkspaceLimit workspaces k := Nat.one_le_of_lt (lt_perWorkspaceLimit workspaces k)
  obtain ⟨found, hfound, hmem⟩ := mapM_hits
    (f := fun ws => workspaceHits casefold query tags folder vector (db ws) (perWorkspaceLimit workspaces k))
    fun ws hws => workspaceHits_isSome (hindexed ws hws) hpos
  obtain ⟨o, ho, hresults, hmore⟩ := execute_eq hfound
  obtain ⟨hits, hhits, hlen⟩ : ∃ hits,
      workspaceHits casefold query tags folder vector (db ws) (perWorkspaceLimit workspaces k) = some hits ∧
        min (perWorkspaceLimit workspaces k)
          (searchMetadata casefold query (db ws) (perWorkspaceLimit workspaces k)).length ≤ hits.length :=
    workspaceHits_length (hindexed ws hws) hpos hnone
  have hall := (List.sublist_flatten_of_mem (hmem ws hws hits hhits)).length_le
  have hlt := lt_perWorkspaceLimit workspaces limit
  have hmono := perWorkspaceLimit_mono workspaces hk
  refine ⟨o, ho, fun heq => hmore.mpr (by omega), fun hlt' => ?_⟩
  rw [hresults, List.length_take, (ranked_perm _ _).length_eq]
  omega

/-- **Raising the limit.** More hits are reported exactly when a larger limit finds them, and it only adds hits if the
matches that it fetches besides have no chunk among the candidates. -/
theorem execute_raised (hindexed : ∀ ws ∈ workspaces, (db ws).Indexed) (h : limit < limit') :
    ∃ o o', execute casefold query tags folder vector db workspaces limit = some o ∧
      execute casefold query tags folder vector db workspaces limit' = some o' ∧
      (o.hasMore = true ↔ limit < o'.results.length) ∧
      ((∀ ws ∈ workspaces, Settled casefold query tags folder vector (db ws) (perWorkspaceLimit workspaces limit)
        (perWorkspaceLimit workspaces limit')) → o.results <+: o'.results) := by
  have hmono := perWorkspaceLimit_mono workspaces h.le
  have hlt := lt_perWorkspaceLimit workspaces limit
  by_cases hs : ∀ ws ∈ workspaces, Settled casefold query tags folder vector (db ws)
      (perWorkspaceLimit workspaces limit) (perWorkspaceLimit workspaces limit')
  · obtain ⟨found, hsmall, hlarge, hsorted⟩ := mapM_settled (Nat.one_le_of_lt hlt) hmono hindexed hs
    obtain ⟨o, ho, hresults, hmore⟩ := execute_eq hsmall
    obtain ⟨o', ho', hresults', -⟩ := execute_eq hlarge
    refine ⟨o, o', ho, ho', ?_, fun _ => ?_⟩
    · rw [hmore, lt_length_flatten hlt, hresults', List.length_take, (ranked_perm _ _).length_eq]
      omega
    · rw [hresults, hresults', take_ranked_flatten hlt.le hsorted]
      exact List.take_prefix_take_left h.le
  · -- a workspace has matches that the smaller limit does not fetch
    have hws := hs
    push Not at hws
    obtain ⟨ws, hws, hopen⟩ := hws
    unfold Settled at hopen
    push Not at hopen
    obtain ⟨hnone, m, hm, -⟩ := hopen
    obtain ⟨extra, happend, rfl, hfull⟩ := searchMetadata_append casefold query (db ws) hmono
    have hlen := hfull.resolve_left (List.ne_nil_of_mem hm)
    obtain ⟨o, ho, hmore, -⟩ := execute_long vector hindexed hws hnone hlen le_rfl
    obtain ⟨o', ho', -, hmany⟩ := execute_long vector hindexed hws hnone
      (hlen.trans (by rw [happend, List.length_append]; exact Nat.le_add_right _ _)) h.le
    exact ⟨o, o', ho, ho', iff_of_true (hmore rfl) (hmany h), fun hs' => (hs hs').elim⟩

end

section Samples

def row (id title updatedAt : String) : NoteRow := ⟨id.toList, title.toList, "work".toList, updatedAt.toList⟩

/-- Three notes match by their titles; the text of the last one, and of another note, matches too. -/
def plans : Corpus ℕ ℕ where
  notes := [row "a" "Plan a" "2026-03-03", row "b" "Plan b" "2026-03-02", row "n" "Plan n" "2026-03-01",
    row "p" "Notes" "2026-03-01"]
  notesOnce := by decide +kernel
  tagRows := []
  noteIdsForTags _ := ∅
  searchFts _ _ := [chunkOf "c1" "p", chunkOf "c2" "n"]
  searchChunksVec _ _ _ := []

theorem plans_indexed : plans.Indexed where
  fts _ _ := ⟨fun h hh => by
    rcases List.mem_cons.mp hh with rfl | hh
    · exact ⟨"c1".toList, rfl, by decide⟩
    · obtain rfl := List.mem_singleton.mp hh
      exact ⟨"c2".toList, rfl, by decide⟩,
    (by decide +kernel : ([chunkOf "c1" "p", chunkOf "c2" "n"].map (·.chunkId)).Nodup)⟩
  vec _ _ _ := ⟨fun h hh => (nomatch hh), List.nodup_nil⟩

def keywords : QueryVector ℕ ℕ := ⟨none, none, none⟩

def lower (s : Text) : Text := s.map Char.toLower

/-- With the limit 5, all three matches are fetched. -/
theorem execute_raised_plans : ∃ o o',
    execute lower "plan".toList none none keywords (fun _ => plans) ["w".toList] 5 = some o ∧
      execute lower "plan".toList none none keywords (fun _ => plans) ["w".toList] 50 = some o' ∧
      (o.hasMore = true ↔ 5 < o'.results.length) ∧ o.results <+: o'.results := by
  obtain ⟨o, o', ho, ho', hmore, hprefix⟩ := execute_raised (fun _ _ => plans_indexed) (by decide : 5 < 50)
  have hnil : (searchMetadata lower "plan".toList plans 51).drop 6 = [] := by decide +kernel
  exact ⟨o, o', ho, ho', hmore, hprefix fun _ _ _ m hm => (List.not_mem_nil (hnil ▸ hm)).elim⟩

/-- With the limit 1, the third match is not fetched; with the limit 2, its chunk comes first. -/
theorem first_hit_replaced : plans.Indexed ∧ ∃ o o',
    execute lower "plan".toList none none keywords (fun _ => plans) ["w".toList] 1 = some o ∧
      execute lower "plan".toList none none keywords (fun _ => plans) ["w".toList] 2 = some o' ∧
      ¬ o.results <+: o'.results := by
  obtain ⟨o, ho, hsmall⟩ := Option.map_eq_some_iff.mp (show (execute lower "plan".toList none none keywords
    (fun _ => plans) ["w".toList] 1).map (fun o => o.results.map (·.chunkId)) = some [some "c1".toList] by
      decide +kernel)
  obtain ⟨o', ho', hlarge⟩ := Option.map_eq_some_iff.mp (show (execute lower "plan".toList none none keywords
    (fun _ => plans) ["w".toList] 2).map (fun o => o.results.map (·.chunkId)) =
      some [some "c2".toList, some "c1".toList] by decide +kernel)
  refine ⟨plans_indexed, o, o', ho, ho', fun hprefix => ?_⟩
  have hids := hprefix.map (·.chunkId)
  rw [hsmall, hlarge] at hids
  exact absurd hids (by decide +kernel)

end Samples
end Kajet.Search
