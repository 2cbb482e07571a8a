import Kajet.Chunks.Attach
import Kajet.Embedding.Request
import Kajet.Lib.Dict
import Mathlib.Data.Set.Function

/-!
# The embed handler and its cache

A run reads the chunks of a note, asks the cache for their vectors, requests the missing ones, and stores all of
them; chunks may be replaced in between, and other runs fill the same cache.

* `getMany`, `putMany`   the cache, under the hash of a text, the endpoint and the model;
* `State`, `Op`, `embedding`   the machine;
* `right`                the vector of a text that is embedded alone;
* `Inv`                  the cache, and what the runs hold, are right (`step_inv`);
* `attached_direct`      what a run stores.
-/

namespace Kajet.Embedding
open Str Rank Table Machine
open Chunks (Chunk NoteChunk Raised)
open Chunks.Db (Replace Attach)

/-- `embedded_text` -/
def embeddedText (c : Chunk) : Text :=
  if c.headerPath = [] then c.content.toList
  else join '\n' (c.headerPath.map String.toList) ++ "\n\n".toList ++ c.content.toList

/-! ## the cache -/

structure CacheRow (η ν : Type) where
  contentHash : η
  backend : String
  model : String
  dim : ℕ
  embedding : List ν
deriving DecidableEq

section
variable {η ν : Type} [DecidableEq η] (round : ν → ν)

/-- `pack_vector` -/
def pack (vec : List ν) : List ν := vec.map round

def getMany (cache : List (CacheRow η ν)) (hashes : List η) (backend model : String) : Dict η (List ν) :=
  (cache.filter fun r => r.backend = backend && r.model = model && hashes.contains r.contentHash).foldl
    (fun d r => d.set r.contentHash r.embedding) Dict.empty

/-- A row that is there keeps its vector. -/
def put (backend model : String) (dim : ℕ) (cache : List (CacheRow η ν)) (entry : η × List ν) : List (CacheRow η ν) :=
  if cache.any fun r => r.contentHash = entry.1 && r.backend = backend && r.model = model then cache
  else cache ++ [⟨entry.1, backend, model, dim, pack round entry.2⟩]

def putMany (cache : List (CacheRow η ν)) (entries : Dict η (List ν)) (backend model : String) (dim : ℕ) :
    List (CacheRow η ν) := entries.entries.foldl (put round backend model dim) cache

end

/-! ## the machine -/

structure Job where
  noteId : String
  workspace : String
  ownerId : String
deriving DecidableEq

/-- A run of the handler, after its reads of the chunks and of the cache, and with all vectors. -/
inductive Run (η ν : Type) where
  | chunksRead (job : Job) (cfg : EmbedderConfig) (rows : List NoteChunk)
  | cacheRead (job : Job) (cfg : EmbedderConfig) (rows : List NoteChunk) (cached : Dict η (List ν))
  | vectorsReady (job : Job) (cfg : EmbedderConfig) (vectors : List (String × List ν))

structure State (η ν : Type) where
  db : Chunks.Db ν
  usedIds : List String
  cache : List (CacheRow η ν)
  running : List (Run η ν)

inductive Op (ν : Type) where
  | insertNote (noteId : String)
  | replaceChunks (a : Replace ν) (ids : List String)
  | deleteNote (noteId : String)
  /-- a job is claimed, under the active profile of its owner -/
  | embedNote (job : Job) (profile : Option Profiles.Profile)
  /-- the next part of the `k`-th run, with the orders of the answers -/
  | run (k : ℕ) (orders : List (List ℕ))
  | abandon (k : ℕ)

section
variable {η ν : Type} [DecidableEq η] (e : String → String → Text → List ν) (round : ν → ν) (contentHash : Text → η)
  (identityKey : String → String → String)

def State.empty : State η ν := ⟨⟨[], [], [], []⟩, [], [], []⟩

def State.drop (s : State η ν) (k : ℕ) : State η ν := { s with running := s.running.eraseIdx k }

def State.push (s : State η ν) (r : Run η ν) : State η ν := { s with running := r :: s.running }

/-- The ids are random. -/
def State.fresh (s : State η ν) (a : Replace ν) (ids : List String) : Prop :=
  ids.length = a.chunks.length ∧ (ids ++ s.usedIds).Nodup

instance (s : State η ν) (a : Replace ν) (ids : List String) : Decidable (s.fresh a ids) :=
  inferInstanceAs (Decidable (_ ∧ _))

def texts (rows : List NoteChunk) : List Text := rows.map fun r => embeddedText r.chunk

def missIdx (hashes : List η) (cached : Dict η (List ν)) : List ℕ :=
  (hashes.zipIdx.filter fun x => (cached.get? x.1).isNone).map Prod.snd

/-- `new_entries`; the lists have one length. -/
def newEntries (hashes : List η) (miss : List ℕ) (vectors : List (List ν)) : Option (Dict η (List ν)) :=
  if miss.length = vectors.length then
    some ((miss.zip vectors).foldl (fun d x => hashes[x.1]?.elim d fun h => d.set h x.2) Dict.empty)
  else none

/-- `{**cached, **new_entries}` -/
def merge (cached entries : Dict η (List ν)) : Dict η (List ν) :=
  entries.entries.foldl (fun d x => d.set x.1 x.2) cached

/-- The vectors of the rows; a hash that is not found raises. -/
def vectorsOf (rows : List NoteChunk) (cached : Dict η (List ν)) : Option (List (String × List ν)) :=
  rows.mapM fun r => (cached.get? (contentHash (embeddedText r.chunk))).map (r.id, ·)

/-- The arguments of `attach_vectors`; every vector is packed when it is inserted. -/
def attachArgs (job : Job) (cfg : EmbedderConfig) (vectors : List (String × List ν)) : Attach ν where
  noteId := job.noteId
  workspace := job.workspace
  ownerId := job.ownerId
  identity := ⟨identityKey cfg.backendId cfg.model, cfg.dim⟩
  vectors := vectors.map fun x => (x.1, pack round x.2)

/-- `attach_vectors`: whether it applied. -/
def attachVectors (db : Chunks.Db ν) (a : Attach ν) : Except Raised (Bool × Chunks.Db ν) :=
  if a.identity.dim = 0 then .error (.valueError "dim must be a positive int")
  else if a.covers (db.chunkRows a.noteId) then
    (db.attachWith a (db.chunkRows a.noteId) (db.chunkDims a.noteId)).map (true, ·)
  else .ok (false, db)

/-- A run that raises ends. -/
def finish (s : State η ν) (job : Job) (cfg : EmbedderConfig) (rows : List NoteChunk) (cached : Dict η (List ν)) :
    State η ν :=
  match vectorsOf contentHash rows cached with
  | none => s
  | some vectors => s.push (.vectorsReady job cfg vectors)

def step (s : State η ν) : Op ν → Option (State η ν)
  | .insertNote noteId =>
    if s.db.notes.any (·.id = noteId) then none
    else some { s with db := { s.db with notes := ⟨noteId, 1, .stale⟩ :: s.db.notes } }
  | .replaceChunks a ids =>
    if s.fresh a ids then
      match s.db.replaceWith a ids (s.db.chunkDims a.noteId) with
      | .ok db => some { s with db := db, usedIds := ids ++ s.usedIds }
      | .error _ => some s
    else none
  | .deleteNote noteId => some { s with db := s.db.deleteNote noteId }
  | .embedNote job profile =>
    match ranked (·.chunk.ordinal) (s.db.chunksOf job.noteId), profile with
    | [], _ => some s
    | _, none => some s
    | rows, some profile => some (s.push (.chunksRead job (resolveBackend profile) rows))
  | .run k orders =>
    match s.running[k]? with
    | none => none
    | some (.chunksRead job cfg rows) =>
      let cached := getMany s.cache ((texts rows).map contentHash) cfg.backendId cfg.model
      some ((s.drop k).push (.cacheRead job cfg rows cached))
    | some (.cacheRead job cfg rows cached) =>
      let miss := missIdx ((texts rows).map contentHash) cached
      if miss = [] then some (finish contentHash (s.drop k) job cfg rows cached)
      else
        let missing := miss.filterMap ((texts rows)[·]?)
        if Ordered cfg missing orders then
          match (embedDocuments e cfg missing orders).bind (newEntries ((texts rows).map contentHash) miss) with
          | none => some (s.drop k)
          | some entries => some (finish contentHash
              { s.drop k with cache := putMany round s.cache entries cfg.backendId cfg.model cfg.dim }
              job cfg rows (merge cached entries))
        else none
    | some (.vectorsReady job cfg vectors) =>
      match attachVectors s.db (attachArgs round identityKey job cfg vectors) with
      | .ok (_, db) => some { s.drop k with db := db }
      | .error _ => some (s.drop k)
  | .abandon k => some (s.drop k)

def embedding : Machine (State η ν) (Op ν) where
  start s := s = State.empty
  next := step e round contentHash identityKey

/-! ## the statement -/

/-- The vector of a text that is embedded alone. -/
def right (backend model : String) (text : Text) : List ν := pack round (e backend model (text.take 8000))

/-- The chunks that are written have texts that the hash tells apart. -/
def Writes (known : Set Text) (_ : State η ν) : Op ν → Prop
  | .replaceChunks a _ => ∀ c ∈ a.chunks, embeddedText c ∈ known
  | _ => True

variable (known : Set Text)

/-- The vectors of a dictionary are those of the texts. -/
def Serves (backend model : String) (d : Dict η (List ν)) : Prop :=
  ∀ h v, d.get? h = some v → ∀ t ∈ known, contentHash t = h → pack round v = right e round backend model t

def Sound (cache : List (CacheRow η ν)) : Prop :=
  ∀ r ∈ cache, ∀ t ∈ known, contentHash t = r.contentHash → r.embedding = right e round r.backend r.model t

/-- Rows that were read: a row with the same id has the same chunk. -/
def Rows (s : State η ν) (rows : List NoteChunk) : Prop :=
  ∀ r ∈ rows, embeddedText r.chunk ∈ known ∧ r.id ∈ s.usedIds ∧ ∀ c ∈ s.db.chunks, c.id = r.id → c.chunk = r.chunk

def Resolved (cfg : EmbedderConfig) : Prop := cfg.backendId = cfg.baseUrl ∧ cfg.passagePrefix = []

/-- The vectors of some rows. -/
def Vectors (cfg : EmbedderConfig) (rows : List NoteChunk) (vectors : List (String × List ν)) : Prop :=
  List.Forall₂ (fun r x => x.1 = r.id ∧ pack round x.2 = right e round cfg.backendId cfg.model (embeddedText r.chunk))
    rows vectors

def Held (s : State η ν) : Run η ν → Prop
  | .chunksRead _ cfg rows => Resolved cfg ∧ Rows known s rows
  | .cacheRead _ cfg rows cached => Resolved cfg ∧ Rows known s rows ∧
    Serves e round contentHash known cfg.backendId cfg.model cached
  | .vectorsReady _ cfg vectors => Resolved cfg ∧ ∃ rows, Rows known s rows ∧ Vectors e round cfg rows vectors

structure Inv (s : State η ν) : Prop where
  cache : Sound e round contentHash known s.cache
  chunks : Rows known s s.db.chunks
  runs : ∀ r ∈ s.running, Held e round contentHash known s r

end

section
variable {η ν : Type} [DecidableEq η] {e : String → String → Text → List ν} {round : ν → ν} {contentHash : Text → η}
  {identityKey : String → String → String} {known : Set Text} {s t : State η ν} {op : Op ν} {backend model : String}
  {d d' : Dict η (List ν)} {h : η} {v : List ν} {cache : List (CacheRow η ν)} {rows : List NoteChunk}
  {cfg : EmbedderConfig}

/-! ## the vectors of the cache -/

theorem pack_pack (hround : ∀ x, round (round x) = round x) (vec : List ν) :
    pack round (pack round vec) = pack round vec := by
  unfold pack
  rw [List.map_map]
  exact List.map_congr_left fun x _ => hround x

theorem Serves.empty : Serves e round contentHash known backend model Dict.empty := fun _ _ h => (nomatch h)

theorem Serves.set (hd : Serves e round contentHash known backend model d)
    (hv : ∀ t ∈ known, contentHash t = h → pack round v = right e round backend model t) :
    Serves e round contentHash known backend model (d.set h v) := by
  intro k w hget
  rw [Dict.get?_set] at hget
  split at hget
  · rename_i hk
    subst hk
    exact Option.some.inj hget ▸ hv
  · exact hd k w hget

theorem Serves.merge (hd : Serves e round contentHash known backend model d)
    (hd' : Serves e round contentHash known backend model d') :
    Serves e round contentHash known backend model (merge d d') := by
  have hentries : ∀ x ∈ d'.entries, ∀ t ∈ known, contentHash t = x.1 → pack round x.2 = right e round backend model t :=
    fun x hx => hd' x.1 x.2 (Dict.mem_entries_iff.mp hx)
  exact List.foldlRecOn _ _ hd fun d hd x hx => hd.set (hentries x hx)

/-- What is cached is served. -/
theorem getMany_serves (hround : ∀ x, round (round x) = round x) (hcache : Sound e round contentHash known cache)
    (hashes : List η) : Serves e round contentHash known backend model (getMany cache hashes backend model) := by
  have hrows : ∀ r ∈ cache.filter fun r => r.backend = backend && r.model = model && hashes.contains r.contentHash,
      ∀ t ∈ known, contentHash t = r.contentHash → pack round r.embedding = right e round backend model t := by
    intro r hr t ht hhash
    obtain ⟨hmem, hkey⟩ := List.mem_filter.mp hr
    simp only [Bool.and_eq_true, decide_eq_true_eq] at hkey
    obtain ⟨⟨rfl, rfl⟩, -⟩ := hkey
    rw [hcache r hmem t ht hhash, right, pack_pack hround]
  exact List.foldlRecOn _ _ Serves.empty fun d hd r hr => hd.set (hrows r hr)

/-- What is put into the cache is right. -/
theorem putMany_sound (hcache : Sound e round contentHash known cache)
    (hd : Serves e round contentHash known backend model d) (dim : ℕ) :
    Sound e round contentHash known (putMany round cache d backend model dim) := by
  have hentries : ∀ x ∈ d.entries, ∀ t ∈ known, contentHash t = x.1 → pack round x.2 = right e round backend model t :=
    fun x hx => hd x.1 x.2 (Dict.mem_entries_iff.mp hx)
  refine List.foldlRecOn _ _ hcache fun cache hcache x hx => ?_
  unfold put
  split
  · exact hcache
  · exact List.forall_mem_append.mpr ⟨hcache, List.forall_mem_singleton.mpr (hentries x hx)⟩

/-- The new entries are the vectors of the texts that were sent. -/
theorem newEntries_serves (hhash : Set.InjOn contentHash known) {texts : List Text} (htexts : ∀ t ∈ texts, t ∈ known)
    {miss : List ℕ} (hmiss : ∀ i ∈ miss, i < texts.length)
    (hok : newEntries (texts.map contentHash) miss
      ((miss.filterMap (texts[·]?)).map fun t => e backend model (t.take 8000)) = some d) :
    Serves e round contentHash known backend model d := by
  unfold newEntries at hok
  split at hok
  · rename_i hlen
    obtain rfl := Option.some.inj hok
    have hfold : ∀ {d}, Serves e round contentHash known backend model d →
        Serves e round contentHash known backend model
          ((miss.zip ((miss.filterMap (texts[·]?)).map fun t => e backend model (t.take 8000))).foldl
            (fun d x => (texts.map contentHash)[x.1]?.elim d fun h => d.set h x.2) d) := by
      clear hok hlen
      induction miss with
      | nil => exact id
      | cons i miss ih =>
        obtain ⟨hi, hmiss⟩ := List.forall_mem_cons.mp hmiss
        intro d hd
        have hget : texts[i]? = some texts[i] := List.getElem?_eq_getElem hi
        rw [List.filterMap_cons, hget, List.map_cons, List.zip_cons_cons, List.foldl_cons, List.getElem?_map, hget]
        refine ih hmiss (hd.set fun t ht heq => ?_)
        rw [hhash ht (htexts _ (List.getElem_mem hi)) heq]
        rfl
    exact hfold Serves.empty
  · cases hok

theorem missIdx_lt {hashes : List η} {i : ℕ} (hi : i ∈ missIdx hashes d) : i < hashes.length := by
  obtain ⟨x, hx, rfl⟩ := List.mem_map.mp hi
  exact List.snd_lt_of_mem_zipIdx (List.mem_filter.mp hx).1 |>.trans_eq (Nat.add_zero _)

theorem vectorsOf_spec (hrows : ∀ r ∈ rows, embeddedText r.chunk ∈ known)
    (hd : Serves e round contentHash known cfg.backendId cfg.model d) {vectors : List (String × List ν)}
    (hok : vectorsOf contentHash rows d = some vectors) : Vectors e round cfg rows vectors := by
  induction rows generalizing vectors with
  | nil =>
    cases hok
    exact List.Forall₂.nil
  | cons r rows ih =>
    obtain ⟨hr, hrows⟩ := List.forall_mem_cons.mp hrows
    rw [vectorsOf, List.mapM_cons] at hok
    obtain ⟨x, hx, hok⟩ := Option.bind_eq_some_iff.mp hok
    obtain ⟨rest, hrest, hok⟩ := Option.bind_eq_some_iff.mp hok
    obtain rfl := Option.some.inj hok
    obtain ⟨v, hv, rfl⟩ := Option.map_eq_some_iff.mp hx
    exact List.Forall₂.cons ⟨rfl, hd _ v hv _ hr rfl⟩ (ih hrows hrest)

/-! ## the chunk rows -/

/-- Rows stay, lose their vectors, go, or are new. -/
def Evolves (s t : State η ν) : Prop :=
  s.usedIds ⊆ t.usedIds ∧ ∀ c' ∈ t.db.chunks, (∃ c ∈ s.db.chunks, c.id = c'.id ∧ c.chunk = c'.chunk) ∨ c'.id ∉ s.usedIds

omit [DecidableEq η] in
theorem Rows.evolve (h : Rows known s rows) (hst : Evolves s t) : Rows known t rows := by
  intro r hr
  obtain ⟨htext, hused, hsame⟩ := h r hr
  refine ⟨htext, hst.1 hused, fun c' hc' hid => ?_⟩
  rcases hst.2 c' hc' with ⟨c, hc, hid', hchunk⟩ | hnew
  · exact hchunk ▸ hsame c hc (hid'.trans hid)
  · exact (hnew (hid ▸ hused)).elim

omit [DecidableEq η] in
theorem Rows.kept (h : Rows known s s.db.chunks) (hst : Evolves s t)
    (hkept : ∀ c' ∈ t.db.chunks, ∃ c ∈ s.db.chunks, c.id = c'.id ∧ c.chunk = c'.chunk) :
    Rows known t t.db.chunks := by
  intro c' hc'
  obtain ⟨c, hc, hid, hchunk⟩ := hkept c' hc'
  have hrow := (h.evolve hst) c hc
  rwa [hid, hchunk] at hrow

theorem Held.evolve (hst : Evolves s t) {r : Run η ν} (h : Held e round contentHash known s r) :
    Held e round contentHash known t r := by
  cases r with
  | chunksRead job cfg rows => exact ⟨h.1, h.2.evolve hst⟩
  | cacheRead job cfg rows cached => exact ⟨h.1, h.2.1.evolve hst, h.2.2⟩
  | vectorsReady job cfg vectors =>
    obtain ⟨hcfg, rows, hrows, hvectors⟩ := h
    exact ⟨hcfg, rows, hrows.evolve hst, hvectors⟩

theorem writeChunks_rows {a : Replace ν} {items : List (String × Chunk × Option (List ν))} {db db' : Chunks.Db ν}
    (hitems : ∀ x ∈ items, a.vectorised.isSome = true → x.2.2.isSome = true)
    (hok : Chunks.Db.writeChunks a items db = .ok db') :
    ∀ c ∈ db'.chunks, c ∈ db.chunks ∨ ∃ x ∈ items, c.id = x.1 ∧ c.chunk = x.2.1 := by
  induction items generalizing db with
  | nil =>
    cases hok
    exact fun c hc => .inl hc
  | cons x items ih =>
    obtain ⟨hx, hitems⟩ := List.forall_mem_cons.mp hitems
    obtain ⟨db1, hone, hrest⟩ := bind_ok hok
    obtain ⟨-, hchunks, -⟩ := Chunks.writeChunk_ok hx hone
    intro c hc
    rcases ih hitems hrest c hc with hc | ⟨y, hy, hid⟩
    · rw [hchunks] at hc
      rcases List.mem_cons.mp hc with rfl | hc
      · exact .inr ⟨x, List.mem_cons_self, rfl, rfl⟩
      · exact .inl hc
    · exact .inr ⟨y, List.mem_cons_of_mem x hy, hid⟩

omit [DecidableEq η] in
/-- The chunks of a replacement have the generated ids. -/
theorem items_spec {a : Replace ν} {ids : List String} :
    ((a.items ids).map Prod.fst).Sublist ids ∧ ∀ x ∈ a.items ids, x.2.1 ∈ a.chunks := by
  have hzip : ∀ {α : Type} (l : List String) (l' : List α), ((l.zip l').map Prod.fst).Sublist l := by
    intro α l
    induction l with
    | nil => exact fun _ => List.Sublist.slnil
    | cons x l ih =>
      intro l'
      cases l' with
      | nil => exact List.nil_sublist _
      | cons y l' => exact (ih l').cons_cons x
  unfold Replace.items
  cases a.embeddings with
  | none =>
    refine ⟨?_, fun x hx => ?_⟩
    · rw [List.map_map]
      exact hzip ids a.chunks
    · obtain ⟨y, hy, rfl⟩ := List.mem_map.mp hx
      exact (List.of_mem_zip hy).2
  | some vectors =>
    refine ⟨?_, fun x hx => ?_⟩
    · rw [List.map_map]
      exact hzip ids (a.chunks.zip vectors)
    · obtain ⟨y, hy, rfl⟩ := List.mem_map.mp hx
      exact (List.of_mem_zip (List.of_mem_zip hy).2).1

omit [DecidableEq η] in
/-- A replacement writes rows with new ids. -/
theorem replaceWith_rows {a : Replace ν} {ids : List String} {dims : List ℕ} {db : Chunks.Db ν}
    (hok : s.db.replaceWith a ids dims = .ok db) :
    ∀ c ∈ db.chunks, c ∈ s.db.chunks ∨ ∃ x ∈ a.items ids, c.id = x.1 ∧ c.chunk = x.2.1 := by
  obtain ⟨db1, hwrite, hlast⟩ := bind_ok hok
  cases hlast
  intro c hc
  rcases writeChunks_rows Chunks.Replace.items_vector hwrite c hc with hc | hnew
  · exact .inl (mem_deleteWhere.mp hc).1
  · exact .inr hnew

/-- What `attach_vectors` does when it applies. -/
theorem attachVectors_ok {a : Attach ν} {db db' : Chunks.Db ν} (hok : attachVectors db a = .ok (true, db')) :
    a.identity.dim ≠ 0 ∧ a.covers (db.chunkRows a.noteId) ∧ ∃ db1,
      Chunks.Db.insertVectors a (db.chunkRows a.noteId) (db.deleteVectors a.noteId (db.chunkDims a.noteId)) = .ok db1 ∧
        db' = (db1.setDim a.noteId a.identity.dim).setState a.noteId .indexed := by
  unfold attachVectors at hok
  split at hok
  · cases hok
  rename_i hdim
  split at hok
  · rename_i hcovers
    cases hattach : db.attachWith a (db.chunkRows a.noteId) (db.chunkDims a.noteId) with
    | error e =>
      rw [hattach] at hok
      cases hok
    | ok db2 =>
      rw [hattach] at hok
      cases hok
      obtain ⟨db1, hinsert, hlast⟩ := bind_ok hattach
      cases hlast
      exact ⟨hdim, hcovers, db1, hinsert, rfl⟩
  · cases hok

theorem attachVectors_skip {a : Attach ν} {db db' : Chunks.Db ν} (hok : attachVectors db a = .ok (false, db')) :
    db' = db := by
  unfold attachVectors at hok
  split at hok
  · cases hok
  split at hok
  · cases hattach : db.attachWith a (db.chunkRows a.noteId) (db.chunkDims a.noteId) with
    | error e =>
      rw [hattach] at hok
      cases hok
    | ok db2 =>
      rw [hattach] at hok
      cases hok
  · cases hok
    rfl

theorem attach_rows {a : Attach ν} {db db' : Chunks.Db ν} {applied : Bool}
    (hok : attachVectors db a = .ok (applied, db')) :
    ∀ c' ∈ db'.chunks, ∃ c ∈ db.chunks, c.id = c'.id ∧ c.chunk = c'.chunk := by
  cases applied with
  | false => exact attachVectors_skip hok ▸ fun c hc => ⟨c, hc, rfl, rfl⟩
  | true =>
    obtain ⟨-, -, db1, hinsert, rfl⟩ := attachVectors_ok hok
    obtain ⟨-, hchunks, -⟩ := Chunks.insertVectors_ok hinsert
    intro c' hc'
    have hmem : c' ∈ updateWhere _ _ db1.chunks := hc'
    rw [hchunks] at hmem
    rcases mem_updateWhere.mp hmem with ⟨c, hc, -, rfl⟩ | ⟨hc, -⟩
    · exact ⟨c, hc, rfl, rfl⟩
    · exact ⟨c', hc, rfl, rfl⟩

/-! ## the invariant -/

theorem Inv.of_db (h : Inv e round contentHash known s) {db : Chunks.Db ν}
    (hkept : ∀ c' ∈ db.chunks, ∃ c ∈ s.db.chunks, c.id = c'.id ∧ c.chunk = c'.chunk) :
    Inv e round contentHash known { s with db := db } :=
  have hst : Evolves s { s with db := db } := ⟨List.Subset.refl _, fun c' hc' => .inl (hkept c' hc')⟩
  ⟨h.cache, h.chunks.kept hst hkept, fun r hr => (h.runs r hr).evolve hst⟩

theorem Inv.drop (h : Inv e round contentHash known s) (k : ℕ) : Inv e round contentHash known (s.drop k) :=
  ⟨h.cache, h.chunks, fun r hr => h.runs r (List.mem_of_mem_eraseIdx hr)⟩

theorem Inv.push (h : Inv e round contentHash known s) {r : Run η ν} (hr : Held e round contentHash known s r) :
    Inv e round contentHash known (s.push r) :=
  ⟨h.cache, h.chunks, List.forall_mem_cons.mpr ⟨hr, h.runs⟩⟩

theorem Inv.finish (h : Inv e round contentHash known s) {job : Job} (hcfg : Resolved cfg) (hrows : Rows known s rows)
    (hd : Serves e round contentHash known cfg.backendId cfg.model d) :
    Inv e round contentHash known (finish contentHash s job cfg rows d) := by
  unfold Embedding.finish
  cases hok : vectorsOf contentHash rows d with
  | none => exact h
  | some vectors => exact h.push ⟨hcfg, rows, hrows, vectorsOf_spec (fun r hr => (hrows r hr).1) hd hok⟩

theorem replace_inv {a : Replace ν} {ids : List String} {db : Chunks.Db ν} (h : Inv e round contentHash known s)
    (hwrites : ∀ c ∈ a.chunks, embeddedText c ∈ known) (hfresh : s.fresh a ids)
    (hok : s.db.replaceWith a ids (s.db.chunkDims a.noteId) = .ok db) :
    Inv e round contentHash known { s with db := db, usedIds := ids ++ s.usedIds } := by
  obtain ⟨hids, hitems⟩ : ((a.items ids).map Prod.fst).Sublist ids ∧ ∀ x ∈ a.items ids, x.2.1 ∈ a.chunks := items_spec
  obtain ⟨hnodup, -, hapart⟩ := List.nodup_append.mp hfresh.2
  have hfst : ∀ x ∈ a.items ids, x.1 ∈ ids := fun x hx => hids.subset (List.mem_map.mpr ⟨x, hx, rfl⟩)
  have hst : Evolves s { s with db := db, usedIds := ids ++ s.usedIds } := by
    refine ⟨List.subset_append_right _ _, fun c' hc' => ?_⟩
    rcases replaceWith_rows hok c' hc' with hc | ⟨x, hx, hid, -⟩
    · exact .inl ⟨c', hc, rfl, rfl⟩
    · exact .inr fun hused => hapart _ (hid ▸ hfst x hx) _ hused rfl
  refine ⟨h.cache, fun r hr => ?_, fun r hr => (h.runs r hr).evolve hst⟩
  rcases replaceWith_rows hok r hr with hr | ⟨x, hx, hid, hchunk⟩
  · exact (h.chunks.evolve hst) r hr
  · refine ⟨hchunk ▸ hwrites _ (hitems x hx), List.mem_append_left _ (hid ▸ hfst x hx), fun c hc heq => ?_⟩
    rcases replaceWith_rows hok c hc with hold | ⟨y, hy, hid', hchunk'⟩
    · have hused := (h.chunks c hold).2.1
      rw [heq, hid] at hused
      exact (hapart _ (hfst x hx) _ hused rfl).elim
    · have hsame := List.inj_on_of_nodup_map (hnodup.sublist hids) hy hx (hid'.symm.trans (heq.trans hid))
      rw [hchunk', hchunk, hsame]

/-- **One step** keeps the cache, and what the runs hold, right. -/
theorem step_inv (hround : ∀ x, round (round x) = round x) (hhash : Set.InjOn contentHash known)
    (h : Inv e round contentHash known s) (hwrites : Writes known s op)
    (hnext : step e round contentHash identityKey s op = some t) : Inv e round contentHash known t := by
  cases op with
  | insertNote noteId =>
    simp only [step] at hnext
    split at hnext
    · cases hnext
    · cases hnext
      exact h.of_db fun c hc => ⟨c, hc, rfl, rfl⟩
  | replaceChunks a ids =>
    simp only [step] at hnext
    split at hnext
    · rename_i hfresh
      split at hnext
      · rename_i db hok
        cases hnext
        exact replace_inv h hwrites hfresh hok
      · cases hnext
        exact h
    · cases hnext
  | deleteNote noteId =>
    cases hnext
    exact h.of_db fun c hc => ⟨c, (mem_deleteWhere.mp hc).1, rfl, rfl⟩
  | embedNote job profile =>
    simp only [step] at hnext
    split at hnext
    · cases hnext
      exact h
    · cases hnext
      exact h
    · cases hnext
      exact h.push ⟨⟨rfl, rfl⟩, fun r hr => h.chunks r (List.mem_filter.mp (mem_ranked.mp hr)).1⟩
  | abandon k =>
    cases hnext
    exact h.drop k
  | run k orders =>
    simp only [step] at hnext
    cases hk : s.running[k]? with
    | none =>
      rw [hk] at hnext
      cases hnext
    | some r =>
      have hheld := h.runs r (List.mem_of_getElem? hk)
      rw [hk] at hnext
      cases r with
      | chunksRead job cfg rows =>
        cases hnext
        exact (h.drop k).push ⟨hheld.1, hheld.2, getMany_serves hround h.cache _⟩
      | cacheRead job cfg rows cached =>
        obtain ⟨hcfg, hrows, hserves⟩ := hheld
        dsimp only at hnext
        split at hnext
        · cases hnext
          exact (h.drop k).finish hcfg hrows hserves
        split at hnext
        · rename_i hordered
          split at hnext
          · cases hnext
            exact h.drop k
          · rename_i entries hentries
            cases hnext
            obtain ⟨vectors, hsent, hnew⟩ := Option.bind_eq_some_iff.mp hentries
            rw [embedDocuments_eq hordered hsent, hcfg.2, ← hcfg.1] at hnew
            have htexts : ∀ t ∈ texts rows, t ∈ known := fun t ht => by
              obtain ⟨r, hr, rfl⟩ := List.mem_map.mp ht
              exact (hrows r hr).1
            have hmiss : ∀ i ∈ missIdx ((texts rows).map contentHash) cached, i < (texts rows).length := fun i hi =>
              (missIdx_lt hi).trans_eq (List.length_map _)
            have hent : Serves e round contentHash known cfg.backendId cfg.model entries :=
              newEntries_serves hhash htexts hmiss hnew
            have hput : Inv e round contentHash known
                { s.drop k with cache := putMany round s.cache entries cfg.backendId cfg.model cfg.dim } :=
              ⟨putMany_sound h.cache hent cfg.dim, h.chunks, (h.drop k).runs⟩
            exact hput.finish hcfg hrows (hserves.merge hent)
        · cases hnext
      | vectorsReady job cfg vectors =>
        dsimp only at hnext
        split at hnext
        · rename_i applied db hok
          cases hnext
          exact (h.drop k).of_db (attach_rows hok)
        · cases hnext
          exact h.drop k

theorem reach_inv (hround : ∀ x, round (round x) = round x) (hhash : Set.InjOn contentHash known)
    (h : (embedding e round contentHash identityKey).Reach (Writes known) s) : Inv e round contentHash known s := by
  refine h.inv (fun s hs => ?_) fun s op t _ hinv hok hnext => step_inv hround hhash hinv hok hnext
  obtain rfl := hs
  exact ⟨fun r hr => (nomatch hr), fun r hr => (nomatch hr), fun r hr => (nomatch hr)⟩

/-! ## what is stored -/

omit [DecidableEq η] in
theorem Vectors.exists {vectors : List (String × List ν)} (h : Vectors e round cfg rows vectors) {x : String × List ν}
    (hx : x ∈ vectors) : ∃ r ∈ rows, x.1 = r.id ∧
      pack round x.2 = right e round cfg.backendId cfg.model (embeddedText r.chunk) := by
  induction h with
  | nil => cases hx
  | cons hone _ ih =>
    rcases List.mem_cons.mp hx with rfl | hx
    · exact ⟨_, List.mem_cons_self, hone⟩
    · obtain ⟨r, hr, hspec⟩ := ih hx
      exact ⟨r, List.mem_cons_of_mem _ hr, hspec⟩

theorem insertVectors_mem {a : Attach ν} {rows : List (String × ℕ)} {db db' : Chunks.Db ν}
    (h : Chunks.Db.insertVectors a rows db = .ok db') : (∀ v ∈ db.vectors, v ∈ db'.vectors) ∧
      ∀ r ∈ rows, ∃ vector, a.vectors.lookup r.1 = some vector ∧
        ⟨a.identity.dim, r.2, vector, a.workspace, a.identity.key, a.ownerId, a.noteId, r.1⟩ ∈ db'.vectors := by
  induction rows generalizing db with
  | nil =>
    cases h
    exact ⟨fun _ hv => hv, fun _ hr => (nomatch hr)⟩
  | cons r rows ih =>
    unfold Chunks.Db.insertVectors at h
    split at h
    · cases h
    · rename_i vector hvector
      obtain ⟨db1, hone, hrest⟩ := bind_ok h
      obtain rfl := Chunks.insertVector_ok hone
      obtain ⟨hkeep, hmem⟩ := ih hrest
      exact ⟨fun v hv => hkeep v (List.mem_cons_of_mem _ hv),
        List.forall_mem_cons.mpr ⟨⟨vector, hvector, hkeep _ List.mem_cons_self⟩, hmem⟩⟩

theorem insertVectors_congr {a : Attach ν} {vectors : List (String × List ν)} {rows : List (String × ℕ)}
    (h : ∀ r ∈ rows, vectors.lookup r.1 = a.vectors.lookup r.1) (db : Chunks.Db ν) :
    Chunks.Db.insertVectors { a with vectors := vectors } rows db = Chunks.Db.insertVectors a rows db := by
  induction rows generalizing db with
  | nil => rfl
  | cons r rows ih =>
    obtain ⟨hr, hrows⟩ := List.forall_mem_cons.mp h
    have hr : ({ a with vectors := vectors } : Attach ν).vectors.lookup r.1 = a.vectors.lookup r.1 := hr
    unfold Chunks.Db.insertVectors
    rw [hr]
    cases a.vectors.lookup r.1 with
    | none => rfl
    | some vector => exact congrArg _ (funext fun db => ih hrows db)

/-- The vectors of the chunks of a note, each embedded alone. -/
def directArgs (e : String → String → Text → List ν) (round : ν → ν) (identityKey : String → String → String)
    (db : Chunks.Db ν) (job : Job) (cfg : EmbedderConfig) : Attach ν where
  noteId := job.noteId
  workspace := job.workspace
  ownerId := job.ownerId
  identity := ⟨identityKey cfg.baseUrl cfg.model, cfg.dim⟩
  vectors := (db.chunksOf job.noteId).map fun c => (c.id, right e round cfg.baseUrl cfg.model (embeddedText c.chunk))

/-- **A cached embedding is the direct one.** What a run stores is what storing the vectors of the chunks, embedded
alone, stores. -/
theorem attached_direct (hround : ∀ x, round (round x) = round x) (hhash : Set.InjOn contentHash known)
    (h : (embedding e round contentHash identityKey).Reach (Writes known) s) {k : ℕ} {job : Job}
    {vectors : List (String × List ν)} {db : Chunks.Db ν} (hrun : s.running[k]? = some (.vectorsReady job cfg vectors))
    (hok : attachVectors s.db (attachArgs round identityKey job cfg vectors) = .ok (true, db)) :
    attachVectors s.db (directArgs e round identityKey s.db job cfg) = .ok (true, db) ∧
    ∀ c ∈ db.chunksOf job.noteId,
      ⟨cfg.dim, c.chunkRowid, right e round cfg.baseUrl cfg.model (embeddedText c.chunk), job.workspace,
        identityKey cfg.baseUrl cfg.model, job.ownerId, job.noteId, c.id⟩ ∈ db.vectors := by
  obtain ⟨hcfg, rows, hrows, hvectors⟩ := (reach_inv hround hhash h).runs _ (List.mem_of_getElem? hrun)
  have hchunks := (reach_inv hround hhash h).chunks
  -- a row of the note has its own vector
  have hlookup : ∀ c ∈ s.db.chunksOf job.noteId, ∀ vector,
      (attachArgs round identityKey job cfg vectors).vectors.lookup c.id = some vector →
        vector = right e round cfg.baseUrl cfg.model (embeddedText c.chunk) := by
    intro c hc vector hvector
    obtain ⟨l₁, l₂, hsplit, -⟩ := List.lookup_eq_some_iff.mp hvector
    have hmem : (c.id, vector) ∈ vectors.map fun x => (x.1, pack round x.2) := by
      rw [show (vectors.map fun x => (x.1, pack round x.2)) = _ from hsplit]
      exact List.mem_append_right _ List.mem_cons_self
    obtain ⟨x, hx, heq⟩ := List.mem_map.mp hmem
    obtain ⟨hxid, rfl⟩ := Prod.mk.inj heq
    obtain ⟨r, hr, hid, hright⟩ := hvectors.exists hx
    rw [hright, hcfg.1, (hrows r hr).2.2 c (List.mem_filter.mp hc).1 (hxid.symm.trans hid)]
  obtain ⟨hdim, -, db1, hinsert, rfl⟩ := attachVectors_ok hok
  obtain ⟨-, hinserted⟩ := insertVectors_mem hinsert
  obtain ⟨-, hkept, -⟩ := Chunks.insertVectors_ok hinsert
  have hstored : ∀ c ∈ s.db.chunksOf job.noteId,
      (attachArgs round identityKey job cfg vectors).vectors.lookup c.id =
        some (right e round cfg.baseUrl cfg.model (embeddedText c.chunk)) := fun c hc => by
    obtain ⟨vector, hvector, -⟩ := hinserted (c.id, c.chunkRowid) (List.mem_map.mpr ⟨c, hc, rfl⟩)
    rw [hvector, hlookup c hc vector hvector]
  constructor
  · have hargs : directArgs e round identityKey s.db job cfg =
        { attachArgs round identityKey job cfg vectors with
          vectors := (directArgs e round identityKey s.db job cfg).vectors } := by
      unfold directArgs attachArgs
      rw [hcfg.1]
    have hids : (directArgs e round identityKey s.db job cfg).vectors.map Prod.fst =
        (s.db.chunkRows job.noteId).map Prod.fst := by
      unfold directArgs Chunks.Db.chunkRows
      rw [List.map_map, List.map_map]
      rfl
    have hsame : ∀ r ∈ s.db.chunkRows job.noteId, (directArgs e round identityKey s.db job cfg).vectors.lookup r.1 =
        (attachArgs round identityKey job cfg vectors).vectors.lookup r.1 := by
      intro r hr
      obtain ⟨c, hc, rfl⟩ := List.mem_map.mp hr
      show (directArgs e round identityKey s.db job cfg).vectors.lookup c.id = _
      rw [hstored c hc]
      refine lookup_map hc fun b hb hid => ?_
      rw [(hchunks c (List.mem_filter.mp hc).1).2.2 b (List.mem_filter.mp hb).1 hid]
    have hcovers : (directArgs e round identityKey s.db job cfg).covers (s.db.chunkRows job.noteId) := by
      obtain ⟨-, ⟨hne, -⟩, -⟩ := attachVectors_ok hok
      exact ⟨hne, hids ▸ List.Subset.refl _, hids ▸ List.Subset.refl _⟩
    unfold attachVectors
    rw [if_neg (show ¬ (directArgs e round identityKey s.db job cfg).identity.dim = 0 from hdim)]
    show (if (directArgs e round identityKey s.db job cfg).covers (s.db.chunkRows job.noteId) then _ else _) = _
    rw [if_pos hcovers, Chunks.Db.attachWith]
    have hinsert' : Chunks.Db.insertVectors (directArgs e round identityKey s.db job cfg) (s.db.chunkRows job.noteId)
        (s.db.deleteVectors job.noteId (s.db.chunkDims job.noteId)) = .ok db1 :=
      (congrArg (fun a => Chunks.Db.insertVectors a _ _) hargs).trans ((insertVectors_congr hsame _).trans hinsert)
    show Except.map _ (Chunks.Db.insertVectors (directArgs e round identityKey s.db job cfg) (s.db.chunkRows job.noteId)
      (s.db.deleteVectors job.noteId (s.db.chunkDims job.noteId)) >>= _) = _
    rw [hinsert']
    rfl
  · intro c' hc'
    have hmem : c' ∈ (db1.setDim job.noteId cfg.dim).chunksOf job.noteId := hc'
    rw [Chunks.chunksOf_setDim] at hmem
    obtain ⟨c, hc, rfl⟩ := List.mem_map.mp hmem
    rw [Chunks.Db.chunksOf, hkept] at hc
    have hc : c ∈ s.db.chunksOf job.noteId := hc
    obtain ⟨vector, hvector, hrow⟩ := hinserted (c.id, c.chunkRowid) (List.mem_map.mpr ⟨c, hc, rfl⟩)
    rw [hlookup c hc vector hvector] at hrow
    rw [show identityKey cfg.baseUrl cfg.model = identityKey cfg.backendId cfg.model by rw [hcfg.1]]
    exact hrow

end

section Samples

def measure (_ _ : String) (text : Text) : List ℕ := [text.length, text.length + 1]

def even (n : ℕ) : ℕ := n / 2 * 2

def keyOf (backend model : String) : String := backend ++ "|" ++ model

def sampleProfile (id : String) : Profiles.Profile :=
  ⟨id, "u", "P", "http://host/v1", "m", none, 2, true, "2026-01-01", "2026-01-01"⟩

def body (ordinal : ℕ) (content : String) : Chunk := ⟨ordinal, ["# Title"], content, 0, content.length⟩

def twoNotes : List (Op ℕ) :=
  [.insertNote "n", .insertNote "m",
    .replaceChunks ⟨"n", "ws", "u", "T", [body 0 "one", body 1 "two", body 2 "one"], none, none⟩ ["a", "b", "c"],
    .replaceChunks ⟨"m", "ws", "v", "T", [body 0 "two", body 1 "three"], none, none⟩ ["d", "e"],
    .embedNote ⟨"n", "ws", "u"⟩ (some (sampleProfile "p")), .run 0 [], .run 0 [[2, 0, 1]], .run 0 [],
    .embedNote ⟨"m", "ws", "v"⟩ (some (sampleProfile "q")), .run 0 [], .run 0 [[0]]]

/-- Whether the vectors of the first run are stored. -/
def attaches (s : State Text ℕ) : Bool :=
  match (s.running[0]? : Option (Run Text ℕ)) with
  | some (.vectorsReady job cfg vectors) =>
    match attachVectors s.db (attachArgs even keyOf job cfg vectors) with
    | .ok (true, _) => true
    | _ => false
  | _ => false

theorem exists_of_attaches {s : State Text ℕ} (h : attaches s = true) : ∃ job cfg vectors db,
    s.running[0]? = some (.vectorsReady job cfg vectors) ∧
      attachVectors s.db (attachArgs even keyOf job cfg vectors) = .ok (true, db) := by
  unfold attaches at h
  split at h
  · rename_i job cfg vectors hrun
    split at h
    · rename_i db hok
      exact ⟨job, cfg, vectors, db, hrun, hok⟩
    · cases h
  · cases h

/-- The second note shares a text with the first one. -/
theorem attached_direct_shared : ∃ (s : State Text ℕ) (job : Job) (cfg : EmbedderConfig) (db : Chunks.Db ℕ),
    attachVectors s.db (directArgs measure even keyOf s.db job cfg) = .ok (true, db) ∧
    ∀ c ∈ db.chunksOf job.noteId,
      ⟨cfg.dim, c.chunkRowid, right measure even cfg.baseUrl cfg.model (embeddedText c.chunk), job.workspace,
        keyOf cfg.baseUrl cfg.model, job.ownerId, job.noteId, c.id⟩ ∈ db.vectors := by
  obtain ⟨s, hs, hview⟩ := Option.map_eq_some_iff.mp (show ((embedding measure even id keyOf).exec State.empty
    twoNotes).map attaches = some true by decide +kernel)
  obtain ⟨job, cfg, vectors, db, hrun, hok⟩ := exists_of_attaches hview
  have hreach : (embedding measure even id keyOf).Reach (Writes Set.univ) s :=
    (Reach.of_exec (.start rfl) hs).mono fun _ op _ => by
      cases op with
      | replaceChunks a ids => exact fun _ _ => Set.mem_univ _
      | _ => trivial
  exact ⟨s, job, cfg, db, attached_direct (fun x => by unfold even; omega) Function.injective_id.injOn hreach hrun hok⟩

end Samples
end Kajet.Embedding
