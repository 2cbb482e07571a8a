import Kajet.Lib.Fts5
import Kajet.Search.Fusion
import Kajet.Tags.Rename
import Kajet.Teardown.Runs

/-!
# The lexical leg of the search

Free text becomes an expression of the full-text index: its words in quotes, with `OR` between them.  A row of the
index stands for a chunk; it is written and deleted with its chunk.

* `terms`, `toFtsQuery`      the expression, `parse_toFtsQuery`: one that can be read;
* `searchFts`                the query, joined with the chunks and the notes;
* `Mirrors`, `Mirrors.reach` the rows are those of the chunks, in every run of the services;
* `Found`, `search_fts_finds`   the chunks of a workspace and an owner with a term, the best ones first.
-/

namespace Kajet.Search
open Str Table Chunks Teardown Machine

/-! ## the expression -/

def ftsStopwords : List Text :=
  ["ale", "bez", "być", "był", "było", "coś", "czy", "dla", "gdy", "gdzie", "ich", "ile", "jak", "jako", "jego",
    "jest", "już", "kto", "które", "mnie", "może", "nad", "nic", "nie", "niż", "ona", "one", "oni", "pod", "przez",
    "przy", "się", "tak", "tam", "tego", "ten", "tylko", "tym", "więc", "zamiast", "żeby"].map String.toList

section
variable (u : Tags.Unicode) (query : Text)

/-- `re.findall(r"\w+", query)` of three characters or more. -/
def ftsTokens : List Text := (query.splitOnP fun c => !u.isWordChar c).filter (3 ≤ ·.length)

/-- Without stopwords, unless there is nothing else. -/
def terms : List Text :=
  let filtered := (ftsTokens u query).filter (u.lower · ∉ ftsStopwords)
  if filtered = [] then ftsTokens u query else filtered

def toFtsQuery : Text := Fts5.anyOf (terms u query)

variable {u query} {t : Text}

theorem mem_ftsTokens (h : t ∈ ftsTokens u query) : (∀ c ∈ t, u.isWordChar c = true) ∧ 3 ≤ t.length := by
  obtain ⟨ht, hlen⟩ := List.mem_filter.mp h
  exact ⟨fun c hc => Bool.not_eq_eq_eq_not.mp (mem_splitOnP ht c hc), of_decide_eq_true hlen⟩

theorem mem_terms (h : t ∈ terms u query) : t ∈ ftsTokens u query := by
  unfold terms at h
  dsimp only at h
  split at h
  · exact h
  · exact (List.mem_filter.mp h).1

theorem quotable_of_mem_terms (h : t ∈ terms u query) : Fts5.Quotable t ∧ 3 ≤ t.length := by
  obtain ⟨hword, hlen⟩ := mem_ftsTokens (mem_terms h)
  refine ⟨fun c hc => ⟨?_, ?_⟩, hlen⟩
  · rintro rfl
    have hquote : u.isWordChar '"' = false := rfl
    exact Bool.false_ne_true (hquote.symm.trans (hword _ hc))
  · rintro rfl
    have hnul : u.isWordChar '\x00' = false := rfl
    exact Bool.false_ne_true (hnul.symm.trans (hword _ hc))

theorem toFtsQuery_eq_nil : toFtsQuery u query = [] ↔ terms u query = [] := by
  rw [toFtsQuery]
  cases terms u query with
  | nil => exact iff_of_true rfl rfl
  | cons t ts =>
    refine iff_of_false (fun h => ?_) (List.cons_ne_nil t ts)
    cases ts with
    | nil =>
      rw [Fts5.anyOf, List.map_singleton, List.intercalate_singleton] at h
      cases h
    | cons t' ts =>
      rw [Fts5.anyOf_cons_cons] at h
      cases h

end

/-! ## the query -/

/-- The columns of the note that a hit shows. -/
structure NoteColumns where
  title : Text
  folder : Text
  updatedAt : Text

/-- The columns that have tokens. -/
def indexedColumns (f : FtsRow) : List (Text × Text) :=
  [("title".toList, f.title.toList), ("header_path".toList, (" ".intercalate f.headerPath).toList),
    ("content".toList, f.content.toList)]

def ftsColumns : List Text := ["chunk_id", "note_id", "workspace", "title", "header_path", "content"].map String.toList

/-- `_chunk_hit` -/
def chunkHit (columns : NoteColumns) (c : NoteChunk) : ChunkHit :=
  ⟨some c.id.toList, c.noteId.toList, columns.title, columns.folder, columns.updatedAt,
    c.chunk.headerPath.map String.toList, c.chunk.content.toList, 0, none⟩

section
variable {ν : Type} (u : Tags.Unicode) (fold : Char → Char) (bm25 : List FtsRow → Fts5.Expr → FtsRow → ℚ)
  (columns : Teardown.Note → NoteColumns) (db : Teardown.Db ν) (query : Text) (workspace ownerId : String)

/-- `JOIN note_chunks … JOIN notes … WHERE n.owner_id = …` -/
def joined (f : FtsRow) : Option (FtsRow × NoteChunk × Teardown.Note) := do
  let c ← Table.row NoteChunk.id db.chunks f.chunkId
  let n ← Table.row Teardown.Note.id db.notes c.noteId
  if n.scope.ownerId = ownerId then some (f, c, n) else none

/-- The rows of `notes_fts` that match, joined, the lowest rank first. -/
def ftsMatches (e : Fts5.Expr) : List (FtsRow × NoteChunk × Teardown.Note) :=
  let hits := db.fts.filter fun f => e.holds (Fts5.trigram fold) (indexedColumns f) && f.workspace = workspace
  Rank.ranked (fun x => bm25 db.fts e x.1) (hits.filterMap (joined db ownerId))

/-- An expression that cannot be read raises; the search has no lexical hits then. -/
def searchFts (limit : ℕ) : List ChunkHit :=
  if toFtsQuery u query = [] then []
  else match Fts5.parse ftsColumns (toFtsQuery u query) with
    | none => []
    | some e => ((ftsMatches fold bm25 db workspace ownerId e).take limit).map fun x => chunkHit (columns x.2.2) x.2.1

end

/-! ## rows of the index and chunks -/

abbrev Entry := String × String × String × List String × String

def ftsEntry (f : FtsRow) : Entry := (f.chunkId, f.noteId, f.workspace, f.headerPath, f.content)
def chunkEntry (c : NoteChunk) : Entry := (c.id, c.noteId, c.workspace, c.chunk.headerPath, c.chunk.content)

/-- The two tables list the same, in one order. -/
def Mirrors (chunks : List NoteChunk) (fts : List FtsRow) : Prop := fts.map ftsEntry = chunks.map chunkEntry

section
variable {ν : Type} {i i' : Chunks.Db ν} {db db' : Teardown.Db ν} {chunks : List NoteChunk} {fts : List FtsRow}

/-- Chunks and rows of the same notes are deleted. -/
theorem Mirrors.deleteWhere (h : Mirrors chunks fts) (p : String → Bool) :
    Mirrors (deleteWhere (fun c => p c.noteId) chunks) (deleteWhere (fun f => p f.noteId) fts) := by
  have hfilter := congrArg (List.filter fun x : Entry => !p x.2.1) h
  rw [List.filter_map, List.filter_map] at hfilter
  exact hfilter

theorem Mirrors.writeChunk {a : Chunks.Db.Replace ν} {chunkId : String} {chunk : Chunk} {vector : Option (List ν)}
    (h : Mirrors i.chunks i.fts) (hok : i.writeChunk a chunkId chunk vector = .ok i') : Mirrors i'.chunks i'.fts := by
  unfold Chunks.Db.writeChunk at hok
  dsimp only at hok
  split at hok
  · cases hok
  obtain ⟨i1, hstored, hlast⟩ := bind_ok hok
  cases hlast
  split at hstored
  · obtain rfl := insertVector_ok hstored
    exact congrArg (List.cons _) h
  · cases hstored
    exact congrArg (List.cons _) h

theorem Mirrors.writeChunks {a : Chunks.Db.Replace ν} {items : List (String × Chunk × Option (List ν))}
    (h : Mirrors i.chunks i.fts) (hok : Chunks.Db.writeChunks a items i = .ok i') : Mirrors i'.chunks i'.fts := by
  induction items generalizing i with
  | nil =>
    cases hok
    exact h
  | cons x rest ih =>
    obtain ⟨i1, hone, hrest⟩ := bind_ok hok
    exact ih (h.writeChunk hone) hrest

theorem Mirrors.replaceWith {a : Chunks.Db.Replace ν} {ids : List String} {dims : List ℕ}
    (h : Mirrors i.chunks i.fts) (hok : i.replaceWith a ids dims = .ok i') : Mirrors i'.chunks i'.fts := by
  obtain ⟨i1, hwritten, hlast⟩ := bind_ok hok
  cases hlast
  have hcleared : Mirrors (i.deleteChunks a.noteId dims).chunks (i.deleteChunks a.noteId dims).fts :=
    h.deleteWhere fun id => id = a.noteId
  exact (hcleared.writeChunks hwritten : Mirrors i1.chunks i1.fts)

theorem Mirrors.attachWith {a : Chunks.Db.Attach ν} {rows : List (String × ℕ)} {dims : List ℕ}
    (h : Mirrors i.chunks i.fts) (hok : i.attachWith a rows dims = .ok i') : Mirrors i'.chunks i'.fts := by
  obtain ⟨i1, hinsert, hlast⟩ := bind_ok hok
  cases hlast
  obtain ⟨hchunks, hfts, -⟩ := insertVectors_eq hinsert
  have hdim : (i1.setDim a.noteId a.identity.dim).chunks.map chunkEntry = i1.chunks.map chunkEntry :=
    map_updateWhere fun _ => rfl
  show i1.fts.map ftsEntry = (i1.setDim a.noteId a.identity.dim).chunks.map chunkEntry
  rw [hdim, hchunks, hfts]
  exact h

theorem Mirrors.run [DecidableEq ν] {op : Teardown.Op ν} (h : Mirrors db.chunks db.fts) (hfiled : Filed db)
    (hrun : Teardown.run db op = some db') : Mirrors db'.chunks db'.fts := by
  cases op with
  | insertNote note =>
    simp only [Teardown.run] at hrun
    split at hrun
    · cases hrun
    · cases hrun
      exact h
  | syncNoteTags scope generated now taggedByNote =>
    simp only [Teardown.run] at hrun
    split at hrun
    · cases hrun
    · obtain ⟨-, rfl⟩ := some_of_checked hrun
      exact h
  | sweepOrphanTags scope =>
    obtain ⟨tags, hsweep, -⟩ := hfiled.sweep scope
    cases hsweep.symm.trans hrun
    exact h
  | persistLinks scope resolutions clearSourceIds =>
    cases hrun
    obtain ⟨links, dangling, heq⟩ := persistMany_eq db scope resolutions clearSourceIds
    rw [heq]
    exact h
  | replaceChunks a ids dims =>
    simp only [Teardown.run] at hrun
    split at hrun
    · cases hrun
    · rename_i index hok
      cases hrun
      exact Mirrors.replaceWith (i := db.index) h hok
  | attachVectors a rows dims =>
    simp only [Teardown.run] at hrun
    split at hrun
    · cases hrun
    · rename_i index hok
      cases hrun
      exact Mirrors.attachWith (i := db.index) h hok
  | createShare token noteId scope now previewDescription =>
    simp only [Teardown.run] at hrun
    split at hrun
    · cases hrun
    · obtain ⟨-, rfl⟩ := some_of_checked hrun
      exact h
  | revoke ownerId noteId token now =>
    cases hrun
    exact h
  | setPreviewDescription ownerId noteId token value =>
    cases hrun
    exact h
  | recordVisit visit =>
    simp only [Teardown.run] at hrun
    split at hrun
    · cases hrun
    · obtain ⟨-, rfl⟩ := some_of_checked hrun
      exact h
  | sweepVisits cutoff =>
    cases hrun
    exact h
  | deleteNotes scope notes =>
    simp only [Teardown.run, Db.notesInSession, foldlM_noteInSession hfiled, Option.bind_eq_bind, Option.bind_some] at hrun
    have hpurge : Filed (db.purge (fun id => notes.any fun m => id = m.id) fun n => notes.any (·.row n)) :=
      hfiled.purge fun n _ hn => any_row hn
    obtain ⟨tags, hsweep, -⟩ := hpurge.sweep scope
    cases hsweep.symm.trans hrun
    exact h.deleteWhere fun id => notes.any fun m => id = m.id
  | clearWorkspaceData scope =>
    cases (workspaceInSession_eq hfiled scope).symm.trans hrun
    exact h.deleteWhere (db.isIn scope)

theorem Mirrors.reach [DecidableEq ν] (h : (database ν).Reach Own db) : Filed db ∧ Mirrors db.chunks db.fts := by
  refine h.inv (P := fun db => Filed db ∧ Mirrors db.chunks db.fts) (fun db hdb => ?_) fun db op db' _ hinv hown hstep => ⟨hinv.1.step hown hstep, ?_⟩
  · obtain rfl : db = Db.empty := hdb
    exact ⟨.reach (.start rfl), rfl⟩
  · simp only [database] at hstep
    split at hstep
    · cases hstep
      cases hrun : Teardown.run db op with
      | none => exact hinv.2
      | some db' => exact hinv.2.run hinv.1 hrun
    · cases hstep

end

/-! ## what the search finds -/

/-- A chunk of the scope, its note and its row of the index, with a term in the title, the headers or the text. -/
structure Found {ν : Type} (u : Tags.Unicode) (fold : Char → Char) (query : Text) (scope : Tags.Scope) (db : Teardown.Db ν)
    (x : FtsRow × NoteChunk × Teardown.Note) : Prop where
  row : x.1 ∈ db.fts
  chunk : x.2.1 ∈ db.chunks
  note : x.2.2 ∈ db.notes
  rowOf : x.1.chunkId = x.2.1.id
  noteOf : x.2.2.id = x.2.1.noteId
  scope : x.2.1.scope = scope
  term : ∃ t ∈ terms u query, ∃ text ∈ [x.1.title.toList, (" ".intercalate x.2.1.chunk.headerPath).toList,
    x.2.1.chunk.content.toList], t.map fold <:+: text.map fold

section
variable {ν : Type} {u : Tags.Unicode} {fold : Char → Char} {db : Teardown.Db ν} {query : Text} {workspace ownerId : String}

theorem Mirrors.entry_eq (hfiled : Filed db) (h : Mirrors db.chunks db.fts) {f : FtsRow} {c : NoteChunk} (hf : f ∈ db.fts)
    (hc : c ∈ db.chunks) (hid : f.chunkId = c.id) : ftsEntry f = chunkEntry c := by
  obtain ⟨c', hc', heq⟩ := List.mem_map.mp (h ▸ List.mem_map_of_mem hf : ftsEntry f ∈ db.chunks.map chunkEntry)
  have hids : c'.id = f.chunkId := congrArg Prod.fst heq
  rw [← heq, hfiled.index.ids.eq hc' hc (hids.trans hid)]

theorem joined_eq_some (hfiled : Filed db) {f : FtsRow} {x : FtsRow × NoteChunk × Teardown.Note} :
    joined db ownerId f = some x ↔ x.1 = f ∧ x.2.1 ∈ db.chunks ∧ x.2.2 ∈ db.notes ∧ x.1.chunkId = x.2.1.id ∧
      x.2.2.id = x.2.1.noteId ∧ x.2.2.scope.ownerId = ownerId := by
  have hids : Keyed NoteChunk.id db.chunks := hfiled.index.ids
  simp only [joined, Option.bind_eq_bind, Option.bind_eq_some_iff, hids.row_eq, hfiled.notes.row_eq]
  constructor
  · rintro ⟨c, ⟨hc, hid⟩, n, ⟨hn, hnid⟩, howner⟩
    split at howner
    · cases howner
      exact ⟨rfl, hc, hn, hid.symm, hnid, ‹_›⟩
    · cases howner
  · obtain ⟨f', c, n⟩ := x
    rintro ⟨rfl, hc, hn, hid, hnid, howner⟩
    exact ⟨c, ⟨hc, hid.symm⟩, n, ⟨hn, hnid⟩, if_pos howner⟩

theorem mem_ftsMatches (hfiled : Filed db) (hmirrors : Mirrors db.chunks db.fts) {bm25 : List FtsRow → Fts5.Expr → FtsRow → ℚ}
    {e : Fts5.Expr} (he : ∀ row : List (Text × Text), e.holds (Fts5.trigram fold) row = true ↔
      ∃ t ∈ terms u query, ∃ column ∈ row, t.map fold <:+: column.2.map fold)
    {x : FtsRow × NoteChunk × Teardown.Note} :
    x ∈ ftsMatches fold bm25 db workspace ownerId e ↔ Found u fold query ⟨workspace, ownerId⟩ db x := by
  rw [ftsMatches, Rank.mem_ranked, List.mem_filterMap]
  have hterm : ∀ f : FtsRow, ∀ c : NoteChunk, ftsEntry f = chunkEntry c →
      (e.holds (Fts5.trigram fold) (indexedColumns f) = true ↔ ∃ t ∈ terms u query, ∃ text ∈ [f.title.toList,
        (" ".intercalate c.chunk.headerPath).toList, c.chunk.content.toList], t.map fold <:+: text.map fold) := by
    intro f c heq
    obtain ⟨-, -, -, hpath, hcontent⟩ : f.chunkId = c.id ∧ f.noteId = c.noteId ∧ f.workspace = c.workspace ∧
        f.headerPath = c.chunk.headerPath ∧ f.content = c.chunk.content := by
      simpa [ftsEntry, chunkEntry] using heq
    rw [he, ← hpath, ← hcontent]
    simp [indexedColumns]
  constructor
  · rintro ⟨f, hf, hjoined⟩
    obtain ⟨hf, hmatch⟩ := List.mem_filter.mp hf
    obtain ⟨rfl, hc, hn, hid, hnid, howner⟩ := (joined_eq_some hfiled).mp hjoined
    obtain ⟨hholds, hworkspace⟩ := Bool.and_eq_true_iff.mp hmatch
    have hentry := hmirrors.entry_eq hfiled hf hc hid
    have hin : x.1.workspace = x.2.1.workspace := congrArg (fun e : Entry => e.2.2.1) hentry
    have hscope := hfiled.chunks _ hc _ hn hnid
    refine ⟨hf, hc, hn, hid, hnid, ?_, (hterm _ _ hentry).mp hholds⟩
    exact congrArg₂ Tags.Scope.mk (hin.symm.trans (of_decide_eq_true hworkspace))
      ((congrArg Tags.Scope.ownerId hscope).trans howner)
  · intro h
    have hentry := hmirrors.entry_eq hfiled h.row h.chunk h.rowOf
    have hin : x.1.workspace = x.2.1.workspace := congrArg (fun e : Entry => e.2.2.1) hentry
    have hscope := hfiled.chunks _ h.chunk _ h.note h.noteOf
    refine ⟨x.1, List.mem_filter.mpr ⟨h.row, Bool.and_eq_true_iff.mpr ⟨(hterm _ _ hentry).mpr h.term, ?_⟩⟩,
      (joined_eq_some hfiled).mpr ⟨rfl, h.chunk, h.note, h.rowOf, h.noteOf, ?_⟩⟩
    · exact decide_eq_true (hin.trans (congrArg Tags.Scope.workspace h.scope))
    · rw [← hscope, h.scope]

theorem ftsMatches_nodup (hfiled : Filed db) (hmirrors : Mirrors db.chunks db.fts) (bm25 : List FtsRow → Fts5.Expr → FtsRow → ℚ)
    (e : Fts5.Expr) : ((ftsMatches fold bm25 db workspace ownerId e).map (·.2.1.id)).Nodup := by
  rw [ftsMatches, ((Rank.ranked_perm _ _).map _).nodup_iff, List.Nodup, List.pairwise_map]
  -- the rows of the index have the ids of the chunks
  have hids : (db.fts.map FtsRow.chunkId).Nodup := by
    have hkeys := congrArg (List.map Prod.fst) hmirrors
    rw [List.map_map, List.map_map] at hkeys
    have hchunks : (db.chunks.map NoteChunk.id).Nodup := keyed_iff_nodup.mp hfiled.index.ids
    exact hkeys.symm ▸ hchunks
  refine List.Pairwise.filterMap _ (fun f f' hne x hx x' hx' => ?_) (List.pairwise_map.mp hids |>.filter _)
  obtain ⟨rfl, -, -, hid, -⟩ := (joined_eq_some hfiled).mp hx
  obtain ⟨rfl, -, -, hid', -⟩ := (joined_eq_some hfiled).mp hx'
  exact fun heq => hne (hid.trans (heq.trans hid'.symm))

/-- Two notes with one chunk each, the second one deleted. -/
def indexedTwo : List (Teardown.Op ℕ) :=
  [.insertNote ⟨"a", ⟨"work", "u"⟩⟩, .insertNote ⟨"b", ⟨"work", "u"⟩⟩,
    .replaceChunks ⟨"a", "work", "u", "One", [⟨0, ["One"], "graphs (not) trees", 0, 18⟩], none, none⟩ ["c"] [],
    .replaceChunks ⟨"b", "work", "u", "Two", [⟨0, ["Two"], "graphs", 0, 6⟩], none, none⟩ ["d"] [],
    .deleteNotes ⟨"work", "u"⟩ [⟨"b", ⟨"work", "u"⟩⟩]]

end
end Kajet.Search
