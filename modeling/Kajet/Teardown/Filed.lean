import Kajet.Teardown.Store

/-!
# Every row where its note is

* `Filed`        the rows of a note repeat its workspace and owner, and its vectors are where its chunks
                 say; a link and a dangling row have their source;
* `Db.purge`     the rows of some notes are gone (`noteInSession_eq`, `workspaceInSession_eq`);
* `Own`          a transaction writes about notes that are still where it has read them;
* `Filed.reach`  the runs of such transactions.
-/

namespace Kajet.Teardown
open Table Str Tags Links Chunks Machine

variable {ν : Type} {db db' : Db ν} {i i' : Chunks.Db ν} {scope σ : Scope} {p p' : String → Bool} {q q' : Note → Bool}

/-! ## the invariant -/

/-- The full-text rows and the vectors belong to chunks. -/
structure Housed (i : Chunks.Db ν) : Prop where
  ids : Keyed NoteChunk.id i.chunks
  fts : ∀ f ∈ i.fts, ∃ c ∈ i.chunks, c.id = f.chunkId ∧ c.noteId = f.noteId
  vectors : ∀ v ∈ i.vectors, ∃ c ∈ i.chunks, c.noteId = v.noteId ∧ c.dim = some v.dim ∧ c.scope = v.scope

structure Filed (db : Db ν) : Prop where
  notes : Keyed Note.id db.notes
  intact : db.intact
  tree : Tags.Tree db.tagging.tags
  tagged : ∀ l ∈ db.tagging.noteTags, ∀ n ∈ db.notes, ∀ t ∈ db.tagging.tags, n.id = l.noteId → t.id = l.tagId →
    t.scope = n.scope
  index : Housed db.index
  chunks : ∀ c ∈ db.chunks, ∀ n ∈ db.notes, n.id = c.noteId → c.scope = n.scope
  shares : ∀ s ∈ db.shares, ∀ n ∈ db.notes, n.id = s.noteId → s.scope = n.scope
  links : ∀ l ∈ db.links, ∃ n ∈ db.notes, n.id = l.sourceNoteId ∧ n.scope = l.scope
  dangling : ∀ d ∈ db.dangling, ∃ n ∈ db.notes, n.id = d.sourceNoteId ∧ n.scope = d.scope

/-! ## rows of notes that go -/

/-- The rows of the notes with the ids `p` are gone, and the notes `q` themselves. -/
def Db.purge (db : Db ν) (p : String → Bool) (q : Note → Bool) : Db ν where
  notes := deleteWhere q db.notes
  chunks := deleteWhere (fun c => p c.noteId) db.chunks
  fts := deleteWhere (fun f => p f.noteId) db.fts
  vectors := deleteWhere (fun v => p v.noteId) db.vectors
  tagging := ⟨db.tagging.tags, deleteWhere (fun l => p l.noteId) db.tagging.noteTags⟩
  shares := deleteWhere (fun s => p s.noteId) db.shares
  visits := deleteWhere (fun v => db.shares.any fun s => p s.noteId && s.token = v.token) db.visits
  links := deleteWhere (fun l => p l.sourceNoteId || p l.targetNoteId) db.links
  dangling := deleteWhere (fun d => p d.sourceNoteId) db.dangling

theorem Housed.purge {ns : List Chunks.Note} (h : Housed i) : Housed (⟨ns, deleteWhere (fun c => p c.noteId) i.chunks,
    deleteWhere (fun f => p f.noteId) i.fts, deleteWhere (fun v => p v.noteId) i.vectors⟩ : Chunks.Db ν) where
  ids := h.ids.deleteWhere
  fts f hf := by
    obtain ⟨hf, hp⟩ := mem_deleteWhere.mp hf
    obtain ⟨c, hc, hid, hnote⟩ := h.fts f hf
    exact ⟨c, mem_deleteWhere.mpr ⟨hc, hnote ▸ hp⟩, hid, hnote⟩
  vectors v hv := by
    obtain ⟨hv, hp⟩ := mem_deleteWhere.mp hv
    obtain ⟨c, hc, hnote, hrest⟩ := h.vectors v hv
    exact ⟨c, mem_deleteWhere.mpr ⟨hc, hnote ▸ hp⟩, hnote, hrest⟩

/-- A note stays when its id is not among those that go. -/
theorem mem_purge_notes (hq : ∀ n ∈ db.notes, q n = true → p n.id = true) {n : Note} (hn : n ∈ db.notes) {id : String}
    (hid : n.id = id) (hp : p id = false) : n ∈ (db.purge p q).notes := by
  refine mem_deleteWhere.mpr ⟨hn, Bool.eq_false_iff.mpr fun hgone => ?_⟩
  rw [← hid, hq n hn hgone] at hp
  cases hp

theorem Filed.intact_purge (h : Filed db) (hq : ∀ n ∈ db.notes, q n = true → p n.id = true) : (db.purge p q).intact := by
  obtain ⟨htags, hparents, hchunks, hshares, hvisits⟩ := h.intact
  refine ⟨fun l hl => ?_, hparents, fun c hc => ?_, fun s hs => ?_, fun v hv => ?_⟩
  · obtain ⟨hl, hp⟩ := mem_deleteWhere.mp hl
    obtain ⟨⟨n, hn, hid⟩, htag⟩ := htags l hl
    exact ⟨⟨n, mem_purge_notes hq hn hid hp, hid⟩, htag⟩
  · obtain ⟨hc, hp⟩ := mem_deleteWhere.mp hc
    obtain ⟨n, hn, hid⟩ := hchunks c hc
    exact ⟨n, mem_purge_notes hq hn hid hp, hid⟩
  · obtain ⟨hs, hp⟩ := mem_deleteWhere.mp hs
    obtain ⟨n, hn, hid⟩ := hshares s hs
    exact ⟨n, mem_purge_notes hq hn hid hp, hid⟩
  · obtain ⟨hv, hp⟩ := mem_deleteWhere.mp hv
    obtain ⟨s, hs, htoken⟩ := hvisits v hv
    refine ⟨s, mem_deleteWhere.mpr ⟨hs, Bool.eq_false_iff.mpr fun hgone => ?_⟩, htoken⟩
    exact Bool.eq_false_iff.mp hp (List.any_eq_true.mpr ⟨s, hs, by simp [hgone, htoken]⟩)

theorem Filed.purge (h : Filed db) (hq : ∀ n ∈ db.notes, q n = true → p n.id = true) : Filed (db.purge p q) where
  notes := h.notes.deleteWhere
  intact := h.intact_purge hq
  tree := h.tree
  tagged l hl n hn := h.tagged l (mem_deleteWhere.mp hl).1 n (mem_deleteWhere.mp hn).1
  index := h.index.purge
  chunks c hc n hn := h.chunks c (mem_deleteWhere.mp hc).1 n (mem_deleteWhere.mp hn).1
  shares s hs n hn := h.shares s (mem_deleteWhere.mp hs).1 n (mem_deleteWhere.mp hn).1
  links l hl := by
    obtain ⟨hl, hp⟩ := mem_deleteWhere.mp hl
    obtain ⟨n, hn, hid, hscope⟩ := h.links l hl
    exact ⟨n, mem_purge_notes hq hn hid (Bool.or_eq_false_iff.mp hp).1, hid, hscope⟩
  dangling d hd := by
    obtain ⟨hd, hp⟩ := mem_deleteWhere.mp hd
    obtain ⟨n, hn, hid, hscope⟩ := h.dangling d hd
    exact ⟨n, mem_purge_notes hq hn hid hp, hid, hscope⟩

theorem deleteWhere_deleteWhere {ρ : Type*} {f g : ρ → Bool} (t : List ρ) :
    deleteWhere g (deleteWhere f t) = deleteWhere (fun r => f r || g r) t := by
  rw [deleteWhere, deleteWhere, deleteWhere, List.filter_filter]
  exact List.filter_congr fun r _ => by rw [Bool.not_or, Bool.and_comm]

theorem purge_purge : (db.purge p q).purge p' q' = db.purge (fun id => p id || p' id) fun n => q n || q' n := by
  have hvisit (v : Visit) : ((db.shares.any fun s => p s.noteId && s.token = v.token) ||
      (deleteWhere (fun s => p s.noteId) db.shares).any fun s => p' s.noteId && s.token = v.token) =
      db.shares.any fun s => (p s.noteId || p' s.noteId) && s.token = v.token := by
    rw [Bool.eq_iff_iff]
    simp only [Bool.or_eq_true, List.any_eq_true, mem_deleteWhere, Bool.and_eq_true, decide_eq_true_eq]
    constructor
    · rintro (⟨s, hs, hp, htoken⟩ | ⟨s, ⟨hs, -⟩, hp, htoken⟩)
      · exact ⟨s, hs, .inl hp, htoken⟩
      · exact ⟨s, hs, .inr hp, htoken⟩
    · rintro ⟨s, hs, hp, htoken⟩
      by_cases hfirst : p s.noteId = true
      · exact .inl ⟨s, hs, hfirst, htoken⟩
      · exact .inr ⟨s, ⟨hs, Bool.eq_false_iff.mpr hfirst⟩, hp.resolve_left hfirst, htoken⟩
  simp only [Db.purge, deleteWhere_deleteWhere, hvisit]
  congr 2
  funext l
  cases p l.sourceNoteId <;> cases p l.targetNoteId <;> simp

/-! ## the teardown of a note -/

/-- The links are still there. -/
def Db.held (db : Db ν) (p : String → Bool) (q : Note → Bool) : Db ν :=
  { db.purge p q with links := db.links, dangling := db.dangling }

theorem Filed.checked_held (h : Filed db) (hq : ∀ n ∈ db.notes, q n = true → p n.id = true) :
    (db.held p q).checked = some (db.held p q) := if_pos (h.intact_purge hq)

theorem Db.checked_of (h : db.intact) : db.checked = some db := if_pos h

theorem deleteWhere_none {ρ : Type*} (t : List ρ) : deleteWhere (fun _ => false) t = t :=
  deleteWhere_of_none fun _ _ => rfl

theorem deleteWhere_congr {ρ : Type*} {f g : ρ → Bool} {t : List ρ} (h : ∀ r ∈ t, f r = g r) :
    deleteWhere f t = deleteWhere g t :=
  List.filter_congr fun r hr => by rw [h r hr]

/-- The chunks of a note record where its vectors are. -/
theorem Housed.deleteChunks_eq (h : Housed i) {noteId : String} {dims : List ℕ} (hdims : i.chunkDims noteId ⊆ dims) :
    i.deleteChunks noteId dims = ⟨i.notes, deleteWhere (fun c => c.noteId = noteId) i.chunks,
      deleteWhere (fun f => f.noteId = noteId) i.fts, deleteWhere (fun v => v.noteId = noteId) i.vectors⟩ := by
  have hvectors : deleteWhere (fun v => v.dim ∈ dims ∧ v.noteId = noteId) i.vectors =
      deleteWhere (fun v => v.noteId = noteId) i.vectors := by
    refine deleteWhere_congr fun v hv => decide_eq_decide.mpr ⟨And.right, fun hid => ⟨hdims ?_, hid⟩⟩
    obtain ⟨c, hc, hnote, hdim, -⟩ := h.vectors v hv
    exact mem_chunkDims.mpr ⟨c, mem_chunksOf.mpr ⟨hc, hnote.trans hid⟩, hdim⟩
  rw [Chunks.Db.deleteChunks, Chunks.Db.deleteVectors, hvectors]

theorem deleteChunks_eq (h : Housed db.index) (noteId : String) : db.deleteChunks noteId = { db with
    chunks := deleteWhere (fun c => c.noteId = noteId) db.chunks
    fts := deleteWhere (fun f => f.noteId = noteId) db.fts
    vectors := deleteWhere (fun v => v.noteId = noteId) db.vectors } := by
  rw [Db.deleteChunks, h.deleteChunks_eq fun _ hd => hd]
  rfl

/-- The row of the note goes when it has the owner of the note that was read. -/
def Note.row (note n : Note) : Bool := n.id = note.id ∧ n.scope.ownerId = note.scope.ownerId

theorem noteInSession_eq (h : Filed db) (note : Note) :
    db.noteInSession note = some (db.purge (· = note.id) note.row) := by
  let one := db.held (· = note.id) fun _ => false
  let two := db.held (· = note.id) note.row
  have hone : (((db.deleteNoteTags note.id).deleteChunks note.id).deleteVisitsForNote note.id).deleteSharesForNote
      note.id = one := by
    rw [@deleteChunks_eq _ (db.deleteNoteTags note.id) h.index]
    simp only [Db.deleteNoteTags, Db.deleteVisitsForNote, Db.deleteSharesForNote, Tags.Db.deleteNoteTags,
      List.mem_singleton, Bool.decide_and, one, Db.held, Db.purge, deleteWhere_none]
  have hfirst : one.checked = some one := h.checked_held (by exact nofun)
  have htwo : one.deleteNote note = two := by
    simp only [Db.deleteNote, one, two, Db.held, Db.purge, deleteWhere_none]
    rfl
  have hsecond : two.checked = some two :=
    h.checked_held fun n _ hn => decide_eq_true (of_decide_eq_true hn).1
  rw [Db.noteInSession, hone, hfirst, Option.bind_eq_bind, Option.bind_some, htwo, hsecond]
  simp only [Option.bind_some, Db.deleteLinksFrom, Db.deleteLinksTo, Db.deleteDanglingForSource, two, Db.held, Db.purge,
    deleteWhere_deleteWhere]

theorem purge_none : db.purge (fun _ => false) (fun _ => false) = db := by
  have hvisits : deleteWhere (fun v => db.shares.any fun s => false && s.token = v.token) db.visits = db.visits :=
    deleteWhere_of_none fun v _ => List.any_eq_false.mpr fun s _ => Bool.false_ne_true
  simp only [Db.purge, hvisits, Bool.or_false, deleteWhere_none]

theorem row_id {note n : Note} (h : note.row n = true) : n.id = note.id := (of_decide_eq_true h).1

theorem any_row {notes : List Note} {n : Note} (h : notes.any (·.row n) = true) :
    (notes.any fun m => n.id = m.id) = true := by
  obtain ⟨m, hm, hrow⟩ := List.any_eq_true.mp h
  exact List.any_eq_true.mpr ⟨m, hm, decide_eq_true (row_id hrow)⟩

theorem foldlM_noteInSession (h : Filed db) (notes : List Note) : notes.foldlM Db.noteInSession db =
    some (db.purge (fun id => notes.any fun m => id = m.id) fun n => notes.any (·.row n)) := by
  induction notes generalizing db with
  | nil => exact congrArg some purge_none.symm
  | cons note rest ih =>
    rw [List.foldlM_cons, noteInSession_eq h, Option.bind_eq_bind, Option.bind_some,
      ih (h.purge fun n _ hn => decide_eq_true (row_id hn)), purge_purge]
    simp only [List.any_cons]

/-! ## the sweep -/

theorem parents_of_tree {tags : List Tag} (h : Tags.Tree tags) : ∀ t ∈ tags, ∀ id ∈ t.parentId, ∃ u ∈ tags, u.id = id := by
  intro t ht id hid
  have hbelow := h.parent t ht
  rw [Option.mem_def.mp hid] at hbelow
  cases habove : upper t.path with
  | none =>
    rw [habove] at hbelow
    cases hbelow
  | some path =>
    rw [habove] at hbelow
    obtain ⟨u, hu, -, -, huid⟩ := hbelow
    exact ⟨u, hu, (Option.some.inj huid).symm⟩

theorem Filed.linksOk (h : Filed db) : LinksOk db.tagging.tags db.tagging.noteTags := fun l hl => by
  obtain ⟨t, ht, hid⟩ := (h.intact.1 l hl).2
  rw [h.tree.ids.row_eq.mpr ⟨ht, hid⟩]
  rfl

theorem exists_of_linksOk {tags : List Tag} {noteTags : List NoteTag} (h : LinksOk tags noteTags) :
    ∀ l ∈ noteTags, ∃ t ∈ tags, t.id = l.tagId := fun l hl => by
  obtain ⟨t, ht⟩ := Option.isSome_iff_exists.mp (h l hl)
  exact ⟨t, row_some ht⟩

/-- New tags, or some of the old ones, for the same notes. -/
theorem Filed.retag {tagging : Tags.Db} (h : Filed db) (htree : Tags.Tree tagging.tags)
    (hlinks : LinksOk tagging.tags tagging.noteTags)
    (hnotes : ∀ l ∈ tagging.noteTags, ∃ n ∈ db.notes, n.id = l.noteId)
    (htagged : ∀ l ∈ tagging.noteTags, ∀ n ∈ db.notes, ∀ t ∈ tagging.tags, n.id = l.noteId → t.id = l.tagId →
      t.scope = n.scope) : Filed { db with tagging := tagging } where
  notes := h.notes
  intact := ⟨fun l hl => ⟨hnotes l hl, exists_of_linksOk hlinks l hl⟩, parents_of_tree htree, h.intact.2.2⟩
  tree := htree
  tagged := htagged
  index := h.index
  chunks := h.chunks
  shares := h.shares
  links := h.links
  dangling := h.dangling

/-- The sweep always ends, and no foreign key stops it. -/
theorem Filed.sweep (h : Filed db) (σ : Scope) : ∃ tags, db.sweepOrphanTags σ =
    some { db with tagging := ⟨tags, db.tagging.noteTags⟩ } ∧ tags.Sublist db.tagging.tags ∧ Sweeping db.tagging.noteTags σ db.tagging.tags tags ∧
      Exact tags (db.tagging.noteTags.filterMap (Tags.Db.carriedOf tags)) σ ∧
      Filed { db with tagging := ⟨tags, db.tagging.noteTags⟩ } := by
  obtain ⟨⟨tags, noteTags⟩, hsweep⟩ := Option.isSome_iff_exists.mp (sweepOrphanTags_isSome db.tagging σ)
  have hsub : tags.Sublist db.tagging.tags := by
    obtain ⟨kept, hloop, heq⟩ := Option.map_eq_some_iff.mp hsweep
    obtain rfl : kept = tags := congrArg Tags.Db.tags heq
    exact Prune.loop_sublist hloop
  obtain ⟨rfl, -, hsweeping, hexact⟩ := sweepOrphanTags_ok h.tree h.linksOk hsweep
  have hfiled : Filed { db with tagging := ⟨tags, db.tagging.noteTags⟩ } :=
    h.retag hsweeping.tree hsweeping.links (fun l hl => (h.intact.1 l hl).1) fun l hl n hn t ht =>
      h.tagged l hl n hn t (hsweeping.sub ht)
  refine ⟨tags, ?_, hsub, hsweeping, hexact, hfiled⟩
  rw [Db.sweepOrphanTags, hsweep, Option.bind_eq_bind, Option.bind_some]
  exact Db.checked_of hfiled.intact

/-! ## the index -/

section
variable {a : Db.Replace ν} {noteId : String} {dims : List ℕ}

theorem Housed.deleteChunks (h : Housed i) (hdims : i.chunkDims noteId ⊆ dims) : Housed (i.deleteChunks noteId dims) := by
  rw [h.deleteChunks_eq hdims]
  exact h.purge (p := (· = noteId))

/-- One turn: a chunk, its full-text row, and its vector when the call vectorises. -/
theorem writeChunk_eq {chunkId : String} {chunk : Chunk} {vector : Option (List ν)}
    (h : i.writeChunk a chunkId chunk vector = .ok i') : (∃ n ∈ i.notes, n.id = a.noteId) ∧ i'.notes = i.notes ∧
      i'.chunks = i.newChunk a chunkId chunk :: i.chunks ∧
      (∃ f : FtsRow, f.chunkId = chunkId ∧ f.noteId = a.noteId ∧ i'.fts = f :: i.fts) ∧
      ∃ vs : List (VecRow ν), i'.vectors = vs ++ i.vectors ∧
        ∀ v ∈ vs, v.noteId = a.noteId ∧ (i.newChunk a chunkId chunk).dim = some v.dim ∧ v.scope = a.scope := by
  unfold Chunks.Db.writeChunk at h
  dsimp only at h
  split at h
  · cases h
  rename_i hnote
  have hthere : ∃ n ∈ i.notes, n.id = a.noteId := by
    simpa using hnote
  obtain ⟨i1, hstored, hlast⟩ := bind_ok h
  cases hlast
  split at hstored
  · rename_i identity vector hidentity
    obtain rfl := insertVector_ok hstored
    refine ⟨hthere, rfl, rfl, ⟨_, rfl, rfl, rfl⟩, [_], rfl, fun v hv => ?_⟩
    obtain rfl := List.mem_singleton.mp hv
    refine ⟨rfl, ?_, rfl⟩
    rw [Chunks.Db.newChunk, hidentity]
    rfl
  · cases hstored
    exact ⟨hthere, rfl, rfl, ⟨_, rfl, rfl, rfl⟩, [], rfl, fun _ hv => absurd hv List.not_mem_nil⟩

theorem Housed.writeChunk {chunkId : String} {chunk : Chunk} {vector : Option (List ν)} (h : Housed i)
    (hid : ∀ c ∈ i.chunks, c.id ≠ chunkId) (hok : i.writeChunk a chunkId chunk vector = .ok i') : Housed i' := by
  obtain ⟨-, -, hchunks, ⟨f, hfid, hfnote, hfts⟩, vs, hvectors, hvs⟩ := writeChunk_eq hok
  have hold {c : NoteChunk} (hc : c ∈ i.chunks) : c ∈ i'.chunks := hchunks ▸ List.mem_cons_of_mem _ hc
  have hnew : i.newChunk a chunkId chunk ∈ i'.chunks := hchunks ▸ List.mem_cons_self
  refine ⟨?_, fun x hx => ?_, fun v hv => ?_⟩
  · rw [hchunks]
    exact uniqueOn_cons.mpr ⟨fun k hk c hc hck =>
      hid c hc ((Option.some.inj hck).trans (Option.some.inj hk).symm), h.ids⟩
  · rw [hfts] at hx
    rcases List.mem_cons.mp hx with rfl | hx
    · exact ⟨_, hnew, hfid.symm, hfnote.symm⟩
    · obtain ⟨c, hc, hrest⟩ := h.fts x hx
      exact ⟨c, hold hc, hrest⟩
  · rw [hvectors] at hv
    rcases List.mem_append.mp hv with hv | hv
    · obtain ⟨hnote, hdim, hscope⟩ := hvs v hv
      exact ⟨_, hnew, hnote.symm, hdim, hscope.symm⟩
    · obtain ⟨c, hc, hrest⟩ := h.vectors v hv
      exact ⟨c, hold hc, hrest⟩

/-- The chunk is of the note of the call. -/
structure Written (i : Chunks.Db ν) (a : Db.Replace ν) (c : NoteChunk) : Prop where
  noteId : c.noteId = a.noteId
  scope : c.scope = a.scope
  note : ∃ n ∈ i.notes, n.id = a.noteId

theorem Housed.writeChunks {items : List (String × Chunk × Option (List ν))} (h : Housed i)
    (hids : (items.map Prod.fst ++ i.chunks.map (·.id)).Nodup) (hok : Chunks.Db.writeChunks a items i = .ok i') :
    Housed i' ∧ ∀ c ∈ i'.chunks, c ∈ i.chunks ∨ Written i a c := by
  induction items generalizing i with
  | nil =>
    cases hok
    exact ⟨h, fun c hc => .inl hc⟩
  | cons x items ih =>
    obtain ⟨i1, hone, hrest⟩ := bind_ok hok
    obtain ⟨hnote, hnotes, hchunks, -, -⟩ := writeChunk_eq hone
    rw [List.map_cons, List.cons_append, List.nodup_cons] at hids
    obtain ⟨hx, hids⟩ := hids
    have hfree : ∀ c ∈ i.chunks, c.id ≠ x.1 := fun c hc heq =>
      hx (List.mem_append_right _ (heq ▸ List.mem_map_of_mem hc))
    have hnext : (items.map Prod.fst ++ i1.chunks.map (·.id)).Nodup := by
      rw [hchunks, List.map_cons]
      exact List.nodup_middle.mpr (List.nodup_cons.mpr ⟨hx, hids⟩)
    obtain ⟨hhoused, hfrom⟩ := ih (h.writeChunk hfree hone) hnext hrest
    refine ⟨hhoused, fun c hc => ?_⟩
    rcases hfrom c hc with hc | hwritten
    · rcases List.mem_cons.mp (hchunks ▸ hc) with rfl | hc
      · exact .inr ⟨rfl, rfl, hnote⟩
      · exact .inl hc
    · exact .inr ⟨hwritten.noteId, hwritten.scope, hnote⟩

theorem map_fst_items {ids : List String} (hlen : ids.length = a.chunks.length) (hcheck : a.check = .ok ()) :
    (a.items ids).map Prod.fst = ids := by
  unfold Db.Replace.check at hcheck
  unfold Db.Replace.items
  split at hcheck
  · rename_i hnone
    rw [hnone, List.map_map]
    exact List.map_fst_zip hlen.le
  · cases hcheck
  · rename_i vectors identity hvectors hidentity
    split at hcheck
    · cases hcheck
    · rename_i hlens
      rw [hvectors, List.map_map]
      refine List.map_fst_zip ?_
      rw [List.length_zip]
      omega

theorem Housed.replaceWith {ids : List String} (h : Housed i) (hlen : ids.length = a.chunks.length)
    (hids : (ids ++ i.chunks.map (·.id)).Nodup) (hcheck : a.check = .ok ()) (hdims : i.chunkDims a.noteId ⊆ dims)
    (hok : i.replaceWith a ids dims = .ok i') :
    Housed i' ∧ ∀ c ∈ i'.chunks, c ∈ i.chunks ∨ Written i a c := by
  obtain ⟨i1, hwrite, hlast⟩ := bind_ok hok
  cases hlast
  have hfresh : ((a.items ids).map Prod.fst ++ (i.deleteChunks a.noteId dims).chunks.map (·.id)).Nodup := by
    rw [map_fst_items hlen hcheck]
    exact hids.sublist ((List.Sublist.refl ids).append (List.filter_sublist.map _))
  obtain ⟨hhoused, hfrom⟩ := (h.deleteChunks hdims).writeChunks hfresh hwrite
  refine ⟨⟨hhoused.ids, hhoused.fts, hhoused.vectors⟩, fun c hc => ?_⟩
  rcases hfrom c hc with hc | hwritten
  · exact .inl (mem_deleteWhere.mp hc).1
  · exact .inr ⟨hwritten.noteId, hwritten.scope, hwritten.note⟩

theorem insertVectors_eq {a : Db.Attach ν} {rows : List (String × ℕ)} (h : Db.insertVectors a rows i = .ok i') :
    i'.chunks = i.chunks ∧ i'.fts = i.fts ∧ ∃ vs : List (VecRow ν), i'.vectors = vs ++ i.vectors ∧
      (rows = [] → vs = []) ∧ ∀ v ∈ vs, v.noteId = a.noteId ∧ v.dim = a.identity.dim ∧ v.scope = a.scope := by
  induction rows generalizing i with
  | nil =>
    cases h
    exact ⟨rfl, rfl, [], rfl, fun _ => rfl, fun _ hv => absurd hv List.not_mem_nil⟩
  | cons r rows ih =>
    unfold Db.insertVectors at h
    split at h
    · cases h
    · obtain ⟨i1, hone, hrest⟩ := bind_ok h
      obtain rfl := insertVector_ok hone
      obtain ⟨hchunks, hfts, vs, hvectors, -, hvs⟩ := ih hrest
      refine ⟨hchunks, hfts, vs ++ [_], hvectors.trans (List.append_cons vs _ _), by exact nofun, fun v hv => ?_⟩
      rcases List.mem_append.mp hv with hv | hv
      · exact hvs v hv
      · obtain rfl := List.mem_singleton.mp hv
        exact ⟨rfl, rfl, rfl⟩

/-- The worker finds chunks of the note, all of the scope of the call. -/
theorem Housed.attachWith {a : Db.Attach ν} {rows : List (String × ℕ)} (h : Housed i)
    (hdims : i.chunkDims a.noteId ⊆ dims) (hscope : ∀ c ∈ i.chunks, c.noteId = a.noteId → c.scope = a.scope)
    (hrows : rows ≠ [] → i.chunksOf a.noteId ≠ []) (hok : i.attachWith a rows dims = .ok i') :
    Housed i' ∧ ∀ c ∈ i'.chunks, ∃ x ∈ i.chunks, x.noteId = c.noteId ∧ x.scope = c.scope := by
  obtain ⟨i1, hinsert, hlast⟩ := bind_ok hok
  cases hlast
  obtain ⟨hchunks, hfts, vs, hvectors, hempty, hvs⟩ := insertVectors_eq hinsert
  have hdelete : (i.deleteVectors a.noteId dims).vectors = deleteWhere (fun v => v.noteId = a.noteId) i.vectors :=
    congrArg Chunks.Db.vectors (h.deleteChunks_eq hdims)
  -- a chunk keeps its id, its note and its scope; those of the note get the dimension of the call
  have hmap {c : NoteChunk} (hc : c ∈ i.chunks) : ∃ c' ∈ (i1.setDim a.noteId a.identity.dim).chunks,
      c'.id = c.id ∧ c'.noteId = c.noteId ∧ c'.scope = c.scope ∧
        c'.dim = if c.noteId = a.noteId then some a.identity.dim else c.dim := by
    have hc : c ∈ i1.chunks := hchunks ▸ hc
    by_cases hnote : c.noteId = a.noteId
    · exact ⟨_, mem_updateWhere_of_sel hc (decide_eq_true hnote), rfl, rfl, rfl, (if_pos hnote).symm⟩
    · exact ⟨c, mem_updateWhere_of_not hc (decide_eq_false hnote), rfl, rfl, rfl, (if_neg hnote).symm⟩
  refine ⟨⟨?_, fun f hf => ?_, fun v hv => ?_⟩, fun c hc => ?_⟩
  · have hkeyed : Keyed NoteChunk.id i1.chunks := hchunks ▸ h.ids
    exact hkeyed.updateWhere fun _ => rfl
  · obtain ⟨c, hc, hid, hnote⟩ := h.fts f (hfts ▸ hf)
    obtain ⟨c', hc', hid', hnote', -⟩ := hmap hc
    exact ⟨c', hc', hid'.trans hid, hnote'.trans hnote⟩
  · have hv : v ∈ vs ++ (i.deleteVectors a.noteId dims).vectors := hvectors ▸ hv
    rcases List.mem_append.mp hv with hv | hv
    · obtain ⟨hnote, hdim, hvscope⟩ := hvs v hv
      have hne : rows ≠ [] := fun hnil => by rw [hempty hnil] at hv; cases hv
      obtain ⟨c, hc⟩ := List.exists_mem_of_ne_nil _ (hrows hne)
      obtain ⟨hc, hcnote⟩ := mem_chunksOf.mp hc
      obtain ⟨c', hc', -, hnote', hscope', hdim'⟩ := hmap hc
      refine ⟨c', hc', (hnote'.trans hcnote).trans hnote.symm, ?_, ?_⟩
      · rw [hdim', if_pos hcnote, hdim]
      · rw [hscope', hscope c hc hcnote, hvscope]
    · rw [hdelete] at hv
      obtain ⟨hv, hne⟩ := mem_deleteWhere.mp hv
      obtain ⟨c, hc, hnote, hdim, hvscope⟩ := h.vectors v hv
      obtain ⟨c', hc', -, hnote', hscope', hdim'⟩ := hmap hc
      refine ⟨c', hc', hnote'.trans hnote, ?_, hscope'.trans hvscope⟩
      rw [hdim', if_neg fun heq => of_decide_eq_false hne (hnote.symm.trans heq), hdim]
  · rcases mem_updateWhere.mp hc with ⟨x, hx, -, rfl⟩ | ⟨hx, -⟩
    · exact ⟨x, hchunks ▸ hx, rfl, rfl⟩
    · exact ⟨c, hchunks ▸ hx, rfl, rfl⟩

end

/-! ## the teardown of a workspace -/

/-- The note is there, and in the scope. -/
def Db.isIn (db : Db ν) (σ : Scope) (id : String) : Bool := db.notes.any fun n => n.id = id ∧ n.scope = σ

theorem Filed.isIn_eq (h : Filed db) {n : Note} (hn : n ∈ db.notes) {id : String} (hid : n.id = id) :
    db.isIn σ id = decide (n.scope = σ) := by
  rw [Bool.eq_iff_iff, decide_eq_true_eq, Db.isIn, List.any_eq_true]
  constructor
  · rintro ⟨m, hm, hmatch⟩
    obtain ⟨hmid, hscope⟩ := of_decide_eq_true hmatch
    rwa [h.notes.eq hn hm (hid.trans hmid.symm)]
  · exact fun hscope => ⟨n, hn, decide_eq_true ⟨hid, hscope⟩⟩

theorem Filed.isIn_chunk (h : Filed db) {c : NoteChunk} (hc : c ∈ db.chunks) :
    db.isIn σ c.noteId = decide (c.scope = σ) := by
  obtain ⟨n, hn, hid⟩ := h.intact.2.2.1 c hc
  rw [h.isIn_eq hn hid, h.chunks c hc n hn hid]

theorem Filed.isIn_share (h : Filed db) {s : ShareLink} (hs : s ∈ db.shares) :
    db.isIn σ s.noteId = decide (s.scope = σ) := by
  obtain ⟨n, hn, hid⟩ := h.intact.2.2.2.1 s hs
  rw [h.isIn_eq hn hid, h.shares s hs n hn hid]

theorem Filed.isIn_link (h : Filed db) {l : NoteLink} (hl : l ∈ db.links) :
    db.isIn σ l.sourceNoteId = decide (l.scope = σ) := by
  obtain ⟨n, hn, hid, hscope⟩ := h.links l hl
  rw [h.isIn_eq hn hid, hscope]

theorem Filed.isIn_dangling (h : Filed db) {d : DanglingLink} (hd : d ∈ db.dangling) :
    db.isIn σ d.sourceNoteId = decide (d.scope = σ) := by
  obtain ⟨n, hn, hid, hscope⟩ := h.dangling d hd
  rw [h.isIn_eq hn hid, hscope]

/-- A note carries tags of its scope. -/
theorem Filed.isIn_noteTag (h : Filed db) {l : NoteTag} (hl : l ∈ db.tagging.noteTags) :
    db.isIn σ l.noteId = db.tagging.tags.any fun t => t.scope = σ ∧ t.id = l.tagId := by
  obtain ⟨⟨n, hn, hid⟩, t, ht, htid⟩ := h.intact.1 l hl
  have hscope := h.tagged l hl n hn t ht hid htid
  rw [h.isIn_eq hn hid, Bool.eq_iff_iff, decide_eq_true_eq, List.any_eq_true, ← hscope]
  constructor
  · exact fun hσ => ⟨t, ht, decide_eq_true ⟨hσ, htid⟩⟩
  · rintro ⟨u, hu, hmatch⟩
    obtain ⟨huσ, huid⟩ := of_decide_eq_true hmatch
    rwa [h.tree.ids.eq ht hu (htid.trans huid.symm)]

theorem Filed.deleteChunksForWorkspace_eq (h : Filed db) (σ : Scope) : db.deleteChunksForWorkspace σ = { db with
    chunks := deleteWhere (fun c => db.isIn σ c.noteId) db.chunks
    fts := deleteWhere (fun f => db.isIn σ f.noteId) db.fts
    vectors := deleteWhere (fun v => db.isIn σ v.noteId) db.vectors } := by
  have hchunks : deleteWhere (fun c => c.scope = σ) db.chunks = deleteWhere (fun c => db.isIn σ c.noteId) db.chunks :=
    deleteWhere_congr fun c hc => (h.isIn_chunk hc).symm
  have hfts : deleteWhere (fun f => (db.chunks.filter (·.scope = σ)).any (·.id = f.chunkId)) db.fts =
      deleteWhere (fun f => db.isIn σ f.noteId) db.fts := by
    refine deleteWhere_congr fun f hf => ?_
    obtain ⟨c, hc, hid, hnote⟩ := h.index.fts f hf
    rw [← hnote, h.isIn_chunk hc, Bool.eq_iff_iff, decide_eq_true_eq, List.any_eq_true]
    constructor
    · rintro ⟨x, hx, hxid⟩
      obtain ⟨hx, hscope⟩ := List.mem_filter.mp hx
      rw [h.index.ids.eq hc hx (hid.trans (of_decide_eq_true hxid).symm)]
      exact of_decide_eq_true hscope
    · exact fun hscope => ⟨c, List.mem_filter.mpr ⟨hc, decide_eq_true hscope⟩, decide_eq_true hid⟩
  have hvectors : deleteWhere (fun v => v.dim ∈ ((db.chunks.filter (·.scope = σ)).filterMap (·.dim)).dedup ∧
      v.scope = σ) db.vectors = deleteWhere (fun v => db.isIn σ v.noteId) db.vectors := by
    refine deleteWhere_congr fun v hv => ?_
    obtain ⟨c, hc, hnote, hdim, hscope⟩ := h.index.vectors v hv
    rw [← hnote, h.isIn_chunk hc, hscope]
    refine decide_eq_decide.mpr ⟨And.right, fun hσ => ⟨List.mem_dedup.mpr (List.mem_filterMap.mpr ⟨c, ?_, hdim⟩), hσ⟩⟩
    exact List.mem_filter.mpr ⟨hc, decide_eq_true (hscope.trans hσ)⟩
  rw [Db.deleteChunksForWorkspace, hchunks, hfts, hvectors]

/-- The tags go first. -/
theorem Filed.deleteWorkspaceTags (h : Filed db) (σ : Scope) : Filed (db.deleteWorkspaceTags σ) := by
  have htree : Tags.Tree (deleteWhere (fun t => t.scope = σ) db.tagging.tags) := by
    refine h.tree.filter fun t _ hkeep u _ hscope _ => ?_
    rw [Bool.not_eq_true', decide_eq_false_iff_not] at hkeep ⊢
    rwa [hscope]
  have hkept {l : NoteTag} (hl : l ∈ (db.tagging.deleteWorkspaceTags σ).noteTags) : l ∈ db.tagging.noteTags ∧
      ∃ t ∈ deleteWhere (fun t => t.scope = σ) db.tagging.tags, t.id = l.tagId := by
    obtain ⟨hl, hout⟩ := mem_deleteWhere.mp hl
    obtain ⟨t, ht, hid⟩ := (h.intact.1 l hl).2
    refine ⟨hl, t, mem_deleteWhere.mpr ⟨ht, decide_eq_false fun hscope => ?_⟩, hid⟩
    exact Bool.eq_false_iff.mp hout (List.any_eq_true.mpr ⟨t, ht, decide_eq_true ⟨hscope, hid⟩⟩)
  refine h.retag htree (fun l hl => ?_) (fun l hl => (h.intact.1 l (hkept hl).1).1) fun l hl n hn t ht =>
    h.tagged l (hkept hl).1 n hn t (mem_deleteWhere.mp ht).1
  obtain ⟨t, ht, hid⟩ := (hkept hl).2
  exact Option.isSome_iff_exists.mpr ⟨t, htree.ids.row_eq.mpr ⟨ht, hid⟩⟩

/-- What the teardown of a workspace leaves. -/
def Db.wiped (db : Db ν) (σ : Scope) : Db ν :=
  { (db.deleteWorkspaceTags σ).purge (db.isIn σ) (fun n => n.scope = σ) with
    links := deleteWhere (fun l => l.scope = σ) db.links }

theorem isIn_of_scope {n : Note} (hn : n ∈ db.notes) (hscope : n.scope = σ) : db.isIn σ n.id = true :=
  List.any_eq_true.mpr ⟨n, hn, decide_eq_true ⟨rfl, hscope⟩⟩

/-- The rows of the index and of the share links, by workspace and owner. -/
theorem Filed.held_eq (h : Filed db) (hout : ∀ l ∈ db.tagging.noteTags, db.isIn σ l.noteId = false) :
    ((db.deleteChunksForWorkspace σ).deleteVisitsForWorkspace σ).deleteSharesForWorkspace σ =
      db.held (db.isIn σ) fun _ => false := by
  have hvisits : deleteWhere (fun v => db.shares.any fun s => s.scope = σ ∧ s.token = v.token) db.visits =
      deleteWhere (fun v => db.shares.any fun s => db.isIn σ s.noteId && s.token = v.token) db.visits := by
    refine deleteWhere_congr fun v _ => Bool.eq_iff_iff.mpr ?_
    simp only [List.any_eq_true, Bool.and_eq_true, decide_eq_true_eq]
    refine exists_congr fun s => and_congr_right fun hs => and_congr_left fun _ => ?_
    rw [h.isIn_share hs, decide_eq_true_eq]
  have hshares : deleteWhere (fun s => s.scope = σ) db.shares = deleteWhere (fun s => db.isIn σ s.noteId) db.shares :=
    deleteWhere_congr fun s hs => (h.isIn_share hs).symm
  have htags : db.tagging = ⟨db.tagging.tags, deleteWhere (fun l => db.isIn σ l.noteId) db.tagging.noteTags⟩ := by
    rw [deleteWhere_of_none hout]
  rw [h.deleteChunksForWorkspace_eq]
  simp only [Db.deleteVisitsForWorkspace, Db.deleteSharesForWorkspace, Db.held, Db.purge, deleteWhere_none, hvisits,
    hshares, ← htags]

theorem workspaceInSession_eq (h : Filed db) (σ : Scope) : db.workspaceInSession σ = some (db.wiped σ) := by
  let one := db.deleteWorkspaceTags σ
  have hone : Filed one := h.deleteWorkspaceTags σ
  have hout : ∀ l ∈ one.tagging.noteTags, one.isIn σ l.noteId = false := by
    intro l hl
    rw [hone.isIn_noteTag hl, List.any_eq_false]
    exact fun t ht hscope => of_decide_eq_false (mem_deleteWhere.mp ht).2 (of_decide_eq_true hscope).1
  have hthree : (one.held (one.isIn σ) fun _ => false).deleteNotesForWorkspace σ =
      one.held (one.isIn σ) fun n => n.scope = σ := by
    simp only [Db.deleteNotesForWorkspace, Db.held, Db.purge, deleteWhere_none]
  have hdangling : deleteWhere (fun d => d.scope = σ) db.dangling =
      deleteWhere (fun d => db.isIn σ d.sourceNoteId) db.dangling :=
    deleteWhere_congr fun d hd => (h.isIn_dangling hd).symm
  have htwo : (one.held (one.isIn σ) fun _ => false).checked = some (one.held (one.isIn σ) fun _ => false) :=
    hone.checked_held (by exact nofun)
  have hlast : (one.held (one.isIn σ) fun n => n.scope = σ).checked = some (one.held (one.isIn σ) fun n => n.scope = σ) :=
    hone.checked_held fun n hn hscope => isIn_of_scope hn (of_decide_eq_true hscope)
  rw [Db.workspaceInSession, Db.checked_of hone.intact, Option.bind_eq_bind, Option.bind_some, hone.held_eq hout, htwo,
    Option.bind_some, hthree, hlast, Option.bind_some]
  refine congrArg some ?_
  show ({ one.purge (db.isIn σ) (fun n => n.scope = σ) with
    links := _, dangling := deleteWhere (fun d => d.scope = σ) db.dangling } : Db ν) = _
  rw [hdangling]
  rfl

theorem Filed.wiped (h : Filed db) (σ : Scope) : Filed (db.wiped σ) := by
  have hpurge : Filed ((db.deleteWorkspaceTags σ).purge (db.isIn σ) fun n => n.scope = σ) :=
    (h.deleteWorkspaceTags σ).purge fun n hn hscope => isIn_of_scope hn (of_decide_eq_true hscope)
  refine ⟨hpurge.notes, hpurge.intact, hpurge.tree, hpurge.tagged, hpurge.index, hpurge.chunks, hpurge.shares,
    fun l hl => ?_, hpurge.dangling⟩
  obtain ⟨hl, hscope⟩ := mem_deleteWhere.mp hl
  obtain ⟨n, hn, hid, hnscope⟩ := h.links l hl
  exact ⟨n, mem_deleteWhere.mpr ⟨hn, hnscope.symm ▸ hscope⟩, hid, hnscope⟩

end Kajet.Teardown
