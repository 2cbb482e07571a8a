import Kajet.Teardown.Filed

/-!
# The runs of the services

* `Own`            a transaction writes about notes that are still where it has read them;
* `Filed.step`     one lemma for each kind of write;
* `Filed.reach`    every database of a run of such transactions is filed.
-/

namespace Kajet.Teardown
open Table Str Tags Links Chunks Machine

variable {ν : Type} {db db' : Db ν} {scope : Scope}

/-- The notes and chunks that the call has read are still there, in the scope that it writes; links
and dangling rows are for a note that is there. -/
def Own (db : Db ν) : Op ν → Prop
  | .syncNoteTags scope _ _ taggedByNote => ∀ n ∈ db.notes, n.id ∈ taggedByNote.map Prod.fst → n.scope = scope
  | .persistLinks scope resolutions _ =>
    ∀ x ∈ resolutions, x.2.1 = [] ∧ x.2.2 = [] ∨ ∃ n ∈ db.notes, n.id = x.1 ∧ n.scope = scope
  | .replaceChunks a _ dims =>
    (∀ n ∈ db.notes, n.id = a.noteId → n.scope = a.scope) ∧ db.index.chunkDims a.noteId ⊆ dims
  | .attachVectors a rows dims =>
    (∀ n ∈ db.notes, n.id = a.noteId → n.scope = a.scope) ∧ db.index.chunkDims a.noteId ⊆ dims ∧
      (rows ≠ [] → db.index.chunksOf a.noteId ≠ [])
  | .createShare _ noteId scope _ _ => ∀ n ∈ db.notes, n.id = noteId → n.scope = scope
  | _ => True

instance [DecidableEq ν] (db : Db ν) : (op : Op ν) → Decidable (Own db op)
  | .syncNoteTags scope _ _ taggedByNote =>
    inferInstanceAs (Decidable (∀ n ∈ db.notes, n.id ∈ taggedByNote.map Prod.fst → n.scope = scope))
  | .persistLinks scope resolutions _ => inferInstanceAs (Decidable
      (∀ x ∈ resolutions, x.2.1 = [] ∧ x.2.2 = [] ∨ ∃ n ∈ db.notes, n.id = x.1 ∧ n.scope = scope))
  | .replaceChunks a _ dims => inferInstanceAs (Decidable
      ((∀ n ∈ db.notes, n.id = a.noteId → n.scope = a.scope) ∧ db.index.chunkDims a.noteId ⊆ dims))
  | .attachVectors a rows dims => inferInstanceAs (Decidable
      ((∀ n ∈ db.notes, n.id = a.noteId → n.scope = a.scope) ∧ db.index.chunkDims a.noteId ⊆ dims ∧
        (rows ≠ [] → db.index.chunksOf a.noteId ≠ [])))
  | .createShare _ noteId scope _ _ => inferInstanceAs (Decidable (∀ n ∈ db.notes, n.id = noteId → n.scope = scope))
  | .insertNote _ | .sweepOrphanTags _ | .revoke .. | .setPreviewDescription .. | .recordVisit _ => isTrue trivial
  | .sweepVisits _ | .deleteNotes .. | .clearWorkspaceData _ => isTrue trivial

theorem Filed.insertNote (h : Filed db) {note : Note} (hfresh : ∀ n ∈ db.notes, n.id ≠ note.id) :
    Filed { db with notes := db.notes ++ [note] } := by
  obtain ⟨htags, hparents, hchunks, hshares, hvisits⟩ := h.intact
  -- no row refers to a note that is not there yet
  have hthere {id : String} (hn : ∃ n ∈ db.notes, n.id = id) : ∃ n ∈ db.notes ++ [note], n.id = id := by
    obtain ⟨n, hn, hid⟩ := hn
    exact ⟨n, List.mem_append_left _ hn, hid⟩
  have hold {id : String} (hn : ∃ n ∈ db.notes, n.id = id) {n : Note} (hmem : n ∈ db.notes ++ [note])
      (hid : n.id = id) : n ∈ db.notes := by
    rcases List.mem_append.mp hmem with hmem | hmem
    · exact hmem
    · obtain ⟨m, hm, hmid⟩ := hn
      rw [List.mem_singleton.mp hmem] at hid
      exact (hfresh m hm (hmid.trans hid.symm)).elim
  refine ⟨h.notes.append hfresh, ⟨fun l hl => ⟨hthere (htags l hl).1, (htags l hl).2⟩, hparents,
    fun c hc => hthere (hchunks c hc), fun s hs => hthere (hshares s hs), hvisits⟩, h.tree,
    fun l hl n hn t ht hid => h.tagged l hl n (hold (htags l hl).1 hn hid) t ht hid,
    ⟨h.index.ids, h.index.fts, h.index.vectors⟩,
    fun c hc n hn hid => h.chunks c hc n (hold (hchunks c hc) hn hid) hid,
    fun s hs n hn hid => h.shares s hs n (hold (hshares s hs) hn hid) hid, fun l hl => ?_, fun d hd => ?_⟩
  · obtain ⟨n, hn, hrest⟩ := h.links l hl
    exact ⟨n, List.mem_append_left _ hn, hrest⟩
  · obtain ⟨n, hn, hrest⟩ := h.dangling d hd
    exact ⟨n, List.mem_append_left _ hn, hrest⟩

/-- Tags are written for notes of their scope. -/
theorem Filed.sync (h : Filed db) {generated : Text → String} {now : String} {taggedByNote : TaggedByNote}
    {tagging : Tags.Db} (hnormal : Admissible taggedByNote)
    (hown : ∀ n ∈ db.notes, n.id ∈ taggedByNote.map Prod.fst → n.scope = scope)
    (hsync : db.tagging.syncNoteTags scope generated now taggedByNote = .ok tagging)
    (hintact : ({ db with tagging := tagging } : Db ν).intact) : Filed { db with tagging := tagging } := by
  obtain ⟨htree, hlinks, -, hcarried⟩ := syncNoteTags_ok h.tree h.linksOk hnormal.2 hsync
  refine h.retag htree hlinks (fun l hl => (hintact.1 l hl).1) fun l hl n hn t ht hid htid => ?_
  have hmem : (⟨l.noteId, t.scope, t.path, l.source⟩ : Tags.Db.Carried) ∈ tagging.carried := by
    refine List.mem_filterMap.mpr ⟨l, hl, ?_⟩
    rw [Tags.Db.carriedOf, htree.ids.row_eq.mpr ⟨ht, htid⟩]
    rfl
  rw [hcarried] at hmem
  rcases List.mem_append.mp hmem with hkept | hnew
  · obtain ⟨l', hl', hsome⟩ := List.mem_filterMap.mp (List.mem_of_mem_filter hkept)
    obtain ⟨t', ht', htid', heq⟩ := carriedOf_eq_some hsome
    obtain ⟨hnote, hscope, -, -⟩ := Tags.Db.Carried.mk.inj heq
    rw [hscope]
    exact h.tagged l' hl' n hn t' ht' (hid.trans hnote) htid'
  · obtain ⟨x, hx, heq⟩ := List.mem_map.mp hnew
    obtain ⟨hnote, hscope, -, -⟩ := Tags.Db.Carried.mk.inj heq
    obtain ⟨y, hy, hmap⟩ := List.mem_flatMap.mp hx
    obtain ⟨z, -, rfl⟩ := List.mem_map.mp hmap
    rw [← hscope]
    exact (hown n hn (hid.symm ▸ hnote ▸ List.mem_map_of_mem hy)).symm

/-- Links and dangling rows change. -/
theorem Filed.relink {links : List NoteLink} {dangling : List DanglingLink} (h : Filed db)
    (hlinks : ∀ l ∈ links, ∃ n ∈ db.notes, n.id = l.sourceNoteId ∧ n.scope = l.scope)
    (hdangling : ∀ d ∈ dangling, ∃ n ∈ db.notes, n.id = d.sourceNoteId ∧ n.scope = d.scope) :
    Filed { db with links := links, dangling := dangling } :=
  ⟨h.notes, h.intact, h.tree, h.tagged, h.index, h.chunks, h.shares, hlinks, hdangling⟩

theorem Filed.clearSource (h : Filed db) (sourceId : String) : Filed (db.clearSource sourceId) :=
  h.relink (fun l hl => h.links l (mem_deleteWhere.mp hl).1) fun d hd => h.dangling d (mem_deleteWhere.mp hd).1

theorem Filed.replaceForSource (h : Filed db) {x : String × List String × List (Text × Text)}
    (hown : x.2.1 = [] ∧ x.2.2 = [] ∨ ∃ n ∈ db.notes, n.id = x.1 ∧ n.scope = scope) :
    Filed (db.replaceForSource scope x) := by
  refine h.relink (fun l hl => ?_) fun d hd => ?_
  · rcases List.mem_append.mp hl with hold | hnew
    · exact h.links l (mem_deleteWhere.mp hold).1
    · obtain ⟨targetId, htarget, rfl⟩ := List.mem_map.mp hnew
      exact hown.resolve_left fun hnone => by rw [hnone.1] at htarget; cases htarget
  · rcases List.mem_append.mp hd with hold | hnew
    · exact h.dangling d (mem_deleteWhere.mp hold).1
    · obtain ⟨pair, hpair, rfl⟩ := List.mem_map.mp hnew
      exact hown.resolve_left fun hnone => by rw [hnone.2] at hpair; cases hpair

theorem Filed.persistMany (h : Filed db) {resolutions : List (String × List String × List (Text × Text))}
    (hown : ∀ x ∈ resolutions, x.2.1 = [] ∧ x.2.2 = [] ∨ ∃ n ∈ db.notes, n.id = x.1 ∧ n.scope = scope)
    (clearSourceIds : List String) : Filed (db.persistMany scope resolutions clearSourceIds) := by
  have hreplaced : Filed (resolutions.foldl (fun db x => db.replaceForSource scope x) db) := by
    induction resolutions generalizing db with
    | nil => exact h
    | cons x rest ih =>
      exact ih (h.replaceForSource (hown x List.mem_cons_self)) fun y hy => hown y (List.mem_cons_of_mem x hy)
  rw [Db.persistMany]
  generalize resolutions.foldl _ db = db' at hreplaced
  induction clearSourceIds generalizing db' with
  | nil => exact hreplaced
  | cons id rest ih => exact ih _ (hreplaced.clearSource id)

/-- Only the links and the dangling rows are written. -/
theorem persistMany_eq (db : Db ν) (scope : Scope) (resolutions : List (String × List String × List (Text × Text)))
    (clearSourceIds : List String) : ∃ links dangling,
      db.persistMany scope resolutions clearSourceIds = { db with links := links, dangling := dangling } := by
  unfold Db.persistMany
  induction clearSourceIds using List.reverseRecOn with
  | nil =>
    induction resolutions using List.reverseRecOn with
    | nil => exact ⟨db.links, db.dangling, rfl⟩
    | append_singleton xs x ih =>
      obtain ⟨links, dangling, heq⟩ := ih
      rw [List.foldl_nil] at heq ⊢
      rw [List.foldl_append, heq]
      exact ⟨_, _, rfl⟩
  | append_singleton xs x ih =>
    obtain ⟨links, dangling, heq⟩ := ih
    rw [List.foldl_append, heq]
    exact ⟨_, _, rfl⟩

/-- The chunks of the index are new ones of a note in its scope, or repeat old ones. -/
theorem Filed.reindex {index : Chunks.Db ν} (h : Filed db) (hindex : Housed index)
    (hfrom : ∀ c ∈ index.chunks, (∃ x ∈ db.chunks, x.noteId = c.noteId ∧ x.scope = c.scope) ∨
      (∃ n ∈ db.notes, n.id = c.noteId) ∧ ∀ n ∈ db.notes, n.id = c.noteId → n.scope = c.scope) :
    Filed (db.setIndex index) := by
  obtain ⟨htags, hparents, hchunks, hrest⟩ := h.intact
  refine ⟨h.notes, ⟨htags, hparents, fun c hc => ?_, hrest⟩, h.tree, h.tagged, ⟨hindex.ids, hindex.fts, hindex.vectors⟩,
    fun c hc n hn hid => ?_, h.shares, h.links, h.dangling⟩
  · rcases hfrom c hc with ⟨x, hx, hnote, -⟩ | ⟨hthere, -⟩
    · exact hnote ▸ hchunks x hx
    · exact hthere
  · rcases hfrom c hc with ⟨x, hx, hnote, hscope⟩ | ⟨-, hown⟩
    · rw [← hscope]
      exact h.chunks x hx n hn (hid.trans hnote.symm)
    · exact (hown n hn hid).symm

/-- Share links and visits change. -/
theorem Filed.reshare {shares : List ShareLink} {visits : List Visit} (h : Filed db)
    (hshares : ∀ s ∈ shares, (∃ n ∈ db.notes, n.id = s.noteId) ∧ ∀ n ∈ db.notes, n.id = s.noteId → s.scope = n.scope)
    (hvisits : ∀ v ∈ visits, ∃ s ∈ shares, s.token = v.token) :
    Filed { db with shares := shares, visits := visits } := by
  obtain ⟨htags, hparents, hchunks, -, -⟩ := h.intact
  exact ⟨h.notes, ⟨htags, hparents, hchunks, fun s hs => (hshares s hs).1, hvisits⟩, h.tree, h.tagged, h.index, h.chunks,
    fun s hs => (hshares s hs).2, h.links, h.dangling⟩

theorem Filed.share (h : Filed db) {s : ShareLink} (hs : s ∈ db.shares) :
    (∃ n ∈ db.notes, n.id = s.noteId) ∧ ∀ n ∈ db.notes, n.id = s.noteId → s.scope = n.scope :=
  ⟨h.intact.2.2.2.1 s hs, h.shares s hs⟩

/-- An update of share links that leaves their tokens, notes and scopes. -/
theorem Filed.updateShares (h : Filed db) {p : ShareLink → Bool} {f : ShareLink → ShareLink}
    (hf : ∀ s, (f s).token = s.token ∧ (f s).noteId = s.noteId ∧ (f s).scope = s.scope) :
    Filed { db with shares := updateWhere p f db.shares } := by
  refine h.reshare (fun s hs => ?_) fun v hv => ?_
  · rcases mem_updateWhere.mp hs with ⟨x, hx, -, rfl⟩ | ⟨hs, -⟩
    · rw [(hf x).2.1, (hf x).2.2]
      exact h.share hx
    · exact h.share hs
  · obtain ⟨s, hs, htoken⟩ := h.intact.2.2.2.2 v hv
    cases hp : p s with
    | true => exact ⟨f s, mem_updateWhere_of_sel hs hp, (hf s).1.trans htoken⟩
    | false => exact ⟨s, mem_updateWhere_of_not hs hp, htoken⟩

theorem some_of_checked (h : db.checked = some db') : db.intact ∧ db' = db := by
  unfold Db.checked at h
  split at h
  · exact ⟨‹_›, (Option.some.inj h).symm⟩
  · cases h

theorem Filed.run [DecidableEq ν] {op : Op ν} (h : Filed db) (hpossible : op.possible db) (hown : Own db op)
    (hrun : run db op = some db') : Filed db' := by
  cases op with
  | insertNote note =>
    simp only [Teardown.run] at hrun
    split at hrun
    · cases hrun
    · rename_i hfresh
      cases hrun
      exact h.insertNote fun n hn hid => hfresh (List.any_eq_true.mpr ⟨n, hn, decide_eq_true hid⟩)
  | syncNoteTags scope generated now taggedByNote =>
    simp only [Teardown.run] at hrun
    split at hrun
    · cases hrun
    · rename_i tagging hsync
      obtain ⟨hintact, rfl⟩ := some_of_checked hrun
      exact h.sync hpossible hown hsync hintact
  | sweepOrphanTags scope =>
    obtain ⟨tags, hsweep, -, -, -, hfiled⟩ := h.sweep scope
    cases hsweep.symm.trans hrun
    exact hfiled
  | persistLinks scope resolutions clearSourceIds =>
    cases hrun
    exact h.persistMany hown clearSourceIds
  | replaceChunks a ids dims =>
    simp only [Teardown.run] at hrun
    split at hrun
    · cases hrun
    · rename_i index hreplace
      cases hrun
      obtain ⟨hlen, hids, hcheck⟩ := hpossible
      obtain ⟨hhoused, hfrom⟩ := h.index.replaceWith hlen hids hcheck hown.2 hreplace
      refine h.reindex hhoused fun c hc => (hfrom c hc).imp (fun hold => ⟨c, hold, rfl, rfl⟩) fun hnew => ?_
      obtain ⟨m, hm, hmid⟩ := hnew.note
      obtain ⟨n, hn, rfl⟩ := List.mem_map.mp hm
      rw [hnew.noteId, hnew.scope]
      exact ⟨⟨n, hn, hmid⟩, hown.1⟩
  | attachVectors a rows dims =>
    simp only [Teardown.run] at hrun
    split at hrun
    · cases hrun
    · rename_i index hattach
      cases hrun
      obtain ⟨hnote, hdims, hrows⟩ := hown
      have hscope : ∀ c ∈ db.index.chunks, c.noteId = a.noteId → c.scope = a.scope := by
        intro c hc hid
        obtain ⟨n, hn, hnid⟩ := h.intact.2.2.1 c hc
        rw [h.chunks c hc n hn hnid, hnote n hn (hnid.trans hid)]
      obtain ⟨hhoused, hfrom⟩ := h.index.attachWith hdims hscope hrows hattach
      exact h.reindex hhoused fun c hc => .inl (hfrom c hc)
  | createShare token noteId scope now previewDescription =>
    simp only [Teardown.run] at hrun
    split at hrun
    · cases hrun
    · obtain ⟨hintact, rfl⟩ := some_of_checked hrun
      refine h.reshare (fun s hs => ⟨hintact.2.2.2.1 s hs, fun n hn hid => ?_⟩) hintact.2.2.2.2
      rcases List.mem_append.mp hs with hs | hs
      · exact h.shares s hs n hn hid
      · obtain rfl := List.mem_singleton.mp hs
        exact (hown n hn hid).symm
  | revoke ownerId noteId token now =>
    cases hrun
    exact h.updateShares fun _ => ⟨rfl, rfl, rfl⟩
  | setPreviewDescription ownerId noteId token value =>
    cases hrun
    exact h.updateShares fun _ => ⟨rfl, rfl, rfl⟩
  | recordVisit visit =>
    simp only [Teardown.run] at hrun
    split at hrun
    · cases hrun
    · obtain ⟨hintact, rfl⟩ := some_of_checked hrun
      exact h.reshare (fun s hs => h.share hs) hintact.2.2.2.2
  | sweepVisits cutoff =>
    cases hrun
    exact h.reshare (fun s hs => h.share hs) fun v hv => h.intact.2.2.2.2 v (mem_deleteWhere.mp hv).1
  | deleteNotes scope notes =>
    simp only [Teardown.run, Db.notesInSession, foldlM_noteInSession h, Option.bind_eq_bind, Option.bind_some] at hrun
    have hpurge : Filed (db.purge (fun id => notes.any fun m => id = m.id) fun n => notes.any (·.row n)) :=
      h.purge fun n _ hn => any_row hn
    obtain ⟨tags, hsweep, -, -, -, hfiled⟩ := hpurge.sweep scope
    cases hsweep.symm.trans hrun
    exact hfiled
  | clearWorkspaceData scope =>
    cases (workspaceInSession_eq h scope).symm.trans hrun
    exact h.wiped scope

theorem Filed.step [DecidableEq ν] {op : Op ν} (h : Filed db) (hown : Own db op)
    (hstep : (database ν).next db op = some db') : Filed db' := by
  simp only [database] at hstep
  split at hstep
  · rename_i hpossible
    cases hstep
    cases hrun : Teardown.run db op with
    | none => exact h
    | some db' => exact h.run hpossible hown hrun
  · cases hstep

theorem Filed.reach [DecidableEq ν] (h : (database ν).Reach Own db) : Filed db := by
  refine h.inv (fun db hdb => ?_) fun db op db' _ hfiled hown hstep => hfiled.step hown hstep
  obtain rfl : db = Db.empty := hdb
  exact ⟨.nil, ⟨by exact nofun, by exact nofun, by exact nofun, by exact nofun, by exact nofun⟩, ⟨.nil, .nil, by exact nofun, by exact nofun⟩, by exact nofun,
    ⟨.nil, by exact nofun, by exact nofun⟩, by exact nofun, by exact nofun, by exact nofun, by exact nofun⟩

end Kajet.Teardown
