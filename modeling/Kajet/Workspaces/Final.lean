import Kajet.Teardown.Runs
import Kajet.Workspaces.Delete

/-!
# A deleted workspace stays deleted

* `Free`            a table has no row that names the workspace;
* `runPart_free`    a note write leaves a table free unless it adds to it; tags and chunks of a note whose
                    row is gone are refused;
* `runWipe_free`    what a part of the delete clears;
* `Timely`          no row is added to a table that the delete which returns has cleared;
* `deletion_final`  the runs of such steps;
* `deletion_late`   a note that is saved after the first part of the delete.
-/

namespace Kajet.Workspaces
open Table Str Tags Links Teardown Machine

variable {ν : Type} {σ : Scope} {s t : State ν} {db db' db'' : Teardown.Db ν} {kind : Kind}

/-- No row of the table names the workspace. -/
def Free (σ : Scope) (s : State ν) : Kind → Prop
  | .notes => ∀ n ∈ s.db.notes, n.scope ≠ σ
  | .tags => ∀ x ∈ s.db.tagging.tags, x.scope ≠ σ
  | .links => ∀ l ∈ s.db.links, l.scope ≠ σ
  | .dangling => ∀ d ∈ s.db.dangling, d.scope ≠ σ
  | .chunks => ∀ c ∈ s.db.chunks, c.scope ≠ σ
  | .shares => ∀ x ∈ s.db.shares, x.scope ≠ σ
  | .folderMetas => s.folderMetas = []
  | .dirty => s.dirty = []
  | .jobs => s.jobs = []

/-! ## transactions that only delete -/

structure Less (db' db : Teardown.Db ν) : Prop where
  notes : db'.notes ⊆ db.notes
  tags : db'.tagging.tags ⊆ db.tagging.tags
  links : db'.links ⊆ db.links
  dangling : db'.dangling ⊆ db.dangling
  chunks : db'.chunks ⊆ db.chunks
  shares : db'.shares ⊆ db.shares

theorem Less.refl (db : Teardown.Db ν) : Less db db :=
  ⟨fun _ h => h, fun _ h => h, fun _ h => h, fun _ h => h, fun _ h => h, fun _ h => h⟩

theorem Less.trans (h : Less db'' db') (h' : Less db' db) : Less db'' db :=
  ⟨fun _ hx => h'.notes (h.notes hx), fun _ hx => h'.tags (h.tags hx), fun _ hx => h'.links (h.links hx),
    fun _ hx => h'.dangling (h.dangling hx), fun _ hx => h'.chunks (h.chunks hx), fun _ hx => h'.shares (h.shares hx)⟩

theorem deleteWhere_subset {ρ : Type*} (p : ρ → Bool) (rows : List ρ) : deleteWhere p rows ⊆ rows :=
  fun _ hx => (mem_deleteWhere.mp hx).1

theorem noteInSession_less {note : Teardown.Note} (h : db.noteInSession note = some db') : Less db' db := by
  obtain ⟨db1, h1, h⟩ := Option.bind_eq_some_iff.mp h
  obtain ⟨db2, h2, h⟩ := Option.bind_eq_some_iff.mp h
  obtain ⟨-, rfl⟩ := some_of_checked h1
  obtain ⟨-, rfl⟩ := some_of_checked h2
  cases h
  exact ⟨deleteWhere_subset _ _, fun _ hx => hx,
    List.Subset.trans (deleteWhere_subset _ _) (deleteWhere_subset _ _), deleteWhere_subset _ _,
    deleteWhere_subset _ _, deleteWhere_subset _ _⟩

theorem sweep_less (h : db.sweepOrphanTags σ = some db') : Less db' db := by
  obtain ⟨tagging, hsweep, h⟩ := Option.bind_eq_some_iff.mp h
  obtain ⟨-, rfl⟩ := some_of_checked h
  obtain ⟨tags, hloop, rfl⟩ := Option.map_eq_some_iff.mp hsweep
  exact ⟨fun _ hx => hx, (Prune.loop_sublist hloop).subset, fun _ hx => hx, fun _ hx => hx, fun _ hx => hx,
    fun _ hx => hx⟩

theorem foldlM_noteInSession_less {notes : List Teardown.Note}
    (h : notes.foldlM Teardown.Db.noteInSession db = some db') : Less db' db := by
  induction notes generalizing db with
  | nil =>
    cases h
    exact .refl _
  | cons note rest ih =>
    obtain ⟨db1, h1, hrest⟩ := Option.bind_eq_some_iff.mp h
    exact (ih hrest).trans (noteInSession_less h1)

theorem notesInSession_less {notes : List Teardown.Note} (h : db.notesInSession σ notes = some db') : Less db' db := by
  obtain ⟨db1, h1, h⟩ := Option.bind_eq_some_iff.mp h
  exact (sweep_less h).trans (foldlM_noteInSession_less h1)

/-- Whatever the rows are, those of the workspace are gone. -/
theorem workspaceInSession_less (h : db.workspaceInSession σ = some db') : Less db' db ∧
    (∀ n ∈ db'.notes, n.scope ≠ σ) ∧ (∀ x ∈ db'.tagging.tags, x.scope ≠ σ) ∧ (∀ l ∈ db'.links, l.scope ≠ σ) ∧
    (∀ d ∈ db'.dangling, d.scope ≠ σ) ∧ (∀ c ∈ db'.chunks, c.scope ≠ σ) ∧ ∀ x ∈ db'.shares, x.scope ≠ σ := by
  obtain ⟨db1, h1, h⟩ := Option.bind_eq_some_iff.mp h
  obtain ⟨db2, h2, h⟩ := Option.bind_eq_some_iff.mp h
  obtain ⟨db3, h3, h⟩ := Option.bind_eq_some_iff.mp h
  obtain ⟨-, rfl⟩ := some_of_checked h1
  obtain ⟨-, rfl⟩ := some_of_checked h2
  obtain ⟨-, rfl⟩ := some_of_checked h3
  cases h
  have hout {ρ : Type} {f : ρ → Scope} {rows : List ρ} : ∀ x ∈ deleteWhere (fun x => f x = σ) rows, f x ≠ σ :=
    fun x hx => of_decide_eq_false (mem_deleteWhere.mp hx).2
  exact ⟨⟨deleteWhere_subset _ _, deleteWhere_subset _ _, deleteWhere_subset _ _, deleteWhere_subset _ _,
    deleteWhere_subset _ _, deleteWhere_subset _ _⟩, hout, hout, hout, hout, hout, hout⟩

theorem Free.less (h : Free σ s kind) (hless : Less db s.db) : Free σ { s with db := db } kind := by
  cases kind with
  | notes => exact fun n hn => h n (hless.notes hn)
  | tags => exact fun x hx => h x (hless.tags hx)
  | links => exact fun l hl => h l (hless.links hl)
  | dangling => exact fun d hd => h d (hless.dangling hd)
  | chunks => exact fun c hc => h c (hless.chunks hc)
  | shares => exact fun x hx => h x (hless.shares hx)
  | folderMetas | dirty | jobs => exact h

/-! ## transactions that add rows -/

theorem persistMany_links {resolutions : List (String × List String × List (Text × Text))} {clearSourceIds : List String}
    (hnone : ∀ x ∈ resolutions, x.2.1 = []) : (db.persistMany σ resolutions clearSourceIds).links ⊆ db.links := by
  have hclear (db : Teardown.Db ν) : (clearSourceIds.foldl Teardown.Db.clearSource db).links ⊆ db.links := by
    induction clearSourceIds generalizing db with
    | nil => exact fun _ hx => hx
    | cons id rest ih => exact List.Subset.trans (ih _) (deleteWhere_subset _ _)
  refine List.Subset.trans (hclear _) ?_
  induction resolutions generalizing db with
  | nil => exact fun _ hx => hx
  | cons x rest ih =>
    refine List.Subset.trans (ih fun y hy => hnone y (List.mem_cons_of_mem x hy)) ?_
    show deleteWhere _ db.links ++ x.2.1.map _ ⊆ db.links
    rw [hnone x List.mem_cons_self, List.map_nil, List.append_nil]
    exact deleteWhere_subset _ _

theorem persistMany_dangling {resolutions : List (String × List String × List (Text × Text))}
    {clearSourceIds : List String} (hnone : ∀ x ∈ resolutions, x.2.2 = []) :
    (db.persistMany σ resolutions clearSourceIds).dangling ⊆ db.dangling := by
  have hclear (db : Teardown.Db ν) : (clearSourceIds.foldl Teardown.Db.clearSource db).dangling ⊆ db.dangling := by
    induction clearSourceIds generalizing db with
    | nil => exact fun _ hx => hx
    | cons id rest ih => exact List.Subset.trans (ih _) (deleteWhere_subset _ _)
  refine List.Subset.trans (hclear _) ?_
  induction resolutions generalizing db with
  | nil => exact fun _ hx => hx
  | cons x rest ih =>
    refine List.Subset.trans (ih fun y hy => hnone y (List.mem_cons_of_mem x hy)) ?_
    show deleteWhere _ db.dangling ++ x.2.2.map _ ⊆ db.dangling
    rw [hnone x List.mem_cons_self, List.map_nil, List.append_nil]
    exact deleteWhere_subset _ _

/-- Links and dangling rows are all that changes. -/
theorem persistMany_eq {resolutions : List (String × List String × List (Text × Text))} {clearSourceIds : List String} :
    ∃ links dangling, db.persistMany σ resolutions clearSourceIds = { db with links := links, dangling := dangling } := by
  have hclear (db : Teardown.Db ν) : ∃ links dangling,
      clearSourceIds.foldl Teardown.Db.clearSource db = { db with links := links, dangling := dangling } := by
    induction clearSourceIds generalizing db with
    | nil => exact ⟨_, _, rfl⟩
    | cons id rest ih =>
      obtain ⟨links, dangling, heq⟩ := ih (db.clearSource id)
      exact ⟨links, dangling, heq⟩
  have hreplace (db : Teardown.Db ν) : ∃ links dangling,
      resolutions.foldl (fun db x => db.replaceForSource σ x) db = { db with links := links, dangling := dangling } := by
    induction resolutions generalizing db with
    | nil => exact ⟨_, _, rfl⟩
    | cons x rest ih =>
      obtain ⟨links, dangling, heq⟩ := ih (db.replaceForSource σ x)
      exact ⟨links, dangling, heq⟩
  obtain ⟨links, dangling, heq⟩ := hreplace db
  obtain ⟨links', dangling', heq'⟩ := hclear { db with links := links, dangling := dangling }
  refine ⟨links', dangling', ?_⟩
  unfold Teardown.Db.persistMany
  rw [heq, heq']

theorem add_noteTags {acc acc' : Sync} {generated : Text → String} {now : String} {x : String × Text × String}
    (h : acc.add σ generated now x = .ok acc') : ∃ tagId, acc'.noteTags = acc.noteTags ++ [⟨x.1, tagId, x.2.2⟩] := by
  obtain ⟨r, hresolve, h⟩ := bind_ok h
  have hkept : r.1.noteTags = acc.noteTags := by
    unfold Sync.resolve at hresolve
    split at hresolve
    · cases hresolve
      rfl
    · obtain ⟨q, -, hlast⟩ := bind_ok hresolve
      cases hlast
      rfl
  split at h <;> cases h
  exact ⟨r.2, congrArg (· ++ _) hkept⟩

/-- Each pair that is synced has its row. -/
theorem foldlM_add_noteTags {acc acc' : Sync} {generated : Text → String} {now : String}
    {todo : List (String × Text × String)} (h : todo.foldlM (Sync.add σ generated now) acc = .ok acc') :
    acc.noteTags ⊆ acc'.noteTags ∧ ∀ x ∈ todo, ∃ l ∈ acc'.noteTags, l.noteId = x.1 := by
  induction todo generalizing acc with
  | nil =>
    cases h
    exact ⟨fun _ hl => hl, fun _ hx => (nomatch hx)⟩
  | cons y rest ih =>
    obtain ⟨acc1, hadd, hrest⟩ := bind_ok h
    obtain ⟨tagId, hrow⟩ := add_noteTags hadd
    obtain ⟨hkept, hrows⟩ := ih hrest
    rw [hrow] at hkept
    refine ⟨fun l hl => hkept (List.mem_append_left _ hl), fun x hx => ?_⟩
    rcases List.mem_cons.mp hx with rfl | hx
    · exact ⟨_, hkept (List.mem_append_right _ (List.mem_singleton_self _)), rfl⟩
    · exact hrows x hx

/-- A pair whose note is gone is refused; a sync of no pairs leaves the tags. -/
theorem sync_tags {generated : Text → String} {now : String} {taggedByNote : TaggedByNote}
    (h : run db (.syncNoteTags σ generated now taggedByNote) = some db') :
    (∃ tagging, db' = { db with tagging := tagging }) ∧ (items taggedByNote = [] → db'.tagging.tags = db.tagging.tags) ∧
      ∀ x ∈ items taggedByNote, ∃ n ∈ db.notes, n.id = x.1 := by
  simp only [run] at h
  split at h
  · cases h
  · rename_i tagging hsync
    obtain ⟨hintact, rfl⟩ := some_of_checked h
    obtain ⟨acc, hfold, hlast⟩ := bind_ok hsync
    cases hlast
    refine ⟨⟨_, rfl⟩, fun hnone => ?_, fun x hx => ?_⟩
    · rw [hnone] at hfold
      cases hfold
      rfl
    · obtain ⟨l, hl, hid⟩ := (foldlM_add_noteTags hfold).2 x hx
      obtain ⟨n, hn, heq⟩ := (hintact.1 l hl).1
      exact ⟨n, hn, heq.trans hid⟩

/-- A replacement without chunks only deletes. -/
theorem replaceChunks_less {a : Chunks.Db.Replace ν} {ids : List String} {dims : List ℕ}
    (h : run db (.replaceChunks a ids dims) = some db') :
    (∃ index, db' = db.setIndex index) ∧ (a.chunks = [] → db'.chunks ⊆ db.chunks) := by
  simp only [run] at h
  split at h
  · cases h
  · rename_i index hreplace
    cases h
    refine ⟨⟨index, rfl⟩, fun hnone => ?_⟩
    obtain ⟨index', hwrite, hlast⟩ := bind_ok hreplace
    have hitems : a.items ids = [] := by
      unfold Chunks.Db.Replace.items
      split <;> rw [hnone] <;> simp
    rw [hitems] at hwrite
    cases hwrite
    cases hlast
    exact deleteWhere_subset _ _

theorem links_free {ids : List String} {current : Bool} {resolutions : List (String × List String × List (Text × Text))}
    {clearSourceIds : List String} {more : List (Part ν)}
    (h : runPart σ s ids current (.links resolutions clearSourceIds) = some (t, more))
    (hadds : kind ∉ s.adds current (.links resolutions clearSourceIds)) (hfree : Free σ s kind) : Free σ t kind := by
  obtain ⟨links, dangling, heq⟩ : ∃ links dangling, s.db.persistMany σ resolutions clearSourceIds =
    { s.db with links := links, dangling := dangling } := persistMany_eq
  have hnone {b : Bool} {k : Kind} (hk : k ∉ if b = true then [] else [k]) : b = true := by
    by_contra hb
    rw [if_neg hb] at hk
    exact hk (List.mem_singleton_self _)
  rw [State.adds, List.mem_append, not_or] at hadds
  simp only [runPart, heq] at h
  cases h
  cases kind with
  | links =>
    have hless : (s.db.persistMany σ resolutions clearSourceIds).links ⊆ s.db.links :=
      persistMany_links fun x hx => of_decide_eq_true (List.all_eq_true.mp (hnone hadds.1) x hx)
    rw [heq] at hless
    exact fun l hl => hfree l (hless hl)
  | dangling =>
    have hless : (s.db.persistMany σ resolutions clearSourceIds).dangling ⊆ s.db.dangling :=
      persistMany_dangling fun x hx => of_decide_eq_true (List.all_eq_true.mp (hnone hadds.2) x hx)
    rw [heq] at hless
    exact fun d hd => hfree d (hless hd)
  | _ => exact hfree

theorem tags_free {ids : List String} {current : Bool} {generated : Text → String} {now : String}
    {taggedByNote : TaggedByNote} {more : List (Part ν)}
    (h : runPart σ s ids current (.tags generated now taggedByNote) = some (t, more))
    (hadds : kind ∉ s.adds current (.tags generated now taggedByNote)) (hfree : Free σ s kind) : Free σ t kind := by
  obtain ⟨db, hsync, h⟩ := Option.bind_eq_some_iff.mp h
  obtain ⟨db', hsweep, h⟩ := Option.bind_eq_some_iff.mp h
  cases h
  obtain ⟨⟨tagging, rfl⟩, hnone, hthere⟩ := sync_tags hsync
  have hsynced : Free σ { s with db := { s.db with tagging := tagging } } kind := by
    cases kind with
    | tags =>
      by_cases hitems : items taggedByNote = []
      · show ∀ x ∈ tagging.tags, x.scope ≠ σ
        rw [show tagging.tags = s.db.tagging.tags from hnone hitems]
        exact hfree
      · -- the sync has found every note, so this part adds tags
        have hall : ¬ ((items taggedByNote).any fun x => !s.hasNote x.1) = true := by
          rw [List.any_eq_true]
          rintro ⟨x, hx, hgone⟩
          obtain ⟨n, hn, hid⟩ := hthere x hx
          have hhas : s.hasNote x.1 = true := List.any_eq_true.mpr ⟨n, hn, decide_eq_true hid⟩
          rw [hhas] at hgone
          cases hgone
        rw [State.adds, if_neg (not_or.mpr ⟨hitems, hall⟩)] at hadds
        exact (hadds (List.mem_singleton_self _)).elim
    | _ => exact hfree
  exact hsynced.less (sweep_less hsweep)

theorem Free.enqueue {jobKind dedupKey : String} (h : Free σ s kind) (hkind : kind ≠ .jobs) :
    Free σ (s.enqueue jobKind dedupKey) kind := by
  unfold State.enqueue
  split
  · exact h
  · cases kind with
    | jobs => exact (hkind rfl).elim
    | _ => exact h

theorem foldl_enqueue {jobKind : String} {dedupKeys : List String} (hkind : kind ≠ .jobs) (h : Free σ s kind) :
    Free σ (dedupKeys.foldl (fun s key => s.enqueue jobKind key) s) kind := by
  induction dedupKeys generalizing s with
  | nil => exact h
  | cons key rest ih => exact ih (h.enqueue hkind)

/-- A part adds rows to the tables of `adds` only. -/
theorem runPart_free {ids : List String} {current : Bool} {p : Part ν} {more : List (Part ν)}
    (h : runPart σ s ids current p = some (t, more)) (hadds : kind ∉ s.adds current p) (hfree : Free σ s kind) :
    Free σ t kind := by
  cases p with
  | rows rows =>
    cases rows with
    | insert noteIds =>
      simp only [runPart] at h
      split at h
      · cases h
      · rename_i hfresh
        cases h
        cases kind with
        | notes =>
          by_cases hnone : noteIds = []
          · subst hnone
            show ∀ n ∈ s.db.notes ++ [], n.scope ≠ σ
            rw [List.append_nil]
            exact hfree
          · simp [State.adds, hnone, hfresh] at hadds
        | _ => exact hfree
    | update noteIds =>
      simp only [runPart] at h
      split at h
      · cases h
        exact hfree
      · cases h
    | delete notes =>
      obtain ⟨db, hdelete, heq⟩ := Option.map_eq_some_iff.mp h
      cases heq
      exact hfree.less (notesInSession_less hdelete)
  | links resolutions clearSourceIds => exact links_free h hadds hfree
  | tags generated now taggedByNote => exact tags_free h hadds hfree
  | mark affectedSources =>
    simp only [runPart] at h
    split at h
    · cases h
      exact hfree
    · rename_i hsome
      cases h
      simp only [State.adds, if_neg hsome, List.mem_cons, List.not_mem_nil, not_or, or_false] at hadds
      refine Free.enqueue ?_ hadds.2
      cases kind with
      | dirty => exact (hadds.1 rfl).elim
      | _ => exact hfree
  | release | push =>
    cases h
    exact hfree
  | enqueuePush =>
    cases h
    exact hfree.enqueue fun heq => hadds (heq ▸ List.mem_singleton_self _)
  | embed noteId =>
    cases h
    exact hfree.enqueue fun heq => hadds (heq ▸ List.mem_singleton_self _)
  | reindex noteIds =>
    cases h
    cases noteIds with
    | nil => exact hfree
    | cons noteId rest =>
      have hkind : kind ≠ .jobs := fun heq => hadds (heq ▸ List.mem_singleton_self _)
      exact foldl_enqueue hkind hfree
  | index a embeds =>
    simp only [runPart] at h
    split at h
    · rename_i hcurrent
      obtain ⟨db, hreplace, h⟩ := Option.map_eq_some_iff.mp h
      cases h
      obtain ⟨⟨index, rfl⟩, hnone⟩ := replaceChunks_less hreplace
      cases kind with
      | chunks =>
        by_cases hchunks : a.chunks = []
        · exact fun c hc => hfree c (hnone hchunks hc)
        · rw [State.adds, if_pos ⟨hchunks, Bool.and_eq_true_iff.mp hcurrent⟩] at hadds
          exact (hadds (List.mem_singleton_self _)).elim
      | _ => exact hfree
    · cases h
      exact hfree

/-! ## the delete -/

theorem runWipe_free {w : Wipe} (h : runWipe σ s w = some t) : (Free σ s kind → Free σ t kind) ∧
    (kind.wipe = w → Free σ t kind) := by
  cases w with
  | clearWorkspaceData =>
    obtain ⟨db, hclear, rfl⟩ := Option.map_eq_some_iff.mp h
    obtain ⟨hless, hnotes, htags, hlinks, -, hchunks, hshares⟩ := workspaceInSession_less hclear
    refine ⟨fun hfree => hfree.less hless, fun hkind => ?_⟩
    cases kind with
    | notes => exact hnotes
    | tags => exact htags
    | links => exact hlinks
    | chunks => exact hchunks
    | shares => exact hshares
    | dangling | folderMetas | dirty | jobs => cases hkind
  | dangling =>
    cases h
    cases kind with
    | dangling => exact ⟨fun _ => fun d hd => of_decide_eq_false (mem_deleteWhere.mp hd).2,
        fun _ => fun d hd => of_decide_eq_false (mem_deleteWhere.mp hd).2⟩
    | _ => exact ⟨id, nofun⟩
  | folderMeta =>
    cases h
    cases kind with
    | folderMetas => exact ⟨fun _ => rfl, fun _ => rfl⟩
    | _ => exact ⟨id, nofun⟩
  | jobs =>
    cases h
    cases kind with
    | jobs => exact ⟨fun _ => rfl, fun _ => rfl⟩
    | _ => exact ⟨id, nofun⟩
  | reconcile =>
    cases h
    cases kind with
    | dirty => exact ⟨fun _ => rfl, fun _ => rfl⟩
    | _ => exact ⟨id, nofun⟩
  | remote | workspaceMeta | revokeAccess =>
    cases h
    cases kind <;> exact ⟨id, nofun⟩
  | directory =>
    simp only [runWipe] at h
    split at h
    · cases h
    · cases h
      cases kind <;> exact ⟨id, nofun⟩

/-! ## runs -/

/-- Once access is gone no write adds a row, and access goes by a delete to whose cleared tables no row
was added. -/
def Timely (s : State ν) : Op ν → Prop
  | .work k _ current => ∀ p ∈ s.next k, s.adds current p = [] ∨ s.access = true
  | .wipe => ∀ d ∈ s.deleting, d.todo = [.revokeAccess] → d.late = false
  | _ => True

instance (s : State ν) : (op : Op ν) → Decidable (Timely s op)
  | .work k _ current => inferInstanceAs (Decidable (∀ p ∈ s.next k, s.adds current p = [] ∨ s.access = true))
  | .wipe => inferInstanceAs (Decidable (∀ d ∈ s.deleting, d.todo = [.revokeAccess] → d.late = false))
  | .acquire _ | .die _ | .delete | .fail => isTrue trivial

structure Inv (σ : Scope) (s : State ν) : Prop where
  script : ∀ d ∈ s.deleting, d.todo <:+ Wipe.script
  wiped : ∀ d ∈ s.deleting, d.late = false → ∀ kind, kind.wipe ∉ d.todo → Free σ s kind
  gone : s.access = false → ∀ kind, Free σ s kind

/-- Which rows there are does not depend on what is in progress. -/
theorem Free.congr (h : Free σ s kind) (hdb : t.db = s.db) (hmetas : t.folderMetas = s.folderMetas)
    (hdirty : t.dirty = s.dirty) (hjobs : t.jobs = s.jobs) : Free σ t kind := by
  cases kind with
  | folderMetas => exact hmetas.trans h
  | dirty => exact hdirty.trans h
  | jobs => exact hjobs.trans h
  | _ =>
    simp only [Free, hdb]
    exact h

theorem enqueue_access {jobKind dedupKey : String} : (s.enqueue jobKind dedupKey).access = s.access := by
  unfold State.enqueue
  split <;> rfl

theorem foldl_enqueue_access {jobKind : String} {dedupKeys : List String} :
    (dedupKeys.foldl (fun s key => s.enqueue jobKind key) s).access = s.access := by
  induction dedupKeys generalizing s with
  | nil => rfl
  | cons key rest ih => exact ih.trans enqueue_access

/-- A write does not touch the access row. -/
theorem runPart_access {ids : List String} {current : Bool} {p : Part ν} {more : List (Part ν)}
    (h : runPart σ s ids current p = some (t, more)) : t.access = s.access := by
  cases p with
  | rows rows =>
    cases rows with
    | insert noteIds | update noteIds =>
      simp only [runPart] at h
      split at h <;> cases h
      rfl
    | delete notes =>
      obtain ⟨db, -, heq⟩ := Option.map_eq_some_iff.mp h
      cases heq
      rfl
  | tags generated now taggedByNote =>
    obtain ⟨db, -, h⟩ := Option.bind_eq_some_iff.mp h
    obtain ⟨db', -, h⟩ := Option.bind_eq_some_iff.mp h
    cases h
    rfl
  | mark affectedSources =>
    simp only [runPart] at h
    split at h <;> cases h
    · rfl
    · exact enqueue_access
  | index a embeds =>
    simp only [runPart] at h
    split at h
    · obtain ⟨db, -, h⟩ := Option.map_eq_some_iff.mp h
      cases h
      rfl
    · cases h
      rfl
  | links resolutions clearSourceIds =>
    cases h
    rfl
  | release | push =>
    cases h
    rfl
  | enqueuePush | embed noteId =>
    cases h
    exact enqueue_access
  | reindex noteIds =>
    cases h
    exact foldl_enqueue_access

theorem runWipe_access {w : Wipe} (h : runWipe σ s w = some t) : t.access = s.access ∨ w = .revokeAccess := by
  cases w with
  | clearWorkspaceData =>
    obtain ⟨db, -, rfl⟩ := Option.map_eq_some_iff.mp h
    exact .inl rfl
  | directory =>
    simp only [runWipe] at h
    split at h <;> cases h
    exact .inl rfl
  | revokeAccess => exact .inr rfl
  | _ =>
    cases h
    exact .inl rfl

theorem Inv.work {ids : List String} {current : Bool} {p : Part ν} {more : List (Part ν)} {writes : List (Write ν)}
    (h : Inv σ s) (hrun : runPart σ s ids current p = some (t, more)) (hok : s.adds current p = [] ∨ s.access = true) :
    Inv σ { t with writes := writes, deleting := s.deleting.map (·.note (s.adds current p)) } where
  script d hd := by
    obtain ⟨d', hd', rfl⟩ := Option.map_eq_some_iff.mp hd
    exact h.script d' hd'
  wiped d hd hlate kind hkind := by
    obtain ⟨d', hd', rfl⟩ := Option.map_eq_some_iff.mp hd
    obtain ⟨hlate, hnone⟩ := Bool.or_eq_false_iff.mp hlate
    have hadds : kind ∉ s.adds current p := fun hmem =>
      List.any_eq_false.mp hnone kind hmem (decide_eq_true hkind)
    exact (runPart_free hrun hadds (h.wiped d' hd' hlate kind hkind)).congr rfl rfl rfl rfl
  gone haccess kind := by
    have haccess : s.access = false := (runPart_access hrun).symm.trans haccess
    have hadds : s.adds current p = [] := hok.resolve_right fun htrue => by rw [haccess] at htrue; cases htrue
    exact (runPart_free hrun (hadds ▸ List.not_mem_nil) (h.gone haccess kind)).congr rfl rfl rfl rfl

theorem Inv.wipe {w : Wipe} {rest : List Wipe} {late : Bool} (h : Inv σ s)
    (hdeleting : s.deleting = some ⟨w :: rest, late⟩) (hrun : runWipe σ s w = some t)
    (hok : w :: rest = [.revokeAccess] → late = false) : Inv σ { t with deleting := some ⟨rest, late⟩ } where
  script d hd := by
    cases hd
    exact (List.suffix_cons w rest).trans (h.script _ hdeleting)
  wiped d hd hlate kind hkind := by
    cases hd
    have hfree : Free σ t kind := by
      by_cases hw : kind.wipe = w
      · exact (runWipe_free hrun).2 hw
      · refine (runWipe_free hrun).1 (h.wiped _ hdeleting hlate kind ?_)
        exact fun hmem => (List.mem_cons.mp hmem).elim hw hkind
    exact hfree.congr rfl rfl rfl rfl
  gone haccess kind := by
    have hfree : Free σ s kind := by
      rcases runWipe_access hrun with hsame | rfl
      · exact h.gone (hsame.symm.trans haccess) kind
      · -- the access row is the last of the script
        have hlast : ∀ l ∈ Wipe.script.tails, l.head? = some .revokeAccess → l = [.revokeAccess] := by decide
        have htodo : Wipe.revokeAccess :: rest = [.revokeAccess] := hlast _ ((List.mem_tails _ _).mpr (h.script _ hdeleting)) rfl
        refine h.wiped _ hdeleting (hok htodo) kind ?_
        show kind.wipe ∉ Wipe.revokeAccess :: rest
        rw [htodo]
        cases kind <;> decide
    exact ((runWipe_free hrun).1 hfree).congr rfl rfl rfl rfl

theorem Inv.step {op : Op ν} (h : Inv σ s) (hok : Timely s op) (hnext : step σ s op = some t) : Inv σ t := by
  have hwrites (writes : List (Write ν)) : Inv σ { s with writes := writes } :=
    ⟨h.script, fun d hd hlate kind hkind => (h.wiped d hd hlate kind hkind).congr rfl rfl rfl rfl,
      fun hgone kind => (h.gone hgone kind).congr rfl rfl rfl rfl⟩
  have hended : Inv σ { s with deleting := none } :=
    ⟨fun _ hd => (nomatch hd), fun _ hd => (nomatch hd), fun hgone kind => (h.gone hgone kind).congr rfl rfl rfl rfl⟩
  cases op with
  | acquire plan =>
    simp only [Workspaces.step] at hnext
    split at hnext <;> cases hnext
    exact hwrites _
  | work k ids current =>
    simp only [Workspaces.step] at hnext
    split at hnext
    · cases hnext
    · cases hnext
      exact hwrites _
    · rename_i locked p rest hk
      have hp : p ∈ s.next k := by
        show s.writes[k]?.bind _ = some p
        rw [hk]
        rfl
      split at hnext
      · cases hnext
        exact hwrites _
      · rename_i t' more hrun
        cases hnext
        exact h.work hrun (hok p hp)
  | die k =>
    cases hnext
    exact hwrites _
  | delete =>
    simp only [Workspaces.step] at hnext
    split at hnext
    · cases hnext
      refine ⟨fun d hd => ?_, fun d hd _ kind hkind => ?_, fun hgone kind => (h.gone hgone kind).congr rfl rfl rfl rfl⟩
      · cases hd
        exact List.suffix_refl _
      · cases hd
        exact (hkind (by cases kind <;> decide)).elim
    · cases hnext
  | wipe =>
    simp only [Workspaces.step] at hnext
    split at hnext
    · cases hnext
    · cases hnext
      exact hended
    · rename_i w rest late hdeleting
      obtain ⟨t', hrun, rfl⟩ := Option.map_eq_some_iff.mp hnext
      exact h.wipe hdeleting hrun (hok _ hdeleting)
  | fail =>
    cases hnext
    exact hended

theorem Inv.reach (h : (workspace ν σ).Reach Timely s) : Inv σ s := by
  refine h.inv (fun s hs => ?_) fun s op t _ hinv hok hnext => hinv.step hok hnext
  obtain ⟨-, haccess, -, hdeleting⟩ := hs
  refine ⟨fun d hd => ?_, fun d hd => ?_, fun hgone => ?_⟩
  · rw [hdeleting] at hd
    cases hd
  · rw [hdeleting] at hd
    cases hd
  · rw [haccess] at hgone
    cases hgone

/-- **Deletion is final**: the access row is gone only with every row of the workspace, and a workspace
created afterwards starts empty. -/
theorem deletion_final (h : (workspace ν σ).Reach Timely s) (hgone : s.access = false) (kind : Kind) :
    Free σ s kind ∧ ∀ s' ∈ s.create, Free σ s' kind := by
  have hfree := (Inv.reach h).gone hgone kind
  refine ⟨hfree, fun s' hs' => ?_⟩
  unfold State.create at hs'
  split at hs'
  · cases hs'
  · cases hs'
    exact hfree.congr rfl rfl rfl rfl

def blank (ν : Type) : State ν := ⟨Teardown.Db.empty, [], [], [], true, true, true, [], none⟩

def scopeA : Scope := ⟨"a", "u"⟩

/-- The plan of `save` for a note with a tag and a broken link. -/
def saved (noteId : String) : Plan ℕ where
  rows := .insert [noteId]
  resolutions := [(noteId, [], [("Draft".toList, "".toList)])]
  clearSourceIds := []
  generated := fun path => String.ofList path
  now := "now"
  taggedByNote := [(noteId, [("work".toList, "frontmatter")])]
  affectedSources := ["other"]
  indexed := [(⟨noteId, "a", "u", "Title", [⟨0, [], "body", 0, 4⟩], none, none⟩, true)]
  reindexed := []

/-- The parts of a save: it commits, pushes and indexes. -/
def parts (k : ℕ) : List (Op ℕ) :=
  [.work k [] true, .work k [] true, .work k [] true, .work k [] true, .work k [] true, .work k [] true,
    .work k [] true, .work k ["c"] true, .work k [] true, .work k [] true, .work k [] true]

/-- The save ends, then a delete fails after two parts and is made again. -/
theorem deletion_final_retried : ∃ s : State ℕ, s.access = false ∧ s.writes.length = 0 ∧
    ∀ kind, Free scopeA s kind ∧ ∀ s' ∈ s.create, Free scopeA s' kind := by
  obtain ⟨s, hs, hview⟩ := Option.map_eq_some_iff.mp (show ((workspace ℕ scopeA).exec (blank ℕ)
    (.acquire (saved "n") :: parts 0 ++ [.delete, .wipe, .wipe, .fail, .delete] ++ List.replicate 10 .wipe)).map
      (fun s => (s.access, s.writes.length)) = some (false, 0) by decide +kernel)
  obtain ⟨haccess, hwrites⟩ := Prod.mk.inj hview
  exact ⟨s, haccess, hwrites, fun kind => deletion_final
    (.of_guarded (.start ⟨rfl, rfl, rfl, rfl⟩) (by decide +kernel) hs) haccess kind⟩

/-- The save has read before the delete, its rows come after the tables were cleared. -/
theorem deletion_late : ∃ s : State ℕ, (workspace ℕ scopeA).Reach free s ∧ s.access = false ∧ s.directory = false ∧
    s.deleting = none ∧ s.writes.length = 0 ∧ ¬ Free scopeA s .notes ∧ ¬ Free scopeA s .chunks := by
  obtain ⟨s, hs, hview⟩ := Option.map_eq_some_iff.mp (show ((workspace ℕ scopeA).exec (blank ℕ)
    (.acquire (saved "n") :: .delete :: .wipe :: parts 0 ++ List.replicate 9 .wipe)).map
      (fun s => (s.access, s.directory, s.deleting, s.writes.length, s.db.notes.any (·.scope = scopeA),
        s.db.chunks.any (·.scope = scopeA))) = some (false, false, none, 0, true, true) by decide +kernel)
  simp only [Prod.mk.injEq, List.any_eq_true, decide_eq_true_eq] at hview
  obtain ⟨haccess, hdirectory, hdeleting, hwrites, ⟨n, hn, hnote⟩, ⟨c, hc, hchunk⟩⟩ := hview
  exact ⟨s, .of_exec (.start ⟨rfl, rfl, rfl, rfl⟩) hs, haccess, hdirectory, hdeleting, hwrites,
    fun h => h n hn hnote, fun h => h c hc hchunk⟩

end Kajet.Workspaces
