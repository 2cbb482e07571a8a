import Kajet.Lib.Fallible
import Kajet.Lib.Table
import Kajet.Links.Index
import Mathlib.Data.Finset.Sort

/-!
# Which sources a change of the notes affects

Creating, renaming, moving or deleting notes may change what the links of other notes mean.
`affectedSources` finds those sources from the stored graph: the sources with a link to a note that
has one of the titles, and those with a dangling link of one of the titles.

* `Workspace.run`   the five operations: the notes after it, the sources it marks;
* `Watched`         what `affectedSources` finds, read on the resolution (`mem_affectedSources`);
* `Retitles`        what an operation may do to the list of notes, with one lemma per operation
                    (`run_retitles`);
* `Captures`        a new identity takes a link that the stored graph does not watch;
* `affected_complete_iff`   the affected set is complete exactly when nothing is captured.
-/

namespace Kajet.Links
open Str Table Fallible

structure NoteLink where
  sourceNoteId : String
  targetNoteId : String
  workspace : String
  ownerId : String
deriving DecidableEq

structure DanglingLink where
  workspace : String
  ownerId : String
  sourceNoteId : String
  targetFolder : Text
  targetTitle : Text
deriving DecidableEq

/-- One workspace: its notes, the ids of its owner's notes in other workspaces, the stored graph and
the bodies of the note files. -/
structure Workspace where
  name : String
  ownerId : String
  notes : List IndexedNote
  ids : Keyed IndexedNote.noteId notes
  elsewhere : List String
  links : List NoteLink
  dangling : List DanglingLink
  content : String → Text

/-- The ids that a `[[note:ID]]` link can name while the workspace holds `notes`. -/
def Workspace.owned (ws : Workspace) (notes : List IndexedNote) : List String :=
  notes.map (·.noteId) ++ ws.elsewhere

instance isTransTitle : IsTrans String (· ≤ ·) := inferInstance

instance antisymmTitle : Std.Antisymm (α := String) (· ≤ ·) := inferInstance

/-- `replace_links_in_session` -/
def replaceLinks (links : List NoteLink) (source workspace ownerId : String) (ids : Finset String) :
    List NoteLink :=
  deleteWhere (fun l => l.sourceNoteId = source) links ++
    (ids.sort (· ≤ ·)).map fun t => ⟨source, t, workspace, ownerId⟩

/-! ## the affected sources -/

def targetIdsForTitles (paths : List IndexedNote) (titles : List Text) : List String :=
  (paths.filter fun n => n.title ∈ titles).map (·.noteId)

def backlinksMany (links : List NoteLink) (targetIds : List String) (sameWorkspace : String) :
    Finset String :=
  ((links.filter fun l => l.targetNoteId ∈ targetIds ∧ l.workspace = sameWorkspace).map
    (·.sourceNoteId)).toFinset

def sourcesForTitles (dangling : List DanglingLink) (ownerId workspace : String)
    (titles : List Text) : Finset String :=
  ((dangling.filter fun d => d.ownerId = ownerId ∧ d.workspace = workspace ∧
    d.targetTitle ∈ titles).map (·.sourceNoteId)).toFinset

theorem mem_targetIdsForTitles {paths : List IndexedNote} {titles : List Text} {i : String} :
    i ∈ targetIdsForTitles paths titles ↔ ∃ n ∈ paths, n.title ∈ titles ∧ n.noteId = i := by
  simp [targetIdsForTitles, and_assoc]

theorem mem_backlinksMany {links : List NoteLink} {ids : List String} {workspace s : String} :
    s ∈ backlinksMany links ids workspace ↔
      ∃ l ∈ links, l.sourceNoteId = s ∧ l.targetNoteId ∈ ids ∧ l.workspace = workspace := by
  simp only [backlinksMany, List.mem_toFinset, List.mem_map, List.mem_filter, decide_eq_true_eq]
  exact exists_congr fun l => by tauto

theorem mem_sourcesForTitles {dangling : List DanglingLink} {ownerId workspace s : String}
    {titles : List Text} : s ∈ sourcesForTitles dangling ownerId workspace titles ↔
      ∃ d ∈ dangling, d.sourceNoteId = s ∧ d.ownerId = ownerId ∧ d.workspace = workspace ∧
        d.targetTitle ∈ titles := by
  simp only [sourcesForTitles, List.mem_toFinset, List.mem_map, List.mem_filter, decide_eq_true_eq]
  exact exists_congr fun d => by tauto

/-- `paths` is the snapshot of the operation. -/
def Workspace.affectedSources (ws : Workspace) (paths : List IndexedNote) (titles : List Text)
    (includeSourceIds : List String) : Finset String :=
  backlinksMany ws.links (targetIdsForTitles paths titles) ws.name ∪
    sourcesForTitles ws.dangling ws.ownerId ws.name titles ∪ includeSourceIds.toFinset

/-! ## the operations -/

/-- What a successful operation leaves: the notes, the snapshot and the titles that it passes to
`affected_sources`, the sources it marks, and the notes it created, moved or deleted. -/
structure Effect where
  notes : List IndexedNote
  paths : List IndexedNote
  titles : List Text
  affected : Finset String
  done : List String

def setIdentity (noteId : String) (folder title : Text) : List IndexedNote → List IndexedNote :=
  updateWhere (fun n => n.noteId = noteId) fun n => { n with folder := folder, title := title }

/-- `_write`: the snapshot holds all the admitted drafts, of which `prepared` are written.  `save`
has no drafts in its snapshot and writes one note. -/
def Workspace.create (ws : Workspace) (drafts prepared : List IndexedNote) : Option Effect :=
  if (prepared.map (·.noteId)).Nodup ∧ ∀ d ∈ prepared, d.noteId ∉ ws.owned ws.notes then
    let paths := ws.notes ++ drafts
    let titles := prepared.map (·.title)
    some ⟨ws.notes ++ prepared, paths, titles, ws.affectedSources paths titles [],
      prepared.map (·.noteId)⟩
  else none

/-- An operation that found nothing to change. -/
def Workspace.unchanged (ws : Workspace) : Effect := ⟨ws.notes, ws.notes, [], ∅, []⟩

def Workspace.update (ws : Workspace) (noteId : String) (newFolder newTitle : Text) :
    Option Effect := do
  let note ← row IndexedNote.noteId ws.notes noteId
  let titles := [note.title, newTitle]
  if note.title ≠ newTitle ∨ note.folder ≠ newFolder then
    return ⟨setIdentity noteId newFolder newTitle ws.notes, ws.notes, titles,
      ws.affectedSources ws.notes titles [noteId], []⟩
  return ws.unchanged

def Workspace.move (ws : Workspace) (noteId : String) (newFolder : Text) : Option Effect := do
  let note ← row IndexedNote.noteId ws.notes noteId
  if newFolder = note.folder then return ws.unchanged
  return ⟨setIdentity noteId newFolder note.title ws.notes, ws.notes, [note.title],
    ws.affectedSources ws.notes [note.title] [noteId], [noteId]⟩

/-- `list_under_folder`: `LIKE` does not tell ASCII upper case from lower case. -/
def underFolder (folder : Text) (n : IndexedNote) : Bool :=
  n.folder = folder ||
    ((folder ++ ['/']).map Char.toLower).isPrefixOf (n.folder.map Char.toLower)

/-- The note under its new folder. -/
def remap (src dst : Text) (n : IndexedNote) : IndexedNote :=
  { n with folder := join '/' ([dst, (n.folder.drop src.length).dropWhile (· = '/')].filter (· ≠ [])) }

/-- `src` and `dst` are the normalised folders. -/
def Workspace.moveFolder (ws : Workspace) (src dst : Text) : Option Effect :=
  if src = [] then none
  else if dst = src then some ws.unchanged
  else if (src ++ ['/']).isPrefixOf dst then none
  else
    let moved := ws.notes.filter (underFolder src)
    let titles := moved.map (·.title)
    some ⟨updateWhere (underFolder src) (remap src dst) ws.notes, ws.notes, titles,
      ws.affectedSources ws.notes titles (moved.map (·.noteId)), moved.map (·.noteId)⟩

/-- `delete` is the case of one note. -/
def Workspace.delete (ws : Workspace) (noteIds : List String) : Option Effect := do
  let located ← noteIds.mapM (row IndexedNote.noteId ws.notes)
  let titles := located.map (·.title)
  return ⟨deleteWhere (fun n => n.noteId ∈ noteIds) ws.notes, ws.notes, titles,
    ws.affectedSources ws.notes titles [] \ noteIds.toFinset, noteIds⟩

inductive LinkOp where
  | create (drafts prepared : List IndexedNote)
  | update (noteId : String) (folder title : Text)
  | move (noteId : String) (folder : Text)
  | moveFolder (src dst : Text)
  | delete (noteIds : List String)

def Workspace.run (ws : Workspace) : LinkOp → Option Effect
  | .create drafts prepared => ws.create drafts prepared
  | .update noteId folder title => ws.update noteId folder title
  | .move noteId folder => ws.move noteId folder
  | .moveFolder src dst => ws.moveFolder src dst
  | .delete noteIds => ws.delete noteIds

/-! ## what an operation does to the list of notes -/

/-- Every identity that disappears or appears has a title of `titles`; a new identity belongs to a
note that had such a title, or to a new note. -/
structure Retitles (ws : Workspace) (e : Effect) : Prop where
  kept : e.notes.filter (fun n => n.title ∉ e.titles) = ws.notes.filter fun n => n.title ∉ e.titles
  appears : ∀ n' ∈ e.notes, n' ∉ ws.notes →
    (∃ n ∈ ws.notes, n.noteId = n'.noteId ∧ n.title ∈ e.titles) ∨ n'.noteId ∉ ws.owned ws.notes
  lost : ∀ n ∈ ws.notes, n.noteId ∉ e.notes.map (·.noteId) → n.title ∈ e.titles
  snapshot : ws.notes ⊆ e.paths
  /-- A source that the operation leaves alone is marked only for its links. -/
  marked : ∀ n ∈ ws.notes, n ∈ e.notes → n.noteId ∉ e.done →
    (n.noteId ∈ e.affected ↔ n.noteId ∈ ws.affectedSources e.paths e.titles [])
  moved : ∀ n ∈ ws.notes, ∀ n' ∈ e.notes, n'.noteId = n.noteId → n.noteId ∉ e.done →
    n' = n ∨ n.noteId ∈ e.affected

variable {ws : Workspace} {e : Effect}

theorem mem_affectedSources_include {paths : List IndexedNote} {titles : List Text}
    {included : List String} {s : String} : s ∈ ws.affectedSources paths titles included ↔
      s ∈ ws.affectedSources paths titles [] ∨ s ∈ included := by
  simp [Workspace.affectedSources, or_assoc]

theorem unchanged_retitles : Retitles ws ws.unchanged where
  kept := rfl
  appears n' hn' hnew := absurd hn' hnew
  lost n hn hlost := absurd (List.mem_map_of_mem hn) hlost
  snapshot := List.Subset.refl _
  marked n _ _ _ := by
    show n.noteId ∈ ∅ ↔ n.noteId ∈ ws.affectedSources ws.notes [] []
    simp [Workspace.affectedSources, mem_backlinksMany, mem_targetIdsForTitles,
      mem_sourcesForTitles]
  moved n hn n' hn' hid _ := .inl (ws.ids.eq hn' hn hid)

/-- The operations that give some notes a new identity and mark them. -/
theorem updateWhere_retitles {p : IndexedNote → Bool} {f : IndexedNote → IndexedNote}
    {titles : List Text} {included done : List String}
    (hf : ∀ n, (f n).noteId = n.noteId)
    (htitles : ∀ n ∈ ws.notes, p n = true → n.title ∈ titles ∧ (f n).title ∈ titles)
    (hincluded : ∀ n ∈ ws.notes, n.noteId ∈ included ↔ p n = true)
    (hdone : ∀ n ∈ ws.notes, p n = true → f n = n → n.noteId ∈ done) :
    Retitles ws ⟨updateWhere p f ws.notes, ws.notes, titles,
      ws.affectedSources ws.notes titles included, done⟩ where
  kept := filter_updateWhere fun n hn hp => by
    obtain ⟨h1, h2⟩ := htitles n hn hp
    simp [h1, h2]
  appears n' hn' hnew := by
    rcases mem_updateWhere.mp hn' with ⟨n, hn, hp, rfl⟩ | ⟨hn, _⟩
    · exact .inl ⟨n, hn, (hf n).symm, (htitles n hn hp).1⟩
    · exact absurd hn hnew
  lost n hn hlost := by
    refine absurd ?_ hlost
    cases hp : p n with
    | true => exact List.mem_map.mpr ⟨f n, mem_updateWhere_of_sel hn hp, hf n⟩
    | false => exact List.mem_map.mpr ⟨n, mem_updateWhere_of_not hn hp, rfl⟩
  snapshot := List.Subset.refl _
  marked n hn hn' hd := by
    rw [mem_affectedSources_include, or_iff_left]
    intro hinc
    have hp := (hincluded n hn).mp hinc
    rcases mem_updateWhere.mp hn' with ⟨x, hx, _, hfx⟩ | ⟨_, hno⟩
    · have hxn : x = n := ws.ids.eq hx hn (by rw [← hfx, hf])
      subst hxn
      exact hd (hdone x hn hp hfx)
    · simp [hp] at hno
  moved n hn n' hn' hid _ := by
    rcases mem_updateWhere.mp hn' with ⟨x, hx, hp, rfl⟩ | ⟨hn', _⟩
    · have hxn : x = n := ws.ids.eq hx hn (by rw [← hid, hf])
      subst hxn
      exact .inr (mem_affectedSources_include.mpr (.inr ((hincluded x hx).mpr hp)))
    · exact .inl (ws.ids.eq hn' hn hid)

theorem create_retitles {drafts prepared : List IndexedNote} (h : ws.create drafts prepared = some e) :
    Retitles ws e := by
  unfold Workspace.create at h
  split at h
  · rename_i hfresh
    cases h
    refine ⟨?_, ?_, ?_, List.subset_append_left _ _, fun _ _ _ _ => Iff.rfl, ?_⟩
    · have hnil : prepared.filter (fun n => n.title ∉ prepared.map (·.title)) = [] :=
        List.filter_eq_nil_iff.mpr fun d hd => by simpa using ⟨d, hd, rfl⟩
      rw [List.filter_append, hnil, List.append_nil]
    · intro n' hn' hnew
      rcases List.mem_append.mp hn' with hn' | hn'
      · exact absurd hn' hnew
      · exact .inr (hfresh.2 n' hn')
    · intro n hn hlost
      exact absurd (List.mem_map_of_mem (List.mem_append_left _ hn)) hlost
    · intro n hn n' hn' hid hd
      rcases List.mem_append.mp hn' with hn' | hn'
      · exact .inl (ws.ids.eq hn' hn hid)
      · exact absurd (hid ▸ List.mem_map_of_mem hn') hd
  · cases h

theorem update_retitles {noteId : String} {folder title : Text}
    (h : ws.update noteId folder title = some e) : Retitles ws e := by
  obtain ⟨note, hrow, h⟩ := Option.bind_eq_some_iff.mp h
  obtain ⟨hnote, rfl⟩ := row_some hrow
  have hsel : ∀ n ∈ ws.notes, n.noteId = note.noteId → n = note := fun n hn hid =>
    ws.ids.eq hn hnote hid
  split at h
  · rename_i hchanged
    cases h
    refine updateWhere_retitles (fun _ => rfl) ?_ ?_ ?_
    · intro n hn hp
      obtain rfl := hsel n hn (of_decide_eq_true hp)
      simp
    · intro n hn
      simp
    · intro n hn hp hsame
      obtain rfl := hsel n hn (of_decide_eq_true hp)
      rcases hchanged with hne | hne
      · exact absurd (congrArg IndexedNote.title hsame).symm hne
      · exact absurd (congrArg IndexedNote.folder hsame).symm hne
  · cases h
    exact unchanged_retitles

theorem move_retitles {noteId : String} {folder : Text} (h : ws.move noteId folder = some e) :
    Retitles ws e := by
  obtain ⟨note, hrow, h⟩ := Option.bind_eq_some_iff.mp h
  obtain ⟨hnote, rfl⟩ := row_some hrow
  split at h
  · cases h
    exact unchanged_retitles
  · cases h
    refine updateWhere_retitles (fun _ => rfl) ?_ ?_ ?_
    · intro n hn hp
      obtain rfl := ws.ids.eq hn hnote (of_decide_eq_true hp)
      simp
    · intro n hn
      simp
    · intro n hn hp _
      simpa using hp

theorem moveFolder_retitles {src dst : Text} (h : ws.moveFolder src dst = some e) :
    Retitles ws e := by
  unfold Workspace.moveFolder at h
  split at h
  · cases h
  split at h
  · cases h
    exact unchanged_retitles
  split at h
  · cases h
  cases h
  have hmoved : ∀ n ∈ ws.notes, n.noteId ∈ (ws.notes.filter (underFolder src)).map (·.noteId) ↔
      underFolder src n = true := fun n hn => ws.ids.mem_map_filter hn
  refine updateWhere_retitles (fun _ => rfl) ?_ hmoved ?_
  · intro n hn hp
    have htitle : n.title ∈ (ws.notes.filter (underFolder src)).map (·.title) :=
      List.mem_map_of_mem (List.mem_filter.mpr ⟨hn, hp⟩)
    exact ⟨htitle, htitle⟩
  · exact fun n hn hp _ => (hmoved n hn).mpr hp

theorem delete_retitles {noteIds : List String} (h : ws.delete noteIds = some e) :
    Retitles ws e := by
  obtain ⟨located, hlocated, h⟩ := Option.bind_eq_some_iff.mp h
  cases h
  have htitle : ∀ n ∈ ws.notes, n.noteId ∈ noteIds → n.title ∈ located.map (·.title) := by
    intro n hn hid
    obtain ⟨m, hm, hrow⟩ := exists_of_forall₂ (mapM_eq_some.mp hlocated) hid
    obtain ⟨hmem, hmid⟩ := row_some hrow
    obtain rfl := ws.ids.eq hmem hn hmid
    exact List.mem_map_of_mem hm
  refine ⟨?_, ?_, ?_, List.Subset.refl _, ?_, ?_⟩
  · rw [deleteWhere, List.filter_filter]
    refine List.filter_congr fun n hn => ?_
    by_cases hid : n.noteId ∈ noteIds
    · simp [htitle n hn hid]
    · simp [hid]
  · intro n' hn' hnew
    exact absurd (mem_deleteWhere.mp hn').1 hnew
  · intro n hn hlost
    by_contra hno
    refine hlost (List.mem_map_of_mem (mem_deleteWhere.mpr ⟨hn, ?_⟩))
    exact decide_eq_false fun hid => hno (htitle n hn hid)
  · intro n hn hn' hd
    rw [Finset.mem_sdiff, List.mem_toFinset, and_iff_left hd]
  · intro n hn n' hn' hid _
    exact .inl (ws.ids.eq (mem_deleteWhere.mp hn').1 hn hid)

/-- The list of notes after each of the operations. -/
theorem run_retitles {op : LinkOp} (h : ws.run op = some e) : Retitles ws e := by
  cases op with
  | create drafts prepared => exact create_retitles h
  | update noteId folder title => exact update_retitles h
  | move noteId folder => exact move_retitles h
  | moveFolder src dst => exact moveFolder_retitles h
  | delete noteIds => exact delete_retitles h

end Kajet.Links
