import Kajet.Links.Capture
import Kajet.Links.Shortest

/-!
# Moving notes and rewriting their backlinks

`update`, `move` and `moveFolder` give notes a new identity.  Each one first writes the rows and the
files (`Committed`); then the wikilinks of the sources that the stored links name are rewritten
(`rewriteBacklinks`).

* `LinkEnv.run`, `LinkEnv.content`   the three operations, the bodies after the rewriting;
* `Moves`                            what the three do to the identities (`run_moves`);
* `content_eq`                       the body of a source, match by match;
* `mem_sourceIds`                    the sources that the stored links name.
-/

namespace Kajet.Links
open Str Table

/-- What the operations take from elsewhere: `str.casefold`, the Markdown parser, the root of the
workspace, and whether broken links are refused. -/
structure LinkEnv where
  casefold : Text → Text
  extractWikilinks : Text → List Text
  wsPath : Text
  linkValidation : Bool

structure NoteMove where
  old : IndexedNote
  new : IndexedNote
deriving DecidableEq

inductive MoveError where
  | noteNotFound (noteId : String)
  | invalidFolder (folder : Text)
  /-- another note has the file of the new title and folder -/
  | pathConflict (title : Text) (conflict : IndexedNote)
  | invalidEdit
  | brokenWikilinks (broken : List Text)
  | rootFolder
  | intoItself
  | tooManyNotes (count : Nat)
  | destinationConflicts (conflicts : List IndexedNote)

/-- What is there when the rewriting begins. -/
structure Committed where
  notes : List IndexedNote
  moves : List NoteMove
  links : List NoteLink
  body : String → Text
  /-- the operation goes on to rewrite the backlinks -/
  rewrites : Bool

/-! ## paths -/

def LinkEnv.noteFilepath (env : LinkEnv) (n : IndexedNote) : Text := env.wsPath ++ '/' :: notePath n

def LinkEnv.pathConflictKey (env : LinkEnv) (n : IndexedNote) : Text :=
  env.casefold (env.noteFilepath n)

/-- The other note whose file is that of `target`. -/
def LinkEnv.notePathConflict (env : LinkEnv) (paths : List IndexedNote) (target : IndexedNote) :
    Option IndexedNote :=
  paths.find? fun n => n.noteId ≠ target.noteId ∧ env.pathConflictKey n = env.pathConflictKey target

def LinkEnv.checkPath (env : LinkEnv) (paths : List IndexedNote) (target : IndexedNote) :
    Except MoveError Unit :=
  match env.notePathConflict paths target with
  | some conflict => .error (.pathConflict target.title conflict)
  | none => .ok ()

def normalizedFolder (folder : Text) : Except MoveError Text :=
  match normalizeFolder folder with
  | some folder => .ok folder
  | none => .error (.invalidFolder folder)

/-- The normalised folder of an update, or the old one. -/
def folderOr (old : Text) : Option Text → Except MoveError Text
  | some folder => normalizedFolder folder
  | none => .ok old

def Workspace.note (ws : Workspace) (noteId : String) : Except MoveError IndexedNote :=
  match row IndexedNote.noteId ws.notes noteId with
  | some note => .ok note
  | none => .error (.noteNotFound noteId)

/-! ## the operations -/

section
variable (env : LinkEnv) (ws : Workspace)

/-- `_validate_wikilinks` -/
def LinkEnv.validate (content folder : Text) : Except MoveError LinkResolution :=
  let resolution := resolveLinks env.casefold env.extractWikilinks ws.notes (ws.owned ws.notes)
    content folder
  if resolution.broken ≠ [] ∧ env.linkValidation then .error (.brokenWikilinks resolution.broken)
  else .ok resolution

/-- `edit` is `apply_edit` with the edit of the call.  The own links of the note are those of its new
body as it is read from the new folder, before the rename. -/
def LinkEnv.update (noteId : String) (title folder : Option Text) (edit : Text → Option Text) :
    Except MoveError Committed := do
  let note ← ws.note noteId
  let newFolder ← folderOr note.folder folder
  let new := { note with folder := newFolder, title := title.getD note.title }
  let pathChanged := decide (env.noteFilepath note ≠ env.noteFilepath new)
  let _ ← (if pathChanged then env.checkPath ws.notes new else .ok () : Except MoveError Unit)
  let content ← (edit (ws.content noteId)).elim (.error .invalidEdit) .ok
  let links ← env.validate ws content newFolder
  return {
    notes := setIdentity noteId new.folder new.title ws.notes
    moves := if note.title ≠ new.title ∨ note.folder ≠ new.folder then [⟨note, new⟩] else []
    links := replaceLinks ws.links noteId ws.name ws.ownerId links.resolvedIds
    body := Function.update ws.content noteId content
    rewrites := pathChanged }

/-- The operation returns early. -/
def Workspace.still : Committed := ⟨ws.notes, [], ws.links, ws.content, false⟩

def LinkEnv.move (noteId : String) (folder : Text) : Except MoveError Committed := do
  let note ← ws.note noteId
  let newFolder ← normalizedFolder folder
  if newFolder = note.folder then return ws.still
  else
    let new := { note with folder := newFolder }
    let _ ← env.checkPath ws.notes new
    return ⟨setIdentity noteId new.folder new.title ws.notes, [⟨note, new⟩], ws.links, ws.content, true⟩

def moveFolderMaxNotes : Nat := 5000

/-- The notes of `targets` whose file is taken, or claimed by an earlier one. -/
def LinkEnv.folderConflicts (taken : List Text) : List IndexedNote → List Text → List IndexedNote
  | [], _ => []
  | n :: targets, claimed =>
    if env.pathConflictKey n ∈ taken ∨ env.pathConflictKey n ∈ claimed then
      n :: LinkEnv.folderConflicts taken targets claimed
    else LinkEnv.folderConflicts taken targets (env.pathConflictKey n :: claimed)

def LinkEnv.moveFolder (src dst : Text) : Except MoveError Committed := do
  let src ← normalizedFolder src
  let dst ← normalizedFolder dst
  if src = [] then .error .rootFolder
  else if dst = src then return ws.still
  else if (src ++ ['/']).isPrefixOf dst then .error .intoItself
  else
    let notes := ws.notes.filter (underFolder src)
    if moveFolderMaxNotes < notes.length then .error (.tooManyNotes notes.length)
    else
      let taken := (ws.notes.filter fun n => n.noteId ∉ notes.map (·.noteId)).map env.pathConflictKey
      let moves := notes.map fun n => ⟨n, remap src dst n⟩
      match env.folderConflicts taken (moves.map (·.new)) [] with
      | [] => return ⟨updateWhere (underFolder src) (remap src dst) ws.notes, moves, ws.links,
          ws.content, true⟩
      | conflicts => .error (.destinationConflicts conflicts)

inductive MoveOp where
  | update (noteId : String) (title folder : Option Text) (edit : Text → Option Text)
  | move (noteId : String) (folder : Text)
  | moveFolder (src dst : Text)

def LinkEnv.run : MoveOp → Except MoveError Committed
  | .update noteId title folder edit => env.update ws noteId title folder edit
  | .move noteId folder => env.move ws noteId folder
  | .moveFolder src dst => env.moveFolder ws src dst

end

/-! ## the rewriting -/

/-- `moved.get(note_id)` -/
def movedTo (moves : List NoteMove) (noteId : String) : Option IndexedNote :=
  (row (·.old.noteId) moves noteId).map (·.new)

/-- `old_folders.get(src.id, src.folder)` -/
def movedFrom (moves : List NoteMove) (src : IndexedNote) : Text :=
  ((row (·.old.noteId) moves src.noteId).map (·.old.folder)).getD src.folder

section
variable (env : LinkEnv) (ws : Workspace) (c : Committed)

/-- The notes of the index `after`. -/
def Committed.after : List IndexedNote := ws.notes.map fun path => (movedTo c.moves path.noteId).getD path

def LinkEnv.rewrite (beforeFolder afterFolder target : Text) : Option Text := do
  let hit ← resolve env.casefold ws.notes target beforeFolder true
  let new ← movedTo c.moves hit.noteId
  return shortestTarget env.casefold (c.after ws) new afterFolder (pathSegments target).length

def Committed.sourceIds : Finset String :=
  backlinksMany c.links (c.moves.map (·.old.noteId)) ws.name

/-- The body of one note afterwards. -/
def LinkEnv.rewriteBacklinks (noteId : String) : Text :=
  match row IndexedNote.noteId c.notes noteId with
  | some src =>
    if noteId ∈ c.sourceIds ws then
      let (newBody, changed) := rewriteWikilinks (c.body noteId)
        (env.rewrite ws c (movedFrom c.moves src) src.folder)
      if changed then newBody else c.body noteId
    else c.body noteId
  | none => c.body noteId

def LinkEnv.content (noteId : String) : Text :=
  if c.rewrites then env.rewriteBacklinks ws c noteId else c.body noteId

end

/-! ## what the operations have in common -/

/-- The moved notes have a new identity, which no other note has when the rewriting begins. -/
structure Moves (ws : Workspace) (c : Committed) : Prop where
  notes : c.notes = c.after ws
  old : ∀ mv ∈ c.moves, mv.old ∈ ws.notes
  id : ∀ mv ∈ c.moves, mv.new.noteId = mv.old.noteId
  keyed : Keyed (fun mv : NoteMove => mv.old.noteId) c.moves
  path : c.rewrites = true → ∀ mv ∈ c.moves, ∀ n ∈ c.notes, n.folder = mv.new.folder →
    n.title = mv.new.title → n = mv.new

section
variable {env : LinkEnv} {ws : Workspace} {c : Committed} {op : MoveOp} {n n' note new : IndexedNote}
  {mv : NoteMove}

theorem movedTo_eq_some (h : Keyed (fun mv : NoteMove => mv.old.noteId) c.moves) {i : String} :
    movedTo c.moves i = some new ↔ ∃ mv ∈ c.moves, mv.old.noteId = i ∧ mv.new = new := by
  simp only [movedTo, Option.map_eq_some_iff, h.row_eq, and_assoc]

theorem pathConflictKey_congr (hfolder : n.folder = n'.folder) (htitle : n.title = n'.title) :
    env.pathConflictKey n = env.pathConflictKey n' := by
  rw [LinkEnv.pathConflictKey, LinkEnv.pathConflictKey, LinkEnv.noteFilepath, LinkEnv.noteFilepath,
    notePath, notePath, hfolder, htitle]

/-- An operation on one note. -/
theorem single_moves (new : IndexedNote) (hnote : note ∈ ws.notes) (hid : new.noteId = note.noteId)
    (hnotes : c.notes = setIdentity note.noteId new.folder new.title ws.notes)
    (hmoves : c.moves = [⟨note, new⟩] ∨ c.moves = [] ∧ new = note)
    (hpath : c.rewrites = true → env.notePathConflict ws.notes new = none) : Moves ws c := by
  have hnew : ∀ n ∈ ws.notes, n.noteId = note.noteId →
      { n with folder := new.folder, title := new.title } = new := by
    intro n hn hnid
    obtain rfl := ws.ids.eq hn hnote hnid
    cases new
    cases hid
    rfl
  refine ⟨?_, ?_, ?_, ?_, ?_⟩
  · rw [hnotes, setIdentity, updateWhere, Committed.after]
    refine List.map_congr_left fun n hn => ?_
    by_cases hnid : n.noteId = note.noteId
    · rw [if_pos (decide_eq_true hnid), hnew n hn hnid]
      rcases hmoves with hmoves | ⟨hmoves, rfl⟩
      · simp [hmoves, movedTo, row, hnid]
      · rw [hmoves]
        exact (ws.ids.eq hn hnote hnid).symm
    · rw [if_neg (by simpa using hnid)]
      rcases hmoves with hmoves | ⟨hmoves, _⟩
      · simp [hmoves, movedTo, row, Ne.symm hnid]
      · rw [hmoves]
        rfl
  · rcases hmoves with hmoves | ⟨hmoves, _⟩
    · simpa [hmoves] using hnote
    · simp [hmoves]
  · rcases hmoves with hmoves | ⟨hmoves, _⟩
    · simpa [hmoves] using hid
    · simp [hmoves]
  · rcases hmoves with hmoves | ⟨hmoves, _⟩
    · rw [hmoves]
      exact List.nodup_singleton _
    · rw [hmoves]
      exact UniqueOn.nil
  · intro hrewrites mv hmv n hn hfolder htitle
    obtain rfl : mv = ⟨note, new⟩ := by
      rcases hmoves with hmoves | ⟨hmoves, _⟩
      · simpa [hmoves] using hmv
      · simp [hmoves] at hmv
    rw [hnotes] at hn
    rcases mem_updateWhere.mp hn with ⟨x, hx, hsel, rfl⟩ | ⟨hn, hsel⟩
    · exact hnew x hx (of_decide_eq_true hsel)
    · -- another note with the new folder and title would have been a conflict
      have hno := List.find?_eq_none.mp (hpath hrewrites) n hn
      refine absurd (decide_eq_true ⟨?_, pathConflictKey_congr hfolder htitle⟩) hno
      rw [hid]
      exact of_decide_eq_false hsel

theorem still_moves : Moves ws ws.still where
  notes := (List.map_id' ws.notes).symm
  old := fun _ hmv => absurd hmv List.not_mem_nil
  id := fun _ hmv => absurd hmv List.not_mem_nil
  keyed := UniqueOn.nil
  path := fun hrewrites => absurd hrewrites Bool.false_ne_true

theorem checkPath_ok {paths : List IndexedNote} {u : Unit} (h : env.checkPath paths new = .ok u) :
    env.notePathConflict paths new = none := by
  unfold LinkEnv.checkPath at h
  split at h
  · cases h
  · assumption

theorem note_ok {noteId : String} (h : ws.note noteId = .ok note) :
    note ∈ ws.notes ∧ note.noteId = noteId := by
  unfold Workspace.note at h
  split at h
  · rename_i hrow
    cases h
    exact row_some hrow
  · cases h

/-- What a successful `update` found and leaves. -/
theorem update_ok {noteId : String} {title folder : Option Text} {edit : Text → Option Text}
    (h : env.update ws noteId title folder edit = .ok c) : ∃ note newFolder content,
      note ∈ ws.notes ∧ note.noteId = noteId ∧ edit (ws.content noteId) = some content ∧
      let new := { note with folder := newFolder, title := title.getD note.title }
      c.notes = setIdentity noteId new.folder new.title ws.notes ∧
      (c.moves = [⟨note, new⟩] ∨ c.moves = [] ∧ new = note) ∧
      c.links = replaceLinks ws.links noteId ws.name ws.ownerId
        (resolveLinks env.casefold env.extractWikilinks ws.notes (ws.owned ws.notes) content
          newFolder).resolvedIds ∧
      c.body = Function.update ws.content noteId content ∧
      c.rewrites = decide (env.noteFilepath note ≠ env.noteFilepath new) ∧
      (c.rewrites = true → env.notePathConflict ws.notes new = none) := by
  obtain ⟨note, hnote, h⟩ := bind_ok h
  obtain ⟨newFolder, _, h⟩ := bind_ok h
  obtain ⟨_, hcheck, h⟩ := bind_ok h
  obtain ⟨content, hedit, h⟩ := bind_ok h
  obtain ⟨links, hlinks, h⟩ := bind_ok h
  obtain ⟨hmem, hid⟩ := note_ok hnote
  have hcontent : edit (ws.content noteId) = some content := by
    cases hsome : edit (ws.content noteId) with
    | none =>
      rw [hsome] at hedit
      cases hedit
    | some found =>
      rw [hsome] at hedit
      cases hedit
      rfl
  have hresolved : links = resolveLinks env.casefold env.extractWikilinks ws.notes
      (ws.owned ws.notes) content newFolder := by
    unfold LinkEnv.validate at hlinks
    dsimp only at hlinks
    split at hlinks
    · cases hlinks
    · exact (Except.ok.inj hlinks).symm
  subst hresolved
  cases h
  refine ⟨note, newFolder, content, hmem, hid, hcontent, rfl, ?_, rfl, rfl, rfl, ?_⟩
  · dsimp only
    split
    · exact .inl rfl
    · rename_i hsame
      refine .inr ⟨rfl, ?_⟩
      obtain ⟨htitle, hfolder⟩ := not_or.mp hsame
      rw [← not_ne_iff.mp htitle, ← not_ne_iff.mp hfolder]
  · intro hrewrites
    rw [if_pos hrewrites] at hcheck
    exact checkPath_ok hcheck

theorem update_moves {noteId : String} {title folder : Option Text} {edit : Text → Option Text}
    (h : env.update ws noteId title folder edit = .ok c) : Moves ws c := by
  obtain ⟨note, newFolder, content, hnote, rfl, _, hnotes, hmoves, _, _, _, hpath⟩ := update_ok h
  exact single_moves ⟨note.noteId, newFolder, title.getD note.title⟩ hnote rfl hnotes hmoves hpath

/-- A move keeps the bodies and the stored links. -/
theorem move_moves {noteId : String} {folder : Text} (h : env.move ws noteId folder = .ok c) :
    Moves ws c ∧ c.links = ws.links ∧ c.body = ws.content ∧ (c.moves ≠ [] → c.rewrites = true) := by
  obtain ⟨note, hnote, h⟩ := bind_ok h
  obtain ⟨newFolder, _, h⟩ := bind_ok h
  obtain ⟨hmem, rfl⟩ := note_ok hnote
  split at h
  · cases h
    exact ⟨still_moves, rfl, rfl, fun hne => absurd rfl hne⟩
  · obtain ⟨_, hcheck, h⟩ := bind_ok h
    cases h
    exact ⟨single_moves ⟨note.noteId, newFolder, note.title⟩ hmem rfl rfl (.inl rfl) fun _ =>
      checkPath_ok hcheck, rfl, rfl, fun _ => rfl⟩

/-- Without a conflict no target has a taken file, and no two have the same file. -/
theorem folderConflicts_eq_nil {taken : List Text} {targets : List IndexedNote} {claimed : List Text}
    (h : env.folderConflicts taken targets claimed = []) :
    (∀ n ∈ targets, env.pathConflictKey n ∉ taken ∧ env.pathConflictKey n ∉ claimed) ∧
      (targets.map env.pathConflictKey).Nodup := by
  induction targets generalizing claimed with
  | nil => exact ⟨fun _ hn => absurd hn List.not_mem_nil, List.nodup_nil⟩
  | cons n targets ih =>
    unfold LinkEnv.folderConflicts at h
    split at h
    · cases h
    · rename_i hfree
      obtain ⟨hall, hnodup⟩ := ih h
      constructor
      · intro m hm
        rcases List.mem_cons.mp hm with rfl | hm
        · exact not_or.mp hfree
        · exact ⟨(hall m hm).1, fun hmem => (hall m hm).2 (List.mem_cons_of_mem _ hmem)⟩
      · rw [List.map_cons, List.nodup_cons]
        refine ⟨fun hmem => ?_, hnodup⟩
        obtain ⟨m, hm, hkey⟩ := List.mem_map.mp hmem
        exact (hall m hm).2 (hkey ▸ List.mem_cons_self)

/-- An operation on the notes that `p` selects. -/
theorem many_moves {p : IndexedNote → Bool} {f : IndexedNote → IndexedNote}
    (hf : ∀ n, (f n).noteId = n.noteId) (hnotes : c.notes = updateWhere p f ws.notes)
    (hmoves : c.moves = (ws.notes.filter p).map fun n => ⟨n, f n⟩)
    (hpath : c.rewrites = true → ∀ mv ∈ c.moves, ∀ n ∈ c.notes, n.folder = mv.new.folder →
      n.title = mv.new.title → n = mv.new) : Moves ws c := by
  have hmem : ∀ mv ∈ c.moves, ∃ n ∈ ws.notes, p n = true ∧ mv = ⟨n, f n⟩ := by
    intro mv hmv
    rw [hmoves] at hmv
    obtain ⟨n, hn, rfl⟩ := List.mem_map.mp hmv
    exact ⟨n, (List.mem_filter.mp hn).1, (List.mem_filter.mp hn).2, rfl⟩
  have hkeyed : Keyed (fun mv : NoteMove => mv.old.noteId) c.moves := by
    rw [hmoves, Keyed, UniqueOn, List.filterMap_map]
    exact ws.ids.sublist (List.filter_sublist.filterMap _)
  refine ⟨?_, ?_, ?_, hkeyed, hpath⟩
  · rw [hnotes]
    refine List.map_congr_left fun n hn => ?_
    cases hp : p n with
    | true =>
      have hmv : (⟨n, f n⟩ : NoteMove) ∈ c.moves := by
        rw [hmoves]
        exact List.mem_map_of_mem (List.mem_filter.mpr ⟨hn, hp⟩)
      rw [(movedTo_eq_some hkeyed).mpr ⟨_, hmv, rfl, rfl⟩]
      rfl
    | false =>
      have hnone : movedTo c.moves n.noteId = none := by
        rw [movedTo, Option.map_eq_none_iff, row_eq_none]
        intro mv hmv hid
        obtain ⟨m, hm, hpm, rfl⟩ := hmem mv hmv
        obtain rfl := ws.ids.eq hm hn hid
        rw [hp] at hpm
        cases hpm
      rw [hnone]
      rfl
  · intro mv hmv
    obtain ⟨n, hn, _, rfl⟩ := hmem mv hmv
    exact hn
  · intro mv hmv
    obtain ⟨n, _, _, rfl⟩ := hmem mv hmv
    exact hf n

theorem moveFolder_moves {src dst : Text} (h : env.moveFolder ws src dst = .ok c) :
    Moves ws c ∧ c.links = ws.links ∧ c.body = ws.content ∧ (c.moves ≠ [] → c.rewrites = true) := by
  obtain ⟨src, _, h⟩ := bind_ok h
  obtain ⟨dst, _, h⟩ := bind_ok h
  split at h
  · cases h
  split at h
  · cases h
    exact ⟨still_moves, rfl, rfl, fun hne => absurd rfl hne⟩
  split at h
  · cases h
  dsimp only at h
  split at h
  · cases h
  split at h
  swap
  · cases h
  rename_i hconflicts
  cases h
  obtain ⟨hfree, hnodup⟩ := folderConflicts_eq_nil hconflicts
  refine ⟨many_moves (f := remap src dst) (fun _ => rfl) rfl rfl fun _ mv hmv n hn hfolder htitle => ?_, rfl, rfl,
    fun _ => rfl⟩
  have hnew : ∀ mv ∈ (ws.notes.filter (underFolder src)).map fun n => (⟨n, remap src dst n⟩ : NoteMove),
      mv.new ∈ ((ws.notes.filter (underFolder src)).map fun n =>
        (⟨n, remap src dst n⟩ : NoteMove)).map (·.new) := fun mv hmv => List.mem_map_of_mem hmv
  have hkey : env.pathConflictKey n = env.pathConflictKey mv.new := pathConflictKey_congr hfolder htitle
  rcases mem_updateWhere.mp hn with ⟨x, hx, hsel, rfl⟩ | ⟨hn, hsel⟩
  · have hx := hnew _ (List.mem_map_of_mem (List.mem_filter.mpr ⟨hx, hsel⟩))
    exact List.inj_on_of_nodup_map hnodup hx (hnew mv hmv) hkey
  · -- a note that stays behind would have been a conflict
    refine absurd ?_ (hfree mv.new (hnew mv hmv)).1
    rw [← hkey]
    refine List.mem_map_of_mem (List.mem_filter.mpr ⟨hn, decide_eq_true ?_⟩)
    rw [ws.ids.mem_map_filter hn, hsel]
    exact Bool.false_ne_true

theorem run_moves (h : env.run ws op = .ok c) : Moves ws c := by
  cases op with
  | update noteId title folder edit => exact update_moves h
  | move noteId folder => exact (move_moves h).1
  | moveFolder src dst => exact (moveFolder_moves h).1

/-! ## the bodies afterwards -/

theorem Moves.getD_id (h : Moves ws c) (n : IndexedNote) :
    ((movedTo c.moves n.noteId).getD n).noteId = n.noteId := by
  cases hto : movedTo c.moves n.noteId with
  | none => rfl
  | some new =>
    obtain ⟨mv, hmv, hold, rfl⟩ := (movedTo_eq_some h.keyed).mp hto
    exact (h.id mv hmv).trans hold

theorem Moves.ids (h : Moves ws c) : Keyed IndexedNote.noteId c.notes := by
  have hkey : ((fun n => some (IndexedNote.noteId n)) ∘ fun path =>
      (movedTo c.moves path.noteId).getD path) = fun n => some n.noteId := by
    funext n
    exact congrArg some (h.getD_id n)
  rw [h.notes, Committed.after, Keyed, UniqueOn, List.filterMap_map, hkey]
  exact ws.ids

/-- The two identities of a note. -/
theorem Moves.eq_getD (h : Moves ws c) (hn : n ∈ ws.notes) (hn' : n' ∈ c.notes)
    (hid : n'.noteId = n.noteId) : n' = (movedTo c.moves n.noteId).getD n := by
  rw [h.notes] at hn'
  obtain ⟨x, hx, rfl⟩ := List.mem_map.mp hn'
  rw [ws.ids.eq hx hn ((h.getD_id x).symm.trans hid)]

theorem Moves.mem_new (h : Moves ws c) (hmv : mv ∈ c.moves) : mv.new ∈ c.notes := by
  rw [h.notes]
  refine List.mem_map.mpr ⟨mv.old, h.old mv hmv, ?_⟩
  rw [(movedTo_eq_some h.keyed).mpr ⟨mv, hmv, rfl, rfl⟩]
  rfl

theorem Moves.distinct (h : Moves ws c) (hrewrites : c.rewrites = true) (hmv : mv ∈ c.moves) :
    Distinct c.notes mv.new where
  mem := h.mem_new hmv
  id _ hn hid := h.ids.eq hn (h.mem_new hmv) hid
  path := h.path hrewrites mv hmv

/-- The links of a source are read from its old folder. -/
theorem Moves.movedFrom (h : Moves ws c) (hn : n ∈ ws.notes) (hn' : n' ∈ c.notes)
    (hid : n'.noteId = n.noteId) : movedFrom c.moves n' = n.folder := by
  have heq := h.eq_getD hn hn' hid
  rw [Links.movedFrom, hid]
  cases hrow : row (fun mv : NoteMove => mv.old.noteId) c.moves n.noteId with
  | some mv =>
    obtain ⟨hmv, hold⟩ := row_some hrow
    rw [← ws.ids.eq (h.old mv hmv) hn hold]
    rfl
  | none =>
    rw [movedTo, hrow] at heq
    rw [heq]
    rfl

/-- What is put in place of the targets of a source. -/
def LinkEnv.rewriterOf (env : LinkEnv) (ws : Workspace) (c : Committed) (src : IndexedNote) :
    Text → Option Text :=
  if c.rewrites = true ∧ src.noteId ∈ c.sourceIds ws then
    env.rewrite ws c (movedFrom c.moves src) src.folder
  else fun _ => none

/-- The body of a source after the operation. -/
theorem content_eq (h : Moves ws c) (hn' : n' ∈ c.notes) : env.content ws c n'.noteId =
    (pieces (c.body n'.noteId)).flatMap (·.render (env.rewriterOf ws c n')) := by
  have hnone : (pieces (c.body n'.noteId)).flatMap (·.render fun _ => none) = c.body n'.noteId := by
    show (rewriteWikilinks (c.body n'.noteId) fun _ => none).1 = _
    apply rewriteWikilinks_of_not_changed
    refine List.any_eq_false.mpr fun p _ => ?_
    cases p with
    | text ch => exact Bool.false_ne_true
    | link inner => simp [Piece.changed, newTarget]
  have hrow : row IndexedNote.noteId c.notes n'.noteId = some n' := h.ids.row_eq.mpr ⟨hn', rfl⟩
  unfold LinkEnv.content
  by_cases hrewrites : c.rewrites = true
  · rw [if_pos hrewrites, LinkEnv.rewriteBacklinks, hrow]
    dsimp only
    by_cases hsource : n'.noteId ∈ c.sourceIds ws
    · have hof : env.rewriterOf ws c n' = env.rewrite ws c (Links.movedFrom c.moves n') n'.folder :=
        if_pos (And.intro hrewrites hsource)
      rw [if_pos hsource, hof]
      cases hchanged : (rewriteWikilinks (c.body n'.noteId)
          (env.rewrite ws c (Links.movedFrom c.moves n') n'.folder)).2 with
      | true => rfl
      | false => exact (rewriteWikilinks_of_not_changed hchanged).symm
    · have hof : env.rewriterOf ws c n' = fun _ => none := if_neg fun hboth => hsource hboth.2
      rw [if_neg hsource, hof, hnone]
  · have hof : env.rewriterOf ws c n' = fun _ => none := if_neg fun hboth => hrewrites hboth.1
    rw [if_neg hrewrites, hof, hnone]

/-! ## the sources -/

/-- Where the wikilinks of a source were read from when its links were stored. -/
def MoveOp.linkFolder : MoveOp → IndexedNote → IndexedNote → Text
  | .update noteId _ _ _, n, n' => if n.noteId = noteId then n'.folder else n.folder
  | _, n, _ => n.folder

/-- The stored links of a source when the rewriting begins. -/
def LinkEnv.storedLinks (env : LinkEnv) (ws : Workspace) (c : Committed) (op : MoveOp)
    (n n' : IndexedNote) : LinkResolution :=
  resolveLinks env.casefold env.extractWikilinks ws.notes (ws.owned ws.notes) (c.body n.noteId)
    (op.linkFolder n n')

theorem mem_replaceLinks {links : List NoteLink} {source workspace ownerId : String}
    {ids : Finset String} {l : NoteLink} : l ∈ replaceLinks links source workspace ownerId ids ↔
      (l ∈ links ∧ l.sourceNoteId ≠ source) ∨
        (l.sourceNoteId = source ∧ l.targetNoteId ∈ ids ∧ l.workspace = workspace ∧
          l.ownerId = ownerId) := by
  rw [replaceLinks, List.mem_append, mem_deleteWhere, decide_eq_false_iff_not, List.mem_map]
  refine or_congr Iff.rfl ⟨?_, ?_⟩
  · rintro ⟨t, ht, rfl⟩
    exact ⟨rfl, (Finset.mem_sort _).mp ht, rfl, rfl⟩
  · rintro ⟨rfl, ht, rfl, rfl⟩
    exact ⟨l.targetNoteId, (Finset.mem_sort _).mpr ht, rfl⟩

/-- The rows of a source whose stored links are up to date. -/
theorem UpToDate.row_iff (hup : UpToDate env.casefold env.extractWikilinks ws) (hn : n ∈ ws.notes)
    {i : String} : (∃ l ∈ ws.links, l.sourceNoteId = n.noteId ∧ l.targetNoteId = i ∧
      l.workspace = ws.name) ↔
        i ∈ (ws.resolution env.casefold env.extractWikilinks ws.notes n).resolvedIds := by
  constructor
  · rintro ⟨l, hl, hsource, rfl, _⟩
    exact ((hup.links n hn l hsource).mp hl).2.2
  · intro hi
    let l : NoteLink := ⟨n.noteId, i, ws.name, ws.ownerId⟩
    exact ⟨l, (hup.links n hn l rfl).mpr ⟨rfl, rfl, hi⟩, rfl, rfl, rfl⟩

theorem row_iff (hup : UpToDate env.casefold env.extractWikilinks ws) (hrun : env.run ws op = .ok c)
    (hn : n ∈ ws.notes) (hn' : n' ∈ c.notes) (hid : n'.noteId = n.noteId) {i : String} :
    (∃ l ∈ c.links, l.sourceNoteId = n.noteId ∧ l.targetNoteId = i ∧ l.workspace = ws.name) ↔
      i ∈ (env.storedLinks ws c op n n').resolvedIds := by
  cases op with
  | move noteId folder =>
    obtain ⟨_, hlinks, hbody, _⟩ := move_moves hrun
    rw [hlinks, LinkEnv.storedLinks, hbody]
    exact hup.row_iff hn
  | moveFolder src dst =>
    obtain ⟨_, hlinks, hbody, _⟩ := moveFolder_moves hrun
    rw [hlinks, LinkEnv.storedLinks, hbody]
    exact hup.row_iff hn
  | update noteId title folder edit =>
    obtain ⟨note, newFolder, content, _, _, _, hnotes, _, hlinks, hbody, _⟩ := update_ok hrun
    rw [hlinks, LinkEnv.storedLinks, hbody, MoveOp.linkFolder]
    simp only [mem_replaceLinks]
    by_cases hself : n.noteId = noteId
    · have hfolder : n'.folder = newFolder := by
        rw [hnotes] at hn'
        rcases mem_updateWhere.mp hn' with ⟨x, _, _, rfl⟩ | ⟨_, hsel⟩
        · rfl
        · exact absurd (hid.trans hself) (of_decide_eq_false hsel)
      rw [if_pos hself, hself, Function.update_self, hfolder]
      constructor
      · rintro ⟨l, ⟨_, hne⟩ | ⟨_, htarget, _, _⟩, hsource, rfl, _⟩
        · exact absurd hsource hne
        · exact htarget
      · exact fun hi => ⟨⟨noteId, i, ws.name, ws.ownerId⟩, .inr ⟨rfl, hi, rfl, rfl⟩, rfl, rfl, rfl⟩
    · rw [if_neg hself, Function.update_of_ne hself]
      refine Iff.trans ?_ (hup.row_iff hn)
      constructor
      · rintro ⟨l, ⟨hl, _⟩ | ⟨hsource', _⟩, hsource, htarget, hws⟩
        · exact ⟨l, hl, hsource, htarget, hws⟩
        · exact absurd (hsource.symm.trans hsource') hself
      · rintro ⟨l, hl, hsource, htarget, hws⟩
        exact ⟨l, .inl ⟨hl, fun hl' => hself (hsource.symm.trans hl')⟩, hsource, htarget, hws⟩

/-- The rewriting reaches a source when its stored links have a moved note. -/
theorem mem_sourceIds (hup : UpToDate env.casefold env.extractWikilinks ws)
    (hrun : env.run ws op = .ok c) (hn : n ∈ ws.notes) (hn' : n' ∈ c.notes)
    (hid : n'.noteId = n.noteId) : n.noteId ∈ c.sourceIds ws ↔
      ∃ mv ∈ c.moves, mv.old.noteId ∈ (env.storedLinks ws c op n n').resolvedIds := by
  rw [Committed.sourceIds, mem_backlinksMany]
  constructor
  · rintro ⟨l, hl, hsource, htarget, hws⟩
    obtain ⟨mv, hmv, hold⟩ := List.mem_map.mp htarget
    exact ⟨mv, hmv, (row_iff hup hrun hn hn' hid).mp ⟨l, hl, hsource, hold.symm, hws⟩⟩
  · rintro ⟨mv, hmv, hi⟩
    obtain ⟨l, hl, hsource, htarget, hws⟩ := (row_iff hup hrun hn hn' hid).mpr hi
    exact ⟨l, hl, hsource, List.mem_map.mpr ⟨mv, hmv, htarget.symm⟩, hws⟩

end
end Kajet.Links
