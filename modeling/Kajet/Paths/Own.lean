import Kajet.Lib.Fallible
import Kajet.Lib.Machine
import Kajet.Paths.Vault

/-!
# Every note owns its path

* `Owned`          no two notes share the key of their path, the folders are normalised, and each
                   note's file is at its path with its id;
* `run_owned`      a successful operation keeps it, unless `move_folder` is given a note's file;
* `paths_owned`    the runs in which it is not;
* `paths_lost`     the run in which it is.
-/

namespace Kajet.Paths
open Str Table Links Machine Fallible

/-- The note's file is at its path, with its id. -/
def Holds (d : Disk) (n : IndexedNote) : Prop :=
  ∃ f, d.file (notePath n) = some f ∧ f.noteId = some n.noteId

structure Owned (env : VaultEnv) (v : Vault) : Prop where
  keys : ∀ n ∈ v.notes, ∀ m ∈ v.notes, env.pathConflictKey n = env.pathConflictKey m → n = m
  folders : ∀ n ∈ v.notes, Normalized n.folder
  files : ∀ n ∈ v.notes, Holds v.disk n

section
variable {env : VaultEnv} {v v' : Vault} {d d' : Disk} {n m note new : IndexedNote}
  {f : NoteFile} {fs : List NoteFile} {noteId : String}

/-! ## files -/

theorem Owned.path (h : Owned env v) (hn : n ∈ v.notes) (hm : m ∈ v.notes)
    (hpath : notePath n = notePath m) : n = m :=
  h.keys n hn m hm (congrArg (fun path => env.casefold (env.wsPath ++ '/' :: path)) hpath)

/-- The frontmatter names the note whose path the file has. -/
def Stamped (n : IndexedNote) (f : NoteFile) : Prop := f.path = notePath n ∧ f.noteId = some n.noteId

theorem stamped_stamp (n : IndexedNote) (tags : List Text) (content : Text) :
    Stamped n (stamp n tags content) := ⟨rfl, rfl⟩

theorem holds_of_file (h : ∀ p, p = notePath n → d'.file p = d.file p) (hn : Holds d n) :
    Holds d' n := by
  obtain ⟨f, hf, hid⟩ := hn
  exact ⟨f, (h _ rfl).trans hf, hid⟩

theorem holds_write (h : d.write f = .ok d') (hf : Stamped n f) : Holds d' n :=
  ⟨f, by rw [file_write h, hf.1, if_pos rfl], hf.2⟩

/-- Files of some notes are written; a note whose path is not written keeps its file. -/
theorem writeAll_holds {notes : List IndexedNote}
    (hinj : ∀ n ∈ notes, ∀ m ∈ notes, notePath n = notePath m → n = m)
    (hfs : ∀ f ∈ fs, ∃ m ∈ notes, Stamped m f)
    (hall : ∀ n ∈ notes, Holds d n ∨ ∃ f ∈ fs, Stamped n f) (h : Disk.writeAll fs d = .ok d') :
    ∀ n ∈ notes, Holds d' n := by
  induction fs generalizing d with
  | nil =>
    cases h
    intro n hn
    exact (hall n hn).resolve_right fun ⟨f, hf, _⟩ => nomatch hf
  | cons f fs ih =>
    obtain ⟨e, he, h⟩ := bind_ok h
    refine ih (fun g hg => hfs g (List.mem_cons_of_mem f hg)) (fun n hn => ?_) h
    obtain ⟨m, hm, hstamped⟩ := hfs f List.mem_cons_self
    by_cases hnm : n = m
    · rw [hnm]
      exact .inl (holds_write he hstamped)
    · rcases hall n hn with hheld | ⟨g, hg, hgn⟩
      · refine .inl (holds_of_file (fun p hp => ?_) hheld)
        rw [file_write he, if_neg]
        rw [hp, hstamped.1]
        exact fun hpath => hnm (hinj n hn m hm hpath)
      · rcases List.mem_cons.mp hg with rfl | hg
        · exact absurd (hinj n hn m hm (hgn.1.symm.trans hstamped.1)) hnm
        · exact .inr ⟨g, hg, hgn⟩

theorem Owned.writeFiles (h : Owned env v) (hfs : ∀ f ∈ fs, ∃ m ∈ v.notes, Stamped m f)
    (hok : v.writeFiles fs = .ok v') : Owned env v' := by
  obtain ⟨disk, hdisk, hok⟩ := bind_ok hok
  cases hok
  exact ⟨h.keys, h.folders, writeAll_holds (fun n hn m hm => h.path hn hm) hfs
    (fun n hn => .inl (h.files n hn)) (mapError_ok hdisk)⟩

theorem Owned.changeFiles {p : IndexedNote → Bool}
    {change : IndexedNote → NoteFile → Option (List Text × Text)} (h : Owned env v)
    (hok : v.changeFiles p change = .ok v') : Owned env v' := by
  refine h.writeFiles (fun f hf => ?_) hok
  obtain ⟨n, hn, hsome⟩ := List.mem_filterMap.mp hf
  obtain ⟨g, _, hsome⟩ := Option.bind_eq_some_iff.mp hsome
  obtain ⟨⟨tags, content⟩, _, hsome⟩ := Option.bind_eq_some_iff.mp hsome
  cases hsome
  exact ⟨n, List.mem_of_mem_filter hn, stamped_stamp n tags content⟩

/-- Only the files at the paths of notes count. -/
theorem Owned.disk (h : Owned env v) (hfile : ∀ p, d.file p = v.disk.file p) :
    Owned env { v with disk := d } :=
  ⟨h.keys, h.folders, fun n hn => holds_of_file (fun p _ => hfile p) (h.files n hn)⟩

theorem note_mem (h : v.note noteId = .ok note) : note ∈ v.notes ∧ note.noteId = noteId := by
  unfold Vault.note at h
  split at h
  · rename_i hrow
    cases h
    exact row_some hrow
  · cases h

/-! ## new notes -/

theorem insert_ok {rows rows' : Rows} (h : rows.insert n = some rows') :
    rows'.notes = rows.notes ++ [n] ∧ ∀ x ∈ rows.notes, x.noteId ≠ n.noteId := by
  unfold Rows.insert at h
  split at h
  · rename_i hfree
    cases h
    exact ⟨rfl, hfree⟩
  · cases h

theorem insertAll_ok {notes : List IndexedNote} {rows rows' : Rows}
    (h : Rows.insertAll notes rows = some rows') : rows'.notes = rows.notes ++ notes ∧
      ∀ n ∈ notes, ∀ x ∈ rows.notes, x.noteId ≠ n.noteId := by
  induction notes generalizing rows with
  | nil =>
    cases h
    exact ⟨(List.append_nil _).symm, fun _ hn => nomatch hn⟩
  | cons n notes ih =>
    obtain ⟨mid, hmid, h⟩ := Option.bind_eq_some_iff.mp h
    obtain ⟨hnotes, hfree⟩ := insert_ok hmid
    obtain ⟨hnotes', hfree'⟩ := ih h
    refine ⟨by rw [hnotes', hnotes, List.append_assoc]; rfl, fun m hm x hx => ?_⟩
    rcases List.mem_cons.mp hm with rfl | hm
    · exact hfree x hx
    · exact hfree' m hm x (hnotes ▸ List.mem_append_left _ hx)

/-- Notes are added whose paths nobody has, neither a row nor another one of them. -/
theorem Owned.add {drafts : List Draft} (h : Owned env v)
    (hfolders : ∀ a ∈ drafts, Normalized a.note.folder)
    (hfree : ∀ a ∈ drafts, ∀ m ∈ v.notes, m.noteId ≠ a.note.noteId →
      env.pathConflictKey m ≠ env.pathConflictKey a.note)
    (hnodup : (drafts.map fun a => env.pathConflictKey a.note).Nodup)
    (hok : v.add drafts = .ok v') : Owned env v' := by
  unfold Vault.add at hok
  split at hok
  · cases hok
  rename_i rows hrows
  obtain ⟨hnotes, hids⟩ := insertAll_ok hrows
  obtain ⟨disk, hdisk, hok⟩ := bind_ok hok
  cases hok
  have hmem : ∀ {n}, n ∈ rows.notes ↔ n ∈ v.notes ∨ ∃ a ∈ drafts, a.note = n := by
    intro n
    rw [hnotes, List.mem_append, List.mem_map]
  have hapart : ∀ a ∈ drafts, ∀ m ∈ v.notes, env.pathConflictKey m ≠ env.pathConflictKey a.note :=
    fun a ha m hm => hfree a ha m hm (hids _ (List.mem_map_of_mem ha) m hm)
  have hkeys : ∀ n ∈ rows.notes, ∀ m ∈ rows.notes,
      env.pathConflictKey n = env.pathConflictKey m → n = m := by
    intro n hn m hm hkey
    rcases hmem.mp hn with hn | ⟨a, ha, rfl⟩ <;> rcases hmem.mp hm with hm | ⟨b, hb, rfl⟩
    · exact h.keys n hn m hm hkey
    · exact absurd hkey (hapart b hb n hn)
    · exact absurd hkey.symm (hapart a ha m hm)
    · rw [List.inj_on_of_nodup_map hnodup ha hb hkey]
  refine ⟨hkeys, fun n hn => ?_, ?_⟩
  · rcases hmem.mp hn with hn | ⟨a, ha, rfl⟩
    · exact h.folders n hn
    · exact hfolders a ha
  · refine @writeAll_holds v.disk _ (drafts.map Draft.file) _ (fun n hn m hm hpath => ?_)
      (fun f hf => ?_) (fun n hn => ?_) (mapError_ok hdisk)
    · exact hkeys n hn m hm (congrArg (fun path => env.casefold (env.wsPath ++ '/' :: path)) hpath)
    · obtain ⟨a, ha, rfl⟩ := List.mem_map.mp hf
      exact ⟨a.note, hmem.mpr (.inr ⟨a, ha, rfl⟩), stamped_stamp _ _ _⟩
    · rcases hmem.mp hn with hn | ⟨a, ha, rfl⟩
      · exact .inl (h.files n hn)
      · exact .inr ⟨a.file, List.mem_map_of_mem ha, stamped_stamp _ _ _⟩

theorem build_ok {draft : Draft} {new : NewNote} (h : env.build noteId new = .ok draft) :
    Normalized draft.note.folder ∧ draft.note.noteId = noteId := by
  obtain ⟨folder, hfolder, h⟩ := bind_ok h
  cases h
  exact ⟨normalized_of_ok (mapError_ok hfolder), rfl⟩

theorem ensurePathFree_ok {draft : Draft} {conflict : Option IndexedNote} {u : Unit}
    (h : ensurePathFree v draft conflict = .ok u) : conflict = none := by
  cases conflict with
  | none => rfl
  | some c => cases h

theorem notePathConflict_none (h : env.notePathConflict v.notes new = none) :
    ∀ m ∈ v.notes, m.noteId ≠ new.noteId → env.pathConflictKey m ≠ env.pathConflictKey new :=
  fun m hm hid hkey => List.find?_eq_none.mp h m hm (decide_eq_true ⟨hid, hkey⟩)

theorem Owned.save {new : NewNote} (h : Owned env v) (hok : env.save v noteId new = .ok v') :
    Owned env v' := by
  obtain ⟨draft, hdraft, hok⟩ := bind_ok hok
  obtain ⟨_, hfree, hok⟩ := bind_ok hok
  obtain ⟨_, _, hok⟩ := bind_ok hok
  have hnodup : ([draft].map fun a => env.pathConflictKey a.note).Nodup := List.nodup_singleton _
  refine h.add (fun a ha => ?_) (fun a ha => ?_) hnodup hok
  · rw [List.mem_singleton.mp ha]
    exact (build_ok hdraft).1
  · rw [List.mem_singleton.mp ha]
    exact notePathConflict_none (ensurePathFree_ok hfree)

theorem admitItem_ok {accepted : List (Text × Text)} {pathIndex : List (Text × IndexedNote)}
    {new : NewNote} {draft : Draft} (h : env.admitItem v accepted pathIndex noteId new = .ok draft) :
    Normalized draft.note.folder ∧ pathIndex.lookup (env.pathConflictKey draft.note) = none := by
  obtain ⟨_, _, h⟩ := bind_ok h
  obtain ⟨built, hbuilt, h⟩ := bind_ok h
  obtain ⟨_, _, h⟩ := bind_ok h
  obtain ⟨_, hfree, h⟩ := bind_ok h
  cases h
  exact ⟨(build_ok hbuilt).1, ensurePathFree_ok hfree⟩

/-- The paths of an admitted batch are not in the index it started from, and differ. -/
theorem admit_ok (items : List (String × NewNote)) (accepted : List (Text × Text))
    (pathIndex : List (Text × IndexedNote)) :
    (∀ a ∈ admitted ( env.admit v items accepted pathIndex), Normalized a.note.folder ∧
      env.pathConflictKey a.note ∉ pathIndex.map (·.1)) ∧
    ((admitted ( env.admit v items accepted pathIndex)).map fun a =>
      env.pathConflictKey a.note).Nodup := by
  induction items generalizing accepted pathIndex with
  | nil => exact ⟨fun _ ha => (nomatch ha), List.nodup_nil⟩
  | cons item items ih =>
    obtain ⟨noteId, new⟩ := item
    unfold VaultEnv.admit
    split
    · exact ih accepted pathIndex
    · rename_i draft hdraft
      obtain ⟨hnormal, hlookup⟩ := admitItem_ok hdraft
      obtain ⟨hall, hnodup⟩ := ih ((draft.note.folder, draft.note.title) :: accepted)
        ((env.pathConflictKey draft.note, draft.note) :: pathIndex)
      have hnot : env.pathConflictKey draft.note ∉ pathIndex.map (·.1) := by
        intro hmem
        obtain ⟨e, he, hkey⟩ := List.mem_map.mp hmem
        have hne := List.lookup_eq_none_iff.mp hlookup e he
        simp [hkey] at hne
      constructor
      · intro a ha
        rcases List.mem_cons.mp ha with rfl | ha
        · exact ⟨hnormal, hnot⟩
        · exact ⟨(hall a ha).1, fun hmem => (hall a ha).2 (List.mem_cons_of_mem _ hmem)⟩
      · show (env.pathConflictKey draft.note :: List.map _ _).Nodup
        refine List.nodup_cons.mpr ⟨fun hmem => ?_, hnodup⟩
        obtain ⟨a, ha, hkey⟩ := List.mem_map.mp hmem
        exact (hall a ha).2 (hkey ▸ List.mem_cons_self)

/-- What is left of a batch after the links are checked. -/
theorem admitted_sublist {g : Draft → Except VaultError Draft} (hg : ∀ a b, g a = .ok b → b = a)
    (items : List (Except VaultError Draft)) :
    (admitted (items.map fun item => item >>= g)).Sublist (admitted items) := by
  induction items with
  | nil => exact List.Sublist.slnil
  | cons item items ih =>
    cases item with
    | error e => exact ih
    | ok a =>
      show (admitted (g a :: _)).Sublist (a :: admitted items)
      cases hga : g a with
      | error e => exact ih.cons a
      | ok b =>
        rw [hg a b hga]
        exact ih.cons_cons a

theorem Owned.saveMany {items : List (String × NewNote)} (h : Owned env v)
    (hok : (env.saveMany v items).map (·.1) = .ok v') : Owned env v' := by
  have hsub : (admitted (env.resolveBatch v ( env.admit v items [] (env.buildPathIndex v.notes)))).Sublist
      (admitted ( env.admit v items [] (env.buildPathIndex v.notes))) := by
    refine admitted_sublist (fun a b hab => ?_) _
    obtain ⟨_, _, hb⟩ := map_ok hab
    exact hb.symm
  obtain ⟨hall, hnodup⟩ := @admit_ok env v items [] (env.buildPathIndex v.notes)
  unfold VaultEnv.saveMany at hok
  dsimp only at hok
  split at hok
  · cases hok
    exact h
  · rename_i draft drafts hprepared
    rw [hprepared] at hsub
    obtain ⟨r, hr, rfl⟩ := map_ok hok
    obtain ⟨w, hw, rfl⟩ := map_ok hr
    refine h.add (fun a ha => (hall a (hsub.subset ha)).1) (fun a ha m hm _ hkey => ?_)
      (hnodup.sublist (hsub.map _)) hw
    refine (hall a (hsub.subset ha)).2 (List.mem_map.mpr ⟨(env.pathConflictKey m, m), ?_, hkey⟩)
    exact List.mem_reverse.mpr (List.mem_map_of_mem hm)

/-! ## one note with a new identity -/

theorem mem_setIdentity {rows : Rows} (hnote : note ∈ rows.notes) (hid : new.noteId = note.noteId) :
    n ∈ (rows.setIdentity new).notes ↔ n = new ∨ n ∈ rows.notes ∧ n.noteId ≠ new.noteId := by
  show n ∈ updateWhere _ _ rows.notes ↔ _
  rw [mem_updateWhere]
  constructor
  · rintro (⟨x, hx, hsel, rfl⟩ | ⟨hn, hsel⟩)
    · have hxid : x.noteId = new.noteId := of_decide_eq_true hsel
      left
      cases new
      cases hxid
      rfl
    · exact .inr ⟨hn, of_decide_eq_false hsel⟩
  · rintro (rfl | ⟨hn, hne⟩)
    · exact .inl ⟨note, hnote, decide_eq_true hid.symm, by rw [← hid]⟩
    · exact .inr ⟨hn, decide_eq_false hne⟩

theorem Owned.setIdentity (h : Owned env v) (hnote : note ∈ v.notes) (hid : new.noteId = note.noteId)
    (hfolder : Normalized new.folder)
    (hpath : notePath new = notePath note ∨ env.notePathConflict v.notes new = none)
    (hnew : Holds d new) (hrest : ∀ n ∈ v.notes, n.noteId ≠ new.noteId → Holds d n) :
    Owned env ⟨v.rows.setIdentity new, d⟩ := by
  have hapart : ∀ m ∈ v.notes, m.noteId ≠ new.noteId →
      env.pathConflictKey m ≠ env.pathConflictKey new := by
    intro m hm hne hkey
    rcases hpath with hsame | hfree
    · have hkey' : env.pathConflictKey new = env.pathConflictKey note :=
        congrArg (fun path => env.casefold (env.wsPath ++ '/' :: path)) hsame
      rw [h.keys m hm note hnote (hkey.trans hkey')] at hne
      exact hne hid.symm
    · exact notePathConflict_none hfree m hm hne hkey
  refine ⟨fun n hn m hm hkey => ?_, fun n hn => ?_, fun n hn => ?_⟩
  · rcases (mem_setIdentity hnote hid).mp hn with hn | ⟨hn, hne⟩ <;>
      rcases (mem_setIdentity hnote hid).mp hm with hm | ⟨hm, hme⟩
    · exact hn.trans hm.symm
    · exact absurd (hkey.symm.trans (congrArg _ hn)) (hapart m hm hme)
    · exact absurd (hkey.trans (congrArg _ hm)) (hapart n hn hne)
    · exact h.keys n hn m hm hkey
  · rcases (mem_setIdentity hnote hid).mp hn with rfl | ⟨hn, _⟩
    · exact hfolder
    · exact h.folders n hn
  · rcases (mem_setIdentity hnote hid).mp hn with rfl | ⟨hn, hne⟩
    · exact hnew
    · exact hrest n hn hne

/-- The files after a note's file went from its old path to the new one. -/
theorem Owned.relocate (h : Owned env v) (hnote : note ∈ v.notes) (hid : new.noteId = note.noteId)
    (hfolder : Normalized new.folder) (hfree : env.notePathConflict v.notes new = none)
    (hf : Stamped new f) (hd : v.disk.relocate (notePath note) f = .ok d) :
    Owned env ⟨v.rows.setIdentity new, d⟩ := by
  refine h.setIdentity hnote hid hfolder (.inr hfree) ⟨f, ?_, hf.2⟩ fun n hn hne => ?_
  · rw [file_relocate hd, hf.1, if_pos rfl]
  · refine holds_of_file (fun p hp => ?_) (h.files n hn)
    have hnew : p ≠ f.path := by
      rw [hp, hf.1]
      exact fun hpath => notePathConflict_none hfree n hn hne
        (congrArg (fun path => env.casefold (env.wsPath ++ '/' :: path)) hpath)
    have hold : p ≠ notePath note := by
      rw [hp]
      exact fun hpath => hne ((congrArg IndexedNote.noteId (h.path hn hnote hpath)).trans hid.symm)
    rw [file_relocate hd, if_neg hnew, if_neg hold]

theorem normalized_folderOr {folder : Option Text} {old result : Text} (hold : Normalized old)
    (h : folderOr old folder = .ok result) : Normalized result := by
  cases folder with
  | none =>
    cases h
    exact hold
  | some raw => exact normalized_of_ok h

theorem Owned.update {title folder : Option Text} {tags : List Text} {edit : Text → Option Text}
    {sourceIds : List String} (h : Owned env v)
    (hok : env.update v noteId title folder tags edit sourceIds = .ok v') : Owned env v' := by
  obtain ⟨note, hnote, hok⟩ := bind_ok hok
  obtain ⟨newFolder, hfolder, hok⟩ := bind_ok hok
  obtain ⟨file, _, hok⟩ := bind_ok hok
  obtain ⟨_, hcheck, hok⟩ := bind_ok hok
  obtain ⟨content, _, hok⟩ := bind_ok hok
  obtain ⟨_, _, hok⟩ := bind_ok hok
  obtain ⟨disk, hdisk, hok⟩ := bind_ok hok
  obtain ⟨hmem, _⟩ := note_mem hnote
  have hnormal := normalized_folderOr (h.folders note hmem) (mapError_ok hfolder)
  have hcheck := mapError_ok hcheck
  have hdisk := mapError_ok hdisk
  let new : IndexedNote := { note with folder := newFolder, title := title.getD note.title }
  split at hok
  · rename_i hchanged
    rw [if_pos hchanged] at hcheck hdisk
    have howned : Owned env ⟨v.rows.setIdentity new, disk⟩ :=
      h.relocate hmem rfl hnormal (checkPath_ok hcheck) (stamped_stamp _ _ _) hdisk
    exact howned.changeFiles hok
  · rename_i hsame
    rw [if_neg hsame] at hdisk
    cases hok
    have hpath : notePath note = notePath new :=
      not_not.mp (of_decide_eq_false (Bool.eq_false_of_not_eq_true hsame))
    have howned : Owned env ⟨v.rows.setIdentity new, disk⟩ := by
      refine h.setIdentity hmem rfl hnormal (.inl hpath.symm)
        (holds_write hdisk (stamped_stamp _ _ _)) fun n hn hne =>
          holds_of_file (fun p hp => ?_) (h.files n hn)
      rw [file_write hdisk, if_neg]
      rw [hp]
      intro heq
      have hsame : notePath n = notePath note := heq.trans hpath.symm
      exact hne (by rw [h.path hn hmem hsame])
    exact howned

theorem Owned.move {folder : Text} {sourceIds : List String} (h : Owned env v)
    (hok : env.move v noteId folder sourceIds = .ok v') : Owned env v' := by
  obtain ⟨note, hnote, hok⟩ := bind_ok hok
  obtain ⟨newFolder, hfolder, hok⟩ := bind_ok hok
  obtain ⟨hmem, _⟩ := note_mem hnote
  split at hok
  · cases hok
    exact h
  · obtain ⟨file, hfile, hok⟩ := bind_ok hok
    obtain ⟨_, hcheck, hok⟩ := bind_ok hok
    obtain ⟨disk, hdisk, hok⟩ := bind_ok hok
    obtain ⟨moved, hmoved, hok⟩ := bind_ok hok
    cases hok
    obtain ⟨f, hf, hid⟩ := h.files note hmem
    have hfile' : f = file := by
      unfold Vault.fileOf at hfile
      rw [hf] at hfile
      exact Except.ok.inj hfile
    rw [← hfile'] at hdisk
    let new : IndexedNote := { note with folder := newFolder }
    have howned : Owned env ⟨v.rows.setIdentity new, disk⟩ :=
      h.relocate (f := { f with path := notePath new }) hmem rfl
        (normalized_of_ok (mapError_ok hfolder)) (checkPath_ok (mapError_ok hcheck)) ⟨rfl, hid⟩
        (mapError_ok hdisk)
    exact (howned.changeFiles hmoved).disk fun p => file_pruneEmptyParents

/-! ## edits, tags and deletions -/

theorem Owned.editMany {items : List EditItem} (h : Owned env v)
    (hok : env.editMany v items = .ok v') : Owned env v' := by
  obtain ⟨_, _, hok⟩ := bind_ok hok
  obtain ⟨_, _, hok⟩ := bind_ok hok
  obtain ⟨files, hfiles, hok⟩ := bind_ok hok
  refine h.writeFiles (fun f hf => ?_) hok
  obtain ⟨item, _, hitem⟩ := mem_of_mapM_ok hfiles hf
  obtain ⟨note, hnote, hitem⟩ := bind_ok hitem
  obtain ⟨_, _, hitem⟩ := bind_ok hitem
  obtain ⟨content, _, hitem⟩ := bind_ok hitem
  obtain ⟨_, _, hitem⟩ := bind_ok hitem
  cases hitem
  exact ⟨note, (note_mem hnote).1, stamped_stamp _ _ _⟩

theorem Owned.changeTags {mutate : List Text → Text → List Text} (h : Owned env v)
    (hok : env.changeTags v noteId mutate = .ok v') : Owned env v' := by
  obtain ⟨note, hnote, hok⟩ := bind_ok hok
  obtain ⟨file, _, hok⟩ := bind_ok hok
  dsimp only at hok
  split at hok
  · cases hok
    exact h
  · refine h.writeFiles (fun f hf => ?_) hok
    rw [List.mem_singleton.mp hf]
    exact ⟨note, (note_mem hnote).1, stamped_stamp _ _ _⟩

/-- Notes and their files are deleted together. -/
theorem Owned.deleted {noteIds : List String} (h : Owned env v)
    (hd : ∀ n ∈ v.notes, n.noteId ∉ noteIds → d.file (notePath n) = v.disk.file (notePath n)) :
    Owned env ⟨v.rows.delete noteIds, d⟩ := by
  have hmem : ∀ {n}, n ∈ (v.rows.delete noteIds).notes → n ∈ v.notes ∧ n.noteId ∉ noteIds := by
    intro n hn
    obtain ⟨hn, hkeep⟩ := mem_deleteWhere.mp hn
    exact ⟨hn, of_decide_eq_false hkeep⟩
  refine ⟨fun n hn m hm => h.keys n (hmem hn).1 m (hmem hm).1, fun n hn => h.folders n (hmem hn).1,
    fun n hn => ?_⟩
  obtain ⟨hn, hkeep⟩ := hmem hn
  obtain ⟨f, hf, hid⟩ := h.files n hn
  exact ⟨f, (hd n hn hkeep).trans hf, hid⟩

theorem Owned.delete (h : Owned env v) (hok : v.delete noteId = .ok v') : Owned env v' := by
  obtain ⟨note, hnote, hok⟩ := bind_ok hok
  obtain ⟨hmem, hid⟩ := note_mem hnote
  cases hok
  refine h.deleted fun n hn hkeep => ?_
  rw [file_unlink, if_neg]
  intro hpath
  refine hkeep (List.mem_singleton.mpr ?_)
  rw [h.path hn hmem hpath, hid]

theorem file_unlinkAll {located : List IndexedNote} {p : Text}
    (hp : ∀ m ∈ located, p ≠ notePath m) :
    (located.foldl (fun d n => d.unlink (notePath n)) d).file p = d.file p := by
  induction located generalizing d with
  | nil => rfl
  | cons m located ih =>
    rw [List.foldl_cons, ih fun n hn => hp n (List.mem_cons_of_mem m hn), file_unlink,
      if_neg (hp m List.mem_cons_self)]

theorem Owned.deleteMany {noteIds : List String} (h : Owned env v)
    (hok : v.deleteMany noteIds = .ok v') : Owned env v' := by
  obtain ⟨_, _, hok⟩ := bind_ok hok
  obtain ⟨_, _, hok⟩ := bind_ok hok
  obtain ⟨located, hlocated, hok⟩ := bind_ok hok
  cases hok
  refine h.deleted fun n hn hkeep => file_unlinkAll fun m hm hpath => hkeep ?_
  obtain ⟨noteId, hnoteId, hfound⟩ := mem_of_mapM_ok hlocated hm
  obtain ⟨note, hnote, hfound⟩ := bind_ok hfound
  obtain ⟨_, _, hfound⟩ := bind_ok hfound
  cases hfound
  obtain ⟨hmem, hid⟩ := note_mem hnote
  rw [h.path hn hmem hpath, hid]
  exact hnoteId

/-! ## a folder -/

/-- `move_folder` is given no note's file. -/
def FolderMoved (v : Vault) : VaultOp → Prop
  | .moveFolder src _ _ _ => ∀ n ∈ v.notes, normalizeFolder src ≠ some (notePath n)
  | _ => True

/-- `LIKE` finds at least what is below the folder. -/
theorem underFolder_of_below {src : Text} (h : n.folder = src ∨ inTree src n.folder = true) :
    underFolder src n = true := by
  rw [underFolder, Bool.or_eq_true]
  rcases h with h | h
  · exact .inl (decide_eq_true h)
  · refine .inr (List.isPrefixOf_iff_prefix.mpr ?_)
    exact (List.isPrefixOf_iff_prefix.mp h).map Char.toLower

theorem Owned.moveUnder {src dst tmp : Text} (h : Owned env v) (hdst : Normalized dst) (hsrc : src ≠ [])
    (hbelow : ∀ n ∈ v.notes, underFolder src n = true → inTree src (notePath n) = true)
    (hconflicts : env.folderConflicts ((v.notes.filter fun n =>
        n.noteId ∉ (v.notes.filter (underFolder src)).map (·.noteId)).map env.pathConflictKey)
      ((v.notes.filter (underFolder src)).map (remap src dst)) [] = [])
    (hfile : ∀ n ∈ v.notes, notePath n ≠ src)
    (hd : v.disk.moveTree src dst tmp ((v.notes.filter (underFolder src)).map fun n =>
      (notePath n, notePath (remap src dst n))) = .ok d) :
    Owned env ⟨v.rows.moveUnder src dst, d⟩ := by
  obtain ⟨hfree, hnodup⟩ := folderConflicts_eq_nil hconflicts
  have hmem : ∀ {n}, n ∈ (v.rows.moveUnder src dst).notes →
      (∃ x ∈ v.notes, underFolder src x = true ∧ remap src dst x = n) ∨
        n ∈ v.notes ∧ underFolder src n = false := fun hn => mem_updateWhere.mp hn
  have hmoved : ∀ x ∈ v.notes, underFolder src x = true →
      remap src dst x ∈ (v.notes.filter (underFolder src)).map (remap src dst) := fun x hx hsel =>
    List.mem_map_of_mem (List.mem_filter.mpr ⟨hx, hsel⟩)
  have hapart : ∀ x ∈ v.notes, underFolder src x = true → ∀ m ∈ v.notes, underFolder src m = false →
      env.pathConflictKey m ≠ env.pathConflictKey (remap src dst x) := by
    intro x hx hsel m hm hout hkey
    refine (hfree _ (hmoved x hx hsel)).1 (hkey ▸ List.mem_map_of_mem ?_)
    refine List.mem_filter.mpr ⟨hm, decide_eq_true ?_⟩
    rw [v.rows.ids.mem_map_filter hm, hout]
    exact Bool.false_ne_true
  refine ⟨fun n hn m hm hkey => ?_, fun n hn => ?_, fun n hn => ?_⟩
  · rcases hmem hn with ⟨x, hx, hxs, rfl⟩ | ⟨hn, hns⟩ <;> rcases hmem hm with ⟨y, hy, hys, rfl⟩ | ⟨hm, hms⟩
    · exact List.inj_on_of_nodup_map hnodup (hmoved x hx hxs) (hmoved y hy hys) hkey
    · exact absurd hkey.symm (hapart x hx hxs m hm hms)
    · exact absurd hkey (hapart y hy hys n hn hns)
    · exact h.keys n hn m hm hkey
  · rcases hmem hn with ⟨x, hx, hxs, rfl⟩ | ⟨hn, _⟩
    · exact normalized_remap (h.folders x hx) hdst
        ((inTree_notePath (h.folders x hx) hsrc).mp (hbelow x hx hxs))
    · exact h.folders n hn
  · rcases hmem hn with ⟨x, hx, hxs, rfl⟩ | ⟨hn, hns⟩
    · -- the file of a moved note is carried to the note's new path
      obtain ⟨f, hf, hid⟩ := h.files x hx
      have hin := hbelow x hx hxs
      have htarget := lookup_map (f := notePath) (g := fun n => notePath (remap src dst n))
        (List.mem_filter.mpr ⟨hx, hxs⟩) fun b hb hpath =>
          congrArg (fun n => notePath (remap src dst n)) (h.path (List.mem_of_mem_filter hb) hx hpath)
      exact ⟨_, (file_moveTree hd (isDir_of_file hf hin) hf).2 hin htarget, hid⟩
    · obtain ⟨f, hf, hid⟩ := h.files n hn
      refine ⟨f, ?_, hid⟩
      cases hdir : v.disk.isDir src with
      | true =>
        refine (file_moveTree (p := src) hd hdir hf).1 (Bool.eq_false_of_not_eq_true fun hin => ?_)
        rw [underFolder_of_below ((inTree_notePath (h.folders n hn) hsrc).mp hin)] at hns
        cases hns
      | false => exact file_moveTree_of_not hd hdir hf (hfile n hn)

theorem Owned.moveFolder {src dst tmp : Text} {sourceIds : List String} (h : Owned env v)
    (hok : env.moveFolder v src dst tmp sourceIds = .ok v')
    (hfile : ∀ n ∈ v.notes, normalizeFolder src ≠ some (notePath n)) : Owned env v' := by
  obtain ⟨src', hsrc, hok⟩ := bind_ok hok
  obtain ⟨dst', hdst, hok⟩ := bind_ok hok
  have hsome : normalizeFolder src = some src' := normalizedFolder_some (mapError_ok hsrc)
  split at hok
  · cases hok
  rename_i hroot
  split at hok
  · cases hok
    exact h
  split at hok
  · cases hok
  dsimp only at hok
  split at hok
  · cases hok
  split at hok
  · cases hok
  split at hok
  · cases hok
  rename_i hconflicts
  split at hok
  · cases hok
  rename_i hbelow
  obtain ⟨disk, hdisk, hok⟩ := bind_ok hok
  obtain ⟨after, hafter, hok⟩ := bind_ok hok
  cases hok
  have howned : Owned env ⟨v.rows.moveUnder src' dst', disk⟩ := by
    refine h.moveUnder (normalized_of_ok (mapError_ok hdst)) hroot (fun n hn hsel => ?_) hconflicts
      (fun n hn hpath => hfile n hn (hpath ▸ hsome)) (mapError_ok hdisk)
    have hnot := List.find?_eq_none.mp hbelow n (List.mem_filter.mpr ⟨hn, hsel⟩)
    simpa using hnot
  exact (howned.changeFiles hafter).disk fun p => file_removeEmptyTree

theorem run_owned {op : VaultOp} (h : Owned env v) (hop : FolderMoved v op)
    (hok : env.run v op = .ok v') : Owned env v' := by
  cases op with
  | save noteId new => exact h.save hok
  | saveMany items => exact h.saveMany hok
  | update noteId title folder tags edit sourceIds => exact h.update hok
  | editMany items => exact h.editMany hok
  | move noteId folder sourceIds => exact h.move hok
  | moveFolder src dst tmp sourceIds => exact h.moveFolder hok hop
  | changeTags noteId mutate => exact h.changeTags hok
  | renameTag old new sourceIds => exact h.changeFiles hok
  | delete noteId => exact h.delete hok
  | deleteMany noteIds => exact h.deleteMany hok

theorem reach_owned (h : (vault env).Reach FolderMoved v) : Owned env v := by
  refine h.inv (fun v hv => ?_) fun v op v' _ hinv hop hnext => ?_
  · cases hv
    exact ⟨fun _ hn => (nomatch hn), fun _ hn => (nomatch hn), fun _ hn => (nomatch hn)⟩
  · have hok : env.run v op = .ok v' := by
      cases hrun : env.run v op with
      | error e =>
        rw [show (vault env).next v op = (env.run v op).toOption from rfl, hrun] at hnext
        cases hnext
      | ok w =>
        rw [show (vault env).next v op = (env.run v op).toOption from rfl, hrun] at hnext
        cases hnext
        rfl
    exact run_owned hinv hop hok

/-- The notes have different keys and normalised folders; each one's file is at its path, with its
id. -/
structure PathOwnership (env : VaultEnv) (v : Vault) : Prop where
  distinct : ∀ n ∈ v.notes, ∀ m ∈ v.notes, n.noteId ≠ m.noteId →
    env.pathConflictKey n ≠ env.pathConflictKey m
  folders : ∀ n ∈ v.notes, ∃ raw, normalizeFolder raw = some n.folder
  files : ∀ n ∈ v.notes, ∃ f, v.disk.file (notePath n) = some f ∧ f.noteId = some n.noteId

/-- **Path ownership** holds in the runs in which `move_folder` is given no note's file. -/
theorem paths_owned (h : (vault env).Reach FolderMoved v) : PathOwnership env v where
  distinct n hn m hm hid hkey := hid (congrArg IndexedNote.noteId ((reach_owned h).keys n hn m hm hkey))
  folders := (reach_owned h).folders
  files := (reach_owned h).files

end

/-! ## two runs -/

instance decidableFolderMoved (v : Vault) : (op : VaultOp) → Decidable (FolderMoved v op)
  | .moveFolder src _ _ _ =>
    inferInstanceAs (Decidable (∀ n ∈ v.notes, normalizeFolder src ≠ some (notePath n)))
  | .save .. | .saveMany .. | .update .. | .editMany .. | .move .. | .changeTags .. | .renameTag ..
  | .delete .. | .deleteMany .. => inferInstanceAs (Decidable True)

/-- A workspace in which no body links to another note. -/
def plainEnv : VaultEnv where
  casefold := List.map Char.toLower
  extractWikilinks := fun _ => []
  wsPath := "/workspaces/u/w".toList
  linkValidation := true
  normalizeTags := id
  rewriteInlineTags := fun _ body => body
  rewriteBody := fun _ _ _ _ => none

def plainNote (title folder : String) : NewNote := ⟨title.toList, [], [], folder.toList⟩

/-- Notes that share a key after a sanitised title are kept apart; a folder moves below another. -/
theorem paths_owned_moved : ∃ v : Vault, v.notes = [⟨"n1", "b/x".toList, "Plan?".toList⟩,
    ⟨"n2", "y".toList, "Plan".toList⟩] ∧ PathOwnership plainEnv v := by
  obtain ⟨v, hv, hnotes⟩ := Option.map_eq_some_iff.mp (show ((vault plainEnv).exec Vault.empty
    [.save "n1" (plainNote "Plan?" "x"),
      .saveMany [("n2", plainNote "Plan" "y"), ("n3", plainNote "plan" "y")],
      .moveFolder "x".toList "b/x".toList ".kajet-move-0".toList []]).map Vault.notes =
        some [⟨"n1", "b/x".toList, "Plan?".toList⟩, ⟨"n2", "y".toList, "Plan".toList⟩] by decide +kernel)
  exact ⟨v, hnotes, paths_owned (.of_guarded (.start rfl) (by decide +kernel) hv)⟩

/-- `move_folder` is given the file of a note: it leaves it under the temporary name. -/
theorem paths_lost : ∃ v : Vault, (vault plainEnv).Reach free v ∧ ¬ PathOwnership plainEnv v := by
  obtain ⟨v, hv, hview⟩ := Option.map_eq_some_iff.mp (show ((vault plainEnv).exec Vault.empty
    [.save "n1" (plainNote "a" ""), .moveFolder "a.md".toList "b".toList ".kajet-move-0".toList []]).map
      (fun v => decide (v.notes = [⟨"n1", [], "a".toList⟩] ∧ v.disk.file "a.md".toList = none)) =
        some true by decide +kernel)
  obtain ⟨hnotes, hgone⟩ := of_decide_eq_true hview
  refine ⟨v, .of_exec (.start rfl) hv, fun howned => ?_⟩
  obtain ⟨f, hf, _⟩ := howned.files ⟨"n1", [], "a".toList⟩ (hnotes ▸ List.mem_singleton_self _)
  have hpath : notePath ⟨"n1", [], "a".toList⟩ = "a.md".toList := by decide +kernel
  rw [hpath, hgone] at hf
  cases hf

end Kajet.Paths
