import Kajet.Paths.Own

/-!
# Room for a new note

* `Tidy`            the disk has the files of the notes, and the directories on the way to them;
* `InTheWay`        a note that has the path of another one, or whose file is above it or below it;
* `save_spec`       what `save` does when it goes through;
* `save_total`      it goes through when the note is new and nothing is in the way.
-/

namespace Kajet.Paths
open Str Table Links Fallible

/-- Only notes are on the disk. -/
structure Tidy (v : Vault) : Prop where
  files : ∀ f ∈ v.disk.files, ∃ n ∈ v.notes, f.path = notePath n
  dirs : ∀ dir ∈ v.disk.dirs, ∃ n ∈ v.notes, inTree dir (notePath n) = true

/-- `m` has the path of `n`, or a path above or below it. -/
def InTheWay (env : VaultEnv) (m n : IndexedNote) : Prop :=
  env.pathConflictKey m = env.pathConflictKey n ∨ inTree (notePath m) (notePath n) = true ∨
    inTree (notePath n) (notePath m) = true

section
variable {env : VaultEnv} {v v' : Vault} {m n : IndexedNote} {dir path folder : Text} {noteId : String} {new : NewNote}

/-! ## paths -/

theorem segments_notePath (n : IndexedNote) : Tags.Segments
    ((pathSegments n.folder).filter (· ≠ ['.']) ++ [titleToWindowsFilename n.title ++ ".md".toList]) := by
  intro p hp
  rcases List.mem_append.mp hp with hp | hp
  · obtain ⟨hsplit, hne⟩ := List.mem_filter.mp (List.mem_filter.mp hp).1
    exact ⟨of_decide_eq_true hne, notMem_of_mem_split hsplit⟩
  · rw [List.mem_singleton.mp hp]
    exact ⟨List.append_ne_nil_of_right_ne_nil _ (by decide +kernel), notMem_filename n.title⟩

/-- The directories on the way to a note. -/
theorem inTree_of_mem_parents (h : dir ∈ parents (notePath n)) : inTree dir (notePath n) = true := by
  have hsegs := Tags.pathSegments_join (segments_notePath n)
  have hpath : notePath n = join '/' (pathSegments (notePath n)) := congrArg (join '/') hsegs.symm
  unfold parents at h
  dsimp only at h
  obtain ⟨i, hi, rfl⟩ := List.mem_map.mp h
  have hi := List.mem_range.mp hi
  refine inTree_iff.mpr ⟨join '/' ((pathSegments (notePath n)).drop (i + 1)), ?_⟩
  rw [← join_append, List.take_append_drop]
  · exact hpath
  · exact List.ne_nil_of_length_pos (by rw [List.length_take]; omega)
  · exact List.ne_nil_of_length_pos (by rw [List.length_drop]; omega)

theorem inTree_length (h : inTree dir path = true) : dir.length < path.length := by
  obtain ⟨r, rfl⟩ := inTree_iff.mp h
  rw [List.length_append, List.length_cons]
  omega

/-- A path that is not free is that of a note, or of a directory with one in it. -/
theorem Tidy.has (h : Tidy v) (hhas : v.disk.has path = true) :
    ∃ m ∈ v.notes, path = notePath m ∨ inTree path (notePath m) = true := by
  rw [Disk.has, Bool.or_eq_true] at hhas
  rcases hhas with hfile | hdir
  · obtain ⟨f, hf⟩ := Option.isSome_iff_exists.mp hfile
    obtain ⟨hmem, rfl⟩ := row_some hf
    obtain ⟨m, hm, hpath⟩ := h.files f hmem
    exact ⟨m, hm, .inl hpath⟩
  · rw [Disk.isDir, Bool.or_eq_true] at hdir
    rcases hdir with hdir | hbelow
    · obtain ⟨m, hm, hin⟩ := h.dirs path (of_decide_eq_true hdir)
      exact ⟨m, hm, .inr hin⟩
    · obtain ⟨f, hf, hin⟩ := List.any_eq_true.mp hbelow
      obtain ⟨m, hm, hpath⟩ := h.files f hf
      exact ⟨m, hm, .inr (hpath ▸ hin)⟩

/-! ## saving -/

/-- The note that is saved. -/
theorem save_spec (hok : env.save v noteId new = .ok v') : ∃ folder, normalizeFolder new.folder = some folder ∧
    v'.notes = v.notes ++ [⟨noteId, folder, new.title⟩] ∧ (∀ m ∈ v.notes, m.noteId ≠ noteId) ∧
    v.disk.write (stamp ⟨noteId, folder, new.title⟩ (env.normalizeTags new.tags) new.content) = .ok v'.disk := by
  obtain ⟨draft, hdraft, hok⟩ := bind_ok hok
  obtain ⟨_, -, hok⟩ := bind_ok hok
  obtain ⟨_, -, hok⟩ := bind_ok hok
  obtain ⟨folder, hfolder, hdraft⟩ := bind_ok hdraft
  cases hdraft
  unfold Vault.add at hok
  split at hok
  · cases hok
  rename_i rows hrows
  obtain ⟨hnotes, hids⟩ := insertAll_ok hrows
  obtain ⟨disk, hdisk, hok⟩ := bind_ok hok
  cases hok
  obtain ⟨written, hwritten, hrest⟩ := bind_ok (mapError_ok hdisk)
  cases hrest
  exact ⟨folder, normalizedFolder_some (mapError_ok hfolder), hnotes, hids _ List.mem_cons_self, hwritten⟩

theorem Tidy.save (h : Tidy v) (hok : env.save v noteId new = .ok v') : Tidy v' := by
  obtain ⟨folder, -, hnotes, -, hwrite⟩ := save_spec hok
  obtain ⟨rows, disk⟩ := v'
  replace hnotes : rows.notes = v.notes ++ [⟨noteId, folder, new.title⟩] := hnotes
  obtain ⟨d, hd, hwrite⟩ := bind_ok hwrite
  have hold : ∀ m ∈ v.notes, m ∈ rows.notes := fun m hm => hnotes ▸ List.mem_append_left _ hm
  have hnew : ⟨noteId, folder, new.title⟩ ∈ rows.notes := hnotes ▸ List.mem_append_right _ List.mem_cons_self
  have hdirs : ∀ dir ∈ d.dirs, dir ∈ v.disk.dirs ∨ dir ∈ parents (notePath ⟨noteId, folder, new.title⟩) := by
    unfold Disk.makeParents at hd
    split at hd
    · cases hd
    · cases hd
      intro dir hdir
      exact (List.mem_append.mp hdir).imp id fun hmem => (List.mem_filter.mp hmem).1
  split at hwrite
  · cases hwrite
  · cases hwrite
    constructor
    · intro f hf
      rcases List.mem_cons.mp hf with rfl | hf
      · exact ⟨_, hnew, rfl⟩
      · have hmem := (mem_deleteWhere.mp hf).1
        rw [file_makeParents hd] at hmem
        obtain ⟨m, hm, hpath⟩ := h.files f hmem
        exact ⟨m, hold m hm, hpath⟩
    · intro dir hdir
      rcases hdirs dir hdir with hdir | hdir
      · obtain ⟨m, hm, hin⟩ := h.dirs dir hdir
        exact ⟨m, hold m hm, hin⟩
      · exact ⟨_, hnew, inTree_of_mem_parents hdir⟩

theorem write_total {f : NoteFile} {d : Disk} (hpath : f.path = notePath n)
    (habove : ∀ g ∈ d.files, inTree g.path f.path = false) (hfree : d.has f.path = false) :
    ∃ d', d.write f = .ok d' := by
  have hparents : d.makeParents f.path = .ok { d with dirs := d.dirs ++ (parents f.path).filter (· ∉ d.dirs) } := by
    unfold Disk.makeParents
    split
    · rename_i g hg
      have hin := List.find?_some hg
      rw [habove g (List.mem_of_find?_eq_some hg)] at hin
      cases hin
    · rfl
  have hdir : ({ d with dirs := d.dirs ++ (parents f.path).filter (· ∉ d.dirs) } : Disk).isDir f.path = false := by
    rw [Disk.has, Bool.or_eq_false_iff, Disk.isDir, Bool.or_eq_false_iff] at hfree
    rw [Disk.isDir, Bool.or_eq_false_iff]
    refine ⟨decide_eq_false fun hmem => ?_, hfree.2.2⟩
    rcases List.mem_append.mp hmem with hmem | hmem
    · exact of_decide_eq_false hfree.2.1 hmem
    · have hmem := (List.mem_filter.mp hmem).1
      rw [hpath] at hmem
      exact Nat.lt_irrefl _ (inTree_length (inTree_of_mem_parents hmem))
  unfold Disk.write
  rw [hparents]
  exact ⟨_, if_neg (by rw [hdir]; exact Bool.false_ne_true)⟩

/-- **A new note with room** is saved. -/
theorem save_total (h : Tidy v) (hfolder : normalizeFolder new.folder = some folder)
    (hlinks : env.extractWikilinks new.content = []) (hid : ∀ m ∈ v.notes, m.noteId ≠ noteId)
    (hroom : ∀ m ∈ v.notes, ¬ InTheWay env m ⟨noteId, folder, new.title⟩) :
    ∃ v', env.save v noteId new = .ok v' ∧ v'.notes = v.notes ++ [⟨noteId, folder, new.title⟩] := by
  let note : IndexedNote := ⟨noteId, folder, new.title⟩
  let draft : Draft := ⟨note, env.normalizeTags new.tags, new.content⟩
  have hbuild : env.build noteId new = .ok draft := by
    unfold VaultEnv.build normalizedFolder
    rw [hfolder]
    rfl
  have hconflict : env.notePathConflict v.notes note = none := List.find?_eq_none.mpr fun m hm hkey =>
    hroom m hm (.inl (of_decide_eq_true hkey).2)
  have hfree : v.disk.has (notePath note) = false := Bool.eq_false_of_not_eq_true fun hhas => by
    obtain ⟨m, hm, hpath | hin⟩ := h.has hhas
    · exact hroom m hm (.inl (congrArg (fun path => env.casefold (env.wsPath ++ '/' :: path)) hpath.symm))
    · exact hroom m hm (.inr (.inr hin))
  have habove : ∀ g ∈ v.disk.files, inTree g.path (notePath note) = false := fun g hg =>
    Bool.eq_false_of_not_eq_true fun hin => by
      obtain ⟨m, hm, hpath⟩ := h.files g hg
      exact hroom m hm (.inr (.inl (hpath ▸ hin)))
  have hensure : ensurePathFree v draft none = .ok () := if_neg (by rw [hfree]; exact Bool.false_ne_true)
  have hbroken : (resolveContentLinks env.casefold env.extractWikilinks v.notes new.content folder).broken = [] := by
    unfold resolveContentLinks pathTargets
    rw [hlinks]
    rfl
  have hvalid : env.validate v.notes new.content folder = .ok () := if_neg fun hboth => hboth.1 hbroken
  obtain ⟨d, hd⟩ := write_total (n := note) (f := draft.file) (d := v.disk) rfl habove hfree
  have hadd : v.add [draft] = .ok ⟨⟨v.notes ++ [note], v.rows.ids.append hid⟩, d⟩ := by
    have hinsert : v.rows.insertAll [note] = some ⟨v.notes ++ [note], v.rows.ids.append hid⟩ := by
      unfold Rows.insertAll Rows.insert
      rw [dif_pos hid]
      rfl
    have hnotes : [draft].map (·.note) = [note] := rfl
    have hwrite : Disk.writeAll ([draft].map (·.file)) v.disk = .ok d := by
      unfold Disk.writeAll
      exact (bind_of_ok hd).trans rfl
    unfold Vault.add Vault.writeFiles
    rw [hnotes, hinsert]
    dsimp only
    rw [hwrite]
    rfl
  refine ⟨⟨⟨v.notes ++ [note], v.rows.ids.append hid⟩, d⟩, ?_, rfl⟩
  unfold VaultEnv.save
  have hensure : ensurePathFree v draft (env.notePathConflict v.notes draft.note) = .ok () := hconflict ▸ hensure
  have hvalid : env.validate v.notes draft.content draft.note.folder = .ok () := hvalid
  rw [bind_of_ok hbuild, bind_of_ok hensure, bind_of_ok hvalid]
  exact hadd

end

end Kajet.Paths
