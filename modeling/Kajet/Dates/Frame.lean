import Kajet.Dates.Workspace
import Kajet.Reindex.Written

/-!
# Dates survive edits that are not about them

* `Reads`             what was read is the row and the file of the note;
* `prepare_reads`, `prepare_nodup`, `prepare_path`, `prepare_dates`   what every edit prepares;
* `Lost`              a date of the row that the file has a value for that does not parse;
* `dates_kept_iff`    only a renamed tag loses such a date.
-/

namespace Kajet.Dates
open Str Rank Table Links Frontmatter Reindex Fallible

variable {v : Services} {s s' : State} {n : Note} {p q : Prepared} {ps : List Prepared} {e : Edit}

/-! ## what was read -/

structure Reads (s : State) (p : Prepared) : Prop where
  mem : p.note ∈ s.notes.rows
  file : ∃ m content, s.files.read (pathOf p.note) = some (.post m content) ∧ p.found = parseFrontmatter m
  key : p.row.noteId = p.note.noteId ∧ p.row.workspace = p.note.workspace ∧ p.row.ownerId = p.note.ownerId

theorem get_ok {noteId : String} (h : v.get s noteId = .ok n) :
    n ∈ s.notes.rows ∧ n.noteId = noteId ∧ n.ownerId = v.ownerId := by
  unfold Services.get at h
  split at h
  · rename_i x hx
    cases h
    have hp := List.find?_some hx
    simp only [Bool.and_eq_true, decide_eq_true_eq] at hp
    exact ⟨List.mem_of_find?_eq_some hx, hp⟩
  · cases h

theorem readNoteFile_ok {file : NoteFrontmatter × Text} (h : readNoteFile s n = .ok file) :
    ∃ m content, s.files.read (pathOf n) = some (.post m content) ∧ file.1 = parseFrontmatter m := by
  unfold readNoteFile at h
  split at h
  · cases h
  · cases h
  · rename_i m content hread
    cases h
    exact ⟨m, content, hread, rfl⟩

theorem replaced_ok {t temporal : Temporal} {dates : Option Text × Option Text}
    (h : replaced t dates = .ok temporal) : (temporal.occurredAt, temporal.period) = dates := by
  obtain ⟨ho, hp, -⟩ := Temporal.make_ok (mapError_ok h)
  exact Prod.ext ho hp

theorem resolve_unchanged {d : DateArgs} {fallback : Option Text × Option Text} (h : d.unchanged = true) :
    d.resolve fallback = .ok fallback := by
  obtain ⟨o, period, clear⟩ := d
  simp only [DateArgs.unchanged, Bool.and_eq_true, Bool.not_eq_true', Option.isNone_iff_eq_none] at h
  obtain ⟨⟨rfl, rfl⟩, rfl⟩ := h
  rfl

/-- What an edit that is not about dates writes as dates. -/
structure Merges (p : Prepared) : Prop where
  fm : (p.fm.temporal.occurredAt, p.fm.temporal.period) = p.merged
  row : (p.row.occurredAt, p.row.period) = p.merged

/-- The row gets the dates that the file gets. -/
def Agrees (p : Prepared) : Prop :=
  (p.row.occurredAt, p.row.period) = (p.fm.temporal.occurredAt, p.fm.temporal.period)

theorem Merges.of_agrees (h : Agrees p) (hfm : (p.fm.temporal.occurredAt, p.fm.temporal.period) = p.merged) :
    Merges p := ⟨hfm, h.trans hfm⟩

theorem prepareUpdate_ok {a : UpdateArgs} (h : v.prepareUpdate s a = .ok p) :
    Reads s p ∧ Agrees p ∧ (a.dates.unchanged = true → Merges p) := by
  obtain ⟨note, hnote, h⟩ := bind_ok h
  obtain ⟨folder, _, h⟩ := bind_ok h
  obtain ⟨dates, hdates, h⟩ := bind_ok h
  obtain ⟨_, _, h⟩ := bind_ok h
  obtain ⟨_, _, h⟩ := bind_ok h
  obtain ⟨_, _, h⟩ := bind_ok h
  obtain ⟨file, hfile, h⟩ := bind_ok h
  obtain ⟨content, _, h⟩ := bind_ok h
  obtain ⟨temporal, htemporal, h⟩ := bind_ok h
  obtain ⟨_, _, h⟩ := bind_ok h
  cases h
  have htemporal := replaced_ok htemporal
  refine ⟨⟨(get_ok hnote).1, readNoteFile_ok hfile, rfl, rfl, rfl⟩, htemporal.symm, fun hunchanged => ?_⟩
  have hresolve := mapError_ok hdates
  rw [resolve_unchanged hunchanged] at hresolve
  cases hresolve
  refine .of_agrees htemporal.symm ?_
  rw [if_pos hunchanged] at htemporal
  exact htemporal

theorem prepareEdit_ok {item : EditItem} {now : Text} {seen : List String}
    (h : v.prepareEdit s now seen item = .ok (some p)) :
    (Reads s p ∧ Agrees p ∧ (item.dates.unchanged = true → Merges p)) ∧ pathOf p.row = pathOf p.note ∧
      p.note.noteId = item.noteId ∧ item.noteId ∉ seen := by
  unfold Services.prepareEdit at h
  split at h
  · cases h
  rename_i note hnote
  split at h
  · cases h
  rename_i hchecks
  obtain ⟨file, hfile, h⟩ := bind_ok h
  split at h
  · cases h
  split at h
  · cases h
  rename_i content hcontent
  obtain ⟨tags, _, h⟩ := bind_ok h
  split at h
  · cases h
  rename_i dates hdates
  obtain ⟨temporal, htemporal, h⟩ := bind_ok h
  cases h
  have htemporal := replaced_ok htemporal
  have hnot : item.noteId ∉ seen := by
    simp only [Bool.or_eq_true, decide_eq_true_eq, not_or] at hchecks
    exact hchecks.1.1.2
  refine ⟨⟨⟨(get_ok hnote).1, readNoteFile_ok hfile, rfl, rfl, rfl⟩, htemporal.symm, fun hunchanged => ?_⟩, rfl,
    (get_ok hnote).2.1, hnot⟩
  rw [resolve_unchanged hunchanged] at hdates
  cases hdates
  exact .of_agrees htemporal.symm htemporal

theorem prepareTags_ok {noteId : String} {change : TagChange} {now : Text}
    (h : v.prepareTags s now noteId change = .ok (some p)) : Reads s p ∧ Agrees p ∧ Merges p := by
  obtain ⟨note, hnote, h⟩ := bind_ok h
  obtain ⟨_, _, h⟩ := bind_ok h
  obtain ⟨_, _, h⟩ := bind_ok h
  obtain ⟨file, hfile, h⟩ := bind_ok h
  obtain ⟨current, _, h⟩ := bind_ok h
  dsimp only at h
  split at h
  · cases h
  obtain ⟨temporal, htemporal, h⟩ := bind_ok h
  cases h
  have htemporal := replaced_ok htemporal
  exact ⟨⟨(get_ok hnote).1, readNoteFile_ok hfile, rfl, rfl, rfl⟩, htemporal.symm, .of_agrees htemporal.symm htemporal⟩

/-- A renamed tag takes the dates of the file as they are. -/
theorem prepareRenameTag_ok {old new now : Text} (hn : n ∈ s.notes.rows)
    (h : v.prepareRenameTag s now old new n = .ok (some p)) :
    p.note = n ∧ Reads s p ∧ Agrees p ∧ pathOf p.row = pathOf p.note ∧ p.fm.temporal = p.found.temporal := by
  unfold Services.prepareRenameTag at h
  split at h
  · obtain ⟨file, hfile, h⟩ := bind_ok h
    obtain ⟨tags, _, h⟩ := bind_ok h
    dsimp only at h
    split at h
    · cases h
      exact ⟨rfl, ⟨hn, readNoteFile_ok hfile, rfl, rfl, rfl⟩, rfl, rfl, rfl⟩
    · cases h
  · cases h

theorem prepareBacklink_ok {rewrite : Note → Text → Option Text} (hn : n ∈ s.notes.rows)
    (h : prepareBacklink s rewrite n = .ok (some p)) :
    p.note = n ∧ Reads s p ∧ p.row = p.note ∧ (p.fm.temporal.occurredAt, p.fm.temporal.period) = p.merged := by
  unfold prepareBacklink at h
  split at h
  · obtain ⟨file, hfile, h⟩ := bind_ok h
    split at h
    · cases h
    · obtain ⟨temporal, htemporal, h⟩ := bind_ok h
      cases h
      exact ⟨rfl, ⟨hn, readNoteFile_ok hfile, rfl, rfl, rfl⟩, rfl, replaced_ok htemporal⟩
  · cases h

theorem prepareBackfill_ok {item : BackfillItem} (h : v.prepareBackfill s item = .ok p) :
    Reads s p ∧ Agrees p ∧ pathOf p.row = pathOf p.note ∧ p.note.noteId = item.noteId := by
  obtain ⟨note, hnote, h⟩ := bind_ok h
  obtain ⟨_, _, h⟩ := bind_ok h
  obtain ⟨_, _, h⟩ := bind_ok h
  obtain ⟨file, hfile, h⟩ := bind_ok h
  obtain ⟨temporal, htemporal, h⟩ := bind_ok h
  cases h
  have hnote := get_ok (mapError_ok hnote)
  exact ⟨⟨hnote.1, readNoteFile_ok hfile, rfl, rfl, rfl⟩, (replaced_ok htemporal).symm, rfl, hnote.2.1⟩

theorem prepareEdits_ok {items : List EditItem} {now : Text} {seen : List String} {rs : List (Option Prepared)}
    (h : v.prepareEdits s now seen items = .ok rs) :
    (∀ p ∈ rs.filterMap id, p.note.noteId ∉ seen ∧ ∃ item ∈ items, p.note.noteId = item.noteId ∧
      (Reads s p ∧ Agrees p ∧ (item.dates.unchanged = true → Merges p)) ∧ pathOf p.row = pathOf p.note) ∧
    ((rs.filterMap id).map fun p => p.note.noteId).Nodup := by
  induction items generalizing seen rs with
  | nil =>
    cases h
    exact ⟨fun p hp => (nomatch hp), List.nodup_nil⟩
  | cons item items ih =>
    obtain ⟨r, hr, h⟩ := bind_ok h
    obtain ⟨rest, hrest, h⟩ := bind_ok h
    cases h
    obtain ⟨hread, hnodup⟩ := ih hrest
    have hrest : ∀ p ∈ rest.filterMap id, p.note.noteId ∉ seen ∧ ∃ i ∈ item :: items, p.note.noteId = i.noteId ∧
        (Reads s p ∧ Agrees p ∧ (i.dates.unchanged = true → Merges p)) ∧ pathOf p.row = pathOf p.note := by
      intro p hp
      obtain ⟨hseen, i, hi, hp⟩ := hread p hp
      exact ⟨fun h => hseen (List.mem_cons_of_mem _ h), i, List.mem_cons_of_mem _ hi, hp⟩
    cases r with
    | none => exact ⟨hrest, hnodup⟩
    | some p =>
      obtain ⟨hp, hpath, hid, hseen⟩ := prepareEdit_ok hr
      constructor
      · intro q hq
        rcases List.mem_cons.mp hq with rfl | hq
        · exact ⟨hid ▸ hseen, item, List.mem_cons_self, hid, hp, hpath⟩
        · exact hrest q hq
      · refine List.nodup_cons.mpr ⟨fun hmem => ?_, hnodup⟩
        obtain ⟨q, hq, hqid⟩ := List.mem_map.mp hmem
        have hqid : q.note.noteId = item.noteId := hqid.trans hid
        exact (hread q hq).1 (hqid ▸ List.mem_cons_self)

/-! ## what is written -/

/-- The note was given no date. -/
def Edit.dateless (noteId : String) : Edit → Bool
  | .update a => a.dates.unchanged
  | .editMany items _ => items.all fun item => item.noteId ≠ noteId || item.dates.unchanged
  | .changeTags .. | .renameTag .. | .rewriteBacklinks .. => true
  | .backfill _ => false

def Edit.isRenameTag : Edit → Bool
  | .renameTag .. => true
  | _ => false

/-- The row's dates are among the columns that are written. -/
def Edit.writesDates : Edit → Bool
  | .rewriteBacklinks .. => false
  | _ => true

structure Prepares (s : State) (e : Edit) (ps : List Prepared) : Prop where
  reads : ∀ p ∈ ps, Reads s p
  nodup : (ps.map fun p => p.note.noteId).Nodup
  path : (∃ p, ps = [p]) ∨ ∀ p ∈ ps, pathOf p.row = pathOf p.note
  agrees : e.writesDates = true → ∀ p ∈ ps, Agrees p
  kept : e.writesDates = false → ∀ p ∈ ps, p.row = p.note
  merged : e.isRenameTag = false → ∀ p ∈ ps, e.dateless p.note.noteId = true →
    (p.fm.temporal.occurredAt, p.fm.temporal.period) = p.merged
  found : e.isRenameTag = true → ∀ p ∈ ps, p.fm.temporal = p.found.temporal

/-- The notes of a query, prepared one by one. -/
theorem mapM_filterMap {f : Note → Except Refusal (Option Prepared)} {ns : List Note} {rs : List (Option Prepared)}
    (hns : Keyed (fun n : Note => n.noteId) ns) (hf : ∀ n ∈ ns, ∀ p, f n = .ok (some p) → p.note = n)
    (h : ns.mapM f = .ok rs) : (∀ p ∈ rs.filterMap id, ∃ n ∈ ns, f n = .ok (some p)) ∧
      ((rs.filterMap id).map fun p => p.note.noteId).Nodup := by
  have hall := mapM_ok h
  clear h
  induction hall with
  | nil => exact ⟨fun p hp => (nomatch hp), List.nodup_nil⟩
  | @cons n r ns rs hr hall ih =>
    obtain ⟨hn, hns⟩ := uniqueOn_cons.mp hns
    obtain ⟨hread, hnodup⟩ := ih hns fun x hx => hf x (List.mem_cons_of_mem n hx)
    have hrest : ∀ p ∈ rs.filterMap id, ∃ x ∈ n :: ns, f x = .ok (some p) := fun p hp => by
      obtain ⟨x, hx, hp⟩ := hread p hp
      exact ⟨x, List.mem_cons_of_mem n hx, hp⟩
    cases r with
    | none => exact ⟨hrest, hnodup⟩
    | some p =>
      have hpn := hf n List.mem_cons_self p hr
      constructor
      · intro q hq
        rcases List.mem_cons.mp hq with rfl | hq
        · exact ⟨n, List.mem_cons_self, hr⟩
        · exact hrest q hq
      · refine List.nodup_cons.mpr ⟨fun hmem => ?_, hnodup⟩
        obtain ⟨q, hq, hqid⟩ := List.mem_map.mp hmem
        obtain ⟨x, hx, hxq⟩ := hread q hq
        have hqid : q.note.noteId = p.note.noteId := hqid
        rw [hpn, hf x (List.mem_cons_of_mem n hx) q hxq] at hqid
        exact hn _ rfl x hx (congrArg some hqid)

/-! ## the commit -/

/-- The rows after the commit. -/
theorem mem_writeAll (hreads : ∀ p ∈ ps, p.note ∈ s.notes.rows ∧ p.row.noteId = p.note.noteId ∧
      p.row.workspace = p.note.workspace ∧ p.row.ownerId = p.note.ownerId)
    (hnodup : (ps.map fun p => p.note.noteId).Nodup) : n ∈ (writeAll s ps).notes.rows ↔
      (∃ p ∈ ps, n = p.row) ∨ (n ∈ s.notes.rows ∧ ∀ p ∈ ps, p.note.noteId ≠ n.noteId) := by
  induction ps generalizing s with
  | nil => simp [writeAll]
  | cons p ps ih =>
    obtain ⟨hp, hkey⟩ := hreads p List.mem_cons_self
    obtain ⟨hnot, hnodup⟩ := List.nodup_cons.mp hnodup
    have hmem : ∀ n, n ∈ (write s p).notes.rows ↔ n = p.row ∨ (n ∈ s.notes.rows ∧ p.note.noteId ≠ n.noteId) :=
      fun n => Notes.mem_update p.row hp hkey
    have hne : ∀ q ∈ ps, p.note.noteId ≠ q.note.noteId := fun q hq heq =>
      hnot (List.mem_map.mpr ⟨q, hq, heq.symm⟩)
    have hrest : ∀ q ∈ ps, q.note ∈ (write s p).notes.rows ∧ q.row.noteId = q.note.noteId ∧
        q.row.workspace = q.note.workspace ∧ q.row.ownerId = q.note.ownerId := fun q hq =>
      ⟨(hmem _).mpr (.inr ⟨(hreads q (List.mem_cons_of_mem p hq)).1, hne q hq⟩),
        (hreads q (List.mem_cons_of_mem p hq)).2⟩
    refine (ih hrest hnodup).trans ?_
    rw [hmem]
    constructor
    · rintro (⟨q, hq, rfl⟩ | ⟨rfl | ⟨hn, hpn⟩, hall⟩)
      · exact .inl ⟨q, List.mem_cons_of_mem p hq, rfl⟩
      · exact .inl ⟨p, List.mem_cons_self, rfl⟩
      · exact .inr ⟨hn, List.forall_mem_cons.mpr ⟨hpn, hall⟩⟩
    · rintro (⟨q, hq, rfl⟩ | ⟨hn, hall⟩)
      · rcases List.mem_cons.mp hq with rfl | hq
        · refine .inr ⟨.inl rfl, fun r hr heq => hne r hr ?_⟩
          rw [heq, hkey.1]
        · exact .inl ⟨q, hq, rfl⟩
      · obtain ⟨hpn, hall⟩ := List.forall_mem_cons.mp hall
        exact .inr ⟨.inr ⟨hn, hpn⟩, hall⟩

/-- No other note of the call is in the file. -/
def Alone (ps : List Prepared) (p : Prepared) : Prop :=
  ∀ q ∈ ps, pathOf q.note = pathOf p.note → q.note.noteId = p.note.noteId

theorem read_write {path : Text} : (write s p).files.read path = if path = pathOf p.row then
    some (.post p.fm.written p.content) else if path = pathOf p.note then none else s.files.read path := by
  show Files.read (Files.put _ _ _) path = _
  rw [Files.read_put, Files.read_remove]

/-- The file of a note after the commit. -/
theorem read_writeAll (hpath : ∀ p ∈ ps, pathOf p.row = pathOf p.note)
    (hnodup : (ps.map fun p => p.note.noteId).Nodup) (hp : p ∈ ps) (halone : Alone ps p) :
    (writeAll s ps).files.read (pathOf p.row) = some (.post p.fm.written p.content) := by
  have hother : ∀ (qs : List Prepared) (s : State), (∀ q ∈ qs, pathOf q.row = pathOf q.note) →
      (∀ q ∈ qs, pathOf q.note ≠ pathOf p.row) →
      (writeAll s qs).files.read (pathOf p.row) = s.files.read (pathOf p.row) := by
    intro qs
    induction qs with
    | nil => exact fun s _ _ => rfl
    | cons q qs ih =>
      intro s hpath hne
      have hq := hne q List.mem_cons_self
      have hwrite : (write s q).files.read (pathOf p.row) = s.files.read (pathOf p.row) := by
        rw [read_write, hpath q List.mem_cons_self, if_neg hq.symm, if_neg hq.symm]
      exact (ih (write s q) (fun r hr => hpath r (List.mem_cons_of_mem q hr))
        fun r hr => hne r (List.mem_cons_of_mem q hr)).trans hwrite
  obtain ⟨before, after, rfl⟩ := List.append_of_mem hp
  have hafter : ∀ q ∈ after, q ∈ before ++ p :: after := fun q hq =>
    List.mem_append_right _ (List.mem_cons_of_mem p hq)
  have hne : ∀ q ∈ after, pathOf q.note ≠ pathOf p.row := by
    intro q hq heq
    have hid := halone q (hafter q hq) (heq.trans (hpath p hp))
    rw [List.map_append, List.map_cons] at hnodup
    exact (List.nodup_cons.mp (List.nodup_append.mp hnodup).2.1).1 (hid ▸ List.mem_map.mpr ⟨q, hq, rfl⟩)
  rw [writeAll, List.foldl_append, List.foldl_cons]
  refine (hother after _ (fun q hq => hpath q (hafter q hq)) hne).trans ?_
  rw [read_write, if_pos rfl]

theorem getMany_keyed {noteIds : List String} : Keyed (fun n : Note => n.noteId) (v.getMany s noteIds) :=
  s.notes.ids.sublist (List.filter_sublist.filterMap _)

theorem prepare_ok (h : v.prepare s e = .ok ps) : Prepares s e ps := by
  cases e with
  | update a =>
    obtain ⟨p, hp, rfl⟩ := map_ok h
    obtain ⟨hreads, hagrees, hmerges⟩ := prepareUpdate_ok hp
    refine ⟨?_, List.nodup_singleton _, .inl ⟨p, rfl⟩, fun _ => ?_, fun h => (nomatch h), fun _ => ?_, fun h => (nomatch h)⟩
    · exact fun q hq => List.mem_singleton.mp hq ▸ hreads
    · exact fun q hq => List.mem_singleton.mp hq ▸ hagrees
    · intro q hq hdateless
      rw [List.mem_singleton.mp hq]
      exact (hmerges hdateless).fm
  | editMany items now =>
    obtain ⟨_, _, h⟩ := bind_ok h
    obtain ⟨rs, hrs, h⟩ := bind_ok h
    obtain ⟨_, _, h⟩ := bind_ok h
    cases h
    obtain ⟨hread, hnodup⟩ := prepareEdits_ok hrs
    refine ⟨?_, hnodup, .inr ?_, fun _ => ?_, fun h => (nomatch h), fun _ => ?_, fun h => (nomatch h)⟩
    · intro p hp
      obtain ⟨-, item, -, -, ⟨hreads, -⟩, -⟩ := hread p hp
      exact hreads
    · intro p hp
      obtain ⟨-, item, -, -, -, hpath⟩ := hread p hp
      exact hpath
    · intro p hp
      obtain ⟨-, item, -, -, ⟨-, hagrees, -⟩, -⟩ := hread p hp
      exact hagrees
    · intro p hp hdateless
      obtain ⟨-, item, hitem, hid, ⟨-, -, hmerges⟩, -⟩ := hread p hp
      have hall := List.all_eq_true.mp hdateless item hitem
      rw [← hid] at hall
      exact (hmerges (by simpa using hall)).fm
  | changeTags noteId change now =>
    obtain ⟨r, hr, rfl⟩ := map_ok h
    cases r with
    | none =>
      exact ⟨fun p hp => (nomatch hp), List.nodup_nil, .inr fun p hp => (nomatch hp), fun _ p hp => (nomatch hp),
        fun _ p hp => (nomatch hp), fun _ p hp => (nomatch hp), fun _ p hp => (nomatch hp)⟩
    | some p =>
      obtain ⟨hreads, hagrees, hmerges⟩ := prepareTags_ok hr
      refine ⟨?_, List.nodup_singleton _, .inl ⟨p, rfl⟩, fun _ => ?_, fun h => (nomatch h), fun _ => ?_,
        fun h => (nomatch h)⟩
      · exact fun q hq => List.mem_singleton.mp hq ▸ hreads
      · exact fun q hq => List.mem_singleton.mp hq ▸ hagrees
      · exact fun q hq _ => List.mem_singleton.mp hq ▸ hmerges.fm
  | renameTag noteIds old new now =>
    obtain ⟨rs, hrs, rfl⟩ := map_ok h
    have hmem : ∀ n ∈ v.getMany s noteIds, n ∈ s.notes.rows := fun n hn => (List.mem_filter.mp hn).1
    obtain ⟨hread, hnodup⟩ := mapM_filterMap getMany_keyed
      (fun n hn p hp => (prepareRenameTag_ok (hmem n hn) hp).1) hrs
    refine ⟨?_, hnodup, .inr ?_, fun _ => ?_, fun h => (nomatch h), fun h => (nomatch h), fun _ => ?_⟩
    · intro p hp
      obtain ⟨n, hn, hp⟩ := hread p hp
      exact (prepareRenameTag_ok (hmem n hn) hp).2.1
    · intro p hp
      obtain ⟨n, hn, hp⟩ := hread p hp
      exact (prepareRenameTag_ok (hmem n hn) hp).2.2.2.1
    · intro p hp
      obtain ⟨n, hn, hp⟩ := hread p hp
      exact (prepareRenameTag_ok (hmem n hn) hp).2.2.1
    · intro p hp
      obtain ⟨n, hn, hp⟩ := hread p hp
      exact (prepareRenameTag_ok (hmem n hn) hp).2.2.2.2
  | rewriteBacklinks noteIds rewrite =>
    obtain ⟨rs, hrs, rfl⟩ := map_ok h
    have hmem : ∀ n ∈ v.getMany s noteIds, n ∈ s.notes.rows := fun n hn => (List.mem_filter.mp hn).1
    obtain ⟨hread, hnodup⟩ := mapM_filterMap getMany_keyed
      (fun n hn p hp => (prepareBacklink_ok (hmem n hn) hp).1) hrs
    refine ⟨?_, hnodup, .inr ?_, fun h => (nomatch h), fun _ => ?_, fun _ => ?_, fun h => (nomatch h)⟩
    · intro p hp
      obtain ⟨n, hn, hp⟩ := hread p hp
      exact (prepareBacklink_ok (hmem n hn) hp).2.1
    · intro p hp
      obtain ⟨n, hn, hp⟩ := hread p hp
      rw [(prepareBacklink_ok (hmem n hn) hp).2.2.1]
    · intro p hp
      obtain ⟨n, hn, hp⟩ := hread p hp
      exact (prepareBacklink_ok (hmem n hn) hp).2.2.1
    · intro p hp _
      obtain ⟨n, hn, hp⟩ := hread p hp
      exact (prepareBacklink_ok (hmem n hn) hp).2.2.2
  | backfill items =>
    obtain ⟨_, hchecks, h⟩ := bind_ok h
    have hread : ∀ p ∈ ps, ∃ item ∈ items, v.prepareBackfill s item = .ok p := fun p hp => mem_of_mapM_ok h hp
    have hids : (items.map (·.noteId)).Nodup := by
      unfold refuse at hchecks
      split at hchecks
      · cases hchecks
      · rename_i hnot
        simp only [Bool.or_eq_true, not_or, Bool.not_eq_true', decide_eq_false_iff_not, not_not] at hnot
        exact hnot.2
    refine ⟨?_, ?_, .inr ?_, fun _ => ?_, fun h => (nomatch h), fun _ p _ hdateless => (nomatch hdateless),
      fun h => (nomatch h)⟩
    · intro p hp
      obtain ⟨item, -, hp⟩ := hread p hp
      exact (prepareBackfill_ok hp).1
    · refine List.pairwise_map.mpr (mapM_pairwise (List.pairwise_map.mp hids) ?_ h)
      intro i i' p p' hne hp hp' heq
      rw [(prepareBackfill_ok hp).2.2.2, (prepareBackfill_ok hp').2.2.2] at heq
      exact hne heq
    · intro p hp
      obtain ⟨item, -, hp⟩ := hread p hp
      exact (prepareBackfill_ok hp).2.2.1
    · intro p hp
      obtain ⟨item, -, hp⟩ := hread p hp
      exact (prepareBackfill_ok hp).2.1

/-! ## the frame -/

/-- The note has the merged dates: its row, where the call writes the dates of rows, and its file. -/
structure Kept (s' : State) (e : Edit) (ps : List Prepared) (p : Prepared) : Prop where
  row : e.writesDates = true → ∃ n ∈ s'.notes.rows, n.noteId = p.note.noteId ∧ (n.occurredAt, n.period) = p.merged
  file : Alone ps p → ∃ m content, s'.files.read (pathOf p.row) = some (.post m content) ∧
    ((parseFrontmatter m).temporal.occurredAt, (parseFrontmatter m).temporal.period) = p.merged

/-- The row has a date in a field where the file has a value that does not parse. -/
def Prepared.Lost (p : Prepared) : Prop :=
  (p.found.temporal.occurredAtDropped = true ∧ p.note.occurredAt.isSome) ∨
    (p.found.temporal.periodDropped = true ∧ p.note.period.isSome)

/-- A field that was dropped has no value. -/
theorem parseTemporal_dropped (o period : Yaml) :
    ((parseTemporal o period).occurredAtDropped = true → (parseTemporal o period).occurredAt = none) ∧
      ((parseTemporal o period).periodDropped = true → (parseTemporal o period).period = none) := by
  have hsoft : ∀ x : Except TemporalError (Option Text), (parseSoft x).2 = true → (parseSoft x).1 = none := by
    intro x h
    cases x with
    | ok f => cases h
    | error e => rfl
  unfold parseTemporal
  dsimp only
  split
  · rename_i t ht
    obtain ⟨ho, hp, hod, hpd⟩ := Temporal.make_ok ht
    rw [ho, hp, hod, hpd]
    exact ⟨hsoft _, hsoft _⟩
  · exact ⟨fun _ => rfl, fun _ => rfl⟩

/-- A field that was dropped is filled up when the row has a value. -/
theorem temporalOr_eq_self {t : Temporal} {o period : Option Text}
    (ho : t.occurredAtDropped = true → t.occurredAt = none) (hp : t.periodDropped = true → t.period = none) :
    (t.occurredAt, t.period) = t.temporalOr o period ↔
      ¬ ((t.occurredAtDropped = true ∧ o.isSome) ∨ (t.periodDropped = true ∧ period.isSome)) := by
  have hfield : ∀ (dropped : Bool) (f row : Option Text), (dropped = true → f = none) →
      (f = (if dropped then row else f) ↔ ¬ (dropped = true ∧ row.isSome = true)) := by
    intro dropped f row hf
    cases dropped with
    | false => simp
    | true =>
      rw [hf rfl]
      cases row <;> simp
  rw [Temporal.temporalOr, Prod.mk.injEq, hfield _ _ o ho, hfield _ _ period hp, not_or]

/-- The file's own dates are the merged ones when no date of the row is lost. -/
theorem merged_eq_found (h : Reads s p) :
    (p.found.temporal.occurredAt, p.found.temporal.period) = p.merged ↔ ¬ p.Lost := by
  obtain ⟨m, content, -, hfound⟩ := h.file
  obtain ⟨ho, hp⟩ := parseTemporal_dropped m.occurredAt m.period
  have htemporal : p.found.temporal = parseTemporal m.occurredAt m.period := by
    rw [hfound]
    rfl
  rw [← htemporal] at ho hp
  exact temporalOr_eq_self ho hp

theorem kept_of_fm (h : Prepares s e ps) (hp : p ∈ ps) (hfm : (p.fm.temporal.occurredAt, p.fm.temporal.period) = p.merged) :
    Kept (writeAll s ps) e ps p where
  row hwrites := by
    have hmem := (mem_writeAll (n := p.row) (fun q hq => ⟨(h.reads q hq).mem, (h.reads q hq).key⟩) h.nodup).mpr
      (.inl ⟨p, hp, rfl⟩)
    exact ⟨p.row, hmem, (h.reads p hp).key.1, (h.agrees hwrites p hp).trans hfm⟩
  file halone := by
    have hread : (writeAll s ps).files.read (pathOf p.row) = some (.post p.fm.written p.content) := by
      rcases h.path with ⟨q, rfl⟩ | hpath
      · obtain rfl := List.mem_singleton.mp hp
        show (write s p).files.read _ = _
        rw [read_write, if_pos rfl]
      · exact read_writeAll hpath h.nodup hp halone
    refine ⟨_, _, hread, ?_⟩
    rw [parse_written]
    exact hfm

/-- **Dates survive edits that are not about them.**  What a call reads is the row and the file of each
note; a note that was given no date keeps its dates, except that a renamed tag loses the dates of the row
that the file does not have. -/
theorem dates_kept_iff (h : v.run s (.edit e) = .ok s') : ∃ ps, v.prepare s e = .ok ps ∧ s' = writeAll s ps ∧
    (∀ p ∈ ps, Reads s p) ∧
    ((∀ p ∈ ps, e.dateless p.note.noteId = true → ¬ (p.merged.1.isSome ∧ p.merged.2.isSome) → Kept s' e ps p) ↔
      (e.isRenameTag = true → ∀ p ∈ ps, ¬ (p.merged.1.isSome ∧ p.merged.2.isSome) → ¬ p.Lost)) := by
  obtain ⟨ps, hps, rfl⟩ := map_ok h
  have hprep := prepare_ok hps
  refine ⟨ps, hps, rfl, hprep.reads, fun hall hrename p hp hone hlost => ?_, fun hcond p hp hdateless hone => ?_⟩
  · -- the row of a renamed tag has the dates of the file
    have hwrites : e.writesDates = true ∧ e.dateless p.note.noteId = true := by
      cases e <;> first | exact ⟨rfl, rfl⟩ | cases hrename
    obtain ⟨n, hn, hid, hdates⟩ := (hall p hp hwrites.2 hone).row hwrites.1
    have hrow : p.row ∈ (writeAll s ps).notes.rows :=
      (mem_writeAll (fun q hq => ⟨(hprep.reads q hq).mem, (hprep.reads q hq).key⟩) hprep.nodup).mpr (.inl ⟨p, hp, rfl⟩)
    obtain rfl := (writeAll s ps).notes.ids.eq hn hrow (hid.trans (hprep.reads p hp).key.1.symm)
    have hfound : _ = (p.fm.temporal.occurredAt, p.fm.temporal.period) := hprep.agrees hwrites.1 p hp
    rw [hprep.found hrename p hp, hdates] at hfound
    exact (merged_eq_found (hprep.reads p hp)).mp hfound.symm hlost
  · cases hrename : e.isRenameTag with
    | false => exact kept_of_fm hprep hp (hprep.merged hrename p hp hdateless)
    | true =>
      refine kept_of_fm hprep hp ?_
      rw [hprep.found hrename p hp]
      exact (merged_eq_found (hprep.reads p hp)).mpr (hcond hrename p hp hone)

theorem asStr_str (t : Text) : (Yaml.str t).asStr.getD [] = t := rfl

/-- Tags are taken as they are; a path conflicts with itself. -/
def plain : Services where
  workspace := "w"
  ownerId := "u"
  newNoteId _ := "new"
  adoptionError := none
  normalizeTag := some
  str v := v.asStr.getD []
  str_str := asStr_str
  stored v := v.asStr
  stored_str _ := rfl
  pathKey path := path
  rewriteInlineTags body _ := body
  temporalTokens _ := []
  folderConflicts _ _ := false

def january : Note where
  noteId := "n1"
  folder := []
  title := "a".toList
  workspace := "w"
  ownerId := "u"
  tags := ["x".toList]
  createdAt := []
  updatedAt := []
  occurredAt := some "2026-01-02".toList
  period := none

/-- A note of the second of January whose file has the dates `occurredAt` and `period`. -/
def oneNote (occurredAt period : Yaml) : State where
  notes := ⟨[january], List.nodup_singleton _⟩
  files := [⟨"a.md".toList, .post ⟨.str "n1".toList, .str "a".toList, .seq [.str "x".toList], .null, .null,
    occurredAt, period⟩ []⟩]

def corrupted : State := oneNote (.str "soon".toList) .null

def tagged : Edit := .changeTags "n1" (.add ["y".toList]) "now".toList

/-- The dates of the rows, then those of the files. -/
def dates (s : State) : List (Option Text × Option Text) :=
  (s.notes.rows.map fun n => (n.occurredAt, n.period)) ++ s.files.filterMap fun f =>
    match f.document with
    | .unreadable => none
    | .post m _ => some ((parseFrontmatter m).temporal.occurredAt, (parseFrontmatter m).temporal.period)

theorem dates_kept_tagged : ∃ s', plain.run corrupted (.edit tagged) = .ok s' ∧
    dates s' = [(some "2026-01-02".toList, none), (some "2026-01-02".toList, none)] ∧
    ∃ ps, plain.prepare corrupted tagged = .ok ps ∧ ∀ p ∈ ps, Reads corrupted p := by
  obtain ⟨s', hs', hdates⟩ := map_ok (show (plain.run corrupted (.edit tagged)).map dates =
    .ok [(some "2026-01-02".toList, none), (some "2026-01-02".toList, none)] by decide +kernel)
  obtain ⟨ps, hps, -, hreads, -⟩ := dates_kept_iff hs'
  exact ⟨s', hs', hdates, ps, hps, hreads⟩

def renamed : Edit := .renameTag ["n1"] "x".toList "y".toList "now".toList

/-- The date of the row is gone from both. -/
theorem renameTag_erases : ∃ s' p, plain.run corrupted (.edit renamed) = .ok s' ∧
    plain.prepare corrupted renamed = .ok [p] ∧ renamed.dateless p.note.noteId = true ∧
    p.merged = (some "2026-01-02".toList, none) ∧ dates s' = [(none, none), (none, none)] ∧
    ¬ Kept s' renamed [p] p := by
  obtain ⟨s', hs', hdates⟩ := map_ok (show (plain.run corrupted (.edit renamed)).map dates =
    .ok [(none, none), (none, none)] by decide +kernel)
  obtain ⟨ps, hps, hmerged⟩ := map_ok (show (plain.prepare corrupted renamed).map (·.map (·.merged)) =
    .ok [(some "2026-01-02".toList, none)] by decide +kernel)
  obtain ⟨p, rfl, hp⟩ := List.map_eq_singleton_iff.mp hmerged
  refine ⟨s', p, hs', hps, rfl, hp, hdates, fun hkept => ?_⟩
  obtain ⟨n, hn, -, hdate⟩ := hkept.row rfl
  have hmem : (n.occurredAt, n.period) ∈ dates s' := List.mem_append_left _ (List.mem_map.mpr ⟨n, hn, rfl⟩)
  rw [hdates, hdate, hp] at hmem
  simp at hmem

end Kajet.Dates
