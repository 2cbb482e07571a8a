import Kajet.Dates.Frame

/-!
# A row never has both dates

* `Valid`                   every row has canonical dates, one at most;
* `Op.clear`                no file has one date where the row has the other one and the file a value
                            that does not parse;
* `run_valid`               a step under this condition keeps the rows valid;
* `dates_exclusive`         in such a run no row has both dates, and no edit fails over dates.
-/

namespace Kajet.Dates
open Str Rank Table Links Frontmatter Reindex Fallible

variable {v : Services} {s s' : State} {n : Note} {p q : Prepared} {ps : List Prepared} {e : Edit} {op : Op}

/-! ## rows -/

def ValidDates (n : Note) : Prop :=
  Canonical n.occurredAt n.period ∧ ¬ (n.occurredAt.isSome ∧ n.period.isSome)

def Valid (t : Notes) : Prop := ∀ n ∈ t.rows, ValidDates n

theorem validDates_of_temporal (t : Temporal) (h : (n.occurredAt, n.period) = (t.occurredAt, t.period)) :
    ValidDates n := by
  obtain ⟨ho, hp⟩ := Prod.mk.inj h
  rw [ValidDates, ho, hp]
  exact ⟨t.canonical, t.exclusive⟩

/-- The fields of a file filled up from a valid row. -/
theorem temporalOr_valid {t : Temporal} (hn : ValidDates n) (hclear : ¬ t.Crossed n.occurredAt n.period) :
    Canonical (t.temporalOr n.occurredAt n.period).1 (t.temporalOr n.occurredAt n.period).2 ∧
      ¬ ((t.temporalOr n.occurredAt n.period).1.isSome ∧ (t.temporalOr n.occurredAt n.period).2.isSome) :=
  ⟨Temporal.temporalOr_canonical hn.1, fun hboth => hclear ((Temporal.temporalOr_both_iff hn.2).mp hboth)⟩

/-! ## the condition -/

/-- The notes whose dates the call merges with those of their files. -/
def Edit.mergedIds : Edit → List String
  | .update a => if a.dates.unchanged then [a.noteId] else []
  | .editMany items _ => (items.filter (·.dates.unchanged)).map (·.noteId)
  | .changeTags noteId .. => [noteId]
  | .rewriteBacklinks noteIds _ => noteIds
  | .renameTag .. | .backfill _ => []

/-- The file has one date where the row has the other one, and no value that parses for that one. -/
def crossed (n : Note) : Option Document → Bool
  | some (.post m _) => (parseFrontmatter m).temporal.Crossed n.occurredAt n.period
  | _ => false

/-- The file is reconciled with the row. -/
def Services.pairs (v : Services) (path : Text) (n : Note) : Option Document → Bool
  | some (.post m _) => (v.idOf path (parseFrontmatter m)).asStr = some n.noteId.toList
  | _ => false

/-- The call merges no dates that cross. -/
def Op.clear (v : Services) (s : State) : Op → Bool
  | .edit e => s.notes.rows.all fun n => n.noteId ∉ e.mergedIds || !crossed n (s.files.read (pathOf n))
  | .reconcilePaths paths => paths.all fun path => s.notes.rows.all fun n =>
    !v.pairs path n (s.files.read path) || !crossed n (s.files.read path)
  | .save .. | .saveMany .. | .move .. | .handEdit _ => true

/-! ## new notes -/

theorem draft_ok {now : Text} {noteId : String} {new : NewNote} {d : Draft} (h : v.draft now noteId new = .ok d) :
    ValidDates d.row := by
  obtain ⟨folder, _, h⟩ := bind_ok h
  obtain ⟨dates, _, h⟩ := bind_ok h
  obtain ⟨temporal, htemporal, h⟩ := bind_ok h
  cases h
  obtain ⟨ho, hp, -⟩ := Temporal.make_ok (mapError_ok htemporal)
  exact validDates_of_temporal temporal (Prod.ext ho.symm hp.symm)

theorem mem_admit {now : Text} {accepted : List Draft} {items : List (String × NewNote)} {d : Draft}
    (h : d ∈ v.admit s now accepted items) (haccepted : ∀ d ∈ accepted, ValidDates d.row) : ValidDates d.row := by
  induction items generalizing accepted with
  | nil => exact haccepted d h
  | cons item items ih =>
    unfold Services.admit at h
    split at h
    · exact ih h haccepted
    · rename_i draft hdraft
      split at h
      · exact ih h haccepted
      · refine ih h fun d hd => ?_
        rcases List.mem_append.mp hd with hd | hd
        · exact haccepted d hd
        · rw [List.mem_singleton.mp hd]
          exact draft_ok hdraft

theorem insertAll_valid {drafts : List Draft} (hs : Valid s.notes) (hdrafts : ∀ d ∈ drafts, ValidDates d.row)
    (h : insertAll s drafts = .ok s') : Valid s'.notes := by
  obtain ⟨notes, hnotes, rfl⟩ := map_ok h
  refine foldlM_inv hs (fun d hd t t' ht hinsert => ?_) (mapError_ok hnotes)
  intro n hn
  rcases ((Notes.mem_insert hinsert).1 n).mp hn with hn | rfl
  · exact ht n hn
  · exact hdrafts d hd

/-! ## edits -/

theorem writeAll_valid (h : Prepares s e ps) (hs : Valid s.notes) : Valid (writeAll s ps).notes := by
  intro n hn
  rcases (mem_writeAll (fun p hp => ⟨(h.reads p hp).mem, (h.reads p hp).key⟩) h.nodup).mp hn with ⟨p, hp, rfl⟩ | ⟨hn, -⟩
  · cases hwrites : e.writesDates with
    | true => exact validDates_of_temporal p.fm.temporal (h.agrees hwrites p hp)
    | false =>
      rw [h.kept hwrites p hp]
      exact hs _ (h.reads p hp).mem
  · exact hs n hn

theorem move_valid {noteId : String} {folder : Text} (hs : Valid s.notes) (h : v.move s noteId folder = .ok s') :
    Valid s'.notes := by
  obtain ⟨note, hnote, h⟩ := bind_ok h
  obtain ⟨new, _, h⟩ := bind_ok h
  split at h
  · cases h
    exact hs
  · dsimp only at h
    split at h
    · cases h
    · split at h
      · cases h
      · cases h
        have hnote := (get_ok hnote).1
        intro n hn
        rcases (Notes.mem_update { note with folder := new } hnote ⟨rfl, rfl, rfl⟩).mp hn with rfl | ⟨hn, -⟩
        · exact hs note hnote
        · exact hs n hn

/-! ## reconciles -/

/-- A present file is a file of the paths, with its dates. -/
structure From (v : Services) (s : State) (paths : List Text) (pf : PresentFile) : Prop where
  mem : pf.relative ∈ paths
  file : ∃ m content, s.files.read pf.relative = some (.post m content) ∧
    pf.temporal = (parseFrontmatter m).temporal ∧ pf.id = v.idOf pf.relative (parseFrontmatter m)

theorem from_presentFile {path : Text} {m : Metadata} {content : Text} {pf : PresentFile} {paths : List Text}
    (hpath : path ∈ paths) (hread : s.files.read path = some (.post m content))
    (h : v.presentFile (v.idOf path (parseFrontmatter m)) (parseFrontmatter m) path = .ok pf) : From v s paths pf := by
  obtain ⟨tags, -, rfl⟩ := presentFile_ok h
  exact ⟨hpath, m, content, hread, rfl, rfl⟩

/-- What a reconcile works with are the files of its paths. -/
theorem adopt_from {paths : List Text} {scan : Scan} {files : Files} {present : List (Key × PresentFile)}
    (hscan : v.scan s.files paths = .ok scan) (h : v.adopt s.files scan = .ok (files, present)) :
    ∀ x ∈ present, From v s paths x.2 := by
  have hscanned := scan_ok hscan
  have hpresent : ∀ x ∈ scan.present, From v s paths x.2 := by
    intro x hx
    obtain ⟨hpath, ⟨m, content, hread, htruthy, -, hpf⟩, -⟩ := (hscanned.identified.mem x).mp hx
    refine from_presentFile hpath hread ?_
    rw [Env.idOf, if_pos htruthy]
    exact hpf
  unfold Env.adopt at h
  split at h
  · cases h
  · obtain ⟨present', hadopt, heq⟩ := map_ok h
    cases heq
    refine foldlM_inv (P := fun t => ∀ x ∈ t, From v s paths x.2) hpresent (fun c hc t t' ht hstep => ?_) hadopt
    obtain ⟨pf, hpf, rfl⟩ := map_ok hstep
    obtain ⟨hpath, m, hread, hfalsy, hfm⟩ := (hscanned.candidate c).mp hc
    have hfrom : From v s paths pf := by
      refine from_presentFile hpath hread ?_
      rw [Env.idOf, hfalsy, ← hfm]
      exact hpf
    intro x hx
    unfold setKey at hx
    split at hx
    · obtain ⟨y, hy, rfl⟩ := List.mem_map.mp hx
      split
      · exact hfrom
      · exact ht y hy
    · rcases List.mem_append.mp hx with hx | hx
      · exact ht x hx
      · rw [List.mem_singleton.mp hx]
        exact hfrom

/-- A row that is written gets the file's dates, filled up from the row it had. -/
theorem writeRows_valid {t t' : Notes} {missing : List Note} {changes : List (PresentFile × Change)}
    (ht : Valid t) (hchanges : ∀ y ∈ changes, ∀ n, y.2 = .updated n →
      ValidDates n ∧ ¬ y.1.temporal.Crossed n.occurredAt n.period)
    (h : v.writeRows t missing changes = .ok t') : Valid t' := by
  obtain ⟨u, hinsert, hupdate⟩ := bind_ok h
  have hu : Valid u := by
    refine foldlM_inv (P := Valid) (fun n hn => ht n (Notes.mem_delete.mp hn).1) (fun y hy a b ha hab => ?_) hinsert
    unfold Env.insertFile at hab
    split at hab
    · intro n hn
      rcases ((Notes.mem_insert hab).1 n).mp hn with hn | rfl
      · exact ha n hn
      · exact validDates_of_temporal y.1.temporal rfl
    · cases hab
    · cases hab
      exact ha
  refine foldlM_inv (P := Valid) hu (fun y hy a b ha hab => ?_) hupdate
  unfold Env.updateFile at hab
  split at hab
  · rename_i existing title hchange _
    cases hab
    obtain ⟨hvalid, hclear⟩ := hchanges y hy existing hchange
    intro n hn
    rcases mem_updateWhere.mp hn with ⟨x, -, -, rfl⟩ | ⟨hn, -⟩
    · exact temporalOr_valid hvalid hclear
    · exact ha n hn
  · cases hab
  · cases hab
    exact ha

theorem reconcilePaths_valid {paths : List Text} {r : ReconcileReport} (hs : Valid s.notes)
    (hclear : (Op.reconcilePaths paths).clear v s = true) (h : v.reconcilePaths s paths = .ok (s', r)) :
    Valid s'.notes := by
  obtain ⟨scan, present, changes, hran⟩ := reconcilePaths_ok h
  refine writeRows_valid hs (fun y hy n hn => ?_) hran.notes_eq
  obtain ⟨x, hx, hxy⟩ := mem_of_mapM_ok hran.changes_eq hy
  obtain ⟨change, hchange, rfl⟩ := map_ok hxy
  obtain rfl : change = .updated n := hn
  obtain ⟨hmem, hid, -⟩ := existing_iff.mp (existing_of_updated hchange)
  obtain ⟨hpath, m, content, hread, htemporal, hidOf⟩ := adopt_from hran.scan_eq hran.adopt_eq x hx
  refine ⟨hs n hmem, fun hcrossed => ?_⟩
  have hstep := List.all_eq_true.mp (List.all_eq_true.mp hclear _ hpath) n hmem
  have hpairs : v.pairs x.2.relative n (some (.post m content)) = true := by
    rw [Services.pairs, ← hidOf, hid]
    exact decide_eq_true rfl
  have hcross : crossed n (some (.post m content)) = true := by
    rw [crossed, ← htemporal]
    exact decide_eq_true hcrossed
  rw [hread, hpairs, hcross] at hstep
  cases hstep

/-! ## the rows of a run -/

theorem run_valid (hs : Valid s.notes) (hclear : op.clear v s = true) (h : v.run s op = .ok s') : Valid s'.notes := by
  cases op with
  | save noteId new linked now =>
    obtain ⟨draft, hdraft, h⟩ := bind_ok h
    obtain ⟨_, _, h⟩ := bind_ok h
    obtain ⟨_, _, h⟩ := bind_ok h
    exact insertAll_valid hs (fun d hd => List.mem_singleton.mp hd ▸ draft_ok hdraft) h
  | saveMany items linked now =>
    exact insertAll_valid hs (fun d hd => mem_admit (List.mem_filter.mp hd).1 fun d hd => absurd hd List.not_mem_nil) h
  | edit e =>
    obtain ⟨ps, hps, rfl⟩ := map_ok h
    exact writeAll_valid (prepare_ok hps) hs
  | move noteId folder => exact move_valid hs h
  | reconcilePaths paths =>
    obtain ⟨⟨t, r⟩, ht, rfl⟩ := map_ok h
    exact reconcilePaths_valid hs hclear (mapError_ok ht)
  | handEdit files =>
    cases h
    exact hs

/-! ## no edit fails over dates -/

/-- The call does not fail over dates. -/
abbrev Calm {α : Type} (x : Except Refusal α) : Prop := Avoids (fun r => ∃ e, r = .temporal e) x

theorem calm_error {α : Type} {r : Refusal} (h : ∀ e, r ≠ .temporal e) : Calm (.error r : Except Refusal α) :=
  .error fun ⟨e, he⟩ => h e he

theorem calm_refuse {b : Bool} {r : Refusal} (h : ∀ e, r ≠ .temporal e) : Calm (refuse b r) := by
  unfold refuse
  split
  · exact calm_error h
  · exact .ok ()

theorem calm_get {noteId : String} : Calm (v.get s noteId) := by
  unfold Services.get
  split
  · exact .ok _
  · exact calm_error nofun

theorem calm_readNoteFile : Calm (readNoteFile s n) := by
  unfold readNoteFile
  split
  · exact calm_error nofun
  · exact calm_error nofun
  · exact .ok _

theorem calm_fileTags {fm : NoteFrontmatter} : Calm (v.fileTags n fm) := by
  unfold Services.fileTags
  cases v.normalizeTags (pathOf n) fm.tags with
  | error e => exact calm_error nofun
  | ok tags => exact .ok tags

theorem calm_replaced {t : Temporal} {dates : Option Text × Option Text}
    (h : Canonical dates.1 dates.2 ∧ ¬ (dates.1.isSome ∧ dates.2.isSome)) : Calm (replaced t dates) := by
  unfold replaced
  cases hmake : Temporal.make dates.1 dates.2 t.occurredAtDropped t.periodDropped with
  | error e => exact absurd ((Temporal.make_eq_error_iff h.1).mp ⟨e, hmake⟩) h.2
  | ok t => exact .ok t

theorem resolve_valid {d : DateArgs} {fallback dates : Option Text × Option Text}
    (hfallback : d.unchanged = true → Canonical fallback.1 fallback.2 ∧ ¬ (fallback.1.isSome ∧ fallback.2.isSome))
    (h : d.resolve fallback = .ok dates) : Canonical dates.1 dates.2 ∧ ¬ (dates.1.isSome ∧ dates.2.isSome) := by
  obtain ⟨o, period, clear⟩ := d
  unfold DateArgs.resolve at h
  split at h
  · cases h
  split at h
  · cases h
    exact ⟨⟨rfl, rfl⟩, fun hboth => (nomatch hboth.1)⟩
  rename_i hclear
  split at h
  · exact normalizeTemporal_ok h
  · exact normalizeTemporal_ok h
  · exact normalizeTemporal_ok h
  · rename_i ho hp
    cases h
    refine hfallback ?_
    cases ho
    cases hp
    simpa [DateArgs.unchanged] using hclear

/-- The merged dates of a note that the call merges. -/
theorem merged_valid {file : NoteFrontmatter × Text} (hs : Valid s.notes) (hclear : (Op.edit e).clear v s = true)
    (hn : n ∈ s.notes.rows) (hid : n.noteId ∈ e.mergedIds) (hfile : readNoteFile s n = .ok file) :
    Canonical (file.1.temporal.temporalOr n.occurredAt n.period).1 (file.1.temporal.temporalOr n.occurredAt n.period).2 ∧
      ¬ ((file.1.temporal.temporalOr n.occurredAt n.period).1.isSome ∧
        (file.1.temporal.temporalOr n.occurredAt n.period).2.isSome) := by
  refine temporalOr_valid (hs n hn) fun hcrossed => ?_
  obtain ⟨m, content, hread, hfound⟩ := readNoteFile_ok hfile
  have hstep := List.all_eq_true.mp hclear n hn
  rw [hread] at hstep
  have hcross : crossed n (some (.post m content)) = true := by
    rw [crossed, ← hfound]
    exact decide_eq_true hcrossed
  rw [hcross, Bool.not_true, Bool.or_false] at hstep
  exact of_decide_eq_true hstep hid

theorem calm_update {a : UpdateArgs} (hs : Valid s.notes) (hclear : (Op.edit (.update a)).clear v s = true)
    (ha : a.dates.unchanged = true) : Calm (v.prepareUpdate s a) := by
  unfold Services.prepareUpdate
  refine calm_get.bind fun note hnote => ?_
  obtain ⟨hmem, hid, -⟩ := get_ok hnote
  refine Avoids.bind ?_ fun folder _ => ?_
  · unfold UpdateArgs.newFolder
    split
    · exact .ok _
    · split
      · exact .ok _
      · exact calm_error nofun
  rw [resolve_unchanged ha]
  refine (Avoids.ok _).bind fun dates hdates => ?_
  cases hdates
  dsimp only
  refine Avoids.bind (calm_refuse (by exact nofun)) fun _ _ => ?_
  refine Avoids.bind (calm_refuse (by exact nofun)) fun _ _ => ?_
  refine Avoids.bind (calm_refuse (by exact nofun)) fun _ _ => ?_
  refine calm_readNoteFile.bind fun file hfile => ?_
  refine Avoids.bind ?_ fun content _ => ?_
  · unfold edited
    split
    · exact .ok _
    · exact calm_error nofun
  rw [if_pos ha]
  have hmerged : a.noteId ∈ (Edit.update a).mergedIds := by
    rw [Edit.mergedIds, if_pos ha]
    exact List.mem_cons_self
  refine (calm_replaced (merged_valid hs hclear hmem (hid ▸ hmerged) hfile)).bind fun temporal _ => ?_
  exact Avoids.bind (calm_refuse (by exact nofun)) fun _ _ => .ok _

theorem calm_edit {items : List EditItem} {now : Text} {seen : List String} {item : EditItem} (hs : Valid s.notes)
    (hclear : (Op.edit (.editMany items now)).clear v s = true) (hitem : item ∈ items) :
    Calm (v.prepareEdit s now seen item) := by
  unfold Services.prepareEdit
  split
  · exact .ok _
  rename_i note hnote
  obtain ⟨hmem, hid, -⟩ := get_ok hnote
  split
  · exact .ok _
  refine calm_readNoteFile.bind fun file hfile => ?_
  split
  · exact .ok _
  split
  · exact .ok _
  refine Avoids.bind ?_ fun tags _ => ?_
  · split
    · exact .ok _
    · exact calm_fileTags
  split
  · exact .ok _
  rename_i dates hdates
  refine (calm_replaced (resolve_valid (fun hunchanged => ?_) hdates)).bind fun temporal _ => .ok _
  refine merged_valid hs hclear hmem ?_ hfile
  exact hid ▸ List.mem_map.mpr ⟨item, List.mem_filter.mpr ⟨hitem, hunchanged⟩, rfl⟩

theorem calm_edits {items all : List EditItem} {now : Text} {seen : List String} (hs : Valid s.notes)
    (hclear : (Op.edit (.editMany all now)).clear v s = true) (hitems : ∀ item ∈ items, item ∈ all) :
    Calm (v.prepareEdits s now seen items) := by
  induction items generalizing seen with
  | nil => exact .ok []
  | cons item items ih =>
    refine (calm_edit hs hclear (hitems item List.mem_cons_self)).bind fun p _ => ?_
    exact (ih fun i hi => hitems i (List.mem_cons_of_mem item hi)).bind fun ps _ => .ok _

theorem calm_tags {noteId : String} {change : TagChange} {now : Text} (hs : Valid s.notes)
    (hclear : (Op.edit (.changeTags noteId change now)).clear v s = true) :
    Calm (v.prepareTags s now noteId change) := by
  unfold Services.prepareTags
  refine calm_get.bind fun note hnote => ?_
  obtain ⟨hmem, hid, -⟩ := get_ok hnote
  refine Avoids.bind (calm_refuse (by exact nofun)) fun _ _ => ?_
  refine Avoids.bind (calm_refuse (by exact nofun)) fun _ _ => ?_
  refine calm_readNoteFile.bind fun file hfile => ?_
  refine calm_fileTags.bind fun current _ => ?_
  dsimp only
  split
  · exact .ok _
  · have hmerged := merged_valid hs hclear hmem (hid ▸ List.mem_cons_self) hfile
    exact (calm_replaced hmerged).bind fun temporal _ => .ok _

theorem calm_backlink {noteIds : List String} {rewrite : Note → Text → Option Text} (hs : Valid s.notes)
    (hclear : (Op.edit (.rewriteBacklinks noteIds rewrite)).clear v s = true) (hn : n ∈ v.getMany s noteIds) :
    Calm (prepareBacklink s rewrite n) := by
  obtain ⟨hmem, hp⟩ := List.mem_filter.mp hn
  have hid : n.noteId ∈ noteIds := of_decide_eq_true (Bool.and_eq_true_iff.mp hp).1
  unfold prepareBacklink
  split
  · refine calm_readNoteFile.bind fun file hfile => ?_
    split
    · exact .ok _
    · exact (calm_replaced (merged_valid hs hclear hmem hid hfile)).bind fun temporal _ => .ok _
  · exact .ok _

/-- The call is one of those that were given no dates. -/
def Edit.keepsDates : Edit → Bool
  | .update a => a.dates.unchanged
  | .editMany .. | .changeTags .. | .rewriteBacklinks .. => true
  | .renameTag .. | .backfill _ => false

theorem calm_prepare (hs : Valid s.notes) (hclear : (Op.edit e).clear v s = true) (he : e.keepsDates = true) :
    Calm (v.prepare s e) := by
  cases e with
  | update a => exact (calm_update hs hclear he).map
  | editMany items now =>
    unfold Services.prepare
    refine Avoids.bind (calm_refuse (by exact nofun)) fun _ _ => ?_
    refine (calm_edits hs hclear fun _ h => h).bind fun ps _ => ?_
    exact Avoids.bind (calm_refuse (by exact nofun)) fun _ _ => .ok _
  | changeTags noteId change now => exact (calm_tags hs hclear).map
  | rewriteBacklinks noteIds rewrite => exact (Avoids.mapM fun n hn => calm_backlink hs hclear hn).map
  | renameTag noteIds old new now => cases he
  | backfill items => cases he

/-- **Temporal exclusivity.**  In a run that merges no dates that cross, no row ever has both dates, and no
edit that was given no dates fails over them. -/
theorem dates_exclusive (h : (workspace v).Reach (fun s op => op.clear v s = true) s) :
    (∀ n ∈ s.notes.rows, ¬ (n.occurredAt.isSome ∧ n.period.isSome)) ∧
    ∀ e, (Op.edit e).clear v s = true → e.keepsDates = true → ∀ error, v.run s (.edit e) ≠ .error (.temporal error) := by
  have hvalid : Valid s.notes := by
    refine h.inv (P := fun s => Valid s.notes) (fun s hs => ?_) fun s op t _ hs hclear hstep => ?_
    · rw [hs]
      exact fun n hn => (nomatch hn)
    · obtain ⟨s', hrun, heq⟩ : ∃ s', v.run s op = .ok s' ∧ s' = t := by
        change (v.run s op).toOption = some t at hstep
        cases hrun : v.run s op with
        | error e => rw [hrun] at hstep; cases hstep
        | ok s' => rw [hrun] at hstep; exact ⟨s', rfl, Option.some.inj hstep⟩
      exact heq ▸ run_valid hs hclear hrun
  refine ⟨fun n hn => (hvalid n hn).2, fun e hclear hkeeps error herror => ?_⟩
  exact (calm_prepare hvalid hclear hkeeps).map _ herror ⟨error, rfl⟩

/-- A note is saved, its file edited by hand, and the workspace reconciled. -/
def byHand (occurredAt period : Yaml) : List Op :=
  [.save "n1" ⟨"a".toList, [], ["x".toList], [], .str "2026-01-02".toList, .null⟩ true "now".toList,
    .handEdit (oneNote occurredAt period).files, .reconcilePaths ["a.md".toList]]

/-- A value that does not parse, alone. -/
theorem dates_exclusive_byHand : ∃ s, (workspace plain).exec State.empty (byHand (.str "soon".toList) .null) = some s ∧
    s.notes.rows.length = 1 ∧ (∀ n ∈ s.notes.rows, ¬ (n.occurredAt.isSome ∧ n.period.isSome)) ∧
    ∀ error, plain.run s (.edit tagged) ≠ .error (.temporal error) := by
  let view (s : State) : Bool × Nat := ((Op.edit tagged).clear plain s, s.notes.rows.length)
  obtain ⟨s, hs, hview⟩ := Option.map_eq_some_iff.mp
    (show ((workspace plain).exec State.empty (byHand (.str "soon".toList) .null)).map view = some (true, 1) by
      decide +kernel)
  obtain ⟨hclear, hlength⟩ := Prod.mk.inj hview
  obtain ⟨hrows, hcalm⟩ := dates_exclusive (.of_guarded (.start rfl) (by decide +kernel) hs)
  exact ⟨s, hs, hlength, hrows, hcalm tagged hclear rfl⟩

/-- A value that does not parse, beside one of the other field. -/
theorem dates_cross : ∃ s, (workspace plain).Reach Machine.free s ∧
    (∃ n ∈ s.notes.rows, n.occurredAt.isSome ∧ n.period.isSome) ∧
    tagged.keepsDates = true ∧ plain.run s (.edit tagged) = .error (.temporal .exclusive) := by
  let view (s : State) : Bool × Except Refusal Unit :=
    (s.notes.rows.any fun n => n.occurredAt.isSome && n.period.isSome, (plain.run s (.edit tagged)).map fun _ => ())
  obtain ⟨s, hs, hview⟩ := Option.map_eq_some_iff.mp
    (show ((workspace plain).exec State.empty (byHand (.str "soon".toList) (.str "2026".toList))).map view =
      some (true, .error (.temporal .exclusive)) by decide +kernel)
  obtain ⟨hany, herror⟩ := Prod.mk.inj hview
  obtain ⟨n, hn, hboth⟩ := List.any_eq_true.mp hany
  exact ⟨s, .of_exec (.start rfl) hs, ⟨n, hn, Bool.and_eq_true_iff.mp hboth⟩, rfl, map_error herror⟩

end Kajet.Dates
