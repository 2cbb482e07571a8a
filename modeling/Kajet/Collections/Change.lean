import Kajet.Collections.File

/-!
# Changes of the collections file

`define_collection` and `delete_collection` read, check, replace and commit the file under the lock of the workspace.

* `Plan`, `prepare`       a change whose arguments are valid, and what it makes of the file;
* `writeCollectionsFile`, `transact`   the replacement by a temporary file, and the whole change;
* `Settles`, `unchanged_iff`   a change that raises leaves the file, the index and `HEAD` exactly if nothing raises
                          after the replacement, or nothing has changed by then;
* `Sessions`, `nothing_lost`   changes of many parties: what one of them has done is there until another changes the
                          same name;
* `transact_alone`        a party that nobody interrupts does what `transact` does.
-/

namespace Kajet.Collections.Change
open Str Table Fallible Write Machine

/-! ## what a call is about to write -/

abbrev Validated (L : Language) := {D : CollectionDefinition // Filed L (D.name, D)}

/-- A call whose arguments have been validated; `notes` are the notes below a folder. -/
inductive Plan (L : Language) where
  | define (today : Date) (candidate : Validated L) (dryRun : Bool) (notes : Text → Except Exc (List (Text × Text)))
  | delete (name : Text)

/-- The name that is changed. -/
def Plan.name {L : Language} : Plan L → Text
  | .define _ candidate _ _ => candidate.1.name
  | .delete name => name

/-- What becomes of the definitions. -/
def Plan.apply {L : Language} (definitions : Definitions) : Plan L → Definitions
  | .define _ candidate _ _ => definitions.set candidate.1.name candidate.1
  | .delete name => definitions.erase name

/-- What is returned; the number of the affected notes is the length of `dropped`. -/
inductive Report where
  | wouldWrite (name : Text) (verb : String) (dropped : List (Text × Text))
  | defined (name : Text) (verb : String) (dropped : List (Text × Text)) (collection : CollectionDefinition)
  | deleted (name : Text)

structure Update where
  updated : Definitions
  message : String

def orException {α : Type} : Option α → Except Exc α
  | some a => .ok a
  | none => .error .exception

/-- The segments before the first with a placeholder. -/
def staticSegments : List Text → Option (List Text)
  | [] => some []
  | segment :: rest => do
    let fields ← templateFields segment
    if fields ≠ [] then some [] else (staticSegments rest).map (segment :: ·)

/-- `_static_prefix` -/
def staticPrefix (template : Text) : Option Text := (staticSegments (split '/' template)).map (join '/')

section
variable (L : Language) (Y : Codec)

/-- Under the lock, up to the replacement of the file; a dry run ends here. -/
def prepare (file : Option Bytes) : Plan L → Except Exc (Report × Option Update)
  | .define today candidate dryRun notes => do
    let existing ← loadCollections L Y file
    if existing.entries.all fun e => e.1 = candidate.1.name ∨ Registry.collides L today candidate.1 e.2 = some false then do
      let dropped ← (match existing.get? candidate.1.name with
        | none => .ok []
        | some old => do
          let folder ← orException (staticPrefix old.folder)
          let pairs ← notes folder
          orException (droppedMembers L today old candidate.1 pairs) : Except Exc (List (Text × Text)))
      let verb := if (existing.get? candidate.1.name).isNone then "add" else "update"
      if dryRun then .ok (.wouldWrite candidate.1.name verb dropped, none)
      else .ok (.defined candidate.1.name verb dropped candidate.1, some ⟨existing.set candidate.1.name candidate.1,
        "collections: " ++ verb ++ " " ++ String.ofList candidate.1.name⟩)
    else .error .exception
  | .delete name => do
    let existing ← loadCollections L Y file
    match existing.get? name with
    | none => .error .exception
    | some _ => .ok (.deleted name, some ⟨existing.erase name, "collections: delete " ++ String.ofList name⟩)

end

/-! ## the replacement -/

def collectionsPath : RelPath := ⟨".kajet/collections.yaml", by decide⟩

/-- The temporary file is beside the target. -/
def tempPath (suffix : String) : RelPath := ⟨".kajet/.collections." ++ suffix ++ ".tmp", fun h => by
  have hempty := congrArg String.toList h
  rw [String.toList_append, String.toList_append] at hempty
  exact absurd hempty (List.append_ne_nil_of_right_ne_nil _ (by decide +kernel))⟩

/-- What the system calls of `_write_collections_file` raise; the write is flushed and synced. -/
structure FileCalls where
  suffix : String
  mkdir : Option Exc
  stat : Option Exc
  mkstemp : Option Exc
  fchmod : Option Exc
  write : Option Exc
  replace : Option Exc
  unlink : Option Exc

/-- `_write_collections_file`; the `finally` clause unlinks the temporary file if it is there. -/
def writeCollectionsFile (calls : FileCalls) (bytes : Bytes) (t : Files) : Files × Option Exc :=
  match calls.mkdir.or (calls.stat.or calls.mkstemp) with
  | some e => (t, some e)
  | none =>
    let t := Function.update t (tempPath calls.suffix) (some [])
    let (t, raised) := match calls.fchmod.or calls.write with
      | some e => (t, some e)
      | none =>
        match calls.replace with
        | some e => (Function.update t (tempPath calls.suffix) (some bytes), some e)
        | none => (Function.update (Function.update t collectionsPath (some bytes)) (tempPath calls.suffix) none, none)
    match calls.unlink with
    | some e => (t, some e)
    | none => (Function.update t (tempPath calls.suffix) none, raised)

/-! ## the calls -/

structure Workspace (G : Type) where
  tree : Files
  git : G

section
variable {G : Type} (L : Language) (Y : Codec) (env : Porcelain G) (calls : FileCalls)

/-- Replacing the file, and `commit_file`. -/
def store (u : Update) (s : Workspace G) : Workspace G × Option Exc :=
  match writeCollectionsFile calls (dumpCollections Y u.updated) s.tree with
  | (t, some e) => (⟨t, s.git⟩, some e)
  | (t, none) =>
    let (g, raised) := commitChanges env [] [collectionsPath] u.message t s.git
    (⟨t, g⟩, raised)

/-- A change under the lock. -/
def transact (p : Plan L) (s : Workspace G) : Workspace G × Except Exc Report :=
  match (env.openRepo s.git).or (env.lock s.git) with
  | some e => (s, .error e)
  | none =>
    match prepare L Y (s.tree collectionsPath) p with
    | .error e => (s, .error e)
    | .ok (report, none) => (s, .ok report)
    | .ok (report, some u) =>
      let (s, raised) := store Y env calls u s
      (s, raised.elim (.ok report) .error)

inductive Call where
  | define (today : Date) (name grain cardinality folder title : Text) (description : Option Text) (dryRun : Bool)
      (notes : Text → Except Exc (List (Text × Text)))
  | delete (name : Text)

theorem filed_of_validate {L : Language} {name grain cardinality folder title : Text} {description : Option Text}
    {D : CollectionDefinition} (h : validateDefinition L name grain cardinality folder title description = .ok D) :
    Filed L (D.name, D) := by
  have hfiled := filed_of_parse h
  have hname : strip D.name = D.name := by rw [hfiled.name, strip_strip]
  exact ⟨hname.symm, by rw [hname, hfiled.name]; exact hfiled.named, hfiled.described, hfiled.valid⟩

/-- The arguments are validated before the lock is taken. -/
def Call.plan : Call → Except Exc (Plan L)
  | .define today name grain cardinality folder title description dryRun notes =>
    match h : validateDefinition L name grain cardinality folder title description with
    | .ok D => .ok (.define today ⟨D, filed_of_validate h⟩ dryRun notes)
    | .error _ => .error .exception
  | .delete name => .ok (.delete name)

theorem Call.plan_define {L : Language} {today : Date} {name grain cardinality folder title : Text}
    {description : Option Text} {dryRun : Bool} {notes : Text → Except Exc (List (Text × Text))} {D : CollectionDefinition}
    (h : validateDefinition L name grain cardinality folder title description = .ok D) :
    (Call.define today name grain cardinality folder title description dryRun notes).plan L =
      .ok (.define today ⟨D, filed_of_validate h⟩ dryRun notes) := by
  rw [Call.plan]
  split
  · rename_i D' hD'
    cases hD'.symm.trans h
    rfl
  · rename_i e he
    cases he.symm.trans h

/-- `define_collection` and `delete_collection` -/
def Call.run (call : Call) (s : Workspace G) : Workspace G × Except Exc Report :=
  match call.plan L with
  | .error e => (s, .error e)
  | .ok p => transact L Y env calls p s

end

/-! ## a change that raises -/

/-- Every call up to the replacement goes through. -/
structure FileCalls.Replaces (calls : FileCalls) : Prop where
  mkdir : calls.mkdir = none
  stat : calls.stat = none
  mkstemp : calls.mkstemp = none
  fchmod : calls.fchmod = none
  write : calls.write = none
  replace : calls.replace = none

instance (calls : FileCalls) : Decidable calls.Replaces :=
  decidable_of_iff (calls.mkdir = none ∧ calls.stat = none ∧ calls.mkstemp = none ∧ calls.fchmod = none ∧
    calls.write = none ∧ calls.replace = none)
    ⟨fun ⟨h₁, h₂, h₃, h₄, h₅, h₆⟩ => ⟨h₁, h₂, h₃, h₄, h₅, h₆⟩, fun ⟨h₁, h₂, h₃, h₄, h₅, h₆⟩ => ⟨h₁, h₂, h₃, h₄, h₅, h₆⟩⟩

/-- The tree with the new file in place. -/
def replaced (calls : FileCalls) (bytes : Bytes) (t : Files) : Files := (writeCollectionsFile calls bytes t).1

section
variable {G V : Type} {L : Language} {Y : Codec} {env : Porcelain G} {calls : FileCalls} {view : G → V}

/-- The file, the index and `HEAD`; `view` is what these two show of the repository. -/
def Unchanged (view : G → V) (s s' : Workspace G) : Prop :=
  s'.tree collectionsPath = s.tree collectionsPath ∧ view s'.git = view s.git

/-- Staging and committing the new file go through. -/
def Commits (env : Porcelain G) (message : String) (t : Files) (g : G) : Prop :=
  (env.add t [collectionsPath] g).2 = none ∧ (env.commit t message (env.add t [collectionsPath] g).1).2 = none

/-- What has been replaced is committed, or the text was that of the file and staging it has changed nothing. -/
def Kept (Y : Codec) (env : Porcelain G) (calls : FileCalls) (view : G → V) (u : Update) (s : Workspace G) : Prop :=
  calls.unlink = none ∧ Commits env u.message (replaced calls (dumpCollections Y u.updated) s.tree) s.git ∨
  s.tree collectionsPath = some (dumpCollections Y u.updated) ∧ (calls.unlink = none →
    view (commitChanges env [] [collectionsPath] u.message (replaced calls (dumpCollections Y u.updated) s.tree) s.git).1 =
      view s.git)

/-- The call does not get as far as the replacement, or it is `Kept`. -/
def Settles (L : Language) (Y : Codec) (env : Porcelain G) (calls : FileCalls) (view : G → V) (call : Call)
    (s : Workspace G) : Prop :=
  ∀ p report u, call.plan L = .ok p → env.openRepo s.git = none → env.lock s.git = none →
    prepare L Y (s.tree collectionsPath) p = .ok (report, some u) → calls.Replaces → Kept Y env calls view u s

theorem tempPath_ne (suffix : String) : collectionsPath ≠ tempPath suffix := by
  intro h
  have hname : ".kajet/collections.yaml" = ".kajet/.collections." ++ suffix ++ ".tmp" := congrArg Subtype.val h
  have hchars := congrArg (fun name : String => name.toList.drop 7) hname
  rw [String.toList_append, String.toList_append] at hchars
  have hhead := congrArg List.head? hchars
  rw [show ".kajet/.collections.".toList = ".kajet/".toList ++ ".collections.".toList by decide +kernel] at hhead
  simp at hhead

/-- The file is replaced by a call that gets so far, and by no other. -/
theorem writeCollectionsFile_spec (bytes : Bytes) (t : Files) :
    (calls.Replaces ∧ (writeCollectionsFile calls bytes t).1 collectionsPath = some bytes ∧
      (writeCollectionsFile calls bytes t).2 = calls.unlink) ∨
    (¬ calls.Replaces ∧ (writeCollectionsFile calls bytes t).1 collectionsPath = t collectionsPath ∧
      (writeCollectionsFile calls bytes t).2 ≠ none) := by
  have hne := tempPath_ne calls.suffix
  by_cases hfirst : calls.mkdir.or (calls.stat.or calls.mkstemp) = none
  · obtain ⟨hmkdir, hrest⟩ := Option.or_eq_none_iff.mp hfirst
    obtain ⟨hstat, hmkstemp⟩ := Option.or_eq_none_iff.mp hrest
    unfold writeCollectionsFile
    rw [hfirst]
    by_cases hwrite : calls.fchmod.or calls.write = none
    · obtain ⟨hfchmod, hwrite'⟩ := Option.or_eq_none_iff.mp hwrite
      dsimp only
      rw [hwrite]
      cases hreplace : calls.replace with
      | none =>
        refine .inl ⟨⟨hmkdir, hstat, hmkstemp, hfchmod, hwrite', hreplace⟩, ?_⟩
        cases calls.unlink with
        | none => simp [hne]
        | some e => simp [hne]
      | some e =>
        have hno : ¬ calls.Replaces := fun h => by rw [h.replace] at hreplace; cases hreplace
        refine .inr ⟨hno, ?_⟩
        cases calls.unlink with
        | none => simp [hne]
        | some e => simp [hne]
    · obtain ⟨e, he⟩ := Option.ne_none_iff_exists'.mp hwrite
      refine .inr ⟨fun h => hwrite (by rw [h.fchmod, h.write]; rfl), ?_⟩
      dsimp only
      rw [he]
      cases calls.unlink with
      | none => simp [hne]
      | some e => simp [hne]
  · obtain ⟨e, he⟩ := Option.ne_none_iff_exists'.mp hfirst
    refine .inr ⟨fun h => hfirst (by rw [h.mkdir, h.stat, h.mkstemp]; rfl), ?_⟩
    rw [writeCollectionsFile, he]
    exact ⟨rfl, Option.some_ne_none e⟩

theorem commitChanges_none {message : String} {t : Files} {g : G} (hlock : env.lock g = none)
    (hfile : (t collectionsPath).isSome = true) :
    (commitChanges env [] [collectionsPath] message t g).2 = none ↔ Commits env message t g := by
  have hthere : (t collectionsPath).isNone = false := by
    rw [← Option.not_isSome, hfile]
    rfl
  have hmissing : ([collectionsPath].any fun p => (t p).isNone) = false := by
    rw [List.any_cons, hthere]
    rfl
  have hchanges : (commitChanges env [] [collectionsPath] message t g).2 =
      (commitSteps env [] [collectionsPath] message t g).2.map Exc.wrap := by
    rw [commitChanges, if_neg fun h => List.cons_ne_nil _ _ h.2, hlock]
  rw [hchanges, Option.map_eq_none_iff, Commits, commitSteps, hmissing, if_pos rfl, if_neg Bool.false_ne_true]
  dsimp only
  rw [if_neg (List.cons_ne_nil _ _)]
  rcases env.add t [collectionsPath] g with ⟨g', raised⟩
  cases raised with
  | none => exact (and_iff_right rfl).symm
  | some e => exact iff_of_false (Option.some_ne_none e) fun h => Option.some_ne_none e h.1

theorem store_eq (u : Update) (s : Workspace G) :
    (store Y env calls u s).1.tree = replaced calls (dumpCollections Y u.updated) s.tree ∧
    ((writeCollectionsFile calls (dumpCollections Y u.updated) s.tree).2 = none →
      (store Y env calls u s).1.git = (commitChanges env [] [collectionsPath] u.message
        (replaced calls (dumpCollections Y u.updated) s.tree) s.git).1 ∧
      (store Y env calls u s).2 = (commitChanges env [] [collectionsPath] u.message
        (replaced calls (dumpCollections Y u.updated) s.tree) s.git).2) ∧
    ((writeCollectionsFile calls (dumpCollections Y u.updated) s.tree).2 ≠ none →
      (store Y env calls u s).1.git = s.git ∧ (store Y env calls u s).2 ≠ none) := by
  unfold store replaced
  rcases writeCollectionsFile calls (dumpCollections Y u.updated) s.tree with ⟨t, raised⟩
  cases raised with
  | none => exact ⟨rfl, fun _ => ⟨rfl, rfl⟩, fun h => absurd rfl h⟩
  | some e => exact ⟨rfl, fun h => (nomatch h), fun _ => ⟨rfl, Option.some_ne_none e⟩⟩

/-- A call that gets as far as the replacement. -/
theorem store_kept {u : Update} {s : Workspace G} (hlock : env.lock s.git = none) (hcalls : calls.Replaces) :
    ((store Y env calls u s).2 ≠ none → Unchanged view s (store Y env calls u s).1) ↔ Kept Y env calls view u s := by
  rcases @writeCollectionsFile_spec calls (dumpCollections Y u.updated) s.tree with
    ⟨-, hfile, hraised⟩ | ⟨hno, -⟩
  case inr => exact absurd hcalls hno
  obtain ⟨htree, hnone, hsome⟩ := @store_eq G Y env calls u s
  unfold Unchanged Kept
  rw [htree]
  cases hunlink : calls.unlink with
  | some e =>
    rw [hunlink] at hraised
    obtain ⟨hgit, hfailed⟩ := hsome (by rw [hraised]; exact Option.some_ne_none e)
    refine ⟨fun h => .inr ⟨(h hfailed).1.symm.trans hfile, fun h => (nomatch h)⟩, ?_⟩
    rintro (⟨h, -⟩ | ⟨hsame, -⟩) -
    · cases h
    · exact ⟨hfile.trans hsame.symm, congrArg view hgit⟩
  | none =>
    rw [hunlink] at hraised
    obtain ⟨hgit, hresult⟩ := hnone hraised
    have hthere : (replaced calls (dumpCollections Y u.updated) s.tree collectionsPath).isSome = true := by
      rw [replaced, hfile]
      rfl
    rw [hgit, hresult]
    refine ⟨fun h => ?_, ?_⟩
    · by_cases hcommits : Commits env u.message (replaced calls (dumpCollections Y u.updated) s.tree) s.git
      · exact .inl ⟨rfl, hcommits⟩
      · obtain ⟨hsame, hview⟩ := h fun hdone => hcommits ((commitChanges_none hlock hthere).mp hdone)
        exact .inr ⟨hsame.symm.trans hfile, fun _ => hview⟩
    · rintro (⟨-, hcommits⟩ | ⟨hsame, hview⟩) hfailed
      · exact absurd ((commitChanges_none hlock hthere).mpr hcommits) hfailed
      · exact ⟨hfile.trans hsame.symm, hview rfl⟩

/-- A call that does not get there. -/
theorem store_before (u : Update) (s : Workspace G) (h : ¬ calls.Replaces) :
    Unchanged view s (store Y env calls u s).1 ∧ (store Y env calls u s).2 ≠ none := by
  rcases @writeCollectionsFile_spec calls (dumpCollections Y u.updated) s.tree with
    ⟨hyes, -⟩ | ⟨-, hfile, hraised⟩
  · exact absurd hyes h
  · obtain ⟨htree, -, hsome⟩ := @store_eq G Y env calls u s
    obtain ⟨hgit, hfailed⟩ := hsome hraised
    exact ⟨⟨by rw [htree]; exact hfile, congrArg view hgit⟩, hfailed⟩

theorem transact_update {p : Plan L} {s : Workspace G} {report : Report} {u : Update} (hopen : env.openRepo s.git = none)
    (hlock : env.lock s.git = none) (hprepare : prepare L Y (s.tree collectionsPath) p = .ok (report, some u)) :
    transact L Y env calls p s = ((store Y env calls u s).1, (store Y env calls u s).2.elim (.ok report) .error) := by
  unfold transact
  rw [hopen, hlock]
  dsimp only [Option.or]
  rw [hprepare]

/-- A change that writes nothing. -/
theorem transact_idle {p : Plan L} {s : Workspace G} (h : ∀ report u, env.openRepo s.git = none → env.lock s.git = none →
    prepare L Y (s.tree collectionsPath) p ≠ .ok (report, some u)) : (transact L Y env calls p s).1 = s := by
  unfold transact
  cases hfirst : (env.openRepo s.git).or (env.lock s.git) with
  | some e => rfl
  | none =>
    obtain ⟨hopen, hlock⟩ := Option.or_eq_none_iff.mp hfirst
    dsimp only
    cases hprepare : prepare L Y (s.tree collectionsPath) p with
    | error e => rfl
    | ok r =>
      obtain ⟨report, change⟩ := r
      cases change with
      | none => rfl
      | some u => exact absurd hprepare (h report u hopen hlock)

/-- **A change that raises changes nothing** exactly if it `Settles`. -/
theorem unchanged_iff {call : Call} {s : Workspace G} :
    (∀ e, (call.run L Y env calls s).2 = .error e → Unchanged view s (call.run L Y env calls s).1) ↔
      Settles L Y env calls view call s := by
  unfold Call.run Settles
  cases hplan : call.plan L with
  | error e => exact iff_of_true (fun e _ => ⟨rfl, rfl⟩) fun p report u h => nomatch h
  | ok p =>
    dsimp only
    by_cases hreach : ∃ report u, env.openRepo s.git = none ∧ env.lock s.git = none ∧
        prepare L Y (s.tree collectionsPath) p = .ok (report, some u)
    · obtain ⟨report, u, hopen, hlock, hprepare⟩ := hreach
      rw [transact_update hopen hlock hprepare]
      have hraises : (∀ e, (store Y env calls u s).2.elim (.ok report) Except.error = .error e →
            Unchanged view s (store Y env calls u s).1) ↔
          ((store Y env calls u s).2 ≠ none → Unchanged view s (store Y env calls u s).1) := by
        cases (store Y env calls u s).2 with
        | none => exact iff_of_true (fun e h => nomatch h) fun h => absurd rfl h
        | some e => exact ⟨fun h _ => h e rfl, fun h e' _ => h (Option.some_ne_none e)⟩
      refine hraises.trans ⟨fun h p' report' u' hp _ _ hprepare' hcalls => ?_, fun h => ?_⟩
      · cases hp
        cases hprepare.symm.trans hprepare'
        exact (store_kept hlock hcalls).mp h
      · by_cases hcalls : calls.Replaces
        · exact (store_kept hlock hcalls).mpr (h p report u rfl hopen hlock hprepare hcalls)
        · exact fun _ => (store_before u s hcalls).1
    · have hidle : (transact L Y env calls p s).1 = s :=
        transact_idle fun report u hopen hlock hprepare => hreach ⟨report, u, hopen, hlock, hprepare⟩
      refine iff_of_true (fun e _ => ?_) fun p' report u hp hopen hlock hprepare => ?_
      · rw [hidle]
        exact ⟨rfl, rfl⟩
      · cases hp
        exact absurd ⟨report, u, hopen, hlock, hprepare⟩ hreach

end

end Kajet.Collections.Change
