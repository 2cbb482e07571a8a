import Kajet.Repair.Handler

/-!
# One run of the handler among foreground writes

The handler resolves every source against one snapshot of the notes, which foreground writes may
outdate before it reads the source.

* `Fits`      what a write's step has to meet: it marks every source whose resolution it changes,
              and what it writes to a source that the handler may still persist means the same
              against the handler's snapshot;
* `Kept`      what the handler and the writer will still do for a source that has no marker;
* `Inv`       every source with a body is promised a marker or kept, with one lemma per step;
* `reconcile_converges`   after the run and the write the graph has converged.
-/

namespace Kajet.Repair
open Str Table Links Machine

/-! ## what is still to come -/

def Writer.marks : Writer → List String
  | .free => []
  | .committed _ marks => marks
  | .persisted marks => marks

/-- The rows that the write is about to store for a source. -/
def Writer.own : Writer → String → Option Rows
  | .committed own _, s => own.lookup s
  | _, _ => none

def Phase.generations : Phase → List (String × Nat)
  | .listed generations _ | .indexed generations _ _ | .finishing generations _ => generations
  | .loaded p | .persisted p | .leftover p => p.generations
  | .waiting | .done => []

def Phase.acknowledged : Phase → List (String × Nat)
  | .loaded p | .persisted p | .leftover p => p.acknowledged
  | .finishing _ acknowledged => acknowledged
  | _ => []

def Phase.snapshot : Phase → List IndexedNote
  | .indexed _ _ snapshot => snapshot
  | .loaded p | .persisted p | .leftover p => p.snapshot
  | _ => []

/-- The handler may still persist the state `st` of the source. -/
def Phase.MayPersist : Phase → String → SourceState → Prop
  | .indexed _ sources _, s, _ => s ∈ sources
  | .loaded p, s, st =>
    s ∈ p.pending ∧ (p.passes < maxStabilityPasses ∨ st.revision = (p.states s).revision)
  | .persisted p, s, _ => s ∈ p.pending ∧ p.passes < maxStabilityPasses
  | _, _, _ => False

/-- The handler will leave the source's rows alone if its state stays `st`. -/
def Phase.Settles : Phase → String → SourceState → Prop
  | .listed _ sources, s, _ | .indexed _ sources _, s, _ => s ∉ sources
  | .loaded p, s, _ | .leftover p, s, _ => s ∉ p.pending
  | .persisted p, s, st => s ∈ p.pending → st.revision = (p.states s).revision
  | _, _, _ => True

instance (h : Phase) (s : String) (st : SourceState) : Decidable (h.MayPersist s st) := by
  cases h <;> unfold Phase.MayPersist <;> infer_instance

section
variable (site : Site) (w : World)

/-- The source has a marker that an acknowledgement of the listed generations does not delete. -/
def Survives (dirty : List Marker) (generations : List (String × Nat)) (s : String) : Prop :=
  ∃ g, gen dirty (site.key s) = some g ∧ (s, g) ∉ generations

def Marked (s : String) : Prop := Survives site w.dirty w.handler.generations s

/-- The source has such a marker or the write is about to raise it. -/
def Promised (s : String) : Prop := Marked site w s ∨ s ∈ w.writer.marks

/-- The snapshot is good enough for the source, where the handler may still use it, and the rows
are right once the write has stored its own, where the handler leaves them alone. -/
structure Kept (n : NoteRow) (content : Text) : Prop where
  snapshot : w.handler.MayPersist n.noteId ⟨some n, some content⟩ →
    site.rowsAt w.handler.snapshot w.notes content n.folder = site.rows w.notes content n.folder
  settled : w.handler.Settles n.noteId ⟨some n, some content⟩ →
    (w.writer.own n.noteId).getD (w.stored n.noteId) = site.rows w.notes content n.folder

structure Inv : Prop where
  ids : IdsOk site w.notes
  markers : Keyed Marker.key w.dirty
  listed : ∀ x ∈ w.handler.generations, ∃ g, gen w.dirty (site.key x.1) = some g ∧ x.2 ≤ g
  acknowledged : ∀ x ∈ w.handler.acknowledged, x ∈ w.handler.generations
  own : ∀ n ∈ w.notes, ∀ content ∈ w.file n.noteId, ∀ r ∈ w.writer.own n.noteId,
    r = site.rows w.notes content n.folder ∨ n.noteId ∈ w.writer.marks
  graph : ∀ n ∈ w.notes, ∀ content ∈ w.file n.noteId,
    Promised site w n.noteId ∨ Kept site w n content

/-! ## the condition on the writes -/

/-- The write marks every source whose rows it makes wrong. -/
def MarksChanged (c : Commit) : Prop :=
  ∀ n ∈ c.notes, ∀ content ∈ c.file n.noteId, n.noteId ∉ c.marks →
    (c.own.lookup n.noteId).getD (site.rows w.notes content n.folder) =
      site.rows c.notes content n.folder

/-- What the write leaves of a source that it does not mark, and that the handler may still persist,
means the same against the handler's snapshot as against the present notes. -/
def SnapshotAgrees (c : Commit) : Prop :=
  ∀ n ∈ c.notes, ∀ content ∈ c.file n.noteId, n.noteId ∉ c.marks →
    (c.own.lookup n.noteId).isSome → w.handler.MayPersist n.noteId ⟨some n, some content⟩ →
      site.rowsAt w.handler.snapshot c.notes content n.folder =
        site.rows c.notes content n.folder

instance (c : Commit) : Decidable (MarksChanged site w c) :=
  inferInstanceAs (Decidable (∀ n ∈ c.notes, ∀ content ∈ c.file n.noteId, _ → _ = _))

instance (c : Commit) : Decidable (SnapshotAgrees site w c) :=
  inferInstanceAs (Decidable (∀ n ∈ c.notes, ∀ content ∈ c.file n.noteId, _ → _ → _ → _ = _))

/-- Every write marks what it changes. -/
def Marking : Op → Prop
  | .commit write => ∀ c ∈ w.commit site write, MarksChanged site w c
  | _ => True

def Fits : Op → Prop
  | .commit write => ∀ c ∈ w.commit site write, MarksChanged site w c ∧ SnapshotAgrees site w c
  | _ => True

instance (op : Op) : Decidable (Marking site w op) := by
  cases op <;> unfold Marking <;> infer_instance

instance (op : Op) : Decidable (Fits site w op) := by
  cases op <;> unfold Fits <;> infer_instance

end

/-! ## rows -/

section
variable {site : Site} {w : World} {n : NoteRow} {content folder : Text}

theorem mem_targets {snapshot : List IndexedNote} {notes : List NoteRow} {i : String} :
    i ∈ (site.rowsAt snapshot notes content folder).targets ↔
      (∃ t ∈ pathTargets site.extractWikilinks content, ∃ v,
        resolve site.casefold snapshot t folder true = some v ∧ v.noteId = i) ∨
      (∃ t ∈ site.extractWikilinks content, xwsNoteId t = some i) ∧
        i ∈ notes.map (·.noteId) ++ site.elsewhere := mem_resolvedIds

/-- A path link leads to a note of the index. -/
theorem mem_of_path_target {notes : List NoteRow} {t : Text} {v : IndexedNote}
    (h : resolve site.casefold (paths notes) t folder true = some v) :
    v.noteId ∈ notes.map (·.noteId) := by
  obtain ⟨m, hm, rfl⟩ := List.mem_map.mp (resolve_mem h)
  exact List.mem_map_of_mem hm

/-- While the right rows do not change, a snapshot that gives them keeps on giving them. -/
theorem rowsAt_stable {snapshot : List IndexedNote} {notes notes' : List NoteRow}
    (hsnap : site.rowsAt snapshot notes content folder = site.rows notes content folder)
    (hrows : site.rows notes content folder = site.rows notes' content folder) :
    site.rowsAt snapshot notes' content folder = site.rows notes' content folder := by
  have hdangling : (site.rowsAt snapshot notes' content folder).dangling =
      (site.rows notes' content folder).dangling :=
    (congrArg Rows.dangling hsnap).trans (congrArg Rows.dangling hrows)
  have htargets : (site.rowsAt snapshot notes' content folder).targets =
      (site.rows notes' content folder).targets := by
    have hiff : ∀ i, i ∈ (site.rowsAt snapshot notes content folder).targets ↔
        i ∈ (site.rows notes' content folder).targets := fun i => by rw [hsnap, hrows]
    apply Finset.ext
    intro i
    constructor
    · intro h
      rcases mem_targets.mp h with h | h
      · exact (hiff i).mp (mem_targets.mpr (.inl h))
      · exact mem_targets.mpr (.inr h)
    · intro h
      rcases mem_targets.mp ((hiff i).mpr h) with h' | ⟨hnamed, _⟩
      · exact mem_targets.mpr (.inl h')
      · -- a named id that the rows have is an id of the owner after the change
        refine mem_targets.mpr (.inr ⟨hnamed, ?_⟩)
        rcases mem_targets.mp h with ⟨t, _, v, hv, rfl⟩ | ⟨_, howned⟩
        · exact List.mem_append_left _ (mem_of_path_target hv)
        · exact howned
  calc site.rowsAt snapshot notes' content folder
      = ⟨(site.rowsAt snapshot notes' content folder).targets,
          (site.rowsAt snapshot notes' content folder).dangling⟩ := rfl
    _ = site.rows notes' content folder := by rw [htargets, hdangling]

/-- The right rows have no link to a note that is not there. -/
theorem target_exists {notes : List NoteRow} {i : String}
    (h : i ∈ (site.rows notes content folder).targets) :
    i ∈ notes.map (·.noteId) ++ site.elsewhere := by
  rcases mem_targets.mp h with ⟨t, _, v, hv, rfl⟩ | ⟨_, howned⟩
  · exact List.mem_append_left _ (mem_of_path_target hv)
  · exact howned

theorem loadState_eq (hids : IdsOk site w.notes) (hn : n ∈ w.notes) (hc : content ∈ w.file n.noteId) :
    w.loadState n.noteId = ⟨some n, some content⟩ := by
  have hrow : w.notes.find? (fun m => m.noteId = n.noteId) = some n :=
    hids.keyed.row_eq.mpr ⟨hn, rfl⟩
  rw [World.loadState, hrow, show w.file n.noteId = some content from hc]

/-- States of one revision are read and resolved alike. -/
theorem eq_of_revision {st : SourceState}
    (h : (⟨some n, some content⟩ : SourceState).revision = st.revision) :
    ∃ m, st = ⟨some m, some content⟩ ∧ m.folder = n.folder := by
  obtain ⟨note, c⟩ := st
  cases note with
  | none => cases h
  | some m =>
    simp only [SourceState.revision, Option.map_some, Option.some.injEq, Prod.mk.injEq] at h
    obtain ⟨hf, _, _, rfl⟩ := h
    exact ⟨m, rfl, hf.symm⟩

end
/-! ## what a write commits -/

/-- Every note with a body is written by the commit, marked by it, or as it was; and the teardown
leaves right rows alone. -/
structure Committed (site : Site) (w : World) (c : Commit) : Prop where
  ids : IdsOk site c.notes
  old : ∀ n ∈ c.notes, ∀ content ∈ c.file n.noteId, (c.own.lookup n.noteId).isSome ∨
    n.noteId ∈ c.marks ∨ n ∈ w.notes ∧ content ∈ w.file n.noteId
  stored : ∀ n ∈ c.notes, ∀ content, w.stored n.noteId = site.rows c.notes content n.folder →
    c.stored n.noteId = site.rows c.notes content n.folder

section
variable {site : Site} {w : World} {c : Commit}

theorem lookup_isSome {β : Type} {l : List (String × β)} {k : String} :
    (l.lookup k).isSome ↔ ∃ x ∈ l, x.1 = k := by
  rw [List.lookup_isSome_iff]
  exact exists_congr fun x => and_congr_right fun _ => by rw [beq_iff_eq, eq_comm]

/-- The notes keep their ids. -/
theorem IdsOk.of_map {f : NoteRow → NoteRow} (h : IdsOk site w.notes)
    (hf : ∀ n, (f n).noteId = n.noteId) : IdsOk site (w.notes.map f) := by
  refine ⟨?_, ?_, ?_⟩
  · rw [keyed_iff_nodup, List.map_map]
    simpa [Function.comp_def, hf] using keyed_iff_nodup.mp h.keyed
  · intro n hn
    obtain ⟨m, hm, rfl⟩ := List.mem_map.mp hn
    exact hf m ▸ h.ne m hm
  · intro n hn
    obtain ⟨m, hm, rfl⟩ := List.mem_map.mp hn
    exact hf m ▸ h.here m hm

theorem create_committed (h : IdsOk site w.notes) {saw : List IndexedNote} {drafts : List Draft}
    {affected : List String} (hc : w.create site saw drafts affected = some c) :
    Committed site w c := by
  dsimp only [World.create] at hc
  split at hc
  swap
  · cases hc
  rename_i hfresh
  cases hc
  have hfresh' : ∀ d ∈ drafts, d.1.noteId ≠ "" ∧ d.1.noteId ∉ w.notes.map (·.noteId) ∧
      d.1.noteId ∉ site.elsewhere := fun d hd => hfresh.2 _ (List.mem_map_of_mem hd)
  refine ⟨⟨?_, ?_, ?_⟩, ?_, fun _ _ _ hs => hs⟩
  · rw [keyed_iff_nodup, List.map_append, List.map_map]
    refine List.nodup_append'.mpr ⟨keyed_iff_nodup.mp h.keyed, hfresh.1, ?_⟩
    intro i hi hnew
    obtain ⟨d, hd, rfl⟩ := List.mem_map.mp hnew
    exact (hfresh' d hd).2.1 hi
  · intro n hn
    rcases List.mem_append.mp hn with hn | hn
    · exact h.ne n hn
    · obtain ⟨d, hd, rfl⟩ := List.mem_map.mp hn
      exact (hfresh' d hd).1
  · intro n hn
    rcases List.mem_append.mp hn with hn | hn
    · exact h.here n hn
    · obtain ⟨d, hd, rfl⟩ := List.mem_map.mp hn
      exact (hfresh' d hd).2.2
  · intro n hn content hcontent
    rcases List.mem_append.mp hn with hn | hn
    · have hnone : (drafts.find? fun d => d.1.noteId = n.noteId) = none := by
        refine List.find?_eq_none.mpr fun d hd e => (hfresh' d hd).2.1 ?_
        exact of_decide_eq_true e ▸ List.mem_map_of_mem hn
      refine .inr (.inr ⟨hn, ?_⟩)
      simpa [writeFiles, hnone] using hcontent
    · obtain ⟨d, hd, rfl⟩ := List.mem_map.mp hn
      exact .inl (lookup_isSome.mpr ⟨_, List.mem_map_of_mem hd, rfl⟩)

theorem update_committed (h : IdsOk site w.notes) {items : List Draft} {affected : List String}
    (hc : w.update site items affected = some c) : Committed site w c := by
  dsimp only [World.update] at hc
  split at hc
  swap
  · cases hc
  cases hc
  have hid : ∀ n : NoteRow, (((items.find? fun d => d.1.noteId = n.noteId).map (·.1)).getD n).noteId =
      n.noteId := by
    intro n
    cases hd : items.find? fun d => d.1.noteId = n.noteId with
    | none => rfl
    | some d => simpa using List.find?_some hd
  refine ⟨h.of_map hid, ?_, fun _ _ _ hs => hs⟩
  intro n' hn' content hcontent
  obtain ⟨n, hn, rfl⟩ := List.mem_map.mp hn'
  rw [hid] at hcontent ⊢
  cases hd : items.find? fun d => d.1.noteId = n.noteId with
  | none => exact .inr (.inr ⟨hn, by simpa [writeFiles, hd] using hcontent⟩)
  | some d =>
    have hdid : d.1.noteId = n.noteId := by simpa using List.find?_some hd
    exact .inl (lookup_isSome.mpr ⟨_, List.mem_map_of_mem (List.mem_of_find?_eq_some hd), hdid⟩)

theorem move_committed (h : IdsOk site w.notes) {folders : List (String × Text)}
    {affected : List String} (hc : w.move folders affected = some c) : Committed site w c := by
  unfold World.move at hc
  split at hc
  swap
  · cases hc
  cases hc
  refine ⟨h.of_map fun _ => rfl, ?_, fun _ _ _ hs => hs⟩
  intro n' hn' content hcontent
  obtain ⟨n, hn, rfl⟩ := List.mem_map.mp hn'
  cases hf : folders.lookup n.noteId with
  | none => exact .inr (.inr ⟨hn, hcontent⟩)
  | some f =>
    obtain ⟨x, hx, hxid⟩ := lookup_isSome.mp (Option.isSome_of_eq_some hf)
    exact .inr (.inl (List.mem_append_left _ (List.mem_map.mpr ⟨x, hx, hxid⟩)))

theorem delete_committed (h : IdsOk site w.notes) {noteIds affected : List String}
    (hc : w.delete noteIds affected = some c) : Committed site w c := by
  unfold World.delete at hc
  split at hc
  swap
  · cases hc
  rename_i hlocated
  cases hc
  have hkept : ∀ n ∈ deleteWhere (fun n : NoteRow => n.noteId ∈ noteIds) w.notes,
      n ∈ w.notes ∧ n.noteId ∉ noteIds := fun n hn => by simpa using hn
  refine ⟨⟨UniqueOn.deleteWhere h.keyed, fun n hn => h.ne n (hkept n hn).1,
    fun n hn => h.here n (hkept n hn).1⟩, ?_, ?_⟩
  · intro n hn content hcontent
    obtain ⟨hmem, hno⟩ := hkept n hn
    exact .inr (.inr ⟨hmem, by simpa [hno] using hcontent⟩)
  · intro n hn content hs
    have hnone : ∀ i ∈ (w.stored n.noteId).targets, i ∉ noteIds := by
      intro i hi hdel
      rw [hs] at hi
      rcases List.mem_append.mp (target_exists hi) with hi | hi
      · obtain ⟨m, hm, rfl⟩ := List.mem_map.mp hi
        exact (hkept m hm).2 hdel
      · obtain ⟨m, hm, rfl⟩ := List.mem_map.mp (hlocated i hdel)
        exact h.here m hm hi
    show (if n.noteId ∈ noteIds then Rows.empty else _) = _
    rw [if_neg (hkept n hn).2, Finset.filter_true_of_mem hnone]
    exact hs

theorem commit_committed (h : IdsOk site w.notes) {write : Write}
    (hc : w.commit site write = some c) : Committed site w c := by
  cases write with
  | create saw drafts affected => exact create_committed h hc
  | update items affected => exact update_committed h hc
  | move folders affected => exact move_committed h hc
  | delete noteIds affected => exact delete_committed h hc

end
/-! ## markers -/

section
variable {site : Site} {dirty : List Marker} {generations : List (String × Nat)}
  {sources : List String} {s : String}

theorem gen_markSources : gen (markAll dirty (markKeys site.ownerId site.workspace sources))
    (site.key s) = if s ∈ sources ∧ s ≠ "" then
      some ((gen dirty (site.key s)).elim 1 (· + 1)) else gen dirty (site.key s) := by
  rw [gen_markAll _ (markKeys_nodup _ _ _)]
  have hmem : site.key s ∈ markKeys site.ownerId site.workspace sources ↔ s ∈ sources ∧ s ≠ "" := by
    rw [← mem_sortedSources, markKeys, List.mem_map]
    constructor
    · rintro ⟨s', hs', hkey⟩
      obtain rfl : s' = s := congrArg MarkerKey.sourceNoteId hkey
      exact hs'
    · exact fun hs => ⟨s, hs, rfl⟩
  simp only [hmem]

/-- The listed generations are not above the present ones. -/
def ListedOk (site : Site) (dirty : List Marker) (generations : List (String × Nat)) : Prop :=
  ∀ x ∈ generations, ∃ g, gen dirty (site.key x.1) = some g ∧ x.2 ≤ g

theorem ListedOk.mark (h : ListedOk site dirty generations) :
    ListedOk site (markAll dirty (markKeys site.ownerId site.workspace sources)) generations := by
  intro x hx
  obtain ⟨g, hg, hle⟩ := h x hx
  rw [gen_markSources, hg]
  split
  · exact ⟨g + 1, rfl, Nat.le_succ_of_le hle⟩
  · exact ⟨g, rfl, hle⟩

/-- A mark after the listing survives the acknowledgement. -/
theorem survives_of_mark (h : ListedOk site dirty generations) (hs : s ∈ sources) (hne : s ≠ "") :
    Survives site (markAll dirty (markKeys site.ownerId site.workspace sources)) generations s := by
  refine ⟨_, by rw [gen_markSources, if_pos ⟨hs, hne⟩], fun hlisted => ?_⟩
  obtain ⟨g, hg, hle⟩ := h _ hlisted
  simp only [hg, Option.elim] at hle
  omega

theorem Survives.mark (hl : ListedOk site dirty generations) (h : Survives site dirty generations s) :
    Survives site (markAll dirty (markKeys site.ownerId site.workspace sources)) generations s := by
  by_cases hs : s ∈ sources ∧ s ≠ ""
  · exact survives_of_mark hl hs.1 hs.2
  · obtain ⟨g, hg, hno⟩ := h
    exact ⟨g, by rw [gen_markSources, if_neg hs, hg], hno⟩

end

/-! ## the steps -/

section
variable {site : Site} {w : World}

theorem Inv.commit (h : Inv site w) (hfree : w.writer = .free) {c : Commit}
    (hc : Committed site w c) (hm : MarksChanged site w c) (hs : SnapshotAgrees site w c) :
    Inv site { w with
      notes := c.notes, file := c.file, stored := c.stored, writer := .committed c.own c.marks } := by
  refine ⟨hc.ids, h.markers, h.listed, h.acknowledged, ?_, ?_⟩
  · intro n hn content hcontent r hr
    by_cases hmark : n.noteId ∈ c.marks
    · exact .inr hmark
    · have hrows := hm n hn content hcontent hmark
      rw [show c.own.lookup n.noteId = some r from hr] at hrows
      exact .inl hrows
  · intro n hn content hcontent
    by_cases hmark : n.noteId ∈ c.marks
    · exact .inl (.inr hmark)
    have hrows := hm n hn content hcontent hmark
    cases hown : c.own.lookup n.noteId with
    | some r =>
      rw [hown] at hrows
      refine .inr ⟨hs n hn content hcontent hmark (by rw [hown]; rfl), fun _ => ?_⟩
      show (c.own.lookup n.noteId).getD _ = _
      rw [hown]
      exact hrows
    | none =>
      rw [hown] at hrows
      obtain ⟨hn₀, hcontent₀⟩ : n ∈ w.notes ∧ content ∈ w.file n.noteId := by
        rcases hc.old n hn content hcontent with hsome | hmem | hold
        · simp [hown] at hsome
        · exact absurd hmem hmark
        · exact hold
      rcases h.graph n hn₀ content hcontent₀ with (hmarked | hpending) | hkept
      · exact .inl (.inl hmarked)
      · rw [hfree] at hpending
        cases hpending
      · refine .inr ⟨fun hp => rowsAt_stable (hkept.snapshot hp) hrows, fun hst => ?_⟩
        have hsettled := hkept.settled hst
        rw [hfree] at hsettled
        show (c.own.lookup n.noteId).getD _ = _
        rw [hown]
        exact hc.stored n hn content (hsettled.trans hrows)

theorem Inv.persistOwn (h : Inv site w) {own : List (String × Rows)} {marks : List String}
    (hw : w.writer = .committed own marks) :
    Inv site { w with
      stored := fun s => (own.lookup s).getD (w.stored s), writer := .persisted marks } := by
  refine ⟨h.ids, h.markers, h.listed, h.acknowledged, fun n _ content _ r hr => (by cases hr), ?_⟩
  intro n hn content hcontent
  rcases h.graph n hn content hcontent with (hmarked | hpending) | hkept
  · exact .inl (.inl hmarked)
  · rw [hw] at hpending
    exact .inl (.inr hpending)
  · refine .inr ⟨hkept.snapshot, fun hst => ?_⟩
    have hsettled := hkept.settled hst
    rw [hw] at hsettled
    exact hsettled

theorem Inv.mark (h : Inv site w) {marks : List String} (hw : w.writer = .persisted marks) :
    Inv site { w with dirty := w.markSources site marks, writer := .free } := by
  refine ⟨h.ids, markAll_keyed _ h.markers, ListedOk.mark h.listed, h.acknowledged,
    fun n _ content _ r hr => (by cases hr), ?_⟩
  intro n hn content hcontent
  rcases h.graph n hn content hcontent with (hmarked | hpending) | hkept
  · exact .inl (.inl (Survives.mark h.listed hmarked))
  · rw [hw] at hpending
    exact .inl (.inl (survives_of_mark h.listed hpending (h.ids.ne n hn)))
  · refine .inr ⟨hkept.snapshot, fun hst => ?_⟩
    have hsettled := hkept.settled hst
    rw [hw] at hsettled
    exact hsettled

/-- A step of the handler that only goes to its next phase. -/
theorem Inv.phase (h : Inv site w) {p : Phase} (hg : p.generations = w.handler.generations)
    (hack : ∀ x ∈ p.acknowledged, x ∈ p.generations)
    (hkept : ∀ n ∈ w.notes, ∀ content ∈ w.file n.noteId, Kept site w n content →
      Kept site { w with handler := p } n content) : Inv site { w with handler := p } := by
  refine ⟨h.ids, h.markers, ?_, hack, h.own, ?_⟩
  · show ListedOk site w.dirty p.generations
    rw [hg]
    exact h.listed
  · intro n hn content hcontent
    rcases h.graph n hn content hcontent with (hmarked | hpending) | hk
    · refine .inl (.inl ?_)
      show Survives site w.dirty p.generations n.noteId
      rw [hg]
      exact hmarked
    · exact .inl (.inr hpending)
    · exact .inr (hkept n hn content hcontent hk)

theorem Inv.list (h : Inv site w) (hw : w.handler = .waiting) {sources : List String}
    (hsources : ∀ x ∈ listDirty w.dirty site.ownerId site.workspace, x.1 ∈ sources) :
    Inv site { w with
      handler := .listed (listDirty w.dirty site.ownerId site.workspace) sources } := by
  refine ⟨h.ids, h.markers, ?_, fun x hx => (by cases hx), h.own, ?_⟩
  · intro x hx
    exact ⟨x.2, (gen_eq_some h.markers).mpr (mem_listDirty.mp hx), le_rfl⟩
  · intro n hn content hcontent
    rcases h.graph n hn content hcontent with (hmarked | hpending) | hkept
    · obtain ⟨g, hg, _⟩ := hmarked
      have hlisted := hsources (n.noteId, g) (mem_listDirty.mpr ((gen_eq_some h.markers).mp hg))
      exact .inr ⟨fun hp => hp.elim, fun hst => absurd hlisted hst⟩
    · exact .inl (.inr hpending)
    · refine .inr ⟨fun hp => hp.elim, fun _ => hkept.settled ?_⟩
      rw [hw]
      trivial

theorem Inv.persist (h : Inv site w) {p : Pass} (hw : w.handler = .loaded p) :
    Inv site { w with stored := w.persist site p, handler := .persisted p } := by
  have hlisted := h.listed
  have hack := h.acknowledged
  rw [hw] at hlisted hack
  refine ⟨h.ids, h.markers, hlisted, hack, h.own, ?_⟩
  intro n hn content hcontent
  have hmarked : Promised site w n.noteId →
      Promised site { w with stored := w.persist site p, handler := .persisted p } n.noteId := by
    rintro (hmarked | hpending)
    · rw [Marked, hw] at hmarked
      exact .inl hmarked
    · exact .inr hpending
  rcases h.graph n hn content hcontent with hpromised | hkept
  · exact .inl (hmarked hpromised)
  cases hown : w.writer.own n.noteId with
  | some r =>
    rcases h.own n hn content hcontent r hown with hr | hpending
    swap
    · exact .inl (.inr hpending)
    refine .inr ⟨fun hp => ?_, fun _ => ?_⟩
    · have hsnap := hkept.snapshot
      rw [hw] at hsnap
      exact hsnap ⟨hp.1, .inl hp.2⟩
    · show (w.writer.own n.noteId).getD _ = _
      rw [hown]
      exact hr
  | none =>
    have hsnap := hkept.snapshot
    have hsettled := hkept.settled
    rw [hw] at hsnap hsettled
    refine .inr ⟨fun hp => hsnap ⟨hp.1, .inl hp.2⟩, fun hst => ?_⟩
    show (w.writer.own n.noteId).getD (w.persist site p n.noteId) = _
    rw [hown, Option.getD_none, World.persist]
    by_cases hp : n.noteId ∈ p.pending
    · -- the source is as it was loaded, so the snapshot resolves what it holds now
      obtain ⟨m, hm, hfolder⟩ := eq_of_revision (hst hp)
      rw [if_pos hp, hm]
      show site.rowsAt p.snapshot w.notes content m.folder = _
      rw [hfolder]
      exact hsnap ⟨hp, .inr (hst hp)⟩
    · rw [if_neg hp]
      rw [hown] at hsettled
      exact hsettled hp

theorem Inv.verify (h : Inv site w) {p : Pass} (hw : w.handler = .persisted p) :
    Inv site { w with handler := w.verify p } := by
  have hack := h.acknowledged
  rw [hw] at hack
  have hstable : ∀ x ∈ p.acknowledged ++ p.generations.filter (fun x => x.1 ∈ p.pending ∧
      x.1 ∉ p.pending.filter fun s => (w.loadState s).revision ≠ (p.states s).revision),
      x ∈ p.generations := by
    intro x hx
    rcases List.mem_append.mp hx with hx | hx
    · exact hack x hx
    · exact (List.mem_filter.mp hx).1
  -- a source that is not reported as changed has the revision of its loaded state
  have hsame : ∀ n ∈ w.notes, ∀ content ∈ w.file n.noteId,
      n.noteId ∉ p.pending.filter (fun s => (w.loadState s).revision ≠ (p.states s).revision) →
      n.noteId ∈ p.pending →
      (⟨some n, some content⟩ : SourceState).revision = (p.states n.noteId).revision := by
    intro n hn content hcontent hno hp
    by_contra hne
    refine hno (List.mem_filter.mpr ⟨hp, decide_eq_true ?_⟩)
    rwa [loadState_eq h.ids hn hcontent]
  unfold World.verify
  dsimp only
  split
  · rename_i hnil
    refine h.phase (by rw [hw]; rfl) hstable fun n hn content hcontent hkept => ?_
    rw [hnil] at hsame
    refine ⟨fun hp => hp.elim, fun _ => ?_⟩
    have hsettled := hkept.settled
    rw [hw] at hsettled
    exact hsettled (hsame n hn content hcontent List.not_mem_nil)
  split
  · rename_i hpasses
    refine h.phase (by rw [hw]; rfl) hstable fun n hn content hcontent hkept => ?_
    have hsnap := hkept.snapshot
    have hsettled := hkept.settled
    rw [hw] at hsnap hsettled
    exact ⟨fun hp => hsnap ⟨(List.mem_filter.mp hp.1).1, hpasses⟩,
      fun hst => hsettled (hsame n hn content hcontent hst)⟩
  · refine h.phase (by rw [hw]; rfl) hstable fun n hn content hcontent hkept => ?_
    have hsettled := hkept.settled
    rw [hw] at hsettled
    exact ⟨fun hp => hp.elim, fun hst => hsettled (hsame n hn content hcontent hst)⟩

theorem Inv.requeue (h : Inv site w) {p : Pass} (hw : w.handler = .leftover p) :
    Inv site { w with
      dirty := w.markSources site p.pending
      handler := .finishing p.generations p.acknowledged } := by
  have hlisted := h.listed
  have hack := h.acknowledged
  rw [hw] at hlisted hack
  refine ⟨h.ids, markAll_keyed _ h.markers, ListedOk.mark hlisted, hack, h.own, ?_⟩
  intro n hn content hcontent
  by_cases hp : n.noteId ∈ p.pending
  · exact .inl (.inl (survives_of_mark hlisted hp (h.ids.ne n hn)))
  rcases h.graph n hn content hcontent with (hmarked | hpending) | hkept
  · rw [Marked, hw] at hmarked
    exact .inl (.inl (Survives.mark hlisted hmarked))
  · exact .inl (.inr hpending)
  · have hsettled := hkept.settled
    rw [hw] at hsettled
    exact .inr ⟨fun hp => hp.elim, fun _ => hsettled hp⟩

theorem Inv.acknowledge (h : Inv site w) {generations acknowledged : List (String × Nat)}
    (hw : w.handler = .finishing generations acknowledged) :
    Inv site { w with
      dirty := Links.acknowledge w.dirty site.ownerId site.workspace acknowledged
      handler := .done } := by
  have hack := h.acknowledged
  rw [hw] at hack
  refine ⟨h.ids, acknowledge_keyed _ _ _ h.markers, fun x hx => (by cases hx),
    fun x hx => (by cases hx), h.own, ?_⟩
  intro n hn content hcontent
  rcases h.graph n hn content hcontent with (hmarked | hpending) | hkept
  · rw [Marked, hw] at hmarked
    obtain ⟨g, hg, hno⟩ := hmarked
    refine .inl (.inl ⟨g, ?_, List.not_mem_nil⟩)
    show gen (Links.acknowledge w.dirty site.ownerId site.workspace acknowledged) _ = _
    rw [gen_acknowledge h.markers, hg, Option.filter_some, if_pos]
    refine decide_eq_true ?_
    rintro ⟨⟨s, g'⟩, hx, hkey, rfl⟩
    obtain rfl : s = n.noteId := congrArg MarkerKey.sourceNoteId hkey
    exact hno (hack _ hx)
  · exact .inl (.inr hpending)
  · have hsettled := hkept.settled
    rw [hw] at hsettled
    exact .inr ⟨fun hp => hp.elim, hsettled⟩

theorem Start.inv (h : Start site w) : Inv site w := by
  refine ⟨h.ids, h.markers, ?_, ?_, ?_, ?_⟩
  · rw [h.handler]
    exact fun x hx => (by cases hx)
  · rw [h.handler]
    exact fun x hx => (by cases hx)
  · rw [h.writer]
    exact fun n _ content _ r hr => (by cases hr)
  · intro n hn content hcontent
    rcases h.converged n hn content hcontent with hrows | hmarked
    · refine .inr ⟨fun hp => ?_, fun _ => ?_⟩
      · rw [h.handler] at hp
        exact hp.elim
      · rw [h.writer]
        exact hrows
    · obtain ⟨g, hg⟩ := Option.isSome_iff_exists.mp hmarked
      refine .inl (.inl ⟨g, hg, ?_⟩)
      rw [h.handler]
      exact List.not_mem_nil

theorem Inv.step {op : Op} {w' : World} (h : Inv site w) (hok : Fits site w op)
    (hst : w.step site op = some w') : Inv site w' := by
  cases op with
  | commit write =>
    dsimp only [World.step] at hst
    split at hst
    · rename_i hfree
      obtain ⟨c, hc, rfl⟩ := Option.map_eq_some_iff.mp hst
      obtain ⟨hm, hs⟩ := hok c hc
      exact h.commit hfree (commit_committed h.ids hc) hm hs
    · cases hst
  | persistOwn =>
    dsimp only [World.step] at hst
    split at hst
    · cases hst
      exact h.persistOwn ‹_›
    · cases hst
  | mark =>
    dsimp only [World.step] at hst
    split at hst
    · cases hst
      exact h.mark ‹_›
    · cases hst
  | listDirty extra =>
    dsimp only [World.step] at hst
    split at hst
    · rename_i hwaiting
      split at hst
      · cases hst
        split
        · refine h.phase (by rw [hwaiting]; rfl) (fun x hx => (by cases hx)) ?_
          intro n hn content hcontent hkept
          have hsettled := hkept.settled
          rw [hwaiting] at hsettled
          exact ⟨fun hp => hp.elim, hsettled⟩
        · exact h.list hwaiting fun x hx => List.mem_append_left _ (List.mem_map_of_mem hx)
      · cases hst
    · cases hst
  | snapshot =>
    dsimp only [World.step] at hst
    split at hst
    · rename_i hlisted
      cases hst
      refine h.phase (by rw [hlisted]; rfl) (fun x hx => (by cases hx)) ?_
      intro n hn content hcontent hkept
      have hsettled := hkept.settled
      rw [hlisted] at hsettled
      exact ⟨fun _ => rfl, hsettled⟩
    · cases hst
  | load =>
    dsimp only [World.step] at hst
    split at hst
    · rename_i hindexed
      cases hst
      refine h.phase (by rw [hindexed]; rfl) (fun x hx => (by cases hx)) ?_
      intro n hn content hcontent hkept
      have hsnap := hkept.snapshot
      have hsettled := hkept.settled
      rw [hindexed] at hsnap hsettled
      exact ⟨fun hp => hsnap hp.1, hsettled⟩
    · cases hst
  | persist =>
    dsimp only [World.step] at hst
    split at hst
    · cases hst
      exact h.persist ‹_›
    · cases hst
  | verify =>
    dsimp only [World.step] at hst
    split at hst
    · cases hst
      exact h.verify ‹_›
    · cases hst
  | requeue =>
    dsimp only [World.step] at hst
    split at hst
    · cases hst
      exact h.requeue ‹_›
    · cases hst
  | acknowledge =>
    dsimp only [World.step] at hst
    split at hst
    · cases hst
      exact h.acknowledge ‹_›
    · cases hst

theorem inv_reach (h : Reach (repair site) (Fits site) w) : Inv site w :=
  h.inv (fun _ h0 => Start.inv h0) fun _ _ _ _ hinv hok hst => hinv.step hok hst

/-- After the handler's run and the last write, every source whose stored rows are not the
resolution of its body has a marker. -/
theorem reconcile_converges (h : Reach (repair site) (Fits site) w) (hw : w.writer = .free)
    (hd : w.handler = .done) : Converged site w := by
  intro n hn content hcontent
  rcases (inv_reach h).graph n hn content hcontent with (hmarked | hpending) | hkept
  · obtain ⟨g, hg, _⟩ := hmarked
    exact .inr (by rw [hg]; rfl)
  · rw [hw] at hpending
    cases hpending
  · have hsettled := hkept.settled
    rw [hd, hw] at hsettled
    exact .inl (hsettled trivial)

end

/-! ### a source that is edited behind the snapshot -/

/-- The Markdown parser on bodies that are one link. -/
def oneLink (body : Text) : List Text :=
  if body = "[[Old]]".toList then ["Old".toList]
  else if body = "[[New]]".toList then ["New".toList]
  else []

def exampleSite : Site where
  ownerId := "u1"
  workspace := "work"
  elsewhere := []
  casefold s := s.map Char.toLower
  extractWikilinks := oneLink

def targetRow (title : String) (updatedAt : String) : NoteRow := ⟨⟨"t", [], title.toList⟩, updatedAt⟩

def sourceRow (updatedAt : String) : NoteRow := ⟨⟨"s", [], "Source".toList⟩, updatedAt⟩

/-- A source without links whose marker waits for the handler. -/
def markedWorld : World where
  notes := [targetRow "Old" "1", sourceRow "1"]
  file s := if s = "t" ∨ s = "s" then some [] else none
  stored _ := .empty
  dirty := [⟨exampleSite.key "s", 1⟩]
  writer := .free
  handler := .waiting

theorem markedWorld_start : Start exampleSite markedWorld := by
  refine ⟨⟨by decide +kernel, by decide +kernel, by decide +kernel⟩, by decide +kernel, rfl, rfl, ?_⟩
  exact fun n hn content hcontent => by
    revert content
    revert n
    decide +kernel

/-- A foreground write from its commit to its marks. -/
def wholeWrite (write : Write) : List Op := [.commit write, .persistOwn, .mark]

/-- The target gets the title that the source is then edited to link to. -/
def renameThenEdit : List Op :=
  wholeWrite (.update [(targetRow "New" "2", [])] []) ++
    wholeWrite (.update [(sourceRow "3", "[[New]]".toList)] [])

/-- What the runs below are compared on. -/
structure View where
  notes : List NoteRow
  body : Option Text
  stored : Rows
  dirty : List Marker
  writerFree : Bool
  handlerDone : Bool
deriving DecidableEq

def World.view (w : World) : View where
  notes := w.notes
  body := w.file "s"
  stored := w.stored "s"
  dirty := w.dirty
  writerFree := match w.writer with | .free => true | _ => false
  handlerDone := match w.handler with | .done => true | _ => false

theorem writer_free_of_view {w : World} (h : w.view.writerFree = true) : w.writer = .free := by
  unfold World.view at h
  cases hw : w.writer <;> simp [hw] at h
  rfl

theorem handler_done_of_view {w : World} (h : w.view.handlerDone = true) : w.handler = .done := by
  unfold World.view at h
  cases hw : w.handler <;> simp [hw] at h
  rfl

/-- Both writes between the handler's listing and its snapshot: the handler repairs the source. -/
theorem reconcile_converges_early : ∃ w, (repair exampleSite).exec markedWorld
    ([.listDirty []] ++ renameThenEdit ++ [.snapshot, .load, .persist, .verify, .acknowledge]) = some w ∧
    Converged exampleSite w := by
  have hview : ((repair exampleSite).exec markedWorld ([.listDirty []] ++ renameThenEdit ++
      [.snapshot, .load, .persist, .verify, .acknowledge])).map
        (fun w => (w.view.writerFree, w.view.handlerDone)) = some (true, true) := by decide +kernel
  obtain ⟨w, hw, hv⟩ := Option.map_eq_some_iff.mp hview
  obtain ⟨hfree, hdone⟩ := Prod.mk.inj hv
  exact ⟨w, hw, reconcile_converges (.of_guarded (.start markedWorld_start) (by decide +kernel) hw)
    (writer_free_of_view hfree) (handler_done_of_view hdone)⟩

/-- Both writes between the handler's snapshot and its reading of the source: the handler replaces
the edit's link by a dangling row and deletes the source's marker. -/
theorem reconcile_converges_stale :
    let run := [.listDirty [], .snapshot] ++ renameThenEdit ++ [.load, .persist, .verify, .acknowledge]
    (repair exampleSite).Guarded (Marking exampleSite) markedWorld run ∧
    ∃ w, (repair exampleSite).exec markedWorld run = some w ∧ w.writer = .free ∧ w.handler = .done ∧
      ¬ Converged exampleSite w := by
  intro run
  have hview : ((repair exampleSite).exec markedWorld run).map World.view =
      some ⟨[targetRow "New" "2", sourceRow "3"], some "[[New]]".toList,
        ⟨∅, [([], "New".toList)]⟩, [⟨exampleSite.key "t", 1⟩], true, true⟩ := by decide +kernel
  obtain ⟨w, hw, hv⟩ := Option.map_eq_some_iff.mp hview
  refine ⟨by decide +kernel, w, hw, writer_free_of_view (by rw [hv]), handler_done_of_view (by rw [hv]),
    fun hc => ?_⟩
  simp only [World.view, View.mk.injEq] at hv
  obtain ⟨hnotes, hfile, hstored, hdirty, _⟩ := hv
  rcases hc (sourceRow "3") (by rw [hnotes]; simp) "[[New]]".toList hfile with hrows | hmarked
  · rw [show w.stored (sourceRow "3").noteId = w.stored "s" from rfl, hstored, hnotes] at hrows
    revert hrows
    decide +kernel
  · rw [hdirty] at hmarked
    revert hmarked
    decide +kernel

end Kajet.Repair
