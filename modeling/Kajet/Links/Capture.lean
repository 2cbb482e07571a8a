import Kajet.Links.Affected

/-!
# When the affected set is complete

Suppose that the stored graph of a workspace is up to date.  A source whose links change their
meaning is missed exactly when a new identity captures one of its links: the link had no exact
match, no link of the source is watched under the titles of the operation, and the new note matches
it exactly, or up to case in front of all the notes that did so before.

* `mem_affectedSources`      the stored graph finds the watched sources;
* `resolve_of_captured`      a captured link resolves to a new identity;
* `resolve_of_not_captured`  the other links of a source that is not watched keep their meaning;
* `affected_complete_iff`.
-/

namespace Kajet.Links
open Str Table

section
variable (casefold : Text → Text) (extractWikilinks : Text → List Text)

/-- The links of a note's body while the workspace holds `notes`. -/
def Workspace.resolution (ws : Workspace) (notes : List IndexedNote) (n : IndexedNote) :
    LinkResolution :=
  resolveLinks casefold extractWikilinks notes (ws.owned notes) (ws.content n.noteId) n.folder

/-- The stored rows of every source are the resolution of its body against the current notes. -/
structure UpToDate (ws : Workspace) : Prop where
  links : ∀ n ∈ ws.notes, ∀ l : NoteLink, l.sourceNoteId = n.noteId →
    (l ∈ ws.links ↔ l.workspace = ws.name ∧ l.ownerId = ws.ownerId ∧
      l.targetNoteId ∈ (ws.resolution casefold extractWikilinks ws.notes n).resolvedIds)
  dangling : ∀ n ∈ ws.notes, ∀ d : DanglingLink, d.sourceNoteId = n.noteId →
    (d ∈ ws.dangling ↔ d.workspace = ws.name ∧ d.ownerId = ws.ownerId ∧
      (d.targetFolder, d.targetTitle) ∈
        (ws.resolution casefold extractWikilinks ws.notes n).brokenPairs)

/-- Other notes, or other broken links. -/
def LinkResolution.Differs (before after : LinkResolution) : Prop :=
  before.resolvedIds ≠ after.resolvedIds ∨ before.broken ≠ after.broken

/-- Every source that resolves differently after the operation is marked, unless it is a note that
the operation created, moved or deleted. -/
def Complete (ws : Workspace) (e : Effect) : Prop :=
  ∀ n ∈ ws.notes, ∀ n' ∈ e.notes, n'.noteId = n.noteId → n.noteId ∉ e.done →
    (ws.resolution casefold extractWikilinks ws.notes n).Differs
      (ws.resolution casefold extractWikilinks e.notes n') → n.noteId ∈ e.affected

/-- A link of the source resolves to a note with one of the titles, or is broken with one of them. -/
def Watched (ws : Workspace) (e : Effect) (n : IndexedNote) : Prop :=
  let before := ws.resolution casefold extractWikilinks ws.notes n
  (∃ m ∈ e.paths, m.title ∈ e.titles ∧ m.noteId ∈ before.resolvedIds) ∨
    ∃ p ∈ before.brokenPairs, p.2 ∈ e.titles

/-- The target has no exact match in `notes`, and `n'` matches it exactly, or up to case in front of
all the notes that do so. -/
def Captures (notes : List IndexedNote) (target source : Text) (n' : IndexedNote) : Prop :=
  (∀ n ∈ notes, exactMatch target n = false) ∧
    (exactMatch target n' = true ∨ casefoldMatch casefold target n' = true ∧
      ∀ c ∈ notes, casefoldMatch casefold target c = true →
        linkRank target source n' < linkRank target source c)

/-- No new identity captures a link of a source that is neither watched nor part of the operation,
and none has the id of such a source's `[[note:ID]]` link that named no note. -/
def NoCapture (ws : Workspace) (e : Effect) : Prop :=
  ∀ n ∈ ws.notes, n ∈ e.notes → n.noteId ∉ e.done → ¬ Watched casefold extractWikilinks ws e n →
    ∀ n' ∈ e.notes, n' ∉ ws.notes →
      (∀ t ∈ pathTargets extractWikilinks (ws.content n.noteId),
        ¬ Captures casefold ws.notes t n.folder n') ∧
      ∀ t ∈ extractWikilinks (ws.content n.noteId), xwsNoteId t = some n'.noteId →
        n'.noteId ∈ ws.owned ws.notes

end

section
variable {casefold : Text → Text} {extractWikilinks : Text → List Text} {ws : Workspace} {e : Effect}
  {n w : IndexedNote} {t : Text}

/-- On an up to date graph the query finds the watched sources. -/
theorem mem_affectedSources (hup : UpToDate casefold extractWikilinks ws) (hn : n ∈ ws.notes) :
    n.noteId ∈ ws.affectedSources e.paths e.titles [] ↔ Watched casefold extractWikilinks ws e n := by
  rw [Workspace.affectedSources, Finset.mem_union, Finset.mem_union, mem_backlinksMany,
    mem_sourcesForTitles, List.toFinset_nil, or_iff_left (Finset.notMem_empty _)]
  refine or_congr ?_ ?_
  · constructor
    · rintro ⟨l, hl, hsource, hids, _⟩
      obtain ⟨m, hm, htitle, hid⟩ := mem_targetIdsForTitles.mp hids
      exact ⟨m, hm, htitle, hid ▸ ((hup.links n hn l hsource).mp hl).2.2⟩
    · rintro ⟨m, hm, htitle, hid⟩
      let l : NoteLink := ⟨n.noteId, m.noteId, ws.name, ws.ownerId⟩
      have hl : l ∈ ws.links := (hup.links n hn l rfl).mpr ⟨rfl, rfl, hid⟩
      exact ⟨l, hl, rfl, mem_targetIdsForTitles.mpr ⟨m, hm, htitle, rfl⟩, rfl⟩
  · constructor
    · rintro ⟨d, hd, hsource, _, _, htitle⟩
      exact ⟨_, ((hup.dangling n hn d hsource).mp hd).2.2, htitle⟩
    · rintro ⟨p, hp, htitle⟩
      let d : DanglingLink := ⟨ws.name, ws.ownerId, n.noteId, p.1, p.2⟩
      have hd : d ∈ ws.dangling := (hup.dangling n hn d rfl).mpr ⟨rfl, rfl, hp⟩
      exact ⟨d, hd, rfl, rfl, rfl, htitle⟩

/-! ## a source that is not watched -/

section
variable (hr : Retitles ws e) (hw : ¬ Watched casefold extractWikilinks ws e n)
  (ht : t ∈ pathTargets extractWikilinks (ws.content n.noteId))

/-- A chosen note whose title the operation does not mention is still the first of its class. -/
theorem Chosen.kept {p : IndexedNote → Bool} {key : IndexedNote → Rank}
    {notes notes' : List IndexedNote} (h : Chosen p key notes w) (htitle : w.title ∉ e.titles)
    (hnotes : notes.filter (fun n => n.title ∉ e.titles) = notes'.filter fun n => n.title ∉ e.titles)
    (hleast : ∀ c ∈ notes', p c = true → key w ≤ key c) : Chosen p key notes' w := by
  have hclass : ∀ l : List IndexedNote, (l.filter fun n => n.title ∉ e.titles).filter
      (fun c => c.folder = w.folder ∧ c.title = w.title) =
        l.filter fun c => c.folder = w.folder ∧ c.title = w.title := by
    intro l
    rw [List.filter_filter]
    refine List.filter_congr fun c _ => ?_
    by_cases hc : c.title = w.title
    · simp [hc, htitle]
    · simp [hc]
  refine ⟨h.admitted, hleast, ?_⟩
  rw [← hclass, ← hnotes, hclass]
  exact h.first

include hr

/-- A note whose title the operation does not mention is there before and after. -/
theorem mem_of_title (htitle : w.title ∉ e.titles) : w ∈ e.notes ↔ w ∈ ws.notes := by
  have hiff : w ∈ e.notes.filter (fun n => n.title ∉ e.titles) ↔
      w ∈ ws.notes.filter fun n => n.title ∉ e.titles := by rw [hr.kept]
  simpa [htitle] using hiff

include hw

theorem title_of_resolved_id (hmem : w ∈ ws.notes)
    (hid : w.noteId ∈ (ws.resolution casefold extractWikilinks ws.notes n).resolvedIds) :
    w.title ∉ e.titles := fun htitle => hw (.inl ⟨w, hr.snapshot hmem, htitle, hid⟩)

/-- The id of a new identity is not among the ids that the source resolved to. -/
theorem new_id_not_resolved (hmem : w ∈ e.notes) (hnew : w ∉ ws.notes) :
    w.noteId ∉ (ws.resolution casefold extractWikilinks ws.notes n).resolvedIds := by
  intro hid
  rcases hr.appears w hmem hnew with ⟨m, hm, hmid, htitle⟩ | hfresh
  · exact title_of_resolved_id hr hw hm (hmid ▸ hid) htitle
  · rcases mem_resolvedIds.mp hid with ⟨t, _, v, hv, hvid⟩ | ⟨_, howned⟩
    · exact hfresh (List.mem_append_left _ (hvid ▸ List.mem_map_of_mem (resolve_mem hv)))
    · exact hfresh howned

include ht

theorem title_of_resolved (h : resolve casefold ws.notes t n.folder true = some w) :
    w.title ∉ e.titles :=
  title_of_resolved_id hr hw (resolve_mem h) (mem_resolvedIds.mpr (.inl ⟨t, ht, w, h, rfl⟩))

/-- A link that no new identity captures keeps its meaning. -/
theorem resolve_of_not_captured
    (hno : ∀ n' ∈ e.notes, n' ∉ ws.notes → ¬ Captures casefold ws.notes t n.folder n') :
    resolve casefold e.notes t n.folder true = resolve casefold ws.notes t n.folder true := by
  by_cases hexact : ∀ c ∈ ws.notes, exactMatch t c = false
  · have hexact' : ∀ c ∈ e.notes, exactMatch t c = false := fun c hc => by
      by_cases hcold : c ∈ ws.notes
      · exact hexact c hcold
      · exact Bool.eq_false_of_not_eq_true fun hm => hno c hc hcold ⟨hexact, .inl hm⟩
    cases hbefore : resolve casefold ws.notes t n.folder true with
    | none =>
      refine resolve_eq_none.mpr fun c hc => ⟨hexact' c hc, ?_⟩
      by_cases hcold : c ∈ ws.notes
      · exact (resolve_eq_none.mp hbefore c hcold).2
      · refine Bool.eq_false_of_not_eq_true fun hm => hno c hc hcold ⟨hexact, .inr ⟨hm, ?_⟩⟩
        intro d hd hdm
        exact absurd hdm (by simp [(resolve_eq_none.mp hbefore d hd).2])
    | some w =>
      have htitle := title_of_resolved hr hw ht hbefore
      rcases resolve_eq_some.mp hbefore with hw' | ⟨_, hw'⟩
      · exact absurd hw'.admitted (by simp [hexact w hw'.mem])
      · refine resolve_eq_some.mpr (.inr ⟨hexact', hw'.kept htitle hr.kept.symm fun c hc hcm => ?_⟩)
        by_cases hcold : c ∈ ws.notes
        · exact hw'.least c hcold hcm
        · by_contra hlt
          refine hno c hc hcold ⟨hexact, .inr ⟨hcm, fun d hd hdm => ?_⟩⟩
          exact (not_le.mp hlt).trans_le (hw'.least d hd hdm)
  · cases hbefore : resolve casefold ws.notes t n.folder true with
    | none => exact absurd (fun c hc => (resolve_eq_none.mp hbefore c hc).1) hexact
    | some w =>
      have htitle := title_of_resolved hr hw ht hbefore
      rcases resolve_eq_some.mp hbefore with hw' | ⟨hnone, _⟩
      · refine resolve_eq_some.mpr (.inl (hw'.kept htitle hr.kept.symm fun c hc hcm => ?_))
        -- an exact match has the title of the winner, which the operation does not mention
        have hcw : c.title = w.title := by
          simp only [exactMatch, Bool.and_eq_true, decide_eq_true_eq] at hcm
          have hwm := hw'.admitted
          simp only [exactMatch, Bool.and_eq_true, decide_eq_true_eq] at hwm
          exact hcm.1.trans hwm.1.symm
        exact hw'.least c ((mem_of_title hr (hcw ▸ htitle)).mp hc) hcm
      · exact absurd hnone hexact

omit ht in
/-- A `[[note:ID]]` link whose id no new note has keeps its meaning. -/
theorem owned_of_not_captured {i : String}
    (hi : ∃ t ∈ extractWikilinks (ws.content n.noteId), xwsNoteId t = some i)
    (hno : ∀ n' ∈ e.notes, n' ∉ ws.notes → n'.noteId = i → i ∈ ws.owned ws.notes) :
    i ∈ ws.owned e.notes ↔ i ∈ ws.owned ws.notes := by
  constructor
  · intro h
    rcases List.mem_append.mp h with h | h
    · obtain ⟨n', hn', rfl⟩ := List.mem_map.mp h
      by_cases hold : n' ∈ ws.notes
      · exact List.mem_append_left _ (List.mem_map_of_mem hold)
      · exact hno n' hn' hold rfl
    · exact List.mem_append_right _ h
  · intro h
    have hid : i ∈ (ws.resolution casefold extractWikilinks ws.notes n).resolvedIds :=
      mem_resolvedIds.mpr (.inr ⟨hi, h⟩)
    rcases List.mem_append.mp h with h | h
    · obtain ⟨m, hm, rfl⟩ := List.mem_map.mp h
      by_contra hlost
      exact title_of_resolved_id hr hw hm hid
        (hr.lost m hm fun hl => hlost (List.mem_append_left _ hl))
    · exact List.mem_append_right _ h

end

/-- A captured link resolves to a new identity. -/
theorem resolve_of_captured {notes notes' : List IndexedNote} {source : Text} {n' : IndexedNote}
    (hcap : Captures casefold notes t source n') (hn' : n' ∈ notes') :
    ∃ w ∈ notes', w ∉ notes ∧ resolve casefold notes' t source true = some w := by
  obtain ⟨hexact, hmatch⟩ := hcap
  cases hafter : resolve casefold notes' t source true with
  | none =>
    obtain ⟨h1, h2⟩ := resolve_eq_none.mp hafter n' hn'
    simp [h1, h2] at hmatch
  | some w =>
    refine ⟨w, resolve_mem hafter, fun hwold => ?_, rfl⟩
    rcases resolve_eq_some.mp hafter with hw | ⟨hexact', hw⟩
    · exact absurd hw.admitted (by simp [hexact w hwold])
    · rcases hmatch with hm | ⟨hm, hfirst⟩
      · exact absurd hm (by simp [hexact' n' hn'])
      · exact absurd (hfirst w hwold hw.admitted) (hw.least n' hn' hm).not_gt

/-! ## completeness -/

/-- On an up to date graph the affected set is complete exactly when no new identity captures a
link of a source that is not watched. -/
theorem affected_complete_iff {op : LinkOp} (hup : UpToDate casefold extractWikilinks ws)
    (hrun : ws.run op = some e) : Complete casefold extractWikilinks ws e ↔
      NoCapture casefold extractWikilinks ws e := by
  have hr := run_retitles hrun
  constructor
  · intro hc n hn hkept hd hw n' hn' hnew
    have hmarked : n.noteId ∉ e.affected := fun ha =>
      hw ((mem_affectedSources hup hn).mp ((hr.marked n hn hkept hd).mp ha))
    have hsame := not_or.mp fun hdiff => hmarked (hc n hn n hkept rfl hd hdiff)
    have hids := not_ne_iff.mp hsame.1
    constructor
    · intro t ht hcap
      obtain ⟨w, hwmem, hwnew, hres⟩ := resolve_of_captured hcap hn'
      apply new_id_not_resolved hr hw hwmem hwnew
      rw [hids]
      exact mem_resolvedIds.mpr (.inl ⟨t, ht, w, hres, rfl⟩)
    · intro t ht hx
      by_contra hfresh
      apply new_id_not_resolved hr hw hn' hnew
      rw [hids]
      exact mem_resolvedIds.mpr
        (.inr ⟨⟨t, ht, hx⟩, List.mem_append_left _ (List.mem_map_of_mem hn')⟩)
  · intro hno n hn n' hn' hid hd hdiff
    rcases hr.moved n hn n' hn' hid hd with rfl | hmarked
    swap
    · exact hmarked
    by_contra hmarked
    have hw : ¬ Watched casefold extractWikilinks ws e n' := fun hw =>
      hmarked ((hr.marked n' hn hn' hd).mpr ((mem_affectedSources hup hn).mpr hw))
    have hno := hno n' hn hn' hd hw
    have hres : ∀ t ∈ pathTargets extractWikilinks (ws.content n'.noteId),
        resolve casefold e.notes t n'.folder true = resolve casefold ws.notes t n'.folder true :=
      fun t ht => resolve_of_not_captured hr hw ht fun c hc hcnew => (hno c hc hcnew).1 t ht
    rcases hdiff with hdiff | hdiff
    · refine hdiff (Finset.ext fun i => ?_)
      rw [Workspace.resolution, Workspace.resolution, mem_resolvedIds, mem_resolvedIds]
      refine or_congr ?_ (and_congr_right fun hi => ?_)
      · exact exists_congr fun t => and_congr_right fun ht => by rw [hres t ht]
      · refine (owned_of_not_captured hr hw hi fun c hc hcnew hci => ?_).symm
        obtain ⟨t, ht, hx⟩ := hi
        exact hci ▸ (hno c hc hcnew).2 t ht (hci.symm ▸ hx)
    · exact hdiff (broken_congr fun t ht => by rw [hres t ht])

end

/-! ## a note with one broken link -/

/-- The Markdown parser on the only body of the workspace below. -/
def fooLink (body : Text) : List Text := if body = "[[Foo]]".toList then ["Foo".toList] else []

/-- `str.casefold` of ASCII text. -/
def asciiCasefold (s : Text) : Text := s.map Char.toLower

/-- One note, whose link has no target yet. -/
def fooWorkspace : Workspace where
  name := "work"
  ownerId := "u1"
  notes := [⟨"n1", [], "Notes".toList⟩]
  ids := by decide
  elsewhere := []
  links := []
  dangling := [⟨"work", "u1", "n1", [], "Foo".toList⟩]
  content _ := "[[Foo]]".toList

theorem fooWorkspace_upToDate : UpToDate asciiCasefold fooLink fooWorkspace := by
  have hres : ∀ n ∈ fooWorkspace.notes, n.noteId = "n1" ∧
      (fooWorkspace.resolution asciiCasefold fooLink fooWorkspace.notes n).resolvedIds = ∅ ∧
      (fooWorkspace.resolution asciiCasefold fooLink fooWorkspace.notes n).brokenPairs =
        [([], "Foo".toList)] := by decide +kernel
  constructor
  · intro n hn l _
    rw [(hres n hn).2.1]
    simp [fooWorkspace]
  · rintro n hn ⟨workspace, ownerId, source, folder, title⟩ hsource
    obtain rfl : source = "n1" := hsource.trans (hres n hn).1
    rw [(hres n hn).2.2]
    simp [fooWorkspace]

/-- A created note whose title is the broken link's: the source is found. -/
theorem affected_complete_foo : ∃ e,
    fooWorkspace.run (.create [] [⟨"n2", [], "Foo".toList⟩]) = some e ∧
      Complete asciiCasefold fooLink fooWorkspace e := by
  obtain ⟨e, he⟩ : ∃ e, fooWorkspace.run (.create [] [⟨"n2", [], "Foo".toList⟩]) = some e :=
    ⟨_, rfl⟩
  refine ⟨e, he, (affected_complete_iff fooWorkspace_upToDate he).mpr ?_⟩
  have hbroken : ∀ n ∈ fooWorkspace.notes, ([], "Foo".toList) ∈
      (fooWorkspace.resolution asciiCasefold fooLink fooWorkspace.notes n).brokenPairs := by
    decide +kernel
  intro n hn _ _ hw
  refine absurd (.inr ⟨([], "Foo".toList), hbroken n hn, ?_⟩) hw
  cases he
  simp

/-- A created note whose title is the broken link's up to case: the link now resolves to it, and
nothing marks the source. -/
theorem affected_complete_caseTwin : UpToDate asciiCasefold fooLink fooWorkspace ∧ ∃ e,
    fooWorkspace.run (.create [] [⟨"n2", [], "foo".toList⟩]) = some e ∧
      ¬ Complete asciiCasefold fooLink fooWorkspace e := by
  refine ⟨fooWorkspace_upToDate, _, rfl, fun hc => ?_⟩
  have hmissed := hc ⟨"n1", [], "Notes".toList⟩ (by decide +kernel) ⟨"n1", [], "Notes".toList⟩
    (by decide +kernel) rfl (by decide +kernel) (.inl (by decide +kernel))
  revert hmissed
  decide +kernel

end Kajet.Links
