import Kajet.Paths.Own
import Kajet.Links.Scanner
import Kajet.Links.Dirty

/-!
# The link graph of a batch

`save_many` resolves the links of every admitted draft against the workspace's notes and all the
admitted drafts (`drafted`); the drafts with broken links are dropped after that, and the links of the
others are not resolved again.

* `Graph`, `saveBatch`   the stored links and marks, and the batch with them;
* `resolve_sublist`      a link that goes to a note which stays goes to it when others leave;
* `prepared_rows`        the rows of every written draft are its resolution against `drafted`;
* `batch_linked`         they are those of the workspace after the batch, but for links to drafts
                         that were dropped.
-/

namespace Kajet.Paths
open Str Table Links Fallible

/-- The tables of the links and of the marks. -/
structure Graph where
  links : List NoteLink
  dangling : List DanglingLink
  marks : DirtyDb

/-- The workspace's name, its owner and the owner's notes in other workspaces. -/
structure Site where
  name : String
  ownerId : String
  elsewhere : List String

def Site.owned (site : Site) (v : Vault) : List String := v.notes.map (·.noteId) ++ site.elsewhere

/-- The rows of one source are replaced. -/
def Graph.persist (site : Site) (g : Graph) (x : String × LinkResolution) : Graph :=
  { g with
    links := replaceLinks g.links x.1 site.name site.ownerId x.2.resolvedIds
    dangling := deleteWhere (fun d => d.sourceNoteId = x.1) g.dangling ++
      x.2.brokenPairs.map fun p => ⟨site.name, site.ownerId, x.1, p.1, p.2⟩ }

def Graph.persistMany (site : Site) (g : Graph) (resolutions : List (String × LinkResolution)) : Graph :=
  resolutions.foldl (Graph.persist site) g

def Graph.affectedSources (site : Site) (g : Graph) (paths : List IndexedNote) (titles : List Text) :
    Finset String :=
  backlinksMany g.links (targetIdsForTitles paths titles) site.name ∪
    sourcesForTitles g.dangling site.ownerId site.name titles

section
variable (env : VaultEnv) (site : Site) (v : Vault)

def VaultEnv.batchDrafts (items : List (String × NewNote)) : List (Except VaultError Draft) :=
   env.admit v items [] (env.buildPathIndex v.notes)

/-- The notes of the snapshot that the batch's links are resolved against. -/
def VaultEnv.drafted (items : List (String × NewNote)) : List IndexedNote :=
  v.notes ++ (admitted (env.batchDrafts v items)).map (·.note)

/-- The drafts that are written. -/
def VaultEnv.prepared (items : List (String × NewNote)) : List Draft :=
  admitted (env.resolveBatch v (env.batchDrafts v items))

/-- `_resolve_links` of a body in `folder`. -/
def VaultEnv.resolution (notes : List IndexedNote) (owned : List String) (content folder : Text) :
    LinkResolution :=
  resolveLinks env.casefold env.extractWikilinks notes owned content folder

/-- `save_many` with what it stores of the links. -/
def VaultEnv.saveBatch (g : Graph) (items : List (String × NewNote)) (jobId : String) (now : ℚ) :
    Except (VaultError ⊕ Queue.DbError) (Vault × Graph × List (Except VaultError String)) := do
  let (saved, results) ← (env.saveMany v items).mapError .inl
  if env.prepared v items = [] then return (saved, g, results)
  else
    let notes := env.drafted v items
    let affected := g.affectedSources site notes ((env.prepared v items).map (·.note.title))
    let g := g.persistMany site ((env.prepared v items).map fun d =>
      (d.note.noteId, env.resolution notes (site.owned v) d.content d.note.folder))
    let (marks, _) ← (markAndEnqueue g.marks site.ownerId site.name (affected.sort (· ≤ ·)) jobId
      now).mapError .inr
    return (saved, { g with marks := marks }, results)

end

/-! ## rows -/

/-- The stored rows of a note are the resolution. -/
structure RowsOf (site : Site) (g : Graph) (noteId : String) (r : LinkResolution) : Prop where
  links : ∀ l : NoteLink, l.sourceNoteId = noteId → (l ∈ g.links ↔
    l.workspace = site.name ∧ l.ownerId = site.ownerId ∧ l.targetNoteId ∈ r.resolvedIds)
  dangling : ∀ d : DanglingLink, d.sourceNoteId = noteId → (d ∈ g.dangling ↔
    d.workspace = site.name ∧ d.ownerId = site.ownerId ∧ (d.targetFolder, d.targetTitle) ∈ r.brokenPairs)

section
variable {site : Site} {g : Graph} {noteId : String} {r r' : LinkResolution}

theorem RowsOf.congr (h : RowsOf site g noteId r) (hids : r.resolvedIds = r'.resolvedIds)
    (hbroken : r.broken = r'.broken) : RowsOf site g noteId r' := by
  have hpairs : r.brokenPairs = r'.brokenPairs := by
    rw [LinkResolution.brokenPairs, LinkResolution.brokenPairs, hbroken]
  exact ⟨hids ▸ h.links, hpairs ▸ h.dangling⟩

theorem mem_dangling_persist {x : String × LinkResolution} {d : DanglingLink} :
    d ∈ (g.persist site x).dangling ↔ (d ∈ g.dangling ∧ d.sourceNoteId ≠ x.1) ∨
      (d.sourceNoteId = x.1 ∧ d.workspace = site.name ∧ d.ownerId = site.ownerId ∧
        (d.targetFolder, d.targetTitle) ∈ x.2.brokenPairs) := by
  show d ∈ deleteWhere _ _ ++ _ ↔ _
  rw [List.mem_append, mem_deleteWhere, decide_eq_false_iff_not, List.mem_map]
  refine or_congr Iff.rfl ⟨?_, ?_⟩
  · rintro ⟨p, hp, rfl⟩
    exact ⟨rfl, rfl, rfl, hp⟩
  · rintro ⟨hsource, hname, howner, hp⟩
    exact ⟨_, hp, by rw [← hsource, ← hname, ← howner]⟩

theorem rowsOf_persist (x : String × LinkResolution) : RowsOf site (g.persist site x) x.1 x.2 where
  links l hl := by
    show l ∈ replaceLinks _ _ _ _ _ ↔ _
    rw [mem_replaceLinks]
    constructor
    · rintro (⟨_, hne⟩ | ⟨_, hids, hname, howner⟩)
      · exact absurd hl hne
      · exact ⟨hname, howner, hids⟩
    · exact fun ⟨hname, howner, hids⟩ => .inr ⟨hl, hids, hname, howner⟩
  dangling d hd := by
    rw [mem_dangling_persist]
    constructor
    · rintro (⟨_, hne⟩ | ⟨_, hrest⟩)
      · exact absurd hd hne
      · exact hrest
    · exact fun hrest => .inr ⟨hd, hrest⟩

/-- The rows of another source stay. -/
theorem RowsOf.persist (h : RowsOf site g noteId r) {x : String × LinkResolution} (hne : noteId ≠ x.1) :
    RowsOf site (g.persist site x) noteId r where
  links l hl := by
    rw [← h.links l hl]
    show l ∈ replaceLinks _ _ _ _ _ ↔ _
    rw [mem_replaceLinks]
    constructor
    · rintro (⟨hmem, _⟩ | ⟨hsource, _⟩)
      · exact hmem
      · exact absurd (hl.symm.trans hsource) hne
    · exact fun hmem => .inl ⟨hmem, hl ▸ hne⟩
  dangling d hd := by
    rw [← h.dangling d hd, mem_dangling_persist]
    constructor
    · rintro (⟨hmem, _⟩ | ⟨hsource, _⟩)
      · exact hmem
      · exact absurd (hd.symm.trans hsource) hne
    · exact fun hmem => .inl ⟨hmem, hd ▸ hne⟩

theorem RowsOf.persistMany {resolutions : List (String × LinkResolution)} (h : RowsOf site g noteId r)
    (hnot : noteId ∉ resolutions.map (·.1)) : RowsOf site (g.persistMany site resolutions) noteId r := by
  induction resolutions generalizing g with
  | nil => exact h
  | cons x resolutions ih =>
    obtain ⟨hx, hrest⟩ := not_or.mp (mt List.mem_cons.mpr hnot)
    exact ih (h.persist hx) hrest

/-- Every source has the rows of its resolution. -/
theorem rowsOf_persistMany {resolutions : List (String × LinkResolution)}
    (hnodup : (resolutions.map (·.1)).Nodup) {x : String × LinkResolution} (hx : x ∈ resolutions) :
    RowsOf site (g.persistMany site resolutions) x.1 x.2 := by
  induction resolutions generalizing g with
  | nil => cases hx
  | cons y resolutions ih =>
    obtain ⟨hy, hrest⟩ := List.nodup_cons.mp hnodup
    rcases List.mem_cons.mp hx with rfl | hx
    · exact (rowsOf_persist x).persistMany hy
    · exact ih hrest hx

end

/-! ## one link while drafts are dropped -/

section
variable {casefold : Text → Text} {notes notes' : List IndexedNote} {target source : Text} {w : IndexedNote}

/-- The first of a list is the first of every part that has it. -/
theorem head?_of_sublist {α : Type} {l l' : List α} {a : α} (hsub : l'.Sublist l) (hnodup : l.Nodup)
    (h : l.head? = some a) (ha : a ∈ l') : l'.head? = some a := by
  cases l with
  | nil => cases h
  | cons b l =>
    cases h
    cases hsub with
    | cons _ hsub => exact absurd (hsub.subset ha) (List.nodup_cons.mp hnodup).1
    | cons_cons _ _ => rfl

theorem chosen_sublist {p : IndexedNote → Bool} {key : IndexedNote → Rank} (hsub : notes'.Sublist notes)
    (hnodup : notes.Nodup) (h : Chosen p key notes w) (hw : w ∈ notes') : Chosen p key notes' w where
  admitted := h.admitted
  least c hc hp := h.least c (hsub.subset hc) hp
  first := head?_of_sublist (hsub.filter _) (hnodup.filter _) h.first
    (List.mem_filter.mpr ⟨hw, by simp⟩)

/-- A link that goes to a note which stays goes to it when others leave. -/
theorem resolve_sublist (hsub : notes'.Sublist notes) (hnodup : notes.Nodup)
    (h : resolve casefold notes target source true = some w) (hw : w ∈ notes') :
    resolve casefold notes' target source true = some w := by
  rcases resolve_eq_some.mp h with hexact | ⟨hno, hfold⟩
  · exact resolve_eq_some.mpr (.inl (chosen_sublist hsub hnodup hexact hw))
  · exact resolve_eq_some.mpr (.inr ⟨fun n hn => hno n (hsub.subset hn), chosen_sublist hsub hnodup hfold hw⟩)

theorem resolve_none_sublist (hsub : notes'.Sublist notes)
    (h : resolve casefold notes target source true = none) :
    resolve casefold notes' target source true = none :=
  resolve_eq_none.mpr fun n hn => resolve_eq_none.mp h n (hsub.subset hn)

end

/-- Every link of the body that goes to a note goes to one of `stay`. -/
def VaultEnv.LinksStay (env : VaultEnv) (notes stay : List IndexedNote) (content folder : Text) : Prop :=
  ∀ t ∈ pathTargets env.extractWikilinks content, ∀ w,
    resolve env.casefold notes t folder true = some w → w ∈ stay

section
variable {env : VaultEnv} {notes notes' : List IndexedNote} {owned owned' : List String}
  {content folder : Text}

theorem resolve_of_stay (hsub : notes'.Sublist notes) (hnodup : notes.Nodup)
    (hstay : env.LinksStay notes notes' content folder) {t : Text}
    (ht : t ∈ pathTargets env.extractWikilinks content) :
    resolve env.casefold notes' t folder true = resolve env.casefold notes t folder true := by
  cases h : resolve env.casefold notes t folder true with
  | none => exact resolve_none_sublist hsub h
  | some w => exact resolve_sublist hsub hnodup h (hstay t ht w h)

theorem broken_of_stay (hsub : notes'.Sublist notes) (hnodup : notes.Nodup)
    (hstay : env.LinksStay notes notes' content folder) :
    (env.resolution notes owned content folder).broken =
      (env.resolution notes' owned' content folder).broken :=
  broken_congr fun t ht => by rw [resolve_of_stay hsub hnodup hstay ht]

theorem resolvedIds_of_stay (hsub : notes'.Sublist notes) (hnodup : notes.Nodup)
    (hstay : env.LinksStay notes notes' content folder)
    (howned : ∀ i, (∃ t ∈ env.extractWikilinks content, xwsNoteId t = some i) → (i ∈ owned ↔ i ∈ owned')) :
    (env.resolution notes owned content folder).resolvedIds =
      (env.resolution notes' owned' content folder).resolvedIds := by
  ext i
  rw [VaultEnv.resolution, VaultEnv.resolution, mem_resolvedIds, mem_resolvedIds]
  have hpaths : (∃ t ∈ pathTargets env.extractWikilinks content, ∃ w,
      resolve env.casefold notes t folder true = some w ∧ w.noteId = i) ↔
      ∃ t ∈ pathTargets env.extractWikilinks content, ∃ w,
        resolve env.casefold notes' t folder true = some w ∧ w.noteId = i := by
    refine exists_congr fun t => and_congr_right fun ht => ?_
    rw [resolve_of_stay hsub hnodup hstay ht]
  rw [hpaths]
  exact or_congr Iff.rfl (and_congr_right fun hxws => howned i hxws)

end

/-! ## the batch -/

/-- The ids of a batch are new: no two are the same, no note of the owner has one, and none is named
in a body of the batch. -/
structure Drawn (env : VaultEnv) (site : Site) (v : Vault) (items : List (String × NewNote)) : Prop where
  nodup : (items.map (·.1)).Nodup
  fresh : ∀ x ∈ items, x.1 ∉ site.owned v
  unnamed : ∀ x ∈ items, ∀ y ∈ items, ∀ t ∈ env.extractWikilinks y.2.content, xwsNoteId t ≠ some x.1

section
variable {env : VaultEnv} {site : Site} {v v' : Vault} {d : Draft} {items : List (String × NewNote)}

theorem admitItem_from {accepted : List (Text × Text)} {pathIndex : List (Text × IndexedNote)}
    {noteId : String} {new : NewNote} (h : env.admitItem v accepted pathIndex noteId new = .ok d) :
    d.note.noteId = noteId ∧ d.content = new.content := by
  obtain ⟨_, _, h⟩ := bind_ok h
  obtain ⟨built, hbuilt, h⟩ := bind_ok h
  obtain ⟨_, _, h⟩ := bind_ok h
  obtain ⟨_, _, h⟩ := bind_ok h
  cases h
  obtain ⟨_, _, hbuilt⟩ := bind_ok hbuilt
  cases hbuilt
  exact ⟨rfl, rfl⟩

variable (env v) in
/-- The admitted drafts are those of the items, in order. -/
theorem admit_from (items : List (String × NewNote)) (accepted : List (Text × Text))
    (pathIndex : List (Text × IndexedNote)) :
    ((admitted ( env.admit v items accepted pathIndex)).map fun d => (d.note.noteId, d.content)).Sublist
      (items.map fun x => (x.1, x.2.content)) := by
  induction items generalizing accepted pathIndex with
  | nil => exact List.Sublist.slnil
  | cons item items ih =>
    obtain ⟨noteId, new⟩ := item
    unfold VaultEnv.admit
    split
    · exact (ih accepted pathIndex).cons _
    · rename_i draft hdraft
      obtain ⟨hid, hcontent⟩ := admitItem_from hdraft
      show (((draft.note.noteId, draft.content) :: _).Sublist ((noteId, new.content) :: _))
      rw [hid, hcontent]
      exact (ih _ _).cons_cons _

theorem mem_admit_from (hd : d ∈ admitted (env.batchDrafts v items)) :
    ∃ x ∈ items, x.1 = d.note.noteId ∧ x.2.content = d.content := by
  have hmem := (admit_from env v items [] (env.buildPathIndex v.notes)).subset (List.mem_map_of_mem hd)
  obtain ⟨x, hx, heq⟩ := List.mem_map.mp hmem
  exact ⟨x, hx, Prod.mk.inj heq⟩

theorem resolveBatch_sublist (items : List (String × NewNote)) :
    (env.prepared v items).Sublist (admitted (env.batchDrafts v items)) := by
  refine admitted_sublist (fun a b hab => ?_) _
  obtain ⟨_, _, hb⟩ := map_ok hab
  exact hb.symm

theorem mem_admitted {l : List (Except VaultError Draft)} : d ∈ admitted l ↔ .ok d ∈ l := by
  rw [admitted, List.mem_filterMap]
  constructor
  · rintro ⟨x, hx, hd⟩
    cases x with
    | error e => cases hd
    | ok a =>
      cases hd
      exact hx
  · exact fun h => ⟨_, h, rfl⟩

/-- With link validation on, a written draft has no broken link in the batch's snapshot. -/
theorem prepared_valid (hd : d ∈ env.prepared v items) (hon : env.linkValidation = true)
    (owned : List String) :
    (env.resolution (env.drafted v items) owned d.content d.note.folder).broken = [] := by
  obtain ⟨item, _, hitem⟩ := List.mem_map.mp (mem_admitted.mp hd)
  obtain ⟨a, _, hitem⟩ := bind_ok hitem
  obtain ⟨_, hvalid, rfl⟩ := map_ok hitem
  by_contra hne
  unfold VaultEnv.validate at hvalid
  dsimp only at hvalid
  rw [if_pos ⟨hne, hon⟩] at hvalid
  cases hvalid

theorem drafted_nodup (hdrawn : Drawn env site v items) : (env.drafted v items).Nodup := by
  have hids : ((env.drafted v items).map (·.noteId)).Nodup := by
    have hsub := (admit_from env v items [] (env.buildPathIndex v.notes)).map Prod.fst
    rw [List.map_map, List.map_map] at hsub
    rw [VaultEnv.drafted, List.map_append, List.map_map]
    refine List.nodup_append'.mpr ⟨keyed_iff_nodup.mp v.rows.ids, hdrawn.nodup.sublist hsub, ?_⟩
    intro i hold hnew
    obtain ⟨x, hx, rfl⟩ := List.mem_map.mp (hsub.subset hnew)
    exact hdrawn.fresh x hx (List.mem_append_left _ hold)
  exact hids.of_map _

theorem file_writeAll_of_notMem {fs : List NoteFile} {a a' : Disk} {path : Text}
    (h : Disk.writeAll fs a = .ok a') (hnot : path ∉ fs.map (·.path)) : a'.file path = a.file path := by
  induction fs generalizing a with
  | nil =>
    cases h
    rfl
  | cons f fs ih =>
    obtain ⟨b, hb, h⟩ := bind_ok h
    obtain ⟨hf, hrest⟩ := not_or.mp (mt List.mem_cons.mpr hnot)
    rw [ih h hrest, file_write hb, if_neg hf]

theorem file_writeAll {fs : List NoteFile} {a a' : Disk} (h : Disk.writeAll fs a = .ok a')
    (hnodup : (fs.map (·.path)).Nodup) {f : NoteFile} (hf : f ∈ fs) : a'.file f.path = some f := by
  induction fs generalizing a with
  | nil => cases hf
  | cons g fs ih =>
    obtain ⟨b, hb, hfs⟩ := bind_ok h
    obtain ⟨hg, hrest⟩ := List.nodup_cons.mp hnodup
    rcases List.mem_cons.mp hf with rfl | hf
    · have hkept : a'.file f.path = b.file f.path := file_writeAll_of_notMem hfs hg
      rw [hkept, file_write hb, if_pos rfl]
    · exact ih hfs hrest hf

/-- What a batch has stored: the rows and the files of the written drafts. -/
theorem saveMany_stored {results : List (Except VaultError String)}
    (h : env.saveMany v items = .ok (v', results)) :
    v'.notes = v.notes ++ (env.prepared v items).map (·.note) ∧
      ∀ d ∈ env.prepared v items, v'.disk.file (notePath d.note) = some d.file := by
  have hkeys : ((env.prepared v items).map fun d => env.pathConflictKey d.note).Nodup :=
    (admit_ok items [] (env.buildPathIndex v.notes)).2.sublist ((resolveBatch_sublist items).map _)
  have hpaths : (((env.prepared v items).map Draft.file).map (·.path)).Nodup := by
    rw [List.map_map]
    refine List.Nodup.of_map (fun path => env.casefold (env.wsPath ++ '/' :: path)) ?_
    rw [List.map_map]
    exact hkeys
  unfold VaultEnv.saveMany at h
  dsimp only at h
  split at h
  · rename_i hnil
    cases h
    have hnone : env.prepared v items = [] := hnil
    rw [hnone]
    exact ⟨(List.append_nil _).symm, fun _ hd => nomatch hd⟩
  · rename_i draft drafts hsome
    have hprepared : env.prepared v items = draft :: drafts := hsome
    rw [← hprepared] at h
    obtain ⟨saved, hsaved, h⟩ := map_ok h
    cases h
    unfold Vault.add at hsaved
    split at hsaved
    · cases hsaved
    · rename_i rows hrows
      obtain ⟨disk, hdisk, hsaved⟩ := bind_ok hsaved
      cases hsaved
      refine ⟨(insertAll_ok hrows).1, fun d hd => ?_⟩
      exact file_writeAll (mapError_ok hdisk) hpaths (List.mem_map_of_mem hd)

/-- The rows of every written draft are its resolution against the batch's snapshot. -/
theorem prepared_rows {g g' : Graph} {jobId : String} {now : ℚ} {results : List (Except VaultError String)}
    (hdrawn : Drawn env site v items) (h : env.saveBatch site v g items jobId now = .ok (v', g', results))
    (hd : d ∈ env.prepared v items) :
    RowsOf site g' d.note.noteId
      (env.resolution (env.drafted v items) (site.owned v) d.content d.note.folder) := by
  obtain ⟨⟨saved, res⟩, _, h⟩ := bind_ok h
  dsimp only at h
  rw [if_neg (List.ne_nil_of_mem hd)] at h
  obtain ⟨⟨marks, id⟩, _, h⟩ := bind_ok h
  cases h
  have hnodup : ((env.prepared v items).map fun d => d.note.noteId).Nodup := by
    have hsub := (admit_from env v items [] (env.buildPathIndex v.notes)).map Prod.fst
    rw [List.map_map, List.map_map] at hsub
    exact hdrawn.nodup.sublist (((resolveBatch_sublist items).map _).trans hsub)
  have hrows : RowsOf site (g.persistMany site ((env.prepared v items).map fun d =>
      (d.note.noteId, env.resolution (env.drafted v items) (site.owned v) d.content d.note.folder)))
      d.note.noteId (env.resolution (env.drafted v items) (site.owned v) d.content d.note.folder) :=
    rowsOf_persistMany (by rw [List.map_map]; exact hnodup) (List.mem_map_of_mem hd)
  exact ⟨hrows.links, hrows.dangling⟩

end

/-! ## the notes that a batch stores -/

section
variable (env : VaultEnv) (site : Site) (v' : Vault) (g' : Graph)

/-- The marks hold the source. -/
def Marked (noteId : String) : Prop :=
  ∃ m ∈ g'.marks.dirty, m.key = ⟨site.ownerId, site.name, noteId⟩

/-- The rows of a note are those of its body among the notes as they are, or it is marked; with link
validation on every link of the body resolves. -/
def Linked (n : IndexedNote) (content : Text) : Prop :=
  (RowsOf site g' n.noteId (env.resolution v'.notes (site.owned v') content n.folder) ∨
      Marked site g' n.noteId) ∧
    (env.linkValidation = true → (env.resolution v'.notes (site.owned v') content n.folder).broken = [])

end

/-- **The link graph of a batch**: a stored note is linked as its body says, unless a link of it goes to
a draft that was dropped; its rows are in every case those of the batch's snapshot. -/
theorem batch_linked {env : VaultEnv} {site : Site} {v v' : Vault} {g g' : Graph}
    {items : List (String × NewNote)} {jobId : String} {now : ℚ}
    {results : List (Except VaultError String)} (hdrawn : Drawn env site v items)
    (h : env.saveBatch site v g items jobId now = .ok (v', g', results)) :
    ∀ n ∈ v'.notes, n ∉ v.notes → ∃ f, v'.disk.file (notePath n) = some f ∧
      f.noteId = some n.noteId ∧
      (env.LinksStay (env.drafted v items) v'.notes f.content n.folder →
        Linked env site v' g' n f.content) ∧
      RowsOf site g' n.noteId (env.resolution (env.drafted v items) (site.owned v) f.content n.folder) ∧
      (env.linkValidation = true →
        (env.resolution (env.drafted v items) (site.owned v) f.content n.folder).broken = []) := by
  intro n hn hnew
  obtain ⟨⟨saved, res⟩, hsaved, hrest⟩ := bind_ok h
  obtain ⟨hnotes, hfiles⟩ := saveMany_stored (mapError_ok hsaved)
  obtain rfl : saved = v' := by
    dsimp only at hrest
    split at hrest
    · cases hrest
      rfl
    · obtain ⟨_, _, hrest⟩ := bind_ok hrest
      cases hrest
      rfl
  rw [hnotes] at hn
  obtain ⟨d, hd, rfl⟩ := List.mem_map.mp ((List.mem_append.mp hn).resolve_left hnew)
  have hrows := prepared_rows hdrawn h hd
  have hvalid := fun hon => prepared_valid hd hon (site.owned v)
  refine ⟨d.file, hfiles d hd, rfl, fun hstay => ?_, hrows, hvalid⟩
  have hsub : saved.notes.Sublist (env.drafted v items) := by
    rw [hnotes]
    exact List.Sublist.append_left ((resolveBatch_sublist items).map _) _
  have hnodup := drafted_nodup hdrawn
  have hbroken : (env.resolution (env.drafted v items) (site.owned v) d.content d.note.folder).broken =
      (env.resolution saved.notes (site.owned saved) d.file.content d.note.folder).broken :=
    broken_of_stay hsub hnodup hstay
  refine ⟨.inl (hrows.congr (resolvedIds_of_stay hsub hnodup hstay fun i hi => ?_) hbroken), fun hon => ?_⟩
  · -- no body of the batch names a note of the batch by its id
    have hnot : i ∉ (env.prepared v items).map (·.note.noteId) := by
      intro hmem
      obtain ⟨e, he, rfl⟩ := List.mem_map.mp hmem
      obtain ⟨x, hx, hid, _⟩ := mem_admit_from ((resolveBatch_sublist items).subset he)
      obtain ⟨y, hy, _, hcontent⟩ := mem_admit_from ((resolveBatch_sublist items).subset hd)
      obtain ⟨t, ht, hxws⟩ := hi
      exact hdrawn.unnamed x hx y hy t (hcontent ▸ ht) (hid ▸ hxws)
    rw [Site.owned, Site.owned, hnotes, List.map_append, List.map_map]
    simp only [List.mem_append]
    exact or_congr (or_iff_left hnot).symm Iff.rfl
  · rw [← hbroken]
    exact hvalid hon

/-! ## two batches -/

/-- Bodies of plain text, with link validation. -/
def scannedEnv : VaultEnv := { plainEnv with extractWikilinks := fun body => (scan body).map (·.target) }

def plainSite : Site := ⟨"w", "u", []⟩

def Graph.empty : Graph := ⟨[], [], ⟨[], []⟩⟩

def bodyNote (title body : String) : NewNote := ⟨title.toList, body.toList, [], []⟩

/-- What there is to see of a batch in an empty workspace. -/
structure BatchView where
  notes : List IndexedNote
  files : List NoteFile
  links : List NoteLink
  dangling : List DanglingLink
  dirty : List Marker
deriving DecidableEq

def batchView (x : Vault × Graph × List (Except VaultError String)) : BatchView :=
  ⟨x.1.notes, x.1.disk.files, x.2.1.links, x.2.1.dangling, x.2.1.marks.dirty⟩

def emptyBatch (items : List (String × NewNote)) :
    Except (VaultError ⊕ Queue.DbError) (Vault × Graph × List (Except VaultError String)) :=
  scannedEnv.saveBatch plainSite Vault.empty Graph.empty items "job" 0

theorem drawn_of_check {items : List (String × NewNote)}
    (h : (items.map (·.1)).Nodup ∧ ∀ x ∈ items, ∀ y ∈ items,
      ∀ t ∈ scannedEnv.extractWikilinks y.2.content, xwsNoteId t ≠ some x.1) :
    Drawn scannedEnv plainSite Vault.empty items :=
  ⟨h.1, fun _ _ hmem => (nomatch hmem), h.2⟩

theorem exists_of_view (items : List (String × NewNote)) (view : BatchView)
    (h : (emptyBatch items).toOption.map batchView = some view) :
    ∃ v g results, emptyBatch items = .ok (v, g, results) ∧ batchView (v, g, results) = view := by
  obtain ⟨⟨v, g, results⟩, hok, hview⟩ := exists_ok h
  exact ⟨v, g, results, hok, hview⟩

/-- Two notes that link to each other, and one that is dropped. -/
def cycleItems : List (String × NewNote) :=
  [("n1", bodyNote "A" "[[B]]"), ("n2", bodyNote "B" "[[A]]"), ("n3", bodyNote "C" "[[A]] [[D]]")]

theorem batch_linked_cycle : ∃ v g results, emptyBatch cycleItems = .ok (v, g, results) ∧
    v.notes = [⟨"n1", [], "A".toList⟩, ⟨"n2", [], "B".toList⟩] ∧
    ∀ n ∈ v.notes, n ∉ Vault.empty.notes → ∃ f, v.disk.file (notePath n) = some f ∧
      f.noteId = some n.noteId ∧
      (scannedEnv.LinksStay (scannedEnv.drafted Vault.empty cycleItems) v.notes f.content n.folder →
        Linked scannedEnv plainSite v g n f.content) ∧
      RowsOf plainSite g n.noteId (scannedEnv.resolution (scannedEnv.drafted Vault.empty cycleItems)
        (plainSite.owned Vault.empty) f.content n.folder) ∧
      (scannedEnv.linkValidation = true → (scannedEnv.resolution
        (scannedEnv.drafted Vault.empty cycleItems) (plainSite.owned Vault.empty) f.content
          n.folder).broken = []) := by
  obtain ⟨v, g, results, hok, hview⟩ := exists_of_view cycleItems
    ⟨[⟨"n1", [], "A".toList⟩, ⟨"n2", [], "B".toList⟩],
      [⟨"B.md".toList, some "n2", some "B".toList, [], "[[A]]".toList⟩,
        ⟨"A.md".toList, some "n1", some "A".toList, [], "[[B]]".toList⟩],
      [⟨"n1", "n2", "w", "u"⟩, ⟨"n2", "n1", "w", "u"⟩], [], []⟩ (by decide +kernel)
  refine ⟨v, g, results, hok, congrArg BatchView.notes hview, ?_⟩
  exact batch_linked (drawn_of_check (by decide +kernel)) hok

def droppedItems : List (String × NewNote) :=
  [("n1", bodyNote "A" "[[B]]"), ("n2", bodyNote "B" "[[C]]")]

/-- `B` is dropped for its broken link, and the link of `A` to it stays: in the table, and in the body
although validation is on. -/
theorem batch_not_linked : Drawn scannedEnv plainSite Vault.empty droppedItems ∧
    ∃ v g results, emptyBatch droppedItems = .ok (v, g, results) ∧
      v.notes = [⟨"n1", [], "A".toList⟩] ∧ g.links = [⟨"n1", "n2", "w", "u"⟩] ∧
      ∀ f, v.disk.file "A.md".toList = some f →
        ¬ RowsOf plainSite g "n1" (scannedEnv.resolution v.notes (plainSite.owned v) f.content []) ∧
        ¬ Marked plainSite g "n1" ∧
        (scannedEnv.resolution v.notes (plainSite.owned v) f.content []).broken ≠ [] ∧
        ¬ Linked scannedEnv plainSite v g ⟨"n1", [], "A".toList⟩ f.content := by
  refine ⟨drawn_of_check (by decide +kernel), ?_⟩
  obtain ⟨v, g, results, hok, hview⟩ := exists_of_view droppedItems
    ⟨[⟨"n1", [], "A".toList⟩], [⟨"A.md".toList, some "n1", some "A".toList, [], "[[B]]".toList⟩],
      [⟨"n1", "n2", "w", "u"⟩], [], []⟩ (by decide +kernel)
  have hnotes : v.notes = [⟨"n1", [], "A".toList⟩] := congrArg BatchView.notes hview
  have hlinks : g.links = [⟨"n1", "n2", "w", "u"⟩] := congrArg BatchView.links hview
  have hdirty : g.marks.dirty = [] := congrArg BatchView.dirty hview
  refine ⟨v, g, results, hok, hnotes, hlinks, fun f hf => ?_⟩
  obtain rfl : f = ⟨"A.md".toList, some "n1", some "A".toList, [], "[[B]]".toList⟩ := by
    obtain ⟨hmem, _⟩ := row_some hf
    have hall : f ∈ (batchView (v, g, results)).files := hmem
    rw [hview] at hall
    exact List.mem_singleton.mp hall
  have hbroken : (scannedEnv.resolution v.notes (plainSite.owned v) "[[B]]".toList []).broken ≠ [] := by
    rw [Site.owned, hnotes]
    decide +kernel
  have hids : (scannedEnv.resolution v.notes (plainSite.owned v) "[[B]]".toList []).resolvedIds = ∅ := by
    rw [Site.owned, hnotes]
    decide +kernel
  have hrows : ¬ RowsOf plainSite g "n1"
      (scannedEnv.resolution v.notes (plainSite.owned v) "[[B]]".toList []) := by
    intro hrows
    have hrow := (hrows.links ⟨"n1", "n2", "w", "u"⟩ rfl).mp (hlinks ▸ List.mem_singleton_self _)
    rw [hids] at hrow
    exact absurd hrow.2.2 (Finset.notMem_empty _)
  have hmarked : ¬ Marked plainSite g "n1" := by
    rintro ⟨m, hm, _⟩
    rw [hdirty] at hm
    cases hm
  exact ⟨hrows, hmarked, hbroken, fun hlinked => hbroken (hlinked.2 rfl)⟩

end Kajet.Paths
