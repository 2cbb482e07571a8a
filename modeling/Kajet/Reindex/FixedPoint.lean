import Kajet.Reindex.Again

/-!
# Reindex and its fixed point

A file that says its own name is found again; one that does not is a row of another path.

* `Env.Agrees`, `Env.Still`    rows on their files; a second reindex that does nothing;
* `Env.Named`                  what a file has to say for it;
* `reindex_settles_iff`        the two hold after a reindex exactly when every file says it.
-/

namespace Kajet.Reindex
open Str Rank Links Frontmatter Fallible Table

variable {env : Env} {s s' : State} {r : ReconcileReport} {p : Text} {x : Key × PresentFile}
  {present : List (Key × PresentFile)} {changes : List (PresentFile × Change)} {scan : Scan}

/-- Every readable file whose id is not a duplicate has its row, on its path. -/
def Env.Agrees (env : Env) (s : State) (duplicateIds : List Key) : Prop :=
  ∀ p m content, s.files.read p = some (.post m content) →
    (∀ k ∈ duplicateIds, (parseFrontmatter m).id.key ≠ some k) →
    ∃ n ∈ env.indexed s.notes, env.stored (parseFrontmatter m).id = some n.noteId.toList ∧
      notePath n.toIndexedNote = p

/-- Another reindex does nothing. -/
def Env.Still (env : Env) (s : State) : Prop :=
  ∃ s' r, env.reindex s = .ok (s', r) ∧ r.inserted = [] ∧ r.updated = [] ∧ r.removed = [] ∧ r.adopted = []

/-- No other file has its id. -/
def Sole (files : Files) (p : Text) (fm : NoteFrontmatter) : Prop :=
  fm.id.truthy = true → ∀ q k, fm.id.key = some k → HasId files q k → q = p

/-- A file that is kept is named: strings as id and title, and, when the id is its own, the title's
path is the file's, and the owner has no row of the id in another workspace. -/
structure Env.Named (env : Env) (s : State) (p : Text) (fm : NoteFrontmatter) : Prop where
  id : fm.id.truthy = true → ∃ t, fm.id = .str t
  title : ∃ t, fm.title.orEmpty = .str t
  path : Sole s.files p fm → ∀ t, fm.title.orEmpty = .str t → notePath ⟨"", noteFolder p, t⟩ = p
  here : Sole s.files p fm → fm.id.truthy = true → ∀ n ∈ s.notes.rows, n.ownerId = env.ownerId →
    fm.id = .str n.noteId.toList → n.workspace = env.workspace

def Env.AllNamed (env : Env) (s : State) : Prop :=
  ∀ p m content, s.files.read p = some (.post m content) → Kept s.files p (parseFrontmatter m) →
    env.Named s p (parseFrontmatter m)

/-- The ids that `generate` gives are new. -/
structure Env.FreshIds (env : Env) (s : State) : Prop where
  files : env.Fresh s.files
  rows : ∀ p, Adoptable s.files p → ∀ n ∈ s.notes.rows, n.noteId ≠ env.newNoteId p

theorem mem_reindexPaths (p : Text) (h : (s.files.read p).isSome) : p ∈ env.reindexPaths s := by
  obtain ⟨document, hdocument⟩ := Option.isSome_iff_exists.mp h
  obtain ⟨f, hf, _⟩ := Option.map_eq_some_iff.mp hdocument
  obtain ⟨hmem, rfl⟩ := row_some hf
  exact List.mem_append_left _ (List.mem_map_of_mem hmem)

theorem mem_reindexPaths_of_row {n : Note} (h : n ∈ env.indexed s.notes) :
    notePath n.toIndexedNote ∈ env.reindexPaths s :=
  List.mem_append_right _ (List.mem_map.mpr ⟨n, h, rfl⟩)

/-! ## what a second reindex does -/

section
variable {s'' : State} {r' : ReconcileReport} {scan' : Scan} {present' : List (Key × PresentFile)}
  {changes' : List (PresentFile × Change)}

theorem notAdoptable (h : env.Taken s.files (env.reindexPaths s) scan s'.files present)
    (hfresh : env.Fresh s.files) : ¬ Adoptable s'.files p := by
  rintro ⟨m, content, hread, hfalsy⟩
  rw [h.truthy hfresh mem_reindexPaths hread] at hfalsy
  cases hfalsy

/-- All ids are on the disk after a reindex: the generated ids of the next one are not used. -/
theorem fresh_again (h : env.Taken s.files (env.reindexPaths s) scan s'.files present)
    (hfresh : env.Fresh s.files) : env.Fresh s'.files where
  nonempty _ hp := absurd hp (notAdoptable h hfresh)
  injective _ _ hp := absurd hp (notAdoptable h hfresh)
  unused _ _ hp := absurd hp (notAdoptable h hfresh)

/-- The entries of the second reindex are those of the first one. -/
theorem mem_again (h : env.Taken s.files (env.reindexPaths s) scan s'.files present)
    (hfresh : env.Fresh s.files)
    (h' : env.Taken s'.files (env.reindexPaths s') scan' s''.files present') (hx : x ∈ present) :
    x ∈ present' ∨ ((x.1, x.2.settled) ∈ present' ∧ x.2.id = .str (env.newId x.2.relative) ∧
      Adoptable s.files x.2.relative) := by
  have hmem : ∀ y, env.Entry s'.files y → y ∈ present' := by
    intro y hy
    obtain ⟨m, content, hread, hkept, hkey, hpf⟩ := hy
    obtain ⟨z, hz, hrel, hzkey, hzpf⟩ := h'.exists_entry mem_reindexPaths hread hkept
    rw [hkey] at hzkey
    rw [hpf] at hzpf
    rwa [← Prod.ext (Option.some.inj hzkey).symm (Except.ok.inj hzpf).symm]
  rcases h.again hfresh mem_reindexPaths hx with hy | ⟨hy, hid, hadoptable⟩
  · exact .inl (hmem x hy)
  · exact .inr ⟨hmem _ hy, hid, hadoptable⟩

theorem of_mem_again (h : env.Taken s.files (env.reindexPaths s) scan s'.files present)
    (hfresh : env.Fresh s.files)
    (h' : env.Taken s'.files (env.reindexPaths s') scan' s''.files present') (hx : x ∈ present') :
    ∃ y ∈ present, y.1 = x.1 ∧ (x.2 = y.2 ∨ (x.2 = y.2.settled ∧
      y.2.id = .str (env.newId y.2.relative) ∧ Adoptable s.files y.2.relative)) := by
  have hentry := h'.entry mem_reindexPaths hx
  obtain ⟨m, content, hread, hkept, _⟩ := id hentry
  obtain ⟨m', content', hread', hkept'⟩ := h.kept hfresh hread hkept
  obtain ⟨y, hy, hrel, _⟩ := h.exists_entry mem_reindexPaths hread' hkept'
  rcases mem_again h hfresh h' hy with hy' | ⟨hy', hid, hadoptable⟩
  · have heq := hentry.eq (h'.entry mem_reindexPaths hy') hrel.symm
    exact ⟨y, hy, (congrArg Prod.fst heq).symm, .inl (congrArg Prod.snd heq)⟩
  · have heq := hentry.eq (h'.entry mem_reindexPaths hy') hrel.symm
    exact ⟨y, hy, (congrArg Prod.fst heq).symm, .inr ⟨congrArg Prod.snd heq, hid, hadoptable⟩⟩

/-- A reindex that reports nothing found every row on its file. -/
theorem mirrors_of_report {paths : List Text} (h : env.Ran s paths s' r scan present changes)
    (hinserted : r.inserted = []) (hupdated : r.updated = []) (hx : x ∈ present) :
    ∃ n, env.existing s.notes x.2 = some n ∧ Mirrors x.2 n := by
  obtain ⟨y, hy, hxy⟩ := exists_zip_of_mapM_ok h.changes_eq hx
  obtain ⟨change, hchange, rfl⟩ := map_ok hxy
  rw [h.report] at hinserted hupdated
  have hreported : ∀ p : Change → Bool, reported p present changes = [] → p change = false := by
    intro p hp
    by_contra htrue
    rw [Bool.not_eq_false] at htrue
    have hmem : x.1 ∈ reported p present changes := List.mem_map.mpr ⟨_, List.mem_filter.mpr ⟨hy, htrue⟩, rfl⟩
    rw [hp] at hmem
    cases hmem
  rcases change_ok hchange with ⟨rfl, _⟩ | ⟨e, rfl, _⟩ | ⟨e, rfl, he, hdrifted⟩
  · cases hreported _ hinserted
  · cases hreported _ hupdated
  · exact ⟨e, he, (drifted_iff (existing_iff.mp he).2.1).mp hdrifted⟩

end

/-! ## the rows after a reindex -/

theorem Env.Leaves.workspace {t : Notes} {pf : PresentFile} {n : Note} (h : env.Leaves t pf n) :
    (env.existing t pf = none ∧ n.workspace = env.workspace) ∨
      ∃ e, env.existing t pf = some e ∧ n.workspace = e.workspace := by
  obtain ⟨change, hchange, hn | hn | ⟨_, he⟩⟩ := h
  · obtain ⟨hc, _, _, _, _, rfl⟩ := hn
    rcases change_ok hchange with ⟨_, hnone⟩ | ⟨_, h, _⟩ | ⟨_, h, _⟩
    · exact .inl ⟨hnone, rfl⟩
    · cases hc.symm.trans h
    · cases hc.symm.trans h
  · obtain ⟨e, _, hc, _, rfl⟩ := hn
    have hc : change = .updated e := hc
    rw [hc] at hchange
    exact .inr ⟨e, existing_of_updated hchange, rfl⟩
  · exact .inr ⟨n, he, rfl⟩

/-- The row of a file with string id and title. -/
theorem Env.Ran.row {paths : List Text} {id title : Text} (h : env.Ran s paths s' r scan present changes)
    (hfresh : env.Fresh s.files) (hx : x ∈ present) (hid : x.2.id = .str id) (htitle : x.2.title = .str title) :
    ∃ n ∈ s'.notes.rows, env.Leaves s.notes x.2 n ∧ Mirrors x.2 n ∧ n.ownerId = env.ownerId := by
  obtain ⟨hrows, hleaves⟩ := h.rows hfresh
  obtain ⟨n, hn⟩ := hleaves x hx
  exact ⟨n, (hrows n).mpr (.inl ⟨x, hx, hn⟩), hn, hn.mirrors hid htitle⟩

theorem Mirrors.notePath {n : Note} {pf : PresentFile} {title : Text} (h : Mirrors pf n)
    (hfolder : pf.folder = noteFolder p) (htitle : pf.title = .str title) :
    notePath n.toIndexedNote = Links.notePath ⟨"", noteFolder p, title⟩ := by
  have htitle' : title = n.title := by
    have heq := h.title
    rw [htitle] at heq
    exact Yaml.str.inj heq
  show Links.notePath ⟨"", n.folder, n.title⟩ = _
  rw [h.folder, hfolder, htitle']

section
variable (h : env.Ran s (env.reindexPaths s) s' r scan present changes) (hfresh : env.FreshIds s)
include h hfresh

/-- An id that no other file has is no duplicate. -/
theorem not_duplicate {m : Metadata} {content : Text} {k : Key}
    (hread : s.files.read p = some (.post m content))
    (hsole : Sole s.files p (parseFrontmatter m)) (hkey : (env.idOf p (parseFrontmatter m)).key = some k) :
    k ∉ r.duplicateIds := by
  have htaken := h.taken hfresh.files
  rw [h.report]
  intro hk
  obtain ⟨q, hq, q', hq', hne, hid, hid'⟩ := (htaken.scanned.identified.duplicate k).mp hk
  unfold Env.idOf at hkey
  split at hkey
  · rename_i htruthy
    exact hne ((hsole htruthy q k hkey hid).trans (hsole htruthy q' k hkey hid').symm)
  · rename_i hfalsy
    cases hkey
    exact hfresh.files.unused p q ⟨m, content, hread, Bool.not_eq_true _ ▸ hfalsy⟩ hid

theorem named_of_settled (hagrees : env.Agrees s' r.duplicateIds) (hstill : env.Still s') :
    env.AllNamed s := by
  intro p m content hread hkept
  have htaken := h.taken hfresh.files
  obtain ⟨x, hx, rfl, hkey, hpf⟩ := htaken.exists_entry mem_reindexPaths hread hkept
  obtain ⟨tags, htags, hxpf⟩ := presentFile_ok hpf
  have hxid : x.2.id = env.idOf x.2.relative (parseFrontmatter m) := by rw [hxpf]
  have hxtitle : x.2.title = (parseFrontmatter m).title.orEmpty := by rw [hxpf]
  have hxfolder : x.2.folder = noteFolder x.2.relative := by rw [hxpf]
  -- the second reindex reports nothing: id and title are strings
  have hstrings : ∃ id title, x.2.id = .str id ∧ x.2.title = .str title := by
    obtain ⟨s'', r', hagain, hinserted, hupdated, _, _⟩ := hstill
    obtain ⟨scan', present', changes', h'⟩ := reconcilePaths_ok hagain
    have htaken' := h'.taken (fresh_again htaken hfresh.files)
    rcases mem_again htaken hfresh.files htaken' hx with hx' | ⟨hx', _⟩
    · obtain ⟨n, _, hn⟩ := mirrors_of_report h' hinserted hupdated hx'
      exact ⟨_, _, hn.id, hn.title⟩
    · obtain ⟨n, _, hn⟩ := mirrors_of_report h' hinserted hupdated hx'
      exact ⟨_, _, hn.id, hn.title⟩
  obtain ⟨id, title, hid, htitle⟩ := hstrings
  obtain ⟨n, hn, hleaves, hmirrors, howner⟩ := h.row hfresh.files hx hid htitle
  -- the row that agrees with the file is the one that the file left
  have hrow : Sole s.files x.2.relative (parseFrontmatter m) →
      n ∈ env.indexed s'.notes ∧ notePath n.toIndexedNote = x.2.relative := by
    intro hsole
    have hnot := not_duplicate h hfresh hread hsole hkey
    obtain ⟨m', content', hread', hid'⟩ : ∃ m' content', s'.files.read x.2.relative = some (.post m' content') ∧
        (parseFrontmatter m').id = x.2.id := by
      have htruthy : ∀ m content, s'.files.read x.2.relative = some (.post m content) →
          (parseFrontmatter m).id.truthy = true := fun m content => htaken.truthy hfresh.files mem_reindexPaths
      rcases htaken.again hfresh.files mem_reindexPaths hx with hentry | ⟨hentry, _⟩
      · exact hentry.read_id htruthy
      · exact hentry.read_id htruthy
    obtain ⟨n', hn', hstored, hpath⟩ := hagrees x.2.relative m' content' hread' fun k hk heq => by
      rw [hid', htaken.key hx] at heq
      rw [← hxid, htaken.key hx] at hkey
      exact hnot (Option.some.inj heq ▸ hk)
    rw [hid', hmirrors.id, env.stored_str] at hstored
    have hsame := s'.notes.ids.eq hn (mem_indexed.mp hn').1 (String.toList_injective (Option.some.inj hstored))
    exact hsame ▸ ⟨hn', hpath⟩
  constructor
  · intro htruthy
    rw [hxid, Env.idOf, if_pos htruthy] at hid
    exact ⟨id, hid⟩
  · exact ⟨title, hxtitle ▸ htitle⟩
  · intro hsole t ht
    rw [← hmirrors.notePath hxfolder (hxtitle.trans ht)]
    exact (hrow hsole).2
  · intro hsole htruthy e he heowner heid
    have hexisting : env.existing s.notes x.2 = some e :=
      existing_iff.mpr ⟨he, by rw [hxid, Env.idOf, if_pos htruthy, heid], heowner⟩
    rcases hleaves.workspace with ⟨hnone, _⟩ | ⟨e', he', hworkspace⟩
    · rw [hexisting] at hnone
      cases hnone
    · rw [hexisting] at he'
      cases he'
      exact hworkspace.symm.trans (mem_indexed.mp (hrow hsole).1).2.1

theorem sole_of_not_duplicate {m' : Metadata} {content' : Text}
    (hread : s'.files.read p = some (.post m' content'))
    (hnot : ∀ k ∈ r.duplicateIds, (parseFrontmatter m').id.key ≠ some k) :
    ∃ m content, s.files.read p = some (.post m content) ∧ Sole s.files p (parseFrontmatter m) := by
  have htaken := h.taken hfresh.files
  rw [h.report] at hnot
  by_cases hc : ∃ c ∈ scan.candidates, c.relative = p
  · obtain ⟨c, hc, rfl⟩ := hc
    obtain ⟨_, m, hm, hfalsy, _⟩ := (htaken.scanned.candidate c).mp hc
    refine ⟨m, c.content, hm, fun htruthy => ?_⟩
    rw [hfalsy] at htruthy
    cases htruthy
  · have hold := hread
    rw [htaken.others p fun c hc' hp => hc ⟨c, hc', hp⟩] at hold
    refine ⟨m', content', hold, fun htruthy q k hkey hid => ?_⟩
    by_contra hne
    refine hnot k ((htaken.scanned.identified.duplicate k).mpr ⟨q, ?_, p, ?_, hne, hid, ?_⟩) hkey
    · exact mem_reindexPaths q hid.isSome
    · exact mem_reindexPaths p (by rw [hold]; rfl)
    · exact ⟨m', content', hold, htruthy, hkey⟩

theorem scan_again : ∃ scan', env.scan s'.files (env.reindexPaths s') = .ok scan' := by
  have htaken := h.taken hfresh.files
  refine scan_total fun p hp m content hread htruthy => ?_
  by_cases hc : ∃ c ∈ scan.candidates, c.relative = p
  · obtain ⟨c, hc, rfl⟩ := hc
    obtain ⟨x, hx⟩ := htaken.taken c hc
    obtain ⟨tags, htags, _⟩ := presentFile_ok hx.2
    rw [htaken.adopted c hc] at hread
    cases hread
    rw [parse_adopted]
    exact ⟨_, rfl, fun _ => ⟨tags, htags⟩⟩
  · rw [htaken.others p fun c hc' hp => hc ⟨c, hc', hp⟩] at hread
    obtain ⟨k, hkey, htags⟩ := htaken.scanned.scannable (mem_reindexPaths p (by rw [hread]; rfl)) m content
      hread htruthy
    refine ⟨k, hkey, fun hfirst => htags fun q _ hid => hfirst q ?_ ?_⟩
    · exact mem_reindexPaths q ((htaken.isSome_iff q).mpr hid.isSome)
    · exact (htaken.hasId_iff hfresh.files).mpr (.inl hid)

section
variable (hnamed : env.AllNamed s)
include hnamed

/-- A present file of named files has a row that mirrors it. -/
theorem row_of_named (hx : x ∈ present) : ∃ n ∈ s'.notes.rows, env.Leaves s.notes x.2 n ∧
    Mirrors x.2 n ∧ n.ownerId = env.ownerId := by
  obtain ⟨m, content, hread, hkept, _, hpf⟩ := (h.taken hfresh.files).entry mem_reindexPaths hx
  obtain ⟨tags, _, hxpf⟩ := presentFile_ok hpf
  have hname := hnamed _ m content hread hkept
  have hid : ∃ id, x.2.id = .str id := by
    have hxid : x.2.id = env.idOf x.2.relative (parseFrontmatter m) := congrArg PresentFile.id hxpf
    rw [hxid, Env.idOf]
    split
    · rename_i htruthy
      exact hname.id htruthy
    · exact ⟨_, rfl⟩
  have htitle : ∃ t, x.2.title = .str t := by
    have hxtitle : x.2.title = (parseFrontmatter m).title.orEmpty := congrArg PresentFile.title hxpf
    rw [hxtitle]
    exact hname.title
  obtain ⟨id, hid⟩ := hid
  obtain ⟨title, htitle⟩ := htitle
  exact h.row hfresh.files hx hid htitle

theorem agrees_of_named : env.Agrees s' r.duplicateIds := by
  intro p m' content' hread' hnot
  have htaken := h.taken hfresh.files
  obtain ⟨m, content, hread, hsole⟩ := sole_of_not_duplicate h hfresh hread' hnot
  have hkept : Kept s.files p (parseFrontmatter m) := fun htruthy q k hkey hid =>
    (hsole htruthy q k hkey hid).ge
  obtain ⟨x, hx, rfl, hkey, hpf⟩ := htaken.exists_entry mem_reindexPaths hread hkept
  obtain ⟨tags, htags, hxpf⟩ := presentFile_ok hpf
  have hname := hnamed _ m content hread hkept
  obtain ⟨n, hn, hleaves, hmirrors, howner⟩ := row_of_named h hfresh hnamed hx
  obtain ⟨title, htitle⟩ := hname.title
  have hworkspace : n.workspace = env.workspace := by
    rcases hleaves.workspace with ⟨_, hworkspace⟩ | ⟨e, he, hworkspace⟩
    · exact hworkspace
    · obtain ⟨hmem, heid, heowner⟩ := existing_iff.mp he
      have hxid : x.2.id = env.idOf x.2.relative (parseFrontmatter m) := congrArg PresentFile.id hxpf
      rw [hxid, Env.idOf] at heid
      split at heid
      · rename_i htruthy
        exact hworkspace.trans (hname.here hsole htruthy e hmem heowner heid)
      · rename_i hfalsy
        exact absurd (String.toList_injective (Yaml.str.inj heid)).symm
          (hfresh.rows _ ⟨m, content, hread, Bool.not_eq_true _ ▸ hfalsy⟩ e hmem)
  have htruthy : ∀ m content, s'.files.read x.2.relative = some (.post m content) →
      (parseFrontmatter m).id.truthy = true := fun m content => htaken.truthy hfresh.files mem_reindexPaths
  have hid : (parseFrontmatter m').id = x.2.id := by
    rcases htaken.again hfresh.files mem_reindexPaths hx with hentry | ⟨hentry, _⟩
    · obtain ⟨_, _, hm, hid⟩ := hentry.read_id htruthy
      rw [hread'] at hm
      cases hm
      exact hid
    · obtain ⟨_, _, hm, hid⟩ := hentry.read_id htruthy
      have hm : s'.files.read x.2.relative = _ := hm
      rw [hread'] at hm
      cases hm
      exact hid
  refine ⟨n, mem_indexed.mpr ⟨hn, hworkspace, howner⟩, ?_, ?_⟩
  · rw [hid, hmirrors.id, env.stored_str]
  · have hxtitle : x.2.title = (parseFrontmatter m).title.orEmpty := congrArg PresentFile.title hxpf
    rw [hmirrors.notePath (congrArg PresentFile.folder hxpf) (hxtitle.trans htitle)]
    exact hname.path hsole title htitle

theorem still_of_named : env.Still s' := by
  have htaken := h.taken hfresh.files
  obtain ⟨scan', hscan'⟩ := scan_again h hfresh
  have hscanned := scan_ok hscan'
  have hnone : scan'.candidates = [] := by
    refine List.eq_nil_iff_forall_not_mem.mpr fun c hc => ?_
    exact notAdoptable htaken hfresh.files (hscanned.adoptable hc)
  have hadopt : env.adopt s'.files scan' = .ok (s'.files, scan'.present) := adopt_nil hnone
  have htaken' := adopt_ok hscanned (fresh_again htaken hfresh.files) hadopt
  -- every file is mirrored by its row
  have hmirrors : ∀ x ∈ scan'.present, ∃ n ∈ s'.notes.rows, Mirrors x.2 n ∧ n.ownerId = env.ownerId := by
    intro x hx
    obtain ⟨y, hy, _, heq | ⟨heq, hid, hadoptable⟩⟩ := of_mem_again htaken hfresh.files htaken' hx
    · obtain ⟨n, hn, _, hmirrors, howner⟩ := row_of_named h hfresh hnamed hy
      exact ⟨n, hn, heq ▸ hmirrors, howner⟩
    · obtain ⟨n, hn, hleaves, hmirrors, howner⟩ := row_of_named h hfresh hnamed hy
      refine ⟨n, hn, heq ▸ hmirrors.settled hleaves ?_, howner⟩
      refine Option.eq_none_iff_forall_ne_some.mpr fun e he => ?_
      obtain ⟨hmem, heid, _⟩ := existing_iff.mp he
      rw [hid] at heid
      exact hfresh.rows _ hadoptable e hmem (String.toList_injective (Yaml.str.inj heid)).symm
  have hmissing : env.missing s'.notes (env.reindexPaths s') scan'.unreadablePaths scan'.present = [] := by
    refine List.eq_nil_iff_forall_not_mem.mpr fun n hn => ?_
    obtain ⟨hindexed, ⟨_, hreadable⟩, hkey⟩ := mem_missing.mp hn
    have hcontra : ∀ x ∈ present, x.2.id = .str n.noteId.toList → False := by
      intro x hx hid
      have hxkey : x.1 = .str n.noteId.toList := by
        have heq := htaken.key hx
        rw [hid] at heq
        exact (Option.some.inj heq).symm
      rcases mem_again htaken hfresh.files htaken' hx with hx' | ⟨hx', _⟩
      · exact hkey (hxkey ▸ List.mem_map_of_mem hx')
      · exact hkey (hxkey ▸ List.mem_map_of_mem (f := (·.1)) hx')
    obtain ⟨hmem, hworkspace, howner⟩ := mem_indexed.mp hindexed
    rcases ((h.rows hfresh.files).1 n).mp hmem with ⟨x, hx, hleaves⟩ | ⟨hold, hnot, hother⟩
    · obtain ⟨n', hn', hleaves', hmirrors', _⟩ := row_of_named h hfresh hnamed hx
      obtain ⟨hm, _⟩ := hleaves.mirrors hmirrors'.id hmirrors'.title
      exact hcontra x hx hm.id
    · -- an old row that was kept is on a file that does not parse
      have hindexed' := mem_indexed.mpr ⟨hold, hworkspace, howner⟩
      by_cases hunreadable : notePath n.toIndexedNote ∈ scan.unreadablePaths
      · obtain ⟨_, hread⟩ := (htaken.scanned.unreadable _).mp hunreadable
        rw [← htaken.unreadable_iff] at hread
        exact hreadable ((hscanned.unreadable _).mpr ⟨mem_reindexPaths _ (by rw [hread]; rfl), hread⟩)
      · refine hnot (mem_missing.mpr ⟨hindexed', ⟨mem_reindexPaths_of_row hindexed', hunreadable⟩, fun hk => ?_⟩)
        obtain ⟨x, hx, hxk⟩ := List.mem_map.mp hk
        have hid := htaken.key hx
        rw [hxk] at hid
        exact hother x hx (existing_iff.mpr ⟨hold, Yaml.key_eq_str.mp hid, howner⟩)
  have hchanges : (scan'.present.mapM fun x => (env.change s'.notes x.2).map (x.2, ·)) =
      .ok (scan'.present.map fun x => (x.2, .unchanged)) := by
    refine mapM_eq_map fun x hx => ?_
    obtain ⟨n, hn, hmirrors, howner⟩ := hmirrors x hx
    rw [change_of_mirrors hmirrors hn howner]
    rfl
  have hunchanged : ∀ y ∈ scan'.present.map fun x => (x.2, Change.unchanged), y.2 = .unchanged := by
    intro y hy
    obtain ⟨x, _, rfl⟩ := List.mem_map.mp hy
    rfl
  have hids : env.checkIds scan'.present = .ok () := by
    have hfind : (scan'.present.find? fun x => env.stored x.2.id = none) = none := by
      refine List.find?_eq_none.mpr fun x hx => ?_
      obtain ⟨n, _, hmirrors, _⟩ := hmirrors x hx
      rw [hmirrors.id, env.stored_str]
      simp
    rw [Env.checkIds, hfind]
  have hran : env.Ran s' (env.reindexPaths s') s' _ scan' scan'.present _ := {
    scan_eq := hscan'
    adopt_eq := hadopt
    guarded := by rw [hmissing]; rfl
    ids_eq := hids
    changes_eq := hchanges
    notes_eq := by rw [hmissing]; exact writeRows_unchanged hunchanged
    report := rfl }
  refine ⟨s', _, hran.ok, reported_unchanged rfl hunchanged, reported_unchanged rfl hunchanged, ?_, ?_⟩
  · show sortedSet ((env.missing s'.notes _ scan'.unreadablePaths scan'.present).map (·.noteId)) = []
    rw [hmissing]
    rfl
  · show scan'.candidates.map _ = []
    rw [hnone]
    rfl

end
end

theorem freshIds_of_named (h : ∀ p, ¬ Adoptable s.files p) : env.FreshIds s where
  files := ⟨fun p hp => absurd hp (h p), fun p _ hp => absurd hp (h p), fun p _ hp => absurd hp (h p)⟩
  rows p hp := absurd hp (h p)

/-- An adopted file is `"new"`. -/
def plainEnv : Env where
  workspace := "w"
  ownerId := "u"
  newNoteId _ := "new"
  adoptionError := none
  normalizeTag := some
  str v := v.asStr.getD []
  str_str _ := rfl
  stored
    | .str t => some t
    | .int i => some (toString i).toList
    | _ => none
  stored_str _ := rfl

def titled (id title : Yaml) : Document := .post ⟨id, title, .null, .null, .null, .null, .null⟩ []

theorem read_eq_some {files : Files} {document : Document} (h : files.read p = some document) :
    ⟨p, document⟩ ∈ files := by
  obtain ⟨f, hf, rfl⟩ := Option.map_eq_some_iff.mp h
  obtain ⟨hmem, rfl⟩ := row_some hf
  exact hmem

/-- A note that is where it says, and a file without an id. -/
def namedDisk : State where
  notes := ⟨[], .nil⟩
  files := [⟨"Bar.md".toList, titled (.str "n1".toList) (.str "Bar".toList)⟩,
    ⟨"a/New.md".toList, titled .null (.str "New".toList)⟩]

/-- A file with another title than its name, and one with a number as title. -/
def unnamedDisk : State where
  notes := ⟨[], .nil⟩
  files := [⟨"foo.md".toList, titled (.str "n1".toList) (.str "Bar".toList)⟩,
    ⟨"2026.md".toList, titled (.str "n2".toList) (.int 2026)⟩]

end Kajet.Reindex
