import Kajet.Reindex.FixedPoint

/-!
# Bad files among good ones

`reconcile_paths` guards the reading of a file, and nothing that it does with the fields afterwards: an id
that is no key, a tag that is no string, a title or id that the driver does not store end the reconcile of
the whole workspace.

* `others`             the paths without the bad ones;
* `Env.Reconciles`     the files that get a row, as `mem_present_iff` says of a run;
* `Env.lost`           the rows that are removed, as `missing_eq` says;
* `Env.Unblocked`      with the bad files among the paths, the reconcile goes through and does with every
                       other file what it does without them;
* `Env.Harmless`       what the bad files have to be like for it;
* `unblocked_iff`.
-/

namespace Kajet.Reindex
open Str Rank Links Frontmatter Fallible Table

/-! ## the files that get a row -/

/-- The file is adopted, under the generated id. -/
def Env.Adopts (env : Env) (files : Files) (x : Key × PresentFile) : Prop :=
  ∃ m content, files.read x.2.relative = some (.post m content) ∧ (parseFrontmatter m).id.truthy = false ∧
    x.1 = .str (env.newId x.2.relative) ∧
    env.presentFile (.str (env.newId x.2.relative)) (parseFrontmatter m) x.2.relative = .ok x.2

/-- The first file of its id, or an adopted one. -/
def Env.Reconciles (env : Env) (files : Files) (paths : List Text) (x : Key × PresentFile) : Prop :=
  x.2.relative ∈ paths ∧
    (env.PresentAs files x ∧ First files paths x.2.relative x.1 ∨ env.Adopts files x)

def unreadable (files : Files) (p : Text) : Bool :=
  match files.read p with
  | some .unreadable => true
  | _ => false

def hasId (files : Files) (p : Text) (k : Key) : Bool :=
  match files.read p with
  | some (.post m _) => (parseFrontmatter m).id.truthy && (parseFrontmatter m).id.key = some k
  | _ => false

/-- The rows on paths in scope that no file there has the id of. -/
def Env.lost (env : Env) (s : State) (paths : List Text) : List Note :=
  (env.indexed s.notes).filter fun n => notePath n.toIndexedNote ∈ paths &&
    !unreadable s.files (notePath n.toIndexedNote) && paths.all fun q => !hasId s.files q (.str n.noteId.toList)

section
variable {env : Env} {files files' : Files} {paths : List Text} {p : Text} {k : Key} {scan : Scan}
  {present : List (Key × PresentFile)} {x : Key × PresentFile} {s : State} {n : Note}

theorem unreadable_iff : unreadable files p = true ↔ files.read p = some .unreadable := by
  unfold unreadable
  split
  · rename_i h
    exact iff_of_true rfl h
  · rename_i h
    exact iff_of_false Bool.false_ne_true h

theorem hasId_iff : hasId files p k = true ↔ HasId files p k := by
  unfold hasId
  split
  · rename_i m content h
    rw [Bool.and_eq_true, decide_eq_true_eq]
    constructor
    · rintro ⟨htruthy, hkey⟩
      exact ⟨m, content, h, htruthy, hkey⟩
    · rintro ⟨m', content', h', hid⟩
      rw [h] at h'
      cases h'
      exact hid
  · rename_i h
    refine iff_of_false Bool.false_ne_true ?_
    rintro ⟨m, content, h', _⟩
    exact h m content h'

theorem mem_lost : n ∈ env.lost s paths ↔ n ∈ env.indexed s.notes ∧ notePath n.toIndexedNote ∈ paths ∧
    s.files.read (notePath n.toIndexedNote) ≠ some .unreadable ∧
    ∀ q ∈ paths, ¬ HasId s.files q (.str n.noteId.toList) := by
  simp only [Env.lost, List.mem_filter, Bool.and_eq_true, decide_eq_true_eq, Bool.not_eq_true', List.all_eq_true,
    ← hasId_iff, ← unreadable_iff, ne_eq, Bool.not_eq_true, and_assoc]

theorem mem_present_iff (h : env.Taken files paths scan files' present) :
    x ∈ present ↔ env.Reconciles files paths x := by
  rw [h.mem]
  constructor
  · rintro (hx | ⟨c, hc, hkey, hpf⟩)
    · obtain ⟨hp, has, hfirst⟩ := (h.scanned.identified.mem x).mp hx
      exact ⟨hp, .inl ⟨has, hfirst⟩⟩
    · obtain ⟨hp, m, hread, hfalsy, hfm⟩ := (h.scanned.candidate c).mp hc
      have hrel : x.2.relative = c.relative := presentFile_relative hpf
      rw [← hrel] at hp hread hkey hpf
      exact ⟨hp, .inr ⟨m, c.content, hread, hfalsy, hkey, hfm ▸ hpf⟩⟩
  · rintro ⟨hp, ⟨has, hfirst⟩ | ⟨m, content, hread, hfalsy, hkey, hpf⟩⟩
    · exact .inl ((h.scanned.identified.mem x).mpr ⟨hp, has, hfirst⟩)
    · exact .inr ⟨⟨x.2.relative, parseFrontmatter m, content⟩,
        (h.scanned.candidate _).mpr ⟨hp, m, hread, hfalsy, rfl⟩, hkey, hpf⟩

/-- An id of a file in scope is reconciled, under the first file that has it. -/
theorem exists_first (h : env.Scanned files paths scan) (hp : p ∈ paths) (hid : HasId files p k) :
    ∃ q ∈ paths, HasId files q k ∧ First files paths q k := by
  obtain ⟨x, hx, rfl, hxp, hxid⟩ := h.identified.hasId (h.identified.mem_keys hp hid)
  exact ⟨x.2.relative, hxp, hxid, ((h.identified.mem x).mp hx).2.2⟩

theorem mem_keys_iff (h : env.Taken files paths scan files' present) : k ∈ present.map (·.1) ↔
    (∃ q ∈ paths, HasId files q k) ∨ ∃ q ∈ paths, Adoptable files q ∧ k = .str (env.newId q) := by
  constructor
  · intro hk
    obtain ⟨x, hx, rfl⟩ := List.mem_map.mp hk
    obtain ⟨hp, ⟨has, _⟩ | ⟨m, content, hread, hfalsy, hkey, _⟩⟩ := (mem_present_iff h).mp hx
    · exact .inl ⟨_, hp, has.hasId⟩
    · exact .inr ⟨_, hp, ⟨m, content, hread, hfalsy⟩, hkey⟩
  · rintro (⟨q, hq, hid⟩ | ⟨q, hq, ⟨m, content, hread, hfalsy⟩, rfl⟩)
    · obtain ⟨x, hx, hkey, _⟩ := h.scanned.identified.hasId (h.scanned.identified.mem_keys hq hid)
      exact hkey ▸ List.mem_map_of_mem ((h.mem x).mpr (.inl hx))
    · have hc := (h.scanned.candidate ⟨q, parseFrontmatter m, content⟩).mpr ⟨hq, m, hread, hfalsy, rfl⟩
      obtain ⟨x, hx⟩ := h.taken _ hc
      exact hx.1 ▸ List.mem_map_of_mem ((h.mem x).mpr (.inr ⟨_, hc, hx⟩))

/-- A row is missing when no file in scope has its id: no generated id is the id of a row. -/
theorem missing_eq (h : env.Taken s.files paths scan files' present) (hfresh : env.FreshIds s) :
    env.missing s.notes paths scan.unreadablePaths present = env.lost s paths := by
  have hmem : ∀ n ∈ env.indexed s.notes, (Key.str n.noteId.toList ∉ present.map (·.1) ↔
      ∀ q ∈ paths, ¬ HasId s.files q (.str n.noteId.toList)) := by
    intro n hn
    rw [mem_keys_iff h]
    constructor
    · exact fun hnot q hq hid => hnot (.inl ⟨q, hq, hid⟩)
    · rintro hnone (⟨q, hq, hid⟩ | ⟨q, _, hadoptable, heq⟩)
      · exact hnone q hq hid
      · exact hfresh.rows q hadoptable n (mem_indexed.mp hn).1 (String.toList_injective (Key.str.inj heq))
  rw [Env.missing, List.filter_filter, Env.lost]
  refine List.filter_congr fun n hn => ?_
  rw [Bool.eq_iff_iff]
  simp only [Bool.and_eq_true, decide_eq_true_eq, Bool.not_eq_true', List.all_eq_true, hmem n hn,
    h.scanned.unreadable, ← Bool.not_eq_true, hasId_iff, unreadable_iff]
  tauto

end

/-! ## the bad files -/

def others (paths bad : List Text) : List Text := paths.filter (· ∉ bad)

/-- **No bad file blocks the reconcile.** -/
def Env.Unblocked (env : Env) (s : State) (paths bad : List Text) : Prop :=
  ∀ s₀ r₀ scan₀ present₀ changes₀, env.Ran s (others paths bad) s₀ r₀ scan₀ present₀ changes₀ →
    ∃ s₁ r₁ scan₁ present₁ changes₁, env.Ran s paths s₁ r₁ scan₁ present₁ changes₁ ∧
      -- the other files are inserted, updated and left alone as they were
      (∀ y, y.1.relative ∉ bad → (y ∈ changes₀ ↔ y ∈ changes₁)) ∧
      (∀ y ∈ changes₀, ∀ n, env.Leaves s.notes y.1 n → n ∈ s₀.notes.rows ∧ n ∈ s₁.notes.rows) ∧
      -- the rows on other paths are removed as they were
      (∀ n, notePath n.toIndexedNote ∉ bad →
        (n ∈ env.missing s.notes (others paths bad) scan₀.unreadablePaths present₀ ↔
          n ∈ env.missing s.notes paths scan₁.unreadablePaths present₁)) ∧
      ∀ p ∉ bad, s₁.files.read p = s₀.files.read p

/-- The bad files go through every step, and no other file or row has their ids. -/
structure Env.Harmless (env : Env) (s : State) (paths bad : List Text) : Prop where
  /-- hashable ids, and strings as tags -/
  scannable : ∀ b ∈ paths, b ∈ bad → env.Scannable s.files paths b
  adoptable : ∀ b ∈ paths, b ∈ bad → ∀ m content, s.files.read b = some (.post m content) →
    (parseFrontmatter m).id.truthy = false →
    env.adoptionError = none ∧ ∃ tags, env.normalizeTags b (parseFrontmatter m).tags = .ok tags
  own : ∀ b ∈ paths, b ∈ bad → ∀ k, HasId s.files b k → First s.files paths b k →
    (∀ q ∈ paths, q ∉ bad → ¬ HasId s.files q k) ∧
      ∀ n ∈ env.indexed s.notes, notePath n.toIndexedNote ∈ paths → notePath n.toIndexedNote ∉ bad →
        s.files.read (notePath n.toIndexedNote) ≠ some .unreadable → .str n.noteId.toList ≠ k
  guard : reconcileMaxDelete (env.lost s paths).length (env.indexed s.notes).length = false
  /-- ids and titles that are stored -/
  accepted : ∀ x, env.Reconciles s.files paths x → x.2.relative ∈ bad →
    env.stored x.2.id ≠ none ∧ x.2.title.key ≠ none ∧ env.stored x.2.title ≠ none
  /-- a new row has an id that no row and no other new row has -/
  free : ∀ x, env.Reconciles s.files paths x → x.2.relative ∈ bad → env.existing s.notes x.2 = none →
    ∀ id, env.stored x.2.id = some id →
    (∀ n ∈ s.notes.rows, n.noteId.toList = id → n ∈ env.lost s paths) ∧
      ∀ y, env.Reconciles s.files paths y → env.existing s.notes y.2 = none → env.stored y.2.id = some id → y = x

/-! ## steps that go through -/

section
variable {env : Env} {files files' : Files} {t t' : Notes} {missing : List Note} {present : List (Key × PresentFile)}
  {changes : List (PresentFile × Change)} {scan : Scan} {pf : PresentFile}

theorem adopt_total (h : ∀ c ∈ scan.candidates,
    env.adoptionError = none ∧ ∃ tags, env.normalizeTags c.relative c.fm.tags = .ok tags) :
    ∃ files' present, env.adopt files scan = .ok (files', present) := by
  obtain ⟨present, hpresent⟩ : ∃ present, env.adoptPresent scan.present scan.candidates = .ok present :=
    adoptPresent_total fun c hc => (h c hc).2
  refine ⟨env.adoptFiles files scan.candidates, present, ?_⟩
  unfold Env.adopt
  split
  · rename_i c cs error hcs herror
    have hnone := (h c (hcs ▸ List.mem_cons_self)).1
    rw [herror] at hnone
    cases hnone
  · rw [hpresent]
    rfl

theorem adoptionError_of_ok {c : AdoptionCandidate} (h : env.adopt files scan = .ok (files', present))
    (hc : c ∈ scan.candidates) : env.adoptionError = none := by
  unfold Env.adopt at h
  split at h
  · cases h
  · rename_i hnot
    cases hcs : scan.candidates with
    | nil =>
      rw [hcs] at hc
      cases hc
    | cons c' cs =>
      cases herror : env.adoptionError with
      | none => rfl
      | some error => exact absurd herror (hnot c' cs error hcs)

theorem checkIds_iff : env.checkIds present = .ok () ↔ ∀ x ∈ present, env.stored x.2.id ≠ none := by
  unfold Env.checkIds
  constructor
  · intro h x hx hnone
    split at h
    · cases h
    · rename_i hfind
      exact absurd (decide_eq_true hnone) (List.find?_eq_none.mp hfind x hx)
  · intro h
    have hfind : (present.find? fun x => env.stored x.2.id = none) = none :=
      List.find?_eq_none.mpr fun x hx hnone => h x hx (of_decide_eq_true hnone)
    rw [hfind]

theorem checkTitle_iff : env.checkTitle pf = .ok () ↔ pf.title.key ≠ none ∧ env.stored pf.title ≠ none := by
  unfold Env.checkTitle
  split
  · rename_i h
    exact iff_of_false nofun fun hboth => hboth.1 h
  · rename_i hkey
    split
    · rename_i h
      exact iff_of_false nofun fun hboth => hboth.2 h
    · rename_i hstored
      exact iff_of_true rfl ⟨hkey, hstored⟩

/-- A title that is compared as equal to a row's is a string. -/
theorem title_of_same {e : Note} (h : identityChanged e pf = false) : pf.title = .str e.title := by
  rw [identityChanged, Bool.or_eq_false_iff, decide_eq_false_iff_not, not_not] at h
  exact Yaml.asStr_eq_some.mp (of_not_not (of_decide_eq_false h.2))

theorem change_total_iff : (∃ change, env.change t pf = .ok change) ↔
    pf.title.key ≠ none ∧ env.stored pf.title ≠ none := by
  have hmap : ∀ change : Change, (∃ c, (env.checkTitle pf).map (fun _ => change) = .ok c) ↔
      env.checkTitle pf = .ok () := by
    intro change
    constructor
    · rintro ⟨c, hc⟩
      obtain ⟨⟨⟩, hok, _⟩ := map_ok hc
      exact hok
    · intro hok
      exact ⟨change, by rw [hok]; rfl⟩
  unfold Env.change
  split
  · rw [hmap, checkTitle_iff]
  · rename_i e _
    split
    · rw [hmap, checkTitle_iff]
    · rename_i hsame
      have htitle := title_of_same (Bool.eq_false_iff.mpr hsame)
      refine iff_of_true (by split <;> exact ⟨_, rfl⟩) ?_
      rw [htitle, env.stored_str]
      exact ⟨Option.some_ne_none _, Option.some_ne_none _⟩

/-! ### the transaction -/

/-- No two new files are stored under one id. -/
def Env.Distinct (env : Env) (y z : PresentFile × Change) : Prop :=
  y.2 = .inserted → z.2 = .inserted → ∀ id, env.stored y.1.id = some id → env.stored z.1.id ≠ some id

theorem insertAll_distinct (h : changes.foldlM env.insertFile t = .ok t') : changes.Pairwise env.Distinct := by
  refine (foldlM_along (P := fun done t' => done.Pairwise env.Distinct ∧
    ∀ y ∈ done, y.2 = .inserted → ∃ n ∈ t'.rows, env.Inserts y n) ⟨.nil, by simp⟩ ?_ h).1
  rintro done a rest r r' _ ⟨hdistinct, hthere⟩ hr
  obtain ⟨hmem, hnew, hins⟩ := insertFile_ok hr
  refine ⟨List.pairwise_append.mpr ⟨hdistinct, List.pairwise_singleton _ _, fun y hy z hz => ?_⟩, fun y hy hyins => ?_⟩
  · obtain rfl := List.mem_singleton.mp hz
    intro hyins hzins id hyid hzid
    obtain ⟨n, hn, _, noteId, _, hid, _, rfl⟩ := hthere y hy hyins
    obtain ⟨m, hm⟩ := hins hzins
    refine hnew m hm _ hn ?_
    obtain ⟨_, noteId', _, hid', _, rfl⟩ := hm
    rw [hyid] at hid
    rw [hzid] at hid'
    cases hid
    cases hid'
    rfl
  · rcases List.mem_append.mp hy with hy | hy
    · obtain ⟨n, hn, hyn⟩ := hthere y hy hyins
      exact ⟨n, (hmem n).mpr (.inl hn), hyn⟩
    · obtain rfl := List.mem_singleton.mp hy
      obtain ⟨n, hn⟩ := hins hyins
      exact ⟨n, (hmem n).mpr (.inr hn), hn⟩

theorem insertFile_total {y : PresentFile × Change} (h : y.2 = .inserted → ∃ id title,
    env.stored y.1.id = some id ∧ env.stored y.1.title = some title ∧ ∀ n ∈ t.rows, n.noteId.toList ≠ id) :
    ∃ t', env.insertFile t y = .ok t' := by
  obtain ⟨pf, change⟩ := y
  cases change with
  | inserted =>
    obtain ⟨id, title, hid, htitle, hnew⟩ := h rfl
    have hfree : ∀ n ∈ t.rows, n.noteId ≠ (env.newNote pf id title).noteId := fun n hn heq => by
      refine hnew n hn ?_
      rw [heq]
      exact String.toList_ofList
    have hinsert : ∃ t', t.insert (env.newNote pf id title) = .ok t' := ⟨_, dif_pos hfree⟩
    obtain ⟨t', hinsert⟩ := hinsert
    have hid : env.stored pf.id = some id := hid
    have htitle : env.stored pf.title = some title := htitle
    exact ⟨t', by simp only [Env.insertFile, hid, htitle, hinsert]⟩
  | updated e => exact ⟨t, rfl⟩
  | unchanged => exact ⟨t, rfl⟩

theorem insertAll_total (hdistinct : changes.Pairwise env.Distinct)
    (h : ∀ y ∈ changes, y.2 = .inserted → ∃ id title, env.stored y.1.id = some id ∧
      env.stored y.1.title = some title ∧ ∀ n ∈ t.rows, n.noteId.toList ≠ id) :
    ∃ t', changes.foldlM env.insertFile t = .ok t' := by
  have hstep : ∀ done a rest r, changes = done ++ a :: rest →
      (∀ n ∈ r.rows, n ∈ t.rows ∨ ∃ y ∈ done, env.Inserts y n) →
      ∃ r', env.insertFile r a = .ok r' ∧ ∀ n ∈ r'.rows, n ∈ t.rows ∨ ∃ y ∈ done ++ [a], env.Inserts y n := by
    intro done a rest r hl hold
    rw [hl] at hdistinct
    have ha := fun y hy => (List.pairwise_append.mp hdistinct).2.2 y hy a List.mem_cons_self
    have hins : a.2 = .inserted → ∃ id title, env.stored a.1.id = some id ∧
        env.stored a.1.title = some title ∧ ∀ n ∈ r.rows, n.noteId.toList ≠ id := fun hins => by
      obtain ⟨id, title, hid, htitle, hnew⟩ := h a (hl ▸ List.mem_append_right _ List.mem_cons_self) hins
      refine ⟨id, title, hid, htitle, fun n hn heq => ?_⟩
      rcases hold n hn with hn | ⟨y, hy, hyins, noteId, _, hyid, _, rfl⟩
      · exact hnew n hn heq
      · have hsame : noteId = id := String.toList_ofList.symm.trans heq
        exact ha y hy hyins hins id (hsame ▸ hyid) hid
    obtain ⟨r', hr⟩ := insertFile_total hins
    refine ⟨r', hr, fun n hn => ?_⟩
    rcases ((insertFile_ok hr).1 n).mp hn with hn | hn
    · refine (hold n hn).imp_right fun ⟨y, hy, hyn⟩ => ⟨y, List.mem_append_left _ hy, hyn⟩
    · exact .inr ⟨a, List.mem_append_right _ (List.mem_singleton_self a), hn⟩
  obtain ⟨t', ht, _⟩ := foldlM_total (P := fun done (r : Notes) => ∀ n ∈ r.rows, n ∈ t.rows ∨ ∃ y ∈ done, env.Inserts y n)
    (fun n hn => .inl hn) hstep
  exact ⟨t', ht⟩

theorem updateAll_total (h : ∀ y ∈ changes, ∀ e, y.2 = .updated e → env.stored y.1.title ≠ none) :
    ∃ t', changes.foldlM env.updateFile t = .ok t' := by
  have hstep : ∀ done a rest r, changes = done ++ a :: rest → True →
      ∃ r', env.updateFile r a = .ok r' ∧ True := by
    intro done a rest r hl _
    have ha := h a (hl ▸ List.mem_append_right _ List.mem_cons_self)
    obtain ⟨pf, change⟩ := a
    cases change with
    | inserted => exact ⟨r, rfl, trivial⟩
    | updated e =>
      obtain ⟨title, htitle⟩ := Option.ne_none_iff_exists'.mp (ha e rfl)
      refine ⟨r.update (driftedNote e pf title), ?_, trivial⟩
      simp only [Env.updateFile, htitle]
    | unchanged => exact ⟨r, rfl, trivial⟩
  obtain ⟨t', ht, _⟩ := foldlM_total (P := fun _ _ => True) trivial hstep
  exact ⟨t', ht⟩

/-- **The transaction** goes through when the new ids are free once the missing rows are gone. -/
theorem writeRows_total (hdistinct : changes.Pairwise env.Distinct)
    (hnew : ∀ y ∈ changes, y.2 = .inserted → ∃ id title, env.stored y.1.id = some id ∧
      env.stored y.1.title = some title ∧ ∀ n ∈ t.rows, n.noteId.toList = id → n ∈ missing)
    (hold : ∀ y ∈ changes, ∀ e, y.2 = .updated e → env.stored y.1.title ≠ none) :
    ∃ t', env.writeRows t missing changes = .ok t' := by
  obtain ⟨t₁, hinserts⟩ := insertAll_total (t := t.delete fun n => n.noteId ∈ missing.map (·.noteId)) hdistinct
    fun y hy hins => by
      obtain ⟨id, title, hid, htitle, hgone⟩ := hnew y hy hins
      refine ⟨id, title, hid, htitle, fun n hn heq => ?_⟩
      obtain ⟨hn, hkept⟩ := Notes.mem_delete.mp hn
      exact of_decide_eq_false hkept (List.mem_map_of_mem (hgone n hn heq))
  obtain ⟨t₂, hupdates⟩ := updateAll_total (t := t₁) hold
  refine ⟨t₂, ?_⟩
  rw [Env.writeRows, hinserts]
  exact hupdates

end

/-! ## with harmless files -/

section
variable {env : Env} {s s₀ s₁ : State} {paths bad : List Text} {r₀ r₁ : ReconcileReport} {scan₀ scan₁ : Scan}
  {present₀ present₁ : List (Key × PresentFile)} {changes₀ changes₁ : List (PresentFile × Change)} {p : Text} {k : Key}
  {x : Key × PresentFile} {n : Note} {files₁ : Files}

theorem mem_others : p ∈ others paths bad ↔ p ∈ paths ∧ p ∉ bad := by
  rw [others, List.mem_filter, decide_eq_true_eq]

theorem Env.Ran.mem_changes (h : env.Ran s paths s₁ r₁ scan₁ present₁ changes₁) {y : PresentFile × Change} :
    y ∈ changes₁ ↔ ∃ x ∈ present₁, x.2 = y.1 ∧ env.change s.notes y.1 = .ok y.2 := by
  constructor
  · intro hy
    obtain ⟨x, hx, hxy⟩ := mem_of_mapM_ok h.changes_eq hy
    obtain ⟨change, hchange, rfl⟩ := map_ok hxy
    exact ⟨x, hx, rfl, hchange⟩
  · rintro ⟨x, hx, hxy, hchange⟩
    obtain ⟨y', hy', hxy'⟩ := exists_of_mapM_ok h.changes_eq hx
    rw [hxy, hchange] at hxy'
    cases hxy'
    exact hy'

/-- What the parts of a run say of the files and the rows. -/
theorem Env.Ran.mem_lost (h : env.Ran s paths s₁ r₁ scan₁ present₁ changes₁) (hfresh : env.FreshIds s) :
    n ∈ env.missing s.notes paths scan₁.unreadablePaths present₁ ↔ n ∈ env.lost s paths := by
  rw [missing_eq (h.taken hfresh.files) hfresh]

theorem existing_of_inserted {t : Notes} {pf : PresentFile} (h : env.change t pf = .ok .inserted) :
    env.existing t pf = none := by
  rcases change_ok h with ⟨_, hnone⟩ | ⟨e, hc, _⟩ | ⟨e, hc, _⟩
  · exact hnone
  · cases hc
  · cases hc

section
variable (h : env.Ran s paths s₁ r₁ scan₁ present₁ changes₁) (hfresh : env.FreshIds s)
include h

theorem Env.Ran.inserted (hx : x ∈ present₁) (hnone : env.existing s.notes x.2 = none) :
    (x.2, Change.inserted) ∈ changes₁ := by
  obtain ⟨y, hy, hxy⟩ := exists_of_mapM_ok h.changes_eq hx
  obtain ⟨change, hchange, rfl⟩ := map_ok hxy
  rcases change_ok hchange with ⟨rfl, _⟩ | ⟨e, _, he, _⟩ | ⟨e, _, he, _⟩
  · exact hy
  · cases hnone.symm.trans he
  · cases hnone.symm.trans he

include hfresh

/-- The row that has the id of a new file is removed. -/
theorem Env.Ran.new_free (hx : x ∈ present₁) (hnone : env.existing s.notes x.2 = none) {id : Text}
    (hid : env.stored x.2.id = some id) (hn : n ∈ s.notes.rows) (heq : n.noteId.toList = id) :
    n ∈ env.lost s paths := by
  rw [← h.mem_lost hfresh]
  by_contra hkept
  obtain ⟨t, hinserts, _⟩ := bind_ok h.notes_eq
  obtain ⟨hnew, hins⟩ := (insertAll_ok hinserts).2 _ (h.inserted hx hnone)
  obtain ⟨m, hm⟩ := hins rfl
  refine hnew m hm n (Notes.mem_delete.mpr ⟨hn, decide_eq_false fun hmem => ?_⟩) ?_
  · obtain ⟨n', hn', hsame⟩ := List.mem_map.mp hmem
    rw [s.notes.ids.eq (mem_indexed.mp (mem_missing.mp hn').1).1 hn hsame] at hn'
    exact hkept hn'
  · obtain ⟨_, noteId, _, hid', _, rfl⟩ := hm
    have hid' : env.stored x.2.id = some noteId := hid'
    rw [hid] at hid'
    cases hid'
    exact String.toList_injective (heq.trans String.toList_ofList.symm)

/-- Two new files of one stored id are the same. -/
theorem Env.Ran.new_eq {z : Key × PresentFile} (hx : x ∈ present₁) (hz : z ∈ present₁)
    (hxnone : env.existing s.notes x.2 = none) (hznone : env.existing s.notes z.2 = none) {id : Text}
    (hxid : env.stored x.2.id = some id) (hzid : env.stored z.2.id = some id) : x = z := by
  by_contra hne
  obtain ⟨t, hinserts, _⟩ := bind_ok h.notes_eq
  have hpf : (x.2, Change.inserted) ≠ (z.2, Change.inserted) := fun heq => by
    have hpf : x.2 = z.2 := congrArg Prod.fst heq
    have hxkey := (h.taken hfresh.files).key hx
    rw [hpf, (h.taken hfresh.files).key hz] at hxkey
    exact hne (Prod.ext (Option.some.inj hxkey).symm hpf)
  have hsymm : Std.Symm env.Distinct := ⟨fun y z hyz hz hy id hzid hyid => hyz hy hz id hyid hzid⟩
  exact (insertAll_distinct hinserts).forall (h.inserted hx hxnone) (h.inserted hz hznone) hpf rfl rfl id hxid hzid

end

/-- The first other file of an id is the first file. -/
theorem first_of_others (hharm : env.Harmless s paths bad) (hscan₁ : env.Scanned s.files paths scan₁) (hp : p ∈ paths)
    (hbad : p ∉ bad) (hid : HasId s.files p k) (hfirst : First s.files (others paths bad) p k) :
    First s.files paths p k := by
  intro q hq hqid
  obtain ⟨b, hb, hbid, hbfirst⟩ := exists_first hscan₁ hq hqid
  have hbother : b ∉ bad := fun hbbad => (hharm.own b hb hbbad k hbid hbfirst).1 p hp hbad hid
  exact (hfirst b (mem_others.mpr ⟨hb, hbother⟩) hbid).trans (hbfirst q hq hqid)

theorem reconciles_iff (hharm : env.Harmless s paths bad) (hscan₁ : env.Scanned s.files paths scan₁)
    (hbad : x.2.relative ∉ bad) : env.Reconciles s.files (others paths bad) x ↔ env.Reconciles s.files paths x := by
  constructor
  · rintro ⟨hp, ⟨has, hfirst⟩ | hadopts⟩
    · have hp := (mem_others.mp hp).1
      exact ⟨hp, .inl ⟨has, first_of_others hharm hscan₁ hp hbad has.hasId hfirst⟩⟩
    · exact ⟨(mem_others.mp hp).1, .inr hadopts⟩
  · rintro ⟨hp, ⟨has, hfirst⟩ | hadopts⟩
    · exact ⟨mem_others.mpr ⟨hp, hbad⟩, .inl ⟨has, fun q hq => hfirst q (mem_others.mp hq).1⟩⟩
    · exact ⟨mem_others.mpr ⟨hp, hbad⟩, .inr hadopts⟩

theorem lost_iff (hharm : env.Harmless s paths bad) (hscan₁ : env.Scanned s.files paths scan₁)
    (hbad : notePath n.toIndexedNote ∉ bad) : n ∈ env.lost s (others paths bad) ↔ n ∈ env.lost s paths := by
  rw [mem_lost, mem_lost]
  constructor
  · rintro ⟨hn, hp, hread, hnone⟩
    have hp := (mem_others.mp hp).1
    refine ⟨hn, hp, hread, fun q hq hid => ?_⟩
    obtain ⟨b, hb, hbid, hbfirst⟩ := exists_first hscan₁ hq hid
    by_cases hbbad : b ∈ bad
    · exact (hharm.own b hb hbbad _ hbid hbfirst).2 n hn hp hbad hread rfl
    · exact hnone b (mem_others.mpr ⟨hb, hbbad⟩) hbid
  · rintro ⟨hn, hp, hread, hnone⟩
    exact ⟨hn, mem_others.mpr ⟨hp, hbad⟩, hread, fun q hq => hnone q (mem_others.mp hq).1⟩

theorem lost_mono (hharm : env.Harmless s paths bad) (hscan₁ : env.Scanned s.files paths scan₁)
    (hn : n ∈ env.lost s (others paths bad)) : n ∈ env.lost s paths :=
  (lost_iff hharm hscan₁ (mem_others.mp (mem_lost.mp hn).2.1).2).mp hn

/-- The other files have the same contents afterwards. -/
theorem read_others (hfresh : env.FreshIds s) (h₀ : env.Ran s (others paths bad) s₀ r₀ scan₀ present₀ changes₀)
    (htaken₁ : env.Taken s.files paths scan₁ files₁ present₁) (hbad : p ∉ bad) : files₁.read p = s₀.files.read p := by
  have htaken₀ := h₀.taken hfresh.files
  have hcandidate : ∀ c : AdoptionCandidate, c.relative ∉ bad → (c ∈ scan₀.candidates ↔ c ∈ scan₁.candidates) := by
    intro c hc
    rw [htaken₀.scanned.candidate, htaken₁.scanned.candidate, mem_others]
    simp only [hc, not_false_iff, and_true]
  by_cases hc : ∃ c ∈ scan₁.candidates, c.relative = p
  · obtain ⟨c, hc, rfl⟩ := hc
    rw [htaken₁.adopted c hc, htaken₀.adopted c ((hcandidate c hbad).mpr hc)]
  · have hnone : ∀ c ∈ scan₁.candidates, c.relative ≠ p := fun c hc' hp => hc ⟨c, hc', hp⟩
    rw [htaken₁.others p hnone, htaken₀.others p]
    rintro c hc' rfl
    exact hnone c ((hcandidate c hbad).mp hc') rfl

section
variable (hfresh : env.FreshIds s) (hharm : env.Harmless s paths bad)
  (h₀ : env.Ran s (others paths bad) s₀ r₀ scan₀ present₀ changes₀)
include hfresh hharm h₀

theorem scan_of_harmless : ∃ scan₁, env.scan s.files paths = .ok scan₁ := by
  refine scan_total fun p hp => ?_
  by_cases hbad : p ∈ bad
  · exact hharm.scannable p hp hbad
  · intro m content hread htruthy
    obtain ⟨k, hkey, htags⟩ :=
      (h₀.taken hfresh.files).scanned.scannable (mem_others.mpr ⟨hp, hbad⟩) m content hread htruthy
    exact ⟨k, hkey, fun hfirst => htags fun q hq => hfirst q (mem_others.mp hq).1⟩

theorem adopt_of_harmless (hscan₁ : env.Scanned s.files paths scan₁) :
    ∃ files₁ present₁, env.adopt s.files scan₁ = .ok (files₁, present₁) := by
  refine adopt_total fun c hc => ?_
  obtain ⟨hp, m, hread, hfalsy, hfm⟩ := (hscan₁.candidate c).mp hc
  by_cases hbad : c.relative ∈ bad
  · rw [hfm]
    exact hharm.adoptable c.relative hp hbad m c.content hread hfalsy
  · have htaken₀ := h₀.taken hfresh.files
    have hc₀ := (htaken₀.scanned.candidate c).mpr ⟨mem_others.mpr ⟨hp, hbad⟩, m, hread, hfalsy, hfm⟩
    obtain ⟨x, hx⟩ := htaken₀.taken c hc₀
    obtain ⟨tags, htags, _⟩ := presentFile_ok hx.2
    exact ⟨adoptionError_of_ok h₀.adopt_eq hc₀, tags, htags⟩

variable (htaken₁ : env.Taken s.files paths scan₁ files₁ present₁)
include htaken₁

theorem mem_present₀_iff (hbad : x.2.relative ∉ bad) : x ∈ present₀ ↔ x ∈ present₁ := by
  rw [mem_present_iff (h₀.taken hfresh.files), mem_present_iff htaken₁]
  exact reconciles_iff hharm htaken₁.scanned hbad

/-- The ids and titles of all the files are stored. -/
theorem accepted_of_harmless (hx : x ∈ present₁) :
    env.stored x.2.id ≠ none ∧ x.2.title.key ≠ none ∧ env.stored x.2.title ≠ none := by
  by_cases hbad : x.2.relative ∈ bad
  · exact hharm.accepted x ((mem_present_iff htaken₁).mp hx) hbad
  · have hx₀ := (mem_present₀_iff hfresh hharm h₀ htaken₁ hbad).mpr hx
    obtain ⟨y, hy, hxy⟩ := exists_of_mapM_ok h₀.changes_eq hx₀
    obtain ⟨change, hchange, _⟩ := map_ok hxy
    exact ⟨checkIds_iff.mp h₀.ids_eq x hx₀, change_total_iff.mp ⟨change, hchange⟩⟩

theorem changes_of_harmless :
    ∃ changes₁, (present₁.mapM fun x => (env.change s.notes x.2).map (x.2, ·)) = .ok changes₁ := by
  have hchange : ∀ x ∈ present₁, ∃ y, (env.change s.notes x.2).map (x.2, ·) = .ok y := by
    intro x hx
    obtain ⟨change, hchange⟩ := change_total_iff.mpr (accepted_of_harmless hfresh hharm h₀ htaken₁ hx).2
    exact ⟨(x.2, change), by rw [hchange]; rfl⟩
  obtain ⟨changes₁, hall⟩ := forall₂_of_forall_exists hchange
  exact ⟨changes₁, mapM_of_forall₂ hall⟩

theorem distinct_of_harmless
    (hchanges : (present₁.mapM fun x => (env.change s.notes x.2).map (x.2, ·)) = .ok changes₁) :
    changes₁.Pairwise env.Distinct := by
  have hpair : present₁.Pairwise fun x z => x ∈ present₁ ∧ z ∈ present₁ ∧ x ≠ z :=
    (List.Nodup.of_map _ htaken₁.keys).imp_of_mem fun hx hz hne => ⟨hx, hz, hne⟩
  refine mapM_pairwise hpair ?_ hchanges
  rintro x z b b' ⟨hx, hz, hne⟩ hb hb'
  obtain ⟨c, hc, rfl⟩ := map_ok hb
  obtain ⟨c', hc', rfl⟩ := map_ok hb'
  intro hxins hzins id hxid hzid
  obtain rfl : c = .inserted := hxins
  obtain rfl : c' = .inserted := hzins
  have hxnone := existing_of_inserted hc
  have hznone := existing_of_inserted hc'
  have hxrec := (mem_present_iff htaken₁).mp hx
  have hzrec := (mem_present_iff htaken₁).mp hz
  by_cases hxbad : x.2.relative ∈ bad
  · exact hne ((hharm.free x hxrec hxbad hxnone id hxid).2 z hzrec hznone hzid).symm
  by_cases hzbad : z.2.relative ∈ bad
  · exact hne ((hharm.free z hzrec hzbad hznone id hzid).2 x hxrec hxnone hxid)
  have hx₀ := (mem_present₀_iff hfresh hharm h₀ htaken₁ hxbad).mpr hx
  have hz₀ := (mem_present₀_iff hfresh hharm h₀ htaken₁ hzbad).mpr hz
  exact hne (h₀.new_eq hfresh hx₀ hz₀ hxnone hznone hxid hzid)

theorem rows_of_harmless
    (hchanges : (present₁.mapM fun x => (env.change s.notes x.2).map (x.2, ·)) = .ok changes₁) :
    ∃ t, env.writeRows s.notes (env.lost s paths) changes₁ = .ok t := by
  have hmem : ∀ y ∈ changes₁, ∃ x ∈ present₁, env.change s.notes x.2 = .ok y.2 ∧ x.2 = y.1 := by
    intro y hy
    obtain ⟨x, hx, hxy⟩ := mem_of_mapM_ok hchanges hy
    obtain ⟨change, hchange, rfl⟩ := map_ok hxy
    exact ⟨x, hx, hchange, rfl⟩
  refine writeRows_total (distinct_of_harmless hfresh hharm h₀ htaken₁ hchanges) (fun y hy hins => ?_) fun y hy _ _ => ?_
  · obtain ⟨x, hx, hchange, hxy⟩ := hmem y hy
    obtain ⟨hid, _, htitle⟩ := accepted_of_harmless hfresh hharm h₀ htaken₁ hx
    obtain ⟨id, hid⟩ := Option.ne_none_iff_exists'.mp hid
    obtain ⟨title, htitle⟩ := Option.ne_none_iff_exists'.mp htitle
    rw [hins] at hchange
    have hnone := existing_of_inserted hchange
    refine ⟨id, title, hxy ▸ hid, hxy ▸ htitle, ?_⟩
    by_cases hbad : x.2.relative ∈ bad
    · exact (hharm.free x ((mem_present_iff htaken₁).mp hx) hbad hnone id hid).1
    · have hx₀ := (mem_present₀_iff hfresh hharm h₀ htaken₁ hbad).mpr hx
      exact fun n hn hn' => lost_mono hharm htaken₁.scanned (h₀.new_free hfresh hx₀ hnone hid hn hn')
  · obtain ⟨x, hx, _, hxy⟩ := hmem y hy
    exact hxy ▸ (accepted_of_harmless hfresh hharm h₀ htaken₁ hx).2.2

end

theorem unblocked_of_harmless (hfresh : env.FreshIds s) (hharm : env.Harmless s paths bad) :
    env.Unblocked s paths bad := by
  intro s₀ r₀ scan₀ present₀ changes₀ h₀
  obtain ⟨scan₁, hscan₁⟩ := scan_of_harmless hfresh hharm h₀
  have hscanned₁ := scan_ok hscan₁
  obtain ⟨files₁, present₁, hadopt₁⟩ := adopt_of_harmless hfresh hharm h₀ hscanned₁
  have htaken₁ := adopt_ok hscanned₁ hfresh.files hadopt₁
  obtain ⟨changes₁, hchanges₁⟩ := changes_of_harmless hfresh hharm h₀ htaken₁
  obtain ⟨notes₁, hnotes₁⟩ := rows_of_harmless hfresh hharm h₀ htaken₁ hchanges₁
  have hmissing₁ := missing_eq htaken₁ hfresh
  have h₁ : env.Ran s paths ⟨notes₁, files₁⟩ _ scan₁ present₁ changes₁ := {
    scan_eq := hscan₁
    adopt_eq := hadopt₁
    guarded := by rw [hmissing₁]; exact hharm.guard
    ids_eq := checkIds_iff.mpr fun x hx => (accepted_of_harmless hfresh hharm h₀ htaken₁ hx).1
    changes_eq := hchanges₁
    notes_eq := by rw [hmissing₁]; exact hnotes₁
    report := rfl }
  have hsame : ∀ y, y.1.relative ∉ bad → (y ∈ changes₀ ↔ y ∈ changes₁) := by
    intro y hbad
    rw [h₀.mem_changes, h₁.mem_changes]
    constructor
    · rintro ⟨x, hx, hxy, hchange⟩
      exact ⟨x, (mem_present₀_iff hfresh hharm h₀ htaken₁ (hxy ▸ hbad)).mp hx, hxy, hchange⟩
    · rintro ⟨x, hx, hxy, hchange⟩
      exact ⟨x, (mem_present₀_iff hfresh hharm h₀ htaken₁ (hxy ▸ hbad)).mpr hx, hxy, hchange⟩
  have hother : ∀ x ∈ present₀, x.2.relative ∉ bad := fun x hx =>
    (mem_others.mp ((mem_present_iff (h₀.taken hfresh.files)).mp hx).1).2
  refine ⟨_, _, scan₁, present₁, changes₁, h₁, hsame, fun y hy n hn => ?_, fun n hbad => ?_, fun p hbad => ?_⟩
  · obtain ⟨x, hx, hxy, _⟩ := h₀.mem_changes.mp hy
    rw [← hxy] at hn
    have hx₁ := (mem_present₀_iff hfresh hharm h₀ htaken₁ (hother x hx)).mp hx
    exact ⟨((h₀.rows hfresh.files).1 n).mpr (.inl ⟨x, hx, hn⟩), ((h₁.rows hfresh.files).1 n).mpr (.inl ⟨x, hx₁, hn⟩)⟩
  · rw [h₀.mem_lost hfresh, h₁.mem_lost hfresh]
    exact lost_iff hharm hscanned₁ hbad
  · exact read_others hfresh h₀ htaken₁ hbad

/-- A file that does not parse is harmless. -/
theorem unblocked_of_unreadable (hfresh : env.FreshIds s)
    (hbad : ∀ b ∈ paths, b ∈ bad → s.files.read b = some .unreadable) : env.Unblocked s paths bad := by
  intro s₀ r₀ scan₀ present₀ changes₀ h₀
  refine unblocked_of_harmless hfresh ?_ _ _ _ _ _ h₀
  have hnot : ∀ b ∈ paths, b ∈ bad → ∀ m content, s.files.read b ≠ some (.post m content) := by
    intro b hb hbbad m content hread
    rw [hbad b hb hbbad] at hread
    cases hread
  have hlost : env.lost s paths = env.lost s (others paths bad) := by
    rw [Env.lost, Env.lost]
    refine List.filter_congr fun n hn => ?_
    have hmem : n ∈ env.lost s paths ↔ n ∈ env.lost s (others paths bad) := by
      rw [mem_lost, mem_lost]
      constructor
      · rintro ⟨_, hp, hread, hnone⟩
        have hother : notePath n.toIndexedNote ∉ bad := fun hpbad => hread (hbad _ hp hpbad)
        exact ⟨hn, mem_others.mpr ⟨hp, hother⟩, hread, fun q hq => hnone q (mem_others.mp hq).1⟩
      · rintro ⟨_, hp, hread, hnone⟩
        refine ⟨hn, (mem_others.mp hp).1, hread, fun q hq hid => ?_⟩
        by_cases hqbad : q ∈ bad
        · obtain ⟨m, content, hread, _⟩ := hid
          exact hnot q hq hqbad m content hread
        · exact hnone q (mem_others.mpr ⟨hq, hqbad⟩) hid
    rw [Env.lost, Env.lost, List.mem_filter, List.mem_filter] at hmem
    exact Bool.eq_iff_iff.mpr ⟨fun h => (hmem.mp ⟨hn, h⟩).2, fun h => (hmem.mpr ⟨hn, h⟩).2⟩
  have hnone : ∀ x : Key × PresentFile, env.Reconciles s.files paths x → x.2.relative ∉ bad := by
    rintro x ⟨hp, ⟨⟨m, content, hread, _⟩, _⟩ | ⟨m, content, hread, _⟩⟩ hxbad
    · exact hnot _ hp hxbad m content hread
    · exact hnot _ hp hxbad m content hread
  constructor
  case scannable => exact fun b hb hbbad m content hread => absurd hread (hnot b hb hbbad m content)
  case adoptable => exact fun b hb hbbad m content hread => absurd hread (hnot b hb hbbad m content)
  case own => exact fun b hb hbbad k ⟨m, content, hread, _⟩ => absurd hread (hnot b hb hbbad m content)
  case guard =>
    rw [hlost, ← missing_eq (h₀.taken hfresh.files) hfresh]
    exact h₀.guarded
  case accepted => exact fun x hx hxbad => absurd hxbad (hnone x hx)
  case free => exact fun x hx hxbad => absurd hxbad (hnone x hx)

/-! ## only with harmless files -/

section
variable (hfresh : env.FreshIds s) (h₀ : env.Ran s (others paths bad) s₀ r₀ scan₀ present₀ changes₀)
  (h₁ : env.Ran s paths s₁ r₁ scan₁ present₁ changes₁)
  (hsame : ∀ y, y.1.relative ∉ bad → (y ∈ changes₀ ↔ y ∈ changes₁))
include hfresh h₀ h₁ hsame

/-- A file that is reconciled without the bad ones is so with them. -/
theorem present_of_same (hx : x ∈ present₀) : x ∈ present₁ := by
  have hother := (mem_others.mp ((mem_present_iff (h₀.taken hfresh.files)).mp hx).1).2
  obtain ⟨y, hy, hxy⟩ := exists_of_mapM_ok h₀.changes_eq hx
  obtain ⟨change, _, rfl⟩ := map_ok hxy
  obtain ⟨z, hz, hzx, _⟩ := h₁.mem_changes.mp ((hsame _ hother).mp hy)
  have hkey := (h₁.taken hfresh.files).key hz
  rw [hzx, (h₀.taken hfresh.files).key hx] at hkey
  rwa [← Prod.ext (Option.some.inj hkey).symm hzx]

theorem no_other_has (hp : p ∈ paths) (hbad : p ∈ bad) (hid : HasId s.files p k) (hfirst : First s.files paths p k)
    {q : Text} (hq : q ∈ paths) (hqbad : q ∉ bad) : ¬ HasId s.files q k := by
  intro hqid
  have htaken₀ := h₀.taken hfresh.files
  obtain ⟨x, hx, rfl, hxp, _⟩ := htaken₀.scanned.identified.hasId
    (htaken₀.scanned.identified.mem_keys (mem_others.mpr ⟨hq, hqbad⟩) hqid)
  have hx₁ := present_of_same hfresh h₀ h₁ hsame ((htaken₀.mem x).mpr (.inl hx))
  obtain ⟨hxpaths, ⟨has, hxfirst⟩ | ⟨m, content, hread, hfalsy, hkey, _⟩⟩ :=
    (mem_present_iff (h₁.taken hfresh.files)).mp hx₁
  · have heq : x.2.relative = p := le_antisymm (hxfirst p hp hid) (hfirst _ hxpaths has.hasId)
    exact (mem_others.mp hxp).2 (heq ▸ hbad)
  · rw [hkey] at hid
    exact hfresh.files.unused _ p ⟨m, content, hread, hfalsy⟩ hid

variable (hmissing : ∀ n, notePath n.toIndexedNote ∉ bad →
  (n ∈ env.missing s.notes (others paths bad) scan₀.unreadablePaths present₀ ↔
    n ∈ env.missing s.notes paths scan₁.unreadablePaths present₁))
include hmissing

theorem harmless_of_same : env.Harmless s paths bad := by
  have htaken₁ := h₁.taken hfresh.files
  have haccepted : ∀ x, env.Reconciles s.files paths x →
      env.stored x.2.id ≠ none ∧ x.2.title.key ≠ none ∧ env.stored x.2.title ≠ none := by
    intro x hx
    have hx₁ := (mem_present_iff htaken₁).mpr hx
    obtain ⟨y, hy, hxy⟩ := exists_of_mapM_ok h₁.changes_eq hx₁
    obtain ⟨change, hchange, _⟩ := map_ok hxy
    exact ⟨checkIds_iff.mp h₁.ids_eq x hx₁, change_total_iff.mp ⟨change, hchange⟩⟩
  constructor
  case scannable => exact fun b hb _ => htaken₁.scanned.scannable hb
  case adoptable =>
    intro b hb _ m content hread hfalsy
    have hc := (htaken₁.scanned.candidate ⟨b, parseFrontmatter m, content⟩).mpr ⟨hb, m, hread, hfalsy, rfl⟩
    obtain ⟨x, hx⟩ := htaken₁.taken _ hc
    obtain ⟨tags, htags, _⟩ := presentFile_ok hx.2
    exact ⟨adoptionError_of_ok h₁.adopt_eq hc, tags, htags⟩
  case own =>
    intro b hb hbad k hid hfirst
    have hnone := fun q hq hqbad => no_other_has hfresh h₀ h₁ hsame hb hbad hid hfirst (q := q) hq hqbad
    refine ⟨hnone, fun n hn hp hnbad hread heq => ?_⟩
    have hlost₀ : n ∈ env.lost s (others paths bad) := by
      refine mem_lost.mpr ⟨hn, mem_others.mpr ⟨hp, hnbad⟩, hread, fun q hq => ?_⟩
      rw [heq]
      exact hnone q (mem_others.mp hq).1 (mem_others.mp hq).2
    have hlost₁ := (h₁.mem_lost hfresh).mp ((hmissing n hnbad).mp ((h₀.mem_lost hfresh).mpr hlost₀))
    exact (mem_lost.mp hlost₁).2.2.2 b hb (heq ▸ hid)
  case guard =>
    rw [← missing_eq htaken₁ hfresh]
    exact h₁.guarded
  case accepted => exact fun x hx _ => haccepted x hx
  case free =>
    intro x hx _ hnone id hid
    have hx₁ := (mem_present_iff htaken₁).mpr hx
    refine ⟨fun n hn heq => h₁.new_free hfresh hx₁ hnone hid hn heq, fun y hy hynone hyid => ?_⟩
    exact h₁.new_eq hfresh ((mem_present_iff htaken₁).mpr hy) hx₁ hynone hnone hyid hid

end

/-- **Bad files block nothing** exactly when they are harmless, or the reconcile of the others does not go
through. -/
theorem unblocked_iff (hfresh : env.FreshIds s) : env.Unblocked s paths bad ↔
    ((∃ out, env.reconcilePaths s (others paths bad) = .ok out) → env.Harmless s paths bad) := by
  constructor
  · rintro hunblocked ⟨⟨s₀, r₀⟩, hok⟩
    obtain ⟨scan₀, present₀, changes₀, h₀⟩ := reconcilePaths_ok hok
    obtain ⟨s₁, r₁, scan₁, present₁, changes₁, h₁, hsame, _, hmissing, _⟩ := hunblocked _ _ _ _ _ h₀
    exact harmless_of_same hfresh h₀ h₁ hsame hmissing
  · intro hharm s₀ r₀ scan₀ present₀ changes₀ h₀
    exact unblocked_of_harmless hfresh (hharm ⟨_, h₀.ok⟩) _ _ _ _ _ h₀

end

/-! ## a number among the tags -/

theorem keyed_nil : Keyed (fun n : Note => n.noteId) [] := .nil

/-- The first file has the tags `[2026]`. -/
def taggedDisk : State where
  notes := ⟨[], keyed_nil⟩
  files := [⟨"A.md".toList,
      .post ⟨.str "n1".toList, .str "A".toList, .seq [.int (.ofNat 2026)], .null, .null, .null, .null⟩ []⟩,
    ⟨"B.md".toList, titled (.str "n2".toList) (.str "B".toList)⟩]

def taggedPaths : List Text := ["A.md".toList, "B.md".toList]

theorem taggedDisk_fresh : plainEnv.FreshIds taggedDisk := by
  refine freshIds_of_named ?_
  rintro p ⟨m, content, hread, hfalsy⟩
  rcases List.mem_cons.mp (read_eq_some hread) with heq | hmem
  · cases heq
    exact absurd hfalsy (by decide +kernel)
  · cases List.mem_singleton.mp hmem
    exact absurd hfalsy (by decide +kernel)

theorem unblocked_iff_tagged : plainEnv.Unblocked taggedDisk taggedPaths ["B.md".toList] ↔
    ((∃ out, plainEnv.reconcilePaths taggedDisk (others taggedPaths ["B.md".toList]) = .ok out) →
      plainEnv.Harmless taggedDisk taggedPaths ["B.md".toList]) := unblocked_iff taggedDisk_fresh

/-- It ends the reconcile of the other file, which goes through alone. -/
theorem tag_blocks : (∃ s' r, plainEnv.reconcilePaths taggedDisk (others taggedPaths ["A.md".toList]) = .ok (s', r) ∧
      r.inserted = [.str "n2".toList]) ∧
    (∀ out, plainEnv.reconcilePaths taggedDisk taggedPaths ≠ .ok out) ∧
    ¬ plainEnv.Unblocked taggedDisk taggedPaths ["A.md".toList] := by
  obtain ⟨⟨s', r⟩, hok, hinserted⟩ := map_ok
    (show (plainEnv.reconcilePaths taggedDisk (others taggedPaths ["A.md".toList])).map (·.2.inserted) =
      .ok [.str "n2".toList] by decide +kernel)
  have hraised := map_error (show (plainEnv.reconcilePaths taggedDisk taggedPaths).map (fun _ => ()) =
    .error (.tagNotText "A.md".toList) by decide +kernel)
  have hnever : ∀ out, plainEnv.reconcilePaths taggedDisk taggedPaths ≠ .ok out := by
    intro out hout
    rw [hraised] at hout
    cases hout
  refine ⟨⟨s', r, hok, hinserted⟩, hnever, fun hunblocked => ?_⟩
  obtain ⟨scan₀, present₀, changes₀, h₀⟩ := reconcilePaths_ok hok
  obtain ⟨s₁, r₁, scan₁, present₁, changes₁, h₁, _⟩ := hunblocked _ _ _ _ _ h₀
  exact hnever _ h₁.ok

end Kajet.Reindex
