import Kajet.Lib.Fallible
import Kajet.Reindex.Scan

/-!
# What the scan finds

The scan goes through the paths in order; what it has found is said of the set of paths it has
seen, so that the scans of two sets of paths, or of two disks, can be compared.

* `HasId`, `Env.PresentAs`      a file has an id; what is kept of the first file that has it;
* `Env.Identified`             the present files and the duplicates among some paths;
* `scan_ok_iff`                when a scan succeeds; `Env.Scanned` is what it then returns.
-/

namespace Kajet.Reindex
open Str Rank Links Frontmatter Fallible Table

variable {env : Env} {files : Files} {l l' done paths : List Text} {p q a : Text} {k k' : Key}
  {x y : Key × PresentFile} {pf : PresentFile}

/-- The file parses, and has the id. -/
def HasId (files : Files) (p : Text) (k : Key) : Prop :=
  ∃ m content, files.read p = some (.post m content) ∧ (parseFrontmatter m).id.truthy = true ∧
    (parseFrontmatter m).id.key = some k

/-- No file before it has its id. -/
def First (files : Files) (paths : List Text) (p : Text) (k : Key) : Prop :=
  ∀ q ∈ paths, HasId files q k → p ≤ q

def Env.PresentAs (env : Env) (files : Files) (x : Key × PresentFile) : Prop :=
  ∃ m content, files.read x.2.relative = some (.post m content) ∧
    (parseFrontmatter m).id.truthy = true ∧ (parseFrontmatter m).id.key = some x.1 ∧
    env.presentFile (parseFrontmatter m).id (parseFrontmatter m) x.2.relative = .ok x.2

/-- The file goes through the scan. -/
def Env.Scannable (env : Env) (files : Files) (paths : List Text) (p : Text) : Prop :=
  ∀ m content, files.read p = some (.post m content) → (parseFrontmatter m).id.truthy = true →
    ∃ k, (parseFrontmatter m).id.key = some k ∧
      (First files paths p k → ∃ tags, env.normalizeTags p (parseFrontmatter m).tags = .ok tags)

theorem HasId.eq (h : HasId files p k) (h' : HasId files p k') : k = k' := by
  obtain ⟨m, content, hread, _, hkey⟩ := h
  obtain ⟨m', content', hread', _, hkey'⟩ := h'
  rw [hread] at hread'
  cases hread'
  rw [hkey] at hkey'
  exact Option.some.inj hkey'

theorem presentFile_ok {id : Yaml} {fm : NoteFrontmatter} (h : env.presentFile id fm p = .ok pf) :
    ∃ tags, env.normalizeTags p fm.tags = .ok tags ∧
      pf = { id := id, title := fm.title.orEmpty, tags := tags, createdAt := env.str fm.createdAt.orEmpty
             updatedAt := env.str fm.updatedAt.orEmpty, folder := noteFolder p, relative := p
             temporal := fm.temporal } := by
  obtain ⟨tags, htags, rfl⟩ := map_ok h
  exact ⟨tags, htags, rfl⟩

theorem presentFile_relative {id : Yaml} {fm : NoteFrontmatter} (h : env.presentFile id fm p = .ok pf) :
    pf.relative = p := by
  obtain ⟨tags, _, rfl⟩ := presentFile_ok h
  rfl

theorem Env.PresentAs.hasId (h : env.PresentAs files x) : HasId files x.2.relative x.1 := by
  obtain ⟨m, content, hread, htruthy, hkey, _⟩ := h
  exact ⟨m, content, hread, htruthy, hkey⟩

/-- What is kept of a file is determined. -/
theorem Env.PresentAs.eq (h : env.PresentAs files x) (h' : env.PresentAs files y)
    (hxy : x.2.relative = y.2.relative) : x = y := by
  obtain ⟨m, content, hread, _, hkey, hpf⟩ := h
  obtain ⟨m', content', hread', _, hkey', hpf'⟩ := h'
  rw [hxy, hread'] at hread
  cases hread
  rw [hkey] at hkey'
  rw [hxy, hpf'] at hpf
  exact Prod.ext (Option.some.inj hkey') (Except.ok.inj hpf).symm

/-! ## the files with ids -/

structure Env.Identified (env : Env) (files : Files) (l : List Text) (present : List (Key × PresentFile))
    (duplicateIds : List Key) : Prop where
  mem : ∀ x, x ∈ present ↔
    x.2.relative ∈ l ∧ env.PresentAs files x ∧ First files l x.2.relative x.1
  keys : (present.map (·.1)).Nodup
  covered : ∀ p ∈ l, ∀ m content, files.read p = some (.post m content) →
    (parseFrontmatter m).id.truthy = true →
    ∃ k ∈ present.map (·.1), (parseFrontmatter m).id.key = some k
  duplicate : ∀ k, k ∈ duplicateIds ↔ ∃ p ∈ l, ∃ q ∈ l, p ≠ q ∧ HasId files p k ∧ HasId files q k

namespace Env.Identified
variable {present : List (Key × PresentFile)} {duplicateIds : List Key}

theorem nil : env.Identified files [] [] [] where
  mem x := by simp
  keys := List.nodup_nil
  covered p hp := absurd hp List.not_mem_nil
  duplicate k := by simp

theorem congr (h : env.Identified files l present duplicateIds) (hl : ∀ p, p ∈ l ↔ p ∈ l') :
    env.Identified files l' present duplicateIds where
  mem x := by simpa only [First, hl] using h.mem x
  keys := h.keys
  covered p hp := h.covered p ((hl p).mpr hp)
  duplicate k := by simpa only [hl] using h.duplicate k

theorem mem_keys (h : env.Identified files l present duplicateIds) (hp : p ∈ l) (hk : HasId files p k) :
    k ∈ present.map (·.1) := by
  obtain ⟨m, content, hread, htruthy, hkey⟩ := hk
  obtain ⟨k', hk', hkey'⟩ := h.covered p hp m content hread htruthy
  rw [hkey] at hkey'
  rwa [Option.some.inj hkey']

theorem hasId (h : env.Identified files l present duplicateIds) (hk : k ∈ present.map (·.1)) :
    ∃ x ∈ present, x.1 = k ∧ x.2.relative ∈ l ∧ HasId files x.2.relative k := by
  obtain ⟨x, hx, rfl⟩ := List.mem_map.mp hk
  obtain ⟨hl, has, _⟩ := (h.mem x).mp hx
  exact ⟨x, hx, rfl, hl, has.hasId⟩

/-- Two entries of one key, or of one file, are the same. -/
theorem eq (h : env.Identified files l present duplicateIds) (hx : x ∈ present) (hy : y ∈ present)
    (hxy : x.1 = y.1) : x = y := by
  obtain ⟨hxl, hx, hxfirst⟩ := (h.mem x).mp hx
  obtain ⟨hyl, hy, hyfirst⟩ := (h.mem y).mp hy
  exact hx.eq hy (le_antisymm (hxfirst _ hyl (hxy ▸ hy.hasId)) (hyfirst _ hxl (hxy ▸ hx.hasId)))

/-- The next path has no id that was not seen: the present files stay the same. -/
theorem mem_of_old (h : env.Identified files done present duplicateIds) (hlt : ∀ q ∈ done, q < a)
    (hold : ∀ k, HasId files a k → k ∈ present.map (·.1)) : x ∈ present ↔
      x.2.relative ∈ done ++ [a] ∧ env.PresentAs files x ∧ First files (done ++ [a]) x.2.relative x.1 := by
  rw [h.mem]
  constructor
  · rintro ⟨hmem, has, hfirst⟩
    refine ⟨List.mem_append_left _ hmem, has, fun q hq hid => ?_⟩
    rcases List.mem_append.mp hq with hq | hq
    · exact hfirst q hq hid
    · rw [List.mem_singleton.mp hq]
      exact le_of_lt (hlt _ hmem)
  · rintro ⟨hmem, has, hfirst⟩
    refine ⟨?_, has, fun q hq => hfirst q (List.mem_append_left _ hq)⟩
    rcases List.mem_append.mp hmem with hmem | hmem
    · exact hmem
    · have ha := List.mem_singleton.mp hmem
      obtain ⟨y, _, _, hyl, hy⟩ := h.hasId (hold x.1 (ha ▸ has.hasId))
      have hle := hfirst _ (List.mem_append_left _ hyl) hy
      rw [ha] at hle
      exact absurd hle (not_le_of_gt (hlt _ hyl))

theorem duplicate_append (h : env.Identified files done present duplicateIds) (hlt : ∀ q ∈ done, q < a)
    (k : Key) : (∃ p ∈ done ++ [a], ∃ q ∈ done ++ [a], p ≠ q ∧ HasId files p k ∧ HasId files q k) ↔
      k ∈ duplicateIds ∨ HasId files a k ∧ k ∈ present.map (·.1) := by
  constructor
  · rintro ⟨p, hp, q, hq, hpq, hsp, hsq⟩
    rcases List.mem_append.mp hp with hp | hp <;> rcases List.mem_append.mp hq with hq | hq
    · exact .inl ((h.duplicate k).mpr ⟨p, hp, q, hq, hpq, hsp, hsq⟩)
    · rw [List.mem_singleton.mp hq] at hsq
      exact .inr ⟨hsq, h.mem_keys hp hsp⟩
    · rw [List.mem_singleton.mp hp] at hsp
      exact .inr ⟨hsp, h.mem_keys hq hsq⟩
    · exact absurd ((List.mem_singleton.mp hp).trans (List.mem_singleton.mp hq).symm) hpq
  · rintro (hk | ⟨hid, hk⟩)
    · obtain ⟨p, hp, q, hq, h⟩ := (h.duplicate k).mp hk
      exact ⟨p, List.mem_append_left _ hp, q, List.mem_append_left _ hq, h⟩
    · obtain ⟨y, _, _, hyl, hy⟩ := h.hasId hk
      exact ⟨_, List.mem_append_left _ hyl, a, by simp, (hlt _ hyl).ne, hy, hid⟩

/-- A path that has no id to look at. -/
theorem skip (h : env.Identified files done present duplicateIds) (hlt : ∀ q ∈ done, q < a)
    (hread : ∀ m content, files.read a = some (.post m content) →
      (parseFrontmatter m).id.truthy = false) :
    env.Identified files (done ++ [a]) present duplicateIds := by
  have hnone : ∀ k, ¬ HasId files a k := fun k ⟨m, content, hm, htruthy, _⟩ => by
    rw [hread m content hm] at htruthy
    cases htruthy
  refine ⟨fun x => h.mem_of_old hlt fun k hk => absurd hk (hnone k), h.keys, ?_, fun k => ?_⟩
  · intro p hp m content hm htruthy
    rcases List.mem_append.mp hp with hp | hp
    · exact h.covered p hp m content hm htruthy
    · rw [List.mem_singleton.mp hp] at hm
      rw [hread m content hm] at htruthy
      cases htruthy
  · rw [h.duplicate_append hlt]
    exact ⟨.inl, fun h => h.resolve_right fun hid => hnone k hid.1⟩

theorem covered_append (h : env.Identified files done present duplicateIds)
    {present' : List (Key × PresentFile)} (hsub : ∀ k ∈ present.map (·.1), k ∈ present'.map (·.1))
    (hid : HasId files a k) (hk : k ∈ present'.map (·.1)) : ∀ p ∈ done ++ [a], ∀ m content,
      files.read p = some (.post m content) → (parseFrontmatter m).id.truthy = true →
      ∃ k ∈ present'.map (·.1), (parseFrontmatter m).id.key = some k := by
  intro p hp m content hread htruthy
  rcases List.mem_append.mp hp with hp | hp
  · obtain ⟨k, hk, hkey⟩ := h.covered p hp m content hread htruthy
    exact ⟨k, hsub k hk, hkey⟩
  · obtain ⟨m', content', hread', _, hkey⟩ := hid
    rw [List.mem_singleton.mp hp, hread'] at hread
    cases hread
    exact ⟨k, hk, hkey⟩

/-- A path whose id was seen. -/
theorem again (h : env.Identified files done present duplicateIds) (hlt : ∀ q ∈ done, q < a)
    (hid : HasId files a k) (hk : k ∈ present.map (·.1)) :
    env.Identified files (done ++ [a]) present (duplicateIds ++ [k]) where
  mem x := h.mem_of_old hlt fun k' hk' => hk'.eq hid ▸ hk
  keys := h.keys
  covered := h.covered_append (fun _ => id) hid hk
  duplicate k' := by
    rw [h.duplicate_append hlt, List.mem_append, List.mem_singleton]
    constructor
    · rintro (hk' | rfl)
      · exact .inl hk'
      · exact .inr ⟨hid, hk⟩
    · rintro (hk' | ⟨hid', _⟩)
      · exact .inl hk'
      · exact .inr (hid'.eq hid)

/-- A path whose id is new. -/
theorem found (h : env.Identified files done present duplicateIds) (hlt : ∀ q ∈ done, q < a)
    (has : env.PresentAs files (k, pf)) (ha : pf.relative = a) (hk : k ∉ present.map (·.1)) :
    env.Identified files (done ++ [a]) (present ++ [(k, pf)]) duplicateIds := by
  have hid : HasId files a k := ha ▸ has.hasId
  refine ⟨fun x => ?_, ?_, ?_, fun k' => ?_⟩
  · rw [List.mem_append, List.mem_singleton, h.mem]
    constructor
    · rintro (⟨hmem, hx, hfirst⟩ | rfl)
      · refine ⟨List.mem_append_left _ hmem, hx, fun q hq hq' => ?_⟩
        rcases List.mem_append.mp hq with hq | hq
        · exact hfirst q hq hq'
        · rw [List.mem_singleton.mp hq]
          exact le_of_lt (hlt _ hmem)
      · refine ⟨List.mem_append_right _ (by simp [ha]), has, fun q hq hq' => ?_⟩
        rcases List.mem_append.mp hq with hq | hq
        · exact absurd (h.mem_keys hq hq') hk
        · rw [List.mem_singleton.mp hq, ← ha]
    · rintro ⟨hmem, hx, hfirst⟩
      rcases List.mem_append.mp hmem with hmem | hmem
      · exact .inl ⟨hmem, hx, fun q hq => hfirst q (List.mem_append_left _ hq)⟩
      · exact .inr (hx.eq has ((List.mem_singleton.mp hmem).trans ha.symm))
  · rw [List.map_append, List.nodup_append]
    refine ⟨h.keys, List.nodup_singleton _, fun k' hk' b hb => ?_⟩
    rw [List.mem_singleton.mp hb]
    rintro rfl
    exact hk hk'
  · exact h.covered_append (fun k' hk' => by simp [List.map_append, List.mem_append, hk']) hid
      (by simp)
  · rw [h.duplicate, ← h.duplicate, h.duplicate_append hlt]
    exact ⟨.inl, fun h => h.resolve_right fun ⟨hs, hmem⟩ => hk (hid.eq hs ▸ hmem)⟩

end Env.Identified

/-! ## the scan -/

structure Env.Scanned (env : Env) (files : Files) (l : List Text) (s : Scan) : Prop where
  identified : env.Identified files l s.present s.duplicateIds
  unreadable : ∀ p, p ∈ s.unreadablePaths ↔ p ∈ l ∧ files.read p = some .unreadable
  candidate : ∀ c, c ∈ s.candidates ↔ c.relative ∈ l ∧ ∃ m, files.read c.relative = some (.post m c.content) ∧
    (parseFrontmatter m).id.truthy = false ∧ c.fm = parseFrontmatter m
  apart : (s.candidates.map (·.relative)).Nodup

namespace Env.Scanned
variable {s t : Scan}

theorem nil : env.Scanned files [] ⟨[], [], [], []⟩ where
  identified := .nil
  unreadable p := by simp
  candidate c := by simp
  apart := List.nodup_nil

theorem congr (h : env.Scanned files l s) (hl : ∀ p, p ∈ l ↔ p ∈ l') : env.Scanned files l' s where
  identified := h.identified.congr hl
  unreadable p := by rw [h.unreadable, hl]
  candidate c := by rw [h.candidate, hl]
  apart := h.apart

theorem unreadable_skip (h : env.Scanned files done s) (ha : files.read a ≠ some .unreadable) (p : Text) :
    p ∈ s.unreadablePaths ↔ p ∈ done ++ [a] ∧ files.read p = some .unreadable := by
  rw [h.unreadable, List.mem_append, List.mem_singleton]
  constructor
  · rintro ⟨hp, hread⟩
    exact ⟨.inl hp, hread⟩
  · rintro ⟨hp | rfl, hread⟩
    · exact ⟨hp, hread⟩
    · exact absurd hread ha

theorem candidate_skip (h : env.Scanned files done s) (ha : ∀ m content, files.read a = some (.post m content) →
    (parseFrontmatter m).id.truthy = true) (c : AdoptionCandidate) :
    c ∈ s.candidates ↔ c.relative ∈ done ++ [a] ∧ ∃ m, files.read c.relative = some (.post m c.content) ∧
      (parseFrontmatter m).id.truthy = false ∧ c.fm = parseFrontmatter m := by
  rw [h.candidate, List.mem_append, List.mem_singleton]
  constructor
  · rintro ⟨hc, hm⟩
    exact ⟨.inl hc, hm⟩
  · rintro ⟨hc | rfl, m, hread, hfalsy, hfm⟩
    · exact ⟨hc, m, hread, hfalsy, hfm⟩
    · rw [ha m c.content hread] at hfalsy
      cases hfalsy

/-- A file without an id joins the candidates. -/
theorem adoptee (h : env.Scanned files done s) (hlt : ∀ q ∈ done, q < a) {m : Metadata} {content : Text}
    (hread : files.read a = some (.post m content)) (hfalsy : (parseFrontmatter m).id.truthy = false) :
    env.Scanned files (done ++ [a])
      { s with candidates := s.candidates ++ [⟨a, parseFrontmatter m, content⟩] } where
  identified := h.identified.skip hlt fun m' content' hm => by
    rw [hread] at hm
    cases hm
    exact hfalsy
  unreadable := h.unreadable_skip (by simp [hread])
  candidate c := by
    rw [List.mem_append, List.mem_singleton, h.candidate, List.mem_append, List.mem_singleton]
    constructor
    · rintro (⟨hc, hm⟩ | rfl)
      · exact ⟨.inl hc, hm⟩
      · exact ⟨.inr rfl, m, hread, hfalsy, rfl⟩
    · rintro ⟨hc | hc, m', hm, hfm⟩
      · exact .inl ⟨hc, m', hm, hfm⟩
      · obtain ⟨relative, fm, body⟩ := c
        cases hc
        rw [hread] at hm
        cases hm
        obtain ⟨_, rfl⟩ := hfm
        exact .inr rfl
  apart := by
    rw [List.map_append, List.nodup_append]
    refine ⟨h.apart, List.nodup_singleton _, fun p hp b hb => ?_⟩
    obtain ⟨c, hc, rfl⟩ := List.mem_map.mp hp
    rw [List.mem_singleton.mp hb]
    exact (hlt _ ((h.candidate c).mp hc).1).ne

/-- **Step lemma.** -/
theorem step (h : env.Scanned files done s) (hlt : ∀ q ∈ done, q < a) (hs : env.scanFile files s a = .ok t) :
    env.Scanned files (done ++ [a]) t := by
  unfold Env.scanFile at hs
  split at hs
  · -- there is no file
    rename_i hread
    cases hs
    exact ⟨h.identified.skip hlt (by simp [hread]), h.unreadable_skip (by simp [hread]),
      h.candidate_skip (by simp [hread]), h.apart⟩
  · -- it does not parse
    rename_i hread
    cases hs
    refine ⟨h.identified.skip hlt (by simp [hread]), fun p => ?_, h.candidate_skip (by simp [hread]), h.apart⟩
    rw [List.mem_append, List.mem_append, List.mem_singleton, h.unreadable]
    constructor
    · rintro (⟨hp, hm⟩ | rfl)
      · exact ⟨.inl hp, hm⟩
      · exact ⟨.inr rfl, hread⟩
    · rintro ⟨hp | hp, hm⟩
      · exact .inl ⟨hp, hm⟩
      · exact .inr hp
  · rename_i m content hread
    dsimp only at hs
    split at hs
    · rename_i hfalsy
      cases hs
      exact h.adoptee hlt hread hfalsy
    · rename_i htruthy
      rw [Bool.not_eq_false] at htruthy
      have hcand := h.candidate_skip (a := a) fun m' content' hm => by
        rw [hread] at hm
        cases hm
        exact htruthy
      have hunread := h.unreadable_skip (a := a) (by simp [hread])
      split at hs
      · cases hs
      · rename_i k hkey
        have hid : HasId files a k := ⟨m, content, hread, htruthy, hkey⟩
        split at hs
        · rename_i hk
          cases hs
          exact ⟨h.identified.again hlt hid hk, hunread, hcand, h.apart⟩
        · rename_i hk
          obtain ⟨pf, hpf, rfl⟩ := map_ok hs
          have hrel := presentFile_relative hpf
          have has : env.PresentAs files (k, pf) :=
            ⟨m, content, hrel.symm ▸ hread, htruthy, hkey, hrel.symm ▸ hpf⟩
          exact ⟨h.identified.found hlt has hrel hk, hunread, hcand, h.apart⟩

/-- A scan that succeeds had no file that could not go through it. -/
theorem scannable (h : env.Scanned files l s) (hp : p ∈ l) : env.Scannable files l p := by
  intro m content hread htruthy
  obtain ⟨k, hk, hkey⟩ := h.identified.covered p hp m content hread htruthy
  refine ⟨k, hkey, fun hfirst => ?_⟩
  obtain ⟨x, hx, rfl, hxl, hxid⟩ := h.identified.hasId hk
  obtain ⟨_, ⟨m', content', hread', _, _, hpf⟩, hxfirst⟩ := (h.identified.mem x).mp hx
  have hxp : x.2.relative = p :=
    le_antisymm (hxfirst p hp ⟨m, content, hread, htruthy, hkey⟩) (hfirst _ hxl hxid)
  rw [hxp] at hread' hpf
  rw [hread] at hread'
  cases hread'
  obtain ⟨tags, htags, _⟩ := presentFile_ok hpf
  exact ⟨tags, htags⟩

end Env.Scanned

/-- A step goes through when the file does. -/
theorem scanFile_total {s : Scan} (h : env.Scanned files done s)
    (ha : env.Scannable files (done ++ [a]) a) : ∃ t, env.scanFile files s a = .ok t := by
  unfold Env.scanFile
  split
  · exact ⟨_, rfl⟩
  · exact ⟨_, rfl⟩
  · rename_i m content hread
    dsimp only
    split
    · exact ⟨_, rfl⟩
    · rename_i htruthy
      rw [Bool.not_eq_false] at htruthy
      obtain ⟨k, hkey, htags⟩ := ha m content hread htruthy
      rw [hkey]
      dsimp only
      split
      · exact ⟨_, rfl⟩
      · rename_i hk
        obtain ⟨tags, htags⟩ := htags fun q hq hid => by
          rcases List.mem_append.mp hq with hq | hq
          · exact absurd (h.identified.mem_keys hq hid) hk
          · exact (List.mem_singleton.mp hq).ge
        rw [Env.presentFile, htags]
        exact ⟨_, rfl⟩

theorem lt_of_sortedSet {rest : List Text} (h : sortedSet paths = done ++ a :: rest) : ∀ q ∈ done, q < a := by
  have hsorted := sortedSet_sorted paths
  rw [h] at hsorted
  exact fun q hq => (List.pairwise_append.mp hsorted).2.2 q hq a List.mem_cons_self

theorem scan_ok {s : Scan} (h : env.scan files paths = .ok s) : env.Scanned files paths s :=
  (foldlM_along (P := fun done s => env.Scanned files done s) .nil
    (fun _ _ _ _ _ hl hP hs => hP.step (lt_of_sortedSet hl) hs) h).congr fun _ => mem_sortedSet

/-- **The scan** succeeds when every file goes through it. -/
theorem scan_total (h : ∀ p ∈ paths, env.Scannable files paths p) : ∃ s, env.scan files paths = .ok s := by
  have hstep : ∀ done a rest s, sortedSet paths = done ++ a :: rest → env.Scanned files done s →
      ∃ t, env.scanFile files s a = .ok t ∧ env.Scanned files (done ++ [a]) t := by
    intro done a rest s hl hs
    have hlt := lt_of_sortedSet hl
    have hsub : ∀ q ∈ paths, q ∈ done ++ [a] ∨ a ≤ q := by
      intro q hq
      have hsorted := sortedSet_sorted paths
      rw [← mem_sortedSet, hl] at hq
      rw [hl] at hsorted
      rcases List.mem_append.mp hq with hq | hq
      · exact .inl (List.mem_append_left _ hq)
      · rcases List.mem_cons.mp hq with rfl | hq
        · exact .inr le_rfl
        · exact .inr (le_of_lt ((List.pairwise_cons.mp (List.pairwise_append.mp hsorted).2.1).1 q hq))
    have ha : a ∈ paths := by
      rw [← mem_sortedSet, hl]
      exact List.mem_append_right _ List.mem_cons_self
    obtain ⟨t, ht⟩ := scanFile_total hs fun m content hread htruthy => by
      obtain ⟨k, hkey, htags⟩ := h a ha m content hread htruthy
      refine ⟨k, hkey, fun hfirst => htags fun q hq hid => ?_⟩
      exact (hsub q hq).elim (fun hq => hfirst q hq hid) id
    exact ⟨t, ht, hs.step hlt ht⟩
  obtain ⟨s, hs, _⟩ := foldlM_total .nil hstep
  exact ⟨s, hs⟩

end Kajet.Reindex
