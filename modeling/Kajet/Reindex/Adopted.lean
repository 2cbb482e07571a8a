import Kajet.Reindex.Scanned

/-!
# What the adoption adds

* `Env.Fresh`   what the generated ids are: new, and different from each other;
* `Env.Taken`   the files after the adoption, and the present files, in terms of the scan;
* `adopt_ok`, `adopt_total`.
-/

namespace Kajet.Reindex
open Str Rank Links Frontmatter Fallible Table

variable {env : Env} {files files' : Files} {paths : List Text} {p : Text} {s : Scan}
  {c : AdoptionCandidate} {cs : List AdoptionCandidate} {x : Key × PresentFile}
  {present present' : List (Key × PresentFile)}

/-- The file parses, and has no id. -/
def Adoptable (files : Files) (p : Text) : Prop :=
  ∃ m content, files.read p = some (.post m content) ∧ (parseFrontmatter m).id.truthy = false

/-- The generated ids are no ids of the files, and different for different files. -/
structure Env.Fresh (env : Env) (files : Files) : Prop where
  nonempty : ∀ p, Adoptable files p → env.newNoteId p ≠ ""
  injective : ∀ p q, Adoptable files p → Adoptable files q → env.newNoteId p = env.newNoteId q → p = q
  unused : ∀ p q, Adoptable files p → ¬ HasId files q (.str (env.newId p))

def Env.AdoptedAs (env : Env) (c : AdoptionCandidate) (x : Key × PresentFile) : Prop :=
  x.1 = .str (env.newId c.relative) ∧
    env.presentFile (.str (env.newId c.relative)) c.fm c.relative = .ok x.2

/-- The file of a candidate afterwards. -/
def Env.adoptedDocument (env : Env) (c : AdoptionCandidate) : Document :=
  .post { c.fm with id := .str (env.newId c.relative) }.written c.content

structure Env.Taken (env : Env) (files : Files) (paths : List Text) (s : Scan) (files' : Files)
    (present : List (Key × PresentFile)) : Prop where
  scanned : env.Scanned files paths s
  mem : ∀ x, x ∈ present ↔ x ∈ s.present ∨ ∃ c ∈ s.candidates, env.AdoptedAs c x
  taken : ∀ c ∈ s.candidates, ∃ x, env.AdoptedAs c x
  keys : (present.map (·.1)).Nodup
  adopted : ∀ c ∈ s.candidates, files'.read c.relative = some (env.adoptedDocument c)
  others : ∀ p, (∀ c ∈ s.candidates, c.relative ≠ p) → files'.read p = files.read p

theorem newId_inj (h : env.newId p = env.newId q) : env.newNoteId p = env.newNoteId q :=
  String.toList_injective h

/-! ## the files -/

theorem read_adoptFiles_of_not (h : ∀ c ∈ cs, c.relative ≠ p) :
    (env.adoptFiles files cs).read p = files.read p := by
  induction cs generalizing files with
  | nil => rfl
  | cons c cs ih =>
    have hput := @ih (files.put c.relative (env.adoptedDocument c))
      fun c' hc' => h c' (List.mem_cons_of_mem _ hc')
    exact hput.trans (Files.read_put.trans (if_neg (h c List.mem_cons_self).symm))

theorem read_adoptFiles_of_mem (hnd : (cs.map (·.relative)).Nodup) (hc : c ∈ cs) :
    (env.adoptFiles files cs).read c.relative = some (env.adoptedDocument c) := by
  induction cs generalizing files with
  | nil => cases hc
  | cons c' cs ih =>
    rw [List.map_cons, List.nodup_cons] at hnd
    rcases List.mem_cons.mp hc with rfl | hc
    · have hnot : ∀ c' ∈ cs, c'.relative ≠ c.relative := fun c' hc' h =>
        hnd.1 (List.mem_map.mpr ⟨c', hc', h⟩)
      exact (read_adoptFiles_of_not hnot).trans (Files.read_put.trans (if_pos rfl))
    · exact ih hnd.2 hc

/-! ## the present files -/

theorem setKey_of_not {k : Key} {v : PresentFile} (h : k ∉ present.map (·.1)) :
    setKey present k v = present ++ [(k, v)] := if_neg h

theorem adoptPresent_ok (hnd : (cs.map fun c => env.newId c.relative).Nodup)
    (hnew : ∀ c ∈ cs, Key.str (env.newId c.relative) ∉ present.map (·.1))
    (hkeys : (present.map (·.1)).Nodup) (h : env.adoptPresent present cs = .ok present') :
    (∀ x, x ∈ present' ↔ x ∈ present ∨ ∃ c ∈ cs, env.AdoptedAs c x) ∧
      (∀ c ∈ cs, ∃ x, env.AdoptedAs c x) ∧ (present'.map (·.1)).Nodup := by
  refine foldlM_along (P := fun done t =>
    (∀ x, x ∈ t ↔ x ∈ present ∨ ∃ c ∈ done, env.AdoptedAs c x) ∧
      (∀ c ∈ done, ∃ x, env.AdoptedAs c x) ∧ (t.map (·.1)).Nodup)
    ⟨fun x => by simp, by simp, hkeys⟩ ?_ h
  intro done c rest t t' hl ⟨hmem, htaken, htkeys⟩ ht
  obtain ⟨pf, hpf, rfl⟩ := map_ok ht
  have hc : c ∈ cs := by
    rw [hl]
    exact List.mem_append_right _ List.mem_cons_self
  have hnot : Key.str (env.newId c.relative) ∉ t.map (·.1) := by
    intro hk
    obtain ⟨x, hx, hxk⟩ := List.mem_map.mp hk
    rcases (hmem x).mp hx with hx | ⟨c', hc', hx, _⟩
    · exact hnew c hc (hxk ▸ List.mem_map_of_mem hx)
    · rw [hl, List.map_append, List.nodup_append] at hnd
      have hsame : env.newId c'.relative = env.newId c.relative := Key.str.inj (hx.symm.trans hxk)
      exact hnd.2.2 _ (List.mem_map_of_mem hc') _ (List.mem_map_of_mem List.mem_cons_self) hsame
  rw [setKey_of_not hnot]
  refine ⟨fun x => ?_, fun c' hc' => ?_, ?_⟩
  · rw [List.mem_append, List.mem_singleton, hmem]
    constructor
    · rintro ((hx | ⟨c', hc', hx⟩) | rfl)
      · exact .inl hx
      · exact .inr ⟨c', List.mem_append_left _ hc', hx⟩
      · exact .inr ⟨c, by simp, rfl, hpf⟩
    · rintro (hx | ⟨c', hc', hx⟩)
      · exact .inl (.inl hx)
      · rcases List.mem_append.mp hc' with hc' | hc'
        · exact .inl (.inr ⟨c', hc', hx⟩)
        · rw [List.mem_singleton.mp hc'] at hx
          obtain ⟨hk, hx⟩ := hx
          rw [hpf] at hx
          exact .inr (Prod.ext hk (Except.ok.inj hx).symm)
  · rcases List.mem_append.mp hc' with hc' | hc'
    · exact htaken c' hc'
    · rw [List.mem_singleton.mp hc']
      exact ⟨(_, pf), rfl, hpf⟩
  · rw [List.map_append, List.nodup_append]
    refine ⟨htkeys, List.nodup_singleton _, fun k hk b hb => ?_⟩
    rw [List.mem_singleton.mp hb]
    rintro rfl
    exact hnot hk

theorem adoptPresent_total (h : ∀ c ∈ cs, ∃ tags, env.normalizeTags c.relative c.fm.tags = .ok tags) :
    ∃ present', env.adoptPresent present cs = .ok present' := by
  have hstep : ∀ (done : List AdoptionCandidate) c rest (t : List (Key × PresentFile)),
      cs = done ++ c :: rest → True → ∃ t', ((env.presentFile (.str (env.newId c.relative)) c.fm c.relative).map
        (setKey t (.str (env.newId c.relative)))) = .ok t' ∧ True := by
    intro done c rest t hl _
    obtain ⟨tags, htags⟩ := h c (by
      rw [hl]
      exact List.mem_append_right _ List.mem_cons_self)
    rw [Env.presentFile, htags]
    exact ⟨_, rfl, trivial⟩
  obtain ⟨present', hok, _⟩ := foldlM_total (P := fun _ _ => True) trivial hstep
  exact ⟨present', hok⟩

/-! ## the adoption -/

theorem Env.Scanned.adoptable (h : env.Scanned files paths s) (hc : c ∈ s.candidates) :
    Adoptable files c.relative := by
  obtain ⟨_, m, hread, hfalsy, _⟩ := (h.candidate c).mp hc
  exact ⟨m, c.content, hread, hfalsy⟩

theorem adopt_ok (hs : env.Scanned files paths s) (hfresh : env.Fresh files)
    (h : env.adopt files s = .ok (files', present)) : env.Taken files paths s files' present := by
  have hok : env.adoptPresent s.present s.candidates = .ok present ∧
      files' = env.adoptFiles files s.candidates := by
    unfold Env.adopt at h
    split at h
    · cases h
    · obtain ⟨present', hpresent, heq⟩ := map_ok h
      cases heq
      exact ⟨hpresent, rfl⟩
  obtain ⟨hpresent, rfl⟩ := hok
  have hnd : (s.candidates.map fun c => env.newId c.relative).Nodup := by
    have hmap := List.Nodup.map_on (f := env.newId) (fun p hp q hq h => by
      obtain ⟨c, hc, rfl⟩ := List.mem_map.mp hp
      obtain ⟨c', hc', rfl⟩ := List.mem_map.mp hq
      exact hfresh.injective _ _ (hs.adoptable hc) (hs.adoptable hc') (newId_inj h))
      hs.apart
    rwa [List.map_map] at hmap
  have hnew : ∀ c ∈ s.candidates, Key.str (env.newId c.relative) ∉ s.present.map (·.1) := by
    intro c hc hk
    obtain ⟨x, _, _, _, hid⟩ := hs.identified.hasId hk
    exact hfresh.unused _ _ (hs.adoptable hc) hid
  obtain ⟨hmem, htaken, hkeys⟩ := adoptPresent_ok hnd hnew hs.identified.keys hpresent
  exact ⟨hs, hmem, htaken, hkeys, fun c hc => read_adoptFiles_of_mem hs.apart hc, fun p => read_adoptFiles_of_not⟩

/-! ## the entries -/

/-- The id that a file is reconciled under. -/
def Env.idOf (env : Env) (p : Text) (fm : NoteFrontmatter) : Yaml :=
  if fm.id.truthy then fm.id else .str (env.newId p)

/-- No file before it has its id. -/
def Kept (files : Files) (p : Text) (fm : NoteFrontmatter) : Prop :=
  fm.id.truthy = true → ∀ q k, fm.id.key = some k → HasId files q k → p ≤ q

/-- What the reconcile of a whole disk works with. -/
def Env.Entry (env : Env) (files : Files) (x : Key × PresentFile) : Prop :=
  ∃ m content, files.read x.2.relative = some (.post m content) ∧
    Kept files x.2.relative (parseFrontmatter m) ∧
    (env.idOf x.2.relative (parseFrontmatter m)).key = some x.1 ∧
    env.presentFile (env.idOf x.2.relative (parseFrontmatter m)) (parseFrontmatter m) x.2.relative = .ok x.2

theorem Env.Entry.eq {y : Key × PresentFile} (hx : env.Entry files x) (hy : env.Entry files y)
    (hxy : x.2.relative = y.2.relative) : x = y := by
  obtain ⟨m, content, hread, _, hkey, hpf⟩ := hx
  obtain ⟨m', content', hread', _, hkey', hpf'⟩ := hy
  rw [hxy, hread'] at hread
  cases hread
  rw [hxy] at hkey hpf
  rw [hkey'] at hkey
  rw [hpf'] at hpf
  exact Prod.ext (Option.some.inj hkey).symm (Except.ok.inj hpf).symm

theorem HasId.isSome {k : Key} (h : HasId files p k) : (files.read p).isSome := by
  obtain ⟨m, content, hread, _⟩ := h
  rw [hread]
  rfl

section
variable {m : Metadata} {content : Text}

/-- Every file that is kept has its entry. -/
theorem Env.Taken.exists_entry (h : env.Taken files paths s files' present)
    (hall : ∀ p, (files.read p).isSome → p ∈ paths) (hread : files.read p = some (.post m content))
    (hkept : Kept files p (parseFrontmatter m)) : ∃ x ∈ present, x.2.relative = p ∧
      (env.idOf p (parseFrontmatter m)).key = some x.1 ∧
      env.presentFile (env.idOf p (parseFrontmatter m)) (parseFrontmatter m) p = .ok x.2 := by
  have hp : p ∈ paths := hall p (by rw [hread]; rfl)
  unfold Env.idOf
  split
  · rename_i htruthy
    obtain ⟨k, hk, hkey⟩ := h.scanned.identified.covered p hp m content hread htruthy
    have hid : HasId files p k := ⟨m, content, hread, htruthy, hkey⟩
    obtain ⟨x, hx, rfl, hxl, hxid⟩ := h.scanned.identified.hasId hk
    obtain ⟨_, ⟨m', content', hread', _, hkey', hpf⟩, hfirst⟩ := (h.scanned.identified.mem x).mp hx
    obtain rfl : x.2.relative = p := le_antisymm (hfirst p hp hid) (hkept htruthy _ _ hkey hxid)
    rw [hread] at hread'
    cases hread'
    exact ⟨x, (h.mem x).mpr (.inl hx), rfl, hkey, hpf⟩
  · rename_i hfalsy
    have hc := (h.scanned.candidate ⟨p, parseFrontmatter m, content⟩).mpr
      ⟨hp, m, hread, Bool.not_eq_true _ ▸ hfalsy, rfl⟩
    obtain ⟨x, hx⟩ := h.taken _ hc
    have hrel : x.2.relative = p := presentFile_relative hx.2
    exact ⟨x, (h.mem x).mpr (.inr ⟨_, hc, hx⟩), hrel, congrArg some hx.1.symm, hx.2⟩

theorem Env.Taken.entry (h : env.Taken files paths s files' present)
    (hall : ∀ p, (files.read p).isSome → p ∈ paths) (hx : x ∈ present) : env.Entry files x := by
  rcases (h.mem x).mp hx with hx | ⟨c, hc, hkey, hpf⟩
  · obtain ⟨_, ⟨m, content, hread, htruthy, hkey, hpf⟩, hfirst⟩ := (h.scanned.identified.mem x).mp hx
    refine ⟨m, content, hread, fun _ q k hk hid => ?_, ?_, ?_⟩
    · rw [hkey] at hk
      cases hk
      exact hfirst q (hall q hid.isSome) hid
    · rw [Env.idOf, if_pos htruthy]
      exact hkey
    · rw [Env.idOf, if_pos htruthy]
      exact hpf
  · obtain ⟨_, m, hread, hfalsy, hfm⟩ := (h.scanned.candidate c).mp hc
    have hrel : x.2.relative = c.relative := presentFile_relative hpf
    have hid : env.idOf c.relative (parseFrontmatter m) = .str (env.newId c.relative) := by
      rw [Env.idOf, hfalsy]
      rfl
    refine ⟨m, c.content, hrel ▸ hread, fun htruthy => ?_, ?_, ?_⟩
    · rw [hfalsy] at htruthy
      cases htruthy
    · rw [hrel, hid, hkey]
      rfl
    · rw [hrel, hid, ← hfm]
      exact hpf

/-- A file is under the key of its id. -/
theorem Env.Taken.key (h : env.Taken files paths s files' present) (hx : x ∈ present) :
    x.2.id.key = some x.1 := by
  rcases (h.mem x).mp hx with hx | ⟨c, _, hkey, hpf⟩
  · obtain ⟨_, ⟨m, content, _, _, hkey, hpf⟩, _⟩ := (h.scanned.identified.mem x).mp hx
    obtain ⟨_, _, hx⟩ := presentFile_ok hpf
    rw [hx]
    exact hkey
  · obtain ⟨_, _, hx⟩ := presentFile_ok hpf
    rw [hx, hkey]
    rfl

end
end Kajet.Reindex
