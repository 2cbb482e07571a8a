import Kajet.Reindex.Written

/-!
# The disk after a reindex, scanned again

* `Env.Taken.hasId_iff`     the ids in the files afterwards;
* `Env.Taken.again`         a file that had an entry has the same one again;
* `drifted_of_leaves`       a row that a file left has not drifted from that file.
-/

namespace Kajet.Reindex
open Str Rank Links Frontmatter Fallible Table

variable {env : Env} {files files' : Files} {paths : List Text} {p q : Text} {scan : Scan}
  {c : AdoptionCandidate} {x y : Key × PresentFile} {present : List (Key × PresentFile)} {k : Key}
  {m : Metadata} {content : Text}

theorem newId_ne_nil (hfresh : env.Fresh files) (hp : Adoptable files p) : env.newId p ≠ [] :=
  fun h => hfresh.nonempty p hp (String.toList_injective (h.trans String.toList_empty.symm))

/-- The frontmatter of an adopted file, read again. -/
theorem parse_adopted (c : AdoptionCandidate) : parseFrontmatter
    { c.fm with id := Yaml.str (env.newId c.relative) }.written =
      { c.fm with id := .str (env.newId c.relative), temporal := c.fm.temporal.settled } := parse_written _

namespace Env.Taken

theorem hasId_of_candidate (h : env.Taken files paths scan files' present) (hfresh : env.Fresh files)
    (hc : c ∈ scan.candidates) : HasId files' c.relative (.str (env.newId c.relative)) := by
  refine ⟨_, _, h.adopted c hc, ?_, ?_⟩
  · rw [parse_adopted]
    exact decide_eq_true (newId_ne_nil hfresh (h.scanned.adoptable hc))
  · rw [parse_adopted]
    rfl

/-- The ids of the files afterwards. -/
theorem hasId_iff (h : env.Taken files paths scan files' present) (hfresh : env.Fresh files) :
    HasId files' p k ↔ HasId files p k ∨ ∃ c ∈ scan.candidates, c.relative = p ∧ k = .str (env.newId p) := by
  constructor
  · intro hid
    by_cases hc : ∃ c ∈ scan.candidates, c.relative = p
    · obtain ⟨c, hc, rfl⟩ := hc
      exact .inr ⟨c, hc, rfl, hid.eq (h.hasId_of_candidate hfresh hc)⟩
    · obtain ⟨m, content, hread, hid⟩ := hid
      rw [h.others p fun c hc' hp => hc ⟨c, hc', hp⟩] at hread
      exact .inl ⟨m, content, hread, hid⟩
  · rintro (⟨m, content, hread, htruthy, hkey⟩ | ⟨c, hc, rfl, rfl⟩)
    · refine ⟨m, content, ?_, htruthy, hkey⟩
      rw [h.others, hread]
      rintro c hc rfl
      obtain ⟨_, m', hread', hfalsy, _⟩ := (h.scanned.candidate c).mp hc
      rw [hread] at hread'
      cases hread'
      rw [htruthy] at hfalsy
      cases hfalsy
    · exact h.hasId_of_candidate hfresh hc

theorem isSome_iff (h : env.Taken files paths scan files' present) (p : Text) :
    (files'.read p).isSome ↔ (files.read p).isSome := by
  by_cases hc : ∃ c ∈ scan.candidates, c.relative = p
  · obtain ⟨c, hc, rfl⟩ := hc
    obtain ⟨_, m, hread, _⟩ := (h.scanned.candidate c).mp hc
    rw [h.adopted c hc, hread]
    simp
  · rw [h.others p fun c hc' hp => hc ⟨c, hc', hp⟩]

theorem unreadable_iff (h : env.Taken files paths scan files' present) (p : Text) :
    files'.read p = some .unreadable ↔ files.read p = some .unreadable := by
  by_cases hc : ∃ c ∈ scan.candidates, c.relative = p
  · obtain ⟨c, hc, rfl⟩ := hc
    obtain ⟨_, m, hread, _⟩ := (h.scanned.candidate c).mp hc
    rw [h.adopted c hc, hread]
    simp [adoptedDocument]
  · rw [h.others p fun c hc' hp => hc ⟨c, hc', hp⟩]

/-- No file is without an id afterwards. -/
theorem truthy (h : env.Taken files paths scan files' present) (hfresh : env.Fresh files)
    (hall : ∀ p, (files.read p).isSome → p ∈ paths) (hread : files'.read p = some (.post m content)) :
    (parseFrontmatter m).id.truthy = true := by
  by_cases hc : ∃ c ∈ scan.candidates, c.relative = p
  · obtain ⟨c, hc, rfl⟩ := hc
    obtain ⟨m', content', hread', htruthy, _⟩ := h.hasId_of_candidate hfresh hc
    rw [hread] at hread'
    cases hread'
    exact htruthy
  · rw [h.others p fun c hc' hp => hc ⟨c, hc', hp⟩] at hread
    by_contra hfalsy
    refine hc ⟨⟨p, parseFrontmatter m, content⟩, (h.scanned.candidate _).mpr ⟨hall p ?_, m, hread, ?_, rfl⟩, rfl⟩
    · rw [hread]
      rfl
    · exact Bool.not_eq_true _ ▸ hfalsy

/-- A file that is kept afterwards was kept before. -/
theorem kept (h : env.Taken files paths scan files' present) (hfresh : env.Fresh files)
    (hread : files'.read p = some (.post m content)) (hkept : Kept files' p (parseFrontmatter m)) :
    ∃ m content, files.read p = some (.post m content) ∧ Kept files p (parseFrontmatter m) := by
  by_cases hc : ∃ c ∈ scan.candidates, c.relative = p
  · obtain ⟨c, hc, rfl⟩ := hc
    obtain ⟨_, m', hread', hfalsy, _⟩ := (h.scanned.candidate c).mp hc
    refine ⟨m', c.content, hread', fun htruthy => ?_⟩
    rw [hfalsy] at htruthy
    cases htruthy
  · rw [h.others p fun c hc' hp => hc ⟨c, hc', hp⟩] at hread
    exact ⟨m, content, hread, fun htruthy q k hkey hid =>
      hkept htruthy q k hkey ((h.hasId_iff hfresh).mpr (.inl hid))⟩

end Env.Taken

/-- The same file, with its dates as they stand after the adoption. -/
def PresentFile.settled (pf : PresentFile) : PresentFile := { pf with temporal := pf.temporal.settled }

/-- **The entry again.**  Only an adopted file has changed: what was dropped of its dates is gone. -/
theorem Env.Taken.again (h : env.Taken files paths scan files' present) (hfresh : env.Fresh files)
    (hall : ∀ p, (files.read p).isSome → p ∈ paths) (hx : x ∈ present) : env.Entry files' x ∨
      (env.Entry files' (x.1, x.2.settled) ∧ x.2.id = .str (env.newId x.2.relative) ∧
        Adoptable files x.2.relative) := by
  rcases (h.mem x).mp hx with hx | ⟨c, hc, hkey, hpf⟩
  · obtain ⟨_, ⟨m, content, hread, htruthy, hkey, hpf⟩, hfirst⟩ := (h.scanned.identified.mem x).mp hx
    have hid : env.idOf x.2.relative (parseFrontmatter m) = (parseFrontmatter m).id := if_pos htruthy
    have hother : ∀ c ∈ scan.candidates, c.relative ≠ x.2.relative := by
      intro c hc hp
      obtain ⟨_, m', hread', hfalsy, _⟩ := (h.scanned.candidate c).mp hc
      rw [hp, hread] at hread'
      cases hread'
      rw [htruthy] at hfalsy
      cases hfalsy
    refine .inl ⟨m, content, (h.others _ hother).trans hread, fun _ q k hk hid => ?_, hid ▸ hkey, hid ▸ hpf⟩
    rw [hkey] at hk
    cases hk
    rcases (h.hasId_iff hfresh).mp hid with hid | ⟨c, hc, rfl, hk⟩
    · exact hfirst q (hall q hid.isSome) hid
    · exact absurd ⟨m, content, hread, htruthy, hk ▸ hkey⟩
        (hfresh.unused _ _ (h.scanned.adoptable hc))
  · have hrel : x.2.relative = c.relative := presentFile_relative hpf
    have hsome := h.scanned.adoptable hc
    obtain ⟨tags, htags, hx⟩ := presentFile_ok hpf
    have hidOf : env.idOf x.2.relative (parseFrontmatter
        { c.fm with id := Yaml.str (env.newId c.relative) }.written) = .str (env.newId c.relative) := by
      rw [parse_adopted]
      exact if_pos (decide_eq_true (newId_ne_nil hfresh hsome))
    refine .inr ⟨⟨_, _, hrel ▸ h.adopted c hc, fun _ q k hk hid => ?_, ?_, ?_⟩, ?_, hrel ▸ hsome⟩
    · rw [parse_adopted] at hk
      cases hk
      rcases (h.hasId_iff hfresh).mp hid with hid | ⟨c', hc', rfl, hk⟩
      · exact absurd hid (hfresh.unused _ _ hsome)
      · have hsame := hfresh.injective _ _ hsome (h.scanned.adoptable hc')
          (newId_inj (Key.str.inj hk))
        rw [← hsame]
        exact hrel.le
    · show (env.idOf x.2.relative _).key = some x.1
      rw [hidOf, hkey]
      rfl
    · show env.presentFile (env.idOf x.2.relative _) _ x.2.relative = .ok x.2.settled
      rw [hidOf, parse_adopted, hx, Env.presentFile, htags]
      rfl
    · rw [hx]

/-- The file of an entry has its id, when no file is without one. -/
theorem Env.Entry.read_id (h : env.Entry files x) (htruthy : ∀ m content,
    files.read x.2.relative = some (.post m content) → (parseFrontmatter m).id.truthy = true) :
    ∃ m content, files.read x.2.relative = some (.post m content) ∧ (parseFrontmatter m).id = x.2.id := by
  obtain ⟨m, content, hread, _, _, hpf⟩ := h
  obtain ⟨_, _, hx⟩ := presentFile_ok hpf
  have hid : x.2.id = env.idOf x.2.relative (parseFrontmatter m) := congrArg PresentFile.id hx
  rw [Env.idOf, if_pos (htruthy m content hread)] at hid
  exact ⟨m, content, hread, hid.symm⟩

/-! ## the rows that the files left -/

/-- The row says what the file says. -/
structure Mirrors (pf : PresentFile) (n : Note) : Prop where
  id : pf.id = .str n.noteId.toList
  title : pf.title = .str n.title
  folder : n.folder = pf.folder
  tags : n.tags = pf.tags
  createdAt : n.createdAt = pf.createdAt
  updatedAt : n.updatedAt = pf.updatedAt
  temporal : pf.temporal.temporalOr n.occurredAt n.period = (n.occurredAt, n.period)

theorem drifted_iff {pf : PresentFile} {n : Note} (hid : pf.id = .str n.noteId.toList) :
    drifted n pf = false ↔ Mirrors pf n := by
  have hbools : drifted n pf = false ↔ (((((n.folder = pf.folder ∧ pf.title = .str n.title) ∧ n.tags = pf.tags) ∧
      n.createdAt = pf.createdAt) ∧ n.updatedAt = pf.updatedAt) ∧
      n.occurredAt = (pf.temporal.temporalOr n.occurredAt n.period).1) ∧
      n.period = (pf.temporal.temporalOr n.occurredAt n.period).2 := by
    simp [drifted, identityChanged, ← Yaml.asStr_eq_some]
  rw [hbools]
  constructor
  · rintro ⟨⟨⟨⟨⟨⟨hfolder, htitle⟩, htags⟩, hcreated⟩, hupdated⟩, ho⟩, hp⟩
    exact ⟨hid, htitle, hfolder, htags, hcreated, hupdated, Prod.ext ho.symm hp.symm⟩
  · rintro ⟨_, htitle, hfolder, htags, hcreated, hupdated, htemporal⟩
    rw [htemporal]
    exact ⟨⟨⟨⟨⟨⟨hfolder, htitle⟩, htags⟩, hcreated⟩, hupdated⟩, rfl⟩, rfl⟩

theorem temporalOr_self (t : Temporal) (o p : Option Text) :
    t.temporalOr (t.temporalOr o p).1 (t.temporalOr o p).2 = t.temporalOr o p := by
  unfold Temporal.temporalOr
  cases t.occurredAtDropped <;> cases t.periodDropped <;> rfl

/-- A row that a file left, when its id and its title are strings. -/
theorem Env.Leaves.mirrors {t : Notes} {pf : PresentFile} {n : Note} {id title : Text}
    (h : env.Leaves t pf n) (hid : pf.id = .str id) (htitle : pf.title = .str title) :
    Mirrors pf n ∧ n.ownerId = env.ownerId := by
  obtain ⟨change, hchange, hn | hn | ⟨rfl, he⟩⟩ := h
  · obtain ⟨_, id', title', hid', htitle', rfl⟩ := hn
    have hid'' : id' = id := by
      rw [hid, env.stored_str] at hid'
      exact (Option.some.inj hid').symm
    have htitle'' : title' = title := by
      rw [htitle, env.stored_str] at htitle'
      exact (Option.some.inj htitle').symm
    refine ⟨⟨?_, ?_, rfl, rfl, rfl, rfl, ?_⟩, rfl⟩
    · show pf.id = .str (String.ofList id').toList
      rw [hid, hid'', String.toList_ofList]
    · show pf.title = .str title'
      rw [htitle, htitle'']
    · exact Prod.ext (ite_self pf.temporal.occurredAt) (ite_self pf.temporal.period)
  · obtain ⟨e, title', hc, htitle', rfl⟩ := hn
    have hc : change = .updated e := hc
    rw [hc] at hchange
    obtain ⟨_, heid, howner⟩ := existing_iff.mp (existing_of_updated hchange)
    have htitle'' : title' = title := by
      rw [htitle, env.stored_str] at htitle'
      exact (Option.some.inj htitle').symm
    refine ⟨⟨heid, ?_, rfl, rfl, rfl, rfl, temporalOr_self _ _ _⟩, howner⟩
    show pf.title = .str title'
    rw [htitle, htitle'']
  · obtain ⟨_, heid, howner⟩ := existing_iff.mp he
    rcases change_ok hchange with ⟨h, _⟩ | ⟨_, h, _⟩ | ⟨e, _, he', hdrifted⟩
    · cases h
    · cases h
    · rw [he] at he'
      cases he'
      exact ⟨(drifted_iff heid).mp hdrifted, howner⟩

/-- A new row has the dates that the file has after its adoption. -/
theorem Mirrors.settled {t : Notes} {pf : PresentFile} {n : Note} (h : Mirrors pf n)
    (hn : env.Leaves t pf n) (hnew : env.existing t pf = none) : Mirrors pf.settled n := by
  refine ⟨h.id, h.title, h.folder, h.tags, h.createdAt, h.updatedAt, ?_⟩
  obtain ⟨change, hchange, hn | ⟨e, _, hc, _⟩ | ⟨_, he⟩⟩ := hn
  · obtain ⟨_, _, _, _, _, rfl⟩ := hn
    rfl
  · have hc : change = .updated e := hc
    rw [hc] at hchange
    rw [existing_of_updated hchange] at hnew
    cases hnew
  · rw [he] at hnew
    cases hnew

/-- **A file is left alone** when its row mirrors it. -/
theorem change_of_mirrors {t : Notes} {pf : PresentFile} {n : Note} (h : Mirrors pf n) (hn : n ∈ t.rows)
    (howner : n.ownerId = env.ownerId) : env.change t pf = .ok .unchanged := by
  have hexisting : env.existing t pf = some n := existing_iff.mpr ⟨hn, h.id, howner⟩
  have hdrifted := (drifted_iff h.id).mpr h
  have hidentity : identityChanged n pf = false := by
    have hor := hdrifted
    simp only [drifted, Bool.or_eq_false_iff] at hor
    exact hor.1.1.1.1.1
  rw [Env.change, hexisting]
  dsimp only
  rw [hidentity, hdrifted]
  rfl

/-! ## a reconcile without anything to do -/

theorem writeRows_unchanged {t : Notes} {changes : List (PresentFile × Change)}
    (h : ∀ y ∈ changes, y.2 = .unchanged) : env.writeRows t [] changes = .ok t := by
  have hfold : ∀ (step : Notes → PresentFile × Change → Except ReindexError Notes) t,
      (∀ t y, y.2 = .unchanged → step t y = .ok t) → changes.foldlM step t = .ok t := by
    intro step t hstep
    induction changes with
    | nil => rfl
    | cons y changes ih =>
      rw [List.foldlM_cons, hstep t y (h y List.mem_cons_self)]
      exact ih fun z hz => h z (List.mem_cons_of_mem _ hz)
  have hdelete : t.delete (fun n => n.noteId ∈ ([] : List Note).map (·.noteId)) = t := by
    obtain ⟨rows, ids⟩ := t
    unfold Notes.delete
    congr
    exact deleteWhere_of_none fun r _ => decide_eq_false List.not_mem_nil
  unfold Env.writeRows
  rw [hdelete, hfold env.insertFile t fun t y hy => by rw [Env.insertFile, hy]]
  exact hfold env.updateFile t fun t y hy => by rw [Env.updateFile, hy]

theorem reported_unchanged {p : Change → Bool} {changes : List (PresentFile × Change)}
    (hp : p .unchanged = false) (h : ∀ y ∈ changes, y.2 = .unchanged) : reported p present changes = [] := by
  rw [reported, List.map_eq_nil_iff, List.filter_eq_nil_iff]
  intro z hz
  rw [h z.2 (List.of_mem_zip hz).2, hp]
  exact Bool.false_ne_true

theorem adopt_nil (h : scan.candidates = []) : env.adopt files scan = .ok (files, scan.present) := by
  unfold Env.adopt
  split
  · rename_i hcons _
    rw [h] at hcons
    cases hcons
  · rw [h]
    rfl

end Kajet.Reindex
