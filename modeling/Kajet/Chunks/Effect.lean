import Kajet.Chunks.Indexing
import Mathlib.Data.List.Count

/-!
# The steps of the chunk store, note by note

Replacements without vectors raise nothing: the note is there, and its chunks are the given ones
afterwards.  An embed worker writes no text.

* `Effect`                                      the step is about one note;
* `step_replaceChecked`, `step_attach`          the two kinds of writers;
* `exec_insertNotes`, `exec_bump`, `exec_delete`   rows of several notes in one transaction.
-/

namespace Kajet.Chunks
open Table Machine Db

section
variable {ν : Type} {s t : State ν} {db db' : Db ν} {m : String}

/-! ## the steps of the chunk store -/

theorem texts_congr (h : db'.chunks = db.chunks) : db'.texts m = db.texts m := by
  rw [texts, chunksOf, h]
  rfl

/-- The step is about one note: rows and chunks of the others stay. -/
structure Effect (s t : State ν) (noteId : String) : Prop where
  texts : ∀ m, m ≠ noteId → t.db.texts m = s.db.texts m
  kept : ∀ n, n.id ≠ noteId → (n ∈ t.db.notes ↔ n ∈ s.db.notes)
  ids : ∀ n ∈ t.db.notes, ∃ x ∈ s.db.notes, x.id = n.id ∧ x.indexGeneration = n.indexGeneration
  back : ∀ x ∈ s.db.notes, ∃ n ∈ t.db.notes, n.id = x.id
  keyed : Keyed Note.id s.db.notes → Keyed Note.id t.db.notes

theorem Effect.refl {noteId : String} (h : t.db = s.db) : Effect s t noteId :=
  ⟨fun _ _ => by rw [h], fun _ _ => by rw [h], fun n hn => ⟨n, h ▸ hn, rfl, rfl⟩,
    fun x hx => ⟨x, h ▸ hx, rfl⟩, fun hk => h ▸ hk⟩

/-- An update of the index state of one note. -/
theorem effect_setState {noteId : String} {state : IndexState}
    (hnotes : t.db.notes = (s.db.setState noteId state).notes)
    (htexts : ∀ m, m ≠ noteId → t.db.texts m = s.db.texts m) : Effect s t noteId := by
  refine ⟨htexts, fun n hne => ?_, fun n hn => ?_, fun x hx => ?_, fun h => ?_⟩
  · rw [hnotes]
    constructor
    · intro hn
      obtain ⟨x, hx, hid, ⟨heq, _⟩ | ⟨_, rfl⟩⟩ := mem_setState hn
      · exact absurd heq hne
      · exact hx
    · exact fun hn => mem_updateWhere_of_not hn (decide_eq_false hne)
  · rw [hnotes] at hn
    rcases mem_updateWhere.mp hn with ⟨x, hx, _, rfl⟩ | ⟨hn, _⟩
    · exact ⟨x, hx, rfl, rfl⟩
    · exact ⟨n, hn, rfl, rfl⟩
  · rw [hnotes]
    by_cases hid : x.id = noteId
    · exact ⟨_, mem_updateWhere_of_sel hx (decide_eq_true hid), rfl⟩
    · exact ⟨x, mem_updateWhere_of_not hx (decide_eq_false hid), rfl⟩
  · rw [hnotes]
    exact h.updateWhere fun _ => rfl

/-! ### replacements without vectors -/

/-- The loop raises nothing: the note is there, and no vector is written. -/
theorem writeChunks_plain {a : Replace ν} (hv : a.vectorised = none)
    (items : List (String × Chunk × Option (List ν))) (hrow : ∃ n ∈ db.notes, n.id = a.noteId) :
    ∃ (db' : Db ν) (rows : List NoteChunk), Db.writeChunks a items db = .ok db' ∧
      db'.notes = db.notes ∧ db'.chunks = rows ++ db.chunks ∧ (∀ c ∈ rows, c.noteId = a.noteId) ∧
      rows.map (·.chunk) = (items.map (·.2.1)).reverse := by
  induction items generalizing db with
  | nil => exact ⟨db, [], rfl, rfl, rfl, fun _ hc => (nomatch hc), rfl⟩
  | cons x items ih =>
    obtain ⟨chunkId, chunk, vector⟩ := x
    have hall : ¬ db.notes.all (fun n => n.id ≠ a.noteId) = true := by
      obtain ⟨n, hn, hid⟩ := hrow
      exact fun hall => of_decide_eq_true (List.all_eq_true.mp hall n hn) hid
    obtain ⟨db1, hone, hnotes, hchunks⟩ : ∃ db1, db.writeChunk a chunkId chunk vector = .ok db1 ∧
        db1.notes = db.notes ∧ db1.chunks = db.newChunk a chunkId chunk :: db.chunks := by
      rw [writeChunk, if_neg hall, hv]
      exact ⟨_, rfl, rfl, rfl⟩
    have hrow1 : ∃ n ∈ db1.notes, n.id = a.noteId := hnotes ▸ hrow
    obtain ⟨db2, rows, hrest, hnotes2, hchunks2, hrows, hmap⟩ := ih hrow1
    refine ⟨db2, rows ++ [db.newChunk a chunkId chunk], ?_, hnotes2.trans hnotes, ?_, ?_, ?_⟩
    · rw [Db.writeChunks, hone]
      exact hrest
    · rw [hchunks2, hchunks, List.append_assoc]
      rfl
    · intro c hc
      rcases List.mem_append.mp hc with hc | hc
      · exact hrows c hc
      · rw [List.mem_singleton.mp hc]
        rfl
    · rw [List.map_append, hmap]
      exact (List.reverse_cons ..).symm

/-- The conditional replacement, when the generation is the one expected. -/
theorem replaceChecked_plain {a : Replace ν} {ids : List String} {g : ℕ} (ha : a.embeddings = none)
    (hids : ids.length = a.chunks.length)
    (hrow : ∃ n ∈ db.notes, n.id = a.noteId ∧ n.indexGeneration = g) :
    ∃ db', db.replaceChecked a ids g = .ok (true, db') ∧
      db'.notes = (db.setState a.noteId .stale).notes ∧
      (db'.texts a.noteId).Perm a.chunks ∧ ∀ m, m ≠ a.noteId → db'.texts m = db.texts m := by
  have hv : a.vectorised = none := by rw [Replace.vectorised, ha]; rfl
  have hcheck : a.check = .ok () := by rw [Replace.check, ha]
  have hany : db.notes.any (fun n => n.id = a.noteId ∧ n.indexGeneration = g) = true := by
    obtain ⟨n, hn, hid⟩ := hrow
    exact List.any_eq_true.mpr ⟨n, hn, decide_eq_true hid⟩
  let claimed : Db ν := { db with
    notes := updateWhere (fun n => n.id = a.noteId ∧ n.indexGeneration = g)
      (fun n => { n with indexState := .stale }) db.notes }
  let cleared := claimed.deleteChunks a.noteId (claimed.chunkDims a.noteId)
  have hclaimed : ∃ n ∈ cleared.notes, n.id = a.noteId := by
    obtain ⟨n, hn, hid⟩ := hrow
    exact ⟨_, mem_updateWhere_of_sel hn (decide_eq_true hid), hid.1⟩
  obtain ⟨db1, rows, hwrite, hnotes, hchunks, hrows, hmap⟩ := writeChunks_plain hv (a.items ids) hclaimed
  have hrowsOf : rows.filter (·.noteId = a.noteId) = rows :=
    List.filter_eq_self.mpr fun c hc => decide_eq_true (hrows c hc)
  have hitems : (a.items ids).map (·.2.1) = a.chunks := by
    rw [Replace.items, ha]
    show ((ids.zip a.chunks).map _).map _ = _
    rw [List.map_map]
    exact List.map_snd_zip (Nat.le_of_eq hids.symm)
  refine ⟨db1.setState a.noteId .stale, ?_, ?_, ?_, fun m hm => ?_⟩
  · rw [Db.replaceChecked, hcheck]
    show (if _ then _ else _) = _
    rw [if_pos hany]
    show (Db.replaceWith claimed a ids (claimed.chunkDims a.noteId) >>= _) = _
    rw [Db.replaceWith, hwrite, ha]
    rfl
  · -- the second update marks the rows of the first one again
    show updateWhere _ _ db1.notes = _
    rw [hnotes]
    show updateWhere _ _ (updateWhere _ _ db.notes) = updateWhere _ _ db.notes
    rw [updateWhere, updateWhere, updateWhere, List.map_map]
    refine List.map_congr_left fun n _ => ?_
    by_cases hid : n.id = a.noteId <;> by_cases hg : n.indexGeneration = g <;> simp [hid, hg]
  · have hof : (db1.setState a.noteId .stale).chunksOf a.noteId = rows ++ cleared.chunksOf a.noteId := by
      show db1.chunks.filter _ = _
      rw [hchunks, List.filter_append, hrowsOf]
      rfl
    rw [texts, hof, chunksOf_deleteChunks, List.append_nil, hmap, hitems]
    exact List.reverse_perm _
  · have hout : rows.filter (·.noteId = m) = [] :=
      List.filter_eq_nil_iff.mpr fun c hc hd => hm ((of_decide_eq_true hd).symm.trans (hrows c hc))
    have hof : (db1.setState a.noteId .stale).chunksOf m = cleared.chunksOf m := by
      show db1.chunks.filter _ = _
      rw [hchunks, List.filter_append, hout]
      rfl
    rw [texts, hof, chunksOf_deleteChunks_ne hm]
    rfl

theorem replaceChecked_superseded {a : Replace ν} {ids : List String} {g : ℕ} (ha : a.embeddings = none)
    (hrow : ¬ ∃ n ∈ db.notes, n.id = a.noteId ∧ n.indexGeneration = g) :
    db.replaceChecked a ids g = .ok (false, db) := by
  have hcheck : a.check = .ok () := by rw [Replace.check, ha]
  have hany : ¬ db.notes.any (fun n => n.id = a.noteId ∧ n.indexGeneration = g) = true := by
    intro hany
    obtain ⟨n, hn, hd⟩ := List.any_eq_true.mp hany
    exact hrow ⟨n, hn, of_decide_eq_true hd⟩
  rw [Db.replaceChecked, hcheck]
  show (if _ then _ else _) = _
  rw [if_neg hany]

/-- A step of `index_note` or of a handler: the chunks of the note are the given ones, unless its
generation has moved. -/
theorem step_replaceChecked {a : Replace ν} {ids : List String} {g : ℕ} (ha : a.embeddings = none)
    (h : step s (.replaceChecked a ids g) = some t) : t.calls = s.calls ∧ Effect s t a.noteId ∧
      (∀ n ∈ t.db.notes, n.id = a.noteId → n.indexGeneration = g → (t.db.texts n.id).Perm a.chunks) ∧
      ((∀ n ∈ s.db.notes, n.id = a.noteId → n.indexGeneration ≠ g) → t.db = s.db) := by
  simp only [step] at h
  split at h <;> cases h
  rename_i hfresh
  by_cases hrow : ∃ n ∈ s.db.notes, n.id = a.noteId ∧ n.indexGeneration = g
  · obtain ⟨db', hok, hnotes, htexts, hothers⟩ := replaceChecked_plain ha hfresh.1 hrow
    rw [hok]
    refine ⟨rfl, effect_setState hnotes hothers, fun n _ hid _ => ?_, fun hnone => ?_⟩
    · rw [hid]
      exact htexts
    · obtain ⟨n, hn, hid, hg⟩ := hrow
      exact absurd hg (hnone n hn hid)
  · rw [replaceChecked_superseded ha hrow]
    refine ⟨rfl, .refl rfl, fun n hn hid hg => ?_, fun _ => rfl⟩
    exact absurd ⟨n, hn, hid, hg⟩ hrow

/-! ### embed workers -/

/-- The parts of `attach_vectors` write no text. -/
theorem step_attach {k : ℕ} {call : Call ν} (hk : s.calls[k]? = some call)
    (hcall : ∀ a dims, call ≠ .replaceWrite a dims) (h : step s (.run k []) = some t) :
    Effect s t call.noteId ∧ (∀ m, t.db.texts m = s.db.texts m) ∧
      (∀ c ∈ t.calls, (∀ a dims, c ≠ .replaceWrite a dims) ∧ c.noteId = call.noteId ∨ c ∈ s.calls) := by
  simp only [step, hk] at h
  cases call with
  | attachDims a rows =>
    cases h
    refine ⟨.refl rfl, fun _ => rfl, fun c hc => ?_⟩
    rcases List.mem_cons.mp hc with rfl | hc
    · exact .inl ⟨fun _ _ hc => (by cases hc), rfl⟩
    · exact .inr (List.mem_of_mem_eraseIdx hc)
  | attachWrite a rows dims =>
    cases h
    have hcalls : ∀ r : Except Raised (Db ν), ∀ c ∈ ((s.drop k).commit r).calls, c ∈ s.calls := by
      intro r c hc
      cases r <;> exact List.mem_of_mem_eraseIdx hc
    cases hr : s.db.attachWith a rows dims with
    | error e => exact ⟨.refl rfl, fun _ => rfl, fun c hc => .inr (hcalls (.error e) c hc)⟩
    | ok db' =>
      obtain ⟨db1, hinsert, hlast⟩ := bind_ok hr
      cases hlast
      obtain ⟨hnotes, hchunks, -⟩ := insertVectors_ok hinsert
      have htexts : ∀ m, ((db1.setDim a.noteId a.identity.dim).setState a.noteId .indexed).texts m =
          s.db.texts m := by
        intro m
        show ((db1.setDim a.noteId a.identity.dim).chunksOf m).map _ = _
        by_cases hm : m = a.noteId
        · subst hm
          rw [chunksOf_setDim, List.map_map, texts, chunksOf, hchunks]
          rfl
        · rw [chunksOf_setDim_ne hm, texts, chunksOf, hchunks]
          rfl
      have hrows : (db1.setState a.noteId .indexed).notes = (s.db.setState a.noteId .indexed).notes := by
        rw [setState, setState, hnotes]
        rfl
      exact ⟨effect_setState hrows fun m _ => htexts m, htexts, fun c hc => .inr (hcalls (.ok _) c hc)⟩
  | replaceWrite a dims => exact absurd rfl (hcall a dims)

/-! ### rows -/

theorem exec_insertNotes {ids : List String} (h : (store ν).exec s (ids.map .insertNote) = some t) :
    t.calls = s.calls ∧ t.db.chunks = s.db.chunks ∧
      (∀ n, n ∈ t.db.notes ↔ n ∈ s.db.notes ∨ n.id ∈ ids ∧ n = ⟨n.id, 1, .stale⟩) ∧
      (∀ n ∈ s.db.notes, n.id ∉ ids) ∧ ids.Nodup ∧ (Keyed Note.id s.db.notes → Keyed Note.id t.db.notes) := by
  induction ids generalizing s with
  | nil =>
    cases h
    exact ⟨rfl, rfl, fun n => ⟨.inl, fun h => h.elim id fun h => (nomatch h.1)⟩,
      fun _ _ hn => (nomatch hn), List.nodup_nil, fun h => h⟩
  | cons noteId ids ih =>
    obtain ⟨u, hu, hrest⟩ := Option.bind_eq_some_iff.mp h
    change step s (.insertNote noteId) = some u at hu
    simp only [step] at hu
    split at hu <;> cases hu
    rename_i hnew
    have hne : ∀ n ∈ s.db.notes, n.id ≠ noteId := fun n hn hid =>
      hnew (List.any_eq_true.mpr ⟨n, hn, decide_eq_true hid⟩)
    obtain ⟨hcalls, hchunks, hmem, hout, hnodup, hkeyed⟩ := ih hrest
    refine ⟨hcalls, hchunks, fun n => ?_, fun n hn hid => ?_, ?_, fun h => hkeyed ?_⟩
    · rw [hmem]
      show n ∈ _ :: s.db.notes ∨ _ ↔ _
      rw [List.mem_cons, List.mem_cons]
      constructor
      · rintro ((rfl | hn) | ⟨hid, hn⟩)
        · exact .inr ⟨.inl rfl, rfl⟩
        · exact .inl hn
        · exact .inr ⟨.inr hid, hn⟩
      · rintro (hn | ⟨hid | hid, hn⟩)
        · exact .inl (.inr hn)
        · exact .inl (.inl (hid ▸ hn))
        · exact .inr ⟨hid, hn⟩
    · rcases List.mem_cons.mp hid with hid | hid
      · exact hne n hn hid
      · exact hout n (List.mem_cons_of_mem _ hn) hid
    · exact List.nodup_cons.mpr ⟨hout ⟨noteId, 1, .stale⟩ List.mem_cons_self, hnodup⟩
    · exact uniqueOn_cons.mpr ⟨fun k hk n hn hnk =>
        hne n hn ((Option.some.inj hnk).trans (Option.some.inj hk).symm), h⟩

theorem exec_bump {ids : List String} (h : (store ν).exec s (ids.map .bumpGeneration) = some t) :
    t.calls = s.calls ∧ t.db.chunks = s.db.chunks ∧ t.db.notes = s.db.notes.map fun n =>
      { n with indexGeneration := n.indexGeneration + ids.count n.id } := by
  induction ids generalizing s with
  | nil =>
    cases h
    exact ⟨rfl, rfl, (List.map_id' _).symm⟩
  | cons noteId ids ih =>
    obtain ⟨u, hu, hrest⟩ := Option.bind_eq_some_iff.mp h
    cases hu
    obtain ⟨hcalls, hchunks, hnotes⟩ := ih hrest
    refine ⟨hcalls, hchunks, hnotes.trans ?_⟩
    show (updateWhere _ _ s.db.notes).map _ = _
    rw [updateWhere, List.map_map]
    refine List.map_congr_left fun n _ => ?_
    by_cases hid : n.id = noteId
    · subst hid
      simp [Nat.add_assoc, Nat.add_comm 1]
    · simp [hid, Ne.symm hid]

theorem exec_delete {ids : List String} (h : (store ν).exec s (ids.map .deleteNote) = some t) :
    t.calls = s.calls ∧ (∀ m, m ∉ ids → t.db.texts m = s.db.texts m) ∧
      (∀ m ∈ ids, t.db.texts m = []) ∧
      t.db.notes = deleteWhere (fun n => n.id ∈ ids) s.db.notes := by
  have hall : t.calls = s.calls ∧ t.db.chunks = deleteWhere (fun c => c.noteId ∈ ids) s.db.chunks ∧
      t.db.notes = deleteWhere (fun n => n.id ∈ ids) s.db.notes := by
    induction ids generalizing s with
    | nil =>
      cases h
      exact ⟨rfl, (deleteWhere_of_none fun _ _ => rfl).symm, (deleteWhere_of_none fun _ _ => rfl).symm⟩
    | cons noteId ids ih =>
      obtain ⟨u, hu, hrest⟩ := Option.bind_eq_some_iff.mp h
      cases hu
      obtain ⟨hcalls, hchunks, hnotes⟩ := ih hrest
      refine ⟨hcalls, hchunks.trans ?_, hnotes.trans ?_⟩
      · show deleteWhere _ (deleteWhere _ s.db.chunks) = _
        rw [deleteWhere, deleteWhere, deleteWhere, List.filter_filter]
        refine List.filter_congr fun c _ => ?_
        by_cases hc : c.noteId = noteId <;> simp [hc]
      · show deleteWhere _ (deleteWhere _ s.db.notes) = _
        rw [deleteWhere, deleteWhere, deleteWhere, List.filter_filter]
        refine List.filter_congr fun n _ => ?_
        by_cases hn : n.id = noteId <;> simp [hn]
  obtain ⟨hcalls, hchunks, hnotes⟩ := hall
  refine ⟨hcalls, fun m hm => ?_, fun m hm => ?_, hnotes⟩
  · rw [texts, texts, chunksOf, chunksOf, hchunks, deleteWhere, List.filter_filter]
    congr 1
    refine List.filter_congr fun c _ => ?_
    by_cases hc : c.noteId = m
    · simp [hc, hm]
    · simp [hc]
  · rw [texts, chunksOf, hchunks, List.map_eq_nil_iff, List.filter_eq_nil_iff]
    intro c hc hcm
    exact of_decide_eq_false (mem_deleteWhere.mp hc).2 (of_decide_eq_true hcm ▸ hm)

end

end Kajet.Chunks
