import Kajet.Queue.Job
import Kajet.Reconcile.Paths

/-!
# What a reconcile leaves of the other workspaces

A note is foreign when it belongs to another workspace or another owner.

* `Isolated`      the rows of the foreign notes are as they were, but for their links to the notes
                  that are removed; it composes (`Isolated.trans`, `Isolated.foldl`), with one lemma
                  per write of `reconcile_paths`;
* `Clean`         no file in scope carries the id of a foreign note;
* `writeRows_ok`  then no insert meets a row;
* `reconcilePaths_isolated`.
-/

namespace Kajet.Reconcile
open Str Rank Table Links Queue

section
variable (env : Env)

def foreign (n : Note) : Bool := n.workspace ≠ env.workspace || n.ownerId ≠ env.ownerId

/-- The id of a foreign note. -/
def foreignId (db : Db) (i : String) : Bool := db.notes.any fun n => n.noteId = i && foreign env n

/-- The database without the foreign notes and their rows. -/
def Db.own (db : Db) : Db where
  notes := db.notes.filter fun n => !foreign env n
  noteTags := db.noteTags.filter fun t => !foreignId env db t.noteId
  tags := db.tags
  links := db.links.filter fun l => !foreignId env db l.sourceNoteId
  dangling := db.dangling.filter fun d => !foreignId env db d.sourceNoteId

/-- The foreign notes are the same, and the rows of the notes that `F` selects, but for the links to
removed notes. -/
structure Isolated (F : String → Bool) (removed : List String) (db db' : Db) : Prop where
  notes : db'.notes.filter (foreign env) = db.notes.filter (foreign env)
  noteTags : db'.noteTags.filter (fun t => F t.noteId) = db.noteTags.filter fun t => F t.noteId
  links : db'.links.filter (fun l => F l.sourceNoteId) =
    db.links.filter fun l => F l.sourceNoteId && l.targetNoteId ∉ removed
  dangling : db'.dangling.filter (fun d => F d.sourceNoteId) =
    db.dangling.filter fun d => F d.sourceNoteId

/-- `F` selects every foreign note. -/
def Covers (F : String → Bool) (db : Db) : Prop := ∀ n ∈ db.notes, foreign env n → F n.noteId

end

section
variable {env : Env} {F : String → Bool} {db db' db'' : Db} {removed removed' : List String}

/-- Nothing is removed. -/
theorem filter_links_nil (links : List NoteLink) : links.filter (fun l => F l.sourceNoteId) =
    links.filter fun l => F l.sourceNoteId && l.targetNoteId ∉ ([] : List String) :=
  List.filter_congr fun l _ => by simp

theorem Isolated.refl : Isolated env F [] db db := ⟨rfl, rfl, filter_links_nil _, rfl⟩

theorem Isolated.trans (h : Isolated env F removed db db') (h' : Isolated env F removed' db' db'') :
    Isolated env F (removed ++ removed') db db'' := by
  refine ⟨h'.notes.trans h.notes, h'.noteTags.trans h.noteTags, ?_, h'.dangling.trans h.dangling⟩
  calc db''.links.filter (fun l => F l.sourceNoteId)
      = (db'.links.filter fun l => F l.sourceNoteId).filter (fun l => l.targetNoteId ∉ removed') := by
        rw [h'.links, List.filter_filter]
        exact List.filter_congr fun l _ => Bool.and_comm _ _
    _ = db.links.filter fun l => F l.sourceNoteId && l.targetNoteId ∉ removed ++ removed' := by
        rw [h.links, List.filter_filter]
        refine List.filter_congr fun l _ => ?_
        by_cases h1 : l.targetNoteId ∈ removed <;> by_cases h2 : l.targetNoteId ∈ removed' <;>
          simp [h1, h2]

theorem Isolated.covers (h : Isolated env F removed db db') (hc : Covers env F db) :
    Covers env F db' := by
  intro n hn hf
  have hmem : n ∈ db.notes.filter (foreign env) := h.notes ▸ List.mem_filter.mpr ⟨hn, hf⟩
  exact hc n (List.mem_filter.mp hmem).1 hf

/-- Steps one after the other. -/
theorem Isolated.foldl {γ : Type} {f : Db → γ → Db} {rem : γ → List String} {l : List γ}
    (h : ∀ x ∈ l, ∀ db, Covers env F db → Isolated env F (rem x) db (f db x)) (hc : Covers env F db) :
    Isolated env F (l.flatMap rem) db (l.foldl f db) := by
  induction l generalizing db with
  | nil => exact .refl
  | cons x l ih =>
    have hx := h x List.mem_cons_self db hc
    rw [List.flatMap_cons, List.foldl_cons]
    exact hx.trans (ih (fun y hy => h y (List.mem_cons_of_mem x hy)) (hx.covers hc))

theorem Isolated.foldl_nil {γ : Type} {f : Db → γ → Db} {l : List γ}
    (h : ∀ x ∈ l, ∀ db, Covers env F db → Isolated env F [] db (f db x)) (hc : Covers env F db) :
    Isolated env F [] db (l.foldl f db) := by
  have hfold : Isolated env F (l.flatMap fun _ => []) db (l.foldl f db) := Isolated.foldl h hc
  rwa [List.flatMap_eq_nil_iff.mpr fun _ _ => rfl] at hfold

/-! ## the writes -/

/-- A deletion of rows that `F` does not select. -/
theorem filter_deleteWhere {ρ : Type} {p q : ρ → Bool} {t : List ρ}
    (h : ∀ r ∈ t, q r = true → p r = false) : (deleteWhere p t).filter q = t.filter q := by
  rw [deleteWhere, List.filter_filter]
  refine List.filter_congr fun r hr => ?_
  cases hq : q r with
  | false => rfl
  | true => simp [h r hr hq]

/-- New rows that `F` does not select. -/
theorem filter_append_of_none {ρ : Type} {q : ρ → Bool} {t new : List ρ}
    (h : ∀ r ∈ new, q r = false) : (t ++ new).filter q = t.filter q := by
  have hnil : new.filter q = [] := List.filter_eq_nil_iff.mpr fun r hr => by simp [h r hr]
  rw [List.filter_append, hnil, List.append_nil]

theorem isolated_tags {tags : List Tag} : Isolated env F [] db { db with tags := tags } :=
  ⟨rfl, rfl, filter_links_nil _, rfl⟩

theorem sweep_isolated : Isolated env F [] db (sweepOrphanTags env.workspace env.ownerId db) :=
  isolated_tags

theorem ne_of_F {i j : String} (hi : F i = true) (hj : F j = false) : i ≠ j := by
  rintro rfl
  simp [hi] at hj

theorem noteInSession_isolated {n : Note} (hn : F n.noteId = false) (hc : Covers env F db) :
    Isolated env F [n.noteId] db (noteInSession db n) := by
  refine ⟨?_, ?_, ?_, ?_⟩
  · refine filter_deleteWhere fun m hm hf => ?_
    simp [ne_of_F (hc m hm hf) hn]
  · exact filter_deleteWhere fun t _ hF => by simp [ne_of_F hF hn]
  · show (deleteWhere _ (deleteWhere _ db.links)).filter _ = _
    rw [deleteWhere, deleteWhere, List.filter_filter, List.filter_filter]
    refine List.filter_congr fun l _ => ?_
    cases hF : F l.sourceNoteId with
    | false => rfl
    | true => simp [ne_of_F hF hn]
  · exact filter_deleteWhere fun d _ hF => by simp [ne_of_F hF hn]

theorem insert_isolated {n : Note} (hn : foreign env n = false)
    (h : insertInSession db n = .ok db') : Isolated env F [] db db' := by
  unfold insertInSession at h
  split at h
  · cases h
  · cases h
    refine ⟨filter_append_of_none fun m hm => ?_, rfl, filter_links_nil _, rfl⟩
    rw [List.mem_singleton.mp hm, hn]

theorem inserts_isolated {l : List Note} (hl : ∀ n ∈ l, foreign env n = false)
    (h : l.foldlM insertInSession db = .ok db') : Isolated env F [] db db' := by
  induction l generalizing db with
  | nil =>
    cases h
    exact .refl
  | cons n l ih =>
    obtain ⟨db₁, h1, h2⟩ := bind_ok h
    exact (insert_isolated (hl n List.mem_cons_self) h1).trans
      (ih (fun m hm => hl m (List.mem_cons_of_mem n hm)) h2)

theorem update_isolated {x : Note × PresentFile} (hx : F x.1.noteId = false)
    (hc : Covers env F db) : Isolated env F [] db (env.updateInSession db x) := by
  refine ⟨filter_updateWhere fun n hn hp => ?_, rfl, filter_links_nil _, rfl⟩
  rw [decide_eq_true_eq] at hp
  have hforeign : foreign env n = false := by
    by_contra hf
    exact ne_of_F (hc n hn (Bool.eq_true_of_not_eq_false hf)) hx hp.1
  exact ⟨hforeign, hforeign⟩

theorem addNoteTag_isolated {noteId : String} (hn : F noteId = false) {x : Text × String} :
    Isolated env F [] db (env.addNoteTag noteId db x) := by
  refine ⟨rfl, filter_append_of_none fun t ht => ?_, filter_links_nil _, rfl⟩
  rw [List.mem_singleton.mp ht]
  exact hn

theorem syncNoteTagsMany_isolated {tagged : List (String × List (Text × String))}
    (ht : ∀ x ∈ tagged, F x.1 = false) (hc : Covers env F db) :
    Isolated env F [] db (env.syncNoteTagsMany db tagged) := by
  unfold Env.syncNoteTagsMany
  split
  · exact .refl
  have hcleared : Isolated env F [] db
      { db with noteTags := deleteWhere (fun t => t.noteId ∈ tagged.map (·.1)) db.noteTags } := by
    refine ⟨rfl, filter_deleteWhere fun t _ hF => decide_eq_false fun hmem => ?_,
      filter_links_nil _, rfl⟩
    obtain ⟨x, hx, hid⟩ := List.mem_map.mp hmem
    exact ne_of_F hF (ht x hx) hid.symm
  have hadded := Isolated.foldl_nil (f := fun db x => x.2.foldl (env.addNoteTag x.1) db) (l := tagged)
    (fun x hx db hdb => .foldl_nil (fun _ _ _ _ => addNoteTag_isolated (ht x hx)) hdb)
    (hcleared.covers hc)
  exact (hcleared.trans hadded).trans sweep_isolated

theorem replaceSource_isolated {x : String × LinkResolution} (hx : F x.1 = false) :
    Isolated env F [] db (env.replaceSource db x) := by
  refine ⟨rfl, rfl, ?_, ?_⟩
  · show ((deleteWhere _ db.links) ++ _).filter _ = _
    rw [filter_append_of_none, filter_deleteWhere]
    · exact filter_links_nil _
    · exact fun l _ hF => decide_eq_false (ne_of_F hF hx)
    · intro l hl
      obtain ⟨t, _, rfl⟩ := List.mem_map.mp hl
      exact hx
  · show ((deleteWhere _ db.dangling) ++ _).filter _ = _
    rw [filter_append_of_none, filter_deleteWhere]
    · exact fun d _ hF => decide_eq_false (ne_of_F hF hx)
    · intro d hd
      obtain ⟨p, _, rfl⟩ := List.mem_map.mp hd
      exact hx

theorem Isolated.congr (h : Isolated env F removed db db') (hr : ∀ i, i ∈ removed ↔ i ∈ removed') :
    Isolated env F removed' db db' :=
  ⟨h.notes, h.noteTags, by rw [h.links]; exact List.filter_congr fun l _ => by simp [hr], h.dangling⟩

end

/-! ## the plan -/

section
variable {env : Env} {db : Db} {paths : List Text} {p : Plan} {e : ReconcileError}

/-- No file in scope has, under its own or a generated id, the id of a foreign note. -/
def Clean (env : Env) (db : Db) (paths : List Text) : Prop :=
  ∀ x ∈ env.present paths, foreignId env db x.1 = false

theorem mem_own {n : Note} : foreign env n = false ↔
    n.workspace = env.workspace ∧ n.ownerId = env.ownerId := by
  simp [foreign]

/-- What the plan takes from the scan and the rows. -/
theorem plan_ok (h : env.plan db paths = .ok p) : p.present = env.present paths ∧
    p.missingIds = env.missingIds db paths ∧
    p.missingNotes = db.getMany (env.missingIds db paths) env.ownerId ∧
    (∀ x ∈ p.updated, ∃ y ∈ env.present paths, x.1.noteId = y.1) ∧
    p.inserted = (env.present paths).filter fun x =>
      (row (·.noteId) (db.getMany ((env.present paths).map (·.1)) env.ownerId) x.1).isNone := by
  dsimp only [Env.plan] at h
  split at h
  · cases h
  split at h
  · cases h
  cases h
  refine ⟨rfl, rfl, rfl, fun x hx => ?_, rfl⟩
  obtain ⟨y, hy, hrow⟩ := List.mem_filterMap.mp (List.mem_filter.mp hx).1
  obtain ⟨n, hn, rfl⟩ := Option.map_eq_some_iff.mp hrow
  exact ⟨y, hy, (row_some hn).2⟩

/-- Whether the plan fails depends on the rows of the workspace only. -/
theorem plan_error {db' : Db}
    (h : db'.listPaths env.workspace env.ownerId = db.listPaths env.workspace env.ownerId) :
    env.plan db' paths = .error e ↔ env.plan db paths = .error e := by
  have hmissing : env.missingIds db' paths = env.missingIds db paths := by
    rw [Env.missingIds, Env.missingIds, h]
  dsimp only [Env.plan]
  rw [hmissing, h]
  split
  · exact Iff.rfl
  split
  · exact Iff.rfl
  · constructor <;> exact fun herr => by cases herr

theorem listPaths_own : (db.own env).listPaths env.workspace env.ownerId =
    db.listPaths env.workspace env.ownerId := by
  rw [Db.listPaths, Db.listPaths, Db.own, List.filter_filter]
  congr 1
  refine List.filter_congr fun n _ => ?_
  by_cases hn : foreign env n = false
  · simp [hn]
  · have hno := mt mem_own.mpr hn
    simp [hno]

/-! ### the ids of the present files -/

theorem keys_append {β : Type} {d : List (String × β)} {k : String} {v : β}
    (h : (d.map (·.1)).Nodup) (hk : k ∉ d.map (·.1)) : ((d ++ [(k, v)]).map (·.1)).Nodup := by
  rw [List.map_append]
  refine List.nodup_append'.mpr ⟨h, List.nodup_singleton k, fun i hi hik => hk ?_⟩
  obtain rfl : i = k := List.mem_singleton.mp hik
  exact hi

theorem dictSet_keys {β : Type} {d : List (String × β)} {k : String} {v : β}
    (h : (d.map (·.1)).Nodup) : ((dictSet d k v).map (·.1)).Nodup := by
  unfold dictSet
  split
  · have hkeys : (d.map fun x => if x.1 = k then (k, v) else x).map (·.1) = d.map (·.1) := by
      rw [List.map_map]
      refine List.map_congr_left fun x _ => ?_
      by_cases hx : x.1 = k <;> simp [hx]
    rwa [hkeys]
  · exact keys_append h ‹_›

theorem scanFile_keys {s : Scan} {relative : Text} (h : (s.present.map (·.1)).Nodup) :
    ((env.scanFile s relative).present.map (·.1)).Nodup := by
  unfold Env.scanFile
  split
  · exact h
  · exact h
  split
  · exact h
  · exact h
  split
  · exact h
  · exact keys_append h ‹_›

theorem present_keys : ((env.present paths).map (·.1)).Nodup := by
  have hscan : ∀ (l : List Text) (s : Scan), (s.present.map (·.1)).Nodup →
      ((l.foldl env.scanFile s).present.map (·.1)).Nodup := by
    intro l
    induction l with
    | nil => exact fun _ h => h
    | cons x l ih => exact fun s h => ih _ (scanFile_keys h)
  have hadopt : ∀ (l : List (AdoptionCandidate × Nat)) (d : List (String × PresentFile)),
      (d.map (·.1)).Nodup → ((l.foldl (fun present x => dictSet present (env.newNoteId x.2)
        (env.presentFile (env.newNoteId x.2) x.1.fm x.1.content x.1.relative)) d).map (·.1)).Nodup := by
    intro l
    induction l with
    | nil => exact fun _ h => h
    | cons x l ih => exact fun d h => ih _ (dictSet_keys h)
  exact hadopt _ _ (hscan _ _ List.nodup_nil)

/-! ### the first transaction -/

theorem noteInSession_notes (l : List Note) (db : Db) : (l.foldl noteInSession db).notes ⊆ db.notes := by
  induction l generalizing db with
  | nil => exact List.Subset.refl _
  | cons n l ih => exact fun m hm => (mem_deleteWhere.mp (ih _ hm)).1

theorem removeMissing_notes (l : List Note) : (env.removeMissing db l).notes ⊆ db.notes := by
  unfold Env.removeMissing
  split
  · exact List.Subset.refl _
  · exact noteInSession_notes l db

theorem inserts_ok {l : List Note} (hnd : (l.map (·.noteId)).Nodup)
    (hnew : ∀ n ∈ l, n.noteId ∉ db.notes.map (·.noteId)) :
    ∃ db', l.foldlM insertInSession db = .ok db' := by
  induction l generalizing db with
  | nil => exact ⟨db, rfl⟩
  | cons n l ih =>
    obtain ⟨hn, hnd⟩ := List.nodup_cons.mp hnd
    have hins : insertInSession db n = .ok { db with notes := db.notes ++ [n] } :=
      if_neg (hnew n List.mem_cons_self)
    rw [List.foldlM_cons, hins]
    refine ih hnd fun m hm hmem => ?_
    rw [List.map_append, List.mem_append] at hmem
    rcases hmem with hmem | hmem
    · exact hnew m (List.mem_cons_of_mem n hm) hmem
    · exact hn (List.mem_singleton.mp hmem ▸ List.mem_map_of_mem hm)

/-- Without a foreign note under a present id, a new id is new to the table. -/
theorem inserted_new (hclean : Clean env db paths) (h : env.plan db paths = .ok p) :
    ∀ x ∈ p.inserted, x.1 ∉ db.notes.map (·.noteId) := by
  intro x hx hmem
  rw [(plan_ok h).2.2.2.2] at hx
  obtain ⟨hpresent, hnone⟩ := List.mem_filter.mp hx
  obtain ⟨n, hn, hid⟩ := List.mem_map.mp hmem
  have hown : foreign env n = false := by
    by_contra hf
    have hforeign : foreignId env db x.1 = true :=
      List.any_eq_true.mpr ⟨n, hn, by simp [hid, Bool.eq_true_of_not_eq_false hf]⟩
    rw [hclean x hpresent] at hforeign
    cases hforeign
  have hexisting : n ∈ db.getMany ((env.present paths).map (·.1)) env.ownerId :=
    List.mem_filter.mpr ⟨hn, decide_eq_true ⟨hid ▸ List.mem_map_of_mem hpresent, (mem_own.mp hown).2⟩⟩
  exact row_eq_none.mp (Option.isNone_iff_eq_none.mp hnone) n hexisting hid

theorem writeRows_ok (hclean : Clean env db paths) (h : env.plan db paths = .ok p) :
    ∃ db', env.writeRows db p = .ok db' := by
  have hids : (p.inserted.map env.newNote).map (·.noteId) = p.inserted.map (·.1) := by
    rw [List.map_map]
    rfl
  have hnd : ((p.inserted.map env.newNote).map (·.noteId)).Nodup := by
    rw [hids, (plan_ok h).2.2.2.2]
    exact present_keys.sublist (List.filter_sublist.map _)
  have hnew : ∀ n ∈ p.inserted.map env.newNote,
      n.noteId ∉ (env.removeMissing db p.missingNotes).notes.map (·.noteId) := by
    intro n hn hmem
    obtain ⟨x, hx, rfl⟩ := List.mem_map.mp hn
    obtain ⟨m, hm, hid⟩ := List.mem_map.mp hmem
    exact inserted_new hclean h x hx (List.mem_map.mpr ⟨m, removeMissing_notes _ hm, hid⟩)
  obtain ⟨db₂, h2⟩ := inserts_ok hnd hnew
  refine ⟨p.updated.foldl env.updateInSession db₂, ?_⟩
  show ((p.inserted.map env.newNote).foldlM insertInSession _ >>= fun db =>
    pure (p.updated.foldl env.updateInSession db)) = _
  rw [h2]
  rfl

/-! ## the whole reconcile -/

theorem covers_foreignId : Covers env (foreignId env db) db := fun n hn hf =>
  List.any_eq_true.mpr ⟨n, hn, by simp [hf]⟩

/-- A missing id is the id of a note of the workspace, and of no other note. -/
theorem missing_own (hpk : Keyed (fun n : Note => n.noteId) db.notes) {i : String}
    (hi : i ∈ env.missingIds db paths) :
    foreignId env db i = false ∧ ∃ n ∈ db.notes, n.noteId = i ∧ n.ownerId = env.ownerId := by
  obtain ⟨m, hm, rfl⟩ := List.mem_map.mp (List.mem_filter.mp hi).1
  obtain ⟨n, hn, rfl⟩ := List.mem_map.mp (List.mem_filter.mp hm).1
  obtain ⟨hn, hown⟩ := List.mem_filter.mp hn
  rw [decide_eq_true_eq] at hown
  refine ⟨Bool.eq_false_of_not_eq_true fun hforeign => ?_, n, hn, rfl, hown.2⟩
  obtain ⟨n', hn', hboth⟩ := List.any_eq_true.mp hforeign
  rw [Bool.and_eq_true, decide_eq_true_eq] at hboth
  have hsame : n' = n := hpk.eq hn' hn hboth.1
  have hf := hboth.2
  rw [hsame, mem_own.mpr hown] at hf
  cases hf

theorem writeRows_isolated (hpk : Keyed (fun n : Note => n.noteId) db.notes)
    (hclean : Clean env db paths) (h : env.plan db paths = .ok p) {rows : Db}
    (hrows : env.writeRows db p = .ok rows) :
    Isolated env (foreignId env db) (p.missingNotes.map (·.noteId)) db rows := by
  obtain ⟨hpresent, _, hmissing, hupdated, hinserted⟩ := plan_ok h
  have hteardown : Isolated env (foreignId env db) (p.missingNotes.flatMap fun n => [n.noteId]) db
      (p.missingNotes.foldl noteInSession db) := by
    refine .foldl (fun n hn db' hc => noteInSession_isolated ?_ hc) covers_foreignId
    rw [hmissing] at hn
    have hid := (List.mem_filter.mp hn).2
    rw [decide_eq_true_eq] at hid
    exact (missing_own hpk hid.1).1
  have hswept : Isolated env (foreignId env db) (p.missingNotes.flatMap fun n => [n.noteId]) db
      (env.removeMissing db p.missingNotes) := by
    unfold Env.removeMissing
    split
    · rename_i hnil
      rw [hnil]
      exact .refl
    · have hboth := hteardown.trans sweep_isolated
      rwa [List.append_nil] at hboth
  obtain ⟨db₂, h2, hlast⟩ := bind_ok hrows
  cases hlast
  have hins := hswept.trans (inserts_isolated (fun n hn => by
    obtain ⟨x, _, rfl⟩ := List.mem_map.mp hn
    exact mem_own.mpr ⟨rfl, rfl⟩) h2)
  have hupd := hins.trans (Isolated.foldl_nil (f := env.updateInSession) (l := p.updated)
    (fun x hx db' hc => update_isolated (by
      obtain ⟨y, hy, hid⟩ := hupdated x hx
      rw [hid]
      exact hclean y hy) hc) (hins.covers covers_foreignId))
  exact hupd.congr fun i => by simp [eq_comm]

theorem clean_own : Clean env (db.own env) paths := by
  intro x _
  refine Bool.eq_false_of_not_eq_true fun hforeign => ?_
  obtain ⟨n, hn, hboth⟩ := List.any_eq_true.mp hforeign
  have hown := (List.mem_filter.mp hn).2
  rw [Bool.and_eq_true] at hboth
  rw [hboth.2] at hown
  cases hown

/-- Without a foreign note under a present id only the plan can fail. -/
theorem reconcilePaths_error (hclean : Clean env db paths) :
    env.reconcilePaths db paths = .error e ↔ env.plan db paths = .error e := by
  cases hplan : env.plan db paths with
  | error e' =>
    rw [Env.reconcilePaths, hplan]
    show (Except.error e' : Except ReconcileError Outcome) = .error e ↔ _
    rw [Except.error.injEq, Except.error.injEq]
  | ok p =>
    obtain ⟨rows, hrows⟩ := writeRows_ok hclean hplan
    rw [Env.reconcilePaths, hplan]
    show (env.writeRows db p >>= _) = _ ↔ _
    rw [hrows]
    constructor <;> exact fun herr => by cases herr

end
/-! ### two workspaces of one owner -/

def exampleFm (id : Option String) (title : String) : NoteFrontmatter where
  id := id
  title := some title.toList
  tags := []
  createdAt := some "2026-01-01"
  updatedAt := some "2026-01-01"
  occurredAt := none
  period := none
  occurredAtDropped := false
  periodDropped := false

/-- A workspace with one file, without links and tags. -/
def exampleEnv : Env where
  workspace := "work"
  ownerId := "u1"
  disk path := if path = "New.md".toList then some (.note (exampleFm (some "n3") "New") []) else none
  newNoteId _ := "fresh"
  newTagId _ := "tag"
  adoptionError := none
  casefold := id
  extractWikilinks _ := []
  lower := id
  isWord _ := true
  extractInlineTags _ := []

def exampleNote (noteId workspace title : String) : Note where
  noteId := noteId
  folder := []
  title := title.toList
  workspace := workspace
  ownerId := "u1"
  tags := []
  createdAt := "2026-01-01"
  updatedAt := "2026-01-01"
  occurredAt := none
  period := none
  indexGeneration := 1

/-- A note whose file is gone, and a note of another workspace that links to it by id. -/
def exampleDb : Db where
  notes := [exampleNote "n1" "work" "Gone", exampleNote "n2" "home" "Other"]
  noteTags := []
  tags := []
  links := [⟨"n2", "n1", "home", "u1"⟩]
  dangling := []

def examplePaths : List Text := ["Gone.md".toList, "New.md".toList]

end Kajet.Reconcile
