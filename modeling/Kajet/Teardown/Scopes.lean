import Kajet.Teardown.Runs

/-!
# The two scopes of a teardown

* `Cleared`         the rows that do not refer to a note or a tag of the scope, and no others;
* `notesInSession_eq`   the notes of a scope one after the other, and the sweep;
* `teardown_iff`    the two scopes delete the same rows exactly when no link from elsewhere leads into
                    the workspace;
* `teardown_cross`  one that does stays.
-/

namespace Kajet.Teardown
open Table Str Tags Links Chunks Machine

variable {ν : Type} {db t : Db ν} {σ : Scope}

/-- The rows that are left are those that do not refer to a note or a tag of the scope. -/
structure Cleared (db t : Db ν) (σ : Scope) : Prop where
  notes : t.notes = db.notes.filter fun n => n.scope ≠ σ
  tags : t.tagging.tags = db.tagging.tags.filter fun x => x.scope ≠ σ
  noteTags : t.tagging.noteTags = db.tagging.noteTags.filter fun l =>
    !(db.isIn σ l.noteId || db.tagging.tags.any fun x => x.scope = σ ∧ x.id = l.tagId)
  chunks : t.chunks = db.chunks.filter fun c => !db.isIn σ c.noteId
  fts : t.fts = db.fts.filter fun f => !db.isIn σ f.noteId
  vectors : t.vectors = db.vectors.filter fun v => !db.isIn σ v.noteId
  shares : t.shares = db.shares.filter fun s => !db.isIn σ s.noteId
  visits : t.visits = db.visits.filter fun v => !db.shares.any fun s => db.isIn σ s.noteId && s.token = v.token
  links : t.links = db.links.filter fun l => !(db.isIn σ l.sourceNoteId || db.isIn σ l.targetNoteId)
  dangling : t.dangling = db.dangling.filter fun d => !db.isIn σ d.sourceNoteId

/-- What the teardown of its notes leaves. -/
def Db.tornDown (db : Db ν) (σ : Scope) : Db ν :=
  { db.purge (db.isIn σ) (fun n => n.scope = σ) with
    tagging := ⟨deleteWhere (fun x => x.scope = σ) db.tagging.tags,
      deleteWhere (fun l => db.isIn σ l.noteId) db.tagging.noteTags⟩ }

/-- The sweep takes every tag of a scope whose notes are gone. -/
theorem Filed.sweep_all (h : Filed db) (hnone : ∀ n ∈ db.notes, n.scope ≠ σ) :
    db.sweepOrphanTags σ = some { db with
      tagging := ⟨deleteWhere (fun x => x.scope = σ) db.tagging.tags, db.tagging.noteTags⟩ } := by
  obtain ⟨tags, hsweep, hsub, hsweeping, hexact, hfiled⟩ := h.sweep σ
  have hout : ∀ x ∈ tags, x.scope ≠ σ := by
    intro x hx hscope
    obtain ⟨c, hc, hcscope, -⟩ := hexact x hx hscope
    obtain ⟨l, hl, hsome⟩ := List.mem_filterMap.mp hc
    obtain ⟨y, hy, hyid, rfl⟩ := carriedOf_eq_some hsome
    obtain ⟨n, hn, hid⟩ := (hfiled.intact.1 l hl).1
    exact hnone n hn ((hfiled.tagged l hl n hn y hy hid hyid).symm.trans hcscope)
  have htags : tags = deleteWhere (fun x => x.scope = σ) db.tagging.tags := by
    have hkept : tags.filter (fun x => !decide (x.scope = σ)) = tags :=
      List.filter_eq_self.mpr fun x hx => by simpa using hout x hx
    have hle : tags.Sublist (deleteWhere (fun x => x.scope = σ) db.tagging.tags) := by
      rw [← hkept]
      exact hsub.filter _
    -- nothing of another scope goes
    have hall : deleteWhere (fun x => x.scope = σ) db.tagging.tags ⊆ tags := fun x hx =>
      hsweeping.others x (mem_deleteWhere.mp hx).1 (of_decide_eq_false (mem_deleteWhere.mp hx).2)
    have hnodup : (deleteWhere (fun x => x.scope = σ) db.tagging.tags).Nodup :=
      ((keyed_iff_nodup.mp h.tree.ids).of_map _).sublist List.filter_sublist
    exact hle.eq_of_length_le (hnodup.subperm hall).length_le
  rw [hsweep, htags]

theorem notesInSession_eq (h : Filed db) {order : List Note} (horder : order.Perm (db.notesOf σ)) :
    db.notesInSession σ order = some (db.tornDown σ) := by
  have hmem {m : Note} : m ∈ order ↔ m ∈ db.notes ∧ m.scope = σ := by
    rw [horder.mem_iff, Db.notesOf, List.mem_filter, decide_eq_true_eq]
  have hids : (fun id => order.any fun m => id = m.id) = db.isIn σ := by
    funext id
    rw [Bool.eq_iff_iff, Db.isIn, List.any_eq_true, List.any_eq_true]
    refine exists_congr fun m => ?_
    rw [hmem, decide_eq_true_eq, decide_eq_true_eq]
    tauto
  have hnotes : deleteWhere (fun n => order.any (·.row n)) db.notes = deleteWhere (fun n => n.scope = σ) db.notes := by
    refine deleteWhere_congr fun n hn => ?_
    rw [Bool.eq_iff_iff, List.any_eq_true, decide_eq_true_eq]
    constructor
    · rintro ⟨m, hm, hrow⟩
      rw [h.notes.eq hn (hmem.mp hm).1 (row_id hrow)]
      exact (hmem.mp hm).2
    · exact fun hscope => ⟨n, hmem.mpr ⟨hn, hscope⟩, decide_eq_true ⟨rfl, rfl⟩⟩
  have hpurge : Filed (db.purge (db.isIn σ) fun n => n.scope = σ) :=
    h.purge fun n hn hscope => isIn_of_scope hn (of_decide_eq_true hscope)
  have hfold : order.foldlM Db.noteInSession db = some (db.purge (db.isIn σ) fun n => n.scope = σ) := by
    rw [foldlM_noteInSession h, hids]
    simp only [Db.purge, hnotes]
  rw [Db.notesInSession, hfold, Option.bind_eq_bind, Option.bind_some]
  exact hpurge.sweep_all fun n hn => of_decide_eq_false (mem_deleteWhere.mp hn).2

theorem wiped_eq (h : Filed db) : db.wiped σ =
    { db.tornDown σ with links := deleteWhere (fun l => l.scope = σ) db.links } := by
  have htags : deleteWhere (fun l => db.isIn σ l.noteId) (db.tagging.deleteWorkspaceTags σ).noteTags =
      deleteWhere (fun l => db.isIn σ l.noteId) db.tagging.noteTags := by
    rw [Tags.Db.deleteWorkspaceTags, deleteWhere_deleteWhere]
    exact deleteWhere_congr fun l hl => by rw [h.isIn_noteTag hl, Bool.or_self]
  exact congrArg (fun noteTags => ({ db.tornDown σ with
    tagging := ⟨deleteWhere (fun x => x.scope = σ) db.tagging.tags, noteTags⟩
    links := deleteWhere (fun l => l.scope = σ) db.links } : Db ν)) htags

theorem cleared_tornDown (h : Filed db) : Cleared db (db.tornDown σ) σ where
  notes := List.filter_congr fun n _ => by simp
  tags := List.filter_congr fun x _ => by simp
  noteTags := List.filter_congr fun l hl => by rw [← h.isIn_noteTag hl, Bool.or_self]
  chunks := rfl
  fts := rfl
  vectors := rfl
  shares := rfl
  visits := rfl
  links := rfl
  dangling := rfl

/-- **One teardown or many.** -/
theorem teardown_iff [DecidableEq ν] (h : (database ν).Reach Own db) (σ : Scope) :
    (∃ t, db.workspaceInSession σ = some t ∧
      (∀ order : List Note, order.Perm (db.notesOf σ) → db.notesInSession σ order = some t) ∧ Cleared db t σ) ↔
    ∀ l ∈ db.links, db.isIn σ l.targetNoteId = true → l.scope = σ := by
  have hfiled := Filed.reach h
  constructor
  · rintro ⟨t, hwipe, -, hcleared⟩ l hl htarget
    rw [workspaceInSession_eq hfiled] at hwipe
    by_contra hscope
    have hstays : l ∈ t.links := by
      rw [← Option.some.inj hwipe]
      exact mem_deleteWhere.mpr ⟨hl, decide_eq_false hscope⟩
    rw [hcleared.links] at hstays
    have hout := (List.mem_filter.mp hstays).2
    rw [htarget, Bool.or_true] at hout
    cases hout
  · intro hlinks
    have hsame : deleteWhere (fun l => l.scope = σ) db.links = (db.tornDown σ).links := by
      refine deleteWhere_congr fun l hl => ?_
      rw [← hfiled.isIn_link hl]
      cases htarget : db.isIn σ l.targetNoteId with
      | false => rw [Bool.or_false]
      | true => rw [hfiled.isIn_link hl, decide_eq_true (hlinks l hl htarget), Bool.true_or]
    refine ⟨db.tornDown σ, ?_, fun order horder => notesInSession_eq hfiled horder, cleared_tornDown hfiled⟩
    rw [workspaceInSession_eq hfiled, wiped_eq hfiled, hsame]

def work : Scope := ⟨"work", "u"⟩
def home : Scope := ⟨"home", "u"⟩

/-- A tagged note with an embedded chunk, a share link and a visit in `work`, and a note in `home`. -/
def shared : List (Op ℕ) :=
  [.insertNote ⟨"a", work⟩, .insertNote ⟨"b", work⟩, .insertNote ⟨"c", home⟩,
    .syncNoteTags work (fun path => "t" ++ String.ofList path) "now" [("a", [("x/y".toList, "frontmatter")])],
    .syncNoteTags home (fun path => "h" ++ String.ofList path) "now" [("c", [("x".toList, "inline")])],
    .replaceChunks ⟨"a", "work", "u", "A", [⟨0, [], "text", 0, 4⟩], some [[1]], some ⟨"m", 1⟩⟩ ["k"] [],
    .createShare "s" "a" work "now" true, .recordVisit ⟨1, "content", "s", none, none, "now"⟩]

/-- Links within the workspace and out of it. -/
theorem teardown_iff_shared : ∃ db : Db ℕ, (database ℕ).Reach Own db ∧ db.vectors.length = 1 ∧ db.links.length = 2 ∧
    ∃ t, db.workspaceInSession work = some t ∧
      (∀ order : List Note, order.Perm (db.notesOf work) → db.notesInSession work order = some t) ∧
      Cleared db t work := by
  obtain ⟨db, hdb, hview⟩ := Option.map_eq_some_iff.mp (show
    ((database ℕ).exec Db.empty (shared ++ [.persistLinks work [("a", ["b", "c"], [([], "Gone".toList)])] []])).map
      (fun db => (db.vectors.length, db.links.length, db.links.all fun l => !db.isIn work l.targetNoteId || l.scope = work)) =
      some (1, 2, true) by decide +kernel)
  obtain ⟨hvectors, hlinks, hall⟩ := Prod.ext_iff.mp hview |>.imp_right Prod.ext_iff.mp
  have hreach : (database ℕ).Reach Own db := Reach.of_guarded (.start rfl) (by decide +kernel) hdb
  refine ⟨db, hreach, hvectors, hlinks, (teardown_iff hreach work).mpr fun l hl htarget => ?_⟩
  have hl := List.all_eq_true.mp hall l hl
  rw [htarget] at hl
  exact of_decide_eq_true hl

/-- A note of another workspace links to one of the workspace. -/
theorem teardown_cross : ∃ db : Db ℕ, (database ℕ).Reach free db ∧
    ¬ ∃ t, db.workspaceInSession work = some t ∧
      (∀ order : List Note, order.Perm (db.notesOf work) → db.notesInSession work order = some t) ∧
      Cleared db t work := by
  obtain ⟨db, hdb, hview⟩ := Option.map_eq_some_iff.mp (show
    ((database ℕ).exec Db.empty (shared ++ [.persistLinks home [("c", ["a"], [])] []])).map (fun db =>
      ((db.workspaceInSession work).map (·.links), (db.notesInSession work (db.notesOf work)).map (·.links))) =
      some (some [⟨"c", "a", "home", "u"⟩], some []) by decide +kernel)
  obtain ⟨hwipe, hnotes⟩ := Prod.ext_iff.mp hview
  refine ⟨db, .of_exec (.start rfl) hdb, fun ⟨t, ht, hall, _⟩ => ?_⟩
  rw [ht] at hwipe
  rw [hall _ (List.Perm.refl _)] at hnotes
  cases (Option.some.inj hwipe).symm.trans (Option.some.inj hnotes)

end Kajet.Teardown
