import Kajet.Lib.Fallible
import Kajet.Links.Backlinks

/-!
# Which backlinks survive a move

A wikilink of a source survives when what stands in its place afterwards is read as one wikilink with
the same alias, and resolves to the moved note from the source's new folder.

* `run_rewrites`            when an operation goes on to rewrite the backlinks of a moved note;
* `Rewritten`               it does, and the stored links of the source have a moved note
                            (`rewritten_of_wikilink`: the Markdown parser sees a link to one);
* `backlink_survives_iff`   a rewritten link survives exactly when the new target is `Writable`, any
                            other exactly when its old text still resolves to the note.
-/

namespace Kajet.Links
open Str Table Fallible

/-- The operation goes on to rewrite the backlinks of the moved note: `update` only when the file
moves. -/
def MoveOp.Rewrites (env : LinkEnv) (mv : NoteMove) : MoveOp → Prop
  | .update .. => env.noteFilepath mv.old ≠ env.noteFilepath mv.new
  | _ => True

/-- The rewriting reads the body of the source. -/
def Rewritten (env : LinkEnv) (ws : Workspace) (c : Committed) (op : MoveOp) (n n' : IndexedNote)
    (mv : NoteMove) : Prop :=
  op.Rewrites env mv ∧ ∃ mv' ∈ c.moves, mv'.old.noteId ∈ (env.storedLinks ws c op n n').resolvedIds

/-- What `render` makes of the pieces of a source's body. -/
def LinkEnv.rendered (env : LinkEnv) (ws : Workspace) (c : Committed) (n' : IndexedNote)
    (ps : List Piece) : Text := ps.flatMap (·.render (env.rewriterOf ws c n'))

/-- The wikilink `inner`, with the target `t`, stands between the pieces `before` and `after` of the
source's body.  In its place there is a wikilink with the same alias that resolves to the note. -/
def Survives (env : LinkEnv) (ws : Workspace) (c : Committed) (n' : IndexedNote)
    (before : List Piece) (inner t : Text) (after : List Piece) (noteId : String) : Prop :=
  ∃ t' w, wikilinkRule ((env.content ws c n'.noteId).drop (env.rendered ws c n' before).length) =
      some (⟨t', stripOrNone (partition '|' inner).2⟩, env.rendered ws c n' after) ∧
    resolve env.casefold c.notes t' n'.folder true = some w ∧ w.noteId = noteId ∧
      (xwsNoteId t = none → xwsNoteId t' = none)

section
variable {env : LinkEnv} {ws : Workspace} {c : Committed} {op : MoveOp} {n n' m : IndexedNote}
  {mv : NoteMove} {before after : List Piece} {inner t : Text}

/-! ## where the rewriting goes -/

theorem run_rewrites (hrun : env.run ws op = .ok c) (hmv : mv ∈ c.moves) :
    c.rewrites = true ↔ op.Rewrites env mv := by
  cases op with
  | update noteId title folder edit =>
    obtain ⟨note, newFolder, content, _, _, _, _, hmoves, _, _, hrewrites, _⟩ := update_ok hrun
    rcases hmoves with hmoves | ⟨hmoves, _⟩
    · rw [hmoves] at hmv
      obtain rfl := List.mem_singleton.mp hmv
      rw [hrewrites, decide_eq_true_eq]
      exact Iff.rfl
    · rw [hmoves] at hmv
      cases hmv
  | move noteId folder =>
    exact iff_of_true ((move_moves hrun).2.2.2 (List.ne_nil_of_mem hmv)) trivial
  | moveFolder src dst =>
    exact iff_of_true ((moveFolder_moves hrun).2.2.2 (List.ne_nil_of_mem hmv)) trivial

/-- A source is reached when the Markdown parser sees a link to a moved note in its body. -/
theorem rewritten_of_wikilink (hm : resolve env.casefold ws.notes t (op.linkFolder n n') true = some m)
    (ht : t ∈ pathTargets env.extractWikilinks (c.body n.noteId)) (hmv : mv ∈ c.moves)
    (hold : mv.old.noteId = m.noteId) (hrewrites : op.Rewrites env mv) :
    Rewritten env ws c op n n' mv := by
  refine ⟨hrewrites, mv, hmv, ?_⟩
  rw [hold]
  exact mem_resolvedIds.mpr (.inl ⟨t, ht, m, hm, rfl⟩)

theorem rewriterOf_of_rewritten (hup : UpToDate env.casefold env.extractWikilinks ws)
    (hrun : env.run ws op = .ok c) (hn : n ∈ ws.notes) (hn' : n' ∈ c.notes)
    (hid : n'.noteId = n.noteId) (hmv : mv ∈ c.moves) (h : Rewritten env ws c op n n' mv) :
    env.rewriterOf ws c n' = env.rewrite ws c n.folder n'.folder := by
  have hmoves := run_moves hrun
  have hsource := (mem_sourceIds hup hrun hn hn' hid).mpr h.2
  rw [LinkEnv.rewriterOf, hid, if_pos ⟨(run_rewrites hrun hmv).mpr h.1, hsource⟩,
    hmoves.movedFrom hn hn' hid]

theorem rewriterOf_of_not_rewritten (hup : UpToDate env.casefold env.extractWikilinks ws)
    (hrun : env.run ws op = .ok c) (hn : n ∈ ws.notes) (hn' : n' ∈ c.notes)
    (hid : n'.noteId = n.noteId) (hmv : mv ∈ c.moves) (h : ¬ Rewritten env ws c op n n' mv) :
    env.rewriterOf ws c n' = fun _ => none := by
  rw [LinkEnv.rewriterOf, hid, if_neg]
  rintro ⟨hrewrites, hsource⟩
  exact h ⟨(run_rewrites hrun hmv).mp hrewrites, (mem_sourceIds hup hrun hn hn' hid).mp hsource⟩

/-- The target that a link to a moved note gets. -/
theorem rewrite_eq (h : Moves ws c) (hm : resolve env.casefold ws.notes t n.folder true = some m)
    (hmv : mv ∈ c.moves) (hold : mv.old.noteId = m.noteId) :
    env.rewrite ws c n.folder n'.folder t = some (shortestTarget env.casefold c.notes mv.new n'.folder
      (pathSegments t).length) := by
  have hto := (movedTo_eq_some h.keyed).mpr ⟨mv, hmv, hold, rfl⟩
  simp only [LinkEnv.rewrite, hm, hto, Option.bind_eq_bind, Option.bind_some, ← h.notes]
  rfl

/-- The text that stands in the place of the link, and what follows it. -/
theorem drop_content (h : Moves ws c) (hn' : n' ∈ c.notes)
    (hpieces : pieces (c.body n'.noteId) = before ++ .link inner :: after) :
    (env.content ws c n'.noteId).drop (env.rendered ws c n' before).length =
      (Piece.link inner).render (env.rewriterOf ws c n') ++ env.rendered ws c n' after := by
  rw [content_eq h hn', hpieces, List.flatMap_append, List.flatMap_cons]
  exact List.drop_left

/-! ## survival -/

/-- A link that is left as it is. -/
theorem survives_of_not_rewritten (h : Moves ws c) (hn' : n' ∈ c.notes)
    (hpieces : pieces (c.body n'.noteId) = before ++ .link inner :: after)
    (ht : offered inner = some t) (hmv : mv ∈ c.moves) (hof : env.rewriterOf ws c n' = fun _ => none) :
    Survives env ws c n' before inner t after mv.new.noteId ↔
      resolve env.casefold c.notes t n'.folder true = some mv.new := by
  have hclose : ']' ∉ inner :=
    notMem_of_link_mem (by rw [hpieces]; exact List.mem_append_cons_self)
  have hrender : (Piece.link inner).render (fun _ => none) = (Piece.link inner).source := by
    rw [Piece.render, newTarget, ht]
    rfl
  rw [Survives, drop_content h hn' hpieces, hof, hrender]
  constructor
  · rintro ⟨t', w, hread, hw, hid, _⟩
    cases (wikilinkRule_source hclose ht).mp hread
    rwa [h.ids.eq (resolve_mem hw) (h.mem_new hmv) hid] at hw
  · intro hw
    exact ⟨t, mv.new, (wikilinkRule_source hclose ht).mpr rfl, hw, rfl, id⟩

/-- A note that a target without a bar resolves to has no bar in its title. -/
theorem bar_notMem_title {notes : List IndexedNote} {w : IndexedNote} {target source : Text}
    (hbar : ∀ s, '|' ∈ env.casefold s ↔ '|' ∈ s) (htarget : '|' ∉ target)
    (h : resolve env.casefold notes target source true = some w) : '|' ∉ w.title := by
  have hlast : '|' ∉ (splitTarget target).2 := by
    intro hmem
    have hright : '|' ∈ (rpartition '/' (stripChars ['/'] (strip target))).2 := mem_of_mem_strip hmem
    have hinner : '|' ∈ stripChars ['/'] (strip target) := (List.rtakeWhile_suffix _ _).subset hright
    exact htarget (mem_of_mem_strip (stripBy_sublist.subset hinner))
  rcases resolve_eq_some.mp h with hchosen | ⟨_, hchosen⟩
  · have hexact := hchosen.admitted
    simp only [exactMatch, Bool.and_eq_true, decide_eq_true_eq] at hexact
    rwa [hexact.1]
  · have hfold := hchosen.admitted
    simp only [casefoldMatch, Bool.and_eq_true, decide_eq_true_eq] at hfold
    rw [← hbar, hfold.1, hbar]
    exact hlast

/-- A new target that is read back with the old alias has no bar: after a bar there would be the
title, or the separator in front of it. -/
theorem bar_notMem_of_read {s text rest t' source : Text} {notes : List IndexedNote}
    {w : IndexedNote} (hbar : ∀ s, '|' ∈ env.casefold s ↔ '|' ∈ s)
    (hs : s = w.title ∨ ∃ u, s = u ++ '/' :: w.title)
    (hread : wikilinkRule (writeLink s (strip text) ++ rest) = some (⟨t', stripOrNone text⟩, rest))
    (hw : resolve env.casefold notes t' source true = some w) : '|' ∉ s := by
  have htitle : '|' ∉ w.title := by
    refine bar_notMem_title hbar ?_ hw
    have htarget : ∃ inner, t' = strip (partition '|' inner).1 := by
      unfold writeLink at hread
      split at hread <;>
      · obtain ⟨_, _, hlink⟩ := wikilinkRule_link.mp hread
        exact ⟨_, congrArg WikilinkMeta.target hlink⟩
    obtain ⟨inner, rfl⟩ := htarget
    exact fun hmem => notMem_partition_fst (mem_of_mem_strip hmem)
  intro hmem
  rcases hs with rfl | ⟨u, rfl⟩
  · exact htitle hmem
  · have hu : '|' ∈ u := by
      rcases List.mem_append.mp hmem with hu | hmem
      · exact hu
      · rcases List.mem_cons.mp hmem with heq | hmem
        · cases heq
        · exact absurd hmem htitle
    have hblank := strip_eq_nil.mp (blank_of_wikilinkRule_writeLink hread) '/'
    rw [eq_partition_append hu, List.append_assoc, List.cons_append,
      partition_append notMem_partition_fst] at hblank
    have hspace := hblank (List.mem_append_right _ List.mem_cons_self)
    revert hspace
    decide

/-- A link that gets the target `s`. -/
theorem survives_of_rewritten (hbar : ∀ s, '|' ∈ env.casefold s ↔ '|' ∈ s) (h : Moves ws c)
    (hrewrites : c.rewrites = true) (hn' : n' ∈ c.notes)
    (hpieces : pieces (c.body n'.noteId) = before ++ .link inner :: after)
    (ht : offered inner = some t) (hmv : mv ∈ c.moves)
    (hof : env.rewriterOf ws c n' t = some (shortestTarget env.casefold c.notes mv.new n'.folder
      (pathSegments t).length)) :
    Survives env ws c n' before inner t after mv.new.noteId ↔
      Writable env.casefold c.notes mv.new n'.folder t := by
  have hdistinct := h.distinct hrewrites hmv
  have hclose : ']' ∉ inner :=
    notMem_of_link_mem (by rw [hpieces]; exact List.mem_append_cons_self)
  have hends := title_of_shortestTarget env.casefold c.notes mv.new n'.folder (pathSegments t).length
  rw [writable_iff hdistinct, Survives, drop_content h hn' hpieces]
  dsimp only at hends ⊢
  generalize shortestTarget env.casefold c.notes mv.new n'.folder (pathSegments t).length = s at *
  by_cases hsame : s = t
  · -- the link already has the new target
    subst hsame
    have hrender : (Piece.link inner).render (env.rewriterOf ws c n') = (Piece.link inner).source := by
      simp [Piece.render, newTarget, ht, hof]
    obtain ⟨_, _, rfl, hne⟩ := offered_some ht
    have hfits : Fits (strip (partition '|' inner).1) (strip (partition '|' inner).1) :=
      ⟨noMarks_of_offered hclose ht, by rwa [strip_strip], fun hxws => by rwa [strip_strip]⟩
    rw [hrender, and_iff_right hfits]
    constructor
    · rintro ⟨t', w, hread, hw, hid, _⟩
      cases (wikilinkRule_source hclose ht).mp hread
      rwa [hdistinct.id w (resolve_mem hw) hid] at hw
    · intro hw
      exact ⟨_, mv.new, (wikilinkRule_source hclose ht).mpr rfl, hw, rfl, id⟩
  · have hrender : (Piece.link inner).render (env.rewriterOf ws c n') =
        writeLink s (strip (partition '|' inner).2) := by
      simp [Piece.render, newTarget, ht, hof, hsame]
    obtain ⟨hopen, hline, _, _⟩ := offered_some ht
    have halias : '[' ∉ (partition '|' inner).2 ∧ ']' ∉ (partition '|' inner).2 ∧
        '\n' ∉ (partition '|' inner).2 :=
      ⟨mt mem_of_mem_partition_snd hopen, mt mem_of_mem_partition_snd hclose,
        mt mem_of_mem_partition_snd hline⟩
    rw [hrender]
    constructor
    · rintro ⟨t', w, hread, hw, hid, hxws⟩
      obtain rfl := hdistinct.id w (resolve_mem hw) hid
      have hno := bar_notMem_of_read hbar hends hread hw
      obtain ⟨hmarks, hblank, hlink⟩ := (wikilinkRule_writeLink hno halias).mp hread
      cases hlink
      rw [resolve_strip] at hw
      exact ⟨⟨hmarks, hblank, hxws⟩, hw⟩
    · rintro ⟨hfits, hw⟩
      refine ⟨strip s, mv.new, ?_, by rwa [resolve_strip], rfl, hfits.noPrefix⟩
      exact (wikilinkRule_writeLink (noMarks_iff.mp hfits.marks).2.2.1 halias).mpr
        ⟨hfits.marks, hfits.blank, rfl⟩

end
/-! ## two notes -/

theorem bar_mem_asciiCasefold (s : Text) : '|' ∈ asciiCasefold s ↔ '|' ∈ s := by
  have hlower : ∀ c : Char, c.toLower = '|' ↔ c = '|' := by
    intro c
    unfold Char.toLower
    split
    · rename_i hupper
      constructor
      · intro h
        have hval := congrArg (UInt32.toNat ∘ Char.val) h
        have hle := UInt32.le_iff_toNat_le.mp hupper.2
        simp at hval hle
        omega
      · rintro rfl
        revert hupper
        decide
    · exact Iff.rfl
  rw [asciiCasefold, List.mem_map]
  constructor
  · rintro ⟨c, hc, h⟩
    rwa [← (hlower c).mp h]
  · exact fun h => ⟨'|', h, by decide⟩

/-- The Markdown parser on bodies without code. -/
def plainWikilinks (body : Text) : List Text :=
  (pieces body).filterMap fun
    | .link inner => offered inner
    | .text _ => none

def plainEnv : LinkEnv := ⟨asciiCasefold, plainWikilinks, "/work".toList, true⟩

/-- The second note has a link to the first, of the given title. -/
def pairWorkspace (title body : Text) : Workspace where
  name := "work"
  ownerId := "u1"
  notes := [⟨"n1", [], title⟩, ⟨"n2", [], "Source".toList⟩]
  ids := show ["n1", "n2"].Nodup by decide
  elsewhere := []
  links := [⟨"n2", "n1", "work", "u1"⟩]
  dangling := []
  content noteId := if noteId = "n2" then body else []

theorem pairWorkspace_upToDate {title body : Text}
    (h : ∀ n ∈ (pairWorkspace title body).notes,
      ((pairWorkspace title body).resolution asciiCasefold plainWikilinks
        (pairWorkspace title body).notes n).resolvedIds = (if n.noteId = "n2" then {"n1"} else ∅) ∧
      ((pairWorkspace title body).resolution asciiCasefold plainWikilinks
        (pairWorkspace title body).notes n).brokenPairs = []) :
    UpToDate asciiCasefold plainWikilinks (pairWorkspace title body) := by
  constructor
  · rintro n hn ⟨source, target, workspace, ownerId⟩ hsource
    rw [(h n hn).1]
    dsimp only at hsource
    subst hsource
    simp only [pairWorkspace, List.mem_singleton, NoteLink.mk.injEq]
    split
    · rename_i hself
      simp [hself]
      tauto
    · rename_i hself
      simp [hself]
  · intro n hn d _
    rw [(h n hn).2]
    simp [pairWorkspace]

/-- What a run on the two notes leaves. -/
structure PairView where
  notes : List IndexedNote
  moves : List NoteMove
  body : Text
  content : Text
deriving DecidableEq

end Kajet.Links
