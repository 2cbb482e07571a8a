import Kajet.Lib.Rank
import Kajet.Tags.Rewritten

/-!
# Renaming a tag in a workspace

Frontmatter and bodies of the notes that the index gives for the old tag are rewritten.

* `renameFile`, `Workspace.renameTag`   the rename, with its refusals;
* `Renamed`                             what it should leave of a note;
* `Clean`                               a note that it treats well;
* `renameTag_iff`                       it does what it should exactly on clean notes.
-/

namespace Kajet.Tags
open Str Links Rank

/-- The note's file: the tags of its frontmatter, and its body. -/
structure TaggedNote where
  noteId : String
  file : Option (List Text × Text)

structure Workspace where
  notes : List TaggedNote
  /-- the tags that `note_tags` has for a note -/
  index : String → List Text

inductive Refusal where
  /-- "niepoprawny tag" -/
  | invalid (raw : Text)
  /-- "do jego własnego poddrzewa" -/
  | ownSubtree
  /-- "nie istnieje" -/
  | unknown
  /-- "już istnieje — powtórz z merge=true" -/
  | exists
deriving DecidableEq

section
variable (u : Unicode)

def Unicode.normalizeTags (raw : List Text) : List Text := insertionOrder (raw.filterMap u.normalize)

/-- The paths of `tagged`. -/
def Unicode.effective (fmTags : List Text) (body : Text) : List Text :=
  (tagged (u.normalizeTags fmTags) (u.extractInlineTags body)).map (·.1)

/-- `note_ids_for_tags` of one tag and the tags below it -/
def Workspace.noteIdsForTag (ws : Workspace) (path : Text) : List String :=
  (ws.notes.map (·.noteId)).filter fun n =>
    (ws.index n).any fun t => t = path || (path ++ ['/']).isPrefixOf t

def renamedTags (old new : Text) (tags : List Text) : List Text :=
  insertionOrder (tags.map (image fun t => remapPath t old new))

/-- The frontmatter tags and the body of a note, rewritten. -/
def Unicode.rewritten (old new : Text) (file : List Text × Text) : List Text × Text :=
  (renamedTags old new (u.normalizeTags file.1), u.rewriteInlineTags file.2 fun t => remapPath t old new)

/-- The note is written when one of them changes. -/
def Unicode.staged (old new : Text) (file : List Text × Text) : Bool :=
  (u.rewritten old new file).1 ≠ u.normalizeTags file.1 || (u.rewritten old new file).2 ≠ file.2

def Unicode.renameFile (old new : Text) (file : List Text × Text) : List Text × Text :=
  if u.staged old new file then u.rewritten old new file else file

/-- `rename_tag` -/
def Unicode.renameTag (ws : Workspace) (old new : Text) (merge : Bool) : Except Refusal Workspace :=
  match u.normalize old, u.normalize new with
  | none, _ => .error (.invalid old)
  | _, none => .error (.invalid new)
  | some old, some new =>
    if old = new then .ok ws
    else if (old ++ ['/']).isPrefixOf new then .error .ownSubtree
    else if ws.noteIdsForTag old = [] then .error .unknown
    else if ws.noteIdsForTag new ≠ [] ∧ merge = false then .error .exists
    else .ok {
      notes := ws.notes.map fun n =>
        if n.noteId ∈ ws.noteIdsForTag old then { n with file := n.file.map (u.renameFile old new) } else n
      index := fun noteId =>
        match ws.notes.find? (·.noteId = noteId) with
        | some ⟨_, some file⟩ =>
          if noteId ∈ ws.noteIdsForTag old ∧ u.staged old new file then
            u.effective (u.renameFile old new file).1 (u.renameFile old new file).2
          else ws.index noteId
        | _ => ws.index noteId }

/-! ## what a rename should do -/

/-- The index has what the files say. -/
def Unicode.UpToDate (ws : Workspace) : Prop :=
  ∀ n ∈ ws.notes, ∀ fmTags body, n.file = some (fmTags, body) →
    ∀ t, t ∈ ws.index n.noteId ↔ t ∈ u.effective fmTags body

/-- The tags afterwards are the images of the tags before; and, `#` by `#`, what is read in the body
afterwards is the image of what was read there. -/
structure Unicode.Carried (old new : Text) (file file' : List Text × Text) : Prop where
  effective : ∀ t, t ∈ u.effective file'.1 file'.2 ↔
    ∃ s ∈ u.effective file.1 file.2, image (fun t => remapPath t old new) s = t
  marks : u.marks none file'.2 = (u.marks none file.2).map (Option.map (image fun t => remapPath t old new))

structure Unicode.Renamed (old new : Text) (n n' : TaggedNote) : Prop where
  noteId : n'.noteId = n.noteId
  none : n.file = none → n'.file = none
  some : ∀ file, n.file = some file → ∃ file', n'.file = some file' ∧ u.Carried old new file file'

/-- In the body no moving tag collides with a `#` next to it; no frontmatter tag of a file that is
written ends in a newline. -/
def Unicode.Clean (old new : Text) (file : List Text × Text) : Prop :=
  u.collides (fun t => remapPath t old new) none 0 file.2 = false ∧
    (u.staged old new file = true → ∀ t ∈ u.normalizeTags file.1, t.getLast? ≠ some '\n')

end

variable {u : Unicode} {old new t : Text} {file : List Text × Text} {ws ws' : Workspace} {raw rawOld rawNew : Text}

theorem mem_normalizeTags {raw : List Text} : t ∈ u.normalizeTags raw ↔ ∃ r ∈ raw, u.normalize r = some t := by
  rw [Unicode.normalizeTags, mem_insertionOrder, List.mem_filterMap]

theorem mem_renamedTags {tags : List Text} : t ∈ renamedTags old new tags ↔
    ∃ s ∈ tags, image (fun t => remapPath t old new) s = t := by
  rw [renamedTags, mem_insertionOrder, List.mem_map]

theorem mem_effective {fmTags : List Text} {body : Text} : t ∈ u.effective fmTags body ↔
    t ∈ u.normalizeTags fmTags ∨ some t ∈ u.marks none body := by
  have hmarks : t ∈ u.extractInlineTags body ↔ some t ∈ u.marks none body := by
    rw [extractInlineTags_eq, List.mem_filterMap]
    exact ⟨fun ⟨a, ha, h⟩ => h ▸ ha, fun h => ⟨_, h, rfl⟩⟩
  rw [Unicode.effective, tagged, ← hmarks]
  simp only [List.map_append, List.map_map, List.mem_append, List.mem_map, List.mem_eraseDups, List.mem_filter,
    Function.comp_apply, exists_eq_right, decide_eq_true_eq]
  by_cases h : t ∈ u.normalizeTags fmTags <;> simp [h]

theorem path_or_newlined {raw : List Text} (h : t ∈ u.normalizeTags raw) : u.Path t ∨ u.Newlined t := by
  obtain ⟨r, _, hr⟩ := mem_normalizeTags.mp h
  exact (normalize_eq_some hr).1

theorem Unicode.Path.getLast? (h : u.Path t) : t.getLast? ≠ some '\n' := fun hlast => by
  have hspace := h.not_space (List.mem_of_getLast? hlast)
  exact absurd hspace (by decide)

theorem Unicode.Newlined.getLast? (h : u.Newlined t) : t.getLast? = some '\n' := by
  obtain ⟨s, _, rfl⟩ := h
  exact List.getLast?_concat

theorem image_path (hnew : u.Path new) (h : u.Path t) : u.Path (image (fun t => remapPath t old new) t) := by
  rw [image]
  cases hremap : remapPath t old new with
  | none => exact h
  | some t' => exact remapPath_path h hnew hremap

/-- A newline at the end stays there. -/
theorem image_newlined (hold : u.Path old) (hnew : u.Path new) (h : u.Newlined t) :
    u.Newlined (image (fun t => remapPath t old new) t) := by
  rw [image]
  cases hremap : remapPath t old new with
  | none => exact h
  | some t' =>
    obtain ⟨s, hs, rfl⟩ := id h
    unfold remapPath at hremap
    split at hremap
    · rename_i heq
      exact absurd h.getLast? (heq ▸ hold.getLast?)
    · split at hremap <;> cases hremap
      rename_i hprefix
      obtain ⟨rest, hrest⟩ := List.isPrefixOf_iff_prefix.mp hprefix
      rcases List.eq_nil_or_concat rest with rfl | ⟨rest', c, rfl⟩
      · have hlast := congrArg List.getLast? hrest
        rw [List.append_nil, List.getLast?_concat, List.getLast?_concat] at hlast
        cases hlast
      · rw [List.concat_eq_append, ← List.append_assoc] at hrest
        obtain ⟨rfl, hc⟩ := List.append_inj' hrest rfl
        cases hc
        have hmoves : remapPath (old ++ ['/'] ++ rest') old new = some (new ++ '/' :: rest') := by
          rw [remapPath, if_neg, if_pos]
          · rw [List.append_assoc, List.drop_left]
            rfl
          · exact List.isPrefixOf_iff_prefix.mpr (List.prefix_append _ _)
          · intro heq
            have hlen := congrArg List.length heq
            rw [List.append_assoc, List.length_append, List.length_append, List.length_singleton] at hlen
            omega
        refine ⟨new ++ '/' :: rest', remapPath_path hs hnew hmoves, ?_⟩
        show new ++ (old ++ ['/'] ++ rest' ++ ['\n']).drop old.length = _
        rw [List.append_assoc, List.append_assoc, List.drop_left]
        simp

/-! ## one note -/

/-- What a tag is read as once it was written as an image. -/
theorem normalize_image (hnew : u.Path new) (h : u.Path t) :
    u.normalize (image (fun t => remapPath t old new) t) = some (image (fun t => remapPath t old new) t) :=
  (image_path hnew h).normalize

theorem remap_path (hnew : u.Path new) : ∀ cur new', u.Path cur → remapPath cur old new = some new' → u.Path new' :=
  fun _ _ hcur h => remapPath_path hcur hnew h

/-- A note that is not written has no tag that moves. -/
theorem image_of_not_staged (hnew : u.Path new) (h : u.staged old new file = false) :
    (∀ t, t ∈ u.normalizeTags file.1 ↔ ∃ s ∈ u.normalizeTags file.1, image (fun t => remapPath t old new) s = t) ∧
      ∀ t, some t ∈ u.marks none file.2 → image (fun t => remapPath t old new) t = t := by
  rw [Unicode.staged, Bool.or_eq_false_iff, decide_eq_false_iff_not, decide_eq_false_iff_not, not_not, not_not] at h
  obtain ⟨htags, hbody⟩ := h
  refine ⟨fun t => ?_, (rewrite_eq_iff (remap_path hnew) file.2).mp hbody⟩
  have hmem : t ∈ renamedTags old new (u.normalizeTags file.1) ↔ _ := mem_renamedTags
  rwa [show renamedTags old new (u.normalizeTags file.1) = u.normalizeTags file.1 from htags] at hmem

theorem map_image_eq (h : ∀ t, some t ∈ u.marks none file.2 → image (fun t => remapPath t old new) t = t) :
    (u.marks none file.2).map (Option.map (image fun t => remapPath t old new)) = u.marks none file.2 := by
  refine (List.map_congr_left fun o ho => ?_).trans (List.map_id _)
  cases o with
  | none => rfl
  | some t => exact congrArg some (h t ho)

theorem mem_map_image {marks : List (Option Text)} {f : Text → Text} :
    some t ∈ marks.map (Option.map f) ↔ ∃ s, some s ∈ marks ∧ f s = t := by
  rw [List.mem_map]
  constructor
  · rintro ⟨o, ho, h⟩
    obtain ⟨s, rfl, hs⟩ := Option.map_eq_some_iff.mp h
    exact ⟨s, ho, hs⟩
  · rintro ⟨s, hs, rfl⟩
    exact ⟨some s, hs, rfl⟩

/-- **One note.** -/
theorem carried_iff (hold : u.Path old) (hnew : u.Path new) :
    u.Carried old new file (u.renameFile old new file) ↔ u.Clean old new file := by
  unfold Unicode.renameFile
  cases hstaged : u.staged old new file with
  | false =>
    obtain ⟨htags, hmarks⟩ := image_of_not_staged hnew hstaged
    have hmap := map_image_eq hmarks
    constructor
    · intro _
      refine ⟨(marks_rewrite_iff (remap_path hnew) file.2).mp ?_, fun h => ?_⟩
      · rw [(rewrite_eq_iff (remap_path hnew) file.2).mpr hmarks, hmap]
      · rw [hstaged] at h
        cases h
    · intro _
      refine ⟨fun t => ?_, hmap.symm⟩
      rw [mem_effective]
      constructor
      · rintro (ht | ht)
        · obtain ⟨s, hs, himage⟩ := (htags t).mp ht
          exact ⟨s, mem_effective.mpr (.inl hs), himage⟩
        · exact ⟨t, mem_effective.mpr (.inr ht), hmarks t ht⟩
      · rintro ⟨s, hs, rfl⟩
        rcases mem_effective.mp hs with hs | hs
        · exact .inl ((htags _).mpr ⟨s, hs, rfl⟩)
        · exact .inr (by rwa [hmarks s hs])
  | true =>
    have hmarks := marks_rewrite_iff (@remap_path u old new hnew) file.2
    constructor
    · rintro ⟨heffective, hcarried⟩
      refine ⟨hmarks.mp hcarried, fun _ t ht hlast => ?_⟩
      have hnewlined : u.Newlined t := (path_or_newlined ht).resolve_left fun h => h.getLast? hlast
      have hend := (image_newlined hold hnew hnewlined).getLast?
      -- the image is read back without the newline
      have hnot : ¬ u.Path (image (fun t => remapPath t old new) t) := fun h => h.getLast? hend
      rcases mem_effective.mp ((heffective _).mpr ⟨t, mem_effective.mpr (.inl ht), rfl⟩) with hmem | hmem
      · obtain ⟨r, hr, hnormal⟩ := mem_normalizeTags.mp hmem
        obtain ⟨s, hs, rfl⟩ := mem_renamedTags.mp hr
        rcases path_or_newlined hs with hs | hs
        · rw [normalize_image hnew hs] at hnormal
          exact hnot (Option.some.inj hnormal ▸ image_path hnew hs)
        · obtain ⟨s', hs', hnormal'⟩ := (image_newlined hold hnew hs).normalize
          rw [hnormal] at hnormal'
          exact hnot (Option.some.inj hnormal' ▸ hs')
      · exact hnot (path_of_mem_marks hmem)
    · rintro ⟨hcollides, hnewline⟩
      have hcarried := hmarks.mpr hcollides
      have hpath : ∀ s ∈ u.normalizeTags file.1, u.Path s := fun s hs =>
        (path_or_newlined hs).resolve_right fun h => hnewline hstaged s hs h.getLast?
      refine ⟨fun t => ?_, hcarried⟩
      have htags : t ∈ u.normalizeTags (renamedTags old new (u.normalizeTags file.1)) ↔
          ∃ s ∈ u.normalizeTags file.1, image (fun t => remapPath t old new) s = t := by
        rw [mem_normalizeTags]
        constructor
        · rintro ⟨r, hr, hnormal⟩
          obtain ⟨s, hs, rfl⟩ := mem_renamedTags.mp hr
          rw [normalize_image hnew (hpath s hs)] at hnormal
          exact ⟨s, hs, Option.some.inj hnormal⟩
        · rintro ⟨s, hs, rfl⟩
          exact ⟨_, mem_renamedTags.mpr ⟨s, hs, rfl⟩, normalize_image hnew (hpath s hs)⟩
      have hbody : some t ∈ u.marks none (u.rewritten old new file).2 ↔
          ∃ s, some s ∈ u.marks none file.2 ∧ image (fun t => remapPath t old new) s = t := by
        rw [← mem_map_image, ← hcarried]
        rfl
      show t ∈ u.effective (renamedTags old new (u.normalizeTags file.1)) (u.rewritten old new file).2 ↔ _
      rw [mem_effective, htags, hbody]
      constructor
      · rintro (⟨s, hs, h⟩ | ⟨s, hs, h⟩)
        · exact ⟨s, mem_effective.mpr (.inl hs), h⟩
        · exact ⟨s, mem_effective.mpr (.inr hs), h⟩
      · rintro ⟨s, hs, h⟩
        rcases mem_effective.mp hs with hs | hs
        · exact .inl ⟨s, hs, h⟩
        · exact .inr ⟨s, hs, h⟩

/-! ## the workspace -/

/-- A note none of whose tags moves is clean, and is as it should be when it is left alone. -/
theorem carried_self (hnew : u.Path new)
    (h : ∀ t ∈ u.effective file.1 file.2, image (fun t => remapPath t old new) t = t) :
    u.Carried old new file file ∧ u.Clean old new file := by
  have hmarks : ∀ t, some t ∈ u.marks none file.2 → image (fun t => remapPath t old new) t = t :=
    fun t ht => h t (mem_effective.mpr (.inr ht))
  have hmap := map_image_eq hmarks
  refine ⟨⟨fun t => ?_, hmap.symm⟩, ?_, fun hstaged => ?_⟩
  · constructor
    · exact fun ht => ⟨t, ht, h t ht⟩
    · rintro ⟨s, hs, rfl⟩
      rwa [h s hs]
  · refine (marks_rewrite_iff (remap_path hnew) file.2).mp ?_
    rw [(rewrite_eq_iff (remap_path hnew) file.2).mpr hmarks, hmap]
  · have htags : renamedTags old new (u.normalizeTags file.1) = u.normalizeTags file.1 := by
      rw [renamedTags, List.map_congr_left fun t ht => h t (mem_effective.mpr (.inl ht)), List.map_id']
      exact insertionOrder_eq_self (insertionOrder_nodup _)
    have hbody := (rewrite_eq_iff (@remap_path u old new hnew) file.2).mpr hmarks
    rw [Unicode.staged, Bool.or_eq_true, decide_eq_true_eq, decide_eq_true_eq] at hstaged
    exact absurd hstaged (not_or.mpr ⟨not_not.mpr htags, not_not.mpr hbody⟩)

theorem mem_noteIdsForTag {path : Text} {n : TaggedNote} (hn : n ∈ ws.notes) :
    n.noteId ∈ ws.noteIdsForTag path ↔ ∃ t ∈ ws.index n.noteId, t = path ∨ (path ++ ['/']).isPrefixOf t = true := by
  rw [Workspace.noteIdsForTag, List.mem_filter, List.any_eq_true]
  simp only [Bool.or_eq_true, decide_eq_true_eq]
  exact and_iff_right (List.mem_map_of_mem hn)

theorem remapPath_eq_none (h : ¬ (t = old ∨ (old ++ ['/']).isPrefixOf t = true)) : remapPath t old new = none := by
  rw [remapPath, if_neg fun heq => h (.inl heq), if_neg fun hprefix => h (.inr hprefix)]

theorem remapPath_self (t : Text) : image (fun t => remapPath t old old) t = t := by
  rw [image, remapPath]
  split
  · rename_i heq
    exact heq.symm
  · split
    · rename_i hprefix
      obtain ⟨rest, rfl⟩ := List.isPrefixOf_iff_prefix.mp hprefix
      rw [List.append_assoc, List.drop_left]
      rfl
    · rfl

/-- **Renaming a tag** does what it should exactly when the notes are clean. -/
theorem renameTag_iff {merge : Bool} (hindex : u.UpToDate ws) (hold : u.normalize rawOld = some old)
    (hnew : u.normalize rawNew = some new) (holdPath : u.Path old) (hnewPath : u.Path new)
    (h : u.renameTag ws rawOld rawNew merge = .ok ws') :
    List.Forall₂ (u.Renamed old new) ws.notes ws'.notes ↔
      ∀ n ∈ ws.notes, ∀ file, n.file = some file → u.Clean old new file := by
  have hself : ∀ n : TaggedNote, (∀ file, n.file = some file →
      u.Carried old new file file ∧ u.Clean old new file) →
      (u.Renamed old new n n ↔ ∀ file, n.file = some file → u.Clean old new file) := by
    intro n hn
    exact ⟨fun _ file hfile => (hn file hfile).2,
      fun _ => ⟨rfl, id, fun file hfile => ⟨file, hfile, (hn file hfile).1⟩⟩⟩
  unfold Unicode.renameTag at h
  rw [hold, hnew] at h
  dsimp only at h
  split at h
  · rename_i heq
    cases h
    subst heq
    rw [List.forall₂_same]
    exact forall₂_congr fun n _ => hself n fun file _ => carried_self hnewPath fun t _ => remapPath_self t
  · split at h
    · cases h
    · split at h
      · cases h
      · split at h
        · cases h
        · cases h
          rw [List.forall₂_map_right_iff, List.forall₂_same]
          refine forall₂_congr fun n hn => ?_
          split
          · constructor
            · intro hrenamed file hfile
              obtain ⟨file', hfile', hcarried⟩ := hrenamed.some file hfile
              have hfile' : n.file.map (u.renameFile old new) = some file' := hfile'
              rw [hfile] at hfile'
              cases hfile'
              exact (carried_iff holdPath hnewPath).mp hcarried
            · intro hclean
              refine ⟨rfl, fun hnone => congrArg (Option.map _) hnone, fun file hfile => ?_⟩
              exact ⟨_, congrArg (Option.map _) hfile, (carried_iff holdPath hnewPath).mpr (hclean file hfile)⟩
          · -- the index has no tag of the note that moves
            rename_i hsource
            rw [mem_noteIdsForTag hn] at hsource
            refine hself n fun file hfile => carried_self hnewPath fun t ht => ?_
            rw [image, remapPath_eq_none fun hmoves => hsource ⟨t, (hindex n hn file.1 file.2 hfile t).mpr ht, hmoves⟩]
            rfl

/-! ## two workspaces -/

theorem toNat_toLower (c : Char) :
    c.toLower.toNat = if 65 ≤ c.toNat ∧ c.toNat ≤ 90 then c.toNat + 32 else c.toNat := by
  have hupper : (c.val ≥ 'A'.val ∧ c.val ≤ 'Z'.val) ↔ 65 ≤ c.toNat ∧ c.toNat ≤ 90 := by
    rw [ge_iff_le, UInt32.le_iff_toNat_le, UInt32.le_iff_toNat_le]
    rfl
  unfold Char.toLower
  split
  · rename_i h
    rw [if_pos (hupper.mp h)]
    have hle := (hupper.mp h).2
    show (c.val + 32).toNat = c.val.toNat + 32
    rw [UInt32.toNat_add]
    exact Nat.mod_eq_of_lt (show c.toNat + 32 < 2 ^ 32 by omega)
  · rename_i h
    rw [if_neg (mt hupper.mpr h)]

theorem toLower_toLower (c : Char) : c.toLower.toLower = c.toLower := by
  apply Char.toNat_inj.mp
  rw [toNat_toLower c.toLower, toNat_toLower c]
  split
  · exact if_neg (by omega)
  · rfl

theorem toLower_eq_newline {c : Char} (h : c.toLower = '\n') : c = '\n' := by
  have hnat := toNat_toLower c
  rw [h] at hnat
  have hten : '\n'.toNat = 10 := rfl
  apply Char.toNat_inj.mp
  split at hnat <;> omega

def ascii : Unicode where
  alnum _ := false
  lower s := s.map Char.toLower
  alnum_space _ h := (nomatch h)
  lowered s c hc := by
    obtain ⟨x, _, rfl⟩ := List.mem_map.mp hc
    exact congrArg (fun c => [c]) (toLower_toLower x)
  lower_eq s hs := (List.map_congr_left fun c hc => (List.cons.inj (hs c hc)).1).trans (List.map_id _)
  lower_newline s hs := by
    obtain ⟨c, hc, hlower⟩ := List.mem_map.mp hs
    exact toLower_eq_newline hlower ▸ hc

/-- One note; the index has its tags. -/
def oneNote (fmTags : List Text) (body : Text) : Workspace where
  notes := [⟨"n", some (fmTags, body)⟩]
  index _ := ascii.effective fmTags body

theorem oneNote_upToDate (fmTags : List Text) (body : Text) : ascii.UpToDate (oneNote fmTags body) := by
  intro n hn fmTags' body' hfile t
  cases List.mem_singleton.mp hn
  cases hfile
  exact Iff.rfl

theorem ascii_path {t : Text} (h : ascii.pathMatches t = true) (hlower : t.map Char.toLower = t) : ascii.Path t := by
  refine ⟨h, fun c hc => ?_⟩
  obtain ⟨i, hi, rfl⟩ := List.mem_iff_getElem.mp hc
  have heq := congrArg (fun l => l[i]?) hlower
  rw [List.getElem?_map, List.getElem?_eq_getElem hi] at heq
  exact congrArg (fun c => [c]) (Option.some.inj heq)

/-- `work` becomes `job` in the frontmatter and in the body. -/
def jobNote : Workspace := oneNote ["Work/a".toList] "to #work/, at #job-x".toList

theorem renameTag_job : ∃ ws', ascii.renameTag jobNote "Work".toList "job".toList false = .ok ws' ∧
    (List.Forall₂ (ascii.Renamed "work".toList "job".toList) jobNote.notes ws'.notes ↔
      ∀ n ∈ jobNote.notes, ∀ file, n.file = some file → ascii.Clean "work".toList "job".toList file) := by
  have hok : (ascii.renameTag jobNote "Work".toList "job".toList false).isOk = true := by decide +kernel
  cases h : ascii.renameTag jobNote "Work".toList "job".toList false with
  | error e =>
    rw [h] at hok
    cases hok
  | ok ws' =>
    exact ⟨ws', rfl, renameTag_iff (oneNote_upToDate _ _) (by decide +kernel) (by decide +kernel)
      (ascii_path (by decide +kernel) (by decide +kernel)) (ascii_path (by decide +kernel) (by decide +kernel)) h⟩

/-- After the hyphen of the new tag the text that follows is a tag. -/
def workNote : Workspace := oneNote [] "#work#x".toList

theorem renameTag_appears : ∃ ws', ascii.UpToDate workNote ∧
    ascii.renameTag workNote "work".toList "job-".toList false = .ok ws' ∧
    ¬ List.Forall₂ (ascii.Renamed "work".toList "job-".toList) workNote.notes ws'.notes := by
  have hview : (ascii.renameTag workNote "work".toList "job-".toList false).toOption.map
      (fun ws => ws.notes.map fun n => n.file) = some [some ([], "#job-#x".toList)] := by
    decide +kernel
  cases h : ascii.renameTag workNote "work".toList "job-".toList false with
  | error e =>
    rw [h] at hview
    cases hview
  | ok ws' =>
    rw [h] at hview
    refine ⟨ws', oneNote_upToDate _ _, rfl, fun hall => ?_⟩
    have hnotes : ws'.notes.map (fun n => n.file) = [some ([], "#job-#x".toList)] :=
      Option.some.inj hview
    cases hws : ws'.notes with
    | nil =>
      rw [hws] at hnotes
      cases hnotes
    | cons n' rest =>
      rw [hws] at hall hnotes
      cases hall with
      | cons hrenamed _ =>
        obtain ⟨file', hfile', hcarried⟩ := hrenamed.some ([], "#work#x".toList) rfl
        have hfile : n'.file = some ([], "#job-#x".toList) := (List.cons.inj hnotes).1
        rw [hfile'] at hfile
        cases hfile
        have hx := (hcarried.effective "x".toList).mp (by decide +kernel)
        obtain ⟨s, hs, himage⟩ := hx
        have heffective : ascii.effective [] "#work#x".toList = ["work".toList] := by decide +kernel
        have hs : s ∈ ascii.effective [] "#work#x".toList := hs
        rw [heffective] at hs
        rw [List.mem_singleton.mp hs] at himage
        exact absurd himage (by decide +kernel)

end Kajet.Tags
