import Kajet.Folders.Scope
import Kajet.Paths.Folder

/-!
# Folder metadata after a move

`move_folder` moves the notes, and then `rename_paths` rewrites the paths of the metadata rows.

* `Follows`        every row below the folder is under the folder that its notes have now, and no other
                   row changed;
* `Movable`        what the rows must be like for that;
* `follows_iff`    the metadata follows the notes exactly when they are.
-/

namespace Kajet.Folders
open Str Table Links

variable {lib : Library} {db : Db} {src dst now : Text} {metas : List FolderMeta} {m k : FolderMeta}

/-- The metadata row `m` after the move: what a note of the folder is told by `remap`. -/
def FolderMeta.movedTo (src dst now : Text) (m : FolderMeta) : FolderMeta :=
  { m with path := (remap src dst ⟨"", m.path, []⟩).folder, updatedAt := now }

structure Follows (lib : Library) (db : Db) (src dst now : Text) (metas : List FolderMeta) : Prop where
  rows : List.Forall₂ (fun m m' =>
    if lib.ownsMeta m && under src m.path then m' = m.movedTo src dst now else m' = m) db.metas metas
  keys : (metas.map FolderMeta.key).Nodup

/-- The rows of the workspace can be renamed: none loses the slash that a root does not have, none is taken
for one below the folder because of the case of its letters, and none gets the path of a row that stays or is
written later. -/
structure Movable (lib : Library) (db : Db) (src dst now : Text) : Prop where
  root : dst = [] → ∀ m ∈ db.metas, lib.ownsMeta m = true → Paths.inTree src m.path = false
  letters : ∀ m ∈ db.metas, lib.ownsMeta m = true → Confused src m.path → m.renamed src dst now = m
  free : ∀ m ∈ db.metas, lib.ownsMeta m = true → inFolder src m.path = true →
    ∀ k ∈ db.metas, lib.ownsMeta k = true → k ≠ m → k.path = (m.renamed src dst now).path →
      under src k.path = true ∧ k.path < m.path

/-! ## one row -/

theorem inFolder_of_under (hsrc : src ≠ []) {path : Text} (h : under src path = true) : inFolder src path = true := by
  rw [under, decide_eq_false hsrc, Bool.false_or, Bool.or_eq_true, List.isPrefixOf_iff_prefix] at h
  rw [inFolder_eq, Bool.or_eq_true, List.isPrefixOf_iff_prefix]
  exact h.imp_right fun hprefix => hprefix.map Char.toLower

theorem confused_iff (hsrc : src ≠ []) {path : Text} :
    Confused src path ↔ inFolder src path = true ∧ under src path = false := by
  rw [← not_iff_not, ← inFolder_eq_under_iff]
  cases hin : inFolder src path <;> cases hunder : under src path
  · simp
  · exact absurd (inFolder_of_under hsrc hunder) (by rw [hin]; simp)
  · simp
  · simp

theorem under_cases (hsrc : src ≠ []) {path : Text} (h : under src path = true) :
    path = src ∨ ∃ r, path = src ++ '/' :: r := by
  rw [under, decide_eq_false hsrc, Bool.false_or, Bool.or_eq_true] at h
  exact h.imp of_decide_eq_true Paths.inTree_iff.mp

/-- What is written for a row of the folder is what its notes got, unless the slash of the root is left over. -/
theorem renamed_eq_movedTo_iff (hsrc : src ≠ []) (hpath : Paths.Normalized m.path) (h : under src m.path = true) :
    m.renamed src dst now = m.movedTo src dst now ↔ (dst = [] → Paths.inTree src m.path = false) := by
  have hpaths : m.renamed src dst now = m.movedTo src dst now ↔
      (m.renamed src dst now).path = (m.movedTo src dst now).path := by
    constructor
    · exact congrArg FolderMeta.path
    · intro heq
      exact congrArg (fun path => { m with path := path, updatedAt := now }) heq
  rw [hpaths]
  rcases under_cases hsrc h with hself | ⟨r, hr⟩
  · have hnot : Paths.inTree src m.path = false := by
      rw [Bool.eq_false_iff, Ne, Paths.inTree_iff, hself]
      rintro ⟨r, hr⟩
      have hlength := congrArg List.length hr
      simp at hlength
    have hremap : (m.movedTo src dst now).path = dst := Paths.remap_self hself
    rw [hremap]
    exact ⟨fun _ _ => hnot, fun _ => if_pos hself⟩
  · have hin : Paths.inTree src m.path = true := Paths.inTree_iff.mpr ⟨r, hr⟩
    have hne : m.path ≠ src := by
      intro hself
      have hlength := congrArg List.length (hself.symm.trans hr)
      simp at hlength
    have hrenamed : (m.renamed src dst now).path = dst ++ '/' :: r := by
      show (if m.path = src then dst else dst ++ m.path.drop src.length) = _
      rw [if_neg hne, hr, List.drop_left]
    have hremap : (m.movedTo src dst now).path = if dst = [] then r else dst ++ '/' :: r :=
      @Paths.remap_below src dst ⟨"", m.path, []⟩ r hpath hr
    rw [hrenamed, hremap, hin]
    by_cases hd : dst = []
    · subst hd
      simp
    · simp [hd]

/-- Two rows of the folder do not get one path. -/
theorem renamed_path_inj (hsrc : src ≠ []) (hm : under src m.path = true) (hk : under src k.path = true)
    (h : (m.renamed src dst now).path = (k.renamed src dst now).path) : m.path = k.path := by
  have htail (x : FolderMeta) (hx : under src x.path = true) :
      (x.renamed src dst now).path = dst ++ x.path.drop src.length ∧ src ++ x.path.drop src.length = x.path := by
    show (if x.path = src then dst else dst ++ x.path.drop src.length) = _ ∧ _
    rcases under_cases hsrc hx with hself | ⟨r, hr⟩
    · rw [if_pos hself, hself, List.drop_length, List.append_nil, List.append_nil]
      exact ⟨rfl, rfl⟩
    · rw [hr, List.drop_left]
      refine ⟨if_neg fun hself => ?_, rfl⟩
      have hlength := congrArg List.length hself
      simp at hlength
  rw [(htail m hm).1, (htail k hk).1] at h
  rw [← (htail m hm).2, ← (htail k hk).2, List.append_cancel_left h]

/-! ## all rows -/

theorem owns_iff : lib.ownsMeta m = true ↔ m.ownerId = lib.ownerId ∧ m.workspace = lib.workspace := by
  rw [Library.ownsMeta, Bool.and_eq_true, decide_eq_true_eq, decide_eq_true_eq]

theorem key_eq_iff : k.key = m.key ↔ k.ownerId = m.ownerId ∧ k.workspace = m.workspace ∧ k.path = m.path := by
  rw [FolderMeta.key, FolderMeta.key, Prod.mk.injEq, Prod.mk.injEq]

theorem key_eq_of_owns (hm : lib.ownsMeta m = true) (hk : lib.ownsMeta k = true) : k.key = m.key ↔ k.path = m.path := by
  rw [owns_iff] at hm hk
  rw [key_eq_iff, hm.1, hm.2, hk.1, hk.2]
  simp

theorem owns_of_key (hm : lib.ownsMeta m = true) (h : k.key = m.key) : lib.ownsMeta k = true := by
  rw [owns_iff] at hm ⊢
  rw [key_eq_iff] at h
  exact ⟨h.1.trans hm.1, h.2.1.trans hm.2⟩

theorem eq_of_key (hkeys : (db.metas.map FolderMeta.key).Nodup) (hm : m ∈ db.metas) (hk : k ∈ db.metas)
    (h : k.key = m.key) : k = m := List.inj_on_of_nodup_map hkeys hk hm h

theorem mem_metasUnder : m ∈ lib.metasUnder db src ↔
    m ∈ db.metas ∧ lib.ownsMeta m = true ∧ inFolder src m.path = true := by
  rw [Library.metasUnder, List.mem_filter, Bool.and_eq_true]

theorem renameCollides_eq_false : lib.renameCollides db src dst now = false ↔
    ∀ m ∈ db.metas, lib.ownsMeta m = true → inFolder src m.path = true → ∀ k ∈ db.metas, k ≠ m →
      (lib.metaAt src dst now m k).key ≠ (m.renamed src dst now).key := by
  rw [Library.renameCollides, List.any_eq_false]
  constructor
  · intro h m hm howns hin k hk hne heq
    refine h m (mem_metasUnder.mpr ⟨hm, howns, hin⟩) (List.any_eq_true.mpr ⟨k, hk, ?_⟩)
    simp [hne, heq]
  · intro h m hm hany
    obtain ⟨hm, howns, hin⟩ := mem_metasUnder.mp hm
    obtain ⟨k, hk, hcollides⟩ := List.any_eq_true.mp hany
    simp only [ne_eq, Bool.and_eq_true, decide_eq_true_eq] at hcollides
    exact h m hm howns hin k hk hcollides.1 hcollides.2

/-- The rows are what they must be when the slash and the letters do no harm. -/
theorem rows_iff (hsrc : src ≠ []) (hpaths : ∀ m ∈ db.metas, lib.ownsMeta m = true → Paths.Normalized m.path) :
    List.Forall₂ (fun m m' =>
      if lib.ownsMeta m && under src m.path then m' = m.movedTo src dst now else m' = m) db.metas
      (updateWhere (fun m => lib.ownsMeta m && inFolder src m.path) (·.renamed src dst now) db.metas) ↔
    (dst = [] → ∀ m ∈ db.metas, lib.ownsMeta m = true → Paths.inTree src m.path = false) ∧
      ∀ m ∈ db.metas, lib.ownsMeta m = true → Confused src m.path → m.renamed src dst now = m := by
  rw [updateWhere, List.forall₂_map_right_iff, List.forall₂_same]
  constructor
  · intro h
    constructor
    · intro hd m hm howns
      by_cases hunder : under src m.path = true
      · have hrow := h m hm
        rw [howns, hunder, inFolder_of_under hsrc hunder] at hrow
        exact (renamed_eq_movedTo_iff hsrc (hpaths m hm howns) hunder).mp hrow hd
      · rw [under, Bool.or_eq_true, not_or, Bool.not_eq_true] at hunder
        exact Bool.eq_false_iff.mpr hunder.2
    · intro m hm howns hconfused
      obtain ⟨hin, hunder⟩ := (confused_iff hsrc).mp hconfused
      have hrow := h m hm
      rw [howns, hunder, hin] at hrow
      exact hrow
  · rintro ⟨hroot, hletters⟩ m hm
    cases howns : lib.ownsMeta m with
    | false => rfl
    | true =>
      cases hunder : under src m.path with
      | true =>
        rw [inFolder_of_under hsrc hunder]
        exact (renamed_eq_movedTo_iff hsrc (hpaths m hm howns) hunder).mpr fun hd => hroot hd m hm howns
      | false =>
        cases hin : inFolder src m.path with
        | false => rfl
        | true => exact hletters m hm howns ((confused_iff hsrc).mpr ⟨hin, hunder⟩)

/-- A row that is written and does not move has no other row on its path. -/
theorem not_of_letters (h : Movable lib db src dst now) (hsrc : src ≠ []) (hm : m ∈ db.metas)
    (howns : lib.ownsMeta m = true) (hunder : under src m.path = false) (hin : inFolder src m.path = true)
    (hk : k ∈ db.metas) (hkowns : lib.ownsMeta k = true) (hkin : inFolder src k.path = true) (hne : m ≠ k) :
    (k.renamed src dst now).path ≠ (m.renamed src dst now).path := by
  have hself := h.letters m hm howns ((confused_iff hsrc).mpr ⟨hin, hunder⟩)
  intro heq
  rw [hself] at heq
  have htrue := (h.free k hk hkowns hkin m hm howns hne heq.symm).1
  rw [hunder] at htrue
  cases htrue

/-- Two rows that are written get different paths. -/
theorem renamed_apart (h : Movable lib db src dst now) (hsrc : src ≠ []) (hkeys : (db.metas.map FolderMeta.key).Nodup)
    (hm : m ∈ db.metas) (howns : lib.ownsMeta m = true) (hin : inFolder src m.path = true) (hk : k ∈ db.metas)
    (hkowns : lib.ownsMeta k = true) (hkin : inFolder src k.path = true) (hne : k ≠ m) :
    (k.renamed src dst now).path ≠ (m.renamed src dst now).path := by
  cases hunder : under src m.path with
  | false => exact not_of_letters h hsrc hm howns hunder hin hk hkowns hkin hne.symm
  | true =>
    cases hkunder : under src k.path with
    | false => exact (not_of_letters h hsrc hk hkowns hkunder hkin hm howns hin hne).symm
    | true =>
      intro heq
      have hpath := renamed_path_inj hsrc hkunder hunder heq
      exact hne (eq_of_key hkeys hm hk ((key_eq_of_owns howns hkowns).mpr hpath))

theorem collides_of_movable (h : Movable lib db src dst now) (hsrc : src ≠ [])
    (hkeys : (db.metas.map FolderMeta.key).Nodup) : lib.renameCollides db src dst now = false := by
  rw [renameCollides_eq_false]
  intro m hm howns hin k hk hne heq
  have hmowns : lib.ownsMeta (m.renamed src dst now) = true := howns
  unfold Library.metaAt at heq
  split at heq
  · rename_i hbefore
    simp only [Bool.and_eq_true, decide_eq_true_eq] at hbefore
    exact renamed_apart h hsrc hkeys hm howns hin hk hbefore.1.1 hbefore.1.2 hne (key_eq_iff.mp heq).2.2
  · rename_i hbefore
    have hkowns := owns_of_key hmowns heq
    obtain ⟨hkunder, hlt⟩ := h.free m hm howns hin k hk hkowns hne (key_eq_iff.mp heq).2.2
    simp [hkowns, inFolder_of_under hsrc hkunder, hlt] at hbefore

theorem free_of_collides (hsrc : src ≠ []) (hcollides : lib.renameCollides db src dst now = false)
    (hletters : ∀ m ∈ db.metas, lib.ownsMeta m = true → Confused src m.path → m.renamed src dst now = m) :
    ∀ m ∈ db.metas, lib.ownsMeta m = true → inFolder src m.path = true → ∀ k ∈ db.metas, lib.ownsMeta k = true →
      k ≠ m → k.path = (m.renamed src dst now).path → under src k.path = true ∧ k.path < m.path := by
  intro m hm howns hin k hk hkowns hne hpath
  have hmowns : lib.ownsMeta (m.renamed src dst now) = true := howns
  have hnot := renameCollides_eq_false.mp hcollides m hm howns hin k hk hne
  have hkey : k.key = (m.renamed src dst now).key := (key_eq_of_owns hmowns hkowns).mpr hpath
  unfold Library.metaAt at hnot
  split at hnot
  · rename_i hbefore
    simp only [Bool.and_eq_true, decide_eq_true_eq] at hbefore
    refine ⟨?_, hbefore.2⟩
    cases hunder : under src k.path with
    | true => rfl
    | false =>
      rw [hletters k hk hkowns ((confused_iff hsrc).mpr ⟨hbefore.1.2, hunder⟩)] at hnot
      exact absurd hkey hnot
  · exact absurd hkey hnot

theorem keys_of_movable (h : Movable lib db src dst now) (hsrc : src ≠ [])
    (hkeys : (db.metas.map FolderMeta.key).Nodup) :
    ((updateWhere (fun m => lib.ownsMeta m && inFolder src m.path) (·.renamed src dst now) db.metas).map
      FolderMeta.key).Nodup := by
  have hwritten (x y : FolderMeta) (hx : x ∈ db.metas) (hy : y ∈ db.metas)
      (hsel : (lib.ownsMeta x && inFolder src x.path) = true) (hnot : (lib.ownsMeta y && inFolder src y.path) ≠ true)
      (heq : (x.renamed src dst now).key = y.key) : False := by
    obtain ⟨hxowns, hxin⟩ := Bool.and_eq_true_iff.mp hsel
    have hyowns : lib.ownsMeta y = true := owns_of_key (show lib.ownsMeta (x.renamed src dst now) = true from hxowns) heq.symm
    have hne : y ≠ x := by
      rintro rfl
      exact hnot hsel
    have hunder := (h.free x hx hxowns hxin y hy hyowns hne (key_eq_iff.mp heq).2.2.symm).1
    exact hnot (Bool.and_eq_true_iff.mpr ⟨hyowns, inFolder_of_under hsrc hunder⟩)
  rw [updateWhere, List.map_map]
  refine List.Nodup.map_on (fun x hx y hy heq => ?_) (List.Nodup.of_map _ hkeys)
  change (if _ then _ else x).key = (if _ then _ else y).key at heq
  split at heq
  · rename_i hselx
    split at heq
    · rename_i hsely
      by_contra hne
      obtain ⟨hxowns, hxin⟩ := Bool.and_eq_true_iff.mp hselx
      obtain ⟨hyowns, hyin⟩ := Bool.and_eq_true_iff.mp hsely
      exact renamed_apart h hsrc hkeys hy hyowns hyin hx hxowns hxin hne (key_eq_iff.mp heq).2.2
    · rename_i hsely
      exact (hwritten x y hx hy hselx hsely heq).elim
  · rename_i hselx
    split at heq
    · rename_i hsely
      exact (hwritten y x hy hx hsely hselx heq.symm).elim
    · exact eq_of_key hkeys hy hx heq

/-- **Metadata follows the notes** exactly when the rows are movable. -/
theorem follows_iff (hsrc : src ≠ []) (hne : src ≠ dst)
    (hpaths : ∀ m ∈ db.metas, lib.ownsMeta m = true → Paths.Normalized m.path)
    (hkeys : (db.metas.map FolderMeta.key).Nodup) :
    (∃ metas, lib.renamePaths db src dst now = some metas ∧ Follows lib db src dst now metas) ↔
      Movable lib db src dst now := by
  constructor
  · rintro ⟨metas, hok, hfollows⟩
    rw [Library.renamePaths, if_neg hne] at hok
    split at hok
    · cases hok
    rename_i hcollides
    cases hok
    obtain ⟨hroot, hletters⟩ := (rows_iff hsrc hpaths).mp hfollows.rows
    exact ⟨hroot, hletters, free_of_collides hsrc (Bool.eq_false_iff.mpr hcollides) hletters⟩
  · intro h
    refine ⟨_, ?_, (rows_iff hsrc hpaths).mpr ⟨h.root, h.letters⟩, keys_of_movable h hsrc hkeys⟩
    rw [Library.renamePaths, if_neg hne, collides_of_movable h hsrc hkeys]
    exact if_neg (by simp)

/-! ## rows that do not follow -/

def metaIn (path : Text) : FolderMeta := ⟨"u", "w", path, "about".toList, [], []⟩

def metasIn (paths : List Text) : Db := ⟨⟨[], []⟩, [], paths.map metaIn⟩

/-- A move to the root, a merge into a folder that has metadata of its own, and a move within one chain of
folders. -/
theorem metadata_left_behind :
    (¬ ∃ metas, plain.renamePaths (metasIn ["a/b".toList]) "a".toList [] "now".toList = some metas ∧
      Follows plain (metasIn ["a/b".toList]) "a".toList [] "now".toList metas) ∧
    plain.renamePaths (metasIn ["a".toList, "b".toList]) "a".toList "b".toList "now".toList = none ∧
    plain.renamePaths (metasIn ["a/a/a/y".toList, "a/a/y".toList]) "a/a".toList "a".toList "now".toList = none := by
  refine ⟨?_, by decide +kernel, by decide +kernel⟩
  rintro ⟨metas, hok, hfollows⟩
  have hmetas : plain.renamePaths (metasIn ["a/b".toList]) "a".toList [] "now".toList =
      some [{ metaIn "/b".toList with updatedAt := "now".toList }] := by decide +kernel
  rw [hmetas] at hok
  cases hok
  have hrow := (List.forall₂_cons.mp hfollows.rows).1
  revert hrow
  decide +kernel

/-- A move into a folder with metadata of its own further down. -/
theorem follows_iff_merge :
    (∃ metas, plain.renamePaths (metasIn ["a".toList, "a/b".toList, "c/d".toList]) "a".toList "c".toList
        "now".toList = some metas ∧
      Follows plain (metasIn ["a".toList, "a/b".toList, "c/d".toList]) "a".toList "c".toList "now".toList metas) ↔
    Movable plain (metasIn ["a".toList, "a/b".toList, "c/d".toList]) "a".toList "c".toList "now".toList := by
  refine follows_iff (by decide +kernel) (by decide +kernel) (fun m hm _ => ?_) (by decide +kernel)
  obtain ⟨path, hpath, rfl⟩ := List.mem_map.mp hm
  have hsome : ∀ path ∈ ["a".toList, "a/b".toList, "c/d".toList], normalizeFolder path = some path := by decide +kernel
  exact ⟨path, hsome path hpath⟩

end Kajet.Folders
