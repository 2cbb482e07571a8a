import Kajet.Links.Backlinks
import Kajet.Paths.Disk
import Kajet.Tags.Path

/-!
# Normalised folders and the paths below them

* `Normalized`, `normalized_iff`   the values of `normalize_folder`, segment by segment;
* `normalized_remap`               a folder below `src` is normalised again below `dst`;
* `notePath_eq`, `inTree_notePath` the path of a note, and the directories it is in.
-/

namespace Kajet.Paths
open Str Links

variable {p folder title src dst : Text} {segs : List Text} {n : IndexedNote}

/-- What `normalize_folder` makes of a segment. -/
def Name (p : Text) : Prop :=
  ∃ raw : Text, raw ≠ [] ∧ '/' ∉ raw ∧ raw ≠ "..".toList ∧ titleToWindowsFilename raw = p

/-- A value that `normalize_folder` returns. -/
def Normalized (folder : Text) : Prop := ∃ raw, normalizeFolder raw = some folder

theorem Name.segment (h : Name p) : Segment p := by
  obtain ⟨raw, _, _, _, rfl⟩ := h
  exact segment_titleToWindowsFilename raw

theorem Name.notMem (h : Name p) : '/' ∉ p := h.segment.notMem (by decide)

/-- No file name is a dot: dots at the end are cut off before the name is shortened. -/
theorem titleToWindowsFilename_ne_dot (title : Text) : titleToWindowsFilename title ≠ ['.'] := by
  let stripped := rstripChars ['.', ' ']
    (strip (collapseSpaces (title.map fun c => if windowsForbidden c then ' ' else c)))
  let named := if stripped.map Char.toUpper ∈ windowsReserved then '_' :: stripped else stripped
  let whole := if named = [] then "untitled".toList else named
  have hstripped : stripped ≠ ['.'] := by
    intro hdot
    have hlast := rdropWhile_eq_self.mp (List.rdropWhile_idempotent (fun c => decide (c ∈ ['.', ' ']))
      (strip (collapseSpaces (title.map fun c => if windowsForbidden c then ' ' else c)))) '.'
    have hfalse := hlast (show stripped.getLast? = some '.' by rw [hdot]; rfl)
    simp at hfalse
  have hnamed : named ≠ ['.'] := by
    show (if _ then _ else _) ≠ _
    split
    · simp
    · exact hstripped
  have hwhole : whole ≠ ['.'] := by
    show (if _ then _ else _) ≠ _
    split
    · decide
    · exact hnamed
  intro hdot
  have htake : whole.take 200 = ['.'] := hdot
  have hlen := congrArg List.length htake
  rw [List.length_take, List.length_singleton] at hlen
  rw [List.take_of_length_le (by omega)] at htake
  exact hwhole htake

/-! ## the values of `normalize_folder` -/

theorem Name.segments (h : ∀ p ∈ segs, Name p) : Tags.Segments segs :=
  fun p hp => ⟨(h p hp).segment.ne_nil, (h p hp).notMem⟩

/-- A path in slashes: no outer spaces, and no more segments. -/
theorem strip_slashes (s : Text) : strip ('/' :: s ++ ['/']) = '/' :: s ++ ['/'] := by
  refine stripBy_eq_self.mpr ⟨fun c hc => ?_, fun c hc => ?_⟩
  · obtain rfl : '/' = c := by simpa using hc
    decide
  · rw [List.getLast?_concat] at hc
    obtain rfl := Option.some.inj hc
    decide

theorem pathSegments_slashes (h : Tags.Segments segs) :
    pathSegments ('/' :: join '/' segs ++ ['/']) = segs := by
  have hsplit : split '/' ('/' :: join '/' segs ++ ['/']) = [] :: (split '/' (join '/' segs) ++ [[]]) := by
    show split '/' ([] ++ '/' :: (join '/' segs ++ '/' :: [])) = _
    rw [split_append, split_append]
    rfl
  rw [pathSegments, hsplit, List.filter_cons_of_neg (by simp), List.filter_append]
  exact (List.append_nil _).trans (Tags.pathSegments_join h)

theorem normalized_iff :
    Normalized folder ↔ ∃ segs : List Text, (∀ p ∈ segs, Name p) ∧ folder = join '/' segs := by
  constructor
  · rintro ⟨raw, h⟩
    unfold normalizeFolder at h
    dsimp only at h
    split at h
    · cases h
    · rename_i hdots
      refine ⟨_, fun p hp => ?_, (Option.some.inj h).symm⟩
      obtain ⟨q, hq, rfl⟩ := List.mem_map.mp hp
      obtain ⟨hsplit, hne⟩ := List.mem_filter.mp hq
      refine ⟨q, of_decide_eq_true hne, notMem_of_mem_split hsplit, ?_, rfl⟩
      rintro rfl
      exact hdots hq
  · rintro ⟨segs, hsegs, rfl⟩
    -- the slashes keep the outer spaces of the first and the last raw segment
    choose! raw hne hslash hdots hname using hsegs
    have hraw : Tags.Segments (segs.map raw) := by
      intro q hq
      obtain ⟨p, hp, rfl⟩ := List.mem_map.mp hq
      exact ⟨hne p hp, hslash p hp⟩
    have hmap : (segs.map raw).map titleToWindowsFilename = segs := by
      rw [List.map_map]
      conv_rhs => rw [← List.map_id segs]
      exact List.map_congr_left hname
    refine ⟨'/' :: join '/' (segs.map raw) ++ ['/'], ?_⟩
    unfold normalizeFolder
    dsimp only
    rw [strip_slashes, pathSegments_slashes hraw, hmap, if_neg]
    intro hmem
    obtain ⟨p, hp, hdot⟩ := List.mem_map.mp hmem
    exact hdots p hp hdot

theorem Normalized.segments (h : Normalized folder) :
    join '/' (pathSegments folder) = folder ∧ ∀ p ∈ pathSegments folder, Name p := by
  obtain ⟨segs, hsegs, rfl⟩ := normalized_iff.mp h
  rw [Tags.pathSegments_join (Name.segments hsegs)]
  exact ⟨rfl, hsegs⟩

theorem normalizedFolder_some (h : normalizedFolder folder = .ok dst) :
    normalizeFolder folder = some dst := by
  unfold normalizedFolder at h
  split at h
  · cases h
    assumption
  · cases h

theorem normalized_of_ok (h : normalizedFolder folder = .ok dst) : Normalized dst :=
  ⟨folder, normalizedFolder_some h⟩

/-! ## a folder that moves -/

theorem inTree_iff : inTree src p = true ↔ ∃ r, p = src ++ '/' :: r := by
  rw [inTree, List.isPrefixOf_iff_prefix]
  constructor
  · rintro ⟨r, hr⟩
    exact ⟨r, by rw [← hr, List.append_assoc]; rfl⟩
  · rintro ⟨r, rfl⟩
    exact ⟨r, by rw [List.append_assoc]; rfl⟩

/-- What is left of a folder below `src`. -/
theorem normalized_below {r : Text} (h : Normalized (src ++ '/' :: r)) :
    Normalized r ∧ r ≠ [] ∧ r.head? ≠ some '/' := by
  obtain ⟨segs, hsegs, hjoin⟩ := normalized_iff.mp h
  have hne : segs ≠ [] := by
    rintro rfl
    exact List.append_ne_nil_of_right_ne_nil src (List.cons_ne_nil _ _) hjoin
  have hsplit : split '/' src ++ split '/' r = segs := by
    rw [← split_append, hjoin, split_join hne fun p hp => (hsegs p hp).notMem]
  have hr : ∀ p ∈ split '/' r, Name p := fun p hp =>
    hsegs p (hsplit ▸ List.mem_append_right _ hp)
  refine ⟨normalized_iff.mpr ⟨_, hr, join_split.symm⟩, ?_, ?_⟩
  · rintro rfl
    exact (hr [] (List.mem_singleton_self _)).segment.ne_nil rfl
  · intro hhead
    obtain ⟨t, rfl⟩ := List.head?_eq_some_iff.mp hhead
    have hnil : ([] : Text) ∈ split '/' ('/' :: t) := by
      show ([] : Text) ∈ split '/' ([] ++ '/' :: t)
      rw [split_append]
      exact List.mem_cons_self
    exact (hr [] hnil).segment.ne_nil rfl

theorem Normalized.append {r : Text} (hdst : Normalized dst) (hr : Normalized r) (hdne : dst ≠ [])
    (hrne : r ≠ []) : Normalized (dst ++ '/' :: r) := by
  obtain ⟨ds, hds, rfl⟩ := normalized_iff.mp hdst
  obtain ⟨rs, hrs, rfl⟩ := normalized_iff.mp hr
  refine normalized_iff.mpr ⟨ds ++ rs, fun p hp => (List.mem_append.mp hp).elim (hds p) (hrs p), ?_⟩
  refine (join_append ?_ ?_).symm
  · rintro rfl
    exact hdne rfl
  · rintro rfl
    exact hrne rfl

/-- The folder itself becomes `dst`. -/
theorem remap_self (h : n.folder = src) : (remap src dst n).folder = dst := by
  show join '/' ([dst, (n.folder.drop src.length).dropWhile _].filter _) = dst
  rw [h, List.drop_length]
  by_cases hd : dst = []
  · subst hd
    rfl
  · simp [hd, join_singleton]

/-- A folder below it keeps what is left of its path. -/
theorem remap_below {r : Text} (hn : Normalized n.folder) (hr : n.folder = src ++ '/' :: r) :
    (remap src dst n).folder = if dst = [] then r else dst ++ '/' :: r := by
  rw [hr] at hn
  obtain ⟨-, hrne, hhead⟩ := normalized_below hn
  have hrest : (n.folder.drop src.length).dropWhile (· = '/') = r := by
    rw [hr, List.drop_left, List.dropWhile_cons_of_pos (by simp), dropWhile_eq_self]
    intro c hc
    exact decide_eq_false fun heq => hhead (heq ▸ hc)
  show join '/' ([dst, (n.folder.drop src.length).dropWhile _].filter _) = _
  rw [hrest]
  split
  · rename_i hd
    simp [hd, hrne, join_singleton]
  · rename_i hd
    simp [hd, hrne, join_cons_cons, join_singleton]

theorem normalized_remap (hn : Normalized n.folder) (hdst : Normalized dst)
    (hbelow : n.folder = src ∨ inTree src n.folder = true) : Normalized (remap src dst n).folder := by
  rcases hbelow with hself | hin
  · rwa [remap_self hself]
  · obtain ⟨r, hr⟩ := inTree_iff.mp hin
    rw [remap_below hn hr]
    rw [hr] at hn
    obtain ⟨hnr, hrne, -⟩ := normalized_below hn
    split
    · exact hnr
    · rename_i hd
      exact hdst.append hnr hd hrne

/-! ## the path of a note -/

theorem notePath_eq (h : Normalized n.folder) :
    notePath n = joinTarget n.folder (titleToWindowsFilename n.title ++ ".md".toList) := by
  obtain ⟨hjoin, hnames⟩ := h.segments
  have hdots : (pathSegments n.folder).filter (· ≠ ['.']) = pathSegments n.folder := by
    refine List.filter_eq_self.mpr fun p hp => decide_eq_true ?_
    obtain ⟨raw, _, _, _, rfl⟩ := hnames p hp
    exact titleToWindowsFilename_ne_dot raw
  rw [notePath, hdots, joinTarget]
  split
  · rename_i hroot
    rw [hroot]
    exact join_singleton
  · rename_i hne
    rw [join_concat, hjoin]
    intro hnil
    rw [hnil] at hjoin
    exact hne hjoin.symm

theorem notMem_filename (title : Text) : '/' ∉ titleToWindowsFilename title ++ ".md".toList := by
  intro hmem
  rcases List.mem_append.mp hmem with hmem | hmem
  · exact (segment_titleToWindowsFilename title).notMem (by decide) hmem
  · revert hmem
    decide

/-- A note's file is in the directories that its folder is, or is in. -/
theorem inTree_notePath (h : Normalized n.folder) (hsrc : src ≠ []) :
    inTree src (notePath n) = true ↔ n.folder = src ∨ inTree src n.folder = true := by
  have hname := notMem_filename n.title
  rw [notePath_eq h, inTree_iff, inTree_iff, joinTarget]
  constructor
  · rintro ⟨r, hr⟩
    split at hr
    · rw [hr] at hname
      exact absurd (List.mem_append_right _ List.mem_cons_self) hname
    · rcases List.append_eq_append_iff.mp hr with ⟨c, hfolder, hrest⟩ | ⟨c, hfolder, hrest⟩
      · cases c with
        | nil => exact .inl (by simpa using hfolder.symm)
        | cons x c =>
          -- the slash after `src` would be in the name
          obtain ⟨_, hrest⟩ := List.cons.inj hrest
          rw [hrest] at hname
          exact absurd (List.mem_append_right _ List.mem_cons_self) hname
      · cases c with
        | nil => exact .inl (by simpa using hfolder)
        | cons x c =>
          obtain ⟨rfl, _⟩ := List.cons.inj hrest
          exact .inr ⟨c, hfolder⟩
  · rintro (rfl | ⟨r, hr⟩)
    · exact ⟨_, if_neg hsrc⟩
    · rw [if_neg (by rw [hr]; simp), hr, List.append_assoc]
      exact ⟨_, rfl⟩

end Kajet.Paths
