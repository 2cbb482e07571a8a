import Kajet.Paths.Folder
import Mathlib.Data.List.Chain

/-!
# Folders that are normalised again

`title_to_windows_filename` cuts a name to 200 characters last, and strips dots and spaces after the other
whitespace: what either of them leaves at the end of a name can be stripped the next time.

* `Safe`              what holds of every segment of a normalised folder;
* `Settled`           a raw segment that leaves nothing to strip at the end of its name;
* `normalizeFolder_again`   the folders with such segments only are normalised for good;
* `TitleReads`        a title that `split_target` does not take for a folder;
* `normalizeFolder_stable`  when a folder is safe, stable and read back;
* `folder_drifts`     a folder that becomes another one the second time.
-/

namespace Kajet.Paths
open Str Links

variable {p q raw s t folder title : Text} {segs : List Text}

/-! ## names -/

/-- Forbidden characters become spaces, and runs of spaces one space. -/
def blanked (raw : Text) : Text := collapseSpaces (raw.map fun c => if windowsForbidden c then ' ' else c)

/-- What is left of a segment before a reserved name is prefixed and a long one cut. -/
def cleaned (raw : Text) : Text := rstripChars ['.', ' '] (strip (blanked raw))

/-- No whitespace and no dot at the end. -/
def Ends (p : Text) : Prop := ∀ c, p.getLast? = some c → isSpace c = false ∧ c ≠ '.'

/-- The first 200 characters of the cleaned segment end neither in whitespace nor in a dot. -/
def Settled (raw : Text) : Prop := Ends ((cleaned raw).take 200)

structure Safe (p : Text) : Prop where
  ne_nil : p ≠ []
  ne_dot : p ≠ ['.']
  ne_dots : p ≠ "..".toList
  unreserved : p.map Char.toUpper ∉ windowsReserved
  length : p.length ≤ 200
  chars : ∀ c ∈ p, windowsForbidden c = false

/-- The reserved names are short words of letters and digits. -/
theorem reserved_shape : ∀ r ∈ windowsReserved, r ≠ [] ∧ r.length ≤ 4 ∧ r.head? ≠ some '_' ∧
    (r.all fun c => c.isUpper || c.isDigit) = true := by
  decide +kernel

/-- The three names that a cleaned segment can have. -/
theorem filename_cases (raw : Text) :
    cleaned raw = [] ∧ titleToWindowsFilename raw = "untitled".toList ∨
    (cleaned raw).map Char.toUpper ∈ windowsReserved ∧ titleToWindowsFilename raw = '_' :: cleaned raw ∨
    cleaned raw ≠ [] ∧ (cleaned raw).map Char.toUpper ∉ windowsReserved ∧
      titleToWindowsFilename raw = (cleaned raw).take 200 := by
  have hname : titleToWindowsFilename raw =
      (if (if (cleaned raw).map Char.toUpper ∈ windowsReserved then '_' :: cleaned raw else cleaned raw) = [] then
        "untitled".toList else
        if (cleaned raw).map Char.toUpper ∈ windowsReserved then '_' :: cleaned raw else cleaned raw).take 200 := rfl
  by_cases hreserved : (cleaned raw).map Char.toUpper ∈ windowsReserved
  · have hlen := (reserved_shape _ hreserved).2.1
    rw [List.length_map] at hlen
    refine .inr (.inl ⟨hreserved, ?_⟩)
    rw [hname, if_pos hreserved, if_neg (List.cons_ne_nil _ _), List.take_of_length_le]
    rw [List.length_cons]
    omega
  · rw [if_neg hreserved] at hname
    by_cases hnil : cleaned raw = []
    · refine .inl ⟨hnil, ?_⟩
      rw [hname, if_pos hnil]
      rfl
    · refine .inr (.inr ⟨hnil, hreserved, ?_⟩)
      rw [hname, if_neg hnil]

/-- The digits and letters of ASCII, and what stands between them. -/
theorem plain_of_toNat {c : Char} (h : 48 ≤ c.toNat ∧ c.toNat ≤ 122) : isSpace c = false ∧ c ≠ '.' := by
  constructor
  · unfold isSpace
    simp only [Bool.or_eq_false_iff, Bool.and_eq_false_iff, decide_eq_false_iff_not]
    omega
  · rintro rfl
    exact absurd h.1 (by decide)

theorem toNat_of_upper {c : Char} (h : c.toUpper.isUpper = true ∨ c.toUpper.isDigit = true) :
    48 ≤ c.toNat ∧ c.toNat ≤ 122 := by
  unfold Char.toUpper at h
  split at h
  · rename_i hlower
    have h1 : (97 : ℕ) ≤ c.toNat := UInt32.le_iff_toNat_le.mp hlower.1
    have h2 : c.toNat ≤ 122 := UInt32.le_iff_toNat_le.mp hlower.2
    omega
  · rcases h with h | h
    · obtain ⟨hl, hu⟩ := of_decide_eq_true h
      have h1 : (65 : ℕ) ≤ c.toNat := UInt32.le_iff_toNat_le.mp hl
      have h2 : c.toNat ≤ 90 := UInt32.le_iff_toNat_le.mp hu
      omega
    · obtain ⟨hl, hu⟩ := Bool.and_eq_true_iff.mp h
      have h1 : (48 : ℕ) ≤ c.toNat := UInt32.le_iff_toNat_le.mp (of_decide_eq_true hl)
      have h2 : c.toNat ≤ 57 := UInt32.le_iff_toNat_le.mp (of_decide_eq_true hu)
      omega

theorem ends_of_reserved (h : p.map Char.toUpper ∈ windowsReserved) : Ends p := by
  intro c hc
  have hlast := List.all_eq_true.mp (reserved_shape _ h).2.2.2 _ (List.mem_map_of_mem (List.mem_of_getLast? hc))
  exact plain_of_toNat (toNat_of_upper (Bool.or_eq_true_iff.mp hlast))

theorem ends_untitled : Ends "untitled".toList := by
  intro c hc
  obtain rfl : 'd' = c := Option.some.inj ((show "untitled".toList.getLast? = some 'd' by decide +kernel).symm.trans hc)
  decide

theorem ends_cons {c : Char} (hp : p ≠ []) : Ends (c :: p) ↔ Ends p := by
  rw [Ends, List.getLast?_cons_of_ne_nil hp]
  rfl

/-- What a settled segment is: its name leaves nothing to strip. -/
theorem ends_filename : Ends (titleToWindowsFilename raw) ↔ Settled raw := by
  rcases filename_cases raw with ⟨hnil, hname⟩ | ⟨hreserved, hname⟩ | ⟨_, _, hname⟩
  · rw [hname, Settled, hnil]
    exact iff_of_true ends_untitled fun c hc => by cases hc
  · have hends := ends_of_reserved hreserved
    have hne : cleaned raw ≠ [] := fun hnil => (reserved_shape _ hreserved).1 (by rw [hnil, List.map_nil])
    have hlen := (reserved_shape _ hreserved).2.1
    rw [List.length_map] at hlen
    rw [hname, Settled, List.take_of_length_le (by omega)]
    exact iff_of_true ((ends_cons hne).mpr hends) hends
  · rw [hname]
    exact Iff.rfl

/-! ## a name again -/

/-- No two spaces in a row. -/
def Spaced (s : Text) : Prop := s.IsChain fun a b => a = ' ' → b ≠ ' '

/-- The names that stand for nothing and for the folder above. -/
theorem untitled_shape : "untitled".toList.head? = some 'u' ∧ Spaced "untitled".toList ∧
    "untitled".toList.map Char.toUpper ∉ windowsReserved ∧ "..".toList = ['.', '.'] := by
  unfold Spaced
  decide +kernel

theorem head?_collapseSpaces (s : Text) : (collapseSpaces s).head? = s.head? := by
  fun_induction collapseSpaces s with
  | case1 s ih => exact ih
  | case2 c s _ ih => rfl
  | case3 => rfl

theorem spaced_collapseSpaces (s : Text) : Spaced (collapseSpaces s) := by
  fun_induction collapseSpaces s with
  | case1 s ih => exact ih
  | case2 c s hne ih =>
    refine List.isChain_cons.mpr ⟨fun b hb hc hspace => ?_, ih⟩
    rw [head?_collapseSpaces] at hb
    obtain ⟨t, rfl⟩ := List.head?_eq_some_iff.mp hb
    exact hne t hc (by rw [hspace])
  | case3 => exact List.isChain_nil

theorem Spaced.within {t : Text} (h : Spaced t) (hst : s <:+: t) : Spaced s := by
  obtain ⟨pre, post, rfl⟩ := hst
  exact (List.IsChain.left_of_append h).right_of_append

theorem collapseSpaces_eq_self (h : Spaced s) : collapseSpaces s = s := by
  fun_induction collapseSpaces s with
  | case1 s ih => exact ((List.isChain_cons.mp h).1 ' ' rfl rfl rfl).elim
  | case2 c s hne ih => rw [ih (List.isChain_cons.mp h).2]
  | case3 => rfl

theorem cleaned_within (raw : Text) : cleaned raw <:+: blanked raw :=
  (List.rdropWhile_prefix _ _).isInfix.trans ((List.rdropWhile_prefix _ _).isInfix.trans (List.dropWhile_suffix _).isInfix)

theorem spaced_filename (raw : Text) : Spaced (titleToWindowsFilename raw) := by
  have hcleaned : Spaced (cleaned raw) := (spaced_collapseSpaces _).within (cleaned_within raw)
  rcases filename_cases raw with ⟨_, hname⟩ | ⟨_, hname⟩ | ⟨_, _, hname⟩
  · rw [hname]
    exact untitled_shape.2.1
  · rw [hname]
    exact List.isChain_cons.mpr ⟨fun b _ hc => absurd hc (by decide), hcleaned⟩
  · rw [hname]
    exact hcleaned.take 200

theorem blanked_eq_self (hchars : ∀ c ∈ s, windowsForbidden c = false) (hspaced : Spaced s) : blanked s = s := by
  have hmap : (s.map fun c => if windowsForbidden c then ' ' else c) = s := by
    conv_rhs => rw [← List.map_id s]
    refine List.map_congr_left fun c hc => ?_
    rw [hchars c hc]
    rfl
  rw [blanked, hmap, collapseSpaces_eq_self hspaced]

/-- Of a name, or of a part of it, only the ends are stripped. -/
theorem cleaned_of_within (h : s <:+: titleToWindowsFilename raw) : cleaned s = rstripChars ['.', ' '] (strip s) := by
  rw [cleaned, blanked_eq_self (fun c hc => (segment_titleToWindowsFilename raw).chars c (h.subset hc))
    ((spaced_filename raw).within h)]

theorem filename_ne {t : Text} (hhead : t.head? = some '.') (hlast : t.getLast? = some '.')
    (hlen : t.length < 200) : titleToWindowsFilename raw ≠ t := by
  rintro rfl
  rcases filename_cases raw with ⟨_, hname⟩ | ⟨_, hname⟩ | ⟨_, _, hname⟩
  · rw [hname, untitled_shape.1] at hhead
    cases hhead
  · rw [hname] at hhead
    cases hhead
  · -- too short to have been cut: the dots at the end have been stripped
    rw [hname, List.length_take] at hlen
    rw [hname, List.take_of_length_le (by omega)] at hlast
    have hkept := rdropWhile_eq_self.mp (List.rdropWhile_idempotent (fun c => decide (c ∈ ['.', ' ']))
      (strip (blanked raw))) '.' hlast
    simp at hkept

theorem safe_filename (raw : Text) : Safe (titleToWindowsFilename raw) := by
  have hseg := segment_titleToWindowsFilename raw
  have hlen : (titleToWindowsFilename raw).length ≤ 200 := List.length_take_le 200 _
  have hunreserved : (titleToWindowsFilename raw).map Char.toUpper ∉ windowsReserved := by
    rcases filename_cases raw with ⟨_, hname⟩ | ⟨_, hname⟩ | ⟨_, hfree, hname⟩
    · rw [hname]
      exact untitled_shape.2.2.1
    · intro hmem
      rw [hname] at hmem
      exact (reserved_shape _ hmem).2.2.1 rfl
    · intro hmem
      have hshort := (reserved_shape _ hmem).2.1
      rw [List.length_map, hname, List.length_take] at hshort
      rw [hname, List.take_of_length_le (by omega)] at hmem
      exact hfree hmem
  refine ⟨hseg.ne_nil, filename_ne (t := ['.']) rfl rfl (by decide), ?_, hunreserved, hlen, hseg.chars⟩
  rw [untitled_shape.2.2.2]
  exact filename_ne (t := ['.', '.']) rfl rfl (by decide)

/-- A name whose end is clean is its own name. -/
theorem filename_of_ends (h : Ends (titleToWindowsFilename raw)) :
    titleToWindowsFilename (titleToWindowsFilename raw) = titleToWindowsFilename raw := by
  have hsafe := safe_filename raw
  have hstrip : strip (titleToWindowsFilename raw) = titleToWindowsFilename raw := by
    refine stripBy_eq_self.mpr ⟨fun c hc => ?_, fun c hc => (h c hc).1⟩
    obtain ⟨d, hd, hspace⟩ := (segment_titleToWindowsFilename raw).head
    rw [hd] at hc
    cases hc
    exact hspace
  have hcleaned : cleaned (titleToWindowsFilename raw) = titleToWindowsFilename raw := by
    rw [cleaned_of_within (List.infix_refl _), hstrip]
    refine rdropWhile_eq_self.mpr fun c hc => decide_eq_false fun hmem => ?_
    obtain ⟨hspace, hdot⟩ := h c hc
    rcases List.mem_cons.mp hmem with rfl | hmem
    · exact hdot rfl
    · rw [List.mem_singleton.mp hmem] at hspace
      revert hspace
      decide
  rcases filename_cases (titleToWindowsFilename raw) with ⟨hnil, _⟩ | ⟨hreserved, _⟩ | ⟨_, _, hname⟩
  · rw [hcleaned] at hnil
    exact (hsafe.ne_nil hnil).elim
  · rw [hcleaned] at hreserved
    exact (hsafe.unreserved hreserved).elim
  · rw [hname, hcleaned, List.take_of_length_le hsafe.length]

/-- What has a name again, as it is or stripped, has a clean end. -/
theorem ends_of_again (hq : q = titleToWindowsFilename raw ∨ q = strip (titleToWindowsFilename raw))
    (h : titleToWindowsFilename q = titleToWindowsFilename raw) : Ends (titleToWindowsFilename raw) := by
  have hinfix : strip (titleToWindowsFilename raw) <:+: titleToWindowsFilename raw :=
    (List.rdropWhile_prefix _ _).isInfix.trans (List.dropWhile_suffix _).isInfix
  have hcleaned : cleaned q = rstripChars ['.', ' '] (strip (titleToWindowsFilename raw)) := by
    rcases hq with hq | hq
    · rw [hq]
      exact cleaned_of_within (List.infix_refl _)
    · rw [hq, cleaned_of_within hinfix, strip_strip]
  rcases filename_cases q with ⟨_, hname⟩ | ⟨hreserved, hname⟩ | ⟨_, _, hname⟩
  · rw [← h, hname]
    exact ends_untitled
  · rw [← h, hname, ends_cons]
    · exact ends_of_reserved hreserved
    · exact fun hnil => (reserved_shape _ hreserved).1 (by rw [hnil, List.map_nil])
  · -- nothing can have been stripped
    have hrstrip : (cleaned q).length ≤ (strip (titleToWindowsFilename raw)).length := by
      rw [hcleaned]
      exact (List.rdropWhile_prefix _ _).length_le
    have hstrip := hinfix.length_le
    have hle : (titleToWindowsFilename raw).length ≤ (cleaned q).length := by
      rw [← h, hname]
      exact List.length_take_le' 200 _
    have hsame : strip (titleToWindowsFilename raw) = titleToWindowsFilename raw :=
      hinfix.eq_of_length (by omega)
    have hsame' : rstripChars ['.', ' '] (titleToWindowsFilename raw) = titleToWindowsFilename raw := by
      rw [hsame] at hcleaned
      refine (List.rdropWhile_prefix _ _).eq_of_length ?_
      rw [← rstripChars, ← hcleaned]
      omega
    intro c hc
    refine ⟨(stripBy_eq_self.mp hsame).2 c hc, ?_⟩
    rintro rfl
    exact absurd (rdropWhile_eq_self.mp hsame' '.' hc) (by decide)

/-! ## a folder again -/

/-- The names that `normalize_folder` makes of a folder. -/
def names (folder : Text) : List Text := (pathSegments (strip folder)).map titleToWindowsFilename

theorem normalizeFolder_eq (h : normalizeFolder s = some folder) :
    folder = join '/' (names s) ∧ "..".toList ∉ pathSegments (strip s) := by
  unfold normalizeFolder at h
  dsimp only at h
  split at h
  · cases h
  · rename_i hdots
    exact ⟨(Option.some.inj h).symm, hdots⟩

theorem segments_names (s : Text) : Tags.Segments (names s) := by
  intro p hp
  obtain ⟨raw, _, rfl⟩ := List.mem_map.mp hp
  have hseg := segment_titleToWindowsFilename raw
  exact ⟨hseg.ne_nil, hseg.notMem (by decide)⟩

theorem join_inj {l l' : List Text} (h : Tags.Segments l) (h' : Tags.Segments l') (heq : join '/' l = join '/' l') :
    l = l' := by
  rw [← Tags.pathSegments_join h, ← Tags.pathSegments_join h', heq]

/-- The root has no names. -/
theorem join_names_eq_nil : join '/' (names s) = [] ↔ pathSegments (strip s) = [] := by
  constructor
  · intro hnil
    have hempty : Tags.Segments [] := fun _ hp => (nomatch hp)
    exact List.map_eq_nil_iff.mp (join_inj (segments_names s) hempty hnil)
  · intro hnil
    rw [names, hnil]
    rfl

/-- Whitespace is stripped off the last name only. -/
theorem strip_join {l : List Text} (hhead : ∀ p ∈ l, ∃ c, p.head? = some c ∧ isSpace c = false)
    (hp : ∃ c, p.head? = some c ∧ isSpace c = false) : strip (join '/' (l ++ [p])) = join '/' (l ++ [strip p]) := by
  obtain ⟨c, hc, hspace⟩ := hp
  obtain ⟨t, rfl⟩ := List.head?_eq_some_iff.mp hc
  have hdrop : (join '/' (l ++ [c :: t])).dropWhile isSpace = join '/' (l ++ [c :: t]) := by
    refine dropWhile_eq_self.mpr fun d hd => ?_
    cases l with
    | nil =>
      cases hd
      exact hspace
    | cons q l =>
      obtain ⟨e, he, hsp⟩ := hhead q List.mem_cons_self
      rw [List.cons_append, head?_join (by rintro rfl; cases he), he] at hd
      cases hd
      exact hsp
  have hself : (c :: t).dropWhile isSpace = c :: t := dropWhile_eq_self.mpr fun d hd => by
    cases hd
    exact hspace
  have hlast : strip (c :: t) = c :: t.rdropWhile isSpace := by
    rw [strip, stripBy, hself]
    exact rdropWhile_append_cons hspace [] t
  rw [hlast, strip, stripBy, hdrop]
  by_cases hl : l = []
  · rw [hl, List.nil_append, List.nil_append, join_singleton, join_singleton]
    exact rdropWhile_append_cons hspace [] t
  · have hjoin : join '/' l ++ '/' :: c :: t = (join '/' l ++ ['/']) ++ c :: t := by
      rw [List.append_assoc]
      rfl
    rw [join_concat hl, join_concat hl, hjoin, rdropWhile_append_cons hspace, List.append_assoc]
    rfl

theorem names_head {s : Text} : ∀ p ∈ names s, ∃ c, p.head? = some c ∧ isSpace c = false := by
  intro p hp
  obtain ⟨raw, _, rfl⟩ := List.mem_map.mp hp
  exact (segment_titleToWindowsFilename raw).head

theorem ends_stripped (h : Ends p) (hhead : ∃ c, p.head? = some c ∧ isSpace c = false) : strip p = p := by
  obtain ⟨c, hc, hspace⟩ := hhead
  refine stripBy_eq_self.mpr ⟨fun d hd => ?_, fun d hd => (h d hd).1⟩
  rw [hc] at hd
  cases hd
  exact hspace

/-- A list of names with clean ends. -/
def Clear (l : List Text) : Prop := ∀ p ∈ l, (∃ raw, titleToWindowsFilename raw = p) ∧ Ends p

theorem Clear.head {l : List Text} (h : Clear l) : ∀ p ∈ l, ∃ c, p.head? = some c ∧ isSpace c = false := by
  intro p hp
  obtain ⟨⟨raw, rfl⟩, _⟩ := h p hp
  exact (segment_titleToWindowsFilename raw).head

theorem Clear.segments {l : List Text} (h : Clear l) : Tags.Segments l := by
  intro p hp
  obtain ⟨⟨raw, rfl⟩, _⟩ := h p hp
  have hseg := segment_titleToWindowsFilename raw
  exact ⟨hseg.ne_nil, hseg.notMem (by decide)⟩

theorem Clear.strip_join {l : List Text} (h : Clear l) : strip (join '/' l) = join '/' l := by
  rcases List.eq_nil_or_concat l with rfl | ⟨l, p, rfl⟩
  · rfl
  · rw [List.concat_eq_append] at h ⊢
    have hhead := h.head
    have hp : p ∈ l ++ [p] := List.mem_append_right l (List.mem_singleton_self p)
    rw [Paths.strip_join (fun q hq => hhead q (List.mem_append_left _ hq)) (hhead p hp),
      ends_stripped (h p hp).2 (hhead p hp)]

/-- A folder of names with clean ends is normalised. -/
theorem Clear.normalizeFolder {l : List Text} (h : Clear l) : normalizeFolder (join '/' l) = some (join '/' l) := by
  have hself : l.map titleToWindowsFilename = l := by
    conv_rhs => rw [← List.map_id l]
    refine List.map_congr_left fun p hp => ?_
    obtain ⟨⟨raw, rfl⟩, hends⟩ := h p hp
    exact filename_of_ends hends
  unfold Links.normalizeFolder
  dsimp only
  rw [h.strip_join, Tags.pathSegments_join h.segments, hself, if_neg]
  intro hdots
  obtain ⟨⟨raw, hraw⟩, _⟩ := h _ hdots
  exact (safe_filename raw).ne_dots hraw

/-- A folder that is normalised again has names with clean ends. -/
theorem ends_of_normalizeFolder (h : normalizeFolder (join '/' (names s)) = some (join '/' (names s))) :
    ∀ p ∈ names s, Ends p := by
  have hagain := (normalizeFolder_eq h).1
  rcases List.eq_nil_or_concat (names s) with hnil | ⟨l, p, hconcat⟩
  · rw [hnil]
    exact fun _ hp => (nomatch hp)
  have hhead := names_head (s := s)
  have hsegs := segments_names s
  have hraw : ∀ p ∈ names s, ∃ raw, titleToWindowsFilename raw = p := fun p hp => by
    obtain ⟨raw, _, hraw⟩ := List.mem_map.mp hp
    exact ⟨raw, hraw⟩
  rw [List.concat_eq_append] at hconcat
  rw [hconcat] at hagain hhead hsegs hraw ⊢
  have hp : p ∈ l ++ [p] := List.mem_append_right l (List.mem_singleton_self p)
  have hrest : ∀ q ∈ l, q ∈ l ++ [p] := fun q hq => List.mem_append_left _ hq
  have hstripped : Tags.Segments (l ++ [strip p]) := by
    intro q hq
    rcases List.mem_append.mp hq with hq | hq
    · exact hsegs q (hrest q hq)
    · rw [List.mem_singleton.mp hq]
      obtain ⟨c, hc, hspace⟩ := hhead p hp
      refine ⟨fun hnil => ?_, fun hmem => (hsegs p hp).2 (mem_of_mem_strip hmem)⟩
      rw [strip_eq_nil.mp hnil c (List.mem_of_head? hc)] at hspace
      cases hspace
  have hnames : names (join '/' (l ++ [p])) = (l ++ [strip p]).map titleToWindowsFilename := by
    rw [names, strip_join (fun q hq => hhead q (hrest q hq)) (hhead p hp), Tags.pathSegments_join hstripped]
  have hlist := join_inj hsegs (segments_names _) hagain
  rw [hnames, List.map_append, List.map_singleton] at hlist
  obtain ⟨hl, hlast⟩ := List.append_inj' hlist (by simp only [List.length_singleton])
  intro q hq
  obtain ⟨raw, rfl⟩ := hraw q hq
  rcases List.mem_append.mp hq with hmem | hmem
  · obtain ⟨i, hi, hget⟩ := List.getElem_of_mem hmem
    have hsame : titleToWindowsFilename (titleToWindowsFilename raw) = titleToWindowsFilename raw := by
      have hat := congrArg (fun l => l[i]?) hl
      simp only [List.getElem?_map, List.getElem?_eq_getElem hi, hget, Option.map_some, Option.some.injEq] at hat
      exact hat.symm
    exact ends_of_again (.inl rfl) hsame
  · have heq := List.mem_singleton.mp hmem
    rw [← heq] at hlast
    exact ends_of_again (.inr rfl) (List.singleton_inj.mp hlast).symm

/-- **Normalised for good** are the folders whose segments are settled. -/
theorem normalizeFolder_again (h : normalizeFolder s = some folder) :
    normalizeFolder folder = some folder ↔ ∀ raw ∈ pathSegments (strip s), Settled raw := by
  have hends : (∀ p ∈ names s, Ends p) ↔ ∀ raw ∈ pathSegments (strip s), Settled raw := by
    rw [names, List.forall_mem_map]
    exact forall₂_congr fun raw _ => ends_filename
  have hnames : ∀ p ∈ names s, ∃ raw, titleToWindowsFilename raw = p := fun p hp => by
    obtain ⟨raw, _, hraw⟩ := List.mem_map.mp hp
    exact ⟨raw, hraw⟩
  rw [(normalizeFolder_eq h).1, ← hends]
  exact ⟨ends_of_normalizeFolder, fun hall => Clear.normalizeFolder fun p hp => ⟨hnames p hp, hall p hp⟩⟩

/-! ## a path that is read back -/

theorem pathSegments_eq_nil : pathSegments s = [] ↔ ∀ c ∈ s, c = '/' := by
  rw [pathSegments, List.filter_eq_nil_iff]
  constructor
  · intro h c hc
    by_contra hne
    rw [← join_split (c := '/') (s := s)] at hc
    rcases mem_of_mem_join hc with rfl | ⟨p, hp, hmem⟩
    · exact hne rfl
    · exact h p hp (decide_eq_true (List.ne_nil_of_mem hmem))
  · intro h p hp hne
    obtain ⟨c, hc⟩ := List.exists_mem_of_ne_nil p (of_decide_eq_true hne)
    have hslash := h c (mem_of_mem_split hp hc)
    exact notMem_of_mem_split hp (hslash ▸ hc)

/-- A folder that is its own normal form is the join of names with clean ends. -/
theorem clear_of_normalized (h : normalizeFolder folder = some folder) :
    Clear (pathSegments folder) ∧ join '/' (pathSegments folder) = folder := by
  have heq := (normalizeFolder_eq h).1
  have hsegs : pathSegments folder = names folder := by
    conv_lhs => rw [heq]
    exact Tags.pathSegments_join (segments_names folder)
  have hends : ∀ p ∈ names folder, Ends p := ends_of_normalizeFolder (by rw [← heq]; exact h)
  rw [hsegs]
  refine ⟨fun p hp => ⟨?_, hends p hp⟩, heq.symm⟩
  obtain ⟨raw, _, hraw⟩ := List.mem_map.mp hp
  exact ⟨raw, hraw⟩

/-- The folder that `split_target` makes of the text before the last slash. -/
def readFolder (folderPart : Text) : Text := (normalizeFolder folderPart).getD folderPart

theorem readFolder_root : readFolder s = [] ↔ ∀ c ∈ strip s, c = '/' := by
  rw [← pathSegments_eq_nil, readFolder]
  cases hnormal : normalizeFolder s with
  | none =>
    rw [Option.getD_none]
    unfold normalizeFolder at hnormal
    dsimp only at hnormal
    split at hnormal
    · rename_i hdots
      constructor
      · rintro rfl
        cases hdots
      · intro hnil
        rw [hnil] at hdots
        cases hdots
    · cases hnormal
  | some folder =>
    obtain ⟨rfl, _⟩ := normalizeFolder_eq hnormal
    rw [Option.getD_some]
    exact join_names_eq_nil

/-- Whether more than slashes and blanks follow a folder. -/
theorem readFolder_append (h : normalizeFolder folder = some folder) (hne : folder ≠ []) :
    readFolder (folder ++ '/' :: t) = folder ↔ ∀ c ∈ t.rdropWhile isSpace, c = '/' := by
  obtain ⟨hclear, hjoin⟩ := clear_of_normalized h
  obtain ⟨c, hc, hspace, _⟩ := head?_of_normalized h hne
  have hstrip : strip (folder ++ '/' :: t) = folder ++ '/' :: t.rdropWhile isSpace := by
    rw [strip, stripBy, dropWhile_eq_self.mpr]
    · exact rdropWhile_append_cons (by decide) folder t
    · intro d hd
      rw [List.head?_append_of_ne_nil _ hne, hc] at hd
      cases hd
      exact hspace
  have hsegs : pathSegments (strip (folder ++ '/' :: t)) =
      pathSegments folder ++ pathSegments (t.rdropWhile isSpace) := by
    rw [hstrip, Tags.pathSegments_append]
  have hself := (normalizeFolder_eq hclear.normalizeFolder).1
  rw [names, hclear.strip_join, Tags.pathSegments_join hclear.segments] at hself
  rw [← pathSegments_eq_nil, readFolder]
  cases hnormal : normalizeFolder (folder ++ '/' :: t) with
  | none =>
    rw [Option.getD_none]
    constructor
    · intro heq
      have hlen := congrArg List.length heq
      rw [List.length_append, List.length_cons] at hlen
      omega
    · intro hnil
      unfold normalizeFolder at hnormal
      dsimp only at hnormal
      rw [hsegs, hnil, List.append_nil] at hnormal
      split at hnormal
      · rename_i hdots
        obtain ⟨⟨raw, hraw⟩, _⟩ := hclear _ hdots
        exact ((safe_filename raw).ne_dots hraw).elim
      · cases hnormal
  | some folder' =>
    obtain ⟨rfl, _⟩ := normalizeFolder_eq hnormal
    rw [Option.getD_some]
    constructor
    · intro heq
      have hlist := join_inj (segments_names _) hclear.segments (heq.trans hjoin.symm)
      have hlen := congrArg List.length hlist
      rw [names, hsegs, List.length_map, List.length_append] at hlen
      exact List.length_eq_zero_iff.mp (by omega)
    · intro hnil
      rw [names, hsegs, hnil, List.append_nil, ← hself, hjoin]

/-- Seen from the right, the title is not blank, and before its last slash stand slashes and blanks only; in the
root it may be blank. -/
def TitleReads (s title : Text) : Prop :=
  if pathSegments (strip s) = [] then ∀ c ∈ strip (rpartition '/' (stripChars ['/'] (strip title))).1, c = '/'
  else rstripChars ['/'] (title.rdropWhile isSpace) ≠ [] ∧
    ∀ c ∈ (rpartition '/' (rstripChars ['/'] (title.rdropWhile isSpace))).1.rdropWhile isSpace, c = '/'

theorem rpartition_lt (h : normalizeFolder folder = some folder) (hne : folder ≠ []) :
    readFolder (rpartition '/' folder).1 ≠ folder := by
  obtain ⟨hclear, hjoin⟩ := clear_of_normalized h
  rcases List.eq_nil_or_concat (pathSegments folder) with hnil | ⟨l, p, hconcat⟩
  · rw [hnil] at hjoin
    exact (hne hjoin.symm).elim
  rw [List.concat_eq_append] at hconcat
  rw [hconcat] at hclear hjoin
  have hslash : '/' ∉ p := (hclear.segments p (List.mem_append_right l (List.mem_singleton_self p))).2
  by_cases hl : l = []
  · rw [hl, List.nil_append, join_singleton] at hjoin
    rw [← hjoin, rpartition_of_notMem hslash]
    intro heq
    rw [← hjoin, ← heq] at hne
    exact hne rfl
  · rw [join_concat hl] at hjoin
    have hrest : Clear l := fun q hq => hclear q (List.mem_append_left _ hq)
    rw [← hjoin, rpartition_append hslash, readFolder, hrest.normalizeFolder, Option.getD_some]
    intro heq
    have hlen := congrArg List.length heq
    rw [List.length_append, List.length_cons] at hlen
    omega

/-- **Read back**: what `split_target` makes of the full path of a note. -/
theorem splitTarget_folder (hs : normalizeFolder s = some folder) (h : normalizeFolder folder = some folder) :
    (splitTarget (joinTarget folder title)).1 = folder ↔ TitleReads s title := by
  have hread : ∀ target, (splitTarget target).1 = readFolder (rpartition '/' (stripChars ['/'] (strip target))).1 :=
    fun target => by simp only [splitTarget, readFolder]
  have hroot : pathSegments (strip s) = [] ↔ folder = [] := by
    rw [(normalizeFolder_eq hs).1]
    exact join_names_eq_nil.symm
  rw [hread, TitleReads]
  by_cases hne : folder = []
  · rw [if_pos (hroot.mpr hne), hne, joinTarget, if_pos rfl]
    exact readFolder_root
  rw [if_neg (mt hroot.mp hne), joinTarget, if_neg hne]
  obtain ⟨c, hc, hspace, hslash⟩ := head?_of_normalized h hne
  obtain ⟨hclear, hjoin⟩ := clear_of_normalized h
  have hhead : ∀ x : Text, (folder ++ x).head? = some c := fun x => by
    rw [List.head?_append_of_ne_nil _ hne, hc]
  have hstrip : strip (folder ++ '/' :: title) = folder ++ '/' :: title.rdropWhile isSpace := by
    rw [strip, stripBy, dropWhile_eq_self.mpr]
    · exact rdropWhile_append_cons (by decide) folder title
    · intro d hd
      rw [hhead] at hd
      cases hd
      exact hspace
  have hlast : folder.rdropWhile (fun c => decide (c ∈ ['/'])) = folder := by
    refine rdropWhile_eq_self.mpr fun d hd => decide_eq_false fun hmem => ?_
    obtain rfl := List.mem_singleton.mp hmem
    rcases List.eq_nil_or_concat (pathSegments folder) with hnil | ⟨l, p, hconcat⟩
    · rw [hnil] at hjoin
      exact hne hjoin.symm
    · rw [List.concat_eq_append] at hconcat
      have hp := hclear.segments p (hconcat ▸ List.mem_append_right l (List.mem_singleton_self p))
      rw [← hjoin, hconcat, getLast?_join hp.1] at hd
      exact hp.2 (List.mem_of_getLast? hd)
  set t := rstripChars ['/'] (title.rdropWhile isSpace) with ht
  have hslashes : stripChars ['/'] (folder ++ '/' :: title.rdropWhile isSpace) =
      if t = [] then folder else folder ++ '/' :: t := by
    rw [stripChars, stripBy, dropWhile_eq_self.mpr]
    · show List.rdropWhile _ (folder ++ (['/'] ++ title.rdropWhile isSpace)) = _
      rw [rdropWhile_append, rdropWhile_append ['/'], ← rstripChars, ← ht, hlast]
      by_cases htnil : t = []
      · rw [if_pos htnil, if_pos htnil, if_pos (by decide)]
      · rw [if_neg htnil, if_neg htnil, if_neg (by simp)]
        rfl
    · intro d hd
      rw [hhead] at hd
      cases hd
      simpa using hslash
  rw [hstrip, hslashes]
  by_cases htnil : t = []
  · rw [if_pos htnil]
    exact iff_of_false (rpartition_lt h hne) fun hreads => hreads.1 htnil
  · rw [if_neg htnil]
    by_cases hmem : '/' ∈ t
    · obtain ⟨a, b, hsplit, hb⟩ := exists_last hmem
      have hsplit' : folder ++ '/' :: (a ++ '/' :: b) = (folder ++ '/' :: a) ++ '/' :: b := by
        rw [List.append_assoc]
        rfl
      rw [hsplit, hsplit', rpartition_append hb, rpartition_append hb, readFolder_append h hne]
      exact ⟨fun hall => ⟨hsplit ▸ htnil, hall⟩, fun hall => hall.2⟩
    · rw [rpartition_append hmem, rpartition_of_notMem hmem, readFolder, h, Option.getD_some]
      exact iff_of_true rfl ⟨htnil, fun _ hd => (by cases hd)⟩

/-! ## the statement -/

/-- `Path.resolve` below a root: `..` leaves a directory, nothing and `.` stay. -/
def descend (root : List Text) : List Text → List Text
  | [] => root
  | p :: rest =>
    if p = "..".toList then descend root.dropLast rest
    else if p = [] ∨ p = ['.'] then descend root rest
    else descend (root ++ [p]) rest

theorem descend_safe {l : List Text} (h : ∀ p ∈ l, Safe p) (root : List Text) : descend root l = root ++ l := by
  induction l generalizing root with
  | nil => exact (List.append_nil root).symm
  | cons p l ih =>
    have hp := h p List.mem_cons_self
    unfold descend
    rw [if_neg hp.ne_dots, if_neg (not_or.mpr ⟨hp.ne_nil, hp.ne_dot⟩), ih fun q hq => h q (List.mem_cons_of_mem p hq),
      List.append_assoc]
    rfl

/-- A normalised folder has safe segments, and does not leave the directory it is in. -/
theorem safe_of_normalized (h : normalizeFolder s = some folder) : (folder ≠ [] → ∀ p ∈ split '/' folder, Safe p) ∧
    ∀ root, descend root (split '/' folder) = root ++ pathSegments folder := by
  obtain ⟨rfl, _⟩ := normalizeFolder_eq h
  have hsafe : ∀ p ∈ names s, Safe p := fun p hp => by
    obtain ⟨raw, _, rfl⟩ := List.mem_map.mp hp
    exact safe_filename raw
  by_cases hnil : names s = []
  · rw [hnil]
    exact ⟨fun hne => (hne rfl).elim, fun root => (List.append_nil root).symm⟩
  · rw [split_join hnil fun p hp => (segments_names s p hp).2, Tags.pathSegments_join (segments_names s)]
    exact ⟨fun _ => hsafe, descend_safe hsafe⟩

/-- **Safe, stable and read back** is a folder whose segments are settled, with a title that reads. -/
theorem normalizeFolder_stable (h : normalizeFolder s = some folder) (title : Text) :
    ((folder ≠ [] → ∀ p ∈ split '/' folder, Safe p) ∧
      (∀ root, descend root (split '/' folder) = root ++ pathSegments folder) ∧
      normalizeFolder folder = some folder ∧ (splitTarget (joinTarget folder title)).1 = folder) ↔
    (∀ raw ∈ pathSegments (strip s), Settled raw) ∧ TitleReads s title := by
  obtain ⟨hsafe, hbelow⟩ := safe_of_normalized h
  rw [← normalizeFolder_again h]
  constructor
  · rintro ⟨_, _, hagain, hread⟩
    exact ⟨hagain, (splitTarget_folder h hagain).mp hread⟩
  · rintro ⟨hagain, htitle⟩
    exact ⟨hsafe, hbelow, hagain, (splitTarget_folder h hagain).mpr htitle⟩

instance : Decidable (Ends p) :=
  match h : p.getLast? with
  | none => isTrue fun _ hc => nomatch h.symm.trans hc
  | some d => decidable_of_iff (isSpace d = false ∧ d ≠ '.')
      ⟨fun hd _ hc => Option.some.inj (h.symm.trans hc) ▸ hd, fun hall => hall d h⟩

instance : Decidable (Settled raw) := inferInstanceAs (Decidable (Ends _))

instance : Decidable (TitleReads s title) :=
  decidable_of_iff (if pathSegments (strip s) = [] then
      ((strip (rpartition '/' (stripChars ['/'] (strip title))).1).all (· = '/')) = true
    else rstripChars ['/'] (title.rdropWhile isSpace) ≠ [] ∧
      (((rpartition '/' (rstripChars ['/'] (title.rdropWhile isSpace))).1.rdropWhile isSpace).all (· = '/')) = true)
    (by simp only [TitleReads, List.all_eq_true, decide_eq_true_eq])

/-- A reserved name and a forbidden character; the title has a slash at its end only. -/
theorem normalizeFolder_stable_plan : ∃ folder, folder = "Projekty/_CON/a b".toList ∧
    normalizeFolder folder = some folder ∧ (splitTarget (joinTarget folder "Plan /".toList)).1 = folder := by
  have h : normalizeFolder " Projekty/CON./a:b".toList = some "Projekty/_CON/a b".toList := by decide +kernel
  obtain ⟨_, _, hagain, hread⟩ := (normalizeFolder_stable h "Plan /".toList).mpr (by decide +kernel)
  exact ⟨_, rfl, hagain, hread⟩

/-- A space that does not break is left before a dot, and stripped the second time. -/
theorem folder_drifts : normalizeFolder "a\u00a0.".toList = some "a\u00a0".toList ∧
    normalizeFolder "a\u00a0".toList = some "a".toList ∧
    (splitTarget (joinTarget "a\u00a0".toList "Plan".toList)).1 = "a".toList := by
  refine ⟨?_, ?_, ?_⟩
  · decide +kernel
  · decide +kernel
  · decide +kernel

end Kajet.Paths
