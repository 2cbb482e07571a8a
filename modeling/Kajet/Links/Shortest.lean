import Kajet.Lib.Table
import Kajet.Links.Index
import Kajet.Links.Wikilink

/-!
# What `shortest_target` writes

* `splitTarget_joinTarget`   the full path of a normalised folder and a clean title is read back;
* `resolve_joinTarget`       a full path that is read back resolves to its note;
* `Writable`, `writable_iff`   the new target can stand in a wikilink and resolves to the note;
* `Clean.writable`           a condition on the note's folder and title alone.
-/

namespace Kajet.Links
open Str Table

/-! ## segments of a stored path -/

theorem collapseSpaces_sublist (s : Text) : (collapseSpaces s).Sublist s := by
  fun_induction collapseSpaces s with
  | case1 s ih => exact ih.trans (List.sublist_cons_self ' ' _)
  | case2 c s _ ih => exact ih.cons_cons c
  | case3 => exact List.Sublist.slnil

/-- What a path segment looks like after `title_to_windows_filename`. -/
structure Segment (p : Text) : Prop where
  head : ∃ c, p.head? = some c ∧ isSpace c = false
  chars : ∀ c ∈ p, windowsForbidden c = false

theorem Segment.ne_nil {p : Text} (h : Segment p) : p ≠ [] := by
  obtain ⟨c, hc, _⟩ := h.head
  rintro rfl
  cases hc

theorem Segment.notMem {p : Text} (h : Segment p) {c : Char} (hc : windowsForbidden c = true) : c ∉ p := by
  intro hmem
  rw [h.chars c hmem] at hc
  cases hc

theorem segment_titleToWindowsFilename (title : Text) : Segment (titleToWindowsFilename title) := by
  let spaced := collapseSpaces (title.map fun c => if windowsForbidden c then ' ' else c)
  let stripped := rstripChars ['.', ' '] (strip spaced)
  have hspaced : ∀ c ∈ spaced, windowsForbidden c = false := by
    intro c hc
    obtain ⟨d, _, rfl⟩ := List.mem_map.mp ((collapseSpaces_sublist _).subset hc)
    cases hd : windowsForbidden d with
    | true => rfl
    | false => simpa using hd
  have hhead : stripped <+: strip spaced := List.rdropWhile_prefix _ _
  have hstripped : stripped = [] ∨ Segment stripped := by
    rw [or_iff_not_imp_left]
    intro hne
    refine ⟨⟨stripped.head hne, List.head?_eq_some_head hne, ?_⟩, fun c hc =>
      hspaced c (mem_of_mem_strip (hhead.subset hc))⟩
    obtain ⟨post, hpost⟩ := hhead
    apply (stripBy_eq_self.mp (strip_strip (s := spaced))).1
    rw [← hpost, List.head?_append_of_ne_nil _ hne, List.head?_eq_some_head hne]
  let named := if stripped.map Char.toUpper ∈ windowsReserved then '_' :: stripped else stripped
  have hnamed : named = [] ∨ Segment named := by
    show (if _ then _ else _) = [] ∨ Segment (if _ then _ else _)
    split
    · refine .inr ⟨⟨'_', rfl, by decide⟩, ?_⟩
      intro c hc
      rcases List.mem_cons.mp hc with rfl | hc
      · decide
      · rcases hstripped with hnil | hseg
        · rw [hnil] at hc
          cases hc
        · exact hseg.chars c hc
    · exact hstripped
  let whole := if named = [] then "untitled".toList else named
  have hwhole : Segment whole := by
    show Segment (if _ then _ else _)
    split
    · have huntitled : "untitled".toList.all (fun c => !windowsForbidden c) = true := by decide +kernel
      refine ⟨⟨'u', by decide +kernel, by decide⟩, fun c hc => ?_⟩
      simpa using List.all_eq_true.mp huntitled c hc
    · rename_i hne
      exact hnamed.resolve_left hne
  obtain ⟨c, hc, hspace⟩ := hwhole.head
  refine ⟨⟨c, ?_, hspace⟩, fun d hd => hwhole.chars d (List.mem_of_mem_take hd)⟩
  show (whole.take 200).head? = some c
  rw [List.head?_take, if_neg (by decide)]
  exact hc

/-- The segments of a folder that `normalize_folder` leaves alone. -/
theorem segments_of_normalized {folder : Text} (h : normalizeFolder folder = some folder) :
    join '/' (pathSegments folder) = folder ∧ ∀ p ∈ pathSegments folder, Segment p := by
  unfold normalizeFolder at h
  dsimp only at h
  split at h
  · cases h
  · have hfolder := Option.some.inj h
    let parts := (pathSegments (strip folder)).map titleToWindowsFilename
    have hparts : ∀ p ∈ parts, Segment p := by
      intro p hp
      obtain ⟨q, _, rfl⟩ := List.mem_map.mp hp
      exact segment_titleToWindowsFilename q
    have hsegments : pathSegments folder = parts := by
      by_cases hnil : parts = []
      · have hempty : folder = [] := by
          rw [← hfolder]
          exact congrArg (join '/') hnil
        rw [hnil, hempty]
        rfl
      · rw [← hfolder, pathSegments, split_join hnil fun p hp => (hparts p hp).notMem (by decide)]
        exact List.filter_eq_self.mpr fun p hp => by simpa using (hparts p hp).ne_nil
    exact ⟨by rw [hsegments]; exact hfolder, by rwa [hsegments]⟩

/-- The first character of a normalised folder. -/
theorem head?_of_normalized {folder : Text} (h : normalizeFolder folder = some folder)
    (hne : folder ≠ []) : ∃ c, folder.head? = some c ∧ isSpace c = false ∧ c ≠ '/' := by
  obtain ⟨hjoin, hsegments⟩ := segments_of_normalized h
  cases hparts : pathSegments folder with
  | nil =>
    rw [hparts] at hjoin
    exact absurd hjoin.symm hne
  | cons p l =>
    rw [hparts] at hjoin hsegments
    have hp := hsegments p List.mem_cons_self
    obtain ⟨c, hc, hspace⟩ := hp.head
    refine ⟨c, ?_, hspace, ?_⟩
    · rw [← hjoin, head?_join hp.ne_nil, hc]
    · rintro rfl
      exact hp.notMem (by decide) (List.mem_of_head? hc)

/-- "Inverse of `split_target` for a full path." -/
theorem splitTarget_joinTarget {folder title : Text} (hfolder : normalizeFolder folder = some folder)
    (htitle : strip title = title) (hne : title ≠ []) (hslash : '/' ∉ title) :
    splitTarget (joinTarget folder title) = (folder, title) := by
  have hends := stripBy_eq_self.mp htitle
  have hnoslash : ∀ c, title.getLast? = some c → decide (c ∈ ['/']) = false := by
    intro c hc
    simp only [List.mem_singleton, decide_eq_false_iff_not]
    rintro rfl
    exact hslash (List.mem_of_getLast? hc)
  by_cases hroot : folder = []
  · subst hroot
    have hstrip : stripChars ['/'] title = title := by
      refine stripBy_eq_self.mpr ⟨?_, hnoslash⟩
      intro c hc
      simp only [List.mem_singleton, decide_eq_false_iff_not]
      rintro rfl
      exact hslash (List.mem_of_head? hc)
    rw [splitTarget, joinTarget, if_pos rfl, htitle, hstrip, rpartition_of_notMem hslash]
    simp only [hfolder, htitle, Option.getD_some]
  · obtain ⟨d, hd, hspace, hdslash⟩ := head?_of_normalized hfolder hroot
    have hhead : (folder ++ '/' :: title).head? = some d := by
      rw [List.head?_append, hd, Option.some_or]
    have hlast : (folder ++ '/' :: title).getLast? = title.getLast? := by
      rw [List.getLast?_append, List.getLast?_cons_of_ne_nil hne, List.getLast?_eq_some_getLast hne,
        Option.some_or]
    have hstrip : ∀ p : Char → Bool, p d = false → (∀ c, title.getLast? = some c → p c = false) →
        stripBy p (folder ++ '/' :: title) = folder ++ '/' :: title := by
      intro p hpd hplast
      refine stripBy_eq_self.mpr ⟨?_, ?_⟩
      · intro c hc
        rw [hhead] at hc
        cases hc
        exact hpd
      · rwa [hlast]
    have hspaces : strip (folder ++ '/' :: title) = folder ++ '/' :: title :=
      hstrip isSpace hspace hends.2
    have hslashes : stripChars ['/'] (folder ++ '/' :: title) = folder ++ '/' :: title :=
      hstrip _ (by simpa using hdslash) hnoslash
    rw [splitTarget, joinTarget, if_neg hroot, hspaces, hslashes, rpartition_append hslash]
    simp only [hfolder, htitle, Option.getD_some]

/-! ## targets that name one note -/

section
variable {casefold : Text → Text} {notes : List IndexedNote} {note w : IndexedNote}
  {target source : Text} {minSegments : Nat}

@[simp] theorem splitTarget_strip : splitTarget (strip target) = splitTarget target := by
  rw [splitTarget, splitTarget, strip_strip]

@[simp] theorem resolve_strip {allowCasefold : Bool} :
    resolve casefold notes (strip target) source allowCasefold =
      resolve casefold notes target source allowCasefold := by
  rw [resolve, resolve, resolveDetailed, resolveDetailed, splitTarget_strip]

theorem resolve_exact : resolve casefold notes target source false = some w ↔
    Chosen (exactMatch target) (linkRank target source) notes w := by
  rw [resolve_eq_head?, candidates, Bool.and_false, if_neg Bool.false_ne_true, chosen_exact]

/-- The fallback is not used where there is an exact match. -/
theorem resolve_of_exact (h : resolve casefold notes target source false = some w) :
    resolve casefold notes target source true = some w :=
  resolve_eq_some.mpr (.inl (resolve_exact.mp h))

/-- The note is in the index, under an id, and under a folder and title, that no other note has. -/
structure Distinct (notes : List IndexedNote) (note : IndexedNote) : Prop where
  mem : note ∈ notes
  id : ∀ c ∈ notes, c.noteId = note.noteId → c = note
  path : ∀ c ∈ notes, c.folder = note.folder → c.title = note.title → c = note

theorem hits_iff (h : Distinct notes note) : hits casefold notes note source target = true ↔
    Chosen (exactMatch target) (linkRank target source) notes note := by
  rw [hits, Option.any_eq_true]
  constructor
  · rintro ⟨w, hw, hid⟩
    have hchosen := resolve_exact.mp hw
    rwa [h.id w hchosen.mem (of_decide_eq_true hid)] at hchosen
  · exact fun hchosen => ⟨note, resolve_exact.mpr hchosen, decide_eq_true rfl⟩

/-- A full path that is read back is exact: its own note comes first. -/
theorem resolve_joinTarget (h : Distinct notes note)
    (hpath : splitTarget (joinTarget note.folder note.title) = (note.folder, note.title)) :
    resolve casefold notes (joinTarget note.folder note.title) source true = some note := by
  refine resolve_of_exact (resolve_exact.mpr ⟨?_, ?_, ?_⟩)
  · simp [exactMatch, hpath, folderMatches]
  · intro c hc hcm
    simp only [exactMatch, hpath, Bool.and_eq_true, decide_eq_true_eq] at hcm
    by_cases hfolder : c.folder = note.folder
    · rw [h.path c hc hfolder hcm.1]
    · rw [linkRank, linkRank, hpath, rank, rank, if_pos rfl, if_neg hfolder]
      exact (Prod.Lex.toLex_lt_toLex.mpr (.inl Nat.zero_lt_one)).le
  · have hall : ∀ c ∈ notes.filter (fun c => c.folder = note.folder ∧ c.title = note.title),
        c = note := by
      intro c hc
      obtain ⟨hc, hkey⟩ := List.mem_filter.mp hc
      obtain ⟨hfolder, htitle⟩ := of_decide_eq_true hkey
      exact h.path c hc hfolder htitle
    cases hfilter : notes.filter fun c => c.folder = note.folder ∧ c.title = note.title with
    | nil =>
      have hnot := List.filter_eq_nil_iff.mp hfilter note h.mem
      simp at hnot
    | cons c l =>
      rw [List.head?_cons, hall c (by rw [hfilter]; exact List.mem_cons_self)]

end

/-! ## writing the new target -/

theorem noMarks_join {l : List Text} : NoMarks (join '/' l) ↔ ∀ p ∈ l, NoMarks p := by
  constructor
  · exact fun h p hp c hc => h c (mem_join_of_mem hp hc)
  · intro h c hc
    rcases mem_of_mem_join hc with rfl | ⟨p, hp, hc⟩
    · decide
    · exact h p hp c hc

theorem mem_pathSuffixes {note : IndexedNote} {minSegments : Nat} {s : Text} :
    s ∈ pathSuffixes note minSegments ↔ ∃ length, max 1 minSegments ≤ length ∧
      length < (pathSegments note.folder).length + 1 ∧
      join '/' ((pathSegments note.folder ++ [note.title]).drop
        ((pathSegments note.folder).length + 1 - length)) = s := by
  simp only [pathSuffixes, List.mem_map, List.mem_range'_1, List.length_append, List.length_singleton]
  constructor
  · rintro ⟨length, ⟨h1, h2⟩, rfl⟩
    exact ⟨length, h1, by omega, rfl⟩
  · rintro ⟨length, h1, h2, rfl⟩
    exact ⟨length, ⟨h1, by omega⟩, rfl⟩

theorem noMarks_of_joinTarget {note : IndexedNote} {minSegments : Nat} {s : Text}
    (h : NoMarks (joinTarget note.folder note.title)) (hs : s ∈ pathSuffixes note minSegments) :
    NoMarks s := by
  obtain ⟨length, _, _, rfl⟩ := mem_pathSuffixes.mp hs
  refine noMarks_join.mpr fun p hp c hc => h c ?_
  unfold joinTarget
  rcases List.mem_append.mp (List.mem_of_mem_drop hp) with hp | hp
  · have hfolder : c ∈ note.folder := mem_of_mem_split (List.mem_of_mem_filter hp) hc
    rw [if_neg (List.ne_nil_of_mem hfolder)]
    exact List.mem_append_left _ hfolder
  · obtain rfl := List.mem_singleton.mp hp
    split
    · exact hc
    · exact List.mem_append_right _ (List.mem_cons_of_mem _ hc)

/-- The title stands at the end, after a separator if after anything. -/
theorem title_of_mem_pathSuffixes {note : IndexedNote} {minSegments : Nat} {s : Text}
    (h : s ∈ pathSuffixes note minSegments) : s = note.title ∨ ∃ u, s = u ++ '/' :: note.title := by
  obtain ⟨length, h1, h2, rfl⟩ := mem_pathSuffixes.mp h
  rw [List.drop_append_of_le_length (by omega)]
  by_cases hnil : (pathSegments note.folder).drop ((pathSegments note.folder).length + 1 - length) = []
  · rw [hnil]
    exact .inl join_singleton
  · exact .inr ⟨_, join_concat hnil⟩

theorem title_of_shortestTarget (casefold : Text → Text) (notes : List IndexedNote) (note : IndexedNote)
    (source : Text) (minSegments : Nat) :
    let s := shortestTarget casefold notes note source minSegments
    s = note.title ∨ ∃ u, s = u ++ '/' :: note.title := by
  dsimp only
  rw [shortestTarget]
  cases hfind : (pathSuffixes note minSegments).find? (hits casefold notes note source) with
  | some s => exact title_of_mem_pathSuffixes (List.mem_of_find?_eq_some hfind)
  | none =>
    rw [Option.getD_none, joinTarget]
    split
    · exact .inl rfl
    · exact .inr ⟨note.folder, rfl⟩

/-- A new target that can stand in place of `old` in a wikilink. -/
structure Fits (old s : Text) : Prop where
  marks : NoMarks s
  blank : strip s ≠ []
  noPrefix : xwsNoteId old = none → xwsNoteId (strip s) = none

/-- The shortest path suffix that resolves to the note, with at least the segments of `old`, can
stand in its place; or no suffix resolves to the note, and the whole path does and can. -/
def Writable (casefold : Text → Text) (notes : List IndexedNote) (note : IndexedNote)
    (source old : Text) : Prop :=
  (∃ before s after, pathSuffixes note (pathSegments old).length = before ++ s :: after ∧
    (∀ a ∈ before, hits casefold notes note source a = false) ∧
      hits casefold notes note source s = true ∧ Fits old s) ∨
  (∀ s ∈ pathSuffixes note (pathSegments old).length, hits casefold notes note source s = false) ∧
    Fits old (joinTarget note.folder note.title) ∧
      resolve casefold notes (joinTarget note.folder note.title) source true = some note

section
variable {casefold : Text → Text} {notes : List IndexedNote} {note : IndexedNote} {source old : Text}

theorem resolve_of_hits (h : Distinct notes note) {s : Text}
    (hs : hits casefold notes note source s = true) :
    resolve casefold notes s source true = some note :=
  resolve_of_exact (resolve_exact.mpr ((hits_iff h).mp hs))

/-- What the condition says of the target that `shortest_target` gives. -/
theorem writable_iff (h : Distinct notes note) : Writable casefold notes note source old ↔
    let s := shortestTarget casefold notes note source (pathSegments old).length
    Fits old s ∧ resolve casefold notes s source true = some note := by
  dsimp only
  rw [shortestTarget, Writable]
  cases hfind : (pathSuffixes note (pathSegments old).length).find?
      (hits casefold notes note source) with
  | none =>
    have hno := List.find?_eq_none.mp hfind
    rw [Option.getD_none]
    constructor
    · rintro (⟨before, s, after, hsplit, _, hhit, _⟩ | ⟨_, hfits⟩)
      · exact absurd hhit (hno s (by rw [hsplit]; exact List.mem_append_cons_self))
      · exact hfits
    · exact fun hfits => .inr ⟨fun s hs => by simpa using hno s hs, hfits⟩
  | some s =>
    obtain ⟨hhit, before, after, hsplit, hbefore⟩ := List.find?_eq_some_iff_append.mp hfind
    rw [Option.getD_some]
    constructor
    · rintro (⟨before', s', after', hsplit', hbefore', hhit', hfits⟩ | ⟨hno, _⟩)
      · have hfind' := List.find?_eq_some_iff_append.mpr
          ⟨hhit', before', after', hsplit', fun a ha => by simp [hbefore' a ha]⟩
        rw [hfind] at hfind'
        cases hfind'
        exact ⟨hfits, resolve_of_hits h hhit⟩
      · have hfalse := hno s (List.mem_of_find?_eq_some hfind)
        rw [hhit] at hfalse
        cases hfalse
    · exact fun hfits => .inl ⟨before, s, after, hsplit, fun a ha => by simpa using hbefore a ha,
        hhit, hfits.1⟩

/-- A target of a titled note is not blank. -/
theorem strip_ne_nil {target : Text} (htitle : note.title ≠ [])
    (h : (splitTarget target).2 = note.title) : strip target ≠ [] := by
  intro hnil
  rw [← splitTarget_strip, hnil] at h
  exact htitle h.symm

end

theorem xwsNoteId_eq_none {s : Text} : xwsNoteId s = none ↔ ¬ "note:".toList <+: s := by
  rw [xwsNoteId, removePrefix, Option.map_eq_none_iff]
  simp

/-- A path does not begin with `note:` unless its first segment does. -/
theorem xwsNoteId_join {p : Text} {l : List Text} (hspace : ∀ c, p.head? = some c → isSpace c = false)
    (hne : p ≠ []) (hxws : xwsNoteId p = none) :
    xwsNoteId (strip (join '/' (p :: l))) = none := by
  rw [xwsNoteId_eq_none] at hxws ⊢
  intro hpre
  have hp : p <+: join '/' (p :: l) := by
    cases l with
    | nil => rw [join_singleton]
    | cons q l => exact join_cons_cons ▸ List.prefix_append p _
  have hdrop : (join '/' (p :: l)).dropWhile isSpace = join '/' (p :: l) := by
    refine dropWhile_eq_self.mpr fun c hc => hspace c ?_
    obtain ⟨post, hpost⟩ := hp
    rwa [← hpost, List.head?_append_of_ne_nil _ hne] at hc
  have hstrip : strip (join '/' (p :: l)) <+: join '/' (p :: l) := by
    rw [strip, stripBy, hdrop]
    exact List.rdropWhile_prefix _ _
  have hpre := hpre.trans hstrip
  rcases Nat.lt_or_ge p.length "note:".toList.length with hlt | hge
  · -- then the separator after the segment would be one of the five characters
    cases l with
    | nil =>
      rw [join_singleton] at hpre
      exact absurd hpre.length_le (Nat.not_le.mpr hlt)
    | cons q l =>
      have hsep : p ++ ['/'] <+: join '/' (p :: q :: l) := by
        rw [join_cons_cons]
        exact (List.prefix_append_right_inj p).mpr (List.cons_prefix_cons.mpr ⟨rfl, List.nil_prefix⟩)
      have hle : (p ++ ['/']).length ≤ "note:".toList.length := by
        rw [List.length_append]
        exact hlt
      have hmem := (List.prefix_of_prefix_length_le hsep hpre hle).subset
        (List.mem_append_right p (List.mem_singleton_self '/'))
      revert hmem
      decide
  · exact hxws (List.prefix_of_prefix_length_le hpre hp hge)

/-- A normalised folder and a clean title. -/
structure Clean (note : IndexedNote) : Prop where
  folder : normalizeFolder note.folder = some note.folder
  stripped : strip note.title = note.title
  title : note.title ≠ []
  slash : '/' ∉ note.title
  marks : NoMarks (joinTarget note.folder note.title)
  noPrefix : xwsNoteId note.title = none

theorem Clean.segment {note : IndexedNote} (h : Clean note) {p : Text}
    (hp : p ∈ pathSegments note.folder ++ [note.title]) :
    (∀ c, p.head? = some c → isSpace c = false) ∧ p ≠ [] ∧ xwsNoteId p = none := by
  rcases List.mem_append.mp hp with hp | hp
  · have hseg := (segments_of_normalized h.folder).2 p hp
    refine ⟨?_, hseg.ne_nil, ?_⟩
    · intro c hc
      obtain ⟨d, hd, hspace⟩ := hseg.head
      rw [hd] at hc
      cases hc
      exact hspace
    · refine xwsNoteId_eq_none.mpr fun hpre => ?_
      exact hseg.notMem (c := ':') (by decide) (hpre.subset (by decide))
  · obtain rfl := List.mem_singleton.mp hp
    exact ⟨(stripBy_eq_self.mp h.stripped).1, h.title, h.noPrefix⟩

theorem Clean.joinTarget_eq {note : IndexedNote} (h : Clean note) :
    join '/' (pathSegments note.folder ++ [note.title]) = joinTarget note.folder note.title := by
  have hfolder := (segments_of_normalized h.folder).1
  unfold joinTarget
  split
  · rename_i hroot
    rw [hroot]
    exact join_singleton
  · rename_i hroot
    rw [join_concat fun hnil => hroot (by rw [← hfolder, hnil]; rfl), hfolder]

/-- A clean identity can be written into every wikilink. -/
theorem Clean.writable {casefold : Text → Text} {notes : List IndexedNote} {note : IndexedNote}
    (h : Clean note) (hd : Distinct notes note) (source old : Text) :
    Writable casefold notes note source old := by
  have hjoin : ∀ l : List Text, l ≠ [] → l ⊆ pathSegments note.folder ++ [note.title] →
      xwsNoteId (strip (join '/' l)) = none := by
    intro l hne hl
    cases l with
    | nil => exact absurd rfl hne
    | cons p l =>
      obtain ⟨hspace, hp, hxws⟩ := h.segment (hl List.mem_cons_self)
      exact xwsNoteId_join hspace hp hxws
  have hpath := splitTarget_joinTarget h.folder h.stripped h.title h.slash
  refine (writable_iff hd).mpr ?_
  dsimp only
  rw [shortestTarget]
  cases hfind : (pathSuffixes note (pathSegments old).length).find?
      (hits casefold notes note source) with
  | none =>
    refine ⟨⟨h.marks, strip_ne_nil h.title (by rw [Option.getD_none, hpath]), fun _ => ?_⟩,
      resolve_joinTarget hd hpath⟩
    rw [Option.getD_none, ← h.joinTarget_eq]
    exact hjoin _ (List.append_ne_nil_of_right_ne_nil _ (List.cons_ne_nil _ _)) (List.Subset.refl _)
  | some s =>
    have hs := List.mem_of_find?_eq_some hfind
    have hhit := List.find?_some hfind
    have hexact := ((hits_iff hd).mp hhit).admitted
    simp only [exactMatch, Bool.and_eq_true, decide_eq_true_eq] at hexact
    refine ⟨⟨noMarks_of_joinTarget h.marks hs, strip_ne_nil h.title hexact.1.symm, fun _ => ?_⟩,
      resolve_of_hits hd hhit⟩
    obtain ⟨length, hlength, _, rfl⟩ := mem_pathSuffixes.mp hs
    refine hjoin _ ?_ (List.drop_subset _ _)
    rw [ne_eq, List.drop_eq_nil_iff, List.length_append, List.length_singleton]
    omega

end Kajet.Links
