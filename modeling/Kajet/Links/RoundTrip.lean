import Kajet.Links.Shortest
import Kajet.Tags.Path

/-!
# The shortest target of a note, read back

* `normalized_drop`        what is left of a normalised folder without its first segments is normalised;
* `splitTarget_suffixOf`   a suffix of a note's path is split into the folder and the title it was made of;
* `exactMatch_suffixOf`    and the note matches it, so that the casefold fallback is not used;
* `Distinct.chosen_iff`    the winner does not depend on the order of the notes;
* `shortestTarget_spec`    the search returns the first suffix that resolves to the note.
-/

namespace Kajet.Links
open Str

/-! ## folders that `normalize_folder` leaves alone -/

section
variable {folder p s t : Text}

theorem length_collapseSpaces_le (s : Text) : (collapseSpaces s).length ≤ s.length := (collapseSpaces_sublist s).length_le

theorem isSpace_of_reserved {c : Char} (h : c.toUpper ∈ windowsReserved.flatten) : isSpace c = false := by
  have hall : (windowsReserved.flatten.all fun d => !isSpace d) = true := by decide +kernel
  cases hspace : isSpace c with
  | false => rfl
  | true =>
    have hupper : c.toUpper = c := by
      unfold Char.toUpper
      refine dif_neg fun hlower => ?_
      have hge := UInt32.le_iff_toNat_le.mp hlower.1
      have hle := UInt32.le_iff_toNat_le.mp hlower.2
      have hval : c.toNat = c.val.toNat := rfl
      simp only [isSpace, Bool.or_eq_true, Bool.and_eq_true, decide_eq_true_eq] at hspace
      simp at hge hle
      omega
    rw [hupper] at h
    rw [← hspace]
    simpa using List.all_eq_true.mp hall c h

/-- A file name is no longer than what it is made of, or it does not end in a space. -/
theorem titleToWindowsFilename_ends (title : Text) :
    (∀ c, (titleToWindowsFilename title).getLast? = some c → isSpace c = false) ∨
      (titleToWindowsFilename title).length ≤ title.length := by
  let spaced := collapseSpaces (title.map fun c => if windowsForbidden c then ' ' else c)
  let stripped := rstripChars ['.', ' '] (strip spaced)
  have hlength : stripped.length ≤ title.length := by
    calc stripped.length ≤ (strip spaced).length := (List.rdropWhile_prefix _ _).length_le
      _ ≤ spaced.length := stripBy_sublist.length_le
      _ ≤ _ := length_collapseSpaces_le _
      _ = title.length := List.length_map _
  have hnamed : titleToWindowsFilename title = List.take 200
      (if (if stripped.map Char.toUpper ∈ windowsReserved then '_' :: stripped else stripped) = [] then
        "untitled".toList
      else if stripped.map Char.toUpper ∈ windowsReserved then '_' :: stripped else stripped) := rfl
  by_cases hreserved : stripped.map Char.toUpper ∈ windowsReserved
  · -- a reserved name is short, and ends in a letter or a digit
    left
    have hshort : ∀ name ∈ windowsReserved, name.length ≤ 4 ∧ name ≠ [] := by decide +kernel
    have hlen := hshort _ hreserved
    rw [List.length_map] at hlen
    have hne : stripped ≠ [] := by
      rintro hnil
      exact hlen.2 (by rw [hnil]; rfl)
    have hname : titleToWindowsFilename title = '_' :: stripped := by
      rw [hnamed, if_pos hreserved, if_neg (List.cons_ne_nil _ _)]
      exact List.take_of_length_le (by rw [List.length_cons]; omega)
    rw [hname, List.getLast?_cons_of_ne_nil hne]
    intro c hc
    exact isSpace_of_reserved (List.mem_flatten.mpr
      ⟨_, hreserved, List.mem_map_of_mem (List.mem_of_getLast? hc)⟩)
  · by_cases hnil : stripped = []
    · left
      have hname : titleToWindowsFilename title = "untitled".toList := by
        rw [hnamed, if_neg hreserved, if_pos hnil]
        decide +kernel
      have hlast : "untitled".toList.getLast? = some 'd' := by decide +kernel
      rw [hname, hlast]
      rintro c hc
      cases hc
      rfl
    · right
      have hname : titleToWindowsFilename title = stripped.take 200 := by
        rw [hnamed, if_neg hreserved, if_neg hnil]
      rw [hname]
      exact (List.take_sublist _ _).length_le.trans hlength

/-- A segment that is a file name of itself without its outer spaces has none. -/
theorem strip_eq_self_of_segment (hp : Segment p) (h : titleToWindowsFilename (strip p) = p) : strip p = p := by
  rcases titleToWindowsFilename_ends (strip p) with hlast | hlength
  · rw [h] at hlast
    refine stripBy_eq_self.mpr ⟨?_, hlast⟩
    intro c hc
    obtain ⟨d, hd, hspace⟩ := hp.head
    rw [hc] at hd
    cases hd
    exact hspace
  · rw [h] at hlength
    exact stripBy_sublist.eq_of_length_le hlength

theorem rdropWhile_append_of_ne {q : Char → Bool} (h : t.rdropWhile q ≠ []) :
    (s ++ t).rdropWhile q = s ++ t.rdropWhile q := by
  have hne : (t.reverse.dropWhile q).isEmpty = false := by
    rw [List.isEmpty_eq_false_iff]
    intro hnil
    exact h (by rw [List.rdropWhile, hnil]; rfl)
  rw [List.rdropWhile, List.reverse_append, List.dropWhile_append, hne, if_neg (by simp), List.reverse_append,
    List.reverse_reverse]
  rfl

theorem joinTarget_join {init : List Text} (hinit : ∀ q ∈ init, q ≠ []) : joinTarget (join '/' init) p = join '/' (init ++ [p]) := by
  cases init with
  | nil =>
    rw [join_nil, joinTarget, if_pos rfl]
    exact join_singleton.symm
  | cons q init =>
    have hne : join '/' (q :: init) ≠ [] := by
      obtain ⟨c, q', hq⟩ := List.exists_cons_of_ne_nil (hinit q List.mem_cons_self)
      exact List.ne_nil_of_mem (mem_join_of_mem List.mem_cons_self (hq ▸ List.mem_cons_self))
    rw [joinTarget, if_neg hne, join_concat (List.cons_ne_nil q init)]

/-- Outer spaces of a path are those of its last segment. -/
theorem strip_joinTarget (hfolder : ∀ c, folder.head? = some c → isSpace c = false) (hp : Segment p) :
    strip (joinTarget folder p) = joinTarget folder (strip p) := by
  obtain ⟨c, hc, hspace⟩ := hp.head
  have hlead : p.dropWhile isSpace = p := dropWhile_eq_self.mpr fun d hd => by
    rw [hc] at hd
    cases hd
    exact hspace
  have hne : p.rdropWhile isSpace ≠ [] := by
    intro hnil
    have hall := List.rdropWhile_eq_nil_iff.mp hnil c (List.mem_of_head? hc)
    rw [hspace] at hall
    cases hall
  unfold joinTarget
  split
  · rfl
  · rename_i hroot
    obtain ⟨d, folder', rfl⟩ := List.exists_cons_of_ne_nil hroot
    have hdrop : (d :: folder' ++ '/' :: p).dropWhile isSpace = d :: folder' ++ '/' :: p :=
      List.dropWhile_cons_of_neg (by rw [hfolder d rfl]; simp)
    have hslash : ('/' :: p).rdropWhile isSpace = '/' :: p.rdropWhile isSpace :=
      @rdropWhile_append_of_ne ['/'] p isSpace hne
    rw [strip, stripBy, hdrop, rdropWhile_append_of_ne (by rw [hslash]; exact List.cons_ne_nil _ _), hslash]
    show _ = _ ++ '/' :: stripBy isSpace p
    rw [stripBy, hlead]

/-- A folder that is left alone has no outer spaces. -/
theorem strip_of_normalized (h : normalizeFolder folder = some folder) : strip folder = folder := by
  obtain ⟨hjoin, hsegs⟩ := segments_of_normalized h
  rcases List.eq_nil_or_concat (pathSegments folder) with hnil | ⟨init, p, hparts⟩
  · rw [hnil] at hjoin
    rw [← hjoin]
    rfl
  · rw [List.concat_eq_append] at hparts
    rw [hparts] at hjoin hsegs
    have hp := hsegs p (List.mem_append_right _ List.mem_cons_self)
    have hinit : ∀ q ∈ init, Segment q := fun q hq => hsegs q (List.mem_append_left _ hq)
    have hfolder : folder = joinTarget (join '/' init) p :=
      hjoin.symm.trans (joinTarget_join fun q hq => (hinit q hq).ne_nil).symm
    have hhead : ∀ c, (join '/' init).head? = some c → isSpace c = false := by
      intro c hc
      cases init with
      | nil => cases hc
      | cons q init =>
        obtain ⟨d, hd, hspace⟩ := (hinit q List.mem_cons_self).head
        have hfirst : (join '/' (q :: init)).head? = some d := by
          cases init with
          | nil => rwa [join_singleton]
          | cons r init => rw [join_cons_cons, List.head?_append, hd, Option.some_or]
        rw [hfirst] at hc
        cases hc
        exact hspace
    have hstrip : strip folder = join '/' (init ++ [strip p]) := by
      rw [hfolder, strip_joinTarget hhead hp, joinTarget_join fun q hq => (hinit q hq).ne_nil]
    have hsegments : Tags.Segments (init ++ [strip p]) := by
      intro q hq
      rcases List.mem_append.mp hq with hq | hq
      · exact ⟨(hinit q hq).ne_nil, (hinit q hq).notMem (by decide)⟩
      · rw [List.mem_singleton.mp hq]
        obtain ⟨c, hc, hspace⟩ := hp.head
        refine ⟨fun hnil => ?_, fun hmem => hp.notMem (by decide) (mem_of_mem_strip hmem)⟩
        have hall := strip_eq_nil.mp hnil c (List.mem_of_head? hc)
        rw [hspace] at hall
        cases hall
    -- `folder` is made of the segments of what is stripped, the last one of `strip p`
    have hnames : (init ++ [strip p]).map titleToWindowsFilename = init ++ [p] := by
      rw [normalizeFolder] at h
      split at h
      · cases h
      · have hmade := congrArg pathSegments (Option.some.inj h)
        rw [hstrip, Tags.pathSegments_join hsegments, hparts, Tags.pathSegments_join] at hmade
        · exact hmade
        · intro q hq
          obtain ⟨r, -, rfl⟩ := List.mem_map.mp hq
          have hr := segment_titleToWindowsFilename r
          exact ⟨hr.ne_nil, hr.notMem (by decide)⟩
    have hlast := congrArg List.getLast? hnames
    rw [List.map_append, List.getLast?_append, List.getLast?_append] at hlast
    have hfix : titleToWindowsFilename (strip p) = p := Option.some.inj hlast
    rw [hstrip, strip_eq_self_of_segment hp hfix]
    exact hjoin

theorem normalized_parts (h : normalizeFolder folder = some folder) :
    "..".toList ∉ pathSegments folder ∧ ∀ q ∈ pathSegments folder, titleToWindowsFilename q = q := by
  have hfolder := h
  rw [normalizeFolder, strip_of_normalized h] at h
  split at h
  · cases h
  rename_i hdots
  have hmade := congrArg pathSegments (Option.some.inj h)
  rw [Tags.pathSegments_join] at hmade
  · exact ⟨hdots, List.map_inj_left.mp (hmade.trans (List.map_id _).symm)⟩
  · intro q hq
    obtain ⟨r, -, rfl⟩ := List.mem_map.mp hq
    have hr := segment_titleToWindowsFilename r
    exact ⟨hr.ne_nil, hr.notMem (by decide)⟩

/-- The folder without its first segments. -/
theorem normalized_drop (h : normalizeFolder folder = some folder) (n : ℕ) :
    normalizeFolder (join '/' ((pathSegments folder).drop n)) = some (join '/' ((pathSegments folder).drop n)) := by
  obtain ⟨hjoin, hsegs⟩ := segments_of_normalized h
  obtain ⟨hdots, hnames⟩ := normalized_parts h
  have hsub : ∀ q ∈ (pathSegments folder).drop n, q ∈ pathSegments folder := fun q hq => List.mem_of_mem_drop hq
  have hstrip : strip (join '/' ((pathSegments folder).drop n)) = join '/' ((pathSegments folder).drop n) := by
    by_cases hnil : (pathSegments folder).drop n = []
    · rw [hnil]
      rfl
    have hends := (stripBy_eq_self.mp (strip_of_normalized h)).2
    refine stripBy_eq_self.mpr ⟨?_, ?_⟩
    · cases hparts : (pathSegments folder).drop n with
      | nil => exact absurd hparts hnil
      | cons q l =>
        obtain ⟨d, hd, hspace⟩ := (hsegs q (hsub q (hparts ▸ List.mem_cons_self))).head
        intro c hc
        have hfirst : (join '/' (q :: l)).head? = some d := by
          cases l with
          | nil => rwa [join_singleton]
          | cons r l => rw [join_cons_cons, List.head?_append, hd, Option.some_or]
        rw [hfirst] at hc
        cases hc
        exact hspace
    · -- the last character is that of the folder
      intro c hc
      refine hends c ?_
      by_cases htake : (pathSegments folder).take n = []
      · have hall : (pathSegments folder).drop n = pathSegments folder := by
          conv_rhs => rw [← List.take_append_drop n (pathSegments folder), htake, List.nil_append]
        rwa [hall, hjoin] at hc
      · rw [← hjoin, ← List.take_append_drop n (pathSegments folder), join_append htake hnil, List.getLast?_append,
          List.getLast?_cons_of_ne_nil, hc, Option.some_or]
        rintro hempty
        rw [hempty] at hc
        cases hc
  have hsegments : pathSegments (join '/' ((pathSegments folder).drop n)) = (pathSegments folder).drop n :=
    Tags.pathSegments_join fun q hq => ⟨(hsegs q (hsub q hq)).ne_nil, (hsegs q (hsub q hq)).notMem (by decide)⟩
  rw [normalizeFolder, hstrip, hsegments, if_neg fun hmem => hdots (hsub _ hmem)]
  exact congrArg (fun l => some (join '/' l)) ((List.map_congr_left fun q hq => hnames q (hsub q hq)).trans (List.map_id _))

end

/-! ## suffixes of a path -/

/-- A note of a workspace: what `save` and `normalize_folder` leave in its columns. -/
structure Stored (n : IndexedNote) : Prop where
  folder : normalizeFolder n.folder = some n.folder
  title : strip n.title = n.title
  titled : n.title ≠ []
  slash : '/' ∉ n.title

/-- The number of segments of the note's path. -/
def depth (n : IndexedNote) : ℕ := (pathSegments n.folder).length + 1

/-- The last `length` segments of the note's path. -/
def suffixOf (n : IndexedNote) (length : ℕ) : Text :=
  join '/' ((pathSegments n.folder ++ [n.title]).drop (depth n - length))

section
variable {casefold : Text → Text} {notes notes' : List IndexedNote} {note w : IndexedNote} {source target : Text}
  {length minSegments : ℕ}

theorem suffixOf_eq (h : Stored note) (hpos : 1 ≤ length) : suffixOf note length =
    joinTarget (join '/' ((pathSegments note.folder).drop (depth note - length))) note.title := by
  have hsegs := (segments_of_normalized h.folder).2
  rw [suffixOf, List.drop_append_of_le_length (by rw [depth]; omega)]
  exact (joinTarget_join fun q hq => (hsegs q (List.mem_of_mem_drop hq)).ne_nil).symm

theorem suffixOf_depth (h : Stored note) : suffixOf note (depth note) = joinTarget note.folder note.title := by
  rw [suffixOf_eq h (by rw [depth]; omega), Nat.sub_self, List.drop_zero, (segments_of_normalized h.folder).1]

theorem splitTarget_suffixOf (h : Stored note) (hpos : 1 ≤ length) : splitTarget (suffixOf note length) =
    (join '/' ((pathSegments note.folder).drop (depth note - length)), note.title) := by
  rw [suffixOf_eq h hpos]
  exact splitTarget_joinTarget (normalized_drop h.folder _) h.title h.titled h.slash

/-- The note itself matches every suffix of its path. -/
theorem exactMatch_suffixOf (h : Stored note) (hpos : 1 ≤ length) : exactMatch (suffixOf note length) note = true := by
  rw [exactMatch, splitTarget_suffixOf h hpos, Bool.and_eq_true, decide_eq_true_eq]
  refine ⟨rfl, ?_⟩
  dsimp only
  rw [folderMatches]
  by_cases hdrop : (pathSegments note.folder).drop (depth note - length) = []
  · rw [hdrop]
    rfl
  by_cases htake : (pathSegments note.folder).take (depth note - length) = []
  · have hall : (pathSegments note.folder).drop (depth note - length) = pathSegments note.folder := by
      conv_rhs => rw [← List.take_append_drop (depth note - length) (pathSegments note.folder), htake, List.nil_append]
    rw [hall, (segments_of_normalized h.folder).1]
    simp
  · have hends : endsWith note.folder ('/' :: join '/' ((pathSegments note.folder).drop (depth note - length))) = true := by
      rw [endsWith, List.isSuffixOf_iff_suffix]
      refine ⟨join '/' ((pathSegments note.folder).take (depth note - length)), ?_⟩
      rw [← join_append htake hdrop, List.take_append_drop]
      exact (segments_of_normalized h.folder).1
    rw [hends, Bool.or_true]

/-- Where the note itself matches, the fallback is not used. -/
theorem resolve_suffixOf (h : Stored note) (hmem : note ∈ notes) (hpos : 1 ≤ length) (allowCasefold : Bool) :
    resolve casefold notes (suffixOf note length) source allowCasefold =
      resolve casefold notes (suffixOf note length) source false := by
  have hne : notes.filter (exactMatch (suffixOf note length)) ≠ [] :=
    List.ne_nil_of_mem (List.mem_filter.mpr ⟨hmem, exactMatch_suffixOf h hpos⟩)
  rw [resolve_eq_head?, resolve_eq_head?, candidates, candidates, decide_eq_false hne]
  rfl

/-! ## the winner among notes that differ -/

/-- No two notes have one folder and title, or one id. -/
structure Apart (notes : List IndexedNote) : Prop where
  path : ∀ a ∈ notes, ∀ b ∈ notes, a.folder = b.folder → a.title = b.title → a = b
  id : ∀ a ∈ notes, ∀ b ∈ notes, a.noteId = b.noteId → a = b

theorem Apart.distinct (h : Apart notes) (hmem : note ∈ notes) : Distinct notes note :=
  ⟨hmem, fun c hc => h.id c hc note hmem, fun c hc => h.path c hc note hmem⟩

theorem chosen_iff (h : ∀ a ∈ notes, ∀ b ∈ notes, a.folder = b.folder → a.title = b.title → a = b)
    {p : IndexedNote → Bool} {key : IndexedNote → Rank} :
    Chosen p key notes w ↔ w ∈ notes ∧ p w = true ∧ ∀ c ∈ notes, p c = true → key w ≤ key c := by
  constructor
  · exact fun hw => ⟨hw.mem, hw.admitted, hw.least⟩
  · rintro ⟨hmem, hadmitted, hleast⟩
    refine ⟨hadmitted, hleast, ?_⟩
    cases hfilter : notes.filter fun c => c.folder = w.folder ∧ c.title = w.title with
    | nil =>
      have hnot := List.filter_eq_nil_iff.mp hfilter w hmem
      simp at hnot
    | cons c l =>
      obtain ⟨hc, hkey⟩ := List.mem_filter.mp (hfilter ▸ List.mem_cons_self : c ∈ notes.filter _)
      obtain ⟨hfolder, htitle⟩ := of_decide_eq_true hkey
      rw [List.head?_cons, h c hc w hmem hfolder htitle]

/-- The order in which the notes were given does not matter. -/
theorem resolve_perm (h : ∀ a ∈ notes, ∀ b ∈ notes, a.folder = b.folder → a.title = b.title → a = b)
    (hperm : notes.Perm notes') (allowCasefold : Bool) :
    resolve casefold notes' target source allowCasefold = resolve casefold notes target source allowCasefold := by
  have h' : ∀ a ∈ notes', ∀ b ∈ notes', a.folder = b.folder → a.title = b.title → a = b :=
    fun a ha b hb => h a (hperm.mem_iff.mpr ha) b (hperm.mem_iff.mpr hb)
  have hchosen (p : IndexedNote → Bool) (key : IndexedNote → Rank) (w : IndexedNote) :
      Chosen p key notes' w ↔ Chosen p key notes w := by
    rw [chosen_iff h, chosen_iff h']
    simp only [hperm.mem_iff]
  apply Option.ext
  intro w
  cases allowCasefold with
  | false => rw [resolve_exact, resolve_exact, hchosen]
  | true =>
    rw [resolve_eq_some, resolve_eq_some, hchosen, hchosen]
    simp only [hperm.mem_iff]

/-! ## the search -/

/-- The target is the first suffix of at least `minSegments` segments that resolves to the note. -/
theorem shortestTarget_spec (hnotes : Apart notes) (hmem : note ∈ notes) (h : Stored note) :
    ∃ length, shortestTarget casefold notes note source minSegments = suffixOf note length ∧
      1 ≤ length ∧ min minSegments (depth note) ≤ length ∧ length ≤ depth note ∧
      resolve casefold notes (suffixOf note length) source false = some note ∧
      ∀ shorter, 1 ≤ shorter → min minSegments (depth note) ≤ shorter → shorter < length →
        resolve casefold notes (suffixOf note shorter) source false ≠ some note := by
  have hdistinct := hnotes.distinct hmem
  have hhits (length : ℕ) : hits casefold notes note source (suffixOf note length) = true ↔
      resolve casefold notes (suffixOf note length) source false = some note :=
    (hits_iff hdistinct).trans resolve_exact.symm
  have hsuffixes : pathSuffixes note minSegments =
      (List.range' (max 1 minSegments) (depth note - max 1 minSegments)).map (suffixOf note) := by
    rw [pathSuffixes, List.length_append, List.length_singleton]
    rfl
  -- a length that is short enough to be searched is searched
  have hsearched (shorter : ℕ) (hpos : 1 ≤ shorter) (hmin : min minSegments (depth note) ≤ shorter)
      (hlt : shorter < depth note) : max 1 minSegments ≤ shorter := by omega
  rw [shortestTarget, hsuffixes, List.find?_map]
  cases hfind : (List.range' (max 1 minSegments) (depth note - max 1 minSegments)).find?
      (hits casefold notes note source ∘ suffixOf note) with
  | some length =>
    obtain ⟨hhit, hrange, hbefore⟩ := List.find?_range'_eq_some.mp hfind
    rw [List.mem_range'_1] at hrange
    refine ⟨length, rfl, by omega, by omega, by omega, (hhits length).mp hhit, fun shorter hpos hmin hlt heq => ?_⟩
    have hnot := hbefore shorter (hsearched shorter hpos hmin (by omega)) hlt
    rw [Function.comp, (hhits shorter).mpr heq] at hnot
    cases hnot
  | none =>
    have hdepth : 1 ≤ depth note := by rw [depth]; omega
    have hfull := @resolve_joinTarget casefold notes note source hdistinct
      (splitTarget_joinTarget h.folder h.title h.titled h.slash)
    rw [← suffixOf_depth h, resolve_suffixOf h hmem hdepth] at hfull
    refine ⟨depth note, (suffixOf_depth h).symm, hdepth, by omega, le_refl _, hfull, fun shorter hpos hmin hlt heq => ?_⟩
    have hnot := List.find?_eq_none.mp hfind shorter
      (List.mem_range'_1.mpr ⟨hsearched shorter hpos hmin hlt, by omega⟩)
    exact hnot ((hhits shorter).mpr heq)

end

/-- **Shortest targets round-trip.**  The target reads back as its note, keeps the segments asked for and is the
shortest suffix that does; a full path always names its note; and the order of the notes does not matter. -/
theorem shortest_round_trip (casefold : Text → Text) {notes : List IndexedNote} (hnotes : Apart notes)
    (hstored : ∀ n ∈ notes, Stored n) :
    (∀ m ∈ notes, ∀ source minSegments, ∃ length,
      shortestTarget casefold notes m source minSegments = suffixOf m length ∧
      1 ≤ length ∧ min minSegments (depth m) ≤ length ∧ length ≤ depth m ∧
      (∀ allowCasefold, resolve casefold notes (suffixOf m length) source allowCasefold = some m) ∧
      ∀ shorter, 1 ≤ shorter → min minSegments (depth m) ≤ shorter → shorter < length →
        ∀ allowCasefold, resolve casefold notes (suffixOf m shorter) source allowCasefold ≠ some m) ∧
    (∀ m ∈ notes, ∀ source allowCasefold,
      resolve casefold notes (joinTarget m.folder m.title) source allowCasefold = some m) ∧
    ∀ notes', notes.Perm notes' → ∀ target source allowCasefold,
      resolve casefold notes' target source allowCasefold = resolve casefold notes target source allowCasefold := by
  refine ⟨fun m hm source minSegments => ?_, fun m hm source allowCasefold => ?_,
    fun notes' hperm target source allowCasefold => resolve_perm hnotes.path hperm allowCasefold⟩
  · obtain ⟨length, htarget, hpos, hmin, hle, hresolve, hshortest⟩ :=
      @shortestTarget_spec casefold notes m source minSegments hnotes hm (hstored m hm)
    refine ⟨length, htarget, hpos, hmin, hle, fun allowCasefold => ?_, fun shorter hone hkept hlt allowCasefold => ?_⟩
    · rw [resolve_suffixOf (hstored m hm) hm hpos]
      exact hresolve
    · rw [resolve_suffixOf (hstored m hm) hm hone]
      exact hshortest shorter hone hkept hlt
  · have hdepth : 1 ≤ depth m := by rw [depth]; omega
    have hfull := @resolve_joinTarget casefold notes m source (hnotes.distinct hm)
      (splitTarget_joinTarget (hstored m hm).folder (hstored m hm).title (hstored m hm).titled (hstored m hm).slash)
    rw [← suffixOf_depth (hstored m hm), resolve_suffixOf (hstored m hm) hm hdepth] at hfull ⊢
    exact hfull

/-- Three notes, two of one title. -/
def threeNotes : List IndexedNote :=
  [⟨"n1", "work/home".toList, "Plan".toList⟩, ⟨"n2", "home".toList, "Plan".toList⟩, ⟨"n3", [], "Index".toList⟩]

theorem shortest_round_trip_three :
    (∀ m ∈ threeNotes, ∀ source minSegments, ∃ length,
      shortestTarget id threeNotes m source minSegments = suffixOf m length ∧
      1 ≤ length ∧ min minSegments (depth m) ≤ length ∧ length ≤ depth m ∧
      (∀ allowCasefold, resolve id threeNotes (suffixOf m length) source allowCasefold = some m) ∧
      ∀ shorter, 1 ≤ shorter → min minSegments (depth m) ≤ shorter → shorter < length →
        ∀ allowCasefold, resolve id threeNotes (suffixOf m shorter) source allowCasefold ≠ some m) ∧
    (∀ m ∈ threeNotes, ∀ source allowCasefold,
      resolve id threeNotes (joinTarget m.folder m.title) source allowCasefold = some m) ∧
    ∀ notes', threeNotes.Perm notes' → ∀ target source allowCasefold,
      resolve id notes' target source allowCasefold = resolve id threeNotes target source allowCasefold := by
  refine shortest_round_trip id ⟨by decide +kernel, by decide +kernel⟩ fun n hn => ?_
  have hall : ∀ n ∈ threeNotes, normalizeFolder n.folder = some n.folder ∧ strip n.title = n.title ∧
      n.title ≠ [] ∧ '/' ∉ n.title := by decide +kernel
  exact ⟨(hall n hn).1, (hall n hn).2.1, (hall n hn).2.2.1, (hall n hn).2.2.2⟩

end Kajet.Links
