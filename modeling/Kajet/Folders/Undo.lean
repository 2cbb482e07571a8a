import Kajet.Folders.Move

/-!
# What a failed move leaves

`aside` is the tree with the source under its temporary name.

* `Away`                what the loop has done to `aside`: some files are at their targets, directories
                        are new (`Made`), and nothing else is different;
* `carry_away`          the loop, up to its end or its failure;
* `undo_away`           the undoing brings the files back; the new directories stay;
* `restores_iff`        the source gets its place back unless something is below it by then.
-/

namespace Kajet.Folders
open Str Table Links Files Files.FileTree Fallible

/-- A directory that was made for one of the files. -/
def Made (faults : Faults) (dst : Path) (seen : List Path) (x : Path) : Prop :=
  faults.makeDir x = false ∧ ∃ r ∈ seen, x <+: dst ++ r.dropLast

section
variable {β : Type}

/-- The files `rs` have left `aside` for their targets in `t`. -/
structure Away (made : Path → Prop) (dst tmp : Path) (aside : FileTree Text β) (rs : List Path)
    (t : FileTree Text β) : Prop where
  nodup : rs.Nodup
  moved : ∀ r ∈ rs, ∃ b, aside.node (tmp ++ r) = some (.file b) ∧ t.node (tmp ++ r) = none ∧
    aside.node (dst ++ r) = none ∧ t.node (dst ++ r) = some (.file b)
  kept : ∀ x, (∀ r ∈ rs, x ≠ tmp ++ r ∧ x ≠ dst ++ r) →
    t.node x = aside.node x ∨ aside.node x = none ∧ t.node x = some .dir ∧ made x

variable {made made' : Path → Prop} {faults : Faults} {targets : List (Path × Path)}
  {dst tmp r x : Path} {aside t t' : FileTree Text β} {rs files seen : List Path} {c c' : Carried β}

theorem away_nil (t : FileTree Text β) : Away made dst tmp t [] t :=
  ⟨List.nodup_nil, fun _ hr => (nomatch hr), fun _ _ => .inl rfl⟩

theorem Away.mono (h : Away made dst tmp aside rs t) (hmade : ∀ x, made x → made' x) :
    Away made' dst tmp aside rs t :=
  ⟨h.nodup, h.moved, fun x hx => (h.kept x hx).imp id fun ⟨hnone, hdir, hm⟩ => ⟨hnone, hdir, hmade x hm⟩⟩

theorem Away.file (h : Away made dst tmp aside rs t) {b : β} (hx : aside.node x = some (.file b))
    (hnot : ∀ r ∈ rs, x ≠ tmp ++ r) : t.node x = some (.file b) := by
  have happart : ∀ r ∈ rs, x ≠ tmp ++ r ∧ x ≠ dst ++ r := by
    intro r hr
    refine ⟨hnot r hr, ?_⟩
    rintro rfl
    obtain ⟨_, _, _, hnone, _⟩ := h.moved r hr
    rw [hx] at hnone
    cases hnone
  rcases h.kept x happart with heq | ⟨hnone, _⟩
  · rw [heq, hx]
  · rw [hx] at hnone
    cases hnone

theorem Away.dir (h : Away made dst tmp aside rs t) (hx : aside.node x = some .dir) :
    t.node x = some .dir := by
  have happart : ∀ r ∈ rs, x ≠ tmp ++ r ∧ x ≠ dst ++ r := by
    intro r hr
    obtain ⟨b, hfile, _, hnone, _⟩ := h.moved r hr
    constructor
    · rintro rfl
      rw [hx] at hfile
      cases hfile
    · rintro rfl
      rw [hx] at hnone
      cases hnone
  rcases h.kept x happart with heq | ⟨hnone, _⟩
  · rw [heq, hx]
  · rw [hx] at hnone
    cases hnone

/-- Directories are made on the way; none of them is in the temporary directory. -/
theorem Away.grew (h : Away made dst tmp aside rs t) (hgrew : Grew made t t')
    (htmp : ∀ x, made x → ¬ tmp <+: x) : Away made dst tmp aside rs t' where
  nodup := h.nodup
  moved r hr := by
    obtain ⟨b, hfile, hgone, hnone, hthere⟩ := h.moved r hr
    exact ⟨b, hfile, hgrew.none hgone fun hmade => htmp _ hmade (List.prefix_append tmp r), hnone,
      hgrew.file_iff.mpr hthere⟩
  kept x hx := by
    rcases hgrew x with heq | ⟨hnone, hdir, hmade⟩
    · rw [heq]
      exact h.kept x hx
    · rcases h.kept x hx with heq | ⟨_, hdir', _⟩
      · exact .inr ⟨heq ▸ hnone, hdir, hmade⟩
      · rw [hnone] at hdir'
        cases hdir'

/-- One more file is at its target. -/
theorem Away.move (h : Away made dst tmp aside rs t) (hr : r ∉ rs) {b : β}
    (hfile : aside.node (tmp ++ r) = some (.file b)) (hfree : aside.node (dst ++ r) = none)
    (hok : t.rename (tmp ++ r) (dst ++ r) = .ok t') : Away made dst tmp aside (rs ++ [r]) t' := by
  have hthere : t.node (tmp ++ r) = some (.file b) :=
    h.file hfile fun r' hr' heq => hr (List.append_cancel_left heq ▸ hr')
  have hnode := fun x => node_rename_file (x := x) hthere hok
  have hne : tmp ++ r ≠ dst ++ r := by
    intro heq
    rw [heq, hfree] at hfile
    cases hfile
  refine ⟨?_, fun q hq => ?_, fun x hx => ?_⟩
  · exact List.nodup_append'.mpr ⟨h.nodup, List.nodup_singleton r, by simpa using hr⟩
  · rcases List.mem_append.mp hq with hq | hq
    · have hqr : q ≠ r := fun heq => hr (heq ▸ hq)
      obtain ⟨b', hfile', hgone, hnone, hthere'⟩ := h.moved q hq
      refine ⟨b', hfile', ?_, hnone, ?_⟩
      · have h1 : tmp ++ q ≠ dst ++ r := by
          intro heq
          rw [heq, hfree] at hfile'
          cases hfile'
        rw [hnode, if_neg h1, if_neg (by simpa using hqr), hgone]
      · have h2 : dst ++ q ≠ tmp ++ r := by
          intro heq
          rw [heq, hfile] at hnone
          cases hnone
        rw [hnode, if_neg (by simpa using hqr), if_neg h2, hthere']
    · obtain rfl := List.mem_singleton.mp hq
      refine ⟨b, hfile, ?_, hfree, ?_⟩
      · rw [hnode, if_neg hne, if_pos rfl]
      · rw [hnode, if_pos rfl]
  · have hxr := hx r (by simp)
    rw [hnode, if_neg hxr.2, if_neg hxr.1]
    exact h.kept x fun q hq => hx q (List.mem_append_left _ hq)

theorem rename_file_dir {p q : Path} {b : β} (hfile : t.node p = some (.file b))
    (hok : t.rename p q = .ok t') (hfree : t.node q = none) (hx : t.node x = some .dir) :
    t'.node x = some .dir := by
  rw [node_rename_file hfile hok, if_neg, if_neg, hx]
  · rintro rfl
    rw [hfile] at hx
    cases hx
  · rintro rfl
    rw [hfree] at hx
    cases hx

/-! ## the undoing -/

/-- The file that was moved last goes back. -/
theorem Away.back (h : Away made dst tmp aside (r :: rs) t) (hr : r ≠ []) :
    ∃ t', t.makeDirs (fun _ => false) (tmp ++ r).dropLast = (t, none) ∧
      t.rename (dst ++ r) (tmp ++ r) = .ok t' ∧ Away made dst tmp aside rs t' ∧
      ∀ x, t.node x = some .dir → t'.node x = some .dir := by
  obtain ⟨b, hfile, hgone, hnone, hthere⟩ := h.moved r List.mem_cons_self
  obtain ⟨hnot, hnodup⟩ := List.nodup_cons.mp h.nodup
  have hparent : t.node (tmp ++ r).dropLast = some .dir :=
    h.dir (node_dropLast (by rw [hfile]; simp))
  obtain ⟨t', hok⟩ := rename_file_ok hthere (by simp [hr]) hparent hgone
  have hnode := fun x => node_rename_file (x := x) hthere hok
  refine ⟨t', makeDirs_of_dir _ hparent, hok, ⟨hnodup, fun q hq => ?_, fun x hx => ?_⟩,
    fun x hx => rename_file_dir hthere hok hgone hx⟩
  · have hqr : q ≠ r := fun heq => hnot (heq ▸ hq)
    obtain ⟨b', hfile', hgone', hnone', hthere'⟩ := h.moved q (List.mem_cons_of_mem r hq)
    refine ⟨b', hfile', ?_, hnone', ?_⟩
    · have h1 : tmp ++ q ≠ dst ++ r := by
        intro heq
        rw [heq, hnone] at hfile'
        cases hfile'
      rw [hnode, if_neg (by simpa using hqr), if_neg h1, hgone']
    · have h2 : dst ++ q ≠ tmp ++ r := by
        intro heq
        rw [heq, hfile] at hnone'
        cases hnone'
      rw [hnode, if_neg h2, if_neg (by simpa using hqr), hthere']
  · by_cases hxt : x = tmp ++ r
    · rw [hnode, if_pos hxt, hxt, hfile]
      exact .inl rfl
    · by_cases hxd : x = dst ++ r
      · rw [hnode, if_neg hxt, if_pos hxd, hxd, hnone]
        exact .inl rfl
      · rw [hnode, if_neg hxt, if_neg hxd]
        refine h.kept x fun q hq => ?_
        rcases List.mem_cons.mp hq with rfl | hq
        · exact ⟨hxt, hxd⟩
        · exact hx q hq

/-- The undoing does not fail, and brings every file back. -/
theorem undo_away (h : Away made dst tmp aside rs t) (hne : ∀ r ∈ rs, r ≠ []) :
    ∃ t', undo (rs.map fun r => (tmp ++ r, dst ++ r)) t = (t', none) ∧
      Away made dst tmp aside [] t' ∧ ∀ x, t.node x = some .dir → t'.node x = some .dir := by
  induction rs generalizing t with
  | nil => exact ⟨t, rfl, h, fun _ hx => hx⟩
  | cons r rs ih =>
    obtain ⟨t₁, hdirs, hok, haway, hkeep⟩ := h.back (hne r List.mem_cons_self)
    obtain ⟨t₂, hundo, haway', hkeep'⟩ := ih haway fun q hq => hne q (List.mem_cons_of_mem r hq)
    refine ⟨t₂, ?_, haway', fun x hx => hkeep' x (hkeep x hx)⟩
    rw [List.map_cons, undo, hdirs]
    dsimp only
    rw [hok]
    exact hundo

theorem Away.perm {rs' : List Path} (h : Away made dst tmp aside rs t) (hperm : rs.Perm rs') :
    Away made dst tmp aside rs' t :=
  ⟨hperm.nodup_iff.mp h.nodup, fun r hr => h.moved r (hperm.mem_iff.mpr hr),
    fun x hx => h.kept x fun r hr => hx r (hperm.mem_iff.mp hr)⟩

/-! ## the loop -/

/-- The locals of the loop once the files `rs` have been moved. -/
structure Carrying (made : Path → Prop) (dst tmp : Path) (aside : FileTree Text β) (rs : List Path)
    (c : Carried β) : Prop where
  away : Away made dst tmp aside rs c.tree
  done : c.done = rs.map fun r => (tmp ++ r, dst ++ r)
  added : c.added = rs.map (dst ++ ·)

/-- How far the directories of a file have got: all of them are there, or one is refused or a file. -/
def Stopped (faults : Faults) (dst r : Path) (t : FileTree Text β) : Prop :=
  t.node (dst ++ r.dropLast) = some .dir ∨ ∃ d, d <+: dst ++ r.dropLast ∧ t.node d.dropLast = some .dir ∧
    (faults.makeDir d = true ∧ t.node d = none ∨ ∃ b, t.node d = some (.file b))

/-- The files of the source in the temporary directory, apart from where they go. -/
structure Source (dst tmp : Path) (aside : FileTree Text β) (files : List Path) : Prop where
  nodup : files.Nodup
  file : ∀ r ∈ files, r ≠ [] ∧ ∃ b, aside.node (tmp ++ r) = some (.file b)
  apart : ∀ r ∈ files, ¬ tmp <+: dst ++ r

theorem dropLast_target (hr : r ≠ []) : (dst ++ r).dropLast = dst ++ r.dropLast :=
  List.dropLast_append_of_ne_nil hr

theorem dropLast_prefix_target : dst ++ r.dropLast <+: dst ++ r :=
  (List.prefix_append_right_inj dst).mpr (List.dropLast_prefix r)

/-- No file of the source is on the way to another. -/
theorem Source.not_prefix (h : Source dst tmp aside files) {q : Path} (hq : q ∈ files) (hr : r ∈ files) :
    ¬ q <+: r.dropLast := by
  intro hqr
  obtain ⟨b, hfile⟩ := (h.file q hq).2
  obtain ⟨b', hfile'⟩ := (h.file r hr).2
  have hpre : tmp ++ q <+: tmp ++ r :=
    (List.prefix_append_right_inj tmp).mpr (hqr.trans (List.dropLast_prefix r))
  have hne : tmp ++ q ≠ tmp ++ r := by
    intro heq
    obtain rfl := List.append_cancel_left heq
    have hlen := hqr.length_le
    have hpos := List.length_pos_iff.mpr (h.file q hq).1
    rw [List.length_dropLast] at hlen
    omega
  rw [node_above hpre hne (by rw [hfile']; simp)] at hfile
  cases hfile

theorem Source.made_apart (h : Source dst tmp aside files) (hseen : seen ⊆ files)
    (hmade : Made faults dst seen x) : ¬ tmp <+: x := by
  obtain ⟨_, r, hr, hx⟩ := hmade
  exact fun htmp => h.apart r (hseen hr) (htmp.trans (hx.trans dropLast_prefix_target))

variable (faults) in
theorem place_cases (h : Carrying made dst tmp aside rs c) (hr : r ∉ rs) {b : β} (hne : r ≠ [])
    (hfile : aside.node (tmp ++ r) = some (.file b)) (hfree : c.tree.node (dst ++ r) = none)
    (hmade : ∀ x, faults.makeDir x = false → x <+: dst ++ r.dropLast → made x)
    (htmp : ∀ x, made x → ¬ tmp <+: x) (hapart : ¬ tmp <+: dst ++ r) :
    (∀ x, c.tree.node x = some .dir → (place faults tmp r (dst ++ r) c).1.tree.node x = some .dir) ∧
    ((place faults tmp r (dst ++ r) c).2 = none →
      Carrying made dst tmp aside (rs ++ [r]) (place faults tmp r (dst ++ r) c).1 ∧
        (place faults tmp r (dst ++ r) c).1.tree.node (dst ++ r.dropLast) = some .dir) ∧
    ∀ e, (place faults tmp r (dst ++ r) c).2 = some e →
      Carrying made dst tmp aside rs (place faults tmp r (dst ++ r) c).1 ∧
        Stopped faults dst r (place faults tmp r (dst ++ r) c).1.tree := by
  have hgrew : Grew made c.tree (c.tree.makeDirs faults.makeDir (dst ++ r).dropLast).1 := by
    rw [dropLast_target hne]
    exact (grew_makeDirs _ _ _).mono fun x hx => hmade x hx.1 hx.2
  have haway := h.away.grew hgrew htmp
  have hfree' : (c.tree.makeDirs faults.makeDir (dst ++ r).dropLast).1.node (dst ++ r) = none := by
    have hgrew' := grew_makeDirs c.tree faults.makeDir (dst ++ r).dropLast
    refine hgrew'.none hfree fun hpre => ?_
    have hlen := hpre.2.length_le
    rw [dropLast_target hne, List.length_append, List.length_append, List.length_dropLast] at hlen
    have hpos := List.length_pos_iff.mpr hne
    omega
  have hasideFree : aside.node (dst ++ r) = none := by
    have hkept := h.away.kept (dst ++ r) fun q hq => ⟨fun heq => hapart (heq ▸ List.prefix_append tmp q),
      fun heq => hr (List.append_cancel_left heq ▸ hq)⟩
    rcases hkept with heq | ⟨hnone, _⟩
    · rw [← heq, hfree]
    · exact hnone
  unfold place
  split
  · -- a directory cannot be made
    rename_i tree e hdirs
    rw [hdirs] at hgrew haway
    refine ⟨fun x hx => hgrew.dir hx, fun hnone => (nomatch hnone), fun _ _ => ⟨⟨haway, h.done, h.added⟩, ?_⟩⟩
    have herror := makeDirs_error (t := c.tree) (p := (dst ++ r).dropLast) (congrArg Prod.snd hdirs)
    rw [hdirs, dropLast_target hne] at herror
    exact .inr herror
  · rename_i tree hdirs
    have hdir : tree.node (dst ++ r.dropLast) = some .dir := by
      have hok := makeDirs_ok (t := c.tree) (p := (dst ++ r).dropLast) (congrArg Prod.snd hdirs)
      rwa [hdirs, dropLast_target hne] at hok
    rw [hdirs] at hgrew haway hfree'
    split
    · exact ⟨fun x hx => hgrew.dir hx, fun hnone => (nomatch hnone),
        fun _ _ => ⟨⟨haway, h.done, h.added⟩, .inl hdir⟩⟩
    · split
      · exact ⟨fun x hx => hgrew.dir hx, fun hnone => (nomatch hnone),
          fun _ _ => ⟨⟨haway, h.done, h.added⟩, .inl hdir⟩⟩
      · rename_i tree' hok
        have hthere : tree.node (tmp ++ r) = some (.file b) :=
          haway.file hfile fun q hq heq => hr (List.append_cancel_left heq ▸ hq)
        have hkeep := fun x => rename_file_dir (x := x) hthere hok hfree'
        refine ⟨fun x hx => hkeep x (hgrew.dir hx), fun _ => ⟨⟨?_, ?_, ?_⟩, hkeep _ hdir⟩,
          fun _ hsome => (nomatch hsome)⟩
        · exact haway.move hr hfile hasideFree hok
        · rw [h.done, List.map_append]
          rfl
        · rw [h.added, List.map_append]
          rfl

theorem Carrying.mono (h : Carrying made dst tmp aside rs c) (hmade : ∀ x, made x → made' x) :
    Carrying made' dst tmp aside rs c := ⟨h.away.mono hmade, h.done, h.added⟩

theorem Made.mono {seen' : List Path} (h : Made faults dst seen x) (hsub : seen ⊆ seen') :
    Made faults dst seen' x := by
  obtain ⟨hfree, r, hr, hx⟩ := h
  exact ⟨hfree, r, hsub hr, hx⟩

/-- The files that the loop has come to the directory of. -/
def reached (faults : Faults) (before : List Path) (rel : Path) : List Path :=
  before ++ if faults.check rel then [] else [rel]

/-- A target that is taken was taken before the move. -/
theorem Carrying.taken (h : Carrying (Made faults dst seen) dst tmp aside rs c)
    (hsource : Source dst tmp aside files) (hseen : seen ⊆ files) (hr : r ∈ files) (hnot : r ∉ rs)
    (htaken : c.tree.node (dst ++ r) ≠ none) : aside.node (dst ++ r) ≠ none := by
  have hkept := h.away.kept (dst ++ r) fun q hq =>
    ⟨fun heq => hsource.apart r hr (heq ▸ List.prefix_append tmp q),
      fun heq => hnot (List.append_cancel_left heq ▸ hq)⟩
  rcases hkept with heq | ⟨_, _, hmade⟩
  · rwa [← heq]
  · obtain ⟨_, q, hq, hpre⟩ := hmade
    exact absurd ((List.prefix_append_right_inj dst).mp hpre) (hsource.not_prefix hr (hseen hq))

section
variable (hsource : Source dst tmp aside files) (htargets : ∀ x ∈ targets, x.2 = dst ++ x.1)
include hsource htargets

theorem carryFile_cases (hseen : seen ⊆ files) (hr : r ∈ files) (hnot : r ∉ rs)
    (h : Carrying (Made faults dst seen) dst tmp aside rs c) :
    (∀ x, c.tree.node x = some .dir → (carryFile faults targets dst tmp r c).1.tree.node x = some .dir) ∧
    ((carryFile faults targets dst tmp r c).2 = none → ∃ rs', (rs' = rs ++ [r] ∨
        rs' = rs ∧ targets.lookup r = none ∧ aside.node (dst ++ r) ≠ none) ∧
      Carrying (Made faults dst (seen ++ [r])) dst tmp aside rs' (carryFile faults targets dst tmp r c).1 ∧
        (carryFile faults targets dst tmp r c).1.tree.node (dst ++ r.dropLast) = some .dir) ∧
    ∀ e, (carryFile faults targets dst tmp r c).2 = some e →
      Carrying (Made faults dst (reached faults seen r)) dst tmp aside rs
          (carryFile faults targets dst tmp r c).1 ∧
        (faults.check r = true ∨ Stopped faults dst r (carryFile faults targets dst tmp r c).1.tree) := by
  obtain ⟨hne, b, hfile⟩ := hsource.file r hr
  have hseen' : seen ++ [r] ⊆ files := fun q hq => by
    rcases List.mem_append.mp hq with hq | hq
    · exact hseen hq
    · exact List.mem_singleton.mp hq ▸ hr
  have hmono : Carrying (Made faults dst (seen ++ [r])) dst tmp aside rs c :=
    h.mono fun x hx => hx.mono (List.subset_append_left _ _)
  have hparent : c.tree.node (dst ++ r) ≠ none → c.tree.node (dst ++ r.dropLast) = some .dir := by
    intro htaken
    rw [← dropLast_target hne]
    exact node_dropLast htaken
  have hplace := fun hfree => place_cases faults hmono hnot hne hfile hfree
    (fun x hx hpre => ⟨hx, r, by simp, hpre⟩) (fun x hx => hsource.made_apart hseen' hx)
    (hsource.apart r hr)
  unfold carryFile
  split
  · rename_i hcheck
    refine ⟨fun x hx => hx, fun hnone => (nomatch hnone), fun _ _ => ⟨?_, .inl hcheck⟩⟩
    rw [reached, if_pos hcheck, List.append_nil]
    exact h
  · rename_i hcheck
    have hreached : reached faults seen r = seen ++ [r] := by rw [reached, if_neg hcheck]
    rw [hreached]
    split
    · rename_i dest hlookup
      obtain rfl := target_eq htargets hlookup
      split
      · rename_i hhas
        have htaken : c.tree.node (dst ++ r) ≠ none := by
          intro hnone
          rw [has_eq_false.mpr hnone] at hhas
          cases hhas
        exact ⟨fun x hx => hx, fun hnone => (nomatch hnone), fun _ _ => ⟨hmono, .inr (.inl (hparent htaken))⟩⟩
      · rename_i hhas
        obtain ⟨hkeep, hok, herror⟩ := hplace (has_eq_false.mp (by simpa using hhas))
        refine ⟨hkeep, fun hnone => ⟨rs ++ [r], .inl rfl, hok hnone⟩, fun e he => ?_⟩
        exact ⟨(herror e he).1, .inr (herror e he).2⟩
    · rename_i hlookup
      split
      · rename_i hhas
        have htaken : c.tree.node (dst ++ r) ≠ none := by
          intro hnone
          rw [has_eq_false.mpr hnone] at hhas
          cases hhas
        exact ⟨fun x hx => hx, fun _ => ⟨rs, .inr ⟨rfl, hlookup, h.taken hsource hseen hr hnot htaken⟩,
          hmono, hparent htaken⟩, fun _ hsome => (nomatch hsome)⟩
      · rename_i hhas
        obtain ⟨hkeep, hok, herror⟩ := hplace (has_eq_false.mp (by simpa using hhas))
        refine ⟨hkeep, fun hnone => ⟨rs ++ [r], .inl rfl, hok hnone⟩, fun e he => ?_⟩
        exact ⟨(herror e he).1, .inr (herror e he).2⟩

/-- The loop comes to its end, or stops at a file. -/
theorem carry_cases (rest : List Path) (hall : seen ++ rest ⊆ files) (hnodup : (seen ++ rest).Nodup)
    (hrs : rs ⊆ seen) (h : Carrying (Made faults dst seen) dst tmp aside rs c) :
    (∀ x, c.tree.node x = some .dir → (carry faults targets dst tmp rest c).1.tree.node x = some .dir) ∧
    ((carry faults targets dst tmp rest c).2 = none → ∃ rs', rs ⊆ rs' ∧ rs' ⊆ seen ++ rest ∧
      Carrying (Made faults dst (seen ++ rest)) dst tmp aside rs' (carry faults targets dst tmp rest c).1 ∧
      ∀ r ∈ rest, r ∈ rs' ∨ targets.lookup r = none ∧ aside.node (dst ++ r) ≠ none) ∧
    ∀ rel e, (carry faults targets dst tmp rest c).2 = some (rel, e) →
      ∃ before after rs', rest = before ++ rel :: after ∧ rs' ⊆ seen ++ before ∧
        Carrying (Made faults dst (reached faults (seen ++ before) rel)) dst tmp aside rs'
          (carry faults targets dst tmp rest c).1 ∧
        (∀ r ∈ before, (carry faults targets dst tmp rest c).1.tree.node (dst ++ r.dropLast) = some .dir) ∧
        (faults.check rel = true ∨ Stopped faults dst rel (carry faults targets dst tmp rest c).1.tree) := by
  induction rest generalizing seen rs c with
  | nil =>
    refine ⟨fun x hx => hx, fun _ => ⟨rs, fun _ hq => hq, by simpa using hrs, by rw [List.append_nil]; exact h,
      fun _ hr => (nomatch hr)⟩, fun _ _ hsome => (nomatch hsome)⟩
  | cons r rest ih =>
    have hr : r ∈ files := hall (by simp)
    have hnot : r ∉ rs := fun hmem => by
      have hapart := List.nodup_append'.mp hnodup
      exact hapart.2.2 (hrs hmem) List.mem_cons_self
    have hseen : seen ⊆ files := fun q hq => hall (List.mem_append_left _ hq)
    have hcons : seen ++ r :: rest = seen ++ [r] ++ rest := by simp
    obtain ⟨hkeep, hok, herror⟩ := carryFile_cases hsource htargets hseen hr hnot h
    unfold carry
    split
    · rename_i c' e hstep
      rw [hstep] at hkeep herror
      refine ⟨hkeep, fun hnone => (nomatch hnone), fun rel e' hsome => ?_⟩
      cases hsome
      obtain ⟨hcarrying, hstopped⟩ := herror e rfl
      exact ⟨[], rest, rs, rfl, by simpa using hrs, by simpa using hcarrying, fun _ hq => (nomatch hq), hstopped⟩
    · rename_i c' hstep
      rw [hstep] at hkeep hok
      obtain ⟨rs₁, hrs₁, hcarrying, hdir⟩ := hok rfl
      have hsub : rs ⊆ rs₁ ∧ rs₁ ⊆ seen ++ [r] := by
        rcases hrs₁ with rfl | ⟨rfl, _⟩
        · exact ⟨List.subset_append_left _ _, List.append_subset.mpr
            ⟨fun q hq => List.mem_append_left _ (hrs hq), List.subset_append_right _ _⟩⟩
        · exact ⟨fun _ hq => hq, fun q hq => List.mem_append_left _ (hrs hq)⟩
      rw [hcons] at hall hnodup
      obtain ⟨hkeep', hok', herror'⟩ := ih hall hnodup hsub.2 hcarrying
      refine ⟨fun x hx => hkeep' x (hkeep x hx), fun hnone => ?_, fun rel e hsome => ?_⟩
      · obtain ⟨rs', hsub', hin, hcarrying', hskip⟩ := hok' hnone
        rw [hcons]
        refine ⟨rs', fun q hq => hsub' (hsub.1 hq), hin, hcarrying', fun q hq => ?_⟩
        rcases List.mem_cons.mp hq with rfl | hq
        · rcases hrs₁ with rfl | ⟨_, hlookup, htaken⟩
          · exact .inl (hsub' (by simp))
          · exact .inr ⟨hlookup, htaken⟩
        · exact hskip q hq
      · obtain ⟨before, after, rs', hrest, hin, hcarrying', hdirs, hstopped⟩ := herror' rel e hsome
        have hcons' : seen ++ r :: before = seen ++ [r] ++ before := by simp
        refine ⟨r :: before, after, rs', by rw [hrest]; rfl, by rwa [hcons'], by rwa [hcons'],
          fun q hq => ?_, hstopped⟩
        rcases List.mem_cons.mp hq with rfl | hq
        · exact hkeep' _ hdir
        · exact hdirs q hq

end
end

/-! ## the source gets its place back -/

/-- A file that was reached makes a directory below the source folder: the destination is above it. -/
def Recreates (faults : Faults) (src dst : Path) (seen : List Path) : Prop :=
  ∃ r ∈ seen, ∃ s, src ++ [s] <+: dst ++ r.dropLast ∧
    faults.makeDir src = false ∧ faults.makeDir (src ++ [s]) = false

section
variable {β : Type} {faults : Faults} {targets : List (Path × Path)} {src dst : Path} {tmp : Text} {x : Path}
  {t aside t' : FileTree Text β} {rs files before after : List Path} {rel : Path}

/-- What `rglob` finds below the source, in some order. -/
structure Lists (t : FileTree Text β) (src : Path) (files : List Path) : Prop where
  nodup : files.Nodup
  mem : ∀ r, r ∈ files ↔ r ≠ [] ∧ ∃ b, t.node (src ++ r) = some (.file b)

/-- The name of the temporary directory is new. -/
structure Unused (t : FileTree Text β) (dst : Path) (tmp : Text) (files : List Path) : Prop where
  absent : t.node [tmp] = none
  apart : ∀ r ∈ files, ¬ [tmp] <+: dst ++ r

/-- The source has gone to the temporary directory. -/
theorem node_aside (hok : t.rename src [tmp] = .ok aside) (hdir : t.node src = some .dir)
    (hunused : Unused t dst tmp files) : aside.node x =
      if [tmp] <+: x then t.node (src ++ x.drop 1) else if src <+: x then none else t.node x := by
  rw [rename_of_dir hdir] at hok
  have hne : src ≠ [tmp] := by
    rintro rfl
    rw [hunused.absent] at hdir
    cases hdir
  exact (renameDir_ok hne hok).2.2.2.2 x

theorem source_aside (hok : t.rename src [tmp] = .ok aside) (hdir : t.node src = some .dir)
    (hunused : Unused t dst tmp files) (hlists : Lists t src files) : Source dst [tmp] aside files where
  nodup := hlists.nodup
  file r hr := by
    obtain ⟨hne, b, hb⟩ := (hlists.mem r).mp hr
    refine ⟨hne, b, ?_⟩
    rw [node_aside hok hdir hunused, if_pos (List.prefix_append _ _)]
    simpa using hb
  apart := hunused.apart

/-- Nothing of the source's own place is left. -/
theorem aside_src (hok : t.rename src [tmp] = .ok aside) (hdir : t.node src = some .dir)
    (hunused : Unused t dst tmp files) (hx : src <+: x) : aside.node x = none := by
  rw [rename_of_dir hdir] at hok
  have hne : src ≠ [tmp] := by
    rintro rfl
    rw [hunused.absent] at hdir
    cases hdir
  obtain ⟨hpq, -, -, -, hnode⟩ := renameDir_ok hne hok
  rw [hnode, if_neg, if_pos hx]
  intro htmp
  rcases List.prefix_or_prefix_of_prefix hx htmp with h | h
  · exact hpq h
  · rw [none_below h hunused.absent] at hdir
    cases hdir

/-- What is above the source stays. -/
theorem aside_above (hok : t.rename src [tmp] = .ok aside) (hdir : t.node src = some .dir)
    (hunused : Unused t dst tmp files) (hx : x <+: src) (hne : x ≠ src) : aside.node x = some .dir := by
  rw [node_aside hok hdir hunused, if_neg, if_neg]
  · exact dir_above hx hdir
  · exact fun hsx => hne (hx.eq_of_length (le_antisymm hx.length_le hsx.length_le))
  · intro htmp
    rw [none_below (htmp.trans hx) hunused.absent] at hdir
    cases hdir

/-- A file on the way to a target was there before the move. -/
theorem Away.file_aside {made : Path → Prop} {d : Path} (h : Away made dst [tmp] aside rs t')
    (hsource : Source dst [tmp] aside files) (hrs : rs ⊆ files) (hrel : rel ∈ files)
    (hd : d <+: dst ++ rel.dropLast) {b : β} (hfile : t'.node d = some (.file b)) :
    aside.node d = some (.file b) := by
  have hkept := h.kept d fun q hq => by
    constructor
    · rintro rfl
      exact hsource.apart rel hrel ((List.prefix_append _ q).trans (hd.trans dropLast_prefix_target))
    · rintro rfl
      exact hsource.not_prefix (hrs hq) hrel ((List.prefix_append_right_inj dst).mp hd)
  rcases hkept with heq | ⟨_, hdir', _⟩
  · rw [← heq, hfile]
  · rw [hfile] at hdir'
    cases hdir'

theorem prefix_dropLast {p d : Path} (h : p <+: d) (hne : p ≠ d) : p <+: d.dropLast := by
  rcases List.eq_nil_or_concat d with rfl | ⟨d, y, rfl⟩
  · exact absurd (List.prefix_nil.mp h) hne
  · rw [List.concat_eq_append] at h hne ⊢
    rw [List.dropLast_concat]
    exact (List.prefix_concat_iff.mp h).resolve_left hne

/-- The failing file, too, has recreated the source, unless the system refused. -/
theorem Stopped.recreates {made : Path → Prop} {s : Text} (h : Stopped faults dst rel t')
    (hok : t.rename src [tmp] = .ok aside) (hdir : t.node src = some .dir)
    (hunused : Unused t dst tmp files) (hlists : Lists t src files) (hrel : rel ∈ files)
    (haway : Away made dst [tmp] aside rs t') (hrs : rs ⊆ files)
    (hpre : src ++ [s] <+: dst ++ rel.dropLast) (hsrc : faults.makeDir src = false)
    (hchild : faults.makeDir (src ++ [s]) = false) : t'.node (src ++ [s]) = some .dir := by
  rcases h with h | ⟨d, hd, hparent, hstop⟩
  · exact dir_above hpre h
  have hbeyond : ¬ d <+: src ++ [s] := by
    intro hdx
    by_cases hbelow : src <+: d
    · have hnone := aside_src hok hdir hunused hbelow
      rcases hstop with ⟨hrefused, _⟩ | ⟨b, hfile⟩
      · -- it is the source or its child, and the system refuses neither
        rcases List.prefix_concat_iff.mp hdx with rfl | hds
        · rw [hchild] at hrefused
          cases hrefused
        · obtain rfl := hds.eq_of_length (le_antisymm hds.length_le hbelow.length_le)
          rw [hsrc] at hrefused
          cases hrefused
      · rw [haway.file_aside (source_aside hok hdir hunused hlists) hrs hrel hd hfile] at hnone
        cases hnone
    · have habove : d <+: src := by
        rcases List.prefix_concat_iff.mp hdx with rfl | hds
        · exact absurd (List.prefix_append _ _) hbelow
        · exact hds
      have hne : d ≠ src := by
        rintro rfl
        exact hbelow (List.prefix_refl _)
      have hthere := haway.dir (aside_above hok hdir hunused habove hne)
      rcases hstop with ⟨_, hnone⟩ | ⟨b, hfile⟩
      · rw [hthere] at hnone
        cases hnone
      · rw [hthere] at hfile
        cases hfile
  have hxd : src ++ [s] <+: d := (List.prefix_or_prefix_of_prefix hd hpre).resolve_left hbeyond
  exact dir_above (prefix_dropLast hxd fun heq => hbeyond (heq ▸ List.prefix_refl _)) hparent

/-- After the undoing something is below the source exactly when a file recreated it. -/
theorem busy_iff_recreates (hok : t.rename src [tmp] = .ok aside) (hdir : t.node src = some .dir)
    (hunused : Unused t dst tmp files) (hlists : Lists t src files) (hbefore : before ⊆ files)
    (hrel : rel ∈ files) {c : Carried β}
    (hcarrying : Away (Made faults dst (reached faults before rel)) dst [tmp] aside rs c.tree)
    (hrs : rs ⊆ before)
    (hdirs : ∀ r ∈ before, c.tree.node (dst ++ r.dropLast) = some .dir)
    (hstopped : faults.check rel = true ∨ Stopped faults dst rel c.tree)
    (haway : Away (Made faults dst (reached faults before rel)) dst [tmp] aside [] t')
    (hkeep : ∀ x, c.tree.node x = some .dir → t'.node x = some .dir) :
    t'.busy src = true ↔ Recreates faults src dst (reached faults before rel) := by
  rw [busy_iff]
  constructor
  · rintro ⟨x, ⟨r, rfl⟩, hne, hx⟩
    obtain ⟨s, r, rfl⟩ : ∃ s q, r = s :: q := List.exists_cons_of_ne_nil fun h => hne (by simp [h])
    have hchild : t'.node (src ++ [s]) ≠ none := fun hnone =>
      hx (none_below (prefix_append_cons src s r) hnone)
    have hmade : ∀ x, src <+: x → t'.node x ≠ none → Made faults dst (reached faults before rel) x := by
      intro x hsx hthere
      rcases haway.kept x (fun _ hr => (nomatch hr)) with heq | ⟨_, _, hmade⟩
      · rw [heq, aside_src hok hdir hunused hsx] at hthere
        exact absurd rfl hthere
      · exact hmade
    obtain ⟨hfree, q, hq, hpre⟩ := hmade _ (List.prefix_append _ _) hchild
    obtain ⟨hfree', _⟩ := hmade src (List.prefix_refl _) (by rw [node_parent hchild]; simp)
    exact ⟨q, hq, s, hpre, hfree', hfree⟩
  · rintro ⟨r, hr, s, hpre, hsrc, hchild⟩
    have hthere : c.tree.node (src ++ [s]) = some .dir := by
      rcases List.mem_append.mp hr with hr | hr
      · exact dir_above hpre (hdirs r hr)
      · split at hr
        · cases hr
        · rename_i hcheck
          obtain rfl := List.mem_singleton.mp hr
          exact (hstopped.resolve_left hcheck).recreates hok hdir hunused hlists hrel hcarrying
            (fun q hq => hbefore (hrs hq)) hpre hsrc hchild
    refine ⟨src ++ [s], List.prefix_append _ _, by simp, ?_⟩
    rw [hkeep _ hthere]
    simp

/-- What a failed move should leave: the files where they were, and no temporary directory. -/
def Restored (tmp : Text) (t t' : FileTree Text β) : Prop :=
  (∀ x b, t'.node x = some (.file b) ↔ t.node x = some (.file b)) ∧ ∀ x, [tmp] <+: x → t'.node x = none

theorem src_ne_nil (hok : t.rename src [tmp] = .ok aside) : src ≠ [] := by
  rintro rfl
  rw [rename_of_dir t.node_nil] at hok
  obtain ⟨hroot, -⟩ := renameDir_ok (by simp) hok
  exact hroot List.nil_prefix

/-- The temporary directory gets the source's name. -/
theorem restored_of_rename {made : Path → Prop} {t'' : FileTree Text β}
    (hok : t.rename src [tmp] = .ok aside) (hdir : t.node src = some .dir)
    (hunused : Unused t dst tmp files) (haway : Away made dst [tmp] aside [] t')
    (hback : t'.rename [tmp] src = .ok t'') : Restored tmp t t'' := by
  have htmp : aside.node [tmp] = some .dir := by
    rw [node_aside hok hdir hunused, if_pos (List.prefix_refl _)]
    simpa using hdir
  have hfile : ∀ x b, t'.node x = some (.file b) ↔ aside.node x = some (.file b) := by
    intro x b
    rcases haway.kept x (fun _ hr => (nomatch hr)) with heq | ⟨hnone, hdir', _⟩
    · rw [heq]
    · rw [hnone, hdir']
      simp
  have hne : [tmp] ≠ src := by
    rintro rfl
    rw [hunused.absent] at hdir
    cases hdir
  rw [rename_of_dir (haway.dir htmp)] at hback
  obtain ⟨hpq, -, -, -, hnode⟩ := renameDir_ok hne hback
  constructor
  · intro x b
    rw [hnode]
    by_cases hsx : src <+: x
    · obtain ⟨r, rfl⟩ := hsx
      rw [if_pos (List.prefix_append src r), List.drop_left, hfile, node_aside hok hdir hunused,
        if_pos (List.prefix_append _ r)]
      simp
    · rw [if_neg hsx]
      by_cases htx : [tmp] <+: x
      · rw [if_pos htx, none_below htx hunused.absent]
      · rw [if_neg htx, hfile, node_aside hok hdir hunused, if_neg htx, if_neg hsx]
  · intro x htx
    rw [hnode, if_neg, if_pos htx]
    intro hsx
    rcases List.prefix_or_prefix_of_prefix hsx htx with h | h
    · -- the source would be above the temporary directory, at the root
      rcases List.prefix_concat_iff.mp (show src <+: [] ++ [tmp] from h) with heq | hnil
      · exact hne heq.symm
      · exact src_ne_nil hok (List.prefix_nil.mp hnil)
    · exact hpq h

/-- Only what is below the source keeps the temporary directory from its old name. -/
theorem rename_back {made : Path → Prop} (hok : t.rename src [tmp] = .ok aside)
    (hdir : t.node src = some .dir) (hunused : Unused t dst tmp files)
    (haway : Away made dst [tmp] aside [] t') (hfree : t'.busy src = false) :
    ∃ t'', t'.rename [tmp] src = .ok t'' := by
  have htmp : aside.node [tmp] = some .dir := by
    rw [node_aside hok hdir hunused, if_pos (List.prefix_refl _)]
    simpa using hdir
  have hne := src_ne_nil hok
  have habove : src.dropLast ≠ src := by
    intro heq
    have hlen := congrArg List.length heq
    have hpos := List.length_pos_iff.mpr hne
    rw [List.length_dropLast] at hlen
    omega
  rw [rename_of_dir (haway.dir htmp)]
  refine renameDir_total ?_ hne (haway.dir (aside_above hok hdir hunused (List.dropLast_prefix src) habove)) ?_ hfree
  · intro h
    rw [none_below h hunused.absent] at hdir
    cases hdir
  · intro b hfile
    rcases haway.kept src (fun _ hr => (nomatch hr)) with heq | ⟨_, hdir', _⟩
    · rw [hfile, aside_src hok hdir hunused (List.prefix_refl _)] at heq
      cases heq
    · rw [hfile] at hdir'
      cases hdir'

/-- **The undoing of a move**: the loop failed at `rel`; everything is back exactly when no file that was
reached makes a directory below the source. -/
theorem restores_iff {cause : FileError Text} {undoing : Option (FileError Text)}
    (htargets : ∀ x ∈ targets, x.2 = dst ++ x.1) (hlists : Lists t src files)
    (hunused : Unused t dst tmp files) (hfiles : files = before ++ rel :: after)
    (h : moveTree faults targets src dst [tmp] files t = (t', .error (.moving rel cause undoing))) :
    Restored tmp t t' ↔ ¬ Recreates faults src dst (reached faults before rel) := by
  have hrel : rel ∈ files := by simp [hfiles]
  have hdir : t.node src = some .dir := by
    obtain ⟨hne, b, hb⟩ := (hlists.mem rel).mp hrel
    exact node_above (List.prefix_append src rel) (by simpa using hne) (by rw [hb]; simp)
  unfold moveTree at h
  split at h
  · cases h
  split at h
  · cases h
  rename_i aside hok
  have hsource := source_aside hok hdir hunused hlists
  have hstart : Carrying (Made faults dst []) dst [tmp] aside [] ⟨aside, [], []⟩ := ⟨away_nil _, rfl, rfl⟩
  have hall : [] ++ files ⊆ files := List.Subset.refl files
  have hnodup : ([] ++ files).Nodup := hlists.nodup
  obtain ⟨-, -, hcases⟩ := carry_cases hsource htargets files hall hnodup (List.nil_subset _) hstart
  split at h
  · cases h
  rename_i c rel' cause' hcarry
  rw [hcarry] at hcases
  obtain ⟨before', after', rs, hfiles', hrs, hcarrying, hdirs, hstopped⟩ := hcases rel' cause' rfl
  have hne : ∀ r ∈ rs.reverse, r ≠ [] := fun r hr =>
    (hsource.file r (by
      rw [hfiles']
      exact List.mem_append_left _ (hrs (List.mem_reverse.mp hr)))).1
  obtain ⟨t₁, hundo, haway, hkeep⟩ := undo_away (hcarrying.away.perm rs.reverse_perm.symm) hne
  rw [hcarrying.done, ← List.map_reverse, hundo] at h
  dsimp only at h
  have hrel' : rel' = rel := by
    split at h <;> cases h <;> rfl
  subst hrel'
  obtain rfl : before' = before := by
    have hnodup := hlists.nodup
    rw [hfiles'] at hnodup
    obtain ⟨-, hcons, hapart⟩ := List.nodup_append'.mp hnodup
    have hsame : before' ++ rel' :: after' = before ++ rel' :: after := by rw [← hfiles, hfiles']
    exact ((List.append_cons_inj_of_notMem (fun hmem => hapart hmem List.mem_cons_self)
      (List.nodup_cons.mp hcons).1).mp hsame).1
  have hbusy := busy_iff_recreates hok hdir hunused hlists (by rw [hfiles']; simp) hrel hcarrying.away hrs
    hdirs hstopped haway hkeep
  rw [List.nil_append] at hbusy
  have htmp : aside.node [tmp] = some .dir := by
    rw [node_aside hok hdir hunused, if_pos (List.prefix_refl _)]
    simpa using hdir
  have hne' : [tmp] ≠ src := by
    rintro rfl
    rw [hunused.absent] at hdir
    cases hdir
  rw [← hbusy]
  split at h
  · -- the source's place is taken
    rename_i e hback
    cases h
    have hthere : t'.node [tmp] = some .dir := haway.dir htmp
    have htaken : t'.busy src = true := by
      by_contra hfree
      obtain ⟨t₂, hback'⟩ := rename_back hok hdir hunused haway (Bool.eq_false_of_not_eq_true hfree)
      rw [hback] at hback'
      cases hback'
    refine iff_of_false (fun hrestored => ?_) (fun hnot => hnot htaken)
    rw [hrestored.2 _ (List.prefix_refl _)] at hthere
    cases hthere
  · rename_i t₂ hback
    cases h
    refine iff_of_true (restored_of_rename hok hdir hunused haway hback) fun htaken => ?_
    rw [rename_of_dir (haway.dir htmp)] at hback
    obtain ⟨e, herror⟩ := renameDir_busy hne' htaken
    rw [herror] at hback
    cases hback

/-- **A failed `move_folder`** leaves the files, the rows and the commits as they were exactly when no file
that was reached makes a directory below the source. -/
theorem moveFolder_restores_iff {env : LinkEnv} {st st' : Store β} {folder dest : Text} {plan : Plan}
    {cause : FileError Text} {undoing : Option (FileError Text)}
    (hplan : preflight env st folder dest = .ok (some plan))
    (hlists : Lists st.tree (pathSegments plan.src) files)
    (hunused : Unused st.tree (pathSegments plan.dst) tmp files) (hfiles : files = before ++ rel :: after)
    (h : moveFolder env faults st folder dest tmp files =
      (st', .error (.tree (.moving rel cause undoing)))) :
    (Restored tmp st.tree st'.tree ∧ st'.rows = st.rows ∧ st'.commits = st.commits) ↔
      ¬ Recreates faults (pathSegments plan.src) (pathSegments plan.dst) (reached faults before rel) := by
  unfold moveFolder at h
  rw [hplan] at h
  dsimp only at h
  split at h
  · rename_i tree e htree
    cases h
    rw [← restores_iff (preflight_ok hplan).2.2.2 hlists hunused hfiles htree]
    exact and_iff_left ⟨rfl, rfl⟩
  · cases h

end

/-! ## two failures -/

/-- The listing of a tree that is given by its entries. -/
theorem lists_of_entries {β : Type} {t : FileTree Text β} {src : Path} {files : List Path}
    (hnodup : files.Nodup) (hfound : ∀ r ∈ files, r ≠ [] ∧ t.node (src ++ r) ≠ none ∧ t.isDir (src ++ r) = false)
    (hall : ∀ e ∈ t.entries, src <+: e.1 → e.1.drop src.length ∈ files ∨ e.1 = src ∨ t.isDir e.1 = true) :
    Lists t src files := by
  refine ⟨hnodup, fun r => ⟨fun hr => ?_, ?_⟩⟩
  · obtain ⟨hne, hthere, hfile⟩ := hfound r hr
    refine ⟨hne, ?_⟩
    cases hnode : t.node (src ++ r) with
    | none => exact absurd hnode hthere
    | some n =>
      cases n with
      | dir =>
        rw [isDir_iff.mpr hnode] at hfile
        cases hfile
      | file b => exact ⟨b, rfl⟩
  · rintro ⟨hne, b, hb⟩
    have hmem := mem_of_nodeAt (by simp [hne]) hb
    rcases hall _ hmem (List.prefix_append _ _) with h | h | h
    · simpa using h
    · exact absurd (by simpa using h) hne
    · rw [isDir_iff.mp h] at hb
      cases hb

def freely : Faults := ⟨fun _ => false, fun _ => false, fun _ => false⟩

def moveEnv : LinkEnv := ⟨List.map Char.toLower, fun _ => [], "/w".toList, true⟩

def pathOf (segments : List String) : Path := segments.map String.toList

/-- The file at which the loop failed, and what it raised. -/
def failure : Except FolderError Unit → Option (Path × FileError Text × Option (FileError Text))
  | .error (.tree (.moving rel cause undoing)) => some (rel, cause, undoing)
  | _ => none

theorem failure_some {r : Except FolderError Unit} {rel : Path} {cause : FileError Text}
    {undoing : Option (FileError Text)} (h : failure r = some (rel, cause, undoing)) :
    r = .error (.tree (.moving rel cause undoing)) := by
  unfold failure at h
  split at h
  · cases h
    rfl
  · cases h

/-- `y.md` stands at the root without a row; `a/a/b` goes to `a/b`. -/
def nestedStore : Store Nat where
  rows := [⟨"n1", "a/a/b".toList, "x".toList⟩, ⟨"n2", "a".toList, "y".toList⟩]
  tree := ofEntries [(pathOf ["a"], .dir), (pathOf ["a", "a"], .dir), (pathOf ["a", "a", "b"], .dir),
    (pathOf ["a", "a", "b", "x.md"], .file 1), (pathOf ["a", "y.md"], .file 2), (pathOf ["y.md"], .file 3)]
      (by decide +kernel)
  commits := []

/-- The undoing fails: the files stay in the temporary directory. -/
theorem move_stranded :
    let files := [pathOf ["a", "b", "x.md"], pathOf ["y.md"]]
    let out := moveFolder moveEnv freely nestedStore "a".toList [] ".kajet-move-0".toList files
    (∃ cause e, out.2 = .error (.tree (.moving (pathOf ["y.md"]) cause (some e)))) ∧
      out.1.tree.node (pathOf ["a", "y.md"]) = none ∧
      out.1.tree.node (pathOf [".kajet-move-0", "y.md"]) = some (.file 2) ∧
      ¬ Restored ".kajet-move-0".toList nestedStore.tree out.1.tree := by
  have hview : failure (moveFolder moveEnv freely nestedStore "a".toList [] ".kajet-move-0".toList
      [pathOf ["a", "b", "x.md"], pathOf ["y.md"]]).2 =
        some (pathOf ["y.md"], .exists (pathOf ["y.md"]), some (.notEmpty (pathOf ["a"]))) := by
    decide +kernel
  have hgone : (moveFolder moveEnv freely nestedStore "a".toList [] ".kajet-move-0".toList
      [pathOf ["a", "b", "x.md"], pathOf ["y.md"]]).1.tree.node (pathOf ["a", "y.md"]) = none := by
    decide +kernel
  refine ⟨⟨_, _, failure_some hview⟩, hgone, by decide +kernel, fun hrestored => ?_⟩
  have hthere : nestedStore.tree.node (pathOf ["a", "y.md"]) = some (.file 2) := by decide +kernel
  rw [(hrestored.1 _ _).mpr hthere] at hgone
  cases hgone

/-- `b/N.md` stands at the destination without a row. -/
def orphanStore : Store Nat where
  rows := [⟨"n1", "a".toList, "N".toList⟩]
  tree := ofEntries [(pathOf ["a"], .dir), (pathOf ["a", "N.md"], .file 1), (pathOf ["a", "z.png"], .file 2),
    (pathOf ["b"], .dir), (pathOf ["b", "N.md"], .file 3)] (by decide +kernel)
  commits := []

theorem moveFolder_restores_orphan :
    let files := [pathOf ["z.png"], pathOf ["N.md"]]
    let st' := (moveFolder moveEnv freely orphanStore "a".toList "b".toList ".kajet-move-0".toList files).1
    (Restored ".kajet-move-0".toList orphanStore.tree st'.tree ∧ st'.rows = orphanStore.rows ∧
        st'.commits = orphanStore.commits) ↔
      ¬ Recreates freely (pathOf ["a"]) (pathOf ["b"]) (reached freely [pathOf ["z.png"]] (pathOf ["N.md"])) := by
  have hplan : preflight moveEnv orphanStore "a".toList "b".toList = .ok (some ⟨"a".toList, "b".toList,
      [(pathOf ["N.md"], pathOf ["b", "N.md"])]⟩) := ok_of_toOption (by decide +kernel)
  have hview : failure (moveFolder moveEnv freely orphanStore "a".toList "b".toList ".kajet-move-0".toList
      [pathOf ["z.png"], pathOf ["N.md"]]).2 =
        some (pathOf ["N.md"], .exists (pathOf ["b", "N.md"]), none) := by decide +kernel
  refine moveFolder_restores_iff hplan ?_ ⟨by decide +kernel, by decide +kernel⟩
    (show [pathOf ["z.png"], pathOf ["N.md"]] = [pathOf ["z.png"]] ++ pathOf ["N.md"] :: [] from rfl)
    (Prod.ext rfl (failure_some hview))
  exact lists_of_entries (by decide +kernel) (by decide +kernel) (by decide +kernel)

end Kajet.Folders
