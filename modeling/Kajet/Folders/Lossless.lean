import Kajet.Folders.Undo

/-!
# What a successful move leaves

* `file_after`   the files of the tree after the loop and the removal of the temporary directory;
* `Taken`        the target of a file is there already, outside of the source;
* `Lossless`     every file arrives unless its target is taken and no note has it; the others stay; the
                 commit names the files that left and those that arrived;
* `moveFolder_lossless`
-/

namespace Kajet.Folders
open Str Table Links Files Files.FileTree Fallible

variable {β : Type} {faults : Faults} {targets : List (Path × Path)} {src dst : Path} {tmp : Text} {x : Path}
  {t aside t' : FileTree Text β} {rs files : List Path} {b : β}

/-- There is something at the path, and it does not go away with the source. -/
def Taken (t : FileTree Text β) (src x : Path) : Prop := ¬ src <+: x ∧ t.node x ≠ none

theorem taken_iff (hok : t.rename src [tmp] = .ok aside) (hdir : t.node src = some .dir)
    (hunused : Unused t dst tmp files) (hx : ¬ [tmp] <+: x) : aside.node x ≠ none ↔ Taken t src x := by
  rw [node_aside hok hdir hunused, if_neg hx]
  by_cases hsx : src <+: x
  · rw [if_pos hsx]
    exact iff_of_false (fun h => h rfl) fun h => h.1 hsx
  · rw [if_neg hsx]
    exact ⟨fun h => ⟨hsx, h⟩, fun h => h.2⟩

/-- The files in the end: those that arrived, and those that were not below the source. -/
theorem file_after {made : Path → Prop} {c : FileTree Text β} (hok : t.rename src [tmp] = .ok aside)
    (hdir : t.node src = some .dir) (hunused : Unused t dst tmp files) (hrs : rs ⊆ files)
    (haway : Away made dst [tmp] aside rs c) :
    (c.removeTree [tmp]).node x = some (.file b) ↔
      (∃ r ∈ rs, x = dst ++ r ∧ t.node (src ++ r) = some (.file b)) ∨
        ¬ src <+: x ∧ t.node x = some (.file b) := by
  have htmp : c.node [tmp] = some .dir := by
    refine haway.dir ?_
    rw [node_aside hok hdir hunused, if_pos (List.prefix_refl _)]
    simpa using hdir
  have hfrom : ∀ r, aside.node ([tmp] ++ r) = t.node (src ++ r) := by
    intro r
    rw [node_aside hok hdir hunused, if_pos (List.prefix_append _ r)]
    simp
  rw [node_removeTree (by simp) htmp]
  constructor
  · intro h
    split at h
    · cases h
    rename_i hx
    by_cases hmoved : ∃ r ∈ rs, x = dst ++ r
    · obtain ⟨r, hr, rfl⟩ := hmoved
      obtain ⟨b', hfile, -, -, hthere⟩ := haway.moved r hr
      rw [hthere] at h
      cases h
      exact .inl ⟨r, hr, rfl, by rw [← hfrom, hfile]⟩
    · have hkept := haway.kept x fun r hr =>
        ⟨fun heq => hx (heq ▸ List.prefix_append _ r), fun heq => hmoved ⟨r, hr, heq⟩⟩
      rcases hkept with heq | ⟨_, hdir', _⟩
      · rw [h, node_aside hok hdir hunused, if_neg hx] at heq
        split at heq
        · cases heq
        · rename_i hsx
          exact .inr ⟨hsx, heq.symm⟩
      · rw [h] at hdir'
        cases hdir'
  · rintro (⟨r, hr, rfl, hfile⟩ | ⟨hsx, hfile⟩)
    · obtain ⟨b', hfile', -, -, hthere⟩ := haway.moved r hr
      rw [hfrom, hfile] at hfile'
      cases hfile'
      rw [if_neg (hunused.apart r (hrs hr)), hthere]
    · have hx : ¬ [tmp] <+: x := by
        intro htx
        rw [none_below htx hunused.absent] at hfile
        cases hfile
      rw [if_neg hx]
      refine haway.file ?_ fun r _ heq => hx (heq ▸ List.prefix_append _ r)
      rw [node_aside hok hdir hunused, if_neg hx, if_neg hsx, hfile]

/-- What a move of the folder `src` to `dst` does to the files, and what its commit says. -/
structure Lossless (rows : List IndexedNote) (folder : Text) (src dst : Path) (t t' : FileTree Text β)
    (c : Commit) : Prop where
  /-- a file arrives, with its bytes -/
  arrived : ∀ r b, t.node (src ++ r) = some (.file b) → ¬ Taken t src (dst ++ r) →
    t'.node (dst ++ r) = some (.file b)
  /-- a file of a note is never dropped -/
  notes : ∀ r b, t.node (src ++ r) = some (.file b) → Taken t src (dst ++ r) →
    ∀ n ∈ rows, underFolder folder n = true → noteFile n ≠ src ++ r
  others : ∀ x b, ¬ src <+: x → t.node x = some (.file b) → t'.node x = some (.file b)
  removed : ∀ x, x ∈ c.removed ↔ src <+: x ∧ ∃ b, t.node x = some (.file b)
  added : ∀ x, x ∈ c.added ↔ ∃ r b, x = dst ++ r ∧ t.node (src ++ r) = some (.file b) ∧ ¬ Taken t src x
  /-- elsewhere nothing changes -/
  unchanged : ∀ x b, x ∉ c.removed → x ∉ c.added →
    (t'.node x = some (.file b) ↔ t.node x = some (.file b))
  /-- what is named changes, but for a file that another one with the same bytes replaces -/
  changed : ∀ x b, x ∈ c.removed ∨ x ∈ c.added → t.node x = some (.file b) → t'.node x = some (.file b) →
    x ∈ c.removed ∧ ∃ r, x = dst ++ r ∧ t.node (src ++ r) = some (.file b)

/-- Every note of the folder has its target. -/
theorem noteTargets_mem {folder dest : Text} {notes : List IndexedNote} {n : IndexedNote} {r : Path}
    (h : noteTargets folder dest notes = .ok targets) (hn : n ∈ notes)
    (hfile : noteFile n = pathSegments folder ++ r) : targets.lookup r ≠ none := by
  obtain ⟨y, hy, hyn⟩ := exists_of_mapM_ok h hn
  obtain ⟨rel, hrel, hyn⟩ := bind_ok hyn
  cases hyn
  unfold relativeTo at hrel
  split at hrel
  · cases hrel
    obtain ⟨target, hlookup⟩ := exists_lookup hy
    rw [hfile, List.drop_left] at hlookup
    rw [hlookup]
    exact Option.some_ne_none _
  · cases hrel

/-- The plan has a target for every note of the folder. -/
theorem preflight_targets {env : LinkEnv} {st : Store β} {folder dest : Text} {plan : Plan} {n : IndexedNote}
    {r : Path} (h : preflight env st folder dest = .ok (some plan)) (hn : n ∈ st.rows)
    (hunder : underFolder plan.src n = true) (hfile : noteFile n = pathSegments plan.src ++ r) :
    plan.targets.lookup r ≠ none := by
  obtain ⟨src', hsrc, h⟩ := bind_ok h
  obtain ⟨dst', hdst, h⟩ := bind_ok h
  split at h
  · cases h
  split at h
  · cases h
  split at h
  · cases h
  dsimp only at h
  split at h
  · cases h
  split at h
  · cases h
  split at h
  · cases h
  · obtain ⟨targets, htargets, h⟩ := bind_ok h
    cases h
    exact noteTargets_mem htargets (List.mem_filter.mpr ⟨hn, hunder⟩) hfile

/-- **`move_folder` loses nothing** but files without a note whose target is taken. -/
theorem moveFolder_lossless {env : LinkEnv} {st st' : Store β} {folder dest : Text} {plan : Plan}
    (hplan : preflight env st folder dest = .ok (some plan))
    (hdir : st.tree.node (pathSegments plan.src) = some .dir)
    (hlists : Lists st.tree (pathSegments plan.src) files)
    (hunused : Unused st.tree (pathSegments plan.dst) tmp files)
    (h : moveFolder env faults st folder dest tmp files = (st', .ok ())) :
    ∃ c, st'.commits = st.commits ++ [c] ∧ Lossless st.rows plan.src (pathSegments plan.src)
      (pathSegments plan.dst) st.tree st'.tree c := by
  unfold moveFolder at h
  rw [hplan] at h
  dsimp only at h
  split at h
  · cases h
  rename_i tree added htree
  cases h
  refine ⟨_, rfl, ?_⟩
  unfold moveTree at htree
  rw [if_neg (by rw [has, hdir]; simp)] at htree
  split at htree
  · cases htree
  rename_i aside hok
  have hsource := source_aside hok hdir hunused hlists
  have hstart : Carrying (Made faults (pathSegments plan.dst) []) (pathSegments plan.dst) [tmp] aside []
      ⟨aside, [], []⟩ := ⟨away_nil _, rfl, rfl⟩
  have hall : [] ++ files ⊆ files := List.Subset.refl files
  have hnodup : ([] ++ files).Nodup := hlists.nodup
  obtain ⟨-, hcases, -⟩ := carry_cases hsource (preflight_ok hplan).2.2.2 files hall hnodup
    (List.nil_subset _) hstart
  split at htree
  swap
  · split at htree
    · cases htree
    · split at htree <;> cases htree
  rename_i c hcarry
  rw [hcarry] at hcases
  obtain ⟨rs, -, hrs, hcarrying, hskip⟩ := hcases rfl
  rw [List.nil_append] at hrs
  cases htree
  have hafter := fun x b => file_after (x := x) (b := b) hok hdir hunused hrs hcarrying.away
  -- a file has moved exactly when its target was free
  have hfree : ∀ r ∈ files, r ∈ rs ↔ ¬ Taken st.tree (pathSegments plan.src) (pathSegments plan.dst ++ r) := by
    intro r hr
    rw [← taken_iff hok hdir hunused (hunused.apart r hr), not_not]
    constructor
    · intro hmoved
      obtain ⟨_, _, _, hnone, _⟩ := hcarrying.away.moved r hmoved
      exact hnone
    · exact fun hnone => (hskip r hr).resolve_right fun htaken => htaken.2 hnone
  have hmem : ∀ r b, st.tree.node (pathSegments plan.src ++ r) = some (.file b) → r ∈ files := by
    intro r b hfile
    refine (hlists.mem r).mpr ⟨?_, b, hfile⟩
    rintro rfl
    rw [List.append_nil, hdir] at hfile
    cases hfile
  have hremoved : ∀ x, x ∈ files.map (pathSegments plan.src ++ ·) ↔
      pathSegments plan.src <+: x ∧ ∃ b, st.tree.node x = some (.file b) := by
    intro x
    rw [List.mem_map]
    constructor
    · rintro ⟨r, hr, rfl⟩
      exact ⟨List.prefix_append _ r, ((hlists.mem r).mp hr).2⟩
    · rintro ⟨⟨r, rfl⟩, b, hfile⟩
      exact ⟨r, hmem r b hfile, rfl⟩
  have hadded : ∀ x, x ∈ c.added ↔ ∃ r b, x = pathSegments plan.dst ++ r ∧
      st.tree.node (pathSegments plan.src ++ r) = some (.file b) ∧ ¬ Taken st.tree (pathSegments plan.src) x := by
    intro x
    rw [hcarrying.added, List.mem_map]
    constructor
    · rintro ⟨r, hr, rfl⟩
      obtain ⟨-, b, hfile⟩ := (hlists.mem r).mp (hrs hr)
      exact ⟨r, b, rfl, hfile, (hfree r (hrs hr)).mp hr⟩
    · rintro ⟨r, b, rfl, hfile, hnot⟩
      exact ⟨r, (hfree r (hmem r b hfile)).mpr hnot, rfl⟩
  have harrived : ∀ r b, st.tree.node (pathSegments plan.src ++ r) = some (.file b) → r ∈ rs →
      (c.tree.removeTree [tmp]).node (pathSegments plan.dst ++ r) = some (.file b) :=
    fun r b hfile hr => (hafter _ b).mpr (.inl ⟨r, hr, rfl, hfile⟩)
  refine ⟨fun r b hfile hnot => harrived r b hfile ((hfree r (hmem r b hfile)).mpr hnot), ?_, ?_, hremoved,
    hadded, ?_, ?_⟩
  · intro r b hfile htaken n hn hunder hnote
    have hr := hmem r b hfile
    rcases hskip r hr with hmoved | ⟨hlookup, _⟩
    · exact (hfree r hr).mp hmoved htaken
    · exact preflight_targets hplan hn hunder hnote hlookup
  · exact fun x b hsx hfile => (hafter x b).mpr (.inr ⟨hsx, hfile⟩)
  · intro x b hnotRemoved hnotAdded
    refine (hafter x b).trans ⟨?_, fun hfile => .inr ⟨fun hsx => ?_, hfile⟩⟩
    · rintro (⟨r, hr, rfl, hfile⟩ | ⟨-, hfile⟩)
      · exact absurd ((hadded _).mpr ⟨r, b, rfl, hfile, (hfree r (hrs hr)).mp hr⟩) hnotAdded
      · exact hfile
    · exact hnotRemoved ((hremoved x).mpr ⟨hsx, b, hfile⟩)
  · intro x b hnamed hbefore hthere
    have hsx : pathSegments plan.src <+: x := by
      rcases hnamed with hremoved' | hadded'
      · exact ((hremoved x).mp hremoved').1
      · obtain ⟨-, -, -, -, hnot⟩ := (hadded x).mp hadded'
        by_contra hsx
        exact hnot ⟨hsx, by rw [hbefore]; simp⟩
    refine ⟨(hremoved x).mpr ⟨hsx, b, hbefore⟩, ?_⟩
    rcases (hafter x b).mp hthere with ⟨r, -, hx, hfile⟩ | ⟨hnot, -⟩
    · exact ⟨r, hx, hfile⟩
    · exact absurd hsx hnot

/-- Both folders have a `z.png`. -/
def mergeStore : Store Nat where
  rows := [⟨"n1", "a".toList, "N".toList⟩]
  tree := ofEntries [(pathOf ["a"], .dir), (pathOf ["a", "N.md"], .file 1), (pathOf ["a", "z.png"], .file 2),
    (pathOf ["b"], .dir), (pathOf ["b", "z.png"], .file 3)] (by decide +kernel)
  commits := []

/-- Its `a` is moved to `b`. -/
def merge : Store Nat × Except FolderError Unit :=
  moveFolder moveEnv freely mergeStore "a".toList "b".toList ".kajet-move-0".toList
    [pathOf ["z.png"], pathOf ["N.md"]]

theorem merge_ok : merge.2 = .ok () := ok_of_toOption (by decide +kernel)

theorem moveFolder_lossless_merge : ∃ c, merge.1.commits = mergeStore.commits ++ [c] ∧
    Lossless mergeStore.rows "a".toList (pathSegments "a".toList) (pathSegments "b".toList) mergeStore.tree
      merge.1.tree c := by
  have hplan : preflight moveEnv mergeStore "a".toList "b".toList = .ok (some ⟨"a".toList, "b".toList,
      [(pathOf ["N.md"], pathOf ["b", "N.md"])]⟩) := ok_of_toOption (by decide +kernel)
  refine moveFolder_lossless hplan (by decide +kernel) ?_ ⟨by decide +kernel, by decide +kernel⟩
    (Prod.ext rfl merge_ok)
  exact lists_of_entries (by decide +kernel) (by decide +kernel) (by decide +kernel)

/-- Two files with the same bytes; at the root the inner one takes the place of the outer one. -/
def twinStore : Store Nat where
  rows := []
  tree := ofEntries [(pathOf ["a"], .dir), (pathOf ["a", "a"], .dir), (pathOf ["a", "x.png"], .file 1),
    (pathOf ["a", "a", "x.png"], .file 1)] (by decide +kernel)
  commits := []

def replace : Store Nat × Except FolderError Unit :=
  moveFolder moveEnv freely twinStore "a".toList [] ".kajet-move-0".toList
    [pathOf ["x.png"], pathOf ["a", "x.png"]]

/-- The `z.png` of the source is dropped: its bytes are nowhere afterwards.  And a commit names a file that
is as it was. -/
theorem merge_drops :
    (merge.2 = .ok () ∧ mergeStore.tree.node (pathOf ["a", "z.png"]) = some (.file 2) ∧
      ∀ x, merge.1.tree.node x ≠ some (.file 2)) ∧
    replace.2 = .ok () ∧ (∃ c ∈ replace.1.commits, pathOf ["a", "x.png"] ∈ c.removed) ∧
      twinStore.tree.node (pathOf ["a", "x.png"]) = some (.file 1) ∧
      replace.1.tree.node (pathOf ["a", "x.png"]) = some (.file 1) := by
  refine ⟨⟨merge_ok, by decide +kernel, fun x hx => ?_⟩, ok_of_toOption (by decide +kernel), by decide +kernel,
    by decide +kernel, by decide +kernel⟩
  have hne : x ≠ [] := by
    rintro rfl
    rw [node_nil] at hx
    cases hx
  have hmem := mem_of_nodeAt hne hx
  have hall : ∀ e ∈ merge.1.tree.entries, e.2 ≠ .file 2 := by decide +kernel
  exact hall _ hmem rfl

end Kajet.Folders
