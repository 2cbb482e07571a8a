import Mathlib.Data.List.Basic
import Mathlib.Data.List.Find
import Mathlib.Data.List.Infix

/-!
# Trees of directories and files

A path is the list of its segments; the root is `[]`.  What is in the tree has its parents in it, as
directories (`FileTree.parents`).

* `mkdir`, `makeDirs`    one directory, and a directory with its parents;
* `rename`, `removeTree`  a file or a directory gets another path, a directory goes;
* `node_mkdir`, `node_rename_file`, `node_rename_dir`, `node_removeTree`   what is where afterwards;
* `node_makeDirs`        directories are made on the way, and nothing else changes.
-/

namespace Kajet.Files

inductive Node (β : Type) where
  | dir
  | file (content : β)
deriving DecidableEq

inductive FileError (σ : Type) where
  | exists (path : List σ)
  | missing (path : List σ)
  | notADirectory (path : List σ)
  | notEmpty (path : List σ)
  | invalid (path : List σ)
  /-- the system refuses -/
  | refused (path : List σ)
deriving DecidableEq

section
variable {σ β : Type} [DecidableEq σ]

def nodeAt (entries : List (List σ × Node β)) (p : List σ) : Option (Node β) :=
  if p = [] then some .dir else (entries.find? fun e => e.1 = p).map (·.2)

@[simp] theorem nodeAt_nil (entries : List (List σ × Node β)) : nodeAt entries [] = some .dir := if_pos rfl

theorem nodeAt_of_ne {entries : List (List σ × Node β)} {p : List σ} (hp : p ≠ []) :
    nodeAt entries p = (entries.find? fun e => e.1 = p).map (·.2) := if_neg hp

theorem nodeAt_cons {entries : List (List σ × Node β)} {p x : List σ} {n : Node β} (hp : p ≠ []) :
    nodeAt ((p, n) :: entries) x = if x = p then some n else nodeAt entries x := by
  by_cases hx : x = []
  · rw [hx, nodeAt_nil, nodeAt_nil, if_neg hp.symm]
  · rw [nodeAt_of_ne hx, nodeAt_of_ne hx, List.find?_cons]
    by_cases hxp : x = p
    · simp [hxp]
    · rw [if_neg hxp]
      simp [Ne.symm hxp]

theorem nodeAt_filter {entries : List (List σ × Node β)} (keep : List σ → Bool) {x : List σ} (hx : x ≠ []) :
    nodeAt (entries.filter fun e => keep e.1) x = if keep x then nodeAt entries x else none := by
  rw [nodeAt_of_ne hx, nodeAt_of_ne hx, List.find?_filter]
  split
  · rename_i hkeep
    refine congrArg (Option.map _) (congrArg (List.find? · entries) (funext fun e => ?_))
    by_cases he : e.1 = x
    · simp [he, hkeep]
    · simp [he]
  · rename_i hkeep
    rw [List.find?_eq_none.mpr, Option.map_none]
    intro e _ he
    by_cases hex : e.1 = x
    · simp [hex, hkeep] at he
    · simp [hex] at he

theorem nodeAt_isSome {entries : List (List σ × Node β)} {e : List σ × Node β} (he : e ∈ entries) :
    nodeAt entries e.1 ≠ none := by
  intro hnone
  by_cases hx : e.1 = []
  · rw [hx, nodeAt_nil] at hnone
    cases hnone
  · rw [nodeAt_of_ne hx, Option.map_eq_none_iff, List.find?_eq_none] at hnone
    exact hnone e he (decide_eq_true rfl)

theorem mem_of_nodeAt {entries : List (List σ × Node β)} {p : List σ} {n : Node β} (hp : p ≠ [])
    (h : nodeAt entries p = some n) : (p, n) ∈ entries := by
  rw [nodeAt_of_ne hp] at h
  obtain ⟨e, he, rfl⟩ := Option.map_eq_some_iff.mp h
  obtain rfl : e.1 = p := by simpa using List.find?_some he
  exact List.mem_of_find?_eq_some he

end

structure FileTree (σ β : Type) [DecidableEq σ] where
  entries : List (List σ × Node β)
  parents : ∀ p s, nodeAt entries (p ++ [s]) ≠ none → nodeAt entries p = some .dir

variable {σ β : Type} [DecidableEq σ]

namespace FileTree

def node (t : FileTree σ β) (p : List σ) : Option (Node β) := nodeAt t.entries p

/-- `Path.exists` -/
def has (t : FileTree σ β) (p : List σ) : Bool := (t.node p).isSome

def isDir (t : FileTree σ β) (p : List σ) : Bool :=
  match t.node p with
  | some .dir => true
  | _ => false

/-- There is something below the path. -/
def busy (t : FileTree σ β) (p : List σ) : Bool := t.entries.any fun e => p.isPrefixOf e.1 && p ≠ e.1

theorem parents_of_entries {entries : List (List σ × Node β)}
    (h : ∀ e ∈ entries, nodeAt entries e.1.dropLast = some .dir) (p : List σ) (s : σ)
    (hnode : nodeAt entries (p ++ [s]) ≠ none) : nodeAt entries p = some .dir := by
  obtain ⟨n, hn⟩ := Option.ne_none_iff_exists'.mp hnode
  have hparent := h _ (mem_of_nodeAt (by simp) hn)
  rwa [List.dropLast_concat] at hparent

/-- A tree from its entries. -/
def ofEntries (entries : List (List σ × Node β))
    (h : ∀ e ∈ entries, nodeAt entries e.1.dropLast = some .dir) : FileTree σ β :=
  ⟨entries, parents_of_entries h⟩

@[simp] theorem node_nil (t : FileTree σ β) : t.node [] = some .dir := nodeAt_nil _

variable {t t' : FileTree σ β} {p q x : List σ} {c : β}

theorem isDir_iff : t.isDir p = true ↔ t.node p = some .dir := by
  unfold isDir
  split
  · simp_all
  · rename_i hne
    constructor
    · exact fun h => by cases h
    · exact fun h => absurd h hne

theorem has_eq_false : t.has p = false ↔ t.node p = none := by
  rw [has, Option.isSome_eq_false_iff, Option.isNone_iff_eq_none]

theorem node_parent {s : σ} (h : t.node (p ++ [s]) ≠ none) : t.node p = some .dir := t.parents p s h

theorem node_dropLast (h : t.node p ≠ none) : t.node p.dropLast = some .dir := by
  rcases List.eq_nil_or_concat p with rfl | ⟨q, s, rfl⟩
  · exact t.node_nil
  · rw [List.concat_eq_append] at h ⊢
    rw [List.dropLast_concat]
    exact node_parent h

/-- Everything on the way to a path is a directory. -/
theorem node_above (hpx : p <+: x) (hne : p ≠ x) (h : t.node x ≠ none) : t.node p = some .dir := by
  obtain ⟨r, rfl⟩ := hpx
  induction r using List.reverseRecOn with
  | nil => exact absurd (List.append_nil p).symm hne
  | append_singleton r s ih =>
    rw [← List.append_assoc] at h
    have hparent := node_parent h
    by_cases hr : r = []
    · simpa [hr] using hparent
    · exact ih (by simpa using hr) (by rw [hparent]; simp)

theorem dir_above (hpx : p <+: x) (h : t.node x = some .dir) : t.node p = some .dir := by
  by_cases hne : p = x
  · rwa [hne]
  · exact node_above hpx hne (by rw [h]; simp)

theorem none_below (hpx : p <+: x) (h : t.node p = none) : t.node x = none := by
  by_contra hx
  by_cases hne : p = x
  · exact hx (hne ▸ h)
  · rw [node_above hpx hne hx] at h
    cases h

theorem busy_iff : t.busy p = true ↔ ∃ x, p <+: x ∧ p ≠ x ∧ t.node x ≠ none := by
  rw [busy, List.any_eq_true]
  constructor
  · rintro ⟨e, he, hbelow⟩
    rw [Bool.and_eq_true, List.isPrefixOf_iff_prefix, decide_eq_true_eq] at hbelow
    exact ⟨e.1, hbelow.1, hbelow.2, nodeAt_isSome he⟩
  · rintro ⟨x, hpx, hne, hx⟩
    obtain ⟨n, hn⟩ := Option.ne_none_iff_exists'.mp hx
    have hxne : x ≠ [] := by
      rintro rfl
      exact hne (List.prefix_nil.mp hpx)
    refine ⟨(x, n), mem_of_nodeAt hxne hn, ?_⟩
    rw [Bool.and_eq_true, List.isPrefixOf_iff_prefix, decide_eq_true_eq]
    exact ⟨hpx, hne⟩

theorem not_busy_iff : t.busy p = false ↔ ∀ x, p <+: x → p ≠ x → t.node x = none := by
  rw [← Bool.not_eq_true, busy_iff]
  constructor
  · intro h x hpx hne
    by_contra hx
    exact h ⟨x, hpx, hne, hx⟩
  · rintro h ⟨x, hpx, hne, hx⟩
    exact hx (h x hpx hne)

/-! ## one directory -/

theorem mkdir_parents (t : FileTree σ β) (hparent : t.isDir p.dropLast = true) (hp : p ≠ []) :
    ∀ q s, nodeAt ((p, .dir) :: t.entries) (q ++ [s]) ≠ none →
      nodeAt ((p, .dir) :: t.entries) q = some .dir := by
  intro q s h
  rw [isDir_iff] at hparent
  rw [nodeAt_cons hp] at h ⊢
  by_cases hq : q = p
  · rw [if_pos hq]
  · rw [if_neg hq]
    split at h
    · rename_i heq
      rw [← heq, List.dropLast_concat] at hparent
      exact hparent
    · exact t.parents q s h

def mkdir (t : FileTree σ β) (p : List σ) : Except (FileError σ) (FileTree σ β) :=
  if hp : p = [] ∨ t.has p = true then .error (.exists p)
  else if hparent : t.isDir p.dropLast = true then
    .ok ⟨(p, .dir) :: t.entries, mkdir_parents t hparent (not_or.mp hp).1⟩
  else .error (.missing p.dropLast)

theorem node_mkdir (h : t.mkdir p = .ok t') : t'.node x = if x = p then some .dir else t.node x := by
  unfold mkdir at h
  split at h
  · cases h
  · rename_i hp
    split at h
    · cases h
      exact nodeAt_cons (not_or.mp hp).1
    · cases h

theorem mkdir_ok (hp : p ≠ []) (hnone : t.node p = none) (hparent : t.node p.dropLast = some .dir) :
    ∃ t', t.mkdir p = .ok t' := by
  have hnot : ¬ (p = [] ∨ t.has p = true) := by simp [hp, has_eq_false.mpr hnone]
  exact ⟨_, by rw [mkdir, dif_neg hnot, dif_pos (isDir_iff.mpr hparent)]⟩

/-! ## a directory with its parents -/

/-- Directories are new in `t'`, each one as `made` says, and nothing else is different. -/
def Grew (made : List σ → Prop) (t t' : FileTree σ β) : Prop :=
  ∀ x, t'.node x = t.node x ∨ t.node x = none ∧ t'.node x = some .dir ∧ made x

theorem Grew.refl (made : List σ → Prop) (t : FileTree σ β) : Grew made t t := fun _ => .inl rfl

theorem Grew.trans {made : List σ → Prop} {t'' : FileTree σ β} (h : Grew made t t')
    (h' : Grew made t' t'') : Grew made t t'' := by
  intro x
  rcases h' x with heq | ⟨hnone, hdir, hmade⟩
  · rw [heq]
    exact h x
  · rcases h x with heq | ⟨_, hdir', _⟩
    · exact .inr ⟨heq ▸ hnone, hdir, hmade⟩
    · rw [hnone] at hdir'
      cases hdir'

theorem Grew.mono {made made' : List σ → Prop} (h : Grew made t t') (hmade : ∀ x, made x → made' x) :
    Grew made' t t' := fun x => (h x).imp id fun ⟨hnone, hdir, hx⟩ => ⟨hnone, hdir, hmade x hx⟩

theorem Grew.file_iff {made : List σ → Prop} (h : Grew made t t') :
    t'.node x = some (.file c) ↔ t.node x = some (.file c) := by
  rcases h x with heq | ⟨hnone, hdir, _⟩
  · rw [heq]
  · rw [hnone, hdir]
    simp

theorem Grew.dir {made : List σ → Prop} (h : Grew made t t') (hx : t.node x = some .dir) :
    t'.node x = some .dir := by
  rcases h x with heq | ⟨hnone, _, _⟩
  · rw [heq, hx]
  · rw [hnone] at hx
    cases hx

theorem Grew.none {made : List σ → Prop} (h : Grew made t t') (hx : t.node x = none) (hnot : ¬ made x) :
    t'.node x = none := by
  rcases h x with heq | ⟨_, _, hmade⟩
  · rw [heq, hx]
  · exact absurd hmade hnot

/-- The directories from `base` on. -/
def makeDirsFrom (refuse : List σ → Bool) : List σ → List σ → FileTree σ β →
    FileTree σ β × Option (FileError σ)
  | _, [], t => (t, none)
  | base, s :: rest, t =>
    match t.node (base ++ [s]) with
    | some .dir => makeDirsFrom refuse (base ++ [s]) rest t
    | some (.file _) => (t, some (.notADirectory (base ++ [s])))
    | none =>
      if refuse (base ++ [s]) then (t, some (.refused (base ++ [s])))
      else
        match t.mkdir (base ++ [s]) with
        | .ok t => makeDirsFrom refuse (base ++ [s]) rest t
        | .error e => (t, some e)

/-- `mkdir(parents=True, exist_ok=True)`; the system may refuse to create a directory. -/
def makeDirs (t : FileTree σ β) (refuse : List σ → Bool) (p : List σ) :
    FileTree σ β × Option (FileError σ) :=
  makeDirsFrom refuse [] p t

omit [DecidableEq σ] in
theorem prefix_append_cons (base : List σ) (s : σ) (rest : List σ) :
    base ++ [s] <+: base ++ s :: rest := ⟨rest, by simp⟩

theorem grew_mkdir {made : List σ → Prop} (h : t.mkdir p = .ok t') (hnone : t.node p = none)
    (hmade : made p) : Grew made t t' := by
  intro x
  rw [node_mkdir h]
  split
  · rename_i hx
    exact .inr ⟨hx ▸ hnone, rfl, hx ▸ hmade⟩
  · exact .inl rfl

theorem grew_makeDirsFrom (refuse : List σ → Bool) (base rest : List σ) (t : FileTree σ β) :
    Grew (fun x => refuse x = false ∧ x <+: base ++ rest) t (makeDirsFrom refuse base rest t).1 := by
  induction rest generalizing base t with
  | nil => exact Grew.refl _ t
  | cons s rest ih =>
    have hcons : base ++ [s] ++ rest = base ++ s :: rest := by simp
    unfold makeDirsFrom
    split
    · rw [← hcons]
      exact ih _ _
    · exact Grew.refl _ _
    · rename_i hnone
      split
      · exact Grew.refl _ _
      · rename_i hrefuse
        split
        · rename_i t' hmkdir
          refine (grew_mkdir hmkdir hnone ⟨by simpa using hrefuse, prefix_append_cons base s rest⟩).trans ?_
          rw [← hcons]
          exact ih _ _
        · exact Grew.refl _ _

theorem makeDirsFrom_ok {refuse : List σ → Bool} {base rest : List σ} {t : FileTree σ β}
    (hbase : t.node base = some .dir) (h : (makeDirsFrom refuse base rest t).2 = none) :
    (makeDirsFrom refuse base rest t).1.node (base ++ rest) = some .dir := by
  induction rest generalizing base t with
  | nil =>
    rw [List.append_nil]
    exact hbase
  | cons s rest ih =>
    have hcons : base ++ [s] ++ rest = base ++ s :: rest := by simp
    unfold makeDirsFrom at h ⊢
    split at h
    · rename_i hdir
      rw [← hcons]
      exact ih hdir h
    · cases h
    · rename_i hnone
      split at h
      · cases h
      · rename_i hrefuse
        rw [if_neg hrefuse]
        split at h
        · rename_i t' hmkdir
          rw [← hcons]
          exact ih (by rw [node_mkdir hmkdir, if_pos rfl]) h
        · cases h

/-- Where the making of directories ends: at a directory that the system refuses, or at a file. -/
theorem makeDirsFrom_error {refuse : List σ → Bool} {base rest : List σ} {t : FileTree σ β}
    {e : FileError σ} (hbase : t.node base = some .dir)
    (h : (makeDirsFrom refuse base rest t).2 = some e) :
    ∃ d, d <+: base ++ rest ∧ (makeDirsFrom refuse base rest t).1.node d.dropLast = some .dir ∧
      (refuse d = true ∧ (makeDirsFrom refuse base rest t).1.node d = none ∨
        ∃ c, (makeDirsFrom refuse base rest t).1.node d = some (.file c)) := by
  induction rest generalizing base t with
  | nil => cases h
  | cons s rest ih =>
    have hcons : base ++ [s] ++ rest = base ++ s :: rest := by simp
    unfold makeDirsFrom at h ⊢
    split at h
    · rename_i hdir
      rw [← hcons]
      exact ih hdir h
    · rename_i c hfile
      refine ⟨base ++ [s], prefix_append_cons base s rest, ?_, .inr ⟨c, hfile⟩⟩
      rw [List.dropLast_concat]
      exact hbase
    · rename_i hnone
      split at h
      · rename_i hrefuse
        rw [if_pos hrefuse]
        refine ⟨base ++ [s], prefix_append_cons base s rest, ?_, .inl ⟨hrefuse, hnone⟩⟩
        rw [List.dropLast_concat]
        exact hbase
      · rename_i hrefuse
        rw [if_neg hrefuse]
        split at h
        · rename_i t' hmkdir
          rw [← hcons]
          exact ih (by rw [node_mkdir hmkdir, if_pos rfl]) h
        · rename_i e' hmkdir
          obtain ⟨t', hok⟩ := mkdir_ok (t := t) (p := base ++ [s]) (by simp) hnone
            (by rw [List.dropLast_concat]; exact hbase)
          rw [hok] at hmkdir
          cases hmkdir

theorem grew_makeDirs (t : FileTree σ β) (refuse : List σ → Bool) (p : List σ) :
    Grew (fun x => refuse x = false ∧ x <+: p) t (t.makeDirs refuse p).1 :=
  grew_makeDirsFrom refuse [] p t

theorem makeDirs_ok {refuse : List σ → Bool} (h : (t.makeDirs refuse p).2 = none) :
    (t.makeDirs refuse p).1.node p = some .dir :=
  makeDirsFrom_ok t.node_nil h

theorem makeDirs_error {refuse : List σ → Bool} {e : FileError σ} (h : (t.makeDirs refuse p).2 = some e) :
    ∃ d, d <+: p ∧ (t.makeDirs refuse p).1.node d.dropLast = some .dir ∧
      (refuse d = true ∧ (t.makeDirs refuse p).1.node d = none ∨
        ∃ c, (t.makeDirs refuse p).1.node d = some (.file c)) :=
  makeDirsFrom_error t.node_nil h

/-- A directory that is there needs nothing. -/
theorem makeDirs_of_dir (refuse : List σ → Bool) (h : t.node p = some .dir) :
    t.makeDirs refuse p = (t, none) := by
  have hfrom : ∀ base rest, t.node (base ++ rest) = some .dir → makeDirsFrom refuse base rest t = (t, none) := by
    intro base rest
    induction rest generalizing base with
    | nil => exact fun _ => rfl
    | cons s rest ih =>
      intro hdir
      unfold makeDirsFrom
      rw [dir_above (prefix_append_cons base s rest) hdir]
      exact ih _ (by simpa using hdir)
  exact hfrom [] p h

/-! ## a path goes -/

theorem removeTree_parents (t : FileTree σ β) (p : List σ) :
    ∀ q s, nodeAt (t.entries.filter fun e => !p.isPrefixOf e.1) (q ++ [s]) ≠ none →
      nodeAt (t.entries.filter fun e => !p.isPrefixOf e.1) q = some .dir := by
  intro q s h
  rw [nodeAt_filter (fun x => !p.isPrefixOf x) (by simp)] at h
  split at h
  · rename_i hkeep
    have hq : t.node q = some .dir := node_parent h
    by_cases hnil : q = []
    · rw [hnil, nodeAt_nil]
    · rw [nodeAt_filter (fun x => !p.isPrefixOf x) hnil, if_pos]
      · exact hq
      · rw [Bool.not_eq_true', ← Bool.not_eq_true, List.isPrefixOf_iff_prefix] at hkeep ⊢
        exact fun hpq => hkeep (hpq.trans (List.prefix_append q [s]))
  · exact absurd rfl h

/-- `rmtree` of a directory; a file stays. -/
def removeTree (t : FileTree σ β) (p : List σ) : FileTree σ β :=
  if p = [] ∨ t.isDir p = false then t
  else ⟨t.entries.filter fun e => !p.isPrefixOf e.1, removeTree_parents t p⟩

theorem node_removeTree (hp : p ≠ []) (hdir : t.node p = some .dir) :
    (t.removeTree p).node x = if p <+: x then none else t.node x := by
  rw [removeTree, if_neg (by simp [hp, isDir_iff.mpr hdir])]
  by_cases hx : x = []
  · rw [hx, node_nil, node_nil, if_neg (by simpa using hp)]
  · show nodeAt _ x = _
    rw [nodeAt_filter (fun x => !p.isPrefixOf x) hx]
    by_cases hpx : p <+: x
    · rw [if_pos hpx, if_neg (by simpa using hpx)]
    · rw [if_neg hpx, if_pos (by simpa [← List.isPrefixOf_iff_prefix] using hpx)]
      rfl

/-! ## a file gets another path -/

theorem rename_file_parents (t : FileTree σ β) (hfile : t.node p = some (.file c)) (hq : q ≠ [])
    (hparent : t.isDir q.dropLast = true) (hfree : t.isDir q = false) :
    ∀ x s, nodeAt ((q, .file c) :: t.entries.filter fun e => e.1 ≠ p) (x ++ [s]) ≠ none →
      nodeAt ((q, .file c) :: t.entries.filter fun e => e.1 ≠ p) x = some .dir := by
  intro x s h
  rw [isDir_iff] at hparent
  have hne : ∀ y, t.node y = some .dir → y ≠ p ∧ y ≠ q := by
    intro y hy
    constructor
    · rintro rfl
      rw [hfile] at hy
      cases hy
    · rintro rfl
      rw [isDir_iff.mpr hy] at hfree
      cases hfree
  have hx : t.node x = some .dir := by
    rw [nodeAt_cons hq] at h
    split at h
    · rename_i heq
      rw [← heq, List.dropLast_concat] at hparent
      exact hparent
    · rw [nodeAt_filter (fun y => y ≠ p) (by simp)] at h
      split at h
      · exact node_parent h
      · exact absurd rfl h
  rw [nodeAt_cons hq, if_neg (hne x hx).2]
  by_cases hnil : x = []
  · rw [hnil, nodeAt_nil]
  · rw [nodeAt_filter (fun y => y ≠ p) hnil, if_pos (by simpa using (hne x hx).1)]
    exact hx

/-- A file is renamed; one that has the new path is replaced. -/
def renameFile (t : FileTree σ β) (p q : List σ) {c : β} (hfile : t.node p = some (.file c)) :
    Except (FileError σ) (FileTree σ β) :=
  if p = q then .ok t
  else if h : q ≠ [] ∧ t.isDir q.dropLast = true ∧ t.isDir q = false then
    .ok ⟨(q, .file c) :: t.entries.filter fun e => e.1 ≠ p, rename_file_parents t hfile h.1 h.2.1 h.2.2⟩
  else .error (.invalid q)

theorem node_renameFile {hfile : t.node p = some (.file c)} (h : t.renameFile p q hfile = .ok t') :
    t'.node x = if x = q then some (.file c) else if x = p then none else t.node x := by
  have hpne : p ≠ [] := by
    rintro rfl
    rw [node_nil] at hfile
    cases hfile
  unfold renameFile at h
  split at h
  · rename_i hpq
    cases h
    split
    · rename_i hx
      rw [hx, ← hpq, hfile]
    · rename_i hx
      rw [if_neg (hpq ▸ hx)]
  · split at h
    · rename_i hq
      cases h
      show nodeAt _ x = _
      rw [nodeAt_cons hq.1]
      refine if_congr Iff.rfl rfl ?_
      by_cases hnil : x = []
      · rw [hnil, nodeAt_nil, node_nil, if_neg hpne.symm]
      · rw [nodeAt_filter (fun y => y ≠ p) hnil]
        by_cases hxp : x = p
        · simp [hxp]
        · rw [if_neg hxp, if_pos (by simpa using hxp)]
          rfl
    · cases h

theorem renameFile_ok (hfile : t.node p = some (.file c)) (hq : q ≠ [])
    (hparent : t.node q.dropLast = some .dir) (hfree : t.node q = none) :
    ∃ t', t.renameFile p q hfile = .ok t' := by
  have hdir : t.isDir q = false := by
    rw [← Bool.not_eq_true, isDir_iff, hfree]
    simp
  unfold renameFile
  split
  · exact ⟨t, rfl⟩
  · exact ⟨_, dif_pos ⟨hq, isDir_iff.mpr hparent, hdir⟩⟩

/-! ## a directory gets another path -/

/-- The path of an entry after `p` has become `q`. -/
def moved (p q x : List σ) : List σ := if p.isPrefixOf x then q ++ x.drop p.length else x

def renameEntries (t : FileTree σ β) (p q : List σ) : List (List σ × Node β) :=
  (t.entries.filter fun e => e.1 ≠ q).map fun e => (moved p q e.1, e.2)

theorem moved_eq_iff (hfree : ∀ y, q <+: y → q ≠ y → t.node y = none) {y : List σ} (hy : t.node y ≠ none)
    (hyq : y ≠ q) :
    moved p q y = x ↔ if q <+: x then y = p ++ x.drop q.length else y = x ∧ ¬ p <+: x := by
  unfold moved
  by_cases hpy : p <+: y
  · obtain ⟨r, rfl⟩ := hpy
    rw [if_pos (List.isPrefixOf_iff_prefix.mpr (List.prefix_append p r)), List.drop_left]
    split
    · rename_i hqx
      obtain ⟨r', rfl⟩ := hqx
      rw [List.drop_left, List.append_cancel_left_eq, List.append_cancel_left_eq]
    · rename_i hqx
      constructor
      · rintro rfl
        exact absurd (List.prefix_append q r) hqx
      · rintro ⟨rfl, hpx⟩
        exact absurd (List.prefix_append p r) hpx
  · rw [if_neg (by simpa using hpy)]
    split
    · rename_i hqx
      constructor
      · -- nothing else is below the new path
        rintro rfl
        exact absurd (hfree y hqx hyq.symm) hy
      · rintro rfl
        exact absurd (List.prefix_append p _) hpy
    · exact ⟨fun h => ⟨h, h ▸ hpy⟩, fun h => h.1⟩

theorem nodeAt_renameEntries (hpq : ¬ p <+: q) (hq : q ≠ [])
    (hfree : ∀ y, q <+: y → q ≠ y → t.node y = none) :
    nodeAt (renameEntries t p q) x =
      if q <+: x then t.node (p ++ x.drop q.length) else if p <+: x then none else t.node x := by
  have hpne : p ≠ [] := by
    rintro rfl
    exact hpq List.nil_prefix
  by_cases hx : x = []
  · have hqx : ¬ q <+: x := by
      rw [hx]
      simpa using hq
    have hpx : ¬ p <+: x := by
      rw [hx]
      simpa using hpne
    rw [if_neg hqx, if_neg hpx, hx, nodeAt_nil, node_nil]
  rw [nodeAt_of_ne hx, renameEntries, List.find?_map, List.find?_filter, Option.map_map]
  have hmoved : ∀ e ∈ t.entries, e.1 ≠ q →
      (moved p q e.1 = x ↔ if q <+: x then e.1 = p ++ x.drop q.length else e.1 = x ∧ ¬ p <+: x) :=
    fun e he => moved_eq_iff hfree (nodeAt_isSome he)
  have hfound : ∀ target : List σ, target ≠ [] → (∀ e ∈ t.entries,
      (e.1 ≠ q ∧ moved p q e.1 = x) ↔ e.1 = target) →
      Option.map ((fun e => e.2) ∘ fun e => (moved p q e.1, e.2)) (t.entries.find? fun e =>
        decide (decide (e.1 ≠ q) = true ∧ ((fun e => decide (e.1 = x)) ∘ fun e => (moved p q e.1, e.2)) e = true)) =
          t.node target := by
    intro target htarget h
    show _ = nodeAt t.entries target
    rw [nodeAt_of_ne htarget]
    refine congrArg _ (List.find?_congr fun e he => Bool.eq_iff_iff.mpr ?_)
    simpa using h e he
  split
  · rename_i hqx
    refine hfound _ (by simp [hpne]) fun e he => ?_
    constructor
    · rintro ⟨hne, heq⟩
      simpa [hqx] using (hmoved e he hne).mp heq
    · intro heq
      have hne : e.1 ≠ q := by
        rintro rfl
        exact hpq (heq ▸ List.prefix_append p _)
      exact ⟨hne, (hmoved e he hne).mpr (by simpa [hqx] using heq)⟩
  · rename_i hqx
    split
    · rename_i hpx
      rw [List.find?_eq_none.mpr, Option.map_none]
      intro e he heq
      have hboth : e.1 ≠ q ∧ moved p q e.1 = x := by simpa using heq
      have hno := (hmoved e he hboth.1).mp hboth.2
      rw [if_neg hqx] at hno
      exact hno.2 hpx
    · rename_i hpx
      refine hfound _ hx fun e he => ?_
      constructor
      · rintro ⟨hne, heq⟩
        have hsame := (hmoved e he hne).mp heq
        rw [if_neg hqx] at hsame
        exact hsame.1
      · intro heq
        have hne : e.1 ≠ q := by
          rintro rfl
          exact hqx (heq ▸ List.prefix_refl _)
        exact ⟨hne, (hmoved e he hne).mpr (by rw [if_neg hqx]; exact ⟨heq, hpx⟩)⟩

theorem rename_dir_parents (t : FileTree σ β) (hpq : ¬ p <+: q) (hq : q ≠ [])
    (hparent : t.node q.dropLast = some .dir) (hfree : ∀ y, q <+: y → q ≠ y → t.node y = none) :
    ∀ x s, nodeAt (renameEntries t p q) (x ++ [s]) ≠ none →
      nodeAt (renameEntries t p q) x = some .dir := by
  intro x s h
  rw [nodeAt_renameEntries hpq hq hfree] at h ⊢
  by_cases hqx : q <+: x
  · obtain ⟨r, rfl⟩ := hqx
    have hlonger : q <+: q ++ r ++ [s] := (List.prefix_append q r).trans (List.prefix_append _ _)
    rw [if_pos hlonger, List.append_assoc, List.drop_left] at h
    rw [if_pos (List.prefix_append q r), List.drop_left]
    rw [← List.append_assoc] at h
    exact node_parent h
  · rw [if_neg hqx]
    by_cases hqs : q <+: x ++ [s]
    · -- the new path itself: its parent was there
      obtain rfl : q = x ++ [s] := by simpa [hqx] using List.prefix_concat_iff.mp hqs
      rw [List.dropLast_concat] at hparent
      rwa [if_neg fun hpx => hpq (hpx.trans (List.prefix_append x [s]))]
    · rw [if_neg hqs] at h
      split at h
      · exact absurd rfl h
      · rename_i hps
        rw [if_neg fun hpx => hps (hpx.trans (List.prefix_append x [s]))]
        exact node_parent h

/-- A directory is renamed; an empty directory that has the new path is replaced. -/
def renameDir (t : FileTree σ β) (p q : List σ) : Except (FileError σ) (FileTree σ β) :=
  if p = q then .ok t
  else if h : ¬ p <+: q ∧ q ≠ [] ∧ t.isDir q.dropLast = true then
    match t.node q with
    | some (.file _) => .error (.notADirectory q)
    | _ =>
      if hfree : t.busy q = false then
        .ok ⟨renameEntries t p q, rename_dir_parents t h.1 h.2.1 (isDir_iff.mp h.2.2) (not_busy_iff.mp hfree)⟩
      else .error (.notEmpty q)
  else .error (.invalid q)

theorem renameDir_ok (hne : p ≠ q) (h : t.renameDir p q = .ok t') : ¬ p <+: q ∧ q ≠ [] ∧
    (∀ y, q <+: y → q ≠ y → t.node y = none) ∧ (∀ c, t.node q ≠ some (.file c)) ∧
    ∀ x, t'.node x =
      if q <+: x then t.node (p ++ x.drop q.length) else if p <+: x then none else t.node x := by
  unfold renameDir at h
  rw [if_neg hne] at h
  split at h
  · rename_i hq
    split at h
    · cases h
    · rename_i hnode
      split at h
      · rename_i hfree
        have hfree' := not_busy_iff.mp hfree
        cases h
        exact ⟨hq.1, hq.2.1, hfree', hnode, fun x => nodeAt_renameEntries hq.1 hq.2.1 hfree'⟩
      · cases h
  · cases h

theorem renameDir_total (hpq : ¬ p <+: q) (hq : q ≠ []) (hparent : t.node q.dropLast = some .dir)
    (hfile : ∀ c, t.node q ≠ some (.file c)) (hfree : t.busy q = false) :
    ∃ t', t.renameDir p q = .ok t' := by
  unfold renameDir
  split
  · exact ⟨t, rfl⟩
  · rw [dif_pos ⟨hpq, hq, isDir_iff.mpr hparent⟩]
    split
    · rename_i c hc
      exact absurd hc (hfile c)
    · exact ⟨_, rfl⟩

/-- What stands in the way of a directory. -/
theorem renameDir_busy (hne : p ≠ q) (h : t.busy q = true) : ∃ e, t.renameDir p q = .error e := by
  cases hok : t.renameDir p q with
  | error e => exact ⟨e, rfl⟩
  | ok t' =>
    have hfree := not_busy_iff.mpr (renameDir_ok hne hok).2.2.1
    rw [h] at hfree
    cases hfree

/-- `Path.rename` -/
def rename (t : FileTree σ β) (p q : List σ) : Except (FileError σ) (FileTree σ β) :=
  match hnode : t.node p with
  | none => .error (.missing p)
  | some (.file _) => t.renameFile p q hnode
  | some .dir => t.renameDir p q

theorem rename_of_file (hfile : t.node p = some (.file c)) : t.rename p q = t.renameFile p q hfile := by
  unfold rename
  split
  · rename_i hnone
    rw [hfile] at hnone
    cases hnone
  · rename_i c' hc
    have heq := hfile.symm.trans hc
    cases heq
    rfl
  · rename_i hdir
    rw [hfile] at hdir
    cases hdir

theorem rename_of_dir (hdir : t.node p = some .dir) : t.rename p q = t.renameDir p q := by
  unfold rename
  split
  · rename_i hnone
    rw [hdir] at hnone
    cases hnone
  · rename_i c hc
    rw [hdir] at hc
    cases hc
  · rfl

theorem node_rename_file (hfile : t.node p = some (.file c)) (h : t.rename p q = .ok t') :
    t'.node x = if x = q then some (.file c) else if x = p then none else t.node x := by
  rw [rename_of_file hfile] at h
  exact node_renameFile h

theorem rename_file_ok (hfile : t.node p = some (.file c)) (hq : q ≠ [])
    (hparent : t.node q.dropLast = some .dir) (hfree : t.node q = none) :
    ∃ t', t.rename p q = .ok t' := by
  rw [rename_of_file hfile]
  exact renameFile_ok hfile hq hparent hfree

end FileTree
end Kajet.Files
