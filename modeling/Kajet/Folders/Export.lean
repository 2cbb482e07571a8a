import Kajet.Folders.Natural
import Kajet.Lib.Budget

/-!
# The export of a folder

The notes of the folder whose files are there become one document; from the first one on that does not fit they are
listed as omitted.

* `exportDocument`           the call and its result;
* `present`, `included`      the sections of the files, and those that the loop takes;
* `Accounts`                 every note with a file is in the document or omitted, and the document is as long as allowed;
* `exportDocument_iff`       the export accounts for the notes exactly when its first row or its first file fits, and the
                             separators do.
-/

namespace Kajet.Folders
open Str Rank Table Links Reindex Fallible Budget

inductive ExportError where
  | folder (e : MoveError)
  | sort (e : SortError)
  /-- a file that does not parse -/
  | unreadable

structure ExportResult where
  markdown : Text
  noteCount : ℕ
  totalChars : ℕ
  truncated : Bool
  omitted : List (String × Text × ℕ)
deriving DecidableEq

def separator : Text := "\n---\n\n".toList

def Export.result (e : Export) : ExportResult :=
  let markdown := List.intercalate separator e.parts
  ⟨markdown, e.parts.length, markdown.length, e.truncated, e.omitted⟩

/-- `export_folder`; as no section is empty, a negative bound is like 0. -/
def exportDocument (U : Unicode) (lib : Library) (db : Db) (files : Frontmatter.Files) (folder : Text) (maxChars : ℤ) :
    Except ExportError ExportResult := do
  let scope ← (normalizedFolder folder).mapError .folder
  let notes ← (U.folderSorted (lib.listUnderFolder db scope)).mapError .sort
  let e ← (exportNotes files maxChars.toNat notes).elim (.error .unreadable) .ok
  return e.result

/-! ## the loop -/

section
variable (files : Frontmatter.Files)

/-- The section of a note, when its file is there. -/
def sectionOf (n : Note) : Option (Note × Text) :=
  match files.read (notePath n.toIndexedNote) with
  | some (.post _ content) => some (n, section_ n content)
  | _ => none

def present (notes : List Note) : List (Note × Text) := notes.filterMap (sectionOf files)

def Readable (notes : List Note) : Prop := ∀ n ∈ notes, files.read (notePath n.toIndexedNote) ≠ some .unreadable

def size (x : Note × Text) : ℕ := x.2.length

def omission (x : Note × Text) : String × Text × ℕ := (x.1.noteId, x.1.title, size x)

/-- What the loop takes of these sections. -/
def Export.takes (maxChars : ℕ) (e : Export) (ps : List (Note × Text)) : List (Note × Text) :=
  if e.truncated then [] else taken size maxChars e.totalChars ps

def Export.after (maxChars : ℕ) (e : Export) (ps : List (Note × Text)) : Export where
  parts := e.parts ++ (e.takes maxChars ps).map (·.2)
  omitted := e.omitted ++ (ps.drop (e.takes maxChars ps).length).map omission
  totalChars := e.totalChars + total size (e.takes maxChars ps)
  truncated := e.truncated || (e.takes maxChars ps).length < ps.length

variable {files} {maxChars k : ℕ} {e e' : Export} {notes : List Note} {ps : List (Note × Text)} {n : Note}

theorem after_nil : e.after maxChars [] = e := by
  cases e
  simp [Export.after, Export.takes, taken]

theorem add_missing (h : files.read (notePath n.toIndexedNote) ≠ some .unreadable) (hsection : sectionOf files n = none) :
    e.add files maxChars (n, k) = some e := by
  unfold sectionOf at hsection
  unfold Export.add
  cases hread : files.read (notePath n.toIndexedNote) with
  | none => rfl
  | some d =>
    cases d with
    | unreadable => exact absurd hread h
    | post m content =>
      rw [hread] at hsection
      cases hsection

theorem takes_cons {x : Note × Text} : e.takes maxChars (x :: ps) =
    if (e.truncated || decide (maxChars < e.totalChars + size x)) = true then []
    else x :: taken size maxChars (e.totalChars + size x) ps := by
  unfold Export.takes
  cases e.truncated with
  | true => rfl
  | false =>
    rw [if_neg Bool.false_ne_true, taken, Bool.false_or]
    by_cases hfits : e.totalChars + size x ≤ maxChars
    · rw [if_pos hfits, if_neg (by simpa using hfits)]
    · rw [if_neg hfits, if_pos (by simpa using hfits)]

/-- A file that is there adds one section to one of the lists. -/
theorem add_section {x : Note × Text} (hk : 0 < k) (h : sectionOf files n = some x) :
    ∃ e', e.add files maxChars (n, k) = some e' ∧ ∀ ps, e.after maxChars (x :: ps) = e'.after maxChars ps := by
  unfold sectionOf at h
  split at h
  · rename_i m content hread
    cases h
    unfold Export.add
    simp only [hread, decide_eq_true hk, Bool.true_and, Bool.and_true]
    split
    · rename_i hout
      refine ⟨_, rfl, fun ps => ?_⟩
      have htakes : e.takes maxChars ((n, section_ n content) :: ps) = [] := takes_cons.trans (if_pos hout)
      unfold Export.after
      rw [htakes]
      simp only [Export.takes, hout, if_true, List.length_nil, List.drop_zero, List.map_cons, List.map_nil, List.append_nil,
        total_nil, Nat.add_zero, List.append_assoc, List.singleton_append, List.length_cons, Nat.zero_lt_succ,
        decide_true, Bool.or_true, Bool.true_or]
      rfl
    · rename_i hfits
      refine ⟨_, rfl, fun ps => ?_⟩
      have htakes : e.takes maxChars ((n, section_ n content) :: ps) =
          (n, section_ n content) :: taken size maxChars (e.totalChars + (section_ n content).length) ps :=
        takes_cons.trans (if_neg hfits)
      obtain ⟨htruncated, hle⟩ := Bool.or_eq_false_iff.mp (Bool.eq_false_of_not_eq_true hfits)
      unfold Export.after
      rw [htakes]
      simp only [Export.takes, htruncated, hle, Bool.or_false, Bool.false_or, Bool.false_eq_true, if_false, List.length_cons,
        List.drop_succ_cons, List.map_cons, total_cons, List.append_assoc, List.singleton_append, Nat.succ_lt_succ_iff,
        ← Nat.add_assoc]
      rfl
  · cases h

theorem foldlM_add (hk : 0 < k) (h : Readable files notes) :
    (notes.zipIdx k).foldlM (Export.add files maxChars) e = some (e.after maxChars (present files notes)) := by
  induction notes generalizing k e with
  | nil => exact congrArg some after_nil.symm
  | cons n notes ih =>
    have hrest : Readable files notes := fun m hm => h m (List.mem_cons_of_mem _ hm)
    rw [List.zipIdx_cons, List.foldlM_cons, present, List.filterMap_cons]
    cases hsection : sectionOf files n with
    | some x =>
      obtain ⟨e', hadd, hafter⟩ := add_section (e := e) hk hsection
      rw [hadd, hafter]
      exact ih (Nat.succ_pos k) hrest
    | none =>
      rw [add_missing (h n List.mem_cons_self) hsection]
      exact ih (Nat.succ_pos k) hrest

theorem readable_of_foldlM (h : (notes.zipIdx k).foldlM (Export.add files maxChars) e = some e') :
    Readable files notes := by
  induction notes generalizing k e with
  | nil => exact fun n hn => nomatch hn
  | cons n notes ih =>
    rw [List.zipIdx_cons, List.foldlM_cons] at h
    obtain ⟨e₁, hadd, h⟩ := Option.bind_eq_some_iff.mp h
    refine List.forall_mem_cons.mpr ⟨fun hread => ?_, ih h⟩
    rw [Export.add, hread] at hadd
    cases hadd

/-! ## what is included -/

section
variable (files maxChars)

/-- The file of the first row is there. -/
def leads (notes : List Note) : Bool := (notes.head?.bind (sectionOf files)).isSome

def included (notes : List Note) : List (Note × Text) :=
  match leads files notes, present files notes with
  | true, x :: ps => x :: taken size maxChars (size x) ps
  | _, ps => taken size maxChars 0 ps

end

theorem present_cons : present files (n :: notes) =
    (sectionOf files n).elim (present files notes) (· :: present files notes) := by
  rw [present, List.filterMap_cons]
  cases sectionOf files n <;> rfl

theorem exportNotes_eq (h : Readable files notes) : exportNotes files maxChars notes = some
    ⟨(included files maxChars notes).map (·.2),
      ((present files notes).drop (included files maxChars notes).length).map omission,
      total size (included files maxChars notes),
      (included files maxChars notes).length < (present files notes).length⟩ := by
  cases notes with
  | nil => rfl
  | cons n notes =>
    have hrest : Readable files notes := fun m hm => h m (List.mem_cons_of_mem _ hm)
    rw [exportNotes, List.zipIdx_cons, List.foldlM_cons, included, leads, List.head?_cons, Option.bind_some, present_cons]
    cases hsection : sectionOf files n with
    | none =>
      rw [add_missing (h n List.mem_cons_self) hsection]
      refine (foldlM_add Nat.one_pos hrest).trans (congrArg some ?_)
      simp only [Export.after, Export.takes, Bool.false_eq_true, if_false, List.nil_append, Nat.zero_add, Bool.false_or]
      rfl
    | some x =>
      have hadd : Export.add files maxChars ⟨[], [], 0, false⟩ (n, 0) = some ⟨[x.2], [], size x, false⟩ := by
        unfold sectionOf at hsection
        split at hsection
        · rename_i m content hread
          cases hsection
          simp [Export.add, hread, size]
        · cases hsection
      rw [hadd]
      refine (foldlM_add Nat.one_pos hrest).trans (congrArg some ?_)
      simp [Export.after, Export.takes]

theorem size_pos {x : Note × Text} (hx : x ∈ present files notes) : 0 < size x := by
  obtain ⟨n, -, hn⟩ := List.mem_filterMap.mp hx
  unfold sectionOf at hn
  split at hn
  · cases hn
    rw [size, section_, List.length_append]
    exact Nat.succ_pos _
  · cases hn

theorem included_start : included files maxChars notes <+: present files notes := by
  unfold included
  split
  · rename_i x ps _ hpresent
    rw [hpresent]
    exact List.cons_prefix_cons.mpr ⟨rfl, taken_prefix⟩
  · exact taken_prefix

/-- More than one section is within the bound. -/
theorem included_le (h : 1 < (included files maxChars notes).length) :
    total size (included files maxChars notes) ≤ maxChars := by
  unfold included at h ⊢
  split at h
  · rw [List.length_cons] at h
    exact taken_le (List.ne_nil_of_length_pos (by omega))
  · have hle := taken_le (List.ne_nil_of_length_pos (Nat.lt_of_succ_lt h))
    rwa [Nat.zero_add] at hle

theorem length_le_included {j : ℕ} (hj : j ≤ (present files notes).length)
    (h : total size ((present files notes).take j) ≤ maxChars) : j ≤ (included files maxChars notes).length := by
  unfold included
  split
  · rename_i x ps _ hpresent
    rw [hpresent] at hj h
    cases j with
    | zero => exact Nat.zero_le _
    | succ j => exact Nat.succ_le_succ (length_le_taken (Nat.le_of_succ_le_succ hj) (by simpa using h))
  · exact length_le_taken hj (by rwa [Nat.zero_add])

theorem included_ne_nil : included files maxChars notes ≠ [] ↔ present files notes ≠ [] ∧
    (leads files notes = true ∨ ∀ x ∈ (present files notes).head?, size x ≤ maxChars) := by
  unfold included
  cases hpresent : present files notes with
  | nil => cases leads files notes <;> simp [taken]
  | cons x ps =>
    cases leads files notes with
    | true => simp
    | false =>
      show taken size maxChars 0 (x :: ps) ≠ [] ↔ _
      rw [taken, Nat.zero_add]
      by_cases hfits : size x ≤ maxChars <;> simp [hfits]

/-! ## the document -/

theorem length_intercalate {sep : Text} {l : List Text} :
    (List.intercalate sep l).length = (l.map List.length).sum + sep.length * (l.length - 1) := by
  induction l with
  | nil => rfl
  | cons s l ih =>
    cases l with
    | nil => simp
    | cons t l =>
      rw [List.intercalate_cons_cons, List.length_append, List.length_append, ih]
      simp only [List.map_cons, List.sum_cons, List.length_cons, Nat.add_sub_cancel, Nat.mul_succ]
      omega

/-- The document of some sections. -/
def document (ps : List (Note × Text)) : Text := List.intercalate separator (ps.map (·.2))

theorem length_document : (document ps).length = total size ps + 6 * (ps.length - 1) := by
  rw [document, length_intercalate, List.map_map, List.length_map]
  rfl

theorem document_le {qs : List (Note × Text)} (h : ps <+: qs) : (document ps).length ≤ (document qs).length := by
  obtain ⟨rest, rfl⟩ := h
  rw [length_document, length_document, List.length_append, total, total, List.map_append, List.sum_append]
  have := Nat.mul_le_mul_left 6 (show ps.length - 1 ≤ ps.length + rest.length - 1 by omega)
  omega

end

/-! ## the account -/

/-- The files that are there are in the document and in the list of omissions, in order; the document is not empty
without reason, and too long only for one note. -/
structure Accounts (files : Frontmatter.Files) (maxChars : ℤ) (notes : List Note) (r : ExportResult)
    (inside outside : List (Note × Text)) : Prop where
  split : present files notes = inside ++ outside
  markdown : r.markdown = document inside
  noteCount : r.noteCount = inside.length
  omitted : r.omitted = outside.map omission
  nonempty : present files notes ≠ [] → r.markdown ≠ []
  totalChars : r.totalChars = r.markdown.length
  bounded : 1 < inside.length → (r.totalChars : ℤ) ≤ maxChars

/-- The first file fits, unless it is that of the first row. -/
def FirstFits (files : Frontmatter.Files) (maxChars : ℤ) (notes : List Note) : Prop :=
  leads files notes = true ∨ ∀ x ∈ (present files notes).head?, (size x : ℤ) ≤ maxChars

/-- Sections from the first on that fit, more than one, fit with the separators. -/
def SeparatorsFit (files : Frontmatter.Files) (maxChars : ℤ) (notes : List Note) : Prop :=
  ∀ j, 1 < j → j ≤ (present files notes).length → (total size ((present files notes).take j) : ℤ) ≤ maxChars →
    ((document ((present files notes).take j)).length : ℤ) ≤ maxChars

section
variable {files : Frontmatter.Files} {notes : List Note} {ps : List (Note × Text)} {maxChars : ℤ}

theorem total_pos (hps : ps <+: present files notes) (hne : ps ≠ []) : 0 < total size ps := by
  obtain ⟨x, rest, rfl⟩ := List.exists_cons_of_ne_nil hne
  have hx := size_pos (hps.subset List.mem_cons_self)
  rw [total_cons]
  omega

/-- A bound on a positive number. -/
theorem le_iff_toNat {a : ℕ} (h : 0 < a) : (a : ℤ) ≤ maxChars ↔ a ≤ maxChars.toNat := by omega

theorem firstFits_iff : FirstFits files maxChars notes ↔
    (present files notes ≠ [] → included files maxChars.toNat notes ≠ []) := by
  have hhead : (∀ x ∈ (present files notes).head?, (size x : ℤ) ≤ maxChars) ↔
      ∀ x ∈ (present files notes).head?, size x ≤ maxChars.toNat :=
    forall_congr' fun x => forall_congr' fun hx => le_iff_toNat (size_pos (List.mem_of_mem_head? hx))
  rw [FirstFits, hhead, included_ne_nil]
  by_cases hnil : present files notes = []
  · simp [hnil]
  · exact ⟨fun h _ => ⟨hnil, h⟩, fun h => (h hnil).2⟩

theorem separatorsFit_iff : SeparatorsFit files maxChars notes ↔
    (1 < (included files maxChars.toNat notes).length →
      ((document (included files maxChars.toNat notes)).length : ℤ) ≤ maxChars) := by
  have hprefix := @included_start files maxChars.toNat notes
  constructor
  · intro h hmany
    have htake := List.prefix_iff_eq_take.mp hprefix
    have hpos : 0 < total size (included files maxChars.toNat notes) :=
      total_pos hprefix (List.ne_nil_of_length_pos (by omega))
    have hfits := h _ hmany hprefix.length_le
    rw [← htake] at hfits
    exact hfits ((le_iff_toNat hpos).mpr (included_le hmany))
  · intro h j hj hlength hfits
    have htake : (present files notes).take j ≠ [] := by
      refine List.ne_nil_of_length_pos ?_
      rw [List.length_take]
      omega
    have hle := length_le_included hlength ((le_iff_toNat (total_pos (List.take_prefix _ _) htake)).mp hfits)
    have hsub : (present files notes).take j <+: included files maxChars.toNat notes :=
      List.prefix_of_prefix_length_le (List.take_prefix _ _) hprefix (by rw [List.length_take]; omega)
    have hdocument := document_le hsub
    have hbound := h (by omega)
    omega

theorem document_ne_nil (hps : ps <+: present files notes) : document ps ≠ [] ↔ ps ≠ [] := by
  constructor
  · rintro h rfl
    exact h rfl
  · intro hne hnil
    have hlength := @length_document ps
    rw [hnil, List.length_nil] at hlength
    have hpos := total_pos hps hne
    omega

theorem accounts_iff {e : Export} (h : exportNotes files maxChars.toNat notes = some e) :
    (∃ inside outside, Accounts files maxChars notes e.result inside outside) ↔
      FirstFits files maxChars notes ∧ SeparatorsFit files maxChars notes := by
  have hprefix := @included_start files maxChars.toNat notes
  rw [exportNotes_eq (readable_of_foldlM h)] at h
  cases h
  rw [firstFits_iff, separatorsFit_iff, ← document_ne_nil hprefix]
  constructor
  · rintro ⟨inside, outside, h⟩
    have hlength : inside.length = (included files maxChars.toNat notes).length :=
      h.noteCount.symm.trans (List.length_map _)
    have hinside : inside = included files maxChars.toNat notes :=
      (List.prefix_of_prefix_length_le ⟨outside, h.split.symm⟩ hprefix hlength.le).eq_of_length hlength
    rw [← hinside]
    refine ⟨fun hne => h.markdown ▸ h.nonempty hne, fun hmany => ?_⟩
    have hbounded := h.bounded hmany
    rwa [h.totalChars, h.markdown] at hbounded
  · rintro ⟨hfirst, hseparators⟩
    obtain ⟨outside, houtside⟩ := hprefix
    refine ⟨_, outside, houtside.symm, rfl, List.length_map _, ?_, hfirst, rfl, hseparators⟩
    show ((present files notes).drop (included files maxChars.toNat notes).length).map omission = outside.map omission
    rw [← houtside, List.drop_left]

/-- **The export accounts for every note** exactly when its titles can be sorted and its files read, the first file fits
or is that of the first row, and what fits does so with the separators. -/
theorem exportDocument_iff (U : Unicode) (lib : Library) (db : Db) (files : Frontmatter.Files) (folder : Text) (maxChars : ℤ) :
    (∃ r scope notes inside outside, exportDocument U lib db files folder maxChars = .ok r ∧
      normalizedFolder folder = .ok scope ∧ U.folderSorted (lib.listUnderFolder db scope) = .ok notes ∧
      notes.Perm (lib.listUnderFolder db scope) ∧ Accounts files maxChars notes r inside outside) ↔
    ∃ scope, normalizedFolder folder = .ok scope ∧
      (∀ n ∈ lib.listUnderFolder db scope, U.Convertible n.title) ∧ Readable files (lib.listUnderFolder db scope) ∧
      FirstFits files maxChars (ranked U.sortKey (lib.listUnderFolder db scope)) ∧
      SeparatorsFit files maxChars (ranked U.sortKey (lib.listUnderFolder db scope)) := by
  have hrun : ∀ {scope : Text} {notes : List Note}, normalizedFolder folder = .ok scope →
      U.folderSorted (lib.listUnderFolder db scope) = .ok notes → exportDocument U lib db files folder maxChars =
        ((exportNotes files maxChars.toNat notes).elim (.error .unreadable) .ok : Except ExportError Export).map
          Export.result := by
    intro scope notes hscope hnotes
    unfold exportDocument
    rw [hscope]
    show ((U.folderSorted (lib.listUnderFolder db scope)).mapError ExportError.sort >>= _) = _
    rw [hnotes]
    rfl
  constructor
  · rintro ⟨r, scope, notes, inside, outside, hr, hscope, hnotes, -, haccounts⟩
    have hconvertible := Unicode.convertible_of_sorted hnotes
    obtain rfl : ranked U.sortKey (lib.listUnderFolder db scope) = notes :=
      Except.ok.inj ((Unicode.folderSorted_eq hconvertible).symm.trans hnotes)
    rw [hrun hscope hnotes] at hr
    cases hexport : exportNotes files maxChars.toNat (ranked U.sortKey (lib.listUnderFolder db scope)) with
    | none =>
      rw [hexport] at hr
      cases hr
    | some e =>
      rw [hexport] at hr
      cases hr
      exact ⟨scope, hscope, hconvertible, fun n hn => readable_of_foldlM hexport n (mem_ranked.mpr hn),
        (accounts_iff hexport).mp ⟨inside, outside, haccounts⟩⟩
  · rintro ⟨scope, hscope, hconvertible, hreadable, hfits⟩
    have hnotes := Unicode.folderSorted_eq hconvertible
    have hexport := @exportNotes_eq files maxChars.toNat (ranked U.sortKey (lib.listUnderFolder db scope))
      fun n hn => hreadable n (mem_ranked.mp hn)
    obtain ⟨inside, outside, haccounts⟩ := (accounts_iff hexport).mpr hfits
    refine ⟨_, scope, _, inside, outside, ?_, hscope, hnotes, ranked_perm _ _, haccounts⟩
    rw [hrun hscope hnotes, hexport]
    rfl

end

/-! ### a row without a file in front -/

def exportLibrary : Library where
  workspace := "w"
  ownerId := "o"
  sorted := id
  periodRange _ := none

/-- Two notes of the root; only the second one's file is there. -/
def exportDb : Db where
  tags := []
  noteTags := []
  notes := [Unicode.noteTitled "01".toList, { Unicode.noteTitled "02".toList with noteId := "b" }]
  metas := []

def exportFiles : Frontmatter.Files :=
  [⟨"02.md".toList, .post ⟨.str "b".toList, .str "02".toList, .null, .null, .null, .null, .null⟩ "text".toList⟩]

/-- The second note is too long, and not the first of the rows: nothing is exported. -/
theorem exportDocument_empty : ¬ ∀ (U : Unicode) (lib : Library) (db : Db) (files : Frontmatter.Files) (folder : Text)
    (maxChars : ℤ) (scope : Text) (notes : List Note), normalizedFolder folder = .ok scope →
      U.folderSorted (lib.listUnderFolder db scope) = .ok notes → Readable files notes →
        ∃ r inside outside, exportDocument U lib db files folder maxChars = .ok r ∧
          Accounts files maxChars notes r inside outside := by
  intro h
  have hreadable : Readable exportFiles exportDb.notes := by
    intro n hn
    rcases List.mem_cons.mp hn with rfl | hn
    · exact fun hread => absurd (congrArg Option.isSome hread) (by decide +kernel)
    · obtain rfl := List.mem_singleton.mp hn
      exact fun hread => nomatch (show some (Frontmatter.Document.post _ _) = some .unreadable from hread)
  obtain ⟨r, inside, outside, hr, haccounts⟩ := h .latin exportLibrary exportDb exportFiles [] 10 [] exportDb.notes rfl
    (by decide +kernel) hreadable
  have hempty : (exportDocument .latin exportLibrary exportDb exportFiles [] 10).toOption.map (·.markdown) = some [] := by
    decide +kernel
  rw [hr] at hempty
  refine haccounts.nonempty ?_ (Option.some.inj hempty)
  exact List.ne_nil_of_length_pos (by decide +kernel)

/-- With both files, two sections of 11 characters fit into 22, and their document has 28. -/
example : (exportDocument .latin exportLibrary exportDb (⟨"01.md".toList, .post ⟨.null, .null, .null, .null, .null, .null, .null⟩
    "text".toList⟩ :: exportFiles) [] 22).toOption.map (fun r => (r.noteCount, r.totalChars)) = some (2, 28) := by
  decide +kernel

end Kajet.Folders
