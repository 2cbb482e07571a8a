import Kajet.Collections.Change
import Kajet.Collections.Keys
import Kajet.Collections.Sibling
import Kajet.Paths.Room

/-!
# Opening entries

`open_entry` finds the entry of a date, or saves a new note where the definition says.

* `openEntry`             the call, on the collections file and the notes of the workspace;
* `workspace`             the runs of saves and opened entries;
* `Rooted`                the static prefix of a folder is what its entries begin with;
* `Reopens`               the second call for a date returns the note of the first;
* `Appends`               the next entry has an ordinal that no entry of the date has reached;
* `opens_entries`         what an accepted definition does in such a run;
* `case_blocks`           a note that has the path of the next entry in another letter case.
-/

namespace Kajet.Collections.Entries
open Str Links Table Fallible Machine Paths
open Frontmatter (Yaml TemporalError normalizeTemporal)
open Write (Bytes Exc)

/-! ## the calls -/

structure Workspace where
  vault : Vault
  /-- `occurred_at` and `period` of the rows -/
  dates : Dict String (Option Text × Option Text)

inductive EntryError where
  /-- the collections file cannot be read -/
  | collections (e : Exc)
  | unknown (name : Text)
  /-- a template or a number that is refused -/
  | unformatted
  | temporal (e : TemporalError)
  | vault (e : VaultError)

/-- The payload of `open_entry`. -/
structure Opened where
  noteId : String
  folder : Text
  title : Text
  created : Bool
  ordinal : Option ℕ
  occurredAt : Option Text
  period : Option Text
deriving DecidableEq

def orRaise {α : Type} : Option α → Except EntryError α
  | some a => .ok a
  | none => .error .unformatted

/-- `_temporal_for` -/
def temporalFor (grain : PeriodKind) (d : Date) : Option (Yaml × Yaml) :=
  if grain = .day then some (.date ⟨d.isoformat, isoDate_isoformat d⟩, .null)
  else (Period.containing d grain).map fun period => (.null, .str period.key)

/-- `_notes_under` -/
def notesUnder (notes : List IndexedNote) (folder : Text) : List (Text × Text) :=
  (if folder = [] then notes else notes.filter (underFolder folder)).map fun n => (n.folder, n.title)

/-- `get_by_path` -/
def Workspace.getByPath (w : Workspace) (pair : Text × Text) : Option IndexedNote :=
  w.vault.notes.find? fun n => n.folder = pair.1 ∧ n.title = pair.2

/-- The temporal fields of a row. -/
def Workspace.datesOf (w : Workspace) (noteId : String) : Option Text × Option Text :=
  (w.dates.get? noteId).getD (none, none)

section
variable (L : Language) (Y : Codec) (env : VaultEnv)

/-- `save`, which looks at the dates after the folder -/
def save (w : Workspace) (noteId : String) (new : NewNote) (occurredAt period : Yaml) :
    Except EntryError Workspace := do
  let _ ← (env.build noteId new).mapError .vault
  let dates ← (normalizeTemporal occurredAt period).mapError .temporal
  let vault ← (env.save w.vault noteId new).mapError .vault
  return ⟨vault, w.dates.set noteId dates⟩

def requireDefinition (file : Option Bytes) (name : Text) : Except EntryError CollectionDefinition := do
  let definitions ← (loadCollections L Y file).mapError .collections
  match definitions.get? name with
  | some definition => .ok definition
  | none => .error (.unknown name)

/-- An empty note with the dates of its entry. -/
def create (w : Workspace) (noteId : String) (D : CollectionDefinition) (d : Date) (pair : Text × Text)
    (ordinal : Option ℕ) : Except EntryError (Workspace × Opened) := do
  let temporal ← orRaise (temporalFor D.grain d)
  let w ← save env w noteId ⟨pair.2, [], [], pair.1⟩ temporal.1 temporal.2
  return (w, ⟨noteId, pair.1, pair.2, true, ordinal, (w.datesOf noteId).1, (w.datesOf noteId).2⟩)

def openEntry (file : Option Bytes) (w : Workspace) (noteId : String) (name : Text) (d : Date) :
    Except EntryError (Workspace × Opened) := do
  let D ← requireDefinition L Y file name
  match D.cardinality with
  | .one => do
    let pair ← orRaise (D.render L d none)
    match w.getByPath pair with
    | some n => .ok (w, ⟨n.noteId, pair.1, pair.2, false, none, (w.datesOf n.noteId).1, (w.datesOf n.noteId).2⟩)
    | none => create env w noteId D d pair none
  | .many => do
    let folder ← orRaise (Change.staticPrefix D.folder)
    let ordinal ← orRaise (D.nextOrdinal L (notesUnder w.vault.notes folder) d)
    let pair ← orRaise (D.render L d (some ordinal))
    create env w noteId D d pair (some ordinal)

/-! ## the runs -/

inductive Op where
  | save (noteId : String) (new : NewNote) (occurredAt period : Yaml)
  /-- `file`: the collections file at that time -/
  | openEntry (file : Option Bytes) (noteId : String) (name : Text) (d : Date)

def run (w : Workspace) : Op → Except EntryError Workspace
  | .save noteId new occurredAt period => save env w noteId new occurredAt period
  | .openEntry file noteId name d => (openEntry L Y env file w noteId name d).map Prod.fst

def Workspace.empty : Workspace := ⟨Vault.empty, .empty⟩

/-- The runs of successful calls on a workspace that starts empty. -/
def workspace : Machine Workspace Op where
  start w := w = Workspace.empty
  next w op := (run L Y env w op).toOption

end

/-! ## what a call does -/

section
variable {L : Language} {Y : Codec} {env : VaultEnv} {w w' w₁ w₂ : Workspace} {noteId : String}
  {D : CollectionDefinition} {d : Date} {pair : Text × Text} {file : Option Bytes} {name : Text}
  {ordinal : Option ℕ} {o : Opened} {op : Op} {new : NewNote} {occurredAt period : Yaml}

theorem orRaise_ok {α : Type} {x : Option α} {a : α} (h : orRaise x = .ok a) : x = some a := by
  cases x with
  | none => cases h
  | some b =>
    cases h
    rfl

theorem orRaise_some {α : Type} {x : Option α} {a : α} (h : x = some a) : orRaise x = .ok a := by
  rw [h]
  rfl

theorem save_ok (h : save env w noteId new occurredAt period = .ok w') : ∃ dates,
    normalizeTemporal occurredAt period = .ok dates ∧ env.save w.vault noteId new = .ok w'.vault ∧
    w'.dates = w.dates.set noteId dates := by
  obtain ⟨_, -, h⟩ := bind_ok h
  obtain ⟨dates, hdates, h⟩ := bind_ok h
  obtain ⟨vault, hvault, h⟩ := bind_ok h
  cases h
  exact ⟨dates, mapError_ok hdates, mapError_ok hvault, rfl⟩

theorem save_of {dates : Option Text × Option Text} {vault : Vault}
    (hdates : normalizeTemporal occurredAt period = .ok dates) (hvault : env.save w.vault noteId new = .ok vault) :
    ∃ w', save env w noteId new occurredAt period = .ok w' := by
  obtain ⟨draft, hbuild, -⟩ := bind_ok hvault
  unfold save
  rw [hbuild, hdates, hvault]
  exact ⟨_, rfl⟩

/-- A definition of the file has been accepted. -/
theorem requireDefinition_ok (h : requireDefinition L Y file name = .ok D) : Accepted L D := by
  obtain ⟨definitions, hload, h⟩ := bind_ok h
  cases hget : definitions.get? name with
  | none =>
    rw [hget] at h
    cases h
  | some D' =>
    rw [hget] at h
    cases h
    exact ⟨_, _, (filed_of_load (mapError_ok hload) _ (Dict.mem_entries_iff.mpr hget)).parse⟩

/-- The dates of an entry: its day, or the key of its period. -/
def datesFor (grain : PeriodKind) (d : Date) : Option Text × Option Text :=
  if grain = .day then (some d.isoformat, none) else (none, some (formatKey d grain))

theorem temporalFor_spec (grain : PeriodKind) (d : Date) : ∃ temporal, temporalFor grain d = some temporal ∧
    normalizeTemporal temporal.1 temporal.2 = .ok (datesFor grain d) := by
  unfold temporalFor datesFor
  by_cases hday : grain = .day
  · rw [if_pos hday, if_pos hday]
    exact ⟨_, rfl, rfl⟩
  · obtain ⟨p, hp, -, hkey, -⟩ := containing_spec d grain
    rw [if_neg hday, if_neg hday, hp, ← hkey]
    refine ⟨_, rfl, ?_⟩
    have hperiod : Frontmatter.parsePeriod (.str p.key) = .ok (some p.key) :=
      Frontmatter.parsePeriod_str (frontmatter_key p)
    unfold normalizeTemporal
    dsimp only
    rw [hperiod]
    rfl

/-- A new note with the rendered folder and title. -/
structure Creates (w : Workspace) (noteId : String) (D : CollectionDefinition) (d : Date) (pair : Text × Text)
    (ordinal : Option ℕ) (w' : Workspace) (o : Opened) : Prop where
  payload : o = ⟨noteId, pair.1, pair.2, true, ordinal, (datesFor D.grain d).1, (datesFor D.grain d).2⟩
  notes : w'.vault.notes = w.vault.notes ++ [⟨noteId, pair.1, pair.2⟩]
  dates : w'.datesOf noteId = datesFor D.grain d

theorem datesOf_set (vault : Vault) (dates : Dict String (Option Text × Option Text))
    (new : Option Text × Option Text) : (⟨vault, dates.set noteId new⟩ : Workspace).datesOf noteId = new := by
  rw [Workspace.datesOf, Dict.get?_set, if_pos rfl]
  rfl

theorem create_ok (h : create env w noteId D d pair ordinal = .ok (w', o)) : ∃ occurredAt period,
    save env w noteId ⟨pair.2, [], [], pair.1⟩ occurredAt period = .ok w' := by
  obtain ⟨temporal, -, h⟩ := bind_ok h
  obtain ⟨w₁, hsave, h⟩ := bind_ok h
  cases h
  exact ⟨_, _, hsave⟩

theorem create_spec (hnormal : normalizeFolder pair.1 = some pair.1)
    (h : create env w noteId D d pair ordinal = .ok (w', o)) : Creates w noteId D d pair ordinal w' o := by
  obtain ⟨temporal, htemporal, h⟩ := bind_ok h
  obtain ⟨w₁, hsave, h⟩ := bind_ok h
  cases h
  obtain ⟨temporal', htemporal', hdates⟩ := temporalFor_spec D.grain d
  cases (orRaise_ok htemporal).symm.trans htemporal'
  obtain ⟨dates, hnormalize, hvault, hset⟩ := save_ok hsave
  cases hnormalize.symm.trans hdates
  obtain ⟨vault, rows⟩ := w'
  obtain rfl : rows = _ := hset
  obtain ⟨folder, hfolder, hnotes, -, -⟩ := save_spec hvault
  cases hfolder.symm.trans hnormal
  refine ⟨?_, hnotes, datesOf_set _ _ _⟩
  rw [datesOf_set]

/-- With room for it the note is created. -/
theorem create_total (htidy : Tidy w.vault) (hlinks : env.extractWikilinks [] = [])
    (hnormal : normalizeFolder pair.1 = some pair.1) (hid : ∀ m ∈ w.vault.notes, m.noteId ≠ noteId)
    (hroom : ∀ m ∈ w.vault.notes, ¬ InTheWay env m ⟨noteId, pair.1, pair.2⟩) :
    ∃ w' o, create env w noteId D d pair ordinal = .ok (w', o) := by
  obtain ⟨temporal, htemporal, hdates⟩ := temporalFor_spec D.grain d
  have hfolder : normalizeFolder (⟨pair.2, [], [], pair.1⟩ : NewNote).folder = some pair.1 := hnormal
  obtain ⟨vault, hvault, -⟩ := save_total htidy hfolder hlinks hid hroom
  obtain ⟨w', hsave⟩ := save_of hdates hvault
  unfold create
  rw [bind_of_ok (orRaise_some htemporal), bind_of_ok hsave]
  exact ⟨w', _, rfl⟩

theorem openEntry_one (hD : requireDefinition L Y file name = .ok D) (hone : D.cardinality = .one)
    (hpair : D.render L d none = some pair) : openEntry L Y env file w noteId name d =
      match w.getByPath pair with
      | some n => .ok (w, ⟨n.noteId, pair.1, pair.2, false, none, (w.datesOf n.noteId).1, (w.datesOf n.noteId).2⟩)
      | none => create env w noteId D d pair none := by
  unfold openEntry
  rw [bind_of_ok hD, hone]
  dsimp only
  rw [bind_of_ok (orRaise_some hpair)]

theorem openEntry_many {folder : Text} {n : ℕ} (hD : requireDefinition L Y file name = .ok D)
    (hmany : D.cardinality = .many) (hfolder : Change.staticPrefix D.folder = some folder)
    (hnext : D.nextOrdinal L (notesUnder w.vault.notes folder) d = some n) (hpair : D.render L d (some n) = some pair) :
    openEntry L Y env file w noteId name d = create env w noteId D d pair (some n) := by
  unfold openEntry
  rw [bind_of_ok hD, hmany]
  dsimp only
  rw [bind_of_ok (orRaise_some hfolder), bind_of_ok (orRaise_some hnext), bind_of_ok (orRaise_some hpair)]

/-! ## along a run -/

/-- What later calls leave as it is. -/
structure Kept (w w' : Workspace) : Prop where
  notes : w.vault.notes <+: w'.vault.notes
  dates : ∀ m ∈ w.vault.notes, w'.datesOf m.noteId = w.datesOf m.noteId

theorem Kept.refl (w : Workspace) : Kept w w := ⟨List.prefix_refl _, fun _ _ => rfl⟩

theorem Kept.trans (h : Kept w w₁) (h' : Kept w₁ w₂) : Kept w w₂ :=
  ⟨h.notes.trans h'.notes, fun m hm => (h'.dates m (h.notes.subset hm)).trans (h.dates m hm)⟩

theorem Kept.getByPath {n : IndexedNote} (h : Kept w w') (hn : w.getByPath pair = some n) :
    w'.getByPath pair = some n := by
  obtain ⟨rest, hrest⟩ := h.notes
  unfold Workspace.getByPath at hn ⊢
  rw [← hrest, List.find?_append, hn]
  rfl

theorem kept_of_save (h : save env w noteId new occurredAt period = .ok w') : Kept w w' := by
  obtain ⟨dates, -, hvault, hset⟩ := save_ok h
  obtain ⟨folder, -, hnotes, hids, -⟩ := save_spec hvault
  refine ⟨hnotes ▸ List.prefix_append _ _, fun m hm => ?_⟩
  rw [Workspace.datesOf, hset, Dict.get?_set_ne (hids m hm)]
  rfl

/-- A call that goes through saves a note, or has found one. -/
theorem openEntry_ok (h : openEntry L Y env file w noteId name d = .ok (w', o)) : w' = w ∨ ∃ new occurredAt period,
    save env w noteId new occurredAt period = .ok w' := by
  have hcreate : ∀ {D pair ordinal}, create env w noteId D d pair ordinal = .ok (w', o) →
      ∃ new occurredAt period, save env w noteId new occurredAt period = .ok w' := fun h => by
    obtain ⟨occurredAt, period, hsave⟩ := create_ok h
    exact ⟨_, occurredAt, period, hsave⟩
  obtain ⟨D, -, h⟩ := bind_ok h
  split at h
  · obtain ⟨pair, -, h⟩ := bind_ok h
    split at h
    · cases h
      exact .inl rfl
    · exact .inr (hcreate h)
  · obtain ⟨folder, -, h⟩ := bind_ok h
    obtain ⟨n, -, h⟩ := bind_ok h
    obtain ⟨pair, -, h⟩ := bind_ok h
    exact .inr (hcreate h)

theorem step_ok (h : (workspace L Y env).next w op = some w') : w' = w ∨ ∃ noteId new occurredAt period,
    save env w noteId new occurredAt period = .ok w' := by
  have h := ok_of_toOption h
  cases op with
  | save noteId new occurredAt period => exact .inr ⟨noteId, new, occurredAt, period, h⟩
  | openEntry file noteId name d =>
    obtain ⟨⟨w₁, o⟩, hopen, rfl⟩ := map_ok h
    exact (openEntry_ok hopen).imp id fun hsave => ⟨noteId, hsave⟩

theorem exec_kept {ops : List Op} (h : (workspace L Y env).exec w ops = some w') : Kept w w' := by
  induction ops generalizing w with
  | nil =>
    cases h
    exact .refl _
  | cons op ops ih =>
    obtain ⟨w₁, hstep, hrest⟩ := Option.bind_eq_some_iff.mp h
    refine Kept.trans ?_ (ih hrest)
    rcases step_ok hstep with rfl | ⟨noteId, new, occurredAt, period, hsave⟩
    · exact .refl _
    · exact kept_of_save hsave

/-- The notes are those of the disk, with normalised folders. -/
theorem reach_tidy (h : (workspace L Y env).Reach free w) : Owned env w.vault ∧ Tidy w.vault := by
  refine h.inv (P := fun w => Owned env w.vault ∧ Tidy w.vault) (fun w hw => ?_) fun w op w' _ hinv _ hstep => ?_
  · cases hw
    have hnone : ∀ {α : Type} {P : α → Prop}, ∀ a ∈ ([] : List α), P a := fun a ha => absurd ha List.not_mem_nil
    exact ⟨⟨hnone, hnone, hnone⟩, ⟨hnone, hnone⟩⟩
  · rcases step_ok hstep with rfl | ⟨noteId, new, occurredAt, period, hsave⟩
    · exact hinv
    · obtain ⟨_, -, hvault, -⟩ := save_ok hsave
      exact ⟨hinv.1.save hvault, hinv.2.save hvault⟩

/-! ## one entry for a date -/

/-- **The second call** for a date returns the note of the first, whatever has been saved in between. -/
structure Reopens (L : Language) (Y : Codec) (env : VaultEnv) (w : Workspace) (noteId : String)
    (D : CollectionDefinition) (d : Date) (pair : Text × Text) (w' : Workspace) (o : Opened) : Prop where
  first : Creates w noteId D d pair none w' o ∨ w' = w ∧ o.created = false ∧ (o.folder, o.title) = pair
  note : ⟨o.noteId, pair.1, pair.2⟩ ∈ w'.vault.notes
  again : ∀ ops w'' file name noteId, (workspace L Y env).exec w' ops = some w'' →
    requireDefinition L Y file name = .ok D →
    openEntry L Y env file w'' noteId name d = .ok (w'', { o with created := false })

theorem getByPath_spec {n : IndexedNote} (h : w.getByPath pair = some n) :
    n ∈ w.vault.notes ∧ n = ⟨n.noteId, pair.1, pair.2⟩ := by
  obtain ⟨hfolder, htitle⟩ : n.folder = pair.1 ∧ n.title = pair.2 := by
    have hfound := List.find?_some h
    simpa using hfound
  refine ⟨List.mem_of_find?_eq_some h, ?_⟩
  rw [← hfolder, ← htitle]

theorem reopens (hD : requireDefinition L Y file name = .ok D) (hone : D.cardinality = .one)
    (hpair : D.render L d none = some pair) (hnormal : normalizeFolder pair.1 = some pair.1)
    (h : openEntry L Y env file w noteId name d = .ok (w', o)) : Reopens L Y env w noteId D d pair w' o := by
  -- what is found once is found again, with its dates
  have hagain : ∀ n, w'.getByPath pair = some n → ∀ ops w'' file name noteId,
      (workspace L Y env).exec w' ops = some w'' → requireDefinition L Y file name = .ok D →
      openEntry L Y env file w'' noteId name d = .ok
        (w'', ⟨n.noteId, pair.1, pair.2, false, none, (w'.datesOf n.noteId).1, (w'.datesOf n.noteId).2⟩) := by
    intro n hn ops w'' file name noteId hexec hD
    have hkept := exec_kept hexec
    rw [openEntry_one hD hone hpair, hkept.getByPath hn]
    dsimp only
    rw [hkept.dates n (getByPath_spec hn).1]
  rw [openEntry_one hD hone hpair] at h
  cases hfind : w.getByPath pair with
  | some n =>
    rw [hfind] at h
    cases h
    obtain ⟨hmem, hn⟩ := getByPath_spec hfind
    exact ⟨.inr ⟨rfl, rfl, rfl⟩, hn ▸ hmem, hagain n hfind⟩
  | none =>
    rw [hfind] at h
    have hnew := create_spec hnormal h
    have hfound : w'.getByPath pair = some ⟨noteId, pair.1, pair.2⟩ := by
      unfold Workspace.getByPath at hfind ⊢
      rw [hnew.notes, List.find?_append, hfind]
      simp
    have hagain := hagain _ hfound
    dsimp only at hagain
    rw [hnew.dates] at hagain
    have hpayload := hnew.payload
    subst hpayload
    exact ⟨.inl hnew, (getByPath_spec hfound).1, hagain⟩

/-! ## many entries for a date -/

/-- No brace is written in the static prefix. -/
def Rooted (D : CollectionDefinition) : Prop :=
  ∃ pre, Change.staticPrefix D.folder = some pre ∧ ∀ c ∈ pre, isBrace c = false

/-- `str.casefold` goes character by character, and leaves the digits. -/
def FoldsEach (casefold : Text → Text) : Prop :=
  ∃ fold : Char → Text, (∀ s, casefold s = s.flatMap fold) ∧ ∀ c : Char, c.isDigit = true → fold c = [c]

theorem staticSegments_prefix {segments l : List Text} (h : Change.staticSegments segments = some l) :
    l <+: segments := by
  induction segments generalizing l with
  | nil =>
    cases h
    exact List.prefix_refl _
  | cons segment segments ih =>
    obtain ⟨fields, -, h⟩ := Option.bind_eq_some_iff.mp h
    split at h
    · cases h
      exact List.nil_prefix
    · obtain ⟨l', hl', rfl⟩ := Option.map_eq_some_iff.mp h
      exact (List.prefix_cons_inj segment).mpr (ih hl')

theorem staticPrefix_spec {template pre : Text} (h : Change.staticPrefix template = some pre) :
    pre = [] ∨ template = pre ∨ ∃ rest, template = (pre ++ ['/']) ++ rest := by
  obtain ⟨l, hl, rfl⟩ := Option.map_eq_some_iff.mp h
  obtain ⟨r, hr⟩ := staticSegments_prefix hl
  have htemplate : template = join '/' (l ++ r) := by rw [hr, join_split]
  by_cases hnil : l = []
  · exact .inl (hnil ▸ join_nil)
  by_cases hlast : r = []
  · rw [hlast, List.append_nil] at htemplate
    exact .inr (.inl htemplate)
  · rw [join_append hnil hlast] at htemplate
    exact .inr (.inr ⟨_, by rw [htemplate, List.append_assoc, List.singleton_append]⟩)

/-- The entries are below the static prefix. -/
theorem below_of_render {pre : Text} (hpre : Change.staticPrefix D.folder = some pre)
    (hbrace : ∀ c ∈ pre, isBrace c = false) (hpair : D.render L d ordinal = some pair) :
    pre = [] ∨ pair.1 = pre ∨ inTree pre pair.1 = true := by
  obtain ⟨v, -, hfolder, -⟩ := render_eq_some.mp hpair
  rcases staticPrefix_spec hpre with hnil | hall | ⟨rest, hrest⟩
  · exact .inl hnil
  · rw [hall, format_plain hbrace] at hfolder
    exact .inr (.inl (Option.some.inj hfolder).symm)
  · rw [hrest] at hfolder
    have hslash : ∀ c ∈ pre ++ ['/'], isBrace c = false := fun c hc => by
      rcases List.mem_append.mp hc with hc | hc
      · exact hbrace c hc
      · rw [List.mem_singleton.mp hc]
        rfl
    exact .inr (.inr (List.isPrefixOf_iff_prefix.mpr (prefix_of_format hslash hfolder)))

theorem mem_notesUnder {notes : List IndexedNote} {m : IndexedNote} {folder : Text} (hm : m ∈ notes)
    (h : folder = [] ∨ m.folder = folder ∨ inTree folder m.folder = true) :
    (m.folder, m.title) ∈ notesUnder notes folder := by
  unfold notesUnder
  refine List.mem_map.mpr ⟨m, ?_, rfl⟩
  split
  · exact hm
  · rename_i hne
    exact List.mem_filter.mpr ⟨hm, underFolder_of_below (h.resolve_left hne)⟩

theorem of_mem_notesUnder {notes : List IndexedNote} {folder : Text} (h : pair ∈ notesUnder notes folder) :
    ∃ m ∈ notes, (m.folder, m.title) = pair := by
  unfold notesUnder at h
  obtain ⟨m, hm, hpair⟩ := List.mem_map.mp h
  refine ⟨m, ?_, hpair⟩
  split at hm
  · exact hm
  · exact (List.mem_filter.mp hm).1

theorem notePath_of_legal {n : IndexedNote} (h : LegalPath (n.folder, n.title)) :
    notePath n = CollectionDefinition.path (n.folder, n.title) ++ ".md".toList := by
  have hne : n.folder ≠ [] := fun hnil => by
    have hsplit : [] ∈ split '/' n.folder := by
      rw [hnil]
      exact List.mem_cons_self
    exact (h.folder [] hsplit).ne_nil rfl
  rw [notePath_eq ⟨n.folder, h.normal⟩, joinTarget, if_neg hne, h.title.filename, CollectionDefinition.path,
    List.append_assoc, List.cons_append]

/-! ### no entry is in the way of another -/

/-- A slot with its text folded. -/
def Slot.folded (fold : Char → Text) : Slot → Slot
  | .text t => .text (t.flatMap fold)
  | .ordinal w => .ordinal w

theorem fillAll_folded {fold : Char → Text} (hdigit : ∀ c : Char, c.isDigit = true → fold c = [c]) (n : ℕ)
    (slots : List Slot) : (fillAll n slots).flatMap fold = fillAll n (slots.map (Slot.folded fold)) := by
  induction slots with
  | nil => rfl
  | cons slot slots ih =>
    rw [fillAll_cons, List.flatMap_append, ih, List.map_cons, fillAll_cons]
    cases slot with
    | text t => rfl
    | ordinal w =>
      have hself : ∀ t : Text, (∀ c ∈ t, c.isDigit = true) → t.flatMap fold = t := by
        intro t ht
        induction t with
        | nil => rfl
        | cons c t ih =>
          rw [List.flatMap_cons, hdigit c (ht c List.mem_cons_self), ih fun c hc => ht c (List.mem_cons_of_mem _ hc)]
          rfl
      exact congrArg (· ++ _) (hself _ (run_zfill w n).2)

/-- An entry with a smaller ordinal leaves room for the next one. -/
theorem room_of_lt {n k : ℕ} {m : IndexedNote} (haccepted : Accepted L D) (h : Faithful L D)
    (hused : "ordinal".toList ∈ D.names) (hfold : FoldsEach env.casefold) (hpair : D.render L d (some n) = some pair)
    (hother : D.render L d (some k) = some (m.folder, m.title)) (hlt : k < n) (hshort : Short pair) :
    ¬ InTheWay env m ⟨noteId, pair.1, pair.2⟩ := by
  obtain ⟨slots, -, hrender, hordinal⟩ := exists_slots haccepted h d
  obtain ⟨w, hw⟩ := hordinal hused
  obtain ⟨fold, hfold, hdigit⟩ := hfold
  have hlegal := render_legal haccepted h hpair fun _ => hshort
  have hlegal' := render_legal haccepted h hother fun _ =>
    short_of_render haccepted h (fun _ => Nat.le_of_lt hlt) hother hpair hshort
  have hpath : notePath ⟨noteId, pair.1, pair.2⟩ = fillAll n slots ++ ".md".toList :=
    (notePath_of_legal (n := ⟨noteId, pair.1, pair.2⟩) hlegal).trans (congrArg (· ++ _) (hrender n _ hpair))
  have hpath' : notePath m = fillAll k slots ++ ".md".toList :=
    (notePath_of_legal hlegal').trans (congrArg (· ++ _) (hrender k _ hother))
  -- a path below the other would have one more slash
  have hcount : (notePath m).count '/' = (notePath ⟨noteId, pair.1, pair.2⟩).count '/' := by
    rw [hpath, hpath', List.count_append, List.count_append, count_fillAll (by decide) k n]
  have hbelow : ∀ {a b : Text}, a.count '/' = b.count '/' → ¬ inTree a b = true := by
    intro a b hab hin
    obtain ⟨r, rfl⟩ := inTree_iff.mp hin
    rw [List.count_append, List.count_cons_self] at hab
    omega
  rintro (hkey | hin | hin)
  · -- the folded paths have the folded texts, and the ordinals as they are
    unfold LinkEnv.pathConflictKey LinkEnv.noteFilepath at hkey
    rw [hpath, hpath', hfold, hfold, List.flatMap_append, List.flatMap_append, List.flatMap_cons,
      List.flatMap_cons] at hkey
    have hkey := List.append_cancel_left (List.append_cancel_left hkey)
    rw [List.flatMap_append, List.flatMap_append] at hkey
    have hkey := List.append_cancel_right hkey
    rw [fillAll_folded hdigit, fillAll_folded hdigit] at hkey
    have hmem : .ordinal w ∈ slots.map (Slot.folded fold) := List.mem_map.mpr ⟨_, hw, rfl⟩
    exact absurd (slots_inj hmem hkey) (Nat.ne_of_lt hlt)
  · exact hbelow hcount hin
  · exact hbelow hcount.symm hin

theorem create_payload (h : create env w noteId D d pair ordinal = .ok (w', o)) :
    o.created = true ∧ o.ordinal = ordinal ∧ (o.folder, o.title) = pair := by
  obtain ⟨temporal, -, h⟩ := bind_ok h
  obtain ⟨w₁, -, h⟩ := bind_ok h
  cases h
  exact ⟨rfl, rfl, rfl⟩

/-- **The next entry.**  Its ordinal is larger than those of the entries of the date; where nothing else has its path,
or a path above it or below it, it is created. -/
structure Appends (L : Language) (Y : Codec) (env : VaultEnv) (file : Option Bytes) (w : Workspace) (noteId : String)
    (name : Text) (D : CollectionDefinition) (d : Date) (n : ℕ) (pair : Text × Text) : Prop where
  larger : ∀ m ∈ w.vault.notes, ∀ k, D.render L d (some k) = some (m.folder, m.title) → k < n
  result : ∀ w' o, openEntry L Y env file w noteId name d = .ok (w', o) →
    o.created = true ∧ o.ordinal = some n ∧ (o.folder, o.title) = pair
  creates : Short pair → (∀ m ∈ w.vault.notes, InTheWay env m ⟨noteId, pair.1, pair.2⟩ →
      ∃ k, D.render L d (some k) = some (m.folder, m.title)) →
    ∃ w' o, openEntry L Y env file w noteId name d = .ok (w', o) ∧ Creates w noteId D d pair (some n) w' o

theorem appends (hD : requireDefinition L Y file name = .ok D) (hmany : D.cardinality = .many) (h : Faithful L D)
    (hrooted : Rooted D) (htidy : Tidy w.vault) (hfold : FoldsEach env.casefold) (hlinks : env.extractWikilinks [] = [])
    (hid : ∀ m ∈ w.vault.notes, m.noteId ≠ noteId) (hcount : ∀ m ∈ w.vault.notes, Countable L (m.folder, m.title)) :
    ∃ n pair, D.render L d (some n) = some pair ∧ Appends L Y env file w noteId name D d n pair := by
  have haccepted := requireDefinition_ok hD
  have hused := haccepted.numbered hmany
  obtain ⟨pre, hpre, hbrace⟩ := hrooted
  have hcount : ∀ pair ∈ notesUnder w.vault.notes pre, Countable L pair := fun pair hpair => by
    obtain ⟨m, hm, rfl⟩ := of_mem_notesUnder hpair
    exact hcount m hm
  obtain ⟨n, hnext, -, hlarger⟩ := nextOrdinal_spec haccepted h hused hcount d
  obtain ⟨pair, hpair⟩ := render_total haccepted h d n
  have hopen : openEntry L Y env file w noteId name d = create env w noteId D d pair (some n) :=
    openEntry_many hD hmany hpre hnext hpair
  have hlarger : ∀ m ∈ w.vault.notes, ∀ k, D.render L d (some k) = some (m.folder, m.title) → k < n :=
    fun m hm k hk => hlarger _ (mem_notesUnder hm (below_of_render hpre hbrace hk)) k hk
  refine ⟨n, pair, hpair, hlarger, fun w' o hok => create_payload (hopen ▸ hok), fun hshort hroom => ?_⟩
  have hnormal := (render_legal haccepted h hpair fun _ => hshort).normal
  have hfree : ∀ m ∈ w.vault.notes, ¬ InTheWay env m ⟨noteId, pair.1, pair.2⟩ := fun m hm hway => by
    obtain ⟨k, hk⟩ := hroom m hm hway
    exact room_of_lt haccepted h hused hfold hpair hk (hlarger m hm k hk) hshort hway
  obtain ⟨w', o, hcreate⟩ : ∃ w' o, create env w noteId D d pair (some n) = .ok (w', o) :=
    create_total htidy hlinks hnormal hid hfree
  exact ⟨w', o, hopen.trans hcreate, create_spec hnormal hcreate⟩

theorem opens_one (hD : requireDefinition L Y file name = .ok D) (hone : D.cardinality = .one) (htidy : Tidy w.vault)
    (hlinks : env.extractWikilinks [] = []) (hid : ∀ m ∈ w.vault.notes, m.noteId ≠ noteId)
    (hpair : D.render L d none = some pair) (hnormal : normalizeFolder pair.1 = some pair.1)
    (hroom : ∀ m ∈ w.vault.notes, InTheWay env m ⟨noteId, pair.1, pair.2⟩ → (m.folder, m.title) = pair) :
    ∃ w' o, openEntry L Y env file w noteId name d = .ok (w', o) := by
  rw [openEntry_one hD hone hpair]
  cases hfind : w.getByPath pair with
  | some n => exact ⟨_, _, rfl⟩
  | none =>
    refine create_total htidy hlinks hnormal hid fun m hm hway => ?_
    obtain rfl := hroom m hm hway
    exact List.find?_eq_none.mp hfind m hm (decide_eq_true ⟨rfl, rfl⟩)

end

/-! ## the log of a day -/

def logDefinition : CollectionDefinition := log "{date} n{ordinal}"

def logText : Bytes :=
  "log:\n  grain: day\n  cardinality: many\n  folder: log\n  title: '{date} n{ordinal}'\n".toList.map fun c =>
    UInt8.ofNat c.toNat

/-- The text of one collection. -/
def logCodec : Codec where
  dump _ := logText
  load bytes := if bytes = logText then .ok (mapping [(logDefinition.name, logDefinition.entry)]) else .error .exception

theorem log_required : requireDefinition plainLanguage logCodec (some logText) "log".toList = .ok logDefinition :=
  ok_of_toOption (by decide +kernel)

theorem plainEnv_folds : FoldsEach Paths.plainEnv.casefold := by
  refine ⟨fun c => [c.toLower], fun s => ?_, fun c hc => ?_⟩
  · exact (List.flatMap_pure_eq_map Char.toLower s).symm
  · have hlow := (Char.isDigit_iff_toNat.mp hc).2
    have hnine : '9'.toNat = 57 := rfl
    show [c.toLower] = [c]
    unfold Char.toLower
    split
    · rename_i hupper
      have hletter : (65 : ℕ) ≤ c.toNat := UInt32.le_iff_toNat_le.mp hupper.1
      omega
    · rfl

end Kajet.Collections.Entries
