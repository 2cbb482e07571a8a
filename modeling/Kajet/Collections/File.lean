import Kajet.Collections.Registry
import Kajet.Write.Git

/-!
# The collections file

`.kajet/collections.yaml` is the only store of the definitions.

* `loadCollections`, `dumpCollections`   the file as definitions by their names, and the other way round;
* `Filed`                 what a definition that was read or validated is like;
* `load_dump`             definitions that are like that are read back as they were written.
-/

namespace Kajet.Collections
open Str Table Fallible
open Frontmatter (Yaml)
open Write (Bytes Exc)

/-- `dict[str, dict[str, str]]` by its entries. -/
abbrev Raw := List (Text × List (Text × Text))

/-- `yaml.safe_dump` with the encoding of its text, and `yaml.safe_load` of the decoded file. -/
structure Codec where
  dump : Raw → Bytes
  load : Bytes → Except Exc Yaml

def mapping (raw : Raw) : Yaml :=
  .map (raw.map fun e => (.str e.1, .map (e.2.map fun x => (.str x.1, .str x.2))))

/-- What was dumped is loaded again. -/
def Codec.RoundTrips (Y : Codec) : Prop :=
  ∀ raw : Raw, (raw.map Prod.fst).Nodup → (∀ e ∈ raw, (e.2.map Prod.fst).Nodup) → Y.load (Y.dump raw) = .ok (mapping raw)

abbrev Definitions := Dict Text CollectionDefinition

section
variable (L : Language) (Y : Codec)

/-- One entry of the file. -/
def readEntry (definitions : Definitions) (e : Yaml × Yaml) : Except Exc Definitions := do
  let D ← (parseDefinition L e.1 e.2).mapError fun _ => Exc.exception
  match e.1 with
  | .str name => .ok (definitions.set name D)
  | _ => .error .exception

/-- `load_collections`; every error is an `Exception`. -/
def loadCollections : Option Bytes → Except Exc Definitions
  | none => .ok .empty
  | some bytes => do
    match ← Y.load bytes with
    | .null => .ok .empty
    | .map entries => entries.foldlM (readEntry L) .empty
    | _ => .error .exception

def PeriodKind.value : PeriodKind → Text
  | .day => "day".toList
  | .week => "week".toList
  | .month => "month".toList
  | .year => "year".toList

def Cardinality.value : Cardinality → Text
  | .one => "one".toList
  | .many => "many".toList

/-- The fields of a definition, as both functions write them. -/
def rawEntry (grain cardinality folder title : Text) (description : Option Text) : List (Text × Text) :=
  [("grain".toList, grain), ("cardinality".toList, cardinality), ("folder".toList, folder), ("title".toList, title)] ++
    (description.map fun text => ("description".toList, text)).toList

def CollectionDefinition.entry (D : CollectionDefinition) : List (Text × Text) :=
  rawEntry D.grain.value D.cardinality.value D.folder D.title D.description

def dumpCollections (definitions : Definitions) : Bytes := Y.dump (definitions.entries.map fun e => (e.1, e.2.entry))

def entryYaml (entry : List (Text × Text)) : Yaml := .map (entry.map fun x => (.str x.1, .str x.2))

def validateDefinition (name grain cardinality folder title : Text) (description : Option Text) :
    Except DefinitionError CollectionDefinition :=
  parseDefinition L (.str name) (entryYaml (rawEntry grain cardinality folder title description))

end

/-! ## what has been read -/

/-- A definition under its name. -/
structure Filed (L : Language) (e : Text × CollectionDefinition) : Prop where
  name : e.2.name = strip e.1
  named : strip e.1 ≠ []
  described : ∀ text ∈ e.2.description, strip text ≠ []
  valid : e.2.validate L = .ok ()

section
variable {L : Language} {Y : Codec} {name : Text} {raw : Yaml} {D : CollectionDefinition} {definitions : Definitions}

theorem filed_of_parse (h : parseDefinition L (.str name) raw = .ok D) : Filed L (name, D) := by
  obtain ⟨n, hn, h⟩ := bind_ok h
  obtain ⟨_, -, h⟩ := bind_ok h
  obtain ⟨_, -, h⟩ := bind_ok h
  obtain ⟨_, -, h⟩ := bind_ok h
  obtain ⟨_, -, h⟩ := bind_ok h
  obtain ⟨_, -, h⟩ := bind_ok h
  obtain ⟨description, hdescription, h⟩ := bind_ok h
  obtain ⟨_, hvalidate, h⟩ := bind_ok h
  cases h
  replace hn : (if strip name = [] then .error .name else .ok name : Except DefinitionError Text) = .ok n := hn
  by_cases hnamed : strip name = []
  · rw [if_pos hnamed] at hn
    cases hn
  rw [if_neg hnamed] at hn
  cases hn
  refine ⟨rfl, hnamed, fun text htext => ?_, hvalidate⟩
  obtain rfl : description = some text := htext
  split at hdescription
  · cases hdescription
  · cases hdescription
  · split at hdescription
    · cases hdescription
    · rename_i hne
      cases hdescription
      exact hne
  · cases hdescription

/-- What is filed is parsed from its own entry. -/
theorem Filed.parse (h : Filed L (name, D)) : parseDefinition L (.str name) (entryYaml D.entry) = .ok D := by
  obtain ⟨hname, hnamed, hdescribed, hvalid⟩ := h
  obtain ⟨n, grain, cardinality, folder, title, description⟩ := D
  obtain rfl : n = strip name := hname
  replace hnamed : strip name ≠ [] := hnamed
  have hgrain : PeriodKind.parse (.str grain.value) = some grain := by cases grain <;> decide +kernel
  have hcardinality : Cardinality.parse (.str cardinality.value) = some cardinality := by
    cases cardinality <;> decide +kernel
  cases description with
  | none =>
    simp [parseDefinition, entryYaml, CollectionDefinition.entry, rawEntry, hnamed, check, orError, lookup, isNamed,
      requiredFields, optionalFields, hgrain, hcardinality, hvalid, bind, Except.bind]
  | some text =>
    have htext : strip text ≠ [] := hdescribed text rfl
    simp [parseDefinition, entryYaml, CollectionDefinition.entry, rawEntry, hnamed, check, orError, lookup, isNamed,
      requiredFields, optionalFields, hgrain, hcardinality, hvalid, htext, bind, Except.bind]

theorem filed_of_read {t : Definitions} {e : Yaml × Yaml} (hfiled : ∀ e ∈ definitions.entries, Filed L e)
    (h : readEntry L definitions e = .ok t) : ∀ e ∈ t.entries, Filed L e := by
  obtain ⟨D, hparse, h⟩ := bind_ok h
  split at h
  · rename_i name hname
    cases h
    intro e' he'
    rcases Dict.mem_entries_set he' with rfl | ⟨hold, -⟩
    · rw [hname] at hparse
      exact filed_of_parse (mapError_ok hparse)
    · exact hfiled e' hold
  · cases h

theorem filed_of_load {file : Option Bytes} (h : loadCollections L Y file = .ok definitions) :
    ∀ e ∈ definitions.entries, Filed L e := by
  have hempty : ∀ e ∈ (Dict.empty : Definitions).entries, Filed L e := fun e he => nomatch he
  cases file with
  | none =>
    cases h
    exact hempty
  | some bytes =>
    obtain ⟨raw, -, h⟩ := bind_ok h
    split at h
    · cases h
      exact hempty
    · exact foldlM_inv hempty (fun e _ s t hs => filed_of_read hs) h
    · cases h

/-- Entries under new names come after those that are there. -/
theorem readEntry_along {es : List (Text × CollectionDefinition)} (hfiled : ∀ e ∈ es, Filed L e)
    (hnodup : (definitions.keys ++ es.map Prod.fst).Nodup) :
    ∃ t, (es.map fun e => (Yaml.str e.1, entryYaml e.2.entry)).foldlM (readEntry L) definitions = .ok t ∧
      t.entries = definitions.entries ++ es := by
  induction es generalizing definitions with
  | nil => exact ⟨definitions, rfl, (List.append_nil _).symm⟩
  | cons e es ih =>
    obtain ⟨hfirst, hrest⟩ := List.forall_mem_cons.mp hfiled
    have hnew : e.1 ∉ definitions.keys := fun hmem =>
      (List.nodup_append.mp hnodup).2.2 e.1 hmem e.1 (List.mem_cons_self ..) rfl
    have hentries : (definitions.set e.1 e.2).entries = definitions.entries ++ [e] :=
      Dict.entries_set (Dict.get?_eq_none.mpr hnew)
    have hread : readEntry L definitions (.str e.1, entryYaml e.2.entry) = .ok (definitions.set e.1 e.2) := by
      rw [readEntry, hfirst.parse]
      rfl
    have hkeys : (definitions.set e.1 e.2).keys = definitions.keys ++ [e.1] := by
      rw [Dict.keys_set, if_neg hnew]
    obtain ⟨t, ht, hlast⟩ := @ih (definitions.set e.1 e.2) hrest (by
      rw [hkeys, List.append_assoc]
      exact hnodup)
    refine ⟨t, ?_, by rw [hlast, hentries, List.append_assoc, List.singleton_append]⟩
    rw [List.map_cons, List.foldlM_cons, hread]
    exact ht

theorem nodup_entry (D : CollectionDefinition) : (D.entry.map Prod.fst).Nodup := by
  unfold CollectionDefinition.entry rawEntry
  cases D.description with
  | none =>
    show (["grain", "cardinality", "folder", "title"].map String.toList).Nodup
    decide +kernel
  | some text =>
    show (["grain", "cardinality", "folder", "title", "description"].map String.toList).Nodup
    decide +kernel

/-- **What was written is read back.** -/
theorem load_dump (hY : Y.RoundTrips) (hfiled : ∀ e ∈ definitions.entries, Filed L e) :
    loadCollections L Y (some (dumpCollections Y definitions)) = .ok definitions := by
  have hload : Y.load (dumpCollections Y definitions) = .ok (.map (definitions.entries.map fun e =>
      (Yaml.str e.1, entryYaml e.2.entry))) := by
    have h := hY (definitions.entries.map fun e => (e.1, e.2.entry)) (by
      rw [List.map_map]
      exact definitions.nodup) (List.forall_mem_map.mpr fun e _ => nodup_entry e.2)
    rw [mapping, List.map_map] at h
    exact h
  obtain ⟨t, ht, hentries⟩ := @readEntry_along L .empty _ hfiled definitions.nodup
  obtain rfl : t = definitions := Dict.ext_entries hentries
  show (Y.load (dumpCollections Y t) >>= _) = _
  rw [hload]
  exact ht

end

end Kajet.Collections
