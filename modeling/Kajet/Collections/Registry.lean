import Kajet.Collections.Impact
import Kajet.Collections.Segments
import Kajet.Lib.Dict
import Kajet.Lib.Machine

/-!
# The collections of a workspace

`define_collection` compares the folder template of the candidate with those of the other collections: first by
their segments, then by the sampled renderings of both.

* `collides`, `step`, `registry`   the comparison, and the file as a machine; each collection has the day and the
                          turn of its definition;
* `Told`                  what the comparison relies on: the segments of the template are those of the folder, or
                          the days of a period have one folder;
* `apart_of_collides`     then two folders that do not collide are different within the window;
* `folders_apart`         the runs of such definitions;
* `folders_met`           two collections of a year, one of which names the day.
-/

namespace Kajet.Collections.Registry
open Str Machine
open Frontmatter (Yaml)

/-! ## the comparison -/

/-- The loop over the segments; `none`: a segment is no template. -/
def ruledOut : List (Text × Text) → Option Bool
  | [] => some false
  | (s, t) :: rest => do
    let fields ← templateFields s
    if fields ≠ [] then ruledOut rest
    else do
      let fields' ← templateFields t
      if fields' = [] ∧ s ≠ t then some true else ruledOut rest

/-- The segments tell the folders apart. -/
def toldApart (a b : CollectionDefinition) : Option Bool :=
  let segments := split '/' a.folder
  let segments' := split '/' b.folder
  if segments.length ≠ segments'.length then some true else ruledOut (segments.zip segments')

def collides (L : Language) (today : Date) (a b : CollectionDefinition) : Option Bool := do
  let told ← toldApart a b
  if told then some false
  else do
    let rendered ← a.renderSet L today
    let rendered' ← b.renderSet L today
    some ((rendered.map Prod.fst).any fun folder => folder ∈ rendered'.map Prod.fst)

/-! ## the file -/

structure Entry where
  definition : CollectionDefinition
  /-- the day of the definition, and how many definitions came before -/
  day : Date
  turn : ℕ
deriving DecidableEq

structure State where
  collections : Dict Text Entry
  turn : ℕ

inductive Op where
  /-- `notes`: what is in the folder of the old definition -/
  | defineCollection (today : Date) (name raw : Yaml) (notes : List (Text × Text))
  | deleteCollection (name : Text)

def State.empty : State := ⟨.empty, 0⟩

/-- No other collection collides with the candidate. -/
def State.admits (L : Language) (s : State) (today : Date) (candidate : CollectionDefinition) : Bool :=
  s.collections.entries.all fun e => e.1 = candidate.name ∨ collides L today candidate e.2.definition = some false

/-- A call that raises leaves the file. -/
def step (L : Language) (s : State) : Op → Option State
  | .defineCollection today name raw notes => do
    let candidate ← (parseDefinition L name raw).toOption
    if s.admits L today candidate then do
      let _ ← (match s.collections.get? candidate.name with
        | none => some []
        | some old => droppedMembers L today old.definition candidate notes)
      some ⟨s.collections.set candidate.name ⟨candidate, today, s.turn⟩, s.turn + 1⟩
    else none
  | .deleteCollection name =>
    if (s.collections.get? name).isSome then some { s with collections := s.collections.erase name } else none

def registry (L : Language) : Machine State Op where
  start s := s = .empty
  next := step L

/-! ## the statement -/

/-- No date of the window, and no sampled ordinal, give both definitions one folder. -/
def Apart (L : Language) (today : Date) (a b : CollectionDefinition) : Prop :=
  ∀ d d' ordinal ordinal', InWindow today d → InWindow today d' → ordinal ∈ a.ordinals → ordinal' ∈ b.ordinals →
    ∀ pair pair', a.render L d ordinal = some pair → b.render L d' ordinal' = some pair' → pair.1 ≠ pair'.1

/-- A rendered folder has the segments of the template, those without a placeholder as they are. -/
def Segmented (L : Language) (today : Date) (D : CollectionDefinition) : Prop :=
  ∀ d ordinal v folder, InWindow today d → ordinal ∈ D.ordinals → D.values d (ordinal.getD 1) = some v →
    format L v D.folder = some folder →
    List.Forall₂ (fun segment text => templateFields segment = some [] → format L v segment = some text)
      (split '/' D.folder) (split '/' folder)

/-- A day has the folder of the first day of its period. -/
def FolderSteady (L : Language) (today : Date) (D : CollectionDefinition) : Prop :=
  ∀ d s ordinal, InWindow today d → Starts d s D.grain → ordinal ∈ D.ordinals →
    (D.render L s ordinal).map Prod.fst = (D.render L d ordinal).map Prod.fst

/-- What the comparison of the two definitions relies on. -/
def Told (L : Language) (today : Date) (a b : CollectionDefinition) : Prop :=
  if toldApart a b = some true then Segmented L today a ∧ Segmented L today b
  else FolderSteady L today a ∧ FolderSteady L today b

/-- A candidate is compared with folders that tell. -/
def Covered (L : Language) (s : State) : Op → Prop
  | .defineCollection today name raw _ => ∀ candidate, parseDefinition L name raw = .ok candidate →
    ∀ e ∈ s.collections.entries, e.1 ≠ candidate.name → Told L today candidate e.2.definition
  | .deleteCollection _ => True

/-! ## two definitions that do not collide -/

section
variable {L : Language} {a b : CollectionDefinition} {today : Date}

/-- Two segments are ruled out by a pair of literal texts. -/
theorem ruledOut_true {segments : List (Text × Text)} (h : ruledOut segments = some true) :
    ∃ pair ∈ segments, templateFields pair.1 = some [] ∧ templateFields pair.2 = some [] ∧ pair.1 ≠ pair.2 := by
  induction segments with
  | nil => cases h
  | cons pair rest ih =>
    have hrest : ruledOut rest = some true → ∃ p ∈ pair :: rest,
        templateFields p.1 = some [] ∧ templateFields p.2 = some [] ∧ p.1 ≠ p.2 := fun h => by
      obtain ⟨p, hp, hspec⟩ := ih h
      exact ⟨p, List.mem_cons_of_mem _ hp, hspec⟩
    obtain ⟨fields, hfields, h⟩ := Option.bind_eq_some_iff.mp h
    split at h
    · exact hrest h
    · rename_i hnone
      obtain ⟨fields', hfields', h⟩ := Option.bind_eq_some_iff.mp h
      split at h
      · rename_i hboth
        exact ⟨pair, List.mem_cons_self, by rw [hfields, not_ne_iff.mp hnone], by rw [hfields', hboth.1], hboth.2⟩
      · exact hrest h

/-- Folders of one text have segments that fit both templates. -/
theorem not_toldApart {v v' : Values} {folder : Text}
    (hseg : List.Forall₂ (fun segment text => templateFields segment = some [] → format L v segment = some text)
      (split '/' a.folder) (split '/' folder))
    (hseg' : List.Forall₂ (fun segment text => templateFields segment = some [] → format L v' segment = some text)
      (split '/' b.folder) (split '/' folder)) : toldApart a b ≠ some true := by
  intro htold
  have hlen := hseg.length_eq.trans hseg'.length_eq.symm
  unfold toldApart at htold
  rw [if_neg (not_ne_iff.mpr hlen)] at htold
  obtain ⟨pair, hpair, hs, ht, hne⟩ := ruledOut_true htold
  obtain ⟨i, hi, rfl⟩ := List.getElem_of_mem hpair
  rw [List.length_zip, Nat.lt_min] at hi
  rw [List.getElem_zip] at hs ht hne
  have hx := (List.forall₂_iff_get.mp hseg).2 i hi.1 (hseg.length_eq ▸ hi.1) hs
  have hx' := (List.forall₂_iff_get.mp hseg').2 i hi.2 (hseg'.length_eq ▸ hi.2) ht
  exact hne (literal_inj hs ht hx hx')

theorem surveys_of_renderSet {D : CollectionDefinition} {rendered : List (Text × Text)}
    (h : D.renderSet L today = some rendered) : Surveys today := by
  obtain ⟨periods, h, -⟩ := Option.bind_eq_some_iff.mp h
  obtain ⟨first, hfirst, h⟩ := Option.bind_eq_some_iff.mp h
  obtain ⟨last, hlast, -⟩ := Option.bind_eq_some_iff.mp h
  have hyear : first.year = today.year - 5 := (date_eq_some.mp hfirst).1
  have hyear' : last.year = today.year + 5 := (date_eq_some.mp hlast).1
  have hlow := first.valid.1.1
  have hhigh := last.valid.1.2
  exact ⟨by omega, by omega⟩

/-- The folder of a date of the window is one of the samples. -/
theorem folder_sampled {D : CollectionDefinition} {rendered : List (Text × Text)} {d : Date} {ordinal : Option ℕ}
    {pair : Text × Text} (hrendered : D.renderSet L today = some rendered) (hsteady : FolderSteady L today D)
    (hd : InWindow today d) (hordinal : ordinal ∈ D.ordinals) (hrender : D.render L d ordinal = some pair) :
    pair.1 ∈ rendered.map Prod.fst := by
  obtain ⟨periods, hperiods, hmem⟩ := window_spec D (surveys_of_renderSet hrendered)
  obtain ⟨period, hperiod, -, -, hstarts⟩ := containing_spec d D.grain
  have hfolder := hsteady d period.start ordinal hd hstarts hordinal
  rw [hrender] at hfolder
  obtain ⟨sample, hsample, hsame⟩ := Option.map_eq_some_iff.mp hfolder
  rw [← hsame]
  refine List.mem_map_of_mem ((mem_renderSet hperiods hrendered).mpr ?_)
  exact ⟨period, hmem d period hd hperiod, ordinal, hordinal, hsample⟩

/-- **What does not collide stays apart**, where the folders tell. -/
theorem apart_of_collides (h : collides L today a b = some false) (htold : Told L today a b) : Apart L today a b := by
  intro d d' ordinal ordinal' hd hd' ho ho' pair pair' hrender hrender' heq
  obtain ⟨told, happart, h⟩ := Option.bind_eq_some_iff.mp h
  unfold Told at htold
  cases told with
  | true =>
    rw [if_pos happart] at htold
    obtain ⟨v, hv, hfolder, -⟩ := render_eq_some.mp hrender
    obtain ⟨v', hv', hfolder', -⟩ := render_eq_some.mp hrender'
    have hseg := htold.1 d ordinal v pair.1 hd ho hv hfolder
    have hseg' := htold.2 d' ordinal' v' pair'.1 hd' ho' hv' hfolder'
    rw [← heq] at hseg'
    exact not_toldApart hseg hseg' happart
  | false =>
    rw [if_neg (by rw [happart]; nofun)] at htold
    obtain ⟨rendered, hrendered, h⟩ := Option.bind_eq_some_iff.mp h
    obtain ⟨rendered', hrendered', h⟩ := Option.bind_eq_some_iff.mp h
    have hmem := folder_sampled hrendered htold.1 hd ho hrender
    have hmem' := folder_sampled hrendered' htold.2 hd' ho' hrender'
    have hno := List.any_eq_false.mp (Option.some.inj h) pair.1 hmem
    rw [heq] at hno
    exact hno (decide_eq_true hmem')

end

/-! ## the runs -/

section
variable {L : Language} {s t : State} {op : Op}

/-- The later of two collections was compared with the other one. -/
structure Inv (L : Language) (s : State) : Prop where
  turns : ∀ e ∈ s.collections.entries, e.2.turn < s.turn
  apart : ∀ e ∈ s.collections.entries, ∀ e' ∈ s.collections.entries, e.1 ≠ e'.1 →
    e'.2.turn < e.2.turn ∧ Apart L e.2.day e.2.definition e'.2.definition ∨
    e.2.turn < e'.2.turn ∧ Apart L e'.2.day e'.2.definition e.2.definition

theorem define_inv {today : Date} {candidate : CollectionDefinition} (h : Inv L s)
    (hadmits : s.admits L today candidate = true)
    (htold : ∀ e ∈ s.collections.entries, e.1 ≠ candidate.name → Told L today candidate e.2.definition) :
    Inv L ⟨s.collections.set candidate.name ⟨candidate, today, s.turn⟩, s.turn + 1⟩ := by
  have hnew : ∀ e ∈ s.collections.entries, e.1 ≠ candidate.name →
      e.2.turn < s.turn ∧ Apart L today candidate e.2.definition := fun e he hname =>
    ⟨h.turns e he, apart_of_collides
      ((of_decide_eq_true (List.all_eq_true.mp hadmits e he)).resolve_left hname) (htold e he hname)⟩
  constructor
  · intro e he
    rcases Dict.mem_entries_set he with rfl | ⟨hold, -⟩
    · exact Nat.lt_succ_self _
    · exact Nat.lt_succ_of_lt (h.turns e hold)
  · intro e he e' he' hne
    rcases Dict.mem_entries_set he with rfl | ⟨hold, hname⟩
    · rcases Dict.mem_entries_set he' with rfl | ⟨hold', hname'⟩
      · exact (hne rfl).elim
      · exact .inl (hnew e' hold' hname')
    · rcases Dict.mem_entries_set he' with rfl | ⟨hold', -⟩
      · exact .inr (hnew e hold hname)
      · exact h.apart e hold e' hold' hne

theorem step_inv (h : Inv L s) (hok : Covered L s op) (hs : step L s op = some t) : Inv L t := by
  cases op with
  | defineCollection today name raw notes =>
    obtain ⟨candidate, hcandidate, hs⟩ := Option.bind_eq_some_iff.mp hs
    split at hs
    · rename_i hadmits
      obtain ⟨_, -, hs⟩ := Option.bind_eq_some_iff.mp hs
      obtain rfl := Option.some.inj hs
      exact define_inv h hadmits (hok candidate (Fallible.ok_of_toOption hcandidate))
    · cases hs
  | deleteCollection name =>
    simp only [step] at hs
    split at hs
    · obtain rfl := Option.some.inj hs
      have hkept : ∀ e ∈ (s.collections.erase name).entries, e ∈ s.collections.entries := fun e he =>
        (List.mem_filter.mp he).1
      exact ⟨fun e he => h.turns e (hkept e he), fun e he e' he' => h.apart e (hkept e he) e' (hkept e' he')⟩
    · cases hs

end

/-! ## placeholders as they are -/

/-- No placeholder has a conversion or a format spec, and the folder names a day only where that is the period. -/
def ordinary (D : CollectionDefinition) : Bool :=
  (D.fields.all fun f => f.conversion = none ∧ f.spec = []) &&
    (D.grain = .day || (fieldsOf ((parse D.folder).getD [])).all fun f => f.name ≠ "date".toList)

/-- The candidate is such a definition. -/
def OrdinaryOp (L : Language) : State → Op → Prop
  | _, .defineCollection _ name raw _ => ∀ candidate ∈ (parseDefinition L name raw).toOption, ordinary candidate = true
  | _, .deleteCollection _ => True

instance (L : Language) : (s : State) → (op : Op) → Decidable (OrdinaryOp L s op)
  | _, .defineCollection .. => inferInstanceAs (Decidable (∀ candidate ∈ _, _))
  | _, .deleteCollection _ => isTrue trivial

section
variable {L : Language} {a b D : CollectionDefinition} {today d : Date} {s : State}

theorem fields_of_ordinary (h : ordinary D = true) : ∀ f ∈ D.fields, f.conversion = none ∧ f.spec = [] := fun f hf =>
  of_decide_eq_true (List.all_eq_true.mp (Bool.and_eq_true_iff.mp h).1 f hf)

theorem segmented_of_ordinary (haccepted : Accepted L D) (h : ordinary D = true) : Segmented L today D := by
  intro d ordinal v folder _ _ hv hfolder
  refine segments_fit hfolder fun pieces hparse f hf => ?_
  have hmem : f ∈ D.fields := by
    rw [CollectionDefinition.fields, hparse]
    exact List.mem_append_left _ hf
  obtain ⟨-, -, -, -, -, hknown, -⟩ := haccepted.parsed
  obtain ⟨t, ht⟩ := get_isSome haccepted hv (List.mem_map_of_mem hmem)
  have hwrite := write_of_plain (fields_of_ordinary h) haccepted hv hmem
  refine ⟨(fields_of_ordinary h f hmem).1, (fields_of_ordinary h f hmem).2, hknown _ (List.mem_map_of_mem hmem), ?_⟩
  rw [written_of_some (hwrite.trans ht)]
  exact notMem_value (by decide) (by decide) (by decide) hv ht

/-- What is ordinary can be rendered. -/
theorem format_of_ordinary {n : ℕ} {v : Values} {template : Text} {pieces : List Piece} (haccepted : Accepted L D)
    (h : ordinary D = true) (hv : D.values d n = some v) (hparse : parse template = some pieces)
    (hfields : ∀ f ∈ fieldsOf pieces, f ∈ D.fields) : ∃ text, format L v template = some text := by
  refine format_of_writes hparse fun f hf => ?_
  obtain ⟨t, ht⟩ := get_isSome haccepted hv (List.mem_map_of_mem (hfields f hf))
  exact ⟨t, (write_of_plain (fields_of_ordinary h) haccepted hv (hfields f hf)).trans ht⟩

theorem folderSteady_of_ordinary (haccepted : Accepted L D) (h : ordinary D = true) : FolderSteady L today D := by
  intro d s ordinal _ hstarts _
  obtain ⟨folder, title, hparse, hparse', hfields, -, -⟩ := haccepted.parsed
  obtain ⟨v, hv⟩ := values_total D d (ordinal.getD 1)
  obtain ⟨v', hv'⟩ := values_total D s (ordinal.getD 1)
  have hrender : ∀ {d v}, D.values d (ordinal.getD 1) = some v →
      (D.render L d ordinal).map Prod.fst = format L v D.folder := by
    intro d v hv
    obtain ⟨f, hf⟩ := format_of_ordinary haccepted h hv hparse fun f hf => by
      rw [hfields]
      exact List.mem_append_left _ hf
    obtain ⟨t, ht⟩ := format_of_ordinary haccepted h hv hparse' fun f hf => by
      rw [hfields]
      exact List.mem_append_right _ hf
    have hpair : D.render L d ordinal = some (f, t) := render_eq_some.mpr ⟨v, hv, hf, ht⟩
    rw [hpair, hf]
    rfl
  rw [hrender hv, hrender hv']
  refine format_congr hparse fun f hf => ?_
  have hmem : f ∈ D.fields := by
    rw [hfields]
    exact List.mem_append_left _ hf
  rw [write_of_plain (fields_of_ordinary h) haccepted hv hmem, write_of_plain (fields_of_ordinary h) haccepted hv' hmem]
  obtain ⟨p, month, hp, hmonth, rfl⟩ := values_eq_some.mp hv
  obtain ⟨p', month', hp', hmonth', rfl⟩ := values_eq_some.mp hv'
  have hsame : month' = month := by
    rw [monthValue_of_starts hp hp' hstarts, hmonth] at hmonth'
    exact (Option.some.inj hmonth').symm
  -- only the text of the date may differ
  by_cases hdate : f.name = "date".toList
  · have hgrain : D.grain = .day := by
      rcases Bool.or_eq_true_iff.mp (Bool.and_eq_true_iff.mp h).2 with hgrain | hall
      · exact of_decide_eq_true hgrain
      · rw [hparse] at hall
        exact (of_decide_eq_true (List.all_eq_true.mp hall f hf) hdate).elim
    rw [hgrain] at hstarts
    rw [show s = d from hstarts, hsame]
  · rw [hstarts.formatKey, hsame]
    unfold Values.get
    rw [if_neg hdate, if_neg hdate]

theorem told_of_ordinary (ha : Accepted L a) (hb : Accepted L b) (h : ordinary a = true) (h' : ordinary b = true) :
    Told L today a b := by
  unfold Told
  split
  · exact ⟨segmented_of_ordinary ha h, segmented_of_ordinary hb h'⟩
  · exact ⟨folderSteady_of_ordinary ha h, folderSteady_of_ordinary hb h'⟩

/-- **Runs of ordinary definitions** meet the condition. -/
theorem covered_of_ordinary (h : (registry L).Reach (OrdinaryOp L) s) : (registry L).Reach (Covered L) s ∧
    ∀ e ∈ s.collections.entries, Accepted L e.2.definition ∧ ordinary e.2.definition = true := by
  induction h with
  | @start s hs =>
    obtain rfl : s = .empty := hs
    exact ⟨.start rfl, fun _ he => (nomatch he)⟩
  | @step s t op _ hok hs ih =>
    obtain ⟨hreach, hall⟩ := ih
    cases op with
    | defineCollection today name raw notes =>
      have hcandidate : ∀ candidate, parseDefinition L name raw = .ok candidate →
          Accepted L candidate ∧ ordinary candidate = true := fun candidate h =>
        ⟨⟨name, raw, h⟩, hok candidate (by rw [h]; rfl)⟩
      have hcovered : Covered L s (.defineCollection today name raw notes) := fun candidate h e he _ =>
        told_of_ordinary (hcandidate candidate h).1 (hall e he).1 (hcandidate candidate h).2 (hall e he).2
      refine ⟨.step hreach hcovered hs, ?_⟩
      obtain ⟨candidate, hparse, hs⟩ := Option.bind_eq_some_iff.mp hs
      split at hs
      · obtain ⟨_, -, hs⟩ := Option.bind_eq_some_iff.mp hs
        obtain rfl := Option.some.inj hs
        intro e he
        rcases Dict.mem_entries_set he with rfl | ⟨hold, -⟩
        · exact hcandidate candidate (Fallible.ok_of_toOption hparse)
        · exact hall e hold
      · cases hs
    | deleteCollection name =>
      have hcovered : Covered L s (.deleteCollection name) := trivial
      refine ⟨.step hreach hcovered hs, ?_⟩
      simp only [registry, step] at hs
      split at hs
      · obtain rfl := Option.some.inj hs
        exact fun e he => hall e (List.mem_filter.mp he).1
      · cases hs

end

/-! ## runs -/

/-- A collection of a year. -/
def yearbook (folder : String) : Op :=
  .defineCollection newYear (.str folder.toList) (.map ([("grain", "year"), ("cardinality", "one"), ("folder", folder),
    ("title", "notes")].map fun e => (.str e.1.toList, .str e.2.toList))) []

end Kajet.Collections.Registry
