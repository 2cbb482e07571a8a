import Kajet.Collections.Legal
import Mathlib.Data.List.MinMax

/-!
# The entries of one date

`_next_ordinal` reads the ordinals back from the paths of the notes, and adds one to the largest.

* `matchedOrdinal`, `nextOrdinal`   what a path is read as, and the ordinal of the next entry;
* `Slot`, `exists_slots`  the path of an entry as literal texts with the ordinal in between;
* `slots_inj`             different ordinals make different paths;
* `nextOrdinal_spec`      no entry of the date has the next ordinal, or a larger one.
-/

namespace Kajet.Collections
open Str Links Runs Table Fallible

/-! ## what is read -/

/-- `sys.int_info.default_max_str_digits` -/
def maxStrDigits : ℕ := 4300

/-- `int`, which refuses longer texts -/
def Language.readInt (L : Language) (t : Text) : Option ℕ := if t.length ≤ maxStrDigits then some (L.int t) else none

/-- The largest group of a path; `none` raises. -/
def matchedOrdinal (L : Language) (pattern : List Part) (pair : Text × Text) : Option ℕ :=
  match matchParts L pattern (CollectionDefinition.path pair) with
  | none => some 0
  | some texts => ((groups pattern texts).mapM fun g => L.readInt g.2).map (List.foldr max 0)

/-- `_next_ordinal`, of the notes below the static prefix -/
def CollectionDefinition.nextOrdinal (L : Language) (D : CollectionDefinition) (pairs : List (Text × Text)) (d : Date) :
    Option ℕ := do
  let pattern ← D.siblingPattern d
  let maxOrdinal ← pairs.foldlM (fun m pair => (matchedOrdinal L pattern pair).map (max m)) 0
  some (maxOrdinal + 1)

/-- No more digits in a row than `int` takes. -/
def Countable (L : Language) (pair : Text × Text) : Prop :=
  ∀ t, t <:+: CollectionDefinition.path pair → (∀ c ∈ t, L.isDecimal c = true) → t.length ≤ maxStrDigits

/-! ## slots -/

/-- A part of the path of an entry: a text, or the ordinal with the width that it is filled up to. -/
inductive Slot where
  | text (t : Text)
  | ordinal (w : ℕ)

def Slot.fill (n : ℕ) : Slot → Text
  | .text t => t
  | .ordinal w => zfill w (str n)

def Slot.part : Slot → Part
  | .text t => ⟨none, exactly t⟩
  | .ordinal _ => ⟨some "ordinal".toList, .run⟩

/-- The path with an ordinal. -/
def fillAll (n : ℕ) (slots : List Slot) : Text := (slots.map (Slot.fill n)).flatten

section
variable {L : Language} {D : CollectionDefinition} {d : Date} {k n w : ℕ} {v : Values} {slots : List Slot}
  {pieces : List Piece} {pair : Text × Text}

@[simp] theorem fillAll_nil : fillAll n [] = [] := rfl

@[simp] theorem fillAll_cons (slot : Slot) : fillAll n (slot :: slots) = slot.fill n ++ fillAll n slots := rfl

theorem fillAll_append (slots' : List Slot) : fillAll n (slots ++ slots') = fillAll n slots ++ fillAll n slots' := by
  rw [fillAll, List.map_append, List.flatten_append]
  rfl

theorem length_fill_mono (h : k ≤ n) (slot : Slot) : (slot.fill k).length ≤ (slot.fill n).length := by
  cases slot with
  | text t => exact Nat.le_refl _
  | ordinal w =>
    have hlen := str_length_mono h
    show (zfill w (str k)).length ≤ (zfill w (str n)).length
    rw [length_zfill, length_zfill]
    omega

theorem length_fillAll_mono (h : k ≤ n) (slots : List Slot) : (fillAll k slots).length ≤ (fillAll n slots).length := by
  induction slots with
  | nil => exact Nat.le_refl _
  | cons slot slots ih =>
    have hslot := length_fill_mono h slot
    rw [fillAll_cons, fillAll_cons, List.length_append, List.length_append]
    omega

/-- **Different ordinals, different paths.**  The longer number cannot make up for it elsewhere. -/
theorem slots_inj (hmem : .ordinal w ∈ slots) (heq : fillAll k slots = fillAll n slots) : k = n := by
  wlog h : k ≤ n generalizing k n with H
  · exact (H heq.symm (Nat.le_of_not_le h)).symm
  induction slots with
  | nil => cases hmem
  | cons slot slots ih =>
    rw [fillAll_cons, fillAll_cons] at heq
    have hlen := congrArg List.length heq
    have hslot := length_fill_mono h slot
    have hrest := length_fillAll_mono h slots
    rw [List.length_append, List.length_append] at hlen
    obtain ⟨hfirst, hlast⟩ := List.append_inj heq (by omega)
    rcases List.mem_cons.mp hmem with rfl | hmem
    · have hdigits := digits_zfill w k
      rw [show zfill w (str k) = zfill w (str n) from hfirst, digits_zfill w n] at hdigits
      exact (Option.some.inj hdigits).symm
    · exact ih hmem hlast

/-- Only the texts have other characters than digits. -/
theorem count_fillAll {c : Char} (hc : c.isDigit = false) (k n : ℕ) (slots : List Slot) :
    (fillAll k slots).count c = (fillAll n slots).count c := by
  have hnone : ∀ w n, (zfill w (str n)).count c = 0 := fun w n => List.count_eq_zero.mpr fun hmem => by
    rw [(run_zfill w n).2 c hmem] at hc
    cases hc
  induction slots with
  | nil => rfl
  | cons slot slots ih =>
    rw [fillAll_cons, fillAll_cons, List.count_append, List.count_append, ih]
    cases slot with
    | text t => rfl
    | ordinal w => exact congrArg (· + _) ((hnone w k).trans (hnone w n).symm)

/-! ## the slots of a definition -/

/-- The values of a date without the ordinal. -/
theorem values_ordinal (hv : D.values d k = some v) (n : ℕ) : D.values d n = some { v with ordinal := n } := by
  obtain ⟨period, month, hperiod, hmonth, rfl⟩ := values_eq_some.mp hv
  exact values_eq_some.mpr ⟨period, month, hperiod, hmonth, rfl⟩

theorem get_ordinal_irrel {name : Text} (hname : name ≠ "ordinal".toList) (v : Values) (n : ℕ) :
    ({ v with ordinal := n } : Values).get name = v.get name := by
  unfold Values.get
  simp only [if_neg hname]

/-- A template as slots. -/
theorem exists_template_slots (haccepted : Accepted L D) (h : Faithful L D) (hv : D.values d 1 = some v)
    (hfields : ∀ f ∈ fieldsOf pieces, f ∈ D.fields) :
    ∃ (slots : List Slot) (parts : List (List Part)),
      pieces.mapM (pieceParts (CollectionDefinition.siblingPart v)) = some parts ∧ parts.flatten = slots.map Slot.part ∧
      (∀ n, pieces.flatMap (pieceTexts L { v with ordinal := n }) = slots.map (Slot.fill n)) ∧
      ("ordinal".toList ∈ (fieldsOf pieces).map (·.name) → ∃ w, .ordinal w ∈ slots) := by
  induction pieces with
  | nil => exact ⟨[], [], rfl, rfl, fun _ => rfl, fun hmem => (nomatch hmem)⟩
  | cons p pieces ih =>
    obtain ⟨slots, parts, hparts, hflat, htexts, hordinal⟩ := ih fun f hf =>
      hfields f (mem_fieldsOf_of_mem hf)
    cases hfield : p.field with
    | none =>
      refine ⟨.text p.literal :: slots, [⟨none, exactly p.literal⟩] :: parts, ?_, ?_, fun n => ?_, fun hmem => ?_⟩
      · rw [List.mapM_cons, pieceParts, hfield, hparts]
        rfl
      · rw [List.flatten_cons, hflat]
        rfl
      · rw [List.flatMap_cons, pieceTexts_of_none hfield, htexts n]
        rfl
      · rw [fieldsOf_cons_none hfield] at hmem
        obtain ⟨w, hw⟩ := hordinal hmem
        exact ⟨w, List.mem_cons_of_mem _ hw⟩
    | some f =>
      have hf : f ∈ D.fields := hfields f (mem_fieldsOf_of_field hfield)
      obtain ⟨slot, hpart, hwritten, hslot⟩ : ∃ slot : Slot,
          CollectionDefinition.siblingPart v f.name = some slot.part ∧
          (∀ n, written L { v with ordinal := n } f = slot.fill n) ∧
          (f.name = "ordinal".toList → ∃ w, slot = .ordinal w) := by
        by_cases hname : f.name = "ordinal".toList
        · obtain ⟨w, hwrite⟩ := h.ordinal f hf hname
          refine ⟨.ordinal w, ?_, fun n => written_of_some (hwrite d n _ (values_ordinal hv n)), fun _ => ⟨w, rfl⟩⟩
          rw [CollectionDefinition.siblingPart, if_pos hname, hname]
          rfl
        · obtain ⟨t, ht⟩ := get_isSome haccepted hv (List.mem_map_of_mem hf)
          refine ⟨.text t, ?_, fun n => written_of_some ?_, fun heq => (hname heq).elim⟩
          · rw [CollectionDefinition.siblingPart, if_neg hname, ht]
            rfl
          · rw [h.value f hf hname d n _ (values_ordinal hv n), get_ordinal_irrel hname, ht]
            rfl
      refine ⟨.text p.literal :: slot :: slots, [⟨none, exactly p.literal⟩, slot.part] :: parts, ?_, ?_, fun n => ?_,
        fun hmem => ?_⟩
      · rw [List.mapM_cons, pieceParts, hfield, hparts]
        show ((CollectionDefinition.siblingPart v f.name).map _ >>= _) = _
        rw [hpart]
        rfl
      · rw [List.flatten_cons, hflat]
        rfl
      · rw [List.flatMap_cons, pieceTexts_of_some hfield, htexts n, hwritten n]
        rfl
      · rw [fieldsOf_cons_some hfield, List.map_cons] at hmem
        rcases List.mem_cons.mp hmem with hname | hmem
        · obtain ⟨w, rfl⟩ := hslot hname.symm
          exact ⟨w, List.mem_cons_of_mem _ List.mem_cons_self⟩
        · obtain ⟨w, hw⟩ := hordinal hmem
          exact ⟨w, List.mem_cons_of_mem _ (List.mem_cons_of_mem _ hw)⟩

/-- **The entries of a date** have the slots of its pattern. -/
theorem exists_slots (haccepted : Accepted L D) (h : Faithful L D) (d : Date) :
    ∃ slots : List Slot, D.siblingPattern d = some (slots.map Slot.part) ∧
      (∀ n pair, D.render L d (some n) = some pair → CollectionDefinition.path pair = fillAll n slots) ∧
      ("ordinal".toList ∈ D.names → ∃ w, .ordinal w ∈ slots) := by
  obtain ⟨folder, title, hparse, hparse', hfields, -, -⟩ := haccepted.parsed
  obtain ⟨v, hv⟩ := values_total D d 1
  have hleft : ∀ f ∈ fieldsOf folder, f ∈ D.fields := fun f hf => hfields ▸ List.mem_append_left _ hf
  have hright : ∀ f ∈ fieldsOf title, f ∈ D.fields := fun f hf => hfields ▸ List.mem_append_right _ hf
  obtain ⟨slots, parts, hparts, hflat, htexts, hordinal⟩ := exists_template_slots haccepted h hv hleft
  obtain ⟨slots', parts', hparts', hflat', htexts', hordinal'⟩ := exists_template_slots haccepted h hv hright
  refine ⟨slots ++ .text ['/'] :: slots', ?_, fun n pair hpair => ?_, fun hmem => ?_⟩
  · unfold CollectionDefinition.siblingPattern
    rw [hv, Option.bind_eq_bind, Option.bind_some, templateParts_eq hparse hparts, Option.bind_eq_bind,
      Option.bind_some, templateParts_eq hparse' hparts', hflat, hflat', List.map_append]
    rfl
  · obtain ⟨v', hv', hfolder, htitle⟩ := render_eq_some.mp hpair
    cases hv'.symm.trans (values_ordinal hv n)
    have hwritten : ∀ {template pieces slots text}, parse template = some pieces →
        (∀ n, pieces.flatMap (pieceTexts L { v with ordinal := n }) = slots.map (Slot.fill n)) →
        format L { v with ordinal := n } template = some text → text = fillAll n slots := by
      intro template pieces slots text hparse htexts hformat
      obtain ⟨pieces', written, hsame, hpieces, rfl⟩ := format_eq_some.mp hformat
      cases hparse.symm.trans hsame
      rw [← flatten_pieceTexts hpieces, htexts n]
      rfl
    rw [CollectionDefinition.path, hwritten hparse htexts hfolder, hwritten hparse' htexts' htitle, fillAll_append]
    rfl
  · rw [CollectionDefinition.names, hfields, List.map_append] at hmem
    rcases List.mem_append.mp hmem with hmem | hmem
    · obtain ⟨w, hw⟩ := hordinal hmem
      exact ⟨w, List.mem_append_left _ hw⟩
    · obtain ⟨w, hw⟩ := hordinal' hmem
      exact ⟨w, List.mem_append_right _ (List.mem_cons_of_mem _ hw)⟩

/-! ## what is read back -/

theorem int_mono {s t : Text} (h : s <+: t) : L.int s ≤ L.int t := by
  obtain ⟨u, rfl⟩ := h
  unfold Language.int
  rw [List.foldl_append]
  generalize s.foldl _ 0 = m
  induction u generalizing m with
  | nil => exact Nat.le_refl m
  | cons c u ih => exact (show m ≤ 10 * m + (L.decimal c).getD 0 by omega).trans (ih _)

/-- A group is a run of digits of the path. -/
theorem digits_of_group {texts : List Text}
    (h : matchParts L (slots.map Slot.part) (CollectionDefinition.path pair) = some texts)
    {g : Text × Text} (hg : g ∈ groups (slots.map Slot.part) texts) :
    g.2 <:+: CollectionDefinition.path pair ∧ ∀ c ∈ g.2, L.isDecimal c = true := by
  obtain ⟨hfits, rest, hpath, -⟩ := Pattern.split_fits h
  obtain ⟨⟨part, t⟩, hzip, hgroup⟩ := List.mem_filterMap.mp hg
  obtain ⟨name, hname, rfl⟩ := Option.map_eq_some_iff.mp hgroup
  have hitem : part.item.Fits L.isDecimal t := List.forall₂_zip (List.forall₂_map_left_iff.mp hfits) hzip
  obtain ⟨hpart, ht⟩ := List.of_mem_zip hzip
  refine ⟨?_, ?_⟩
  · rw [hpath]
    exact (List.infix_of_mem_flatten ht).trans (List.prefix_append _ _).isInfix
  · obtain ⟨slot, -, rfl⟩ := List.mem_map.mp hpart
    cases slot with
    | text _ => cases hname
    | ordinal _ => exact hitem.2

theorem matchedOrdinal_total (slots : List Slot) (h : Countable L pair) :
    ∃ m, matchedOrdinal L (slots.map Slot.part) pair = some m ∧
      ∀ texts, matchParts L (slots.map Slot.part) (CollectionDefinition.path pair) = some texts →
        ∀ g ∈ groups (slots.map Slot.part) texts, L.int g.2 ≤ m := by
  unfold matchedOrdinal
  cases hmatch : matchParts L (slots.map Slot.part) (CollectionDefinition.path pair) with
  | none => exact ⟨0, rfl, fun _ htexts => (nomatch htexts)⟩
  | some texts =>
    have hread : ∀ g ∈ groups (slots.map Slot.part) texts, L.readInt g.2 = some (L.int g.2) := fun g hg => by
      obtain ⟨hwithin, hdigits⟩ := digits_of_group hmatch hg
      rw [Language.readInt, if_pos (h g.2 hwithin hdigits)]
    obtain ⟨numbers, hnumbers⟩ := mapM_isSome (l := groups (slots.map Slot.part) texts) (f := fun g => L.readInt g.2)
      fun g hg => by rw [hread g hg]; rfl
    refine ⟨numbers.foldr max 0, ?_, fun texts' htexts' g hg => ?_⟩
    · dsimp only
      rw [hnumbers]
      rfl
    · cases htexts'
      exact List.le_max_of_le' 0 ((mem_mapM hnumbers).mpr ⟨g, hg, hread g hg⟩) (Nat.le_refl _)

theorem exists_first {w : ℕ} (h : .ordinal w ∈ slots) : ∃ before w' after,
    slots = before ++ .ordinal w' :: after ∧ ∀ slot ∈ before, slot.part.item ≠ .run := by
  induction slots with
  | nil => cases h
  | cons slot slots ih =>
    cases slot with
    | ordinal w' => exact ⟨[], w', slots, rfl, fun _ hslot => (nomatch hslot)⟩
    | text t =>
      obtain ⟨before, w', after, rfl, hbefore⟩ := ih ((List.mem_cons.mp h).resolve_left (by simp))
      refine ⟨.text t :: before, w', after, rfl, fun slot hslot => ?_⟩
      rcases List.mem_cons.mp hslot with rfl | hslot
      · simp [Slot.part, exactly]
      · exact hbefore slot hslot

/-- The first ordinal of an entry is read as it is, or with digits after it. -/
theorem le_of_matched {w m : ℕ} (hmem : .ordinal w ∈ slots) (hpath : CollectionDefinition.path pair = fillAll k slots)
    (hm : ∀ texts, matchParts L (slots.map Slot.part) (CollectionDefinition.path pair) = some texts →
      ∀ g ∈ groups (slots.map Slot.part) texts, L.int g.2 ≤ m) : k ≤ m := by
  obtain ⟨before, w', after, rfl, hbefore⟩ := exists_first hmem
  have hfits : Pattern.Fits L.isDecimal (((before ++ .ordinal w' :: after).map Slot.part).map (·.item))
      ((before ++ .ordinal w' :: after).map (Slot.fill k)) := by
    rw [List.map_map]
    refine List.forall₂_map_left_iff.mpr (List.forall₂_map_right_iff.mpr (List.forall₂_same.mpr fun slot _ => ?_))
    cases slot with
    | text t => exact exactly_fits t
    | ordinal w => exact ⟨(run_zfill w k).1, fun c hc => isDecimal_of_isDigit ((run_zfill w k).2 c hc)⟩
  have hstop : atEnd [] = true := by decide
  have hflat : ((before ++ .ordinal w' :: after).map (Slot.fill k)).flatten ++ [] = CollectionDefinition.path pair := by
    rw [List.append_nil, hpath]
    rfl
  have hsome := Pattern.split_isSome hfits hstop
  rw [hflat] at hsome
  obtain ⟨texts, htexts⟩ := Option.isSome_iff_exists.mp hsome
  have hitems : ((before ++ .ordinal w' :: after).map Slot.part).map (·.item) =
      (before.map fun slot => slot.part.item) ++ .run :: (after.map fun slot => slot.part.item) := by
    rw [List.map_map, List.map_append]
    rfl
  have hfixed : ∀ item ∈ before.map fun slot => slot.part.item, item ≠ .run := fun item hitem => by
    obtain ⟨slot, hslot, rfl⟩ := List.mem_map.mp hitem
    exact hbefore slot hslot
  obtain ⟨part, hpart, part', hpart', hlonger⟩ := Pattern.split_first hfixed (hitems ▸ hfits) hstop (hitems ▸ hflat ▸ htexts)
  rw [List.length_map] at hpart hpart'
  have hpart : part = zfill w' (str k) := by
    rw [List.map_append, List.getElem?_append_right (by simp)] at hpart
    simpa [Slot.fill] using hpart.symm
  have hgroup : ("ordinal".toList, part') ∈ groups ((before ++ .ordinal w' :: after).map Slot.part) texts := by
    refine List.mem_filterMap.mpr ⟨(Slot.part (.ordinal w'), part'), ?_, rfl⟩
    refine List.mem_of_getElem? (i := before.length) (List.getElem?_zip_eq_some.mpr ⟨?_, hpart'⟩)
    rw [List.map_append, List.getElem?_append_right (by simp)]
    simp
  have hle := hm texts htexts _ hgroup
  rw [hpart] at hlonger
  exact (int_of_digits (L := L) (digits_zfill w' k)).symm.le.trans ((int_mono hlonger).trans hle)

/-- **The next ordinal** is larger than that of every entry of the date. -/
theorem nextOrdinal_spec {pairs : List (Text × Text)} (haccepted : Accepted L D) (h : Faithful L D)
    (hused : "ordinal".toList ∈ D.names) (hcount : ∀ pair ∈ pairs, Countable L pair) (d : Date) :
    ∃ n, D.nextOrdinal L pairs d = some n ∧ 1 ≤ n ∧
      ∀ pair ∈ pairs, ∀ k, D.render L d (some k) = some pair → k < n := by
  obtain ⟨slots, hpattern, hrender, hordinal⟩ := exists_slots haccepted h d
  obtain ⟨w, hw⟩ := hordinal hused
  have hfold : ∀ m₀, ∃ m, pairs.foldlM (fun m pair => (matchedOrdinal L (slots.map Slot.part) pair).map (max m)) m₀ =
      some m ∧ m₀ ≤ m ∧ ∀ pair ∈ pairs, ∀ k, D.render L d (some k) = some pair → k ≤ m := by
    clear hpattern
    induction pairs with
    | nil => exact fun m₀ => ⟨m₀, rfl, Nat.le_refl m₀, fun _ hpair => (nomatch hpair)⟩
    | cons pair pairs ih =>
      intro m₀
      obtain ⟨m, hm, hgroups⟩ := matchedOrdinal_total slots (hcount pair List.mem_cons_self)
      obtain ⟨m', hm', hle, hrest⟩ := ih (fun pair hpair => hcount pair (List.mem_cons_of_mem _ hpair)) (max m₀ m)
      refine ⟨m', ?_, (Nat.le_max_left m₀ m).trans hle, fun pair' hpair' k hk => ?_⟩
      · rw [List.foldlM_cons, hm]
        exact hm'
      · rcases List.mem_cons.mp hpair' with rfl | hpair'
        · exact (le_of_matched hw (hrender k _ hk) hgroups).trans ((Nat.le_max_right m₀ m).trans hle)
        · exact hrest pair' hpair' k hk
  obtain ⟨m, hm, -, hall⟩ := hfold 0
  refine ⟨m + 1, ?_, Nat.le_add_left 1 m, fun pair hpair k hk => Nat.lt_succ_of_le (hall pair hpair k hk)⟩
  unfold CollectionDefinition.nextOrdinal
  rw [hpattern, Option.bind_eq_bind, Option.bind_some, hm]
  rfl

end

end Kajet.Collections
