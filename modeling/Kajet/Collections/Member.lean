import Kajet.Collections.Definition
import Kajet.Lib.Table
import Kajet.Links.Shortest

/-!
# Membership

`matchesNote` reads the placeholders back from a folder and a title, recovers a date and renders again.

* `Recovers`        the templates name a date;
* `Legible`         what the placeholders write can be read back;
* `matchesNote_iff`   then the members are exactly what is rendered;
* `legible_of_plain`  this is so for placeholders without conversion and format spec, if something that is no
                      digit stands between any two ordinals;
* `plain_of_single`   in particular where there is one ordinal.
-/

namespace Kajet.Collections
open Str Links Table Fallible
open Frontmatter (digits)

/-- The text of a placeholder. -/
def written (L : Language) (v : Values) (f : Field) : Text := (L.write v f).getD []

/-- The texts of the parts of a piece. -/
def pieceTexts (L : Language) (v : Values) (p : Piece) : List Text :=
  match p.field with
  | none => [p.literal]
  | some f => [p.literal, written L v f]

section
variable {L : Language} {v : Values} {template text : Text} {pieces : List Piece} {p : Piece} {f : Field}
  {parts : List Part} {texts : List Text} {group : Text → Option Part}

theorem written_of_some {t : Text} (h : L.write v f = some t) : written L v f = t := by
  rw [written, h]
  rfl

theorem pieceTexts_of_none (h : p.field = none) : pieceTexts L v p = [p.literal] := by
  rw [pieceTexts, h]

theorem pieceTexts_of_some (h : p.field = some f) : pieceTexts L v p = [p.literal, written L v f] := by
  rw [pieceTexts, h]

theorem fieldsOf_cons_none (h : p.field = none) : fieldsOf (p :: pieces) = fieldsOf pieces :=
  List.filterMap_cons_none h

theorem fieldsOf_cons_some (h : p.field = some f) : fieldsOf (p :: pieces) = f :: fieldsOf pieces :=
  List.filterMap_cons_some h

theorem mem_fieldsOf_of_mem (h : f ∈ fieldsOf pieces) : f ∈ fieldsOf (p :: pieces) := by
  obtain ⟨q, hq, hfield⟩ := List.mem_filterMap.mp h
  exact List.mem_filterMap.mpr ⟨q, List.mem_cons_of_mem p hq, hfield⟩

theorem mem_fieldsOf_of_field (h : p.field = some f) : f ∈ fieldsOf (p :: pieces) :=
  List.mem_filterMap.mpr ⟨p, List.mem_cons_self, h⟩

/-- What a template writes is what its parts write. -/
theorem flatten_pieceTexts (h : List.Forall₂ (fun p t => writePiece L v p = some t) pieces texts) :
    (pieces.flatMap (pieceTexts L v)).flatten = texts.flatten := by
  induction h with
  | nil => rfl
  | @cons p t pieces texts hp _ ih =>
    rw [List.flatMap_cons, List.flatten_append, ih, List.flatten_cons]
    unfold writePiece at hp
    cases hfield : p.field with
    | none =>
      rw [hfield] at hp
      cases hp
      rw [pieceTexts_of_none hfield, List.flatten_singleton]
    | some f =>
      rw [hfield] at hp
      obtain ⟨s, hs, rfl⟩ := Option.map_eq_some_iff.mp hp
      rw [pieceTexts_of_some hfield, written_of_some hs]
      simp

theorem write_of_format (h : List.Forall₂ (fun p t => writePiece L v p = some t) pieces texts) :
    ∀ f ∈ fieldsOf pieces, ∃ t, L.write v f = some t := by
  intro f hf
  obtain ⟨p, hp, hfield⟩ := List.mem_filterMap.mp hf
  obtain ⟨i, hi, rfl⟩ := List.getElem_of_mem hp
  have hpiece := (List.forall₂_iff_get.mp h).2 i hi ((List.Forall₂.length_eq h) ▸ hi)
  unfold writePiece at hpiece
  rw [List.get_eq_getElem, hfield] at hpiece
  obtain ⟨t, ht, -⟩ := Option.map_eq_some_iff.mp hpiece
  exact ⟨t, ht⟩

/-- The groups of some parts: a name for each placeholder. -/
theorem groups_append {parts' : List Part} {texts' : List Text} (h : parts.length = texts.length) :
    groups (parts ++ parts') (texts ++ texts') = groups parts texts ++ groups parts' texts' := by
  rw [groups, List.zip_append h, List.filterMap_append]
  rfl

theorem groups_names (h : parts.length = texts.length) :
    (groups parts texts).map Prod.fst = parts.filterMap (·.group) := by
  induction parts generalizing texts with
  | nil => rfl
  | cons part parts ih =>
    cases texts with
    | nil => cases h
    | cons t texts =>
      have ih := ih (Nat.succ.inj h)
      rw [groups] at ih ⊢
      rw [List.zip_cons_cons, List.filterMap_cons, List.filterMap_cons]
      cases hgroup : part.group with
      | none => simpa using ih
      | some name => simpa using ih

theorem captured_isSome {pairs : List (Text × Text)} {name : String} :
    (captured pairs name).isSome = true ↔ name.toList ∈ pairs.map Prod.fst := by
  rw [captured, Option.isSome_iff_ne_none, Ne, List.lookup_eq_none_iff, List.mem_map]
  push Not
  constructor
  · rintro ⟨x, hx, hname⟩
    exact ⟨x, List.mem_reverse.mp hx, (by simpa using hname : name.toList = x.1).symm⟩
  · rintro ⟨x, hx, hname⟩
    exact ⟨x, List.mem_reverse.mpr hx, by simpa using hname.symm⟩

/-- A text that was captured is that of one of the pairs. -/
theorem mem_of_captured {pairs : List (Text × Text)} {name : String} {t : Text}
    (h : captured pairs name = some t) : (name.toList, t) ∈ pairs := by
  exact List.mem_reverse.mp (mem_of_lookup h)

theorem exactly_fits (t : Text) : (exactly t).Fits L.isDecimal t := by
  show List.Forall₂ _ (t.map fun c => _) t
  rw [List.forall₂_map_left_iff, List.forall₂_same]
  exact fun c _ => decide_eq_true rfl

theorem templateParts_eq {parts : List (List Part)} (hparse : parse template = some pieces)
    (hparts : pieces.mapM (pieceParts group) = some parts) : templateParts group template = some parts.flatten := by
  rw [templateParts, hparse, Option.bind_eq_bind, Option.bind_some, hparts]
  rfl

/-- The parts of a template, and that what it writes fits them. -/
theorem templateParts_fit (h : ∀ f ∈ fieldsOf pieces, ∃ part, group f.name = some part ∧
      part.item.Fits L.isDecimal (written L v f)) :
    ∃ parts, pieces.mapM (pieceParts group) = some parts ∧
      Pattern.Fits L.isDecimal (parts.flatten.map (·.item)) (pieces.flatMap (pieceTexts L v)) ∧
      groups parts.flatten (pieces.flatMap (pieceTexts L v)) =
        (fieldsOf pieces).filterMap fun f => ((group f.name).bind (·.group)).map fun name => (name, written L v f) := by
  induction pieces with
  | nil => exact ⟨[], rfl, .nil, rfl⟩
  | cons p pieces ih =>
    obtain ⟨parts, hparts, hfits, hgroups⟩ := ih fun f hf => h f (mem_fieldsOf_of_mem hf)
    cases hfield : p.field with
    | none =>
      refine ⟨[⟨none, exactly p.literal⟩] :: parts, ?_, ?_, ?_⟩
      · rw [List.mapM_cons, pieceParts, hfield, hparts]
        rfl
      · rw [List.flatMap_cons, pieceTexts_of_none hfield]
        exact .cons (exactly_fits _) hfits
      · rw [List.flatMap_cons, pieceTexts_of_none hfield, List.flatten_cons, groups_append rfl, hgroups,
          fieldsOf_cons_none hfield]
        rfl
    | some f =>
      obtain ⟨part, hgroup, hitem⟩ := h f (mem_fieldsOf_of_field hfield)
      refine ⟨[⟨none, exactly p.literal⟩, part] :: parts, ?_, ?_, ?_⟩
      · rw [List.mapM_cons, pieceParts, hfield, hparts]
        show ((group f.name).map _ >>= _) = _
        rw [hgroup]
        rfl
      · rw [List.flatMap_cons, pieceTexts_of_some hfield]
        exact .cons (exactly_fits _) (.cons hitem hfits)
      · rw [List.flatMap_cons, pieceTexts_of_some hfield, List.flatten_cons, groups_append rfl, hgroups,
          fieldsOf_cons_some hfield, List.filterMap_cons, hgroup]
        cases hname : part.group <;> simp [groups, hname]

end

/-! ## the values of a date -/

section
variable {L : Language} {D : CollectionDefinition} {d : Date} {n w : ℕ} {v : Values} {c : Char} {s t : Text}

theorem lt_of_isDigit (h : c.isDigit = true) : c.toNat < 128 := by
  have h9 := UInt32.le_iff_toNat_le.mp (of_decide_eq_true (Bool.and_eq_true_iff.mp h).2)
  have hval : c.toNat = c.val.toNat := rfl
  have hnine : '9'.val.toNat = 57 := rfl
  omega

theorem decimal_of_isDigit (h : c.isDigit = true) : L.decimal c = some (c.toNat - '0'.toNat) := by
  rw [L.ascii c (lt_of_isDigit h), if_pos h]

theorem isDecimal_of_isDigit (h : c.isDigit = true) : L.isDecimal c = true := by
  rw [Language.isDecimal, decimal_of_isDigit h]
  rfl

theorem int_of_digits (h : digits t = some n) : L.int t = n := by
  unfold digits at h
  split at h
  · rename_i hdigits
    cases h
    refine List.foldl_ext _ _ 0 fun m c hc => ?_
    rw [decimal_of_isDigit (List.all_eq_true.mp hdigits.2 c hc)]
    rfl
  · cases h

/-- What a shape stands for: a digit for each zero. -/
theorem shape_fits {s : String} : (shape L s).Fits L.isDecimal t ↔
    List.Forall₂ (fun c x => if c = '0' then L.isDecimal x = true else x = c) s.toList t := by
  show List.Forall₂ _ (s.toList.map _) t ↔ _
  rw [List.forall₂_map_left_iff]
  have hiff : ∀ c x, (if c = '0' then L.isDecimal else (decide <| · = c)) x = true ↔
      if c = '0' then L.isDecimal x = true else x = c := by
    intro c x
    split <;> simp
  constructor
  · exact fun h => h.imp fun c x => (hiff c x).mp
  · exact fun h => h.imp fun c x => (hiff c x).mpr

theorem pad_fits (w n : ℕ) :
    List.Forall₂ (fun c x => if c = '0' then L.isDecimal x = true else x = c) (List.replicate w '0') (pad w n) := by
  refine List.forall₂_iff_get.mpr ⟨by rw [List.length_replicate, length_pad], fun i hi hi' => ?_⟩
  rw [List.get_eq_getElem, List.getElem_replicate, if_pos rfl]
  exact isDecimal_of_isDigit (isDigit_of_mem_pad (List.get_mem _ _))

/-- The month of the placeholders. -/
def monthValue (d : Date) (period : Period) : PeriodKind → Option (Option Text)
  | .week => (monthOfWeek period).map fun month => some (month.key.drop 5)
  | .year => some none
  | .day | .month => some (some (pad 2 d.month))

/-- The values of a date and an ordinal. -/
theorem values_eq_some : D.values d n = some v ↔ ∃ period month, Period.containing d D.grain = some period ∧
    monthValue d period D.grain = some month ∧
    v = ⟨d.isoformat, formatKey d D.grain, (formatKey d D.grain).take 4, month, n⟩ := by
  obtain ⟨period, hperiod, -, hkey, -⟩ := containing_spec d D.grain
  have heq : D.values d n = (monthValue d period D.grain).map fun month =>
      ⟨d.isoformat, period.key, period.key.take 4, month, n⟩ := by
    unfold CollectionDefinition.values
    rw [hperiod]
    cases D.grain with
    | week => cases hmonth : monthOfWeek period <;> simp [monthValue, hmonth]
    | day => rfl
    | month => rfl
    | year => rfl
  rw [heq, hkey]
  constructor
  · intro h
    obtain ⟨month, hmonth, rfl⟩ := Option.map_eq_some_iff.mp h
    exact ⟨period, month, hperiod, hmonth, rfl⟩
  · rintro ⟨period', month, hperiod', hmonth, rfl⟩
    rw [hperiod] at hperiod'
    cases hperiod'
    rw [hmonth]
    rfl

theorem monthValue_pad {period : Period} {grain : PeriodKind} {m : Text}
    (h : monthValue d period grain = some (some m)) : ∃ k, m = pad 2 k := by
  cases grain with
  | week =>
    obtain ⟨month, hmonth, hm⟩ := Option.map_eq_some_iff.mp h
    cases hm
    obtain ⟨e, -, he⟩ := Option.bind_eq_some_iff.mp hmonth
    rw [(containing_eq_some he).2.1]
    refine ⟨e.month, ?_⟩
    show (pad 4 e.year ++ '-' :: pad 2 e.month).drop 5 = _
    rw [List.drop_append, length_pad, List.drop_eq_nil_of_le (by rw [length_pad]; decide)]
    rfl
  | day =>
    cases h
    exact ⟨_, rfl⟩
  | month =>
    cases h
    exact ⟨_, rfl⟩
  | year => cases h

/-- Every period begins with a year. -/
theorem formatKey_take (d : Date) (grain : PeriodKind) : ∃ y, (formatKey d grain).take 4 = pad 4 y ∧
    (grain ≠ .week → y = d.year) := by
  cases grain with
  | week => exact ⟨d.isocalendar.1, List.take_left' (length_pad 4 _), fun h => (h rfl).elim⟩
  | day => exact ⟨d.year, List.take_left' (length_pad 4 _), fun _ => rfl⟩
  | month => exact ⟨d.year, List.take_left' (length_pad 4 _), fun _ => rfl⟩
  | year => exact ⟨d.year, List.take_of_length_le (length_pad 4 _).le, fun _ => rfl⟩

theorem get_date : v.get "date".toList = some v.date := rfl

theorem get_key : v.get "key".toList = some v.key := rfl

theorem get_year : v.get "year".toList = some v.year := rfl

theorem get_month : v.get "month".toList = v.month := rfl

theorem get_ordinal : v.get "ordinal".toList = some (str v.ordinal) := rfl

theorem isoformat_fits (d : Date) : (shape L "0000-00-00").Fits L.isDecimal d.isoformat := by
  rw [shape_fits, show "0000-00-00".toList = List.replicate 4 '0' ++ '-' :: (List.replicate 2 '0' ++ '-' ::
    List.replicate 2 '0') by decide +kernel]
  exact List.rel_append (pad_fits 4 _) (.cons rfl (List.rel_append (pad_fits 2 _) (.cons rfl (pad_fits 2 _))))

theorem year_fits (y : ℕ) : (shape L "0000").Fits L.isDecimal (pad 4 y) := by
  rw [shape_fits, show "0000".toList = List.replicate 4 '0' by decide +kernel]
  exact pad_fits 4 y

theorem formatKey_fits (d : Date) (grain : PeriodKind) : (keyPattern L grain).Fits L.isDecimal (formatKey d grain) := by
  cases grain with
  | day => exact isoformat_fits d
  | week =>
    show (shape L "0000-W00").Fits _ _
    rw [shape_fits, show "0000-W00".toList = List.replicate 4 '0' ++ '-' :: 'W' :: List.replicate 2 '0' by
      decide +kernel]
    exact List.rel_append (pad_fits 4 _) (.cons rfl (.cons rfl (pad_fits 2 _)))
  | month =>
    show (shape L "0000-00").Fits _ _
    rw [shape_fits, show "0000-00".toList = List.replicate 4 '0' ++ '-' :: List.replicate 2 '0' by decide +kernel]
    exact List.rel_append (pad_fits 4 _) (.cons rfl (pad_fits 2 _))
  | year =>
    exact year_fits _

/-- The value of a placeholder fits its pattern. -/
theorem value_fits {name : Text} (hv : D.values d n = some v) (hname : name ∈ placeholders)
    (hne : name ≠ "ordinal".toList) (ht : v.get name = some t) :
    ∃ item, fieldPattern L D.grain name = some item ∧ item.Fits L.isDecimal t := by
  obtain ⟨period, month, -, hmonth, rfl⟩ := values_eq_some.mp hv
  simp only [placeholders, List.map_cons, List.map_nil, List.mem_cons, List.not_mem_nil, or_false] at hname
  rcases hname with rfl | rfl | rfl | rfl | rfl
  · cases ht
    exact ⟨_, rfl, isoformat_fits d⟩
  · cases ht
    exact ⟨_, rfl, formatKey_fits d D.grain⟩
  · cases ht
    obtain ⟨y, hy, -⟩ := formatKey_take d D.grain
    refine ⟨_, rfl, ?_⟩
    show (shape L "0000").Fits L.isDecimal ((formatKey d D.grain).take 4)
    rw [hy]
    exact year_fits y
  · obtain rfl : month = some t := ht
    obtain ⟨k, rfl⟩ := monthValue_pad hmonth
    refine ⟨_, rfl, ?_⟩
    rw [shape_fits, show "00".toList = List.replicate 2 '0' by decide +kernel]
    exact pad_fits 2 k
  · exact (hne rfl).elim

end

/-! ## what can be read back -/

namespace CollectionDefinition

variable (L : Language) (D : CollectionDefinition)

/-- The placeholders of both templates. -/
def fields : List Field := fieldsOf ((parse D.folder).getD []) ++ fieldsOf ((parse D.title).getD [])

def names : List Text := D.fields.map (·.name)

/-- The templates use the date, the key, or the year where that is not the year of a week. -/
def Recovers : Prop :=
  "date".toList ∈ D.names ∨ "key".toList ∈ D.names ∨ "year".toList ∈ D.names ∧ D.grain ≠ .week

/-- The placeholders that `_recover_when` looks at, and the ordinal. -/
def consulted : List String :=
  if "date".toList ∈ D.names then ["ordinal", "date"]
  else if "key".toList ∈ D.names then ["ordinal", "date", "key"]
  else ["ordinal", "date", "key", "year", "month"]

/-- The placeholders with their texts. -/
def writes (v : Values) : List (Text × Text) := D.fields.map fun f => (f.name, written L v f)

/-- The ordinal that is read from its last placeholder. -/
def readOrdinal (v : Values) : ℕ := ((captured (D.writes L v) "ordinal").map L.int).getD 1

/-- The templates cannot tell the dates apart. -/
def SameDate (d d' : Date) : Prop := ∀ n n' v v', D.values d n = some v → D.values d' n' = some v' →
  ∀ name ∈ D.names, name ≠ "ordinal".toList → v'.get name = v.get name

/-- What is rendered for a date and an ordinal can be read back. -/
structure Legible (d : Date) (n : ℕ) : Prop where
  /-- a placeholder writes its value, -/
  value : ∀ v, D.values d n = some v → ∀ f ∈ D.fields, f.name ≠ "ordinal".toList → L.write v f = v.get f.name
  /-- an ordinal decimal digits, -/
  digits : ∀ v, D.values d n = some v → ∀ f ∈ D.fields, f.name = "ordinal".toList →
    written L v f ≠ [] ∧ ∀ c ∈ written L v f, L.isDecimal c = true
  /-- and all write the same again for the number that they give; -/
  again : ∀ v d' v', D.values d n = some v → D.SameDate d d' → D.values d' (D.readOrdinal L v) = some v' →
    ∀ f ∈ D.fields, L.write v' f = L.write v f
  /-- in the cut along the pattern with the longest parts, the last of each placeholder that is looked at has
  its text. -/
  cut : ∀ v pair parts texts, D.values d n = some v → D.render L d (some n) = some pair →
    D.matchPattern L = some parts → Pattern.Cuts L.isDecimal atEnd (parts.map (·.item)) (path pair) texts →
    (∀ texts', Pattern.Cuts L.isDecimal atEnd (parts.map (·.item)) (path pair) texts' → ¬ Pattern.Longer texts texts') →
    ∀ name ∈ D.consulted, captured (groups parts texts) name = captured (D.writes L v) name

end CollectionDefinition

section
variable {L : Language} {D : CollectionDefinition} {d when : Date} {n : ℕ} {v : Values} {pair : Text × Text}

theorem orError_ok {α : Type} {e : DefinitionError} {x : Option α} {a : α} (h : orError e x = .ok a) : x = some a := by
  cases x with
  | none => cases h
  | some b =>
    cases h
    rfl

theorem check_ok {p : Bool} {e : DefinitionError} (h : check p e = .ok ()) : p = false := by
  cases p with
  | false => rfl
  | true => cases h

theorem Accepted.validate (h : Accepted L D) : D.validate L = .ok () := by
  obtain ⟨name, raw, h⟩ := h
  obtain ⟨_, -, h⟩ := bind_ok h
  obtain ⟨_, -, h⟩ := bind_ok h
  obtain ⟨_, -, h⟩ := bind_ok h
  obtain ⟨_, -, h⟩ := bind_ok h
  obtain ⟨_, -, h⟩ := bind_ok h
  obtain ⟨_, -, h⟩ := bind_ok h
  obtain ⟨_, -, h⟩ := bind_ok h
  obtain ⟨_, hvalidate, h⟩ := bind_ok h
  cases h
  exact hvalidate

theorem templateFields_eq {template : Text} {names : List Text} (h : templateFields template = some names) :
    ∃ pieces, parse template = some pieces ∧ names = (fieldsOf pieces).map (·.name) := by
  obtain ⟨pieces, hpieces, rfl⟩ := Option.map_eq_some_iff.mp h
  refine ⟨pieces, hpieces, ?_⟩
  rw [fieldsOf, List.map_filterMap]

/-- The checks of the placeholders. -/
theorem Accepted.checks (h : Accepted L D) : ∃ folder title, parse D.folder = some folder ∧
    parse D.title = some title ∧ D.fields = fieldsOf folder ++ fieldsOf title ∧
    D.names.any (· ∉ placeholders) = false ∧ ¬ (D.grain = .year ∧ "month".toList ∈ D.names) ∧
    ¬ (D.cardinality = .one ∧ "ordinal".toList ∈ D.names) ∧ ¬ (D.cardinality = .many ∧ "ordinal".toList ∉ D.names) := by
  obtain ⟨folderFields, hfolder, hrest⟩ := bind_ok h.validate
  obtain ⟨titleFields, htitle, hrest⟩ := bind_ok hrest
  obtain ⟨folder, hparse, rfl⟩ := templateFields_eq (orError_ok hfolder)
  obtain ⟨title, hparse', rfl⟩ := templateFields_eq (orError_ok htitle)
  have hfields : D.fields = fieldsOf folder ++ fieldsOf title := by
    rw [CollectionDefinition.fields, hparse, hparse']
    rfl
  have hnames : D.names = (fieldsOf folder).map (·.name) ++ (fieldsOf title).map (·.name) := by
    rw [CollectionDefinition.names, hfields, List.map_append]
  obtain ⟨_, hknown, hrest⟩ := bind_ok hrest
  obtain ⟨_, hmonth, hrest⟩ := bind_ok hrest
  obtain ⟨_, hone, hrest⟩ := bind_ok hrest
  obtain ⟨_, hmany, -⟩ := bind_ok hrest
  rw [← hnames] at hknown hmonth hone hmany
  exact ⟨folder, title, hparse, hparse', hfields, check_ok hknown, of_decide_eq_false (check_ok hmonth),
    of_decide_eq_false (check_ok hone), of_decide_eq_false (check_ok hmany)⟩

/-- What is accepted has templates that parse, with placeholders that are known. -/
theorem Accepted.parsed (h : Accepted L D) : ∃ folder title, parse D.folder = some folder ∧
    parse D.title = some title ∧ D.fields = fieldsOf folder ++ fieldsOf title ∧
    (∀ name ∈ D.names, name ∈ placeholders) ∧ (D.grain = .year → "month".toList ∉ D.names) := by
  obtain ⟨folder, title, hparse, hparse', hfields, hknown, hmonth, -⟩ := h.checks
  refine ⟨folder, title, hparse, hparse', hfields, fun name hname => ?_, fun hgrain hmem => hmonth ⟨hgrain, hmem⟩⟩
  have hno := List.any_eq_false.mp hknown name hname
  simpa using hno

theorem Accepted.numbered (h : Accepted L D) (hmany : D.cardinality = .many) : "ordinal".toList ∈ D.names := by
  obtain ⟨_, _, -, -, -, -, -, -, hordinal⟩ := h.checks
  exact by_contra fun hmem => hordinal ⟨hmany, hmem⟩

theorem fst_writes : (D.writes L v).map Prod.fst = D.names := List.map_map

/-- What is found of a name that is used is the value. -/
theorem captured_value (hv : D.values d n = some v) (hlegible : D.Legible L d n) {name : String} {t : Text}
    (hname : name.toList ∈ D.names) (hne : name.toList ≠ "ordinal".toList) (ht : v.get name.toList = some t) :
    captured (D.writes L v) name = some t := by
  obtain ⟨s, hs⟩ := Option.isSome_iff_exists.mp (captured_isSome.mpr (fst_writes (L := L) (v := v) ▸ hname))
  obtain ⟨f, hf, hpair⟩ := List.mem_map.mp (mem_of_captured hs)
  obtain ⟨hfname, hfs⟩ := Prod.mk.inj hpair
  have hwrite := hlegible.value v hv f hf (hfname ▸ hne)
  rw [hfname, ht] at hwrite
  rw [hs, ← hfs, written_of_some hwrite]

theorem captured_none {name : String} (hname : name.toList ∉ D.names) : captured (D.writes L v) name = none := by
  rw [← Option.not_isSome_iff_eq_none, captured_isSome, fst_writes]
  exact hname

/-- Two dates that give the placeholders in use the same values. -/
theorem sameDate_of (hknown : ∀ name ∈ D.names, name ∈ placeholders) (hdate : "date".toList ∈ D.names → when = d)
    (hkey : "key".toList ∈ D.names → formatKey when D.grain = formatKey d D.grain)
    (hyear : (formatKey when D.grain).take 4 = (formatKey d D.grain).take 4)
    (hmonth : "month".toList ∈ D.names → ∀ p p', Period.containing d D.grain = some p →
      Period.containing when D.grain = some p' → monthValue when p' D.grain = monthValue d p D.grain) :
    D.SameDate d when := by
  intro n n' v v' hv hv' name hname hne
  obtain ⟨p, month, hp, hm, rfl⟩ := values_eq_some.mp hv
  obtain ⟨p', month', hp', hm', rfl⟩ := values_eq_some.mp hv'
  have hcases := hknown name hname
  simp only [placeholders, List.map_cons, List.map_nil, List.mem_cons, List.not_mem_nil, or_false] at hcases
  rcases hcases with rfl | rfl | rfl | rfl | rfl
  · rw [get_date, get_date, hdate hname]
  · rw [get_key, get_key, hkey hname]
  · rw [get_year, get_year, hyear]
  · rw [get_month, get_month]
    have heq := hmonth hname p p' hp hp'
    rw [hm, hm'] at heq
    exact Option.some.inj heq
  · exact (hne rfl).elim

theorem monthValue_of_starts {p p' : Period} {grain : PeriodKind} (hp : Period.containing d grain = some p)
    (hp' : Period.containing when grain = some p') (hstarts : Starts d when grain) :
    monthValue when p' grain = monthValue d p grain := by
  obtain rfl : p' = p := by
    rw [Period.containing, hstarts.formatKey] at hp'
    exact Option.some.inj (hp'.symm.trans hp)
  cases grain with
  | day => rw [show when = d from hstarts]
  | week => rfl
  | month => rw [monthValue, monthValue, hstarts.2.1]
  | year => rfl

/-- The first day of the period is as good where the date itself is not used. -/
theorem sameDate_of_starts (hknown : ∀ name ∈ D.names, name ∈ placeholders) (hdate : "date".toList ∉ D.names)
    (hstarts : Starts d when D.grain) : D.SameDate d when := by
  refine sameDate_of hknown (fun h => (hdate h).elim) (fun _ => hstarts.formatKey) ?_ fun _ p p' hp hp' =>
    monthValue_of_starts hp hp' hstarts
  rw [hstarts.formatKey]

/-- So is any day of the year, and of the month if that is used. -/
theorem sameDate_of_year (hknown : ∀ name ∈ D.names, name ∈ placeholders) (hdate : "date".toList ∉ D.names)
    (hkey : "key".toList ∉ D.names) (hgrain : D.grain ≠ .week) (hyear : when.year = d.year)
    (hmonth : "month".toList ∈ D.names → when.month = d.month) : D.SameDate d when := by
  refine sameDate_of hknown (fun h => (hdate h).elim) (fun h => (hkey h).elim) ?_ fun hmem p p' _ _ => ?_
  · obtain ⟨y, hy, heq⟩ := formatKey_take d D.grain
    obtain ⟨y', hy', heq'⟩ := formatKey_take when D.grain
    rw [hy, hy', heq hgrain, heq' hgrain, hyear]
  · generalize D.grain = grain at hgrain
    cases grain with
    | week => exact (hgrain rfl).elim
    | day => rw [monthValue, monthValue, hmonth hmem]
    | month => rw [monthValue, monthValue, hmonth hmem]
    | year => rfl

theorem first_of_month {year month : ℕ} (hyear : 1 ≤ year ∧ year ≤ 9999) (hmonth : 1 ≤ month ∧ month ≤ 12) :
    ∃ e, date year month 1 = some e ∧ e.year = year ∧ e.month = month :=
  ⟨⟨year, month, 1, hyear, hmonth, le_rfl, daysInMonth_pos _ _⟩, date_eq_some.mpr ⟨rfl, rfl, rfl⟩, rfl, rfl⟩

/-- The date that is recovered is one that the templates cannot tell from the first. -/
theorem recoverWhen_spec (haccepted : Accepted L D) (hrecovers : D.Recovers) (hv : D.values d n = some v)
    (hlegible : D.Legible L d n) {found : String → Option Text}
    (hfound : ∀ name ∈ D.consulted, found name = captured (D.writes L v) name) :
    ∃ when, D.recoverWhen L found = some (some when) ∧ D.SameDate d when := by
  obtain ⟨-, -, -, -, -, hknown, hyearMonth⟩ := haccepted.parsed
  obtain ⟨period, month, hperiod, hmonth, rfl⟩ := values_eq_some.mp hv
  unfold CollectionDefinition.consulted at hfound
  unfold CollectionDefinition.recoverWhen
  by_cases hdate : "date".toList ∈ D.names
  · rw [if_pos hdate] at hfound
    rw [hfound "date" (by simp), captured_value hv hlegible hdate (by decide +kernel) get_date]
    refine ⟨d, ?_, ?_⟩
    · show (fromisoformat d.isoformat).map some = _
      rw [fromisoformat_isoformat]
      rfl
    · refine sameDate_of hknown (fun _ => rfl) (fun _ => rfl) rfl fun _ p p' hp hp' => ?_
      rw [hp] at hp'
      rw [Option.some.inj hp']
  rw [if_neg hdate] at hfound
  by_cases hkey : "key".toList ∈ D.names
  · rw [if_pos hkey] at hfound
    rw [hfound "date" (by simp), captured_none hdate, hfound "key" (by simp),
      captured_value hv hlegible hkey (by decide +kernel) get_key]
    refine ⟨period.start, ?_, sameDate_of_starts hknown hdate (containing_eq_some hperiod).2.2⟩
    show (Period.make D.grain (formatKey d D.grain)).map _ = _
    rw [show Period.make D.grain (formatKey d D.grain) = some period from hperiod]
    rfl
  · rw [if_neg hkey] at hfound
    obtain ⟨hyear, hgrain⟩ := (hrecovers.resolve_left hdate).resolve_left hkey
    obtain ⟨y, hy, heq⟩ := formatKey_take d D.grain
    obtain rfl := heq hgrain
    have hint : L.int ((formatKey d D.grain).take 4) = d.year := by
      rw [hy]
      exact int_of_digits (digits_pad (by decide) (year_lt d))
    rw [hfound "date" (by simp), captured_none hdate, hfound "key" (by simp), captured_none hkey,
      hfound "year" (by simp), captured_value hv hlegible hyear (by decide +kernel) get_year]
    dsimp only
    rw [if_neg hgrain, hint]
    by_cases hm : "month".toList ∈ D.names
    · have hpad : month = some (pad 2 d.month) := by
        have hyearGrain : D.grain ≠ .year := fun h => hyearMonth h hm
        generalize D.grain = grain at hgrain hmonth hyearGrain
        cases grain with
        | week => exact (hgrain rfl).elim
        | year => exact (hyearGrain rfl).elim
        | day => exact (Option.some.inj hmonth).symm
        | month => exact (Option.some.inj hmonth).symm
      rw [hfound "month" (by simp), captured_value hv hlegible hm (by decide +kernel) (by rw [get_month, hpad])]
      obtain ⟨when, hwhen, hyear', hmonth'⟩ := first_of_month d.valid.1 d.valid.2.1
      refine ⟨when, ?_, sameDate_of_year hknown hdate hkey hgrain hyear' fun _ => hmonth'⟩
      rw [Option.map_some, Option.getD_some, int_of_digits (digits_pad (by decide) (month_lt d)), hwhen]
      rfl
    · rw [hfound "month" (by simp), captured_none hm]
      obtain ⟨when, hwhen, hyear', -⟩ := first_of_month d.valid.1 (show 1 ≤ 1 ∧ 1 ≤ 12 by decide)
      refine ⟨when, ?_, sameDate_of_year hknown hdate hkey hgrain hyear' fun h => (hm h).elim⟩
      rw [Option.map_none, Option.getD_none, hwhen]
      rfl

theorem render_eq_some {ordinal : Option ℕ} : D.render L d ordinal = some pair ↔
    ∃ v, D.values d (ordinal.getD 1) = some v ∧ format L v D.folder = some pair.1 ∧ format L v D.title = some pair.2 := by
  constructor
  · intro h
    obtain ⟨v, hv, h⟩ := Option.bind_eq_some_iff.mp h
    obtain ⟨folder, hfolder, h⟩ := Option.bind_eq_some_iff.mp h
    obtain ⟨title, htitle, h⟩ := Option.bind_eq_some_iff.mp h
    cases h
    exact ⟨v, hv, hfolder, htitle⟩
  · rintro ⟨v, hv, hfolder, htitle⟩
    unfold CollectionDefinition.render
    rw [hv, Option.bind_eq_bind, Option.bind_some, hfolder, Option.bind_eq_bind, Option.bind_some, htitle]
    rfl

/-- The pattern of a definition, and that what is rendered fits it. -/
theorem matchPattern_fit (haccepted : Accepted L D) (hv : D.values d n = some v)
    (hvalue : ∀ f ∈ D.fields, f.name ≠ "ordinal".toList → L.write v f = v.get f.name)
    (hdigits : ∀ f ∈ D.fields, f.name = "ordinal".toList →
      written L v f ≠ [] ∧ ∀ c ∈ written L v f, L.isDecimal c = true)
    (hfolder : format L v D.folder = some pair.1) (htitle : format L v D.title = some pair.2) :
    ∃ parts texts, D.matchPattern L = some parts ∧ Pattern.Fits L.isDecimal (parts.map (·.item)) texts ∧
      texts.flatten = CollectionDefinition.path pair ∧ groups parts texts = D.writes L v := by
  obtain ⟨folder, title, hparse, hparse', hfields, hknown, -⟩ := haccepted.parsed
  obtain ⟨_, folderTexts, hp, hfolderTexts, hfolderFlat⟩ := format_eq_some.mp hfolder
  rw [hparse] at hp
  cases hp
  obtain ⟨_, titleTexts, hp, htitleTexts, htitleFlat⟩ := format_eq_some.mp htitle
  rw [hparse'] at hp
  cases hp
  have hwrite : ∀ f ∈ D.fields, ∃ t, L.write v f = some t := by
    intro f hf
    rw [hfields] at hf
    exact (List.mem_append.mp hf).elim (write_of_format hfolderTexts f) (write_of_format htitleTexts f)
  have hfit : ∀ f ∈ D.fields, ∃ item, D.matchPart L f.name = some ⟨some f.name, item⟩ ∧
      item.Fits L.isDecimal (written L v f) := by
    intro f hf
    obtain ⟨t, ht⟩ := hwrite f hf
    by_cases hordinal : f.name = "ordinal".toList
    · refine ⟨.run, ?_, hdigits f hf hordinal⟩
      rw [CollectionDefinition.matchPart, hordinal]
      rfl
    · have hget := hvalue f hf hordinal
      rw [ht] at hget
      obtain ⟨item, hitem, hfits⟩ := value_fits (L := L) hv (hknown _ (List.mem_map_of_mem hf)) hordinal hget.symm
      refine ⟨item, ?_, by rwa [written_of_some ht]⟩
      rw [CollectionDefinition.matchPart, hitem]
      rfl
  have hgroup : ∀ f ∈ D.fields, ((D.matchPart L f.name).bind (·.group)).map (fun name => (name, written L v f)) =
      some (f.name, written L v f) := fun f hf => by
    obtain ⟨item, hitem, -⟩ := hfit f hf
    rw [hitem]
    rfl
  rw [hfields] at hfit hgroup
  obtain ⟨parts, hparts, hfits, hgroups⟩ := templateParts_fit fun f hf =>
    (hfit f (List.mem_append_left _ hf)).elim fun item h => ⟨_, h⟩
  obtain ⟨parts', hparts', hfits', hgroups'⟩ := templateParts_fit fun f hf =>
    (hfit f (List.mem_append_right _ hf)).elim fun item h => ⟨_, h⟩
  rw [List.filterMap_congr fun f hf => hgroup f (List.mem_append_left _ hf), List.filterMap_eq_map'] at hgroups
  rw [List.filterMap_congr fun f hf => hgroup f (List.mem_append_right _ hf), List.filterMap_eq_map'] at hgroups'
  have hlen := hfits.length_eq
  rw [List.length_map] at hlen
  refine ⟨parts.flatten ++ ⟨none, exactly ['/']⟩ :: parts'.flatten,
    folder.flatMap (pieceTexts L v) ++ ['/'] :: title.flatMap (pieceTexts L v), ?_, ?_, ?_, ?_⟩
  · unfold CollectionDefinition.matchPattern
    rw [templateParts_eq hparse hparts, templateParts_eq hparse' hparts']
    rfl
  · rw [List.map_append, List.map_cons]
    exact List.rel_append hfits (.cons (exactly_fits _) hfits')
  · rw [List.flatten_append, List.flatten_cons, flatten_pieceTexts hfolderTexts, flatten_pieceTexts htitleTexts,
      hfolderFlat, htitleFlat]
    rfl
  · rw [groups_append hlen, hgroups, CollectionDefinition.writes, hfields, List.map_append, ← hgroups']
    rfl

theorem pieceParts_names {group : Text → Option Part} {pieces : List Piece} {parts : List (List Part)}
    (hgroup : ∀ name part, group name = some part → part.group = some name)
    (h : pieces.mapM (pieceParts group) = some parts) :
    parts.flatten.filterMap (·.group) = (fieldsOf pieces).map (·.name) := by
  replace h := mapM_eq_some.mp h
  induction h with
  | nil => rfl
  | @cons p part pieces parts hpart _ ih =>
    rw [List.flatten_cons, List.filterMap_append, ih]
    unfold pieceParts at hpart
    cases hfield : p.field with
    | none =>
      rw [hfield] at hpart
      cases hpart
      rw [fieldsOf_cons_none hfield]
      rfl
    | some f =>
      rw [hfield] at hpart
      obtain ⟨part', hname, rfl⟩ := Option.map_eq_some_iff.mp hpart
      rw [fieldsOf_cons_some hfield, List.map_cons, List.filterMap_cons_none rfl,
        List.filterMap_cons_some (hgroup _ _ hname)]
      rfl

/-- The groups of the pattern are the placeholders. -/
theorem matchPattern_names {parts : List Part} (h : D.matchPattern L = some parts) :
    parts.filterMap (·.group) = D.names := by
  have hgroup : ∀ name part, D.matchPart L name = some part → part.group = some name := by
    intro name part hpart
    obtain ⟨item, -, rfl⟩ := Option.map_eq_some_iff.mp hpart
    rfl
  obtain ⟨folder, hfolder, h⟩ := Option.bind_eq_some_iff.mp h
  obtain ⟨title, htitle, h⟩ := Option.bind_eq_some_iff.mp h
  cases h
  obtain ⟨pieces, hparse, hfolder⟩ := Option.bind_eq_some_iff.mp hfolder
  obtain ⟨parts, hparts, hfolder⟩ := Option.bind_eq_some_iff.mp hfolder
  cases hfolder
  obtain ⟨pieces', hparse', htitle⟩ := Option.bind_eq_some_iff.mp htitle
  obtain ⟨parts', hparts', htitle⟩ := Option.bind_eq_some_iff.mp htitle
  cases htitle
  rw [List.filterMap_append, List.filterMap_cons, pieceParts_names hgroup hparts, pieceParts_names hgroup hparts',
    CollectionDefinition.names, CollectionDefinition.fields, hparse, hparse', List.map_append]
  rfl

/-- Where the templates name a date, a match gives one, or none that exists. -/
theorem recoverWhen_ne {found : String → Option Text} (hrecovers : D.Recovers)
    (hfound : ∀ name : String, name.toList ∈ D.names → (found name).isSome = true) :
    D.recoverWhen L found ≠ some none := by
  have hmap : ∀ {α : Type} (x : Option α), x.map some ≠ some none := by
    intro α x
    cases x <;> simp
  intro h
  unfold CollectionDefinition.recoverWhen at h
  split at h
  · exact hmap _ h
  rename_i hdate
  split at h
  · obtain ⟨_, -, h⟩ := Option.map_eq_some_iff.mp h
    cases h
  rename_i hkey
  have hno : ∀ name, found name = none → name.toList ∉ D.names := by
    intro name hnone hmem
    have hsome := hfound name hmem
    rw [hnone] at hsome
    cases hsome
  obtain ⟨hyear, hgrain⟩ := (hrecovers.resolve_left (hno _ hdate)).resolve_left (hno _ hkey)
  split at h
  · rw [if_neg hgrain] at h
    exact hmap _ h
  · rename_i hnone
    exact hno _ hnone hyear

theorem values_total (D : CollectionDefinition) (d : Date) (n : ℕ) : ∃ v, D.values d n = some v := by
  obtain ⟨period, hperiod, hkind, -⟩ := containing_spec d D.grain
  obtain ⟨month, hmonth⟩ : ∃ month, monthValue d period D.grain = some month := by
    generalize D.grain = grain at hkind
    cases grain with
    | week =>
      obtain ⟨m, hm⟩ := Option.isSome_iff_exists.mp (monthOfWeek_isSome hkind)
      exact ⟨_, by rw [monthValue, hm]; rfl⟩
    | day => exact ⟨_, rfl⟩
    | month => exact ⟨_, rfl⟩
    | year => exact ⟨_, rfl⟩
  exact ⟨_, values_eq_some.mpr ⟨period, month, hperiod, hmonth, rfl⟩⟩

/-- A member is rendered for the date that is recovered. -/
theorem render_of_matches {today : Date} {folder title : Text} (hrecovers : D.Recovers)
    (h : D.matchesNote L today folder title = some true) : ∃ d n, D.render L d (some n) = some (folder, title) := by
  obtain ⟨parts, hparts, h⟩ := Option.bind_eq_some_iff.mp h
  split at h
  · cases h
  rename_i texts htexts
  dsimp only at h
  split at h
  · cases h
  · rename_i hwhen
    have hlen := (Pattern.split_fits htexts).1.length_eq
    rw [List.length_map] at hlen
    refine absurd hwhen (recoverWhen_ne hrecovers fun name hname => captured_isSome.mpr ?_)
    rwa [groups_names hlen, matchPattern_names hparts]
  · rename_i when hwhen
    obtain ⟨rendered, hrendered, h⟩ := Option.bind_eq_some_iff.mp h
    obtain rfl := of_decide_eq_true (Option.some.inj h)
    obtain ⟨v, hv, hformat⟩ := render_eq_some.mp hrendered
    exact ⟨when, _, render_eq_some.mpr ⟨v, hv, hformat⟩⟩

/-- What is rendered and can be read back is a member. -/
theorem matches_of_render {today : Date} {folder title : Text} (haccepted : Accepted L D) (hrecovers : D.Recovers)
    (hlegible : D.Legible L d n) (hrender : D.render L d (some n) = some (folder, title)) :
    D.matchesNote L today folder title = some true := by
  obtain ⟨v, hv, hfolder, htitle⟩ := render_eq_some.mp hrender
  rw [Option.getD_some] at hv
  obtain ⟨parts, texts, hparts, hfits, hflat, -⟩ := matchPattern_fit haccepted hv (hlegible.value v hv)
    (hlegible.digits v hv) hfolder htitle
  have hsome := Pattern.split_isSome (t := []) hfits (show atEnd [] = true by decide)
  rw [List.append_nil, hflat] at hsome
  obtain ⟨found, hfound⟩ := Option.isSome_iff_exists.mp hsome
  have hcut := hlegible.cut v _ parts found hv hrender hparts (Pattern.split_fits hfound)
    fun _ => Pattern.split_longest hfound
  obtain ⟨when, hwhen, hsame⟩ := recoverWhen_spec haccepted hrecovers hv hlegible hcut
  have hagain : D.render L when ((captured (groups parts found) "ordinal").map L.int) = some (folder, title) := by
    have hordinal : "ordinal" ∈ D.consulted := by
      unfold CollectionDefinition.consulted
      split
      · exact List.mem_cons_self
      · split <;> exact List.mem_cons_self
    rw [hcut "ordinal" hordinal]
    obtain ⟨v', hv'⟩ := values_total D when (D.readOrdinal L v)
    obtain ⟨pieces, pieces', hparse, hparse', hfields, -⟩ := haccepted.parsed
    have hwrite := hlegible.again v when v' hv hsame hv'
    rw [hfields] at hwrite
    refine render_eq_some.mpr ⟨v', hv', ?_, ?_⟩
    · rw [format_congr hparse fun f hf => hwrite f (List.mem_append_left _ hf), hfolder]
    · rw [format_congr hparse' fun f hf => hwrite f (List.mem_append_right _ hf), htitle]
  unfold CollectionDefinition.matchesNote
  rw [hparts, Option.bind_eq_bind, Option.bind_some, matchParts, hfound]
  dsimp only
  rw [hwhen]
  dsimp only
  rw [hagain]
  exact congrArg some (decide_eq_true rfl)

/-- No placeholder has a conversion or a format spec, and any two ordinals are kept apart. -/
structure Plain (L : Language) (D : CollectionDefinition) : Prop where
  fields : ∀ f ∈ D.fields, f.conversion = none ∧ f.spec = []
  apart : ∀ parts, D.matchPattern L = some parts → Pattern.Separated L.isDecimal (parts.map (·.item))

theorem pieceParts_mem {group : Text → Option Part} {pieces : List Piece} {parts : List (List Part)}
    (h : pieces.mapM (pieceParts group) = some parts) :
    ∀ part ∈ parts.flatten, (∃ t, part = ⟨none, exactly t⟩) ∨ ∃ name, group name = some part := by
  replace h := mapM_eq_some.mp h
  induction h with
  | nil => simp
  | @cons p now pieces parts hpiece _ ih =>
    intro part hpart
    rw [List.flatten_cons] at hpart
    refine (List.mem_append.mp hpart).elim (fun hmem => ?_) (ih part)
    unfold pieceParts at hpiece
    split at hpiece
    · cases hpiece
      exact .inl ⟨_, List.mem_singleton.mp hmem⟩
    · obtain ⟨part', hname, rfl⟩ := Option.map_eq_some_iff.mp hpiece
      rcases List.mem_cons.mp hmem with rfl | hmem
      · exact .inl ⟨_, rfl⟩
      · exact .inr ⟨_, List.mem_singleton.mp hmem ▸ hname⟩

/-- Only the ordinals are runs. -/
theorem matchPart_run {name : Text} {part : Part} (h : D.matchPart L name = some part) (hrun : part.item = .run) :
    part.group = some "ordinal".toList := by
  obtain ⟨item, hitem, rfl⟩ := Option.map_eq_some_iff.mp h
  obtain rfl : item = .run := hrun
  unfold fieldPattern at hitem
  split at hitem
  · cases hitem
  split at hitem
  · generalize D.grain = grain at hitem
    cases grain <;> cases hitem
  split at hitem
  · cases hitem
  split at hitem
  · cases hitem
  split at hitem
  · rename_i hname
    rw [hname]
  · cases hitem

theorem matchPattern_run {parts : List Part} (h : D.matchPattern L = some parts) :
    ∀ part ∈ parts, part.item = .run → part.group = some "ordinal".toList := by
  have hmatch : ∀ part, (∃ t, part = ⟨none, exactly t⟩) ∨ (∃ name, D.matchPart L name = some part) →
      part.item = .run → part.group = some "ordinal".toList := by
    rintro part (⟨t, rfl⟩ | ⟨name, hname⟩) hrun
    · cases hrun
    · exact matchPart_run hname hrun
  obtain ⟨folder, hfolder, h⟩ := Option.bind_eq_some_iff.mp h
  obtain ⟨title, htitle, h⟩ := Option.bind_eq_some_iff.mp h
  cases h
  obtain ⟨_, -, hfolder⟩ := Option.bind_eq_some_iff.mp hfolder
  obtain ⟨_, hparts, hfolder⟩ := Option.bind_eq_some_iff.mp hfolder
  cases hfolder
  obtain ⟨_, -, htitle⟩ := Option.bind_eq_some_iff.mp htitle
  obtain ⟨_, hparts', htitle⟩ := Option.bind_eq_some_iff.mp htitle
  cases htitle
  intro part hpart
  rcases List.mem_append.mp hpart with hmem | hmem
  · exact hmatch part (pieceParts_mem hparts part hmem)
  · rcases List.mem_cons.mp hmem with rfl | hmem
    · exact hmatch _ (.inl ⟨_, rfl⟩)
    · exact hmatch part (pieceParts_mem hparts' part hmem)

/-- One ordinal needs nothing that keeps it apart. -/
theorem plain_of_single (hfields : ∀ f ∈ D.fields, f.conversion = none ∧ f.spec = [])
    (hsingle : D.names.Pairwise fun a b => a = "ordinal".toList → b ≠ "ordinal".toList) : Plain L D where
  fields := hfields
  apart parts hparts := by
    rw [← matchPattern_names hparts, List.pairwise_filterMap] at hsingle
    refine Pattern.separated_of_pairwise (List.pairwise_map.mpr (hsingle.imp_of_mem fun ha hb hab hrun hrun' => ?_))
    have hgroup := matchPattern_run hparts _ ha hrun
    have hgroup' := matchPattern_run hparts _ hb hrun'
    exact hab _ hgroup _ hgroup' rfl rfl

theorem digits_str (n : ℕ) : digits (str n) = some n := by
  have hdigit : (str n).all Char.isDigit = true :=
    List.all_eq_true.mpr fun c hc => Nat.isDigit_of_mem_toDigits (by decide) (by decide) hc
  unfold digits
  rw [if_pos ⟨Nat.toDigits_ne_nil, hdigit⟩, ← Nat.ofDigitChars_eq_foldl, str, Nat.ofDigitChars_ten_toDigits]

theorem str_digits (n : ℕ) : str n ≠ [] ∧ ∀ c ∈ str n, L.isDecimal c = true :=
  ⟨Nat.toDigits_ne_nil, fun _ hc => isDecimal_of_isDigit (Nat.isDigit_of_mem_toDigits (by decide) (by decide) hc)⟩

/-- Every placeholder that is accepted has a value. -/
theorem get_isSome (haccepted : Accepted L D) (hv : D.values d n = some v) {name : Text} (hname : name ∈ D.names) :
    ∃ t, v.get name = some t := by
  obtain ⟨-, -, -, -, -, hknown, hyear⟩ := haccepted.parsed
  obtain ⟨period, month, -, hmonth, rfl⟩ := values_eq_some.mp hv
  have hcases := hknown name hname
  simp only [placeholders, List.map_cons, List.map_nil, List.mem_cons, List.not_mem_nil, or_false] at hcases
  rcases hcases with rfl | rfl | rfl | rfl | rfl
  · exact ⟨_, get_date⟩
  · exact ⟨_, get_key⟩
  · exact ⟨_, get_year⟩
  · rw [get_month]
    have hgrain : D.grain ≠ .year := fun h => hyear h hname
    generalize D.grain = grain at hgrain hmonth
    cases grain with
    | year => exact (hgrain rfl).elim
    | day => exact ⟨_, (Option.some.inj hmonth).symm⟩
    | month => exact ⟨_, (Option.some.inj hmonth).symm⟩
    | week =>
      obtain ⟨m, -, hm⟩ := Option.map_eq_some_iff.mp hmonth
      exact ⟨_, hm.symm⟩
  · exact ⟨_, get_ordinal⟩

theorem write_of_plain (hfields : ∀ f ∈ D.fields, f.conversion = none ∧ f.spec = []) (haccepted : Accepted L D)
    (hv : D.values d n = some v) {f : Field} (hf : f ∈ D.fields) : L.write v f = v.get f.name := by
  obtain ⟨name, conversion, spec⟩ := f
  obtain ⟨rfl, rfl⟩ := hfields _ hf
  obtain ⟨t, ht⟩ := get_isSome haccepted hv (List.mem_map_of_mem hf)
  rw [L.plain v _ t ht, ht]

theorem Plain.write (hplain : Plain L D) (haccepted : Accepted L D) (hv : D.values d n = some v) {f : Field}
    (hf : f ∈ D.fields) : L.write v f = v.get f.name := write_of_plain hplain.fields haccepted hv hf

theorem Plain.write_ordinal (hplain : Plain L D) (haccepted : Accepted L D) (hv : D.values d n = some v) {f : Field}
    (hf : f ∈ D.fields) (hordinal : f.name = "ordinal".toList) : L.write v f = some (str n) := by
  obtain ⟨_, _, -, -, rfl⟩ := values_eq_some.mp hv
  rw [hplain.write haccepted hv hf, hordinal, get_ordinal]

/-- The number that is read is the one that was written. -/
theorem Plain.readOrdinal (hplain : Plain L D) (haccepted : Accepted L D) (hv : D.values d n = some v)
    (hused : "ordinal".toList ∈ D.names) : D.readOrdinal L v = n := by
  obtain ⟨t, ht⟩ := Option.isSome_iff_exists.mp (captured_isSome.mpr (fst_writes (L := L) (v := v) ▸ hused))
  obtain ⟨f, hf, hpair⟩ := List.mem_map.mp (mem_of_captured ht)
  obtain ⟨hname, rfl⟩ := Prod.mk.inj hpair
  rw [written_of_some (hplain.write_ordinal haccepted hv hf hname)] at ht
  rw [CollectionDefinition.readOrdinal, ht, Option.map_some, Option.getD_some, int_of_digits (digits_str n)]

/-- What `_validate_rendered_path` has looked at. -/
theorem Accepted.rendered (h : Accepted L D) : ∃ d pair, D.render L d (some 1) = some pair ∧ pair.1 ≠ [] ∧
    normalizeFolder pair.1 = some pair.1 ∧ titleToWindowsFilename pair.2 = pair.2 := by
  obtain ⟨_, -, hrest⟩ := bind_ok h.validate
  obtain ⟨_, -, hrest⟩ := bind_ok hrest
  obtain ⟨_, -, hrest⟩ := bind_ok hrest
  obtain ⟨_, -, hrest⟩ := bind_ok hrest
  obtain ⟨_, -, hrest⟩ := bind_ok hrest
  obtain ⟨_, -, hrest⟩ := bind_ok hrest
  obtain ⟨anchor, -, hrest⟩ := bind_ok hrest
  obtain ⟨rendered, hrendered, hrest⟩ := bind_ok hrest
  obtain ⟨_, hpath, hrest⟩ := bind_ok hrest
  obtain ⟨_, hfolder, hfilename⟩ := bind_ok hrest
  refine ⟨anchor, rendered, orError_ok hrendered, (not_or.mp (of_decide_eq_false (check_ok hpath))).1,
    not_ne_iff.mp (of_decide_eq_false (check_ok hfolder)), ?_⟩
  exact not_ne_iff.mp (not_or.mp (of_decide_eq_false (check_ok hfilename))).2

/-- What an accepted title has besides its placeholders stands in a file name. -/
theorem Accepted.line (haccepted : Accepted L D) {pieces : List Piece} (hparse : parse D.title = some pieces) :
    ∀ p ∈ pieces, '\n' ∉ p.literal := by
  obtain ⟨_, rendered, hrendered, -, -, hsame⟩ := haccepted.rendered
  obtain ⟨v, -, -, htitle⟩ := render_eq_some.mp hrendered
  obtain ⟨_, texts, hp, htexts, hflat⟩ := format_eq_some.mp htitle
  rw [hparse] at hp
  cases hp
  intro p hp hbreak
  have hmem : '\n' ∈ rendered.2 := by
    obtain ⟨i, hi, rfl⟩ := List.getElem_of_mem hp
    have hlen := (List.Forall₂.length_eq htexts) ▸ hi
    have hpiece := (List.forall₂_iff_get.mp htexts).2 i hi hlen
    refine hflat ▸ List.mem_flatten.mpr ⟨_, List.get_mem texts ⟨i, hlen⟩, ?_⟩
    unfold writePiece at hpiece
    rw [List.get_eq_getElem] at hpiece
    split at hpiece
    · exact Option.some.inj hpiece ▸ hbreak
    · obtain ⟨t, -, ht⟩ := Option.map_eq_some_iff.mp hpiece
      exact ht ▸ List.mem_append_left t hbreak
  rw [← hsame] at hmem
  exact (segment_titleToWindowsFilename rendered.2).notMem (by decide) hmem

theorem notMem_pad (hc : c.isDigit = false) (w k : ℕ) : c ∉ pad w k := fun h => by
  rw [isDigit_of_mem_pad h] at hc
  cases hc

theorem notMem_formatKey (hc : c.isDigit = false) (hdash : c ≠ '-') (hweek : c ≠ 'W') (d : Date) (grain : PeriodKind) :
    c ∉ formatKey d grain := by
  cases grain with
  | day => simp [formatKey, Date.isoformat, notMem_pad hc, hdash]
  | week => simp [formatKey, notMem_pad hc, hdash, hweek]
  | month => simp [formatKey, notMem_pad hc, hdash]
  | year => exact notMem_pad hc 4 _

/-- The values are digits, hyphens and the letter of the weeks. -/
theorem notMem_value (hc : c.isDigit = false) (hdash : c ≠ '-') (hweek : c ≠ 'W') (hv : D.values d n = some v)
    {name t : Text} (ht : v.get name = some t) : c ∉ t := by
  obtain ⟨period, month, -, hmonth, rfl⟩ := values_eq_some.mp hv
  unfold Values.get at ht
  split at ht
  · cases ht
    exact notMem_formatKey hc hdash hweek d .day
  split at ht
  · cases ht
    exact notMem_formatKey hc hdash hweek d D.grain
  split at ht
  · cases ht
    exact fun h => notMem_formatKey hc hdash hweek d D.grain (List.mem_of_mem_take h)
  split at ht
  · obtain rfl : month = some t := ht
    obtain ⟨k, rfl⟩ := monthValue_pad hmonth
    exact notMem_pad hc 2 k
  split at ht
  · cases ht
    intro h
    rw [Nat.isDigit_of_mem_toDigits (by decide) (by decide) h] at hc
    cases hc
  · cases ht

/-- Nor has the title of an entry. -/
theorem Plain.line (hplain : Plain L D) (haccepted : Accepted L D) (hv : D.values d n = some v) {title : Text}
    (htitle : format L v D.title = some title) : '\n' ∉ title := by
  obtain ⟨pieces, texts, hparse, htexts, rfl⟩ := format_eq_some.mp htitle
  have hliteral := haccepted.line hparse
  have hfields : ∀ p ∈ pieces, ∀ f, p.field = some f → f ∈ D.fields := by
    intro p hp f hf
    rw [CollectionDefinition.fields, hparse]
    exact List.mem_append_right _ (List.mem_filterMap.mpr ⟨p, hp, hf⟩)
  clear htitle hparse
  induction htexts with
  | nil => exact List.not_mem_nil
  | @cons p t pieces texts hpiece _ ih =>
    rw [List.flatten_cons, List.mem_append, not_or]
    refine ⟨?_, ih (fun q hq => hliteral q (List.mem_cons_of_mem p hq)) fun q hq =>
      hfields q (List.mem_cons_of_mem p hq)⟩
    have hp := hliteral p List.mem_cons_self
    unfold writePiece at hpiece
    split at hpiece
    · exact Option.some.inj hpiece ▸ hp
    · rename_i f hf
      obtain ⟨value, hvalue, rfl⟩ := Option.map_eq_some_iff.mp hpiece
      rw [hplain.write haccepted hv (hfields p List.mem_cons_self f hf)] at hvalue
      exact fun hmem => (List.mem_append.mp hmem).elim hp (notMem_value (by decide) (by decide) (by decide) hv hvalue)

theorem path_last {pair : Text × Text} (h : '\n' ∉ pair.2) (t : Text) :
    CollectionDefinition.path pair ≠ t ++ ['\n'] := by
  intro heq
  have hlast := congrArg List.getLast? heq
  rw [CollectionDefinition.path, List.getLast?_append_cons, List.getLast?_concat] at hlast
  rcases List.mem_cons.mp (List.mem_of_getLast? hlast) with hslash | hmem
  · cases hslash
  · exact h hmem

/-- **Plain definitions** can be read back for every date and ordinal. -/
theorem legible_of_plain (haccepted : Accepted L D) (hplain : Plain L D) (d : Date) (n : ℕ) : D.Legible L d n where
  value v hv f hf _ := hplain.write haccepted hv hf
  digits v hv f hf hordinal := by
    rw [written_of_some (hplain.write_ordinal haccepted hv hf hordinal)]
    exact str_digits n
  again v d' v' hv hsame hv' f hf := by
    by_cases hordinal : f.name = "ordinal".toList
    · rw [hplain.write_ordinal haccepted hv hf hordinal, hplain.write_ordinal haccepted hv' hf hordinal,
        hplain.readOrdinal haccepted hv (hordinal ▸ List.mem_map_of_mem hf)]
    · rw [hplain.write haccepted hv hf, hplain.write haccepted hv' hf]
      exact hsame _ _ v v' hv hv' _ (List.mem_map_of_mem hf) hordinal
  cut v pair parts texts hv hrender hparts hcut _ name _ := by
    obtain ⟨hfits, rest, hpath, hend⟩ := hcut
    obtain ⟨v', hv', hfolder, htitle⟩ := render_eq_some.mp hrender
    rw [Option.getD_some, hv] at hv'
    cases hv'
    obtain ⟨parts', texts', hparts', hfits', hflat, hgroups⟩ := matchPattern_fit haccepted hv
      (fun f hf _ => hplain.write haccepted hv hf) (fun f hf hordinal => by
        rw [written_of_some (hplain.write_ordinal haccepted hv hf hordinal)]
        exact str_digits n) hfolder htitle
    rw [hparts] at hparts'
    cases hparts'
    rcases of_decide_eq_true hend with rfl | rfl
    · -- something that is no digit between any two ordinals: there is one cut only
      rw [List.append_nil, ← hflat] at hpath
      rw [← Pattern.fits_unique (hplain.apart parts hparts) hfits' hfits hpath, hgroups]
    · exact (path_last (hplain.line haccepted hv htitle) _ hpath).elim

end

/-! ## two definitions -/

/-- Python, where no placeholder has a conversion or a format spec. -/
def plainLanguage : Language where
  write v f := if f.conversion = none ∧ f.spec = [] then v.get f.name else none
  decimal c := if c.isDigit then some (c.toNat - '0'.toNat) else none
  plain _ _ _ h := by rw [if_pos ⟨rfl, rfl⟩, h]
  ascii _ _ := rfl

/-- An entry for each day, and each ordinal. -/
def log (title : String) : CollectionDefinition := ⟨"log".toList, .day, .many, "log".toList, title.toList, none⟩

def logEntries (title : String) : List (Frontmatter.Yaml × Frontmatter.Yaml) :=
  [("grain", "day"), ("cardinality", "many"), ("folder", "log"), ("title", title)].map
    fun e => (.str e.1.toList, .str e.2.toList)

theorem log_accepted {title : String}
    (h : (parseDefinition plainLanguage (.str "log".toList) (.map (logEntries title))).toOption = some (log title)) :
    Accepted plainLanguage (log title) := by
  exact ⟨.str "log".toList, .map (logEntries title), ok_of_toOption h⟩

def newYear : Date := ⟨2026, 1, 1, by decide, by decide, by decide, by decide⟩

end Kajet.Collections
