import Kajet.Collections.Sampling
import Kajet.Lib.Fallible

/-!
# What a redefinition drops

`dropped_members` looks the notes up among the sampled renderings of the old and the new definition.

* `Surveyed`          the notes that a definition renders are among its samples;
* `matchesNote_eq`    then membership is the same as being a sample;
* `droppedMembers_eq` and what is dropped are the members of the old definition that the new one has not;
* `old_entry_kept`    an entry outside of the window is not reported.
-/

namespace Kajet.Collections
open Str Fallible

variable {L : Language} {D old new : CollectionDefinition} {today : Date} {pair : Text × Text}
  {pairs : List (Text × Text)}

/-- `dropped_members`; `none`: a rendering raises. -/
def droppedMembers (L : Language) (today : Date) (old new : CollectionDefinition) (candidates : List (Text × Text)) :
    Option (List (Text × Text)) := do
  let oldSet ← old.renderSet L today
  let newSet ← new.renderSet L today
  some (candidates.filter fun pair => pair ∈ oldSet ∧ pair ∉ newSet)

/-- What the definition renders among the pairs can be read back. Where `matches` recovers a date, the definition
gives the days of a period the same, and it renders these pairs for a date of the window and a sampled ordinal. -/
structure Surveyed (L : Language) (today : Date) (pairs : List (Text × Text)) (D : CollectionDefinition) : Prop where
  accepted : Accepted L D
  renders : D.Renders L
  legible : ∀ pair ∈ pairs, ∀ d n, D.render L d (some n) = some pair → D.Legible L d n
  steady : D.Recovers → D.Steady L
  window : D.Recovers → ∀ pair ∈ pairs, ∀ d n, D.render L d (some n) = some pair →
    ∃ d', InWindow today d' ∧ ∃ ordinal ∈ D.ordinals, D.render L d' ordinal = some pair

/-! ## membership does not raise -/

theorem fieldPattern_isSome {grain : PeriodKind} {name : Text} (h : name ∈ placeholders) :
    (fieldPattern L grain name).isSome = true := by
  simp only [placeholders, List.map_cons, List.map_nil, List.mem_cons, List.not_mem_nil, or_false] at h
  rcases h with rfl | rfl | rfl | rfl | rfl <;> rfl

theorem templateParts_isSome {group : Text → Option Part} {template : Text} {pieces : List Piece}
    (hparse : parse template = some pieces) (h : ∀ f ∈ fieldsOf pieces, (group f.name).isSome = true) :
    ∃ parts, templateParts group template = some parts := by
  obtain ⟨parts, hparts⟩ := mapM_isSome (l := pieces) (f := pieceParts group) fun p hp => by
    unfold pieceParts
    split
    · rfl
    · rename_i field hfield
      rw [Option.isSome_map]
      exact h field (List.mem_filterMap.mpr ⟨p, hp, hfield⟩)
  exact ⟨_, templateParts_eq hparse hparts⟩

/-- What is accepted has a pattern. -/
theorem Accepted.matchPattern (h : Accepted L D) : ∃ parts, D.matchPattern L = some parts := by
  obtain ⟨folder, title, hparse, hparse', hfields, hknown, -⟩ := h.parsed
  have hpart : ∀ f ∈ fieldsOf folder ++ fieldsOf title, (D.matchPart L f.name).isSome = true := fun f hf => by
    rw [CollectionDefinition.matchPart, Option.isSome_map]
    exact fieldPattern_isSome (hknown _ (List.mem_map_of_mem (hfields ▸ hf)))
  obtain ⟨parts, hparts⟩ := templateParts_isSome hparse fun f hf => hpart f (List.mem_append_left _ hf)
  obtain ⟨parts', hparts'⟩ := templateParts_isSome hparse' fun f hf => hpart f (List.mem_append_right _ hf)
  refine ⟨parts ++ ⟨none, exactly ['/']⟩ :: parts', ?_⟩
  unfold CollectionDefinition.matchPattern
  rw [hparts, Option.bind_eq_bind, Option.bind_some, hparts']
  rfl

theorem matchesNote_total (haccepted : Accepted L D) (hrenders : D.Renders L) (h : Surveys today)
    (folder title : Text) :
    ∃ b, D.matchesNote L today folder title = some b := by
  obtain ⟨parts, hparts⟩ := haccepted.matchPattern
  unfold CollectionDefinition.matchesNote
  rw [hparts, Option.bind_eq_bind, Option.bind_some]
  split
  · exact ⟨_, rfl⟩
  dsimp only
  split
  · exact ⟨_, rfl⟩
  · obtain ⟨rendered, hrendered⟩ := renderSet_total hrenders h
    rw [hrendered]
    exact ⟨_, rfl⟩
  · rename_i when _
    rw [render_getD]
    obtain ⟨rendered, hrendered⟩ := Option.isSome_iff_exists.mp (hrenders when _)
    rw [hrendered]
    exact ⟨_, rfl⟩

/-! ## membership without a date -/

/-- Where the templates name no date, none is recovered. -/
theorem recoverWhen_none {found : String → Option Text} (hrecovers : ¬ D.Recovers)
    (hfound : ∀ name : String, (found name).isSome = true → name.toList ∈ D.names) :
    D.recoverWhen L found = some none := by
  obtain ⟨hdate, hrest⟩ := not_or.mp hrecovers
  obtain ⟨hkey, hyear⟩ := not_or.mp hrest
  have hnone : ∀ name : String, name.toList ∉ D.names → found name = none := fun name hname =>
    Option.not_isSome_iff_eq_none.mp (mt (hfound name) hname)
  unfold CollectionDefinition.recoverWhen
  rw [hnone "date" hdate, hnone "key" hkey]
  dsimp only
  split
  · rename_i year hsome
    rw [if_pos]
    by_contra hgrain
    exact hyear ⟨hfound "year" (by rw [hsome]; rfl), hgrain⟩
  · rfl

/-- Then the members are the samples. -/
theorem matchesNote_of_not_recovers {rendered : List (Text × Text)} (haccepted : Accepted L D)
    (hrecovers : ¬ D.Recovers) (hrendered : D.renderSet L today = some rendered)
    (hlegible : ∀ d n, D.render L d (some n) = some pair → D.Legible L d n) :
    D.matchesNote L today pair.1 pair.2 = some (decide (pair ∈ rendered)) := by
  obtain ⟨parts, hparts⟩ := haccepted.matchPattern
  unfold CollectionDefinition.matchesNote
  rw [hparts, Option.bind_eq_bind, Option.bind_some]
  cases hmatch : matchParts L parts (CollectionDefinition.path (pair.1, pair.2)) with
  | none =>
    -- a sample fits the pattern
    refine congrArg some (decide_eq_false fun hmem => ?_).symm
    obtain ⟨d, n, hrender⟩ := exists_render hrendered hmem
    obtain ⟨v, hv, hfolder, htitle⟩ := render_eq_some.mp hrender
    rw [Option.getD_some] at hv
    have hl := hlegible d n hrender
    obtain ⟨parts', texts, hparts', hfits, hflat, -⟩ := matchPattern_fit haccepted hv (hl.value v hv) (hl.digits v hv)
      hfolder htitle
    rw [hparts] at hparts'
    cases hparts'
    have hsome := Pattern.split_isSome (t := []) hfits (show atEnd [] = true by decide)
    rw [List.append_nil, hflat, ← matchParts, hmatch] at hsome
    cases hsome
  | some texts =>
    dsimp only
    have hlen := (Pattern.split_fits hmatch).1.length_eq
    rw [List.length_map] at hlen
    rw [recoverWhen_none hrecovers fun name hname => by
      rw [← matchPattern_names hparts, ← groups_names hlen]
      exact captured_isSome.mp hname]
    dsimp only
    rw [hrendered]
    rfl

/-! ## the report -/

/-- **Membership is being a sample**, for the pairs that are rendered within the window. -/
theorem matchesNote_eq {rendered : List (Text × Text)} (h : Surveyed L today pairs D) (hday : Surveys today)
    (hrendered : D.renderSet L today = some rendered) (hpair : pair ∈ pairs) :
    D.matchesNote L today pair.1 pair.2 = some (decide (pair ∈ rendered)) := by
  by_cases hrecovers : D.Recovers
  · obtain ⟨b, hb⟩ := matchesNote_total h.accepted h.renders hday pair.1 pair.2
    refine hb.trans (congrArg some ((Bool.eq_iff_iff).mpr ?_))
    rw [decide_eq_true_iff]
    constructor
    · rintro rfl
      obtain ⟨d, n, hrender⟩ := render_of_matches hrecovers hb
      obtain ⟨d', hd', ordinal, hordinal, hrender'⟩ := h.window hrecovers pair hpair d n hrender
      exact mem_renderSet_of hday hrendered (h.steady hrecovers) hd' hordinal hrender'
    · intro hmem
      obtain ⟨d, n, hrender⟩ := exists_render hrendered hmem
      have hmember : D.matchesNote L today pair.1 pair.2 = some true :=
        matches_of_render h.accepted hrecovers (h.legible pair hpair d n hrender) hrender
      exact Option.some.inj (hb.symm.trans hmember)
  · exact matchesNote_of_not_recovers h.accepted hrecovers hrendered (h.legible pair hpair)

/-- **What a redefinition drops**, in the order of the candidates. -/
theorem droppedMembers_eq (hday : Surveys today) (hold : Surveyed L today pairs old)
    (hnew : Surveyed L today pairs new) :
    droppedMembers L today old new pairs = some (pairs.filter fun pair =>
      old.matchesNote L today pair.1 pair.2 = some true ∧ new.matchesNote L today pair.1 pair.2 = some false) := by
  obtain ⟨oldSet, holdSet⟩ := renderSet_total hold.renders hday
  obtain ⟨newSet, hnewSet⟩ := renderSet_total hnew.renders hday
  unfold droppedMembers
  rw [holdSet, Option.bind_eq_bind, Option.bind_some, hnewSet, Option.bind_some]
  refine congrArg some (List.filter_congr fun pair hpair => ?_)
  rw [matchesNote_eq hold hday holdSet hpair, matchesNote_eq hnew hday hnewSet hpair]
  simp

/-! ## a redefinition -/

/-- A note for each year. -/
def yearly (title : String) : CollectionDefinition := ⟨"y".toList, .year, .one, "j".toList, title.toList, none⟩

def yearlyEntries (title : String) : List (Frontmatter.Yaml × Frontmatter.Yaml) :=
  [("grain", "year"), ("cardinality", "one"), ("folder", "j"), ("title", title)].map
    fun e => (.str e.1.toList, .str e.2.toList)

theorem yearly_accepted {title : String}
    (h : (parseDefinition plainLanguage (.str "y".toList) (.map (yearlyEntries title))).toOption = some (yearly title)) :
    Accepted plainLanguage (yearly title) :=
  ⟨_, _, Fallible.ok_of_toOption h⟩

section
variable {title : String} {suffix : Text}

/-- The title is a year, and a text after it. -/
def Suffixed (title : String) (suffix : Text) : Prop :=
  ∀ v, format plainLanguage v title.toList = some (v.year ++ suffix)

/-- The templates by pieces. -/
theorem parse_yearly : parse "{year}".toList = some [⟨[], some ⟨"year".toList, none, []⟩⟩] ∧
    parse "{year} review".toList = some [⟨[], some ⟨"year".toList, none, []⟩⟩, ⟨" review".toList, none⟩] ∧
    parse "j".toList = some [⟨"j".toList, none⟩] := by
  decide +kernel

theorem suffixed_year : Suffixed "{year}" [] := by
  intro v
  rw [format, parse_yearly.1]
  rfl

theorem suffixed_review : Suffixed "{year} review" " review".toList := by
  intro v
  rw [format, parse_yearly.2.1]
  show some (([] ++ v.year) ++ (" review".toList ++ [])) = _
  rw [List.nil_append, List.append_nil]

theorem yearly_render (h : Suffixed title suffix) (d : Date) (ordinal : Option ℕ) :
    (yearly title).render plainLanguage d ordinal = some ("j".toList, pad 4 d.year ++ suffix) := by
  obtain ⟨v, hv⟩ := values_total (yearly title) d (ordinal.getD 1)
  obtain ⟨_, _, -, -, rfl⟩ := values_eq_some.mp hv
  refine render_eq_some.mpr ⟨_, hv, ?_, (h _).trans ?_⟩
  · show format plainLanguage _ "j".toList = _
    rw [format, parse_yearly.2.2]
    rfl
  · show some ((pad 4 d.year).take 4 ++ suffix) = _
    rw [List.take_of_length_le (length_pad 4 _).le]

/-- The notes are surveyed if they have the shape of the titles in the window, or no such shape. -/
theorem yearly_surveyed {today : Date} (h : Suffixed title suffix) (haccepted : Accepted plainLanguage (yearly title))
    (hplain : Plain plainLanguage (yearly title))
    (hwindow : ∀ pair ∈ pairs, pair.2.length = 4 + suffix.length → ∃ d, InWindow today d ∧
      pair = ("j".toList, pad 4 d.year ++ suffix)) : Surveyed plainLanguage today pairs (yearly title) where
  accepted := haccepted
  renders d n := by
    rw [yearly_render h]
    rfl
  legible _ _ d n _ := legible_of_plain haccepted hplain d n
  steady _ d s n hstarts := by
    rw [yearly_render h, yearly_render h, show s.year = d.year from hstarts.1]
  window _ pair hpair d n hrender := by
    rw [yearly_render h] at hrender
    obtain ⟨d', hd', hshape⟩ := hwindow pair hpair (by
      rw [← Option.some.inj hrender, List.length_append, length_pad])
    exact ⟨d', hd', none, List.mem_singleton_self _, by rw [yearly_render h, hshape]⟩

end

def reviewed : List (Text × Text) := [("j".toList, "2024".toList), ("j".toList, "2025 review".toList)]

/-- A note of the old titles, and one of the new ones. -/
theorem droppedMembers_eq_yearly :
    droppedMembers plainLanguage newYear (yearly "{year}") (yearly "{year} review") reviewed =
      some [("j".toList, "2024".toList)] ∧
    droppedMembers plainLanguage newYear (yearly "{year}") (yearly "{year} review") reviewed =
      some (reviewed.filter fun pair =>
        (yearly "{year}").matchesNote plainLanguage newYear pair.1 pair.2 = some true ∧
        (yearly "{year} review").matchesNote plainLanguage newYear pair.1 pair.2 = some false) := by
  refine ⟨by decide +kernel, droppedMembers_eq (by decide) (yearly_surveyed suffixed_year (yearly_accepted
    (by decide +kernel)) (plain_of_single (by decide +kernel) (by decide +kernel)) ?_) (yearly_surveyed suffixed_review
    (yearly_accepted (by decide +kernel)) (plain_of_single (by decide +kernel) (by decide +kernel)) ?_)⟩
  · intro pair hpair hlen
    rcases List.mem_cons.mp hpair with rfl | hpair
    · exact ⟨⟨2024, 1, 1, by decide⟩, by decide, by decide +kernel⟩
    · obtain rfl := List.mem_singleton.mp hpair
      exact absurd hlen (by decide +kernel)
  · intro pair hpair hlen
    rcases List.mem_cons.mp hpair with rfl | hpair
    · exact absurd hlen (by decide +kernel)
    · obtain rfl := List.mem_singleton.mp hpair
      exact ⟨⟨2025, 1, 1, by decide⟩, by decide, by decide +kernel⟩

/-- A note of a year before the window: a member that is lost, and not reported. -/
theorem old_entry_kept :
    Accepted plainLanguage (yearly "{year}") ∧ Accepted plainLanguage (yearly "{year} review") ∧
    (yearly "{year}").matchesNote plainLanguage newYear "j".toList "2019".toList = some true ∧
    (yearly "{year} review").matchesNote plainLanguage newYear "j".toList "2019".toList = some false ∧
    droppedMembers plainLanguage newYear (yearly "{year}") (yearly "{year} review")
      [("j".toList, "2019".toList)] = some [] := by
  refine ⟨yearly_accepted (by decide +kernel), yearly_accepted (by decide +kernel), ?_, ?_, ?_⟩
  · decide +kernel
  · decide +kernel
  · decide +kernel

end Kajet.Collections
