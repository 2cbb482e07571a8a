import Kajet.Reindex.Adopted
import Kajet.Reindex.Rows

/-!
# The rows after the transaction

Every present file leaves one row; the other rows stay, except those that are missing.

* `Env.Leaves`     the row of a present file afterwards: new, updated, or the one it had;
* `mem_writeRows`  the table after the transaction;
* `Env.Ran`        a reconcile that went through, step by step.
-/

namespace Kajet.Reindex
open Str Rank Links Frontmatter Fallible Table

variable {env : Env} {t t' : Notes} {n e : Note} {pf : PresentFile} {x : Key × PresentFile}
  {present : List (Key × PresentFile)} {changes done : List (PresentFile × Change)}

def Env.Inserts (env : Env) (x : PresentFile × Change) (n : Note) : Prop :=
  x.2 = .inserted ∧ ∃ noteId title, env.stored x.1.id = some noteId ∧
    env.stored x.1.title = some title ∧ n = env.newNote x.1 noteId title

def Env.Updates (env : Env) (x : PresentFile × Change) (n : Note) : Prop :=
  ∃ e title, x.2 = .updated e ∧ env.stored x.1.title = some title ∧ n = driftedNote e x.1 title

/-- The row of a present file after the transaction. -/
def Env.Leaves (env : Env) (t : Notes) (pf : PresentFile) (n : Note) : Prop :=
  ∃ change, env.change t pf = .ok change ∧ (env.Inserts (pf, change) n ∨ env.Updates (pf, change) n ∨
    (change = .unchanged ∧ env.existing t pf = some n))

/-! ## the table -/

namespace Notes

theorem mem_insert {t' : Notes} (h : t.insert n = .ok t') :
    (∀ y, y ∈ t'.rows ↔ y ∈ t.rows ∨ y = n) ∧ ∀ y ∈ t.rows, y.noteId ≠ n.noteId := by
  unfold insert at h
  split at h
  · rename_i hnew
    cases h
    exact ⟨fun y => by rw [List.mem_append, List.mem_singleton], hnew⟩
  · cases h

theorem mem_delete {p : Note → Bool} : n ∈ (t.delete p).rows ↔ n ∈ t.rows ∧ p n = false := mem_deleteWhere

/-- A row is replaced by fields of its own id. -/
theorem mem_update (new : Note) (he : e ∈ t.rows) (hnew : new.noteId = e.noteId ∧
    new.workspace = e.workspace ∧ new.ownerId = e.ownerId) :
    n ∈ (t.update new).rows ↔ n = new ∨ (n ∈ t.rows ∧ e.noteId ≠ n.noteId) := by
  obtain ⟨hid, hworkspace, howner⟩ := hnew
  have hself : { new with noteId := e.noteId, workspace := e.workspace, ownerId := e.ownerId } = new := by
    rw [← hid, ← hworkspace, ← howner]
  refine mem_updateWhere.trans ?_
  constructor
  · rintro (⟨y, hy, hyid, rfl⟩ | ⟨hn, hne⟩)
    · obtain rfl := t.ids.eq hy he ((of_decide_eq_true hyid).trans hid)
      exact .inl hself
    · exact .inr ⟨hn, fun h => of_decide_eq_false hne (h.symm.trans hid.symm)⟩
  · rintro (rfl | ⟨hn, hne⟩)
    · exact .inl ⟨e, he, decide_eq_true hid.symm, hself⟩
    · exact .inr ⟨hn, decide_eq_false fun h => hne (h.trans hid).symm⟩

end Notes

/-! ## the inserts -/

theorem insertFile_ok {y : PresentFile × Change} (h : env.insertFile t y = .ok t') :
    (∀ n, n ∈ t'.rows ↔ n ∈ t.rows ∨ env.Inserts y n) ∧
      (∀ n, env.Inserts y n → ∀ z ∈ t.rows, z.noteId ≠ n.noteId) ∧
      (y.2 = .inserted → ∃ n, env.Inserts y n) := by
  obtain ⟨pf, change⟩ := y
  unfold Env.insertFile at h
  dsimp only at h
  split at h
  · rename_i noteId title hid htitle
    obtain ⟨hmem, hnew⟩ := Notes.mem_insert h
    have hins : ∀ n, env.Inserts (pf, Change.inserted) n ↔ n = env.newNote pf noteId title := by
      intro n
      constructor
      · rintro ⟨_, noteId', title', hid', htitle', rfl⟩
        rw [hid] at hid'
        rw [htitle] at htitle'
        cases hid'
        cases htitle'
        rfl
      · rintro rfl
        exact ⟨rfl, noteId, title, hid, htitle, rfl⟩
    refine ⟨fun n => by rw [hmem, hins], fun n hn => ?_, fun _ => ⟨_, (hins _).mpr rfl⟩⟩
    rw [(hins n).mp hn]
    exact hnew
  · cases h
  · rename_i hne _
    cases h
    have hnot : _ ≠ Change.inserted := hne
    exact ⟨fun n => ⟨.inl, fun h => h.resolve_right fun h => hnot h.1⟩, fun n h => absurd h.1 hnot,
      fun h => absurd h hnot⟩

theorem insertAll_ok (h : changes.foldlM env.insertFile t = .ok t') :
    (∀ n, n ∈ t'.rows ↔ n ∈ t.rows ∨ ∃ y ∈ changes, env.Inserts y n) ∧
      ∀ y ∈ changes, (∀ n, env.Inserts y n → ∀ z ∈ t.rows, z.noteId ≠ n.noteId) ∧
        (y.2 = .inserted → ∃ n, env.Inserts y n) := by
  refine foldlM_along (P := fun done t' => (∀ n, n ∈ t'.rows ↔ n ∈ t.rows ∨ ∃ y ∈ done, env.Inserts y n) ∧
    ∀ y ∈ done, (∀ n, env.Inserts y n → ∀ z ∈ t.rows, z.noteId ≠ n.noteId) ∧
      (y.2 = .inserted → ∃ n, env.Inserts y n)) ⟨fun n => by simp, by simp⟩ ?_ h
  rintro done y rest r r' _ ⟨hmem, hall⟩ hr
  obtain ⟨hr, hnew, hins⟩ := insertFile_ok hr
  refine ⟨fun n => ?_, fun z hz => ?_⟩
  · rw [hr, hmem, or_assoc]
    refine or_congr_right ?_
    constructor
    · rintro (⟨z, hz, hn⟩ | hn)
      · exact ⟨z, List.mem_append_left _ hz, hn⟩
      · exact ⟨y, by simp, hn⟩
    · rintro ⟨z, hz, hn⟩
      rcases List.mem_append.mp hz with hz | hz
      · exact .inl ⟨z, hz, hn⟩
      · exact .inr (List.mem_singleton.mp hz ▸ hn)
  · rcases List.mem_append.mp hz with hz | hz
    · exact hall z hz
    · rw [List.mem_singleton.mp hz]
      exact ⟨fun n hn w hw => hnew n hn w ((hmem w).mpr (.inl hw)), hins⟩

/-! ## the updates -/

theorem updateFile_ok {y : PresentFile × Change} (he : ∀ e, y.2 = .updated e → e ∈ t.rows)
    (h : env.updateFile t y = .ok t') :
    (∀ n, n ∈ t'.rows ↔ env.Updates y n ∨ (n ∈ t.rows ∧ ∀ e, y.2 = .updated e → e.noteId ≠ n.noteId)) ∧
      ∀ e, y.2 = .updated e → ∃ n, env.Updates y n := by
  obtain ⟨pf, change⟩ := y
  unfold Env.updateFile at h
  dsimp only at h
  split at h
  · rename_i existing title htitle
    cases h
    have hups : ∀ n, env.Updates (pf, Change.updated existing) n ↔ n = driftedNote existing pf title := by
      intro n
      constructor
      · rintro ⟨e, title', he, htitle', rfl⟩
        rw [htitle] at htitle'
        cases he
        cases htitle'
        rfl
      · rintro rfl
        exact ⟨existing, title, rfl, htitle, rfl⟩
    refine ⟨fun n => ?_, fun _ _ => ⟨_, (hups _).mpr rfl⟩⟩
    refine (Notes.mem_update (driftedNote existing pf title) (he existing rfl) ⟨rfl, rfl, rfl⟩).trans ?_
    rw [hups]
    refine or_congr_right (and_congr_right fun _ => ?_)
    constructor
    · rintro hne e he
      cases he
      exact hne
    · exact fun hne => hne existing rfl
  · cases h
  · rename_i change _ _ hsome hnone
    cases h
    have hnot : ∀ e, change ≠ .updated e := by
      intro e he
      cases htitle : env.stored pf.title with
      | none => exact hnone e he htitle
      | some title => exact hsome e title he htitle
    refine ⟨fun n => ?_, fun e he => absurd he (hnot e)⟩
    constructor
    · exact fun hn => .inr ⟨hn, fun e he => absurd he (hnot e)⟩
    · rintro (⟨e, _, he, _⟩ | ⟨hn, _⟩)
      · exact absurd he (hnot e)
      · exact hn

theorem updateAll_ok (he : ∀ y ∈ changes, ∀ e, y.2 = .updated e → e ∈ t.rows)
    (hpair : changes.Pairwise fun y z => ∀ e e', y.2 = .updated e → z.2 = .updated e' → e.noteId ≠ e'.noteId)
    (h : changes.foldlM env.updateFile t = .ok t') :
    (∀ n, n ∈ t'.rows ↔ (∃ y ∈ changes, env.Updates y n) ∨
      (n ∈ t.rows ∧ ∀ y ∈ changes, ∀ e, y.2 = .updated e → e.noteId ≠ n.noteId)) ∧
      ∀ y ∈ changes, ∀ e, y.2 = .updated e → ∃ n, env.Updates y n := by
  refine foldlM_along (P := fun done t' => (∀ n, n ∈ t'.rows ↔ (∃ y ∈ done, env.Updates y n) ∨
    (n ∈ t.rows ∧ ∀ y ∈ done, ∀ e, y.2 = .updated e → e.noteId ≠ n.noteId)) ∧
    ∀ y ∈ done, ∀ e, y.2 = .updated e → ∃ n, env.Updates y n) ⟨fun n => by simp, by simp⟩ ?_ h
  rintro done y rest r r' hl ⟨hmem, hall⟩ hr
  have hy : y ∈ changes := by
    rw [hl]
    exact List.mem_append_right _ List.mem_cons_self
  -- the row of the next file was not touched by the files before
  have hapart : ∀ z ∈ done, ∀ e e', z.2 = .updated e → y.2 = .updated e' → e.noteId ≠ e'.noteId := by
    rw [hl] at hpair
    exact fun z hz => (List.pairwise_append.mp hpair).2.2 z hz y List.mem_cons_self
  have her : ∀ e, y.2 = .updated e → e ∈ r.rows := fun e hye =>
    (hmem e).mpr (.inr ⟨he y hy e hye, fun z hz e' hze => hapart z hz e' e hze hye⟩)
  obtain ⟨hr, hups⟩ := updateFile_ok her hr
  refine ⟨fun n => ?_, fun z hz => ?_⟩
  · rw [hr, hmem]
    constructor
    · rintro (hn | ⟨⟨z, hz, hn⟩ | ⟨hn, hdone⟩, hne⟩)
      · exact .inl ⟨y, by simp, hn⟩
      · exact .inl ⟨z, List.mem_append_left _ hz, hn⟩
      · refine .inr ⟨hn, fun z hz => ?_⟩
        rcases List.mem_append.mp hz with hz | hz
        · exact hdone z hz
        · exact List.mem_singleton.mp hz ▸ hne
    · rintro (⟨z, hz, hn⟩ | ⟨hn, hne⟩)
      · rcases List.mem_append.mp hz with hz | hz
        · refine .inr ⟨.inl ⟨z, hz, hn⟩, fun e' hye => ?_⟩
          obtain ⟨e, title, hze, _, rfl⟩ := hn
          exact (hapart z hz e e' hze hye).symm
        · exact .inl (List.mem_singleton.mp hz ▸ hn)
      · exact .inr ⟨.inr ⟨hn, fun z hz => hne z (List.mem_append_left _ hz)⟩, hne y (by simp)⟩
  · rcases List.mem_append.mp hz with hz | hz
    · exact hall z hz
    · rw [List.mem_singleton.mp hz]
      exact hups

/-! ## what becomes of a present file -/

theorem existing_iff : env.existing t pf = some e ↔
    e ∈ t.rows ∧ pf.id = .str e.noteId.toList ∧ e.ownerId = env.ownerId := by
  have hid : ∀ n : Note, Key.str n.noteId.toList = pf.id.key.getD .null ↔ pf.id = .str n.noteId.toList := by
    intro n
    rw [← Yaml.key_eq_str]
    cases pf.id.key with
    | none => simp
    | some k => simp [eq_comm]
  constructor
  · intro h
    have hsat := List.find?_some h
    rw [decide_eq_true_eq, hid] at hsat
    exact ⟨List.mem_of_find?_eq_some h, hsat.1, hsat.2⟩
  · rintro ⟨hmem, heid, howner⟩
    have hsat : decide (Key.str e.noteId.toList = pf.id.key.getD .null ∧ e.ownerId = env.ownerId) = true := by
      rw [decide_eq_true_eq, hid]
      exact ⟨heid, howner⟩
    have hsome : (env.existing t pf).isSome := List.find?_isSome.mpr ⟨e, hmem, hsat⟩
    obtain ⟨e', he'⟩ := Option.isSome_iff_exists.mp hsome
    have hsat' := List.find?_some he'
    rw [decide_eq_true_eq, hid, heid] at hsat'
    obtain rfl := t.ids.eq hmem (List.mem_of_find?_eq_some he')
      (String.toList_injective (Yaml.str.inj hsat'.1))
    exact he'

/-- A new file has no row, a changed one has drifted from its row, an unchanged one has not. -/
theorem change_ok {change : Change} (h : env.change t pf = .ok change) :
    (change = .inserted ∧ env.existing t pf = none) ∨
      (∃ e, change = .updated e ∧ env.existing t pf = some e ∧ drifted e pf = true) ∨
      ∃ e, change = .unchanged ∧ env.existing t pf = some e ∧ drifted e pf = false := by
  unfold Env.change at h
  split at h
  · rename_i hnone
    obtain ⟨_, _, rfl⟩ := map_ok h
    exact .inl ⟨rfl, hnone⟩
  · rename_i e he
    split at h
    · rename_i hidentity
      obtain ⟨_, _, rfl⟩ := map_ok h
      refine .inr (.inl ⟨e, rfl, he, ?_⟩)
      rw [drifted, hidentity]
      rfl
    · split at h
      · rename_i hdrifted
        cases h
        exact .inr (.inl ⟨e, rfl, he, hdrifted⟩)
      · rename_i hdrifted
        cases h
        exact .inr (.inr ⟨e, rfl, he, Bool.not_eq_true _ ▸ hdrifted⟩)

theorem existing_of_updated (h : env.change t pf = .ok (.updated e)) : env.existing t pf = some e := by
  rcases change_ok h with ⟨h, _⟩ | ⟨e', h, he, _⟩ | ⟨e', h, _⟩
  · cases h
  · cases h
    exact he
  · cases h

/-! ## the transaction -/

/-- **The table after the transaction.** -/
theorem mem_writeRows {missing : List Note} (hkeys : (present.map (·.1)).Nodup)
    (hid : ∀ x ∈ present, x.2.id.key = some x.1)
    (hchanges : (present.mapM fun x => (env.change t x.2).map (x.2, ·)) = .ok changes)
    (hmissing : ∀ n ∈ missing, n ∈ t.rows ∧ Key.str n.noteId.toList ∉ present.map (·.1))
    (h : env.writeRows t missing changes = .ok t') :
    (∀ n, n ∈ t'.rows ↔ (∃ x ∈ present, env.Leaves t x.2 n) ∨
      (n ∈ t.rows ∧ n ∉ missing ∧ ∀ x ∈ present, env.existing t x.2 ≠ some n)) ∧
      ∀ x ∈ present, ∃ n, env.Leaves t x.2 n := by
  have hmem : ∀ y, y ∈ changes ↔ ∃ x ∈ present, ∃ change, env.change t x.2 = .ok change ∧ y = (x.2, change) := by
    intro y
    constructor
    · intro hy
      obtain ⟨x, hx, hy⟩ := mem_of_mapM_ok hchanges hy
      obtain ⟨change, hchange, rfl⟩ := map_ok hy
      exact ⟨x, hx, change, hchange, rfl⟩
    · rintro ⟨x, hx, change, hchange, rfl⟩
      obtain ⟨y, hy, hxy⟩ := exists_of_mapM_ok hchanges hx
      rw [hchange] at hxy
      cases hxy
      exact hy
  -- two present files have no row in common
  have hsame : ∀ x ∈ present, ∀ y ∈ present, ∀ e, env.existing t x.2 = some e →
      env.existing t y.2 = some e → x = y := by
    intro x hx y hy e hxe hye
    refine List.inj_on_of_nodup_map hkeys hx hy (Option.some.inj ?_)
    rw [← hid x hx, ← hid y hy, (existing_iff.mp hxe).2.1, (existing_iff.mp hye).2.1]
  obtain ⟨t1, hins, hups⟩ := bind_ok h
  obtain ⟨hins, hnew⟩ := insertAll_ok hins
  -- the rows that are not removed
  have hkept : ∀ n, n ∈ (t.delete fun n => n.noteId ∈ missing.map (·.noteId)).rows ↔
      n ∈ t.rows ∧ n ∉ missing := by
    intro n
    rw [Notes.mem_delete, decide_eq_false_iff_not]
    refine and_congr_right fun hn => not_congr ⟨fun h => ?_, fun h => List.mem_map_of_mem h⟩
    obtain ⟨m, hm, hmn⟩ := List.mem_map.mp h
    exact t.ids.eq (hmissing m hm).1 hn hmn ▸ hm
  have hexisting : ∀ x ∈ present, ∀ e, env.existing t x.2 = some e → e ∈ t.rows ∧ e ∉ missing := by
    intro x hx e he
    obtain ⟨hmem, heid, _⟩ := existing_iff.mp he
    refine ⟨hmem, fun hm => (hmissing e hm).2 (List.mem_map.mpr ⟨x, hx, Option.some.inj ?_⟩)⟩
    rw [← hid x hx, heid]
    rfl
  have hold : ∀ y ∈ changes, ∀ e, y.2 = .updated e → e ∈ t.rows ∧ e ∉ missing := by
    intro y hy e hye
    obtain ⟨x, hx, change, hchange, rfl⟩ := (hmem y).mp hy
    cases hye
    exact hexisting x hx e (existing_of_updated hchange)
  have hpair : changes.Pairwise fun y z => ∀ e e', y.2 = .updated e → z.2 = .updated e' →
      e.noteId ≠ e'.noteId := by
    refine mapM_pairwise (R := fun x y => x.1 ≠ y.1 ∧ x.2.id.key = some x.1 ∧ y.2.id.key = some y.1) ?_ ?_ hchanges
    · rw [List.Nodup, List.pairwise_map] at hkeys
      exact hkeys.imp_of_mem fun hx hy hne => ⟨hne, hid _ hx, hid _ hy⟩
    · rintro x y b b' ⟨hne, hx, hy⟩ hb hb' e e' he he' heq
      obtain ⟨c, hc, rfl⟩ := map_ok hb
      obtain ⟨c', hc', rfl⟩ := map_ok hb'
      cases he
      cases he'
      have hxe := (existing_iff.mp (existing_of_updated hc)).2.1
      have hye := (existing_iff.mp (existing_of_updated hc')).2.1
      rw [hxe] at hx
      rw [hye] at hy
      rw [heq] at hx
      exact hne (Option.some.inj (hx.symm.trans hy))
  obtain ⟨hups, hall⟩ := updateAll_ok (fun y hy e hye =>
    (hins e).mpr (.inl ((hkept e).mpr (hold y hy e hye)))) hpair hups
  refine ⟨fun n => ?_, fun x hx => ?_⟩
  · rw [hups]
    constructor
    · rintro (⟨y, hy, hn⟩ | ⟨hn, hother⟩)
      · obtain ⟨x, hx, change, hchange, rfl⟩ := (hmem y).mp hy
        exact .inl ⟨x, hx, change, hchange, .inr (.inl hn)⟩
      · rcases (hins n).mp hn with hn | ⟨y, hy, hn⟩
        · obtain ⟨hn, hnot⟩ := (hkept n).mp hn
          by_cases hx : ∃ x ∈ present, env.existing t x.2 = some n
          · obtain ⟨x, hx, hxn⟩ := hx
            obtain ⟨y, hy, hxy⟩ := exists_of_mapM_ok hchanges hx
            obtain ⟨change, hchange, rfl⟩ := map_ok hxy
            rcases change_ok hchange with ⟨_, hnone⟩ | ⟨e, rfl, he, _⟩ | ⟨_, hunchanged, _⟩
            · rw [hnone] at hxn
              cases hxn
            · rw [hxn] at he
              cases he
              exact absurd rfl (hother _ hy n rfl)
            · exact .inl ⟨x, hx, change, hchange, .inr (.inr ⟨hunchanged, hxn⟩)⟩
          · exact .inr ⟨hn, hnot, fun x hx' hxn => hx ⟨x, hx', hxn⟩⟩
        · obtain ⟨x, hx, change, hchange, rfl⟩ := (hmem y).mp hy
          exact .inl ⟨x, hx, change, hchange, .inl hn⟩
    · rintro (⟨x, hx, change, hchange, hn | hn | ⟨rfl, hxn⟩⟩ | ⟨hn, hnot, hother⟩)
      · have hy := (hmem _).mpr ⟨x, hx, change, hchange, rfl⟩
        refine .inr ⟨(hins n).mpr (.inr ⟨_, hy, hn⟩), fun z hz e hze heq => ?_⟩
        exact (hnew _ hy).1 n hn e ((hkept e).mpr (hold z hz e hze)) heq
      · exact .inl ⟨_, (hmem _).mpr ⟨x, hx, change, hchange, rfl⟩, hn⟩
      · obtain ⟨hn, hnot⟩ := hexisting x hx n hxn
        refine .inr ⟨(hins n).mpr (.inl ((hkept n).mpr ⟨hn, hnot⟩)), fun z hz e hze heq => ?_⟩
        have he := (hold z hz e hze).1
        obtain ⟨x', hx', change', hchange', rfl⟩ := (hmem z).mp hz
        cases hze
        have hxe := existing_of_updated hchange'
        rw [t.ids.eq he hn heq] at hxe
        obtain rfl := hsame x hx x' hx' n hxn hxe
        rw [hchange] at hchange'
        cases hchange'
      · refine .inr ⟨(hins n).mpr (.inl ((hkept n).mpr ⟨hn, hnot⟩)), fun z hz e hze heq => ?_⟩
        have he := (hold z hz e hze).1
        obtain ⟨x', hx', change', hchange', rfl⟩ := (hmem z).mp hz
        cases hze
        have hxe := existing_of_updated hchange'
        rw [t.ids.eq he hn heq] at hxe
        exact hother x' hx' hxe
  · obtain ⟨y, hy, hxy⟩ := exists_of_mapM_ok hchanges hx
    obtain ⟨change, hchange, rfl⟩ := map_ok hxy
    rcases change_ok hchange with ⟨hc, _⟩ | ⟨e, hc, _⟩ | ⟨e, hc, he, _⟩
    · obtain ⟨n, hn⟩ := (hnew _ hy).2 hc
      exact ⟨n, change, hchange, .inl hn⟩
    · obtain ⟨n, hn⟩ := hall _ hy e hc
      exact ⟨n, change, hchange, .inr (.inl hn)⟩
    · exact ⟨e, change, hchange, .inr (.inr ⟨hc, he⟩)⟩

/-! ## the whole reconcile -/

structure Env.Ran (env : Env) (s : State) (paths : List Text) (s' : State) (r : ReconcileReport) (scan : Scan)
    (present : List (Key × PresentFile)) (changes : List (PresentFile × Change)) : Prop where
  scan_eq : env.scan s.files paths = .ok scan
  adopt_eq : env.adopt s.files scan = .ok (s'.files, present)
  guarded : reconcileMaxDelete (env.missing s.notes paths scan.unreadablePaths present).length
    (env.indexed s.notes).length = false
  ids_eq : env.checkIds present = .ok ()
  changes_eq : (present.mapM fun x => (env.change s.notes x.2).map (x.2, ·)) = .ok changes
  notes_eq : env.writeRows s.notes (env.missing s.notes paths scan.unreadablePaths present) changes = .ok s'.notes
  report : r = {
    inserted := reported (·.isInserted) present changes
    updated := reported (·.isUpdated) present changes
    removed := sortedSet ((env.missing s.notes paths scan.unreadablePaths present).map (·.noteId))
    unchanged := (changes.filter fun x => !x.2.isInserted && !x.2.isUpdated).length
    duplicateIds := scan.duplicateIds
    unreadablePaths := scan.unreadablePaths
    adopted := scan.candidates.map fun c => env.newNoteId c.relative }

section
variable {s s' : State} {paths : List Text} {r : ReconcileReport} {scan : Scan}

theorem reconcilePaths_ok (h : env.reconcilePaths s paths = .ok (s', r)) :
    ∃ scan present changes, env.Ran s paths s' r scan present changes := by
  obtain ⟨scan, hscan, h⟩ := bind_ok h
  obtain ⟨⟨files, present⟩, hadopt, h⟩ := bind_ok h
  obtain ⟨⟨⟩, hguard, h⟩ := bind_ok h
  obtain ⟨⟨⟩, hids, h⟩ := bind_ok h
  obtain ⟨changes, hchanges, h⟩ := bind_ok h
  obtain ⟨notes, hnotes, h⟩ := bind_ok h
  cases h
  refine ⟨scan, present, changes, hscan, hadopt, ?_, hids, hchanges, hnotes, rfl⟩
  split at hguard
  · cases hguard
  · rename_i hfalse
    exact Bool.not_eq_true _ ▸ hfalse

theorem Env.Ran.ok (h : env.Ran s paths s' r scan present changes) : env.reconcilePaths s paths = .ok (s', r) := by
  unfold Env.reconcilePaths
  rw [h.scan_eq]
  show (env.adopt s.files scan >>= _) = _
  rw [h.adopt_eq]
  show ((if reconcileMaxDelete (env.missing s.notes paths scan.unreadablePaths present).length
    (env.indexed s.notes).length then _ else .ok () : Except ReindexError Unit) >>= _) = _
  rw [h.guarded]
  show (env.checkIds present >>= _) = _
  rw [h.ids_eq]
  show ((present.mapM fun x => (env.change s.notes x.2).map (x.2, ·)) >>= _) = _
  rw [h.changes_eq]
  show (env.writeRows s.notes (env.missing s.notes paths scan.unreadablePaths present) changes >>= _) = _
  rw [h.notes_eq, h.report]
  rfl

theorem Env.Ran.taken (h : env.Ran s paths s' r scan present changes) (hfresh : env.Fresh s.files) :
    env.Taken s.files paths scan s'.files present :=
  adopt_ok (scan_ok h.scan_eq) hfresh h.adopt_eq

theorem mem_indexed : n ∈ env.indexed t ↔ n ∈ t.rows ∧ n.workspace = env.workspace ∧ n.ownerId = env.ownerId := by
  rw [Env.indexed, List.mem_filter, decide_eq_true_eq]

theorem mem_missing {unreadable : List Text} : n ∈ env.missing t paths unreadable present ↔
    n ∈ env.indexed t ∧ (notePath n.toIndexedNote ∈ paths ∧ notePath n.toIndexedNote ∉ unreadable) ∧
      Key.str n.noteId.toList ∉ present.map (·.1) := by
  rw [Env.missing, List.mem_filter, List.mem_filter, decide_eq_true_eq, decide_eq_true_eq, and_assoc]

theorem Env.Ran.rows (h : env.Ran s paths s' r scan present changes) (hfresh : env.Fresh s.files) :
    (∀ n, n ∈ s'.notes.rows ↔ (∃ x ∈ present, env.Leaves s.notes x.2 n) ∨
      (n ∈ s.notes.rows ∧ n ∉ env.missing s.notes paths scan.unreadablePaths present ∧
        ∀ x ∈ present, env.existing s.notes x.2 ≠ some n)) ∧
      ∀ x ∈ present, ∃ n, env.Leaves s.notes x.2 n := by
  have htaken := h.taken hfresh
  refine mem_writeRows htaken.keys (fun x hx => htaken.key hx) h.changes_eq (fun n hn => ?_) h.notes_eq
  obtain ⟨hn, _, hkey⟩ := mem_missing.mp hn
  exact ⟨(mem_indexed.mp hn).1, hkey⟩

end
end Kajet.Reindex
