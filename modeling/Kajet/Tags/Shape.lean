import Kajet.Tags.Path

/-!
# The shape of the tag table

* `Tree`            one row for each path of a scope, below the row of the path above it;
* `ensureTag_ok`, `syncNoteTags_ok`   rows on demand keep it, the notes carry what they were given;
* `sweepOrphanTags_ok`   the sweep ends, keeps what is carried and leaves no other row in the scope;
* `tags_shaped`     the runs in which the tags of a note are rewritten in their own scope;
* `tags_leftover`   the run in which a note is synced in two workspaces.
-/

namespace Kajet.Tags
open Str Table Links Machine Db

/-! ## the tree -/

/-- The parent id is that of the row of the path above, if there is one. -/
def Below (tags : List Tag) (scope : Scope) (above : Option Text) (parentId : Option String) : Prop :=
  match above with
  | none => parentId = none
  | some path => ∃ u ∈ tags, u.scope = scope ∧ u.path = path ∧ parentId = some u.id

structure Tree (tags : List Tag) : Prop where
  ids : Keyed Tag.id tags
  paths : Keyed (fun t => (t.scope, t.path)) tags
  normal : ∀ t ∈ tags, Normal t.path
  parent : ∀ t ∈ tags, Below tags t.scope (upper t.path) t.parentId

variable {tags tags' new : List Tag} {scope σ : Scope} {generated : Text → String} {now : String}
  {path : Text} {above : Option Text} {parentId : Option String} {noteTags : List NoteTag} {db db' : Db}

theorem Below.mono (h : Below tags scope above parentId) (hsub : tags ⊆ tags') :
    Below tags' scope above parentId := by
  cases above with
  | none => exact h
  | some path =>
    obtain ⟨u, hu, hrest⟩ := h
    exact ⟨u, hsub hu, hrest⟩

theorem Tree.append (h : Tree tags) {t : Tag} (hid : ∀ x ∈ tags, x.id ≠ t.id)
    (hpath : ∀ x ∈ tags, (x.scope, x.path) ≠ (t.scope, t.path)) (hnormal : Normal t.path)
    (hbelow : Below tags t.scope (upper t.path) t.parentId) : Tree (tags ++ [t]) := by
  refine ⟨h.ids.append hid, h.paths.append hpath, fun x hx => ?_, fun x hx => ?_⟩
  · rcases List.mem_append.mp hx with hx | hx
    · exact h.normal x hx
    · exact List.mem_singleton.mp hx ▸ hnormal
  · refine Below.mono ?_ (List.subset_append_left tags [t])
    rcases List.mem_append.mp hx with hx | hx
    · exact h.parent x hx
    · exact List.mem_singleton.mp hx ▸ hbelow

theorem Tree.filter (h : Tree tags) {keep : Tag → Bool}
    (hkeep : ∀ t ∈ tags, keep t = true → ∀ u ∈ tags, u.scope = t.scope → t.parentId = some u.id →
      keep u = true) : Tree (tags.filter keep) := by
  refine ⟨List.Nodup.sublist (List.filter_sublist.filterMap _) h.ids,
    List.Nodup.sublist (List.filter_sublist.filterMap _) h.paths,
    fun t ht => h.normal t (List.mem_of_mem_filter ht), fun t ht => ?_⟩
  obtain ⟨ht, hkt⟩ := List.mem_filter.mp ht
  have hparent := h.parent t ht
  cases habove : upper t.path with
  | none =>
    rw [habove] at hparent
    exact hparent
  | some q =>
    rw [habove] at hparent
    obtain ⟨u, hu, hscope, hpath, hid⟩ := hparent
    exact ⟨u, List.mem_filter.mpr ⟨hu, hkeep t ht hkt u hu hscope hid⟩, hscope, hpath, hid⟩

/-- The whole chain above a row is there. -/
theorem Tree.ancestors (h : Tree tags) {t : Tag} (ht : t ∈ tags) :
    ∀ a ∈ ancestors t.path, ∃ u ∈ tags, u.scope = t.scope ∧ u.path = a := by
  induction hn : (pathSegments t.path).length using Nat.strongRecOn generalizing t with
  | ind n ih =>
    intro a ha
    rcases (mem_ancestors_iff (h.normal t ht)).mp ha with rfl | ⟨q, hq, ha⟩
    · exact ⟨t, ht, rfl, rfl⟩
    · have hparent := h.parent t ht
      rw [hq] at hparent
      obtain ⟨u, hu, hscope, rfl, -⟩ := hparent
      have hlen := (upper_eq_some hq).2.2
      obtain ⟨v, hv, hvs, hva⟩ := ih _ (by omega) hu rfl a ha
      exact ⟨v, hv, hvs.trans hscope, hva⟩

/-! ## rows on demand -/

theorem ensureChain_ok {chain : List Text} (h : Tree tags) (hlinked : Linked above chain)
    (hbelow : Below tags scope above parentId) {r : List Tag × Option String}
    (hok : ensureChain scope generated now parentId chain tags = .ok r) :
    Tree r.1 ∧ (∃ new, r.1 = tags ++ new ∧ ∀ t ∈ new, t.scope = scope) ∧
      Below r.1 scope (chain.getLast?.or above) r.2 := by
  induction chain generalizing above parentId tags with
  | nil =>
    cases hok
    exact ⟨h, ⟨[], (List.append_nil tags).symm, fun _ ht => (nomatch ht)⟩, hbelow⟩
  | cons a rest ih =>
    obtain ⟨hnormal, hupper, hlinked⟩ := hlinked
    have hlast : (a :: rest).getLast?.or above = rest.getLast?.or (some a) := by
      rw [List.getLast?_cons]
      cases rest.getLast? <;> rfl
    rw [hlast]
    unfold ensureChain at hok
    split at hok
    · rename_i t ht
      have hfound := List.find?_some ht
      obtain ⟨hscope, hpath⟩ := of_decide_eq_true hfound
      exact ih h hlinked ⟨t, List.mem_of_find?_eq_some ht, hscope, hpath, rfl⟩ hok
    · rename_i hnone
      split at hok
      · cases hok
      · rename_i hfree
        have hid : ∀ x ∈ tags, x.id ≠ generated a := fun x hx hxid =>
          hfree (List.any_eq_true.mpr ⟨x, hx, decide_eq_true hxid⟩)
        have hpath : ∀ x ∈ tags, (x.scope, x.path) ≠ (scope, a) := fun x hx hxp =>
          List.find?_eq_none.mp hnone x hx (decide_eq_true (Prod.mk.inj hxp))
        have htree := h.append (t := ⟨generated a, scope, a, (rpartition '/' a).2, parentId, now⟩) hid
          hpath hnormal (hupper ▸ hbelow)
        obtain ⟨hr, ⟨new, hnew, hscope⟩, hbelow'⟩ := ih htree hlinked
          ⟨_, List.mem_append_right _ (List.mem_singleton_self _), rfl, rfl, rfl⟩ hok
        refine ⟨hr, ⟨_ :: new, hnew.trans (List.append_cons ..).symm, fun t ht => ?_⟩, hbelow'⟩
        rcases List.mem_cons.mp ht with rfl | ht
        · rfl
        · exact hscope t ht

theorem ensureTag_ok (h : Tree tags) (hpath : Normal path) {r : List Tag × String}
    (hok : ensureTag scope generated now tags path = .ok r) :
    Tree r.1 ∧ (∃ new, r.1 = tags ++ new ∧ ∀ t ∈ new, t.scope = scope) ∧
      ∃ u ∈ r.1, u.scope = scope ∧ u.path = path ∧ u.id = r.2 := by
  obtain ⟨q, hchain, hlast⟩ := bind_ok hok
  cases hlast
  obtain ⟨htree, hnew, hbelow⟩ := ensureChain_ok h (linked_ancestors path) rfl hchain
  rw [getLast_ancestors hpath, Option.some_or] at hbelow
  obtain ⟨u, hu, hscope, hup, hid⟩ := hbelow
  exact ⟨htree, hnew, u, hu, hscope, hup, by rw [hid]; rfl⟩

/-! ## what the notes carry -/

theorem carriedOf_append {l : NoteTag} (h : (row Tag.id tags l.tagId).isSome = true) :
    carriedOf (tags ++ new) l = carriedOf tags l := by
  obtain ⟨t, ht⟩ := Option.isSome_iff_exists.mp h
  have happ : row Tag.id (tags ++ new) l.tagId = some t := by
    rw [row] at ht ⊢
    rw [List.find?_append, ht]
    rfl
  rw [carriedOf, carriedOf, ht, happ]

theorem carriedOf_eq_some {l : NoteTag} {c : Carried} (h : carriedOf tags l = some c) :
    ∃ t ∈ tags, t.id = l.tagId ∧ c = ⟨l.noteId, t.scope, t.path, l.source⟩ := by
  obtain ⟨t, ht, rfl⟩ := Option.map_eq_some_iff.mp h
  exact ⟨t, (row_some ht).1, (row_some ht).2, rfl⟩

/-- Every link has its tag. -/
def LinksOk (tags : List Tag) (noteTags : List NoteTag) : Prop :=
  ∀ l ∈ noteTags, (row Tag.id tags l.tagId).isSome = true

theorem LinksOk.append (h : LinksOk tags noteTags) : LinksOk (tags ++ new) noteTags := fun l hl => by
  rw [row, List.find?_append, Option.isSome_or]
  exact Bool.or_eq_true_iff.mpr (.inl (h l hl))

theorem filterMap_carriedOf_append (h : LinksOk tags noteTags) :
    noteTags.filterMap (carriedOf (tags ++ new)) = noteTags.filterMap (carriedOf tags) :=
  List.filterMap_congr fun l hl => carriedOf_append (h l hl)

/-- The loop of a sync after the items `done`. -/
structure Syncing (scope : Scope) (tags₀ : List Tag) (kept : List Carried) (done : List (String × Text × String))
    (acc : Sync) : Prop where
  tree : Tree acc.tags
  grown : ∃ new, acc.tags = tags₀ ++ new ∧ ∀ t ∈ new, t.scope = scope
  links : LinksOk acc.tags acc.noteTags
  tagIds : ∀ x ∈ acc.tagIds, ∃ u ∈ acc.tags, u.scope = scope ∧ u.path = x.1 ∧ u.id = x.2
  carried : acc.noteTags.filterMap (carriedOf acc.tags) =
    kept ++ done.map fun x => ⟨x.1, scope, x.2.1, x.2.2⟩

variable {tags₀ : List Tag} {kept : List Carried} {done : List (String × Text × String)} {acc acc' : Sync}

theorem resolve_ok (h : Syncing scope tags₀ kept done acc) (hpath : Normal path) {r : Sync × String}
    (hok : acc.resolve scope generated now path = .ok r) :
    Syncing scope tags₀ kept done r.1 ∧ ∃ u ∈ r.1.tags, u.scope = scope ∧ u.path = path ∧ u.id = r.2 := by
  unfold Sync.resolve at hok
  split at hok
  · rename_i tagId hlookup
    cases hok
    exact ⟨h, h.tagIds _ (mem_of_lookup hlookup)⟩
  · obtain ⟨q, hensure, hlast⟩ := bind_ok hok
    cases hlast
    obtain ⟨htree, ⟨new, hnew, hscope⟩, hrow⟩ := ensureTag_ok h.tree hpath hensure
    refine ⟨⟨htree, ?_, ?_, fun x hx => ?_, ?_⟩, hrow⟩
    · obtain ⟨new', hgrown, hscope'⟩ := h.grown
      refine ⟨new' ++ new, ?_, fun t ht => (List.mem_append.mp ht).elim (hscope' t) (hscope t)⟩
      rw [← List.append_assoc, ← hgrown]
      exact hnew
    · show LinksOk q.1 acc.noteTags
      rw [hnew]
      exact h.links.append
    · rcases List.mem_cons.mp hx with rfl | hx
      · exact hrow
      · obtain ⟨u, hu, hrest⟩ := h.tagIds x hx
        exact ⟨u, hnew ▸ List.mem_append_left _ hu, hrest⟩
    · show acc.noteTags.filterMap (carriedOf q.1) = _
      rw [hnew, filterMap_carriedOf_append h.links]
      exact h.carried

theorem add_ok (h : Syncing scope tags₀ kept done acc) {x : String × Text × String} (hx : Normal x.2.1)
    (hok : Sync.add scope generated now acc x = .ok acc') :
    Syncing scope tags₀ kept (done ++ [x]) acc' := by
  obtain ⟨r, hresolve, hok⟩ := bind_ok hok
  obtain ⟨hr, u, hu, hscope, hpath, hid⟩ := resolve_ok h hx hresolve
  split at hok <;> cases hok
  have hrow : row Tag.id r.1.tags r.2 = some u := hr.tree.ids.row_eq.mpr ⟨hu, hid⟩
  refine ⟨hr.tree, hr.grown, fun l hl => ?_, hr.tagIds, ?_⟩
  · rcases List.mem_append.mp hl with hl | hl
    · exact hr.links l hl
    · rw [List.mem_singleton.mp hl, hrow]
      rfl
  · show (r.1.noteTags ++ [_]).filterMap _ = _
    rw [List.filterMap_append, hr.carried, List.map_append, ← List.append_assoc]
    congr 1
    show List.filterMap _ [_] = _
    rw [List.filterMap_cons, carriedOf, hrow]
    show [(⟨x.1, u.scope, u.path, x.2.2⟩ : Carried)] = _
    rw [hscope, hpath]
    rfl

theorem foldlM_add_ok {xs : List (String × Text × String)} (h : Syncing scope tags₀ kept done acc)
    (hxs : ∀ x ∈ xs, Normal x.2.1) (hok : xs.foldlM (Sync.add scope generated now) acc = .ok acc') :
    Syncing scope tags₀ kept (done ++ xs) acc' := by
  induction xs generalizing done acc with
  | nil =>
    cases hok
    rwa [List.append_nil]
  | cons x xs ih =>
    rw [List.foldlM_cons] at hok
    obtain ⟨acc1, hone, hrest⟩ := bind_ok hok
    have h1 := add_ok h (hxs x List.mem_cons_self) hone
    have h2 := ih h1 (fun y hy => hxs y (List.mem_cons_of_mem x hy)) hrest
    rwa [List.append_assoc] at h2

theorem carried_deleteNoteTags (notes : List String) :
    (db.deleteNoteTags notes).carried = db.carried.filter (·.noteId ∉ notes) := by
  show (db.noteTags.filter _).filterMap (carriedOf db.tags) = (db.noteTags.filterMap _).filter _
  rw [List.filterMap_filter, List.filter_filterMap]
  refine List.filterMap_congr fun l _ => ?_
  cases hl : carriedOf db.tags l with
  | none => simp
  | some c =>
    obtain ⟨t, -, -, rfl⟩ := carriedOf_eq_some hl
    by_cases hmem : l.noteId ∈ notes <;> simp [hmem, Option.filter]

theorem syncNoteTags_ok {taggedByNote : TaggedByNote} (htree : Tree db.tags)
    (hlinks : LinksOk db.tags db.noteTags) (hnormal : ∀ x ∈ items taggedByNote, Normal x.2.1)
    (hok : db.syncNoteTags scope generated now taggedByNote = .ok db') :
    Tree db'.tags ∧ LinksOk db'.tags db'.noteTags ∧
      (∃ new, db'.tags = db.tags ++ new ∧ ∀ t ∈ new, t.scope = scope) ∧
      db'.carried = db.carried.filter (·.noteId ∉ taggedByNote.map Prod.fst) ++
        (items taggedByNote).map fun x => ⟨x.1, scope, x.2.1, x.2.2⟩ := by
  obtain ⟨acc, hfold, hlast⟩ := bind_ok hok
  cases hlast
  have hstart : Syncing scope db.tags (db.carried.filter (·.noteId ∉ taggedByNote.map Prod.fst)) []
      ⟨db.tags, (db.deleteNoteTags (taggedByNote.map Prod.fst)).noteTags, []⟩ := by
    refine ⟨htree, ⟨[], (List.append_nil _).symm, fun _ ht => (nomatch ht)⟩,
      fun l hl => hlinks l (mem_deleteWhere.mp hl).1, fun _ hx => (nomatch hx), ?_⟩
    rw [List.map_nil, List.append_nil]
    exact carried_deleteNoteTags _
  have hend := foldlM_add_ok hstart hnormal hfold
  exact ⟨hend.tree, hend.links, hend.grown, hend.carried⟩

/-! ## the sweep -/

/-- Every row of the scope is above a carried one. -/
def Exact (tags : List Tag) (carried : List Carried) (scope : Scope) : Prop :=
  ∀ t ∈ tags, t.scope = scope → ∃ c ∈ carried, c.scope = scope ∧ t.path ∈ ancestors c.path

/-- What the passes of a sweep of `σ` preserve. -/
structure Sweeping (noteTags : List NoteTag) (σ : Scope) (tags₀ tags : List Tag) : Prop where
  tree : Tree tags
  links : LinksOk tags noteTags
  carried : noteTags.filterMap (carriedOf tags) = noteTags.filterMap (carriedOf tags₀)
  sub : tags ⊆ tags₀
  others : ∀ t ∈ tags₀, t.scope ≠ σ → t ∈ tags

theorem spared_iff {t : Tag} : spared noteTags σ tags t = true ↔ t.scope ≠ σ ∨
    (∃ l ∈ noteTags, l.tagId = t.id ∧ ∃ u ∈ tags, u.id = l.tagId ∧ u.scope = σ) ∨
    ∃ u ∈ tags, u.scope = σ ∧ u.parentId = some t.id := by
  simp only [spared, Bool.decide_or, Bool.decide_and, Bool.or_eq_true, List.any_eq_true,
    decide_eq_true_eq, Bool.and_eq_true]

theorem pass_sweeping (h : Sweeping noteTags σ tags₀ tags) :
    Sweeping noteTags σ tags₀ (Prune.pass (spared noteTags σ) tags) := by
  have htree : Tree (Prune.pass (spared noteTags σ) tags) := by
    refine h.tree.filter fun t ht _ u _ hscope hid => spared_iff.mpr ?_
    by_cases hu : u.scope = σ
    · exact .inr (.inr ⟨t, ht, hscope.symm.trans hu, hid⟩)
    · exact .inl hu
  -- the tag of a link is referenced
  have hrow : ∀ l ∈ noteTags, row Tag.id (Prune.pass (spared noteTags σ) tags) l.tagId =
      row Tag.id tags l.tagId := by
    intro l hl
    obtain ⟨t, ht⟩ := Option.isSome_iff_exists.mp (h.links l hl)
    obtain ⟨hmem, hid⟩ := row_some ht
    rw [ht, htree.ids.row_eq]
    refine ⟨List.mem_filter.mpr ⟨hmem, spared_iff.mpr ?_⟩, hid⟩
    by_cases hscope : t.scope = σ
    · exact .inr (.inl ⟨l, hl, hid.symm, t, hmem, hid, hscope⟩)
    · exact .inl hscope
  refine ⟨htree, fun l hl => hrow l hl ▸ h.links l hl, ?_,
    fun t ht => h.sub (List.mem_of_mem_filter ht), fun t ht hne => ?_⟩
  · rw [← h.carried]
    exact List.filterMap_congr fun l hl => by rw [carriedOf, carriedOf, hrow l hl]
  · exact List.mem_filter.mpr ⟨h.others t ht hne, spared_iff.mpr (.inl hne)⟩

/-- Where no row can go, every row of the scope is above one that is carried. -/
theorem exact_of_spared (htree : Tree tags)
    (hall : ∀ t ∈ tags, spared noteTags σ tags t = true) :
    Exact tags (noteTags.filterMap (carriedOf tags)) σ := by
  intro t ht hscope
  have hmem : ∀ {x}, x ∈ tags.filter (·.scope = σ) ↔ x ∈ tags ∧ x.scope = σ := by
    intro x
    rw [List.mem_filter, decide_eq_true_eq]
  -- the parent id of a row is that of the row above
  have hchild : ∀ x ∈ tags, ∀ y ∈ tags, y.parentId = some x.id → upper y.path = some x.path := by
    intro x hx y hy hid
    have hparent := htree.parent y hy
    cases habove : upper y.path with
    | none =>
      rw [habove] at hparent
      cases hid.symm.trans hparent
    | some q =>
      rw [habove] at hparent
      obtain ⟨u, hu, -, rfl, huid⟩ := hparent
      rw [htree.ids.eq hu hx (Option.some.inj (huid.symm.trans hid))]
  obtain ⟨u, hu, ⟨l, hl, hlid⟩, hchain⟩ := Prune.exists_marked
    (tags.filter (·.scope = σ)) (fun t => ∃ l ∈ noteTags, l.tagId = t.id)
    (fun y x => y ∈ tags ∧ x ∈ tags ∧ y.parentId = some x.id) (fun t => (pathSegments t.path).length)
    (fun x _ y _ hyx => by
      have hlen := (upper_eq_some (hchild x hyx.2.1 y hyx.1 hyx.2.2)).2.2
      show (pathSegments x.path).length < (pathSegments y.path).length
      omega)
    (fun x hx => by
      obtain ⟨hx, hxs⟩ := hmem.mp hx
      rcases spared_iff.mp (hall x hx) with hne | ⟨l, hl, hid, -⟩ | ⟨y, hy, hys, hid⟩
      · exact absurd hxs hne
      · exact .inl ⟨l, hl, hid⟩
      · exact .inr ⟨y, hmem.mpr ⟨hy, hys⟩, hy, hx, hid⟩)
    (hmem.mpr ⟨ht, hscope⟩)
  obtain ⟨hu, hus⟩ := hmem.mp hu
  have hrow : row Tag.id tags l.tagId = some u := htree.ids.row_eq.mpr ⟨hu, hlid.symm⟩
  refine ⟨⟨l.noteId, u.scope, u.path, l.source⟩, List.mem_filterMap.mpr ⟨l, hl, ?_⟩, hus, ?_⟩
  · rw [carriedOf, hrow]
    rfl
  · show t.path ∈ ancestors u.path
    clear hall hmem hrow ht hscope
    induction hchain with
    | refl => exact self_mem_ancestors (htree.normal u hu)
    | tail _ hstep ih => exact ancestors_trans ih (upper_eq_some (hchild _ hstep.2.1 _ hstep.1 hstep.2.2)).2.1

theorem sweepOrphanTags_isSome (db : Db) (scope : Scope) : (db.sweepOrphanTags scope).isSome = true := by
  rw [sweepOrphanTags, Option.isSome_map]
  exact Prune.loop_isSome (Nat.lt_succ_self _)

theorem sweepOrphanTags_ok (htree : Tree db.tags) (hlinks : LinksOk db.tags db.noteTags)
    (hok : db.sweepOrphanTags σ = some db') : db'.noteTags = db.noteTags ∧ db'.carried = db.carried ∧
      Sweeping db.noteTags σ db.tags db'.tags ∧ Exact db'.tags db'.carried σ := by
  obtain ⟨tags, hloop, rfl⟩ := Option.map_eq_some_iff.mp hok
  have hsweeping : Sweeping db.noteTags σ db.tags tags :=
    Prune.loop_inv (fun _ h => pass_sweeping h)
      ⟨htree, hlinks, rfl, fun _ ht => ht, fun _ ht _ => ht⟩ hloop
  exact ⟨rfl, hsweeping.carried, hsweeping,
    exact_of_spared hsweeping.tree (Prune.loop_keeps hloop)⟩

/-! ## the runs -/

structure Inv (s : State) : Prop where
  tree : Tree s.db.tags
  links : LinksOk s.db.tags s.db.noteTags
  exact : ∀ scope, scope ∉ s.unswept → Exact s.db.tags s.db.carried scope
  own : ∀ c ∈ s.db.carried, ∀ c' ∈ s.db.carried, c.noteId = c'.noteId → c.scope = c'.scope
  synced : ∀ n, s.db.pairs n = s.lastSynced n

theorem pairs_of_carried {carried : List Carried} (h : db.carried = carried) (n : String) :
    db.pairs n = (carried.filter (·.noteId = n)).map fun c => (c.path, c.source) := by
  rw [pairs, h]

theorem lookup_eq_none {α β : Type} [BEq α] [LawfulBEq α] {xs : List (α × β)} {a : α}
    (h : a ∉ xs.map Prod.fst) : xs.lookup a = none :=
  List.lookup_eq_none_iff.mpr fun _ hx => bne_iff_ne.mpr fun heq => h (heq ▸ List.mem_map_of_mem hx)

/-- The pairs of a note that is rewritten, and those of the other ones. -/
theorem pairs_items {taggedByNote : TaggedByNote} (hnodup : (taggedByNote.map Prod.fst).Nodup) (n : String) :
    (((items taggedByNote).map fun x => (⟨x.1, scope, x.2.1, x.2.2⟩ : Carried)).filter (·.noteId = n)).map
      (fun c => (c.path, c.source)) = (taggedByNote.lookup n).getD [] := by
  induction taggedByNote with
  | nil => rfl
  | cons x rest ih =>
    obtain ⟨hx, hnodup⟩ := List.nodup_cons.mp hnodup
    have hcons : items (x :: rest) = (x.2.map fun y => (x.1, y)) ++ items rest := List.flatMap_cons ..
    rw [hcons, List.map_append, List.filter_append, List.map_append, ih hnodup, List.map_map, List.lookup_cons]
    by_cases hn : n = x.1
    · subst hn
      have hall : ∀ c ∈ x.2.map ((fun x => (⟨x.1, scope, x.2.1, x.2.2⟩ : Carried)) ∘ fun y => (x.1, y)),
          decide (c.noteId = x.1) = true := by
        intro c hc
        obtain ⟨y, -, rfl⟩ := List.mem_map.mp hc
        exact decide_eq_true rfl
      rw [lookup_eq_none hx, beq_self_eq_true, List.filter_eq_self.mpr hall, List.map_map]
      exact (List.append_nil _).trans (List.map_id' _)
    · have hout : ∀ c ∈ x.2.map ((fun x => (⟨x.1, scope, x.2.1, x.2.2⟩ : Carried)) ∘ fun y => (x.1, y)),
          ¬ decide (c.noteId = n) = true := by
        intro c hc hd
        obtain ⟨y, -, rfl⟩ := List.mem_map.mp hc
        exact hn (of_decide_eq_true hd).symm
      rw [beq_false_of_ne hn, List.filter_eq_nil_iff.mpr hout]
      rfl

theorem lookup_forget {s : State} {notes : List String} {n : String} (h : n ∉ notes) :
    (s.forget notes).lookup n = s.synced.lookup n := by
  unfold State.forget
  induction s.synced with
  | nil => rfl
  | cons x xs ih =>
    rw [List.filter_cons, List.lookup_cons]
    by_cases hx : n = x.1
    · subst hx
      rw [if_pos (decide_eq_true h), List.lookup_cons, beq_self_eq_true]
    · split
      · rw [List.lookup_cons, beq_false_of_ne hx, ih]
      · rw [beq_false_of_ne hx, ih]

theorem lookup_forget_self {s : State} {notes : List String} {n : String} (h : n ∈ notes) :
    (s.forget notes).lookup n = none := by
  refine lookup_eq_none fun hn => ?_
  obtain ⟨x, hx, rfl⟩ := List.mem_map.mp hn
  exact of_decide_eq_true (List.mem_filter.mp hx).2 h

/-- The tags of the notes are rewritten: before any sweep. -/
theorem Inv.rewritten {s : State} (h : Inv s) {taggedByNote : TaggedByNote}
    (hadmissible : Admissible taggedByNote)
    (hown : ∀ c ∈ s.db.carried, c.noteId ∈ taggedByNote.map Prod.fst → c.scope = scope)
    (hok : s.db.syncNoteTags scope generated now taggedByNote = .ok db') :
    Inv ⟨db', taggedByNote ++ s.forget (taggedByNote.map Prod.fst), scope :: s.unswept⟩ := by
  obtain ⟨htree, hlinks, ⟨new, htags, hnew⟩, hcarried⟩ := syncNoteTags_ok h.tree h.links hadmissible.2 hok
  have hmem : ∀ c ∈ db'.carried, (c ∈ s.db.carried ∧ c.noteId ∉ taggedByNote.map Prod.fst) ∨
      (c.noteId ∈ taggedByNote.map Prod.fst ∧ c.scope = scope) := by
    intro c hc
    rw [hcarried] at hc
    rcases List.mem_append.mp hc with hc | hc
    · obtain ⟨hc, hout⟩ := List.mem_filter.mp hc
      exact .inl ⟨hc, of_decide_eq_true hout⟩
    · obtain ⟨x, hx, rfl⟩ := List.mem_map.mp hc
      obtain ⟨y, hy, hxy⟩ := List.mem_flatMap.mp hx
      obtain ⟨z, -, rfl⟩ := List.mem_map.mp hxy
      exact .inr ⟨List.mem_map_of_mem hy, rfl⟩
  refine ⟨htree, hlinks, fun σ hσ t ht hscope => ?_, fun c hc c' hc' hid => ?_, fun n => ?_⟩
  · -- the other scopes have kept their rows and what is carried in them
    obtain ⟨hne, hσ⟩ : σ ≠ scope ∧ σ ∉ s.unswept :=
      ⟨fun heq => hσ (heq ▸ List.mem_cons_self), fun hmem => hσ (List.mem_cons_of_mem _ hmem)⟩
    rw [htags] at ht
    rcases List.mem_append.mp ht with ht | ht
    · obtain ⟨c, hc, hcs, ha⟩ := h.exact σ hσ t ht hscope
      refine ⟨c, ?_, hcs, ha⟩
      rw [hcarried]
      refine List.mem_append_left _ (List.mem_filter.mpr ⟨hc, decide_eq_true fun hin => ?_⟩)
      exact hne (hcs.symm.trans (hown c hc hin))
    · exact absurd (hscope.symm.trans (hnew t ht)) hne
  · rcases hmem c hc with ⟨hc, hout⟩ | ⟨hin, hcs⟩ <;> rcases hmem c' hc' with ⟨hc', hout'⟩ | ⟨hin', hcs'⟩
    · exact h.own c hc c' hc' hid
    · exact absurd (hid ▸ hin') hout
    · exact absurd (hid ▸ hin) hout'
    · exact hcs.trans hcs'.symm
  · rw [pairs_of_carried hcarried, List.filter_append, List.map_append, pairs_items hadmissible.1,
      State.lastSynced, List.lookup_append, List.filter_filter]
    by_cases hn : n ∈ taggedByNote.map Prod.fst
    · have hnil : s.db.carried.filter (fun c => decide (c.noteId = n) &&
          decide (c.noteId ∉ taggedByNote.map Prod.fst)) = [] := by
        refine List.filter_eq_nil_iff.mpr fun c _ hc => ?_
        obtain ⟨hid, hout⟩ := Bool.and_eq_true_iff.mp hc
        exact of_decide_eq_true hout (of_decide_eq_true hid ▸ hn)
      rw [hnil, lookup_forget_self hn, Option.or_none]
      rfl
    · have hsame : s.db.carried.filter (fun c => decide (c.noteId = n) &&
          decide (c.noteId ∉ taggedByNote.map Prod.fst)) = s.db.carried.filter (·.noteId = n) := by
        refine List.filter_congr fun c _ => ?_
        by_cases hid : c.noteId = n
        · simp [hid, hn]
        · simp [hid]
      rw [hsame, lookup_eq_none hn, lookup_forget hn, Option.none_or, Option.getD_none, List.append_nil]
      exact h.synced n

theorem Inv.swept {s : State} (h : Inv s) (hok : s.db.sweepOrphanTags scope = some db') :
    Inv ⟨db', s.synced, s.unswept.filter (· ≠ scope)⟩ := by
  obtain ⟨hnoteTags, hcarried, hsweeping, hexact⟩ := sweepOrphanTags_ok h.tree h.links hok
  refine ⟨hsweeping.tree, ?_, fun σ hσ => ?_, ?_, fun n => ?_⟩
  · show LinksOk db'.tags db'.noteTags
    rw [hnoteTags]
    exact hsweeping.links
  · by_cases heq : σ = scope
    · exact heq ▸ hexact
    · have hσ' : σ ∉ s.unswept := fun hmem => hσ (List.mem_filter.mpr ⟨hmem, decide_eq_true heq⟩)
      show Exact db'.tags db'.carried σ
      rw [hcarried]
      exact fun t ht => h.exact σ hσ' t (hsweeping.sub ht)
  · show ∀ c ∈ db'.carried, ∀ c' ∈ db'.carried, _
    rw [hcarried]
    exact h.own
  · show db'.pairs n = _
    rw [pairs_of_carried hcarried]
    exact h.synced n

/-- The tags of the notes go: before the sweep. -/
theorem Inv.deleted {s : State} (h : Inv s) {notes : List String}
    (hown : ∀ c ∈ s.db.carried, c.noteId ∈ notes → c.scope = scope) :
    Inv ⟨s.db.deleteNoteTags notes, s.forget notes, scope :: s.unswept⟩ := by
  have hcarried : (s.db.deleteNoteTags notes).carried = s.db.carried.filter (·.noteId ∉ notes) :=
    carried_deleteNoteTags notes
  have hmem : ∀ c, c ∈ (s.db.deleteNoteTags notes).carried ↔ c ∈ s.db.carried ∧ c.noteId ∉ notes := by
    intro c
    rw [hcarried, List.mem_filter, decide_eq_true_eq]
  refine ⟨h.tree, fun l hl => h.links l (mem_deleteWhere.mp hl).1, fun σ hσ t ht hscope => ?_,
    fun c hc c' hc' => h.own c ((hmem c).mp hc).1 c' ((hmem c').mp hc').1, fun n => ?_⟩
  · obtain ⟨hne, hσ⟩ : σ ≠ scope ∧ σ ∉ s.unswept :=
      ⟨fun heq => hσ (heq ▸ List.mem_cons_self), fun hmem => hσ (List.mem_cons_of_mem _ hmem)⟩
    obtain ⟨c, hc, hcs, ha⟩ := h.exact σ hσ t ht hscope
    exact ⟨c, (hmem c).mpr ⟨hc, fun hin => hne (hcs.symm.trans (hown c hc hin))⟩, hcs, ha⟩
  · rw [pairs_of_carried hcarried, State.lastSynced, List.filter_filter]
    by_cases hn : n ∈ notes
    · have hnil : s.db.carried.filter (fun c => decide (c.noteId = n) && decide (c.noteId ∉ notes)) = [] := by
        refine List.filter_eq_nil_iff.mpr fun c _ hc => ?_
        obtain ⟨hid, hout⟩ := Bool.and_eq_true_iff.mp hc
        exact of_decide_eq_true hout (of_decide_eq_true hid ▸ hn)
      rw [hnil, lookup_forget_self hn]
      rfl
    · have hsame : s.db.carried.filter (fun c => decide (c.noteId = n) && decide (c.noteId ∉ notes)) =
          s.db.carried.filter (·.noteId = n) := by
        refine List.filter_congr fun c _ => ?_
        by_cases hid : c.noteId = n
        · simp [hid, hn]
        · simp [hid]
      rw [hsame, lookup_forget hn]
      exact h.synced n

/-- Everything of the scope goes, the links of its tags first. -/
theorem Inv.cleared {s : State} (h : Inv s) :
    Inv ⟨s.db.deleteWorkspaceTags scope, s.forget (s.notesOf scope), s.unswept⟩ := by
  have htree : Tree (s.db.deleteWorkspaceTags scope).tags := by
    refine h.tree.filter fun t _ hkeep u _ hscope _ => ?_
    have hne : t.scope ≠ scope := of_decide_eq_false ((Bool.not_eq_true' _).mp hkeep)
    exact (Bool.not_eq_true' _).mpr (decide_eq_false (hscope.symm ▸ hne))
  have hkept : ∀ {l}, l ∈ (s.db.deleteWorkspaceTags scope).noteTags ↔ l ∈ s.db.noteTags ∧
      ∀ t ∈ s.db.tags, t.id = l.tagId → t.scope ≠ scope := by
    intro l
    refine mem_deleteWhere.trans (and_congr_right fun _ => ?_)
    rw [List.any_eq_false]
    exact ⟨fun hall t ht hid hscope => hall t ht (decide_eq_true ⟨hscope, hid⟩),
      fun hall t ht hd => hall t ht (of_decide_eq_true hd).2 (of_decide_eq_true hd).1⟩
  have hrow : ∀ l ∈ (s.db.deleteWorkspaceTags scope).noteTags,
      row Tag.id (s.db.deleteWorkspaceTags scope).tags l.tagId = row Tag.id s.db.tags l.tagId := by
    intro l hl
    obtain ⟨hl, hout⟩ := hkept.mp hl
    obtain ⟨t, ht⟩ := Option.isSome_iff_exists.mp (h.links l hl)
    obtain ⟨hmem, hid⟩ := row_some ht
    rw [ht, htree.ids.row_eq]
    exact ⟨mem_deleteWhere.mpr ⟨hmem, decide_eq_false (hout t hmem hid)⟩, hid⟩
  have hcarried : (s.db.deleteWorkspaceTags scope).carried = s.db.carried.filter (·.scope ≠ scope) := by
    have hcongr : (s.db.deleteWorkspaceTags scope).carried =
        (s.db.deleteWorkspaceTags scope).noteTags.filterMap (carriedOf s.db.tags) :=
      List.filterMap_congr fun l hl => by rw [carriedOf, carriedOf, hrow l hl]
    rw [hcongr]
    show (s.db.noteTags.filter _).filterMap (carriedOf s.db.tags) = (s.db.noteTags.filterMap _).filter _
    rw [List.filterMap_filter, List.filter_filterMap]
    refine List.filterMap_congr fun l hl => ?_
    obtain ⟨t, ht⟩ := Option.isSome_iff_exists.mp (h.links l hl)
    obtain ⟨hmem, hid⟩ := row_some ht
    have hany : (s.db.tags.any fun t => decide (t.scope = scope ∧ t.id = l.tagId)) = decide (t.scope = scope) := by
      rw [Bool.eq_iff_iff, List.any_eq_true, decide_eq_true_eq]
      constructor
      · rintro ⟨u, hu, hd⟩
        obtain ⟨hscope, huid⟩ := of_decide_eq_true hd
        exact h.tree.ids.eq hu hmem (huid.trans hid.symm) ▸ hscope
      · exact fun hscope => ⟨t, hmem, decide_eq_true ⟨hscope, hid⟩⟩
    show (if (!(s.db.tags.any fun t => decide (t.scope = scope ∧ t.id = l.tagId))) = true then _ else _) = _
    rw [hany, carriedOf, ht]
    by_cases hscope : t.scope = scope <;> simp [hscope, Option.filter]
  have hmem : ∀ {c}, c ∈ (s.db.deleteWorkspaceTags scope).carried ↔ c ∈ s.db.carried ∧ c.scope ≠ scope := by
    intro c
    rw [hcarried, List.mem_filter, decide_eq_true_eq]
  refine ⟨htree, fun l hl => hrow l hl ▸ h.links l (hkept.mp hl).1, fun σ hσ t ht hscope => ?_,
    fun c hc c' hc' => h.own c (hmem.mp hc).1 c' (hmem.mp hc').1, fun n => ?_⟩
  · obtain ⟨ht, hne⟩ := mem_deleteWhere.mp ht
    obtain ⟨c, hc, hcs, ha⟩ := h.exact σ hσ t ht hscope
    exact ⟨c, hmem.mpr ⟨hc, fun heq => of_decide_eq_false hne (hscope.trans (hcs.symm.trans heq))⟩, hcs, ha⟩
  · rw [pairs_of_carried hcarried, State.lastSynced, List.filter_filter]
    by_cases hn : n ∈ s.notesOf scope
    · -- a note that has a tag of the scope has no other tags
      obtain ⟨x, hx, rfl⟩ := List.mem_map.mp hn
      obtain ⟨hx, hxs⟩ := List.mem_filter.mp hx
      have hnil : s.db.carried.filter (fun c => decide (c.noteId = x.noteId) && decide (c.scope ≠ scope)) = [] := by
        refine List.filter_eq_nil_iff.mpr fun c hc hd => ?_
        obtain ⟨hid, hne⟩ := Bool.and_eq_true_iff.mp hd
        refine of_decide_eq_true hne ?_
        exact (h.own c hc x hx (of_decide_eq_true hid)).trans (of_decide_eq_true hxs)
      rw [hnil, lookup_forget_self hn]
      rfl
    · have hsame : s.db.carried.filter (fun c => decide (c.noteId = n) && decide (c.scope ≠ scope)) =
          s.db.carried.filter (·.noteId = n) := by
        refine List.filter_congr fun c hc => ?_
        by_cases hid : c.noteId = n
        · have hne : c.scope ≠ scope := fun heq => hn (List.mem_map.mpr
            ⟨c, List.mem_filter.mpr ⟨hc, decide_eq_true heq⟩, hid⟩)
          simp [hid, hne]
        · simp [hid]
      rw [hsame, lookup_forget hn]
      exact h.synced n

theorem filter_ne_cons (scope : Scope) (scopes : List Scope) :
    (scope :: scopes).filter (· ≠ scope) = scopes.filter (· ≠ scope) :=
  List.filter_cons_of_neg (by simp)

theorem renamed_admissible {old new : Text} {notes : List (String × List Text × List Text)}
    (hold : Normal old) (hnew : Normal new) (hnodup : (notes.map Prod.fst).Nodup)
    (hnormal : ∀ x ∈ notes, ∀ path ∈ x.2.1 ++ x.2.2, Normal path) : Admissible (renamed old new notes) := by
  refine ⟨by rwa [renamed, List.map_map], fun x hx => ?_⟩
  obtain ⟨y, hy, hxy⟩ := List.mem_flatMap.mp hx
  obtain ⟨z, hz, rfl⟩ := List.mem_map.mp hy
  obtain ⟨p, hp, rfl⟩ := List.mem_map.mp hxy
  refine tagged_normal (fun path hpath => ?_) (fun path hpath => ?_) p hp
  · obtain ⟨t, ht, rfl⟩ := List.mem_map.mp hpath
    have htn := hnormal z hz t (List.mem_append_left _ ht)
    cases hmap : remapPath t old new with
    | none => exact htn
    | some q => exact remapPath_normal htn hold hnew hmap
  · exact hnormal z hz path (List.mem_append_right _ hpath)

theorem step_inv {s t : State} {op : Op} (h : Inv s) (hown : OwnScope s op) (hnext : step s op = some t) :
    Inv t := by
  cases op with
  | syncNoteTagsMany scope generated now taggedByNote =>
    simp only [step] at hnext
    split at hnext
    swap
    · cases hnext
    rename_i hadmissible
    split at hnext
    · cases hnext
      exact h
    · split at hnext
      · cases hnext
        exact h
      · rename_i db hok
        obtain ⟨db', hsweep, rfl⟩ := Option.map_eq_some_iff.mp hnext
        have hswept := (h.rewritten hadmissible hown hok).swept hsweep
        rwa [filter_ne_cons] at hswept
  | deleteNoteTags scope notes =>
    obtain ⟨db', hsweep, rfl⟩ := Option.map_eq_some_iff.mp hnext
    have hswept := (h.deleted hown).swept hsweep
    rwa [filter_ne_cons] at hswept
  | renameChunk scope old new generated now notes =>
    simp only [step] at hnext
    split at hnext
    swap
    · cases hnext
    rename_i hall
    obtain ⟨hold, hnew, hnodup, hnormal⟩ := hall
    split at hnext
    · cases hnext
      exact h
    · rename_i db hok
      cases hnext
      have hids : (renamed old new notes).map Prod.fst = notes.map Prod.fst := by
        rw [renamed, List.map_map]
        rfl
      have hrewritten := h.rewritten (renamed_admissible hold hnew hnodup hnormal)
        (hids.symm ▸ hown) hok
      rwa [hids] at hrewritten
  | sweepOrphanTags scope =>
    obtain ⟨db', hsweep, rfl⟩ := Option.map_eq_some_iff.mp hnext
    exact h.swept hsweep
  | deleteWorkspaceTags scope =>
    cases hnext
    exact h.cleared

theorem empty_inv : Inv State.empty := by
  refine ⟨⟨UniqueOn.nil, UniqueOn.nil, fun _ ht => (nomatch ht), fun _ ht => (nomatch ht)⟩,
    fun _ hl => (nomatch hl), fun _ _ _ ht => (nomatch ht), fun _ hc => (nomatch hc), fun _ => rfl⟩

theorem Inv.shape {s : State} (h : Inv s) (hscope : scope ∉ s.unswept) : Shape s.db scope := by
  have hmem : ∀ {t}, t ∈ s.db.tagsOf scope ↔ t ∈ s.db.tags ∧ t.scope = scope := by
    intro t
    rw [tagsOf, List.mem_filter, decide_eq_true_eq]
  refine ⟨?_, fun path => ⟨fun hp => ?_, ?_⟩, fun t ht => ?_⟩
  · refine List.Nodup.map_on (fun t ht u hu hpath => ?_) ?_
    · obtain ⟨ht, hts⟩ := hmem.mp ht
      obtain ⟨hu, hus⟩ := hmem.mp hu
      exact h.tree.paths.eq ht hu (Prod.ext (hts.trans hus.symm) hpath)
    · exact (h.tree.ids.nodup fun _ _ => rfl).filter _
  · obtain ⟨t, ht, rfl⟩ := List.mem_map.mp hp
    obtain ⟨ht, hts⟩ := hmem.mp ht
    exact h.exact scope hscope t ht hts
  · rintro ⟨c, hc, hcs, hp⟩
    obtain ⟨l, _, hlc⟩ := List.mem_filterMap.mp hc
    obtain ⟨t, ht, -, rfl⟩ := carriedOf_eq_some hlc
    obtain ⟨u, hu, hus, rfl⟩ := h.tree.ancestors ht path hp
    exact List.mem_map_of_mem (hmem.mpr ⟨hu, hus.trans hcs⟩)
  · obtain ⟨ht, hts⟩ := hmem.mp ht
    have hparent := h.tree.parent t ht
    cases habove : upper t.path with
    | none =>
      rw [habove] at hparent
      exact hparent
    | some q =>
      rw [habove] at hparent
      obtain ⟨u, hu, hus, hpath, hid⟩ := hparent
      exact ⟨u, hmem.mpr ⟨hu, hus.trans hts⟩, hpath, hid⟩

theorem tags_shaped {s : State} (h : tagging.Reach OwnScope s) :
    (∀ scope, scope ∉ s.unswept → Shape s.db scope) ∧ (∀ n, s.db.pairs n = s.lastSynced n) ∧
      ∀ scope, (s.db.sweepOrphanTags scope).isSome = true := by
  have hinv : Inv s := h.inv (fun s (hs : s = State.empty) => hs ▸ empty_inv)
    fun _ _ _ _ hinv hown hnext => step_inv hinv hown hnext
  exact ⟨fun _ hscope => hinv.shape hscope, hinv.synced, sweepOrphanTags_isSome s.db⟩

/-! ## a note in two workspaces -/

def scopeA : Scope := ⟨"a", "u"⟩
def scopeB : Scope := ⟨"b", "u"⟩

/-- The tag ids of these runs. -/
def idOf (workspace : String) (path : Text) : String := workspace ++ "/" ++ String.ofList path

def syncNote (scope : Scope) (noteId path : String) : Op :=
  .syncNoteTagsMany scope (idOf scope.workspace) "now" [(noteId, [(path.toList, "frontmatter")])]

theorem tags_shaped_two : ∃ s : State, s.db.tags.length = 3 ∧
    (∀ scope, scope ∉ s.unswept → Shape s.db scope) ∧ (∀ n, s.db.pairs n = s.lastSynced n) ∧
      ∀ scope, (s.db.sweepOrphanTags scope).isSome = true := by
  obtain ⟨s, hs, hlen⟩ := Option.map_eq_some_iff.mp (show (tagging.exec State.empty
    [syncNote scopeA "n" "work/projects", syncNote scopeB "m" "life", syncNote scopeA "n" "work/x"]).map
      (fun s => s.db.tags.length) = some 3 by decide +kernel)
  exact ⟨s, hlen, tags_shaped (.of_guarded (.start rfl) (by decide +kernel) hs)⟩

/-- The note is synced in another workspace: the row of its old tag stays in the first one, where no
note carries anything. -/
theorem tags_leftover : ∃ s : State, tagging.Reach free s ∧ s.unswept = [] ∧ ¬ Shape s.db scopeA := by
  obtain ⟨s, hs, hview⟩ := Option.map_eq_some_iff.mp (show (tagging.exec State.empty
    [syncNote scopeA "n" "work", syncNote scopeB "n" "life"]).map (fun s => decide (s.unswept = [] ∧
      (s.db.tagsOf scopeA).map (·.path) = ["work".toList] ∧ ∀ c ∈ s.db.carried, c.scope = scopeB)) =
        some true by decide +kernel)
  obtain ⟨hunswept, hpaths, hcarried⟩ := of_decide_eq_true hview
  refine ⟨s, .of_exec (.start rfl) hs, hunswept, fun hshape => ?_⟩
  obtain ⟨c, hc, hcs, -⟩ := (hshape.closure "work".toList).mp (hpaths ▸ List.mem_singleton_self _)
  exact absurd ((hcarried c hc).symm.trans hcs) (by decide)

end Kajet.Tags
