import Kajet.Lib.Fallible
import Kajet.Queue.Exclusion
import Mathlib.Data.List.Perm.Basic

/-!
# A batched enqueue is the fold of single enqueues

`enqueueManyInSession` adds the entries without a key first, sends the others in pieces of
`enqueueUpsertChunkSize` rows, and finds every id by its key.  `enqueueInSession` takes one entry.

* `place`, `named`     what one entry does to the rows, and the id that it gets, with no error path;
* `enqueueEach`        the fold of `enqueueInSession` over the entries;
* `Fresh`              the generated ids are new and differ;
* `renameJob`          other fresh ids: `place` and `named` never look at an id.

An id that was given stays the id of its key (`named_place`), so each of the two computes `named`
over its final rows (`enqueueEach_eq`, `enqueueMany_eq`), and the final rows are the same
(`placed_perm`).
-/

namespace Kajet.Queue
open Table

/-! ## one entry -/

/-- The pending row of `key`. -/
def holdsKey (kind key : String) (r : Job) : Bool := pendingKey r = some (kind, key)

def place (kind : String) (a : EnqueueArgs) (rows : List Job) (x : JobEntry × String) : List Job :=
  match x.1.dedupKey with
  | none => rows ++ [newJob x.2 kind x.1 a]
  | some key =>
    if rows.any (holdsKey kind key) then updateWhere (holdsKey kind key) (rearm a) rows
    else rows ++ [newJob x.2 kind x.1 a]

def named (kind : String) (rows : List Job) (x : JobEntry × String) : String :=
  match x.1.dedupKey with
  | none => x.2
  | some key => ((rows.find? (holdsKey kind key)).map (·.id)).getD ""

/-- `[enqueue_in_session(e) for e in entries]` -/
def enqueueEach (rows : List Job) (kind : String) (entries : List (JobEntry × String)) (a : EnqueueArgs) :
    Except DbError (List Job × List String) :=
  entries.foldlM (fun acc x => do
    let (rows, id) ← enqueueInSession acc.1 x.2 kind x.1 a
    return (rows, acc.2 ++ [id])) (rows, [])

/-- What `generate()` returned for the entries is new. -/
def Fresh (rows : List Job) (entries : List (JobEntry × String)) : Prop :=
  (entries.map (·.2)).Nodup ∧ ∀ x ∈ entries, x.2 ∉ rows.map (·.id)

instance (rows : List Job) (entries : List (JobEntry × String)) : Decidable (Fresh rows entries) :=
  inferInstanceAs (Decidable (_ ∧ _))

section
variable {rows rows' : List Job} {kind key : String} {a : EnqueueArgs} {x y : JobEntry × String}
  {xs entries : List (JobEntry × String)}

@[simp] theorem holdsKey_iff {r : Job} : holdsKey kind key r = true ↔ pendingKey r = some (kind, key) := decide_eq_true_iff

theorem place_plain (h : x.1.dedupKey = none) : place kind a rows x = rows ++ [newJob x.2 kind x.1 a] := by
  rw [place, h]

theorem place_held (hkey : x.1.dedupKey = some key) (h : rows.any (holdsKey kind key) = true) :
    place kind a rows x = updateWhere (holdsKey kind key) (rearm a) rows := by
  rw [place, hkey]
  exact if_pos h

theorem place_new (hkey : x.1.dedupKey = some key) (h : rows.any (holdsKey kind key) = false) :
    place kind a rows x = rows ++ [newJob x.2 kind x.1 a] := by
  rw [place, hkey]
  exact if_neg (by simp [h])

theorem pendingKey_newJob (id : String) (e : JobEntry) :
    pendingKey (newJob id kind e a) = e.dedupKey.map fun k => (kind, k) := if_pos rfl

/-- The row of a key is there after its entry. -/
theorem holdsKey_place (hkey : x.1.dedupKey = some key) : (place kind a rows x).any (holdsKey kind key) = true := by
  by_cases h : rows.any (holdsKey kind key) = true
  · rw [place_held hkey h]
    obtain ⟨r, hr, hr'⟩ := List.any_eq_true.mp h
    refine List.any_eq_true.mpr ⟨rearm a r, mem_updateWhere_of_sel hr hr', ?_⟩
    rw [holdsKey_iff, rearm_pendingKey]
    exact holdsKey_iff.mp hr'
  · rw [place_new hkey (Bool.eq_false_iff.mpr h)]
    refine List.any_eq_true.mpr ⟨_, List.mem_append_right _ List.mem_cons_self, ?_⟩
    rw [holdsKey_iff, pendingKey_newJob, hkey]
    rfl

/-- What a key points to does not move: rows keep their ids and their keys. -/
theorem find?_updateWhere_rearm (p : Job → Bool) :
    ((updateWhere p (rearm a) rows).find? (holdsKey kind key)).map (·.id) =
      (rows.find? (holdsKey kind key)).map (·.id) := by
  induction rows with
  | nil => rfl
  | cons r rows ih =>
    show ((((if p r then rearm a r else r) :: updateWhere p (rearm a) rows).find? _).map _) = _
    have hkey : holdsKey kind key (if p r then rearm a r else r) = holdsKey kind key r := by
      split
      · exact congrArg (fun k => decide (k = some (kind, key))) (rearm_pendingKey a r)
      · rfl
    rw [List.find?_cons, List.find?_cons, hkey]
    cases holdsKey kind key r with
    | false => exact ih
    | true =>
      show some _ = some _
      split <;> rfl

theorem find?_place (h : rows.any (holdsKey kind key) = true) :
    ((place kind a rows x).find? (holdsKey kind key)).map (·.id) =
      (rows.find? (holdsKey kind key)).map (·.id) := by
  have happ : ((rows ++ [newJob x.2 kind x.1 a]).find? (holdsKey kind key)) = rows.find? (holdsKey kind key) := by
    obtain ⟨r, hr, hr'⟩ := List.any_eq_true.mp h
    rw [List.find?_append, Option.or_of_isSome]
    exact List.find?_isSome.mpr ⟨r, hr, hr'⟩
  cases hkey : x.1.dedupKey with
  | none => rw [place_plain hkey, happ]
  | some k =>
    by_cases hk : rows.any (holdsKey kind k) = true
    · rw [place_held hkey hk]
      exact find?_updateWhere_rearm _
    · rw [place_new hkey (Bool.eq_false_iff.mpr hk), happ]

/-- An entry is served: its key has a pending row. -/
def Served (kind : String) (rows : List Job) (x : JobEntry × String) : Prop :=
  ∀ key, x.1.dedupKey = some key → rows.any (holdsKey kind key) = true

theorem served_self : Served kind (place kind a rows x) x := fun _ hkey => holdsKey_place hkey

theorem any_place (h : rows.any (holdsKey kind key) = true) :
    (place kind a rows x).any (holdsKey kind key) = true := by
  have hid := @find?_place rows kind key a x h
  rw [List.any_eq_true] at h ⊢
  obtain ⟨r, hr⟩ := Option.isSome_iff_exists.mp (List.find?_isSome.mpr h)
  rw [hr] at hid
  obtain ⟨r', hr', -⟩ := Option.map_eq_some_iff.mp hid
  exact List.find?_isSome.mp (Option.isSome_iff_exists.mpr ⟨r', hr'⟩)

theorem Served.place (h : Served kind rows x) : Served kind (Queue.place kind a rows y) x :=
  fun key hkey => any_place (h key hkey)

theorem named_place (h : Served kind rows x) : named kind (place kind a rows y) x = named kind rows x := by
  unfold named
  cases hkey : x.1.dedupKey with
  | none => rfl
  | some key => exact congrArg (·.getD "") (find?_place (h key hkey))

theorem Served.foldl (h : Served kind rows x) : Served kind (xs.foldl (Queue.place kind a) rows) x := by
  induction xs generalizing rows with
  | nil => exact h
  | cons y xs ih => exact ih h.place

theorem served_foldl (h : x ∈ xs) : Served kind (xs.foldl (place kind a) rows) x := by
  induction xs generalizing rows with
  | nil => cases h
  | cons y xs ih =>
    rcases List.mem_cons.mp h with rfl | h
    · exact served_self.foldl
    · exact ih h

theorem named_foldl (h : Served kind rows x) :
    named kind (xs.foldl (place kind a) rows) x = named kind rows x := by
  induction xs generalizing rows with
  | nil => rfl
  | cons y xs ih => exact (ih h.place).trans (named_place h)

/-! ## the constraints -/

theorem place_ok (hc : constraintsOk rows) (hx : x.2 ∉ rows.map (·.id)) : constraintsOk (place kind a rows x) := by
  have hadd : (∀ key, x.1.dedupKey = some key → rows.any (holdsKey kind key) = false) →
      constraintsOk (rows ++ [newJob x.2 kind x.1 a]) := by
    intro hnew
    refine ⟨hc.1.concat fun r hr k hk hj => ?_, hc.2.concat fun r hr k hk hj => ?_⟩
    · rw [← hj] at hk
      exact hx (List.mem_map.mpr ⟨r, hr, Option.some.inj hk⟩)
    · rw [pendingKey_newJob] at hj
      obtain ⟨key, hkey, rfl⟩ := Option.map_eq_some_iff.mp hj
      exact absurd (List.any_eq_true.mpr ⟨r, hr, holdsKey_iff.mpr hk⟩) (by rw [hnew key hkey]; simp)
  cases hkey : x.1.dedupKey with
  | none =>
    rw [place_plain hkey]
    exact hadd fun key h => absurd h (by rw [hkey]; simp)
  | some key =>
    by_cases h : rows.any (holdsKey kind key) = true
    · rw [place_held hkey h]
      exact hc.update (fun _ => rfl) fun _ _ _ _ hk => hk
    · rw [place_new hkey (Bool.eq_false_iff.mpr h)]
      refine hadd fun key' h' => ?_
      rw [hkey] at h'
      rw [← Option.some.inj h']
      exact Bool.eq_false_iff.mpr h

theorem mem_place_ids {id : String} (h : id ∈ (place kind a rows x).map (·.id)) : id = x.2 ∨ id ∈ rows.map (·.id) := by
  have hadd (h : id ∈ (rows ++ [newJob x.2 kind x.1 a]).map (·.id)) : id = x.2 ∨ id ∈ rows.map (·.id) := by
    rw [List.map_append, List.mem_append] at h
    exact h.symm.imp_left List.mem_singleton.mp
  unfold place at h
  split at h
  · exact hadd h
  · split at h
    · rw [map_updateWhere (fun r => rearm_id a r)] at h
      exact .inr h
    · exact hadd h

theorem Fresh.head (h : Fresh rows (x :: xs)) : x.2 ∉ rows.map (·.id) := h.2 x List.mem_cons_self

theorem Fresh.tail (h : Fresh rows (x :: xs)) : Fresh (place kind a rows x) xs := by
  have hnodup := List.nodup_cons.mp h.1
  refine ⟨hnodup.2, fun y hy hmem => ?_⟩
  rcases mem_place_ids hmem with heq | hmem
  · exact hnodup.1 (List.mem_map.mpr ⟨y, hy, heq⟩)
  · exact h.2 y (List.mem_cons_of_mem _ hy) hmem

theorem Fresh.sublist (h : Fresh rows entries) (hsub : xs.Sublist entries) : Fresh rows xs :=
  ⟨h.1.sublist (hsub.map _), fun y hy => h.2 y (hsub.subset hy)⟩

theorem foldl_place_ok (hc : constraintsOk rows) (h : Fresh rows xs) : constraintsOk (xs.foldl (place kind a) rows) := by
  induction xs generalizing rows with
  | nil => exact hc
  | cons x xs ih => exact ih (place_ok hc h.head) h.tail

theorem Fresh.rest {ys : List (JobEntry × String)} (h : Fresh rows (xs ++ ys)) : Fresh (xs.foldl (place kind a) rows) ys := by
  induction xs generalizing rows with
  | nil => exact h
  | cons x xs ih => exact ih h.tail

/-! ## one statement -/

theorem selectPendingOne_eq (hc : constraintsOk rows) (h : rows.any (holdsKey kind key) = true) :
    selectPendingOne rows kind key = .ok (((rows.find? (holdsKey kind key)).map (·.id)).getD "") := by
  have hfilter : rows.filter (fun r => decide (r.kind = kind ∧ r.dedupKey = some key ∧ r.status = .pending)) =
      rows.filter (holdsKey kind key) := by
    apply List.filter_congr
    intro r _
    rw [holdsKey, decide_eq_decide, pendingKey_eq_some]
    exact ⟨fun ⟨h1, h2, h3⟩ => ⟨h3, h1, h2⟩, fun ⟨h3, h1, h2⟩ => ⟨h1, h2, h3⟩⟩
  rw [selectPendingOne, hfilter, ← List.head?_filter]
  have hsome : rows.filter (holdsKey kind key) ≠ [] := by
    obtain ⟨r, hr, hr'⟩ := List.any_eq_true.mp h
    exact List.ne_nil_of_mem (List.mem_filter.mpr ⟨hr, hr'⟩)
  have huniq : UniqueOn pendingKey (rows.filter (holdsKey kind key)) := hc.2.sublist (List.filter_sublist.filterMap _)
  have hall : ∀ r ∈ rows.filter (holdsKey kind key), pendingKey r = some (kind, key) := fun r hr =>
    holdsKey_iff.mp (List.mem_filter.mp hr).2
  match hrows : rows.filter (holdsKey kind key) with
  | [] => exact absurd hrows hsome
  | [r] => rfl
  | r :: r' :: rest =>
    rw [hrows] at huniq hall
    exact absurd (hall r' (by simp)) ((uniqueOn_cons.mp huniq).1 _ (hall r List.mem_cons_self) r' List.mem_cons_self)

theorem upsert_eq (hc : constraintsOk rows) (hx : x.2 ∉ rows.map (·.id)) (hkey : x.1.dedupKey = some key) :
    upsert rows (newJob x.2 kind x.1 a) a = .ok (place kind a rows x) := by
  have hnew : pendingKey (newJob x.2 kind x.1 a) = some (kind, key) := by
    rw [pendingKey_newJob, hkey]
    rfl
  have hid : rows.any (fun r => decide (r.id = (newJob x.2 kind x.1 a).id)) = false := by
    rw [List.any_eq_false]
    intro r hr h
    exact hx (List.mem_map.mpr ⟨r, hr, of_decide_eq_true h⟩)
  have hok := @place_ok rows kind a x hc hx
  rw [upsert, hid, if_neg (by simp), hnew]
  by_cases h : rows.any (holdsKey kind key) = true
  · rw [place_held hkey h]
    exact if_pos h
  · have h := Bool.eq_false_iff.mpr h
    rw [place_new hkey h] at hok ⊢
    exact (if_neg fun hany => Bool.eq_false_iff.mp h hany).trans (flush_eq hok)

theorem enqueueInSession_eq (hc : constraintsOk rows) (hx : x.2 ∉ rows.map (·.id)) :
    enqueueInSession rows x.2 kind x.1 a = .ok (place kind a rows x, named kind (place kind a rows x) x) := by
  have hok := @place_ok rows kind a x hc hx
  unfold enqueueInSession
  cases hkey : x.1.dedupKey with
  | none =>
    rw [place_plain hkey] at hok ⊢
    dsimp only
    rw [flush_eq hok, named, hkey]
    rfl
  | some key =>
    dsimp only
    rw [upsert_eq hc hx hkey]
    show (selectPendingOne (place kind a rows x) kind key).bind _ = _
    rw [selectPendingOne_eq hok (holdsKey_place hkey), named, hkey]
    rfl

theorem upsertReturning_eq {returned : List (Option String × String)} (hc : constraintsOk rows)
    (hx : x.2 ∉ rows.map (·.id)) (hkey : x.1.dedupKey = some key) :
    upsertReturning kind a (rows, returned) x =
      .ok (place kind a rows x, returned ++ [(some key, named kind (place kind a rows x) x)]) := by
  have hnew : pendingKey (newJob x.2 kind x.1 a) = some (kind, key) := by
    rw [pendingKey_newJob, hkey]
    rfl
  unfold upsertReturning
  dsimp only
  rw [upsert_eq hc hx hkey, hnew]
  obtain ⟨r, hr⟩ := Option.isSome_iff_exists.mp
    (List.find?_isSome.mpr (List.any_eq_true.mp (@holdsKey_place rows kind key a x hkey)))
  have hdedup : r.dedupKey = some key := (pendingKey_eq_some.mp (holdsKey_iff.mp (List.find?_some hr))).2.2
  have hfound : (place kind a rows x).find? (fun r => pendingKey r = some (kind, key)) = some r := hr
  rw [named, hkey]
  simp only [bind, Except.bind, pure, Except.pure, hfound, hr, Option.map_some, Option.getD_some, hdedup]

/-! ## the fold -/

theorem foldlM_enqueueInSession (ids : List String) (hc : constraintsOk rows) (h : Fresh rows xs) :
    xs.foldlM (fun acc x => do
      let (rows, id) ← enqueueInSession acc.1 x.2 kind x.1 a
      return (rows, acc.2 ++ [id])) (rows, ids) =
      .ok (xs.foldl (place kind a) rows, ids ++ xs.map (named kind (xs.foldl (place kind a) rows))) := by
  induction xs generalizing rows ids with
  | nil => exact congrArg (fun ids => Except.ok (rows, ids)) (List.append_nil ids).symm
  | cons x xs ih =>
    rw [List.foldlM_cons, enqueueInSession_eq hc h.head]
    refine (ih (ids ++ [named kind (place kind a rows x) x]) (place_ok hc h.head) h.tail).trans ?_
    rw [List.foldl_cons, List.map_cons, named_foldl served_self, List.append_assoc]
    rfl

theorem enqueueEach_eq (hc : constraintsOk rows) (h : Fresh rows entries) :
    enqueueEach rows kind entries a = .ok (entries.foldl (place kind a) rows,
      entries.map (named kind (entries.foldl (place kind a) rows))) :=
  foldlM_enqueueInSession [] hc h

/-! ## the batch -/

theorem batched_flatten {α : Type*} (n : Nat) (xs cur : List α) : (batched n cur xs).flatten = cur ++ xs := by
  induction xs generalizing cur with
  | nil => cases cur <;> simp [batched]
  | cons x xs ih =>
    have hcons : batched n cur (x :: xs) = if cur.length + 1 < n then batched n (cur ++ [x]) xs
        else (cur ++ [x]) :: batched n [] xs := by cases cur <;> rfl
    rw [hcons]
    split
    · rw [ih, List.append_assoc]
      rfl
    · rw [List.flatten_cons, ih, List.append_assoc]
      rfl

theorem foldlM_upsertReturning (returned : List (Option String × String)) (hc : constraintsOk rows) (h : Fresh rows xs)
    (hkeys : ∀ y ∈ xs, y.1.dedupKey ≠ none) :
    xs.foldlM (upsertReturning kind a) (rows, returned) = .ok (xs.foldl (place kind a) rows,
      returned ++ xs.map fun y => (y.1.dedupKey, named kind (xs.foldl (place kind a) rows) y)) := by
  induction xs generalizing rows returned with
  | nil => exact congrArg (fun l => Except.ok (rows, l)) (List.append_nil returned).symm
  | cons x xs ih =>
    obtain ⟨key, hkey⟩ := Option.ne_none_iff_exists'.mp (hkeys x List.mem_cons_self)
    rw [List.foldlM_cons, upsertReturning_eq hc h.head hkey]
    refine (ih _ (place_ok hc h.head) h.tail fun y hy => hkeys y (List.mem_cons_of_mem _ hy)).trans ?_
    rw [List.foldl_cons, List.map_cons, named_foldl served_self, List.append_assoc, hkey]
    rfl

/-- `id_by_dedup_key[entry.dedup_key]`: all the rows of a key carry one id. -/
theorem lookup_returned (hx : x ∈ xs) (hkey : x.1.dedupKey ≠ none) :
    (xs.map fun y => (y.1.dedupKey, named kind rows y)).reverse.lookup x.1.dedupKey = some (named kind rows x) := by
  refine lookup_of_all (List.mem_reverse.mpr (List.mem_map.mpr ⟨x, hx, rfl⟩)) fun id hid => ?_
  obtain ⟨y, -, hy⟩ := List.mem_map.mp (List.mem_reverse.mp hid)
  obtain ⟨hdedup, rfl⟩ := Prod.mk.inj hy
  obtain ⟨key, hx⟩ := Option.ne_none_iff_exists'.mp hkey
  rw [named, named, hdedup, hx]

theorem upsertChunk_eq {chunk : List (Nat × JobEntry × String)} {ids : List (Nat × String)} (hc : constraintsOk rows)
    (h : Fresh rows (chunk.map (·.2))) (hkeys : ∀ y ∈ chunk, y.2.1.dedupKey ≠ none) :
    upsertChunk kind a (rows, ids) chunk = .ok ((chunk.map (·.2)).foldl (place kind a) rows,
      ids ++ chunk.map fun y => (y.1, named kind ((chunk.map (·.2)).foldl (place kind a) rows) y.2)) := by
  have hkeys' : ∀ y ∈ chunk.map (·.2), y.1.dedupKey ≠ none := by
    intro y hy
    obtain ⟨z, hz, rfl⟩ := List.mem_map.mp hy
    exact hkeys z hz
  unfold upsertChunk
  rw [foldlM_upsertReturning [] hc h hkeys']
  show Except.bind (chunk.mapM _) _ = _
  rw [List.nil_append, Fallible.mapM_eq_map (f := fun y =>
    (y.1, named kind ((chunk.map (·.2)).foldl (place kind a) rows) y.2))]
  · rfl
  · intro y hy
    rw [lookup_returned (List.mem_map_of_mem hy) (hkeys y hy)]

theorem foldlM_upsertChunk {chunks : List (List (Nat × JobEntry × String))} (ids : List (Nat × String))
    (hc : constraintsOk rows) (h : Fresh rows (chunks.flatten.map (·.2)))
    (hkeys : ∀ y ∈ chunks.flatten, y.2.1.dedupKey ≠ none) :
    chunks.foldlM (upsertChunk kind a) (rows, ids) = .ok ((chunks.flatten.map (·.2)).foldl (place kind a) rows,
      ids ++ chunks.flatten.map fun y =>
        (y.1, named kind ((chunks.flatten.map (·.2)).foldl (place kind a) rows) y.2)) := by
  induction chunks generalizing rows ids with
  | nil => exact congrArg (fun l => Except.ok (rows, l)) (List.append_nil ids).symm
  | cons chunk chunks ih =>
    rw [List.flatten_cons] at hkeys
    rw [List.flatten_cons, List.map_append] at h ⊢
    have hchunk : Fresh rows (chunk.map (·.2)) := h.sublist (List.sublist_append_left _ _)
    rw [List.foldlM_cons, upsertChunk_eq hc hchunk fun y hy => hkeys y (List.mem_append_left _ hy)]
    refine (ih _ (foldl_place_ok hc hchunk) h.rest fun y hy => hkeys y (List.mem_append_right _ hy)).trans ?_
    rw [List.foldl_append, List.map_append, List.append_assoc]
    congr 4
    -- the ids of this statement are those of the final rows
    apply List.map_congr_left
    intro y hy
    rw [named_foldl (served_foldl (List.mem_map_of_mem hy))]

/-- The entries of the first loop. -/
def plain (entries : List (JobEntry × String)) : List (JobEntry × String) := entries.filter fun x => x.1.dedupKey = none

/-- The entries of the statements. -/
def keyed (entries : List (JobEntry × String)) : List (JobEntry × String) := entries.filter fun x => x.1.dedupKey ≠ none

theorem foldl_plain (h : ∀ x ∈ xs, x.1.dedupKey = none) :
    xs.foldl (place kind a) rows = rows ++ xs.map fun x => newJob x.2 kind x.1 a := by
  induction xs generalizing rows with
  | nil => exact (List.append_nil rows).symm
  | cons x xs ih =>
    rw [List.foldl_cons, ih fun y hy => h y (List.mem_cons_of_mem _ hy), place_plain (h x List.mem_cons_self),
      List.append_assoc]
    rfl

theorem dedupKey_of_plain (h : x ∈ plain entries) : x.1.dedupKey = none := of_decide_eq_true (List.mem_filter.mp h).2

theorem plain_append_keyed (entries : List (JobEntry × String)) : (plain entries ++ keyed entries).Perm entries := by
  have hkeyed : keyed entries = entries.filter fun x => !decide (x.1.dedupKey = none) :=
    List.filter_congr fun x _ => by rw [← decide_not]
  rw [hkeyed]
  exact List.filter_append_perm _ _

theorem Fresh.perm (h : Fresh rows entries) (hp : xs.Perm entries) : Fresh rows xs :=
  ⟨(hp.map _).nodup_iff.mpr h.1, fun x hx => h.2 x (hp.mem_iff.mp hx)⟩

theorem dedupIndexed_entries (entries : List (JobEntry × String)) :
    ((entries.zipIdx.map fun x => (x.2, x.1)).filter fun x => x.2.1.dedupKey ≠ none).map (·.2) = keyed entries := by
  have hmap : (entries.zipIdx.map fun x => (x.2, x.1)).map (·.2) = entries := by
    rw [List.map_map]
    exact List.zipIdx_map_fst 0 entries
  rw [keyed]
  conv_rhs => rw [← hmap, List.filter_map]
  rfl

/-- `job_ids` -/
theorem jobIds_eq (entries : List (JobEntry × String)) : (entries.zipIdx.map fun x =>
    if x.1.1.dedupKey = none then x.1.2
    else ((((entries.zipIdx.map fun x => (x.2, x.1)).filter fun x => x.2.1.dedupKey ≠ none).map fun y =>
      (y.1, named kind rows y.2)).lookup x.2).getD "") = entries.map (named kind rows) := by
  refine Eq.trans (List.map_congr_left (g := fun x => named kind rows x.1) fun x hx => ?_) ?_
  · have hget := List.mk_mem_zipIdx_iff_getElem?.mp hx
    split
    · rename_i hkey
      rw [named, hkey]
    · rename_i hkey
      rw [lookup_of_all (b := named kind rows x.1)]
      · rfl
      · exact List.mem_map.mpr ⟨(x.2, x.1), mem_dedupIndexed.mpr ⟨hget, hkey⟩, rfl⟩
      · intro id hid
        obtain ⟨y, hy, heq⟩ := List.mem_map.mp hid
        obtain ⟨hi, rfl⟩ := Prod.mk.inj heq
        rw [← hi, (mem_dedupIndexed.mp hy).1] at hget
        rw [Option.some.inj hget]
  · calc entries.zipIdx.map (fun x => named kind rows x.1)
        = (entries.zipIdx.map (·.1)).map (named kind rows) := by rw [List.map_map]; rfl
      _ = entries.map (named kind rows) := by rw [List.zipIdx_map_fst]

theorem enqueueMany_eq (hc : constraintsOk rows) (h : Fresh rows entries) :
    enqueueManyInSession rows kind entries a =
      .ok ((keyed entries).foldl (place kind a) ((plain entries).foldl (place kind a) rows),
        entries.map (named kind ((keyed entries).foldl (place kind a) ((plain entries).foldl (place kind a) rows)))) := by
  have hboth := h.perm (plain_append_keyed entries)
  have hplain : Fresh rows (plain entries) := hboth.sublist (List.sublist_append_left _ _)
  have hadd := @foldl_plain rows kind a (plain entries) fun x hx => dedupKey_of_plain hx
  have hrows := @foldl_place_ok rows kind a _ hc hplain
  have hflat := batched_flatten enqueueUpsertChunkSize
    ((entries.zipIdx.map fun x => (x.2, x.1)).filter fun x => x.2.1.dedupKey ≠ none) []
  rw [List.nil_append] at hflat
  have hchunks := @foldlM_upsertChunk ((plain entries).foldl (place kind a) rows) kind a
    (batched enqueueUpsertChunkSize []
      ((entries.zipIdx.map fun x => (x.2, x.1)).filter fun x => x.2.1.dedupKey ≠ none)) [] hrows
    (by rw [hflat, dedupIndexed_entries]; exact hboth.rest)
    (by rw [hflat]; exact fun y hy => (mem_dedupIndexed.mp hy).2)
  rw [hflat, dedupIndexed_entries, List.nil_append] at hchunks
  unfold enqueueManyInSession
  show Except.bind (flush (rows ++ (plain entries).map fun x => newJob x.2 kind x.1 a)) _ = _
  rw [← hadd, flush_eq hrows]
  show Except.bind ((batched _ _ _).foldlM _ _) _ = _
  rw [hchunks]
  exact congrArg (fun ids => Except.ok (_, ids)) (jobIds_eq entries)

/-! ## the order of the rows -/

theorem place_perm (h : rows.Perm rows') : (place kind a rows x).Perm (place kind a rows' x) := by
  cases hkey : x.1.dedupKey with
  | none =>
    rw [place_plain hkey, place_plain hkey]
    exact h.append_right _
  | some key =>
    have hany : rows.any (holdsKey kind key) = rows'.any (holdsKey kind key) := by
      rw [Bool.eq_iff_iff, List.any_eq_true, List.any_eq_true]
      exact exists_congr fun r => and_congr_left' h.mem_iff
    by_cases hk : rows.any (holdsKey kind key) = true
    · rw [place_held hkey hk, place_held hkey (hany ▸ hk)]
      exact h.map _
    · have hk := Bool.eq_false_iff.mpr hk
      rw [place_new hkey hk, place_new hkey (hany ▸ hk)]
      exact h.append_right _

theorem foldl_place_perm (h : rows.Perm rows') : (xs.foldl (place kind a) rows).Perm (xs.foldl (place kind a) rows') := by
  induction xs generalizing rows rows' with
  | nil => exact h
  | cons x xs ih => exact ih (place_perm h)

/-- Rows without a key are not in the way of an entry with one. -/
theorem place_append {js : List Job} (hkey : x.1.dedupKey = some key) (hjs : ∀ j ∈ js, pendingKey j = none) :
    (place kind a (rows ++ js) x).Perm (place kind a rows x ++ js) := by
  have hnot : ∀ j ∈ js, holdsKey kind key j = false := fun j hj => by
    rw [Bool.eq_false_iff, Ne, holdsKey_iff, hjs j hj]
    simp
  have hany : (rows ++ js).any (holdsKey kind key) = rows.any (holdsKey kind key) := by
    rw [List.any_append, List.any_eq_false.mpr fun j hj => Bool.eq_false_iff.mp (hnot j hj), Bool.or_false]
  by_cases h : rows.any (holdsKey kind key) = true
  · have hsame : updateWhere (holdsKey kind key) (rearm a) (rows ++ js) =
        updateWhere (holdsKey kind key) (rearm a) rows ++ js := by
      rw [updateWhere, List.map_append]
      exact congrArg _ (updateWhere_of_none hnot)
    rw [place_held hkey (hany.trans h), place_held hkey h, hsame]
  · have h := Bool.eq_false_iff.mpr h
    rw [place_new hkey (hany.trans h), place_new hkey h, List.append_assoc, List.append_assoc]
    exact List.perm_append_comm.append_left rows

/-- The entries without a key can go first. -/
theorem placed_perm : (entries.foldl (place kind a) rows).Perm
    ((keyed entries).foldl (place kind a) ((plain entries).foldl (place kind a) rows)) := by
  induction entries generalizing rows with
  | nil => exact .refl _
  | cons x entries ih =>
    refine ih.trans ?_
    cases hkey : x.1.dedupKey with
    | none =>
      have hplain : plain (x :: entries) = x :: plain entries := List.filter_cons_of_pos (decide_eq_true hkey)
      have hkeyed : keyed (x :: entries) = keyed entries := List.filter_cons_of_neg (by simp [hkey])
      rw [hplain, hkeyed]
      exact .refl _
    | some key =>
      have hplain : plain (x :: entries) = plain entries := List.filter_cons_of_neg (by simp [hkey])
      have hkeyed : keyed (x :: entries) = x :: keyed entries := List.filter_cons_of_pos (by simp [hkey])
      rw [hplain, hkeyed, List.foldl_cons]
      refine foldl_place_perm ?_
      rw [foldl_plain fun y hy => dedupKey_of_plain hy, foldl_plain fun y hy => dedupKey_of_plain hy]
      refine (place_append hkey fun j hj => ?_).symm
      obtain ⟨y, hy, rfl⟩ := List.mem_map.mp hj
      rw [pendingKey_newJob, dedupKey_of_plain hy]
      rfl

/-- In a table in order a key points to one row, wherever the row stands. -/
theorem named_perm (hc : constraintsOk rows) (h : rows.Perm rows') (hx : Served kind rows x) :
    named kind rows x = named kind rows' x := by
  unfold named
  cases hkey : x.1.dedupKey with
  | none => rfl
  | some key =>
    have hany := List.any_eq_true.mp (hx key hkey)
    obtain ⟨r, hr⟩ := Option.isSome_iff_exists.mp (List.find?_isSome.mpr hany)
    obtain ⟨s, hs⟩ := Option.isSome_iff_exists.mp (List.find?_isSome.mpr
      (hany.imp fun r hr => ⟨h.mem_iff.mp hr.1, hr.2⟩))
    have heq : r = s := hc.2.eq (List.mem_of_find?_eq_some hr) (h.mem_iff.mpr (List.mem_of_find?_eq_some hs))
      (holdsKey_iff.mp (List.find?_some hr)) (holdsKey_iff.mp (List.find?_some hs))
    show ((rows.find? _).map _).getD _ = ((rows'.find? _).map _).getD _
    rw [hr, hs, heq]

/-! ## other ids -/

def renameJob (π : String → String) (r : Job) : Job := { r with id := π r.id }

/-- The entry with the id that `generate()` returned in the other run. -/
def renameEntry (π : String → String) (x : JobEntry × String) : JobEntry × String := (x.1, π x.2)

variable {π : String → String}

theorem holdsKey_rename (r : Job) : holdsKey kind key (renameJob π r) = holdsKey kind key r := rfl

theorem any_rename : (rows.map (renameJob π)).any (holdsKey kind key) = rows.any (holdsKey kind key) := by
  rw [List.any_map]
  rfl

theorem place_rename : place kind a (rows.map (renameJob π)) (renameEntry π x) = (place kind a rows x).map (renameJob π) := by
  have hadd : rows.map (renameJob π) ++ [newJob (renameEntry π x).2 kind (renameEntry π x).1 a] =
      (rows ++ [newJob x.2 kind x.1 a]).map (renameJob π) := by
    rw [List.map_append]
    rfl
  cases hkey : x.1.dedupKey with
  | none =>
    have hkey' : (renameEntry π x).1.dedupKey = none := hkey
    rw [place_plain hkey, ← hadd, place_plain hkey']
  | some key =>
    have hkey' : (renameEntry π x).1.dedupKey = some key := hkey
    by_cases h : rows.any (holdsKey kind key) = true
    · rw [place_held hkey h, place_held hkey' (any_rename.trans h), updateWhere, updateWhere, List.map_map, List.map_map]
      apply List.map_congr_left
      intro r _
      show (if holdsKey kind key (renameJob π r) then _ else _) = renameJob π (if holdsKey kind key r then _ else _)
      rw [holdsKey_rename]
      split <;> rfl
    · have h := Bool.eq_false_iff.mpr h
      rw [place_new hkey h, ← hadd, place_new hkey' (any_rename.trans h)]

theorem foldl_rename : (xs.map (renameEntry π)).foldl (place kind a) (rows.map (renameJob π)) =
    (xs.foldl (place kind a) rows).map (renameJob π) := by
  induction xs generalizing rows with
  | nil => rfl
  | cons x xs ih =>
    rw [List.map_cons, List.foldl_cons, place_rename, ih]
    rfl

theorem named_rename (hx : Served kind rows x) :
    named kind (rows.map (renameJob π)) (renameEntry π x) = π (named kind rows x) := by
  cases hkey : x.1.dedupKey with
  | none =>
    have hkey' : (renameEntry π x).1.dedupKey = none := hkey
    rw [named, named, hkey, hkey']
    rfl
  | some key =>
    have hkey' : (renameEntry π x).1.dedupKey = some key := hkey
    obtain ⟨r, hr⟩ := Option.isSome_iff_exists.mp (List.find?_isSome.mpr (List.any_eq_true.mp (hx key hkey)))
    have hfind : (rows.map (renameJob π)).find? (holdsKey kind key) = some (renameJob π r) := by
      rw [List.find?_map]
      exact congrArg (Option.map (renameJob π)) hr
    rw [named, named, hkey, hkey']
    dsimp only
    rw [hfind, hr]
    rfl

end

/-- A batch is the fold of its entries: the same rows, and the same id at each position.  The two runs
generate their own ids; `π` takes those of the batch to those of the fold. -/
theorem enqueue_batched {rows : List Job} (hc : constraintsOk rows) (kind : String) (a : EnqueueArgs)
    {entries : List (JobEntry × String)} {π : String → String} (hold : ∀ r ∈ rows, π r.id = r.id)
    (hbatch : Fresh rows entries) (heach : Fresh rows (entries.map (renameEntry π))) :
    ∃ batch each ids, enqueueManyInSession rows kind entries a = .ok (batch, ids) ∧
      enqueueEach rows kind (entries.map (renameEntry π)) a = .ok (each, ids.map π) ∧
      each.Perm (batch.map (renameJob π)) := by
  have hrows : rows.map (renameJob π) = rows := by
    conv_rhs => rw [← List.map_id rows]
    apply List.map_congr_left
    intro r hr
    show { r with id := π r.id } = r
    rw [hold r hr]
  have hplaced : (entries.map (renameEntry π)).foldl (place kind a) rows = (entries.foldl (place kind a) rows).map (renameJob π) := by
    conv_lhs => rw [← hrows]
    exact foldl_rename
  refine ⟨_, _, _, enqueueMany_eq hc hbatch, ?_, placed_perm.map (renameJob π)⟩
  rw [enqueueEach_eq hc heach, hplaced, List.map_map, List.map_map]
  refine congrArg (fun ids => Except.ok (_, ids)) (List.map_congr_left fun x hx => ?_)
  have hserved := @served_foldl rows kind a x entries hx
  calc named kind ((entries.foldl (place kind a) rows).map (renameJob π)) (renameEntry π x)
      = π (named kind (entries.foldl (place kind a) rows) x) := named_rename hserved
    _ = π (named kind ((keyed entries).foldl (place kind a) ((plain entries).foldl (place kind a) rows)) x) :=
        congrArg π (named_perm (foldl_place_ok hc hbatch) placed_perm hserved)

/-- A pending row of the key `a`. -/
def standing : Job := newJob "r" "reindex_note" ⟨[], some "a", some "u"⟩ ⟨5, 0, 10, 1⟩

/-- An entry without a key, the standing key, and a new key twice. -/
def fanOut : List (JobEntry × String) :=
  [(⟨[], none, some "u"⟩, "n0"), (⟨[], some "b", some "u"⟩, "n1"), (⟨[], some "a", some "u"⟩, "n2"),
    (⟨[("x", "1")], some "b", some "v"⟩, "n3")]

theorem enqueue_batched_fanOut : ∃ batch each ids,
    enqueueManyInSession [standing] "reindex_note" fanOut ⟨5, 0, 0, 2⟩ = .ok (batch, ids) ∧
    enqueueEach [standing] "reindex_note"
      (fanOut.map (renameEntry fun id => if id = "r" then id else id ++ "e")) ⟨5, 0, 0, 2⟩ =
      .ok (each, ids.map fun id => if id = "r" then id else id ++ "e") ∧
    each.Perm (batch.map (renameJob fun id => if id = "r" then id else id ++ "e")) :=
  enqueue_batched (by decide +kernel) _ _ (by decide +kernel) (by decide +kernel) (by decide +kernel)

end Kajet.Queue
