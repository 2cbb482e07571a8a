import Kajet.Lib.Machine
import Kajet.Links.Dirty

/-!
# Overlapping handler runs and the markers

Any number of writers raise markers while any number of handler runs, each a `list_dirty` followed
later by an `acknowledge` of a part of its snapshot, go on at the same time.  The generation is kept
in the row, and the row is deleted by an acknowledgement and created again by the next mark, so a
generation alone does not identify a mark.

* `World`, `worldStep`, `dirtyMachine`   the tables with the runs and a ghost clock: when a key was
                     last marked, when its present marker was created, who acknowledged it;
* `Fresh`            no acknowledged marker has been created anew since the run's `list_dirty`;
* `WorldInv`         a marker as old as the snapshot has not been marked since if its generation is
                     still the snapshot's;
* `marks_kept`       an acknowledgement deletes no newer mark exactly when it is fresh, and on the
                     runs of fresh acknowledgements every mark is kept until a run that listed it
                     acknowledges it.
-/

namespace Kajet.Links
open Table Queue Machine

/-- A run of the handler, after its `list_dirty`. -/
structure Run where
  ownerId : String
  workspace : String
  generations : List (String × Nat)
  listedAt : Nat
deriving DecidableEq

def Run.key (run : Run) (s : String) : MarkerKey := ⟨run.ownerId, run.workspace, s⟩

/-- The tables and the ghost history; time 0 is before everything. -/
structure World where
  db : DirtyDb
  runs : List Run
  clock : Nat
  markedAt : MarkerKey → Nat
  bornAt : MarkerKey → Nat
  acked : List (Nat × MarkerKey)

inductive WorldOp where
  | mark (ownerId workspace : String) (sources : List String) (jobId : String) (now : ℚ)
  | listDirty (ownerId workspace : String)
  | acknowledge (i : Nat) (items : List (String × Nat))

def World.mark (w : World) (keys : List MarkerKey) (db : DirtyDb) : World :=
  { w with
    db := db
    clock := w.clock + 1
    markedAt := fun k => if k ∈ keys then w.clock else w.markedAt k
    bornAt := fun k => if k ∈ keys ∧ gen w.db.dirty k = none then w.clock else w.bornAt k }

def World.list (w : World) (ownerId workspace : String) : World :=
  { w with
    runs := w.runs ++ [⟨ownerId, workspace, Links.listDirty w.db.dirty ownerId workspace, w.clock⟩]
    clock := w.clock + 1 }

def World.ack (w : World) (i : Nat) (run : Run) (items : List (String × Nat)) : World :=
  { w with
    db := { w.db with dirty := acknowledge w.db.dirty run.ownerId run.workspace items }
    clock := w.clock + 1
    acked := w.acked ++ items.map fun x => (i, run.key x.1) }

def worldStep (w : World) : WorldOp → Option World
  | .mark ownerId workspace sources jobId now =>
    match markAndEnqueue w.db ownerId workspace sources jobId now with
    | .ok (db, _) => some (w.mark (markKeys ownerId workspace sources) db)
    | .error _ => some w
  | .listDirty ownerId workspace => some (w.list ownerId workspace)
  | .acknowledge i items => w.runs[i]?.bind fun run =>
    if ∀ x ∈ items, x ∈ run.generations then some (w.ack i run items) else none

def World.empty : World := ⟨⟨[], []⟩, [], 1, fun _ => 0, fun _ => 0, []⟩

def dirtyMachine : Machine World WorldOp where
  start w := w = World.empty
  next := worldStep

/-- Every marker that the acknowledgement deletes was there at the run's `list_dirty`. -/
def Fresh (w : World) (run : Run) (items : List (String × Nat)) : Prop :=
  ∀ x ∈ items, gen w.db.dirty (run.key x.1) = some x.2 → w.bornAt (run.key x.1) < run.listedAt

instance (w : World) (run : Run) (items : List (String × Nat)) : Decidable (Fresh w run items) :=
  inferInstanceAs (Decidable (∀ x ∈ items, _))

def freshAcks (w : World) : WorldOp → Prop
  | .acknowledge i items => ∀ run ∈ w.runs[i]?, Fresh w run items
  | _ => True

instance (w : World) (op : WorldOp) : Decidable (freshAcks w op) := by
  cases op <;> unfold freshAcks <;> infer_instance

/-- Every marked key has its marker, or a run that listed after the mark acknowledged it. -/
def Kept (w : World) : Prop :=
  ∀ k, 0 < w.markedAt k → (gen w.db.dirty k).isSome ∨
    ∃ i run, (i, k) ∈ w.acked ∧ w.runs[i]? = some run ∧ w.markedAt k < run.listedAt

/-! ## a marker against an older snapshot -/

structure WorldInv (w : World) : Prop where
  keyed : Keyed Marker.key w.db.dirty
  past : ∀ k, w.markedAt k < w.clock
  listed : ∀ run ∈ w.runs, run.listedAt < w.clock
  /-- a marker was created by a mark, its last or an earlier one -/
  born : ∀ k g, gen w.db.dirty k = some g → 0 < w.bornAt k ∧ w.bornAt k ≤ w.markedAt k
  /-- a marker older than the snapshot has the snapshot's generation or has been marked since -/
  seen : ∀ run ∈ w.runs, ∀ x ∈ run.generations, ∀ g, gen w.db.dirty (run.key x.1) = some g →
    w.bornAt (run.key x.1) < run.listedAt →
    x.2 ≤ g ∧ (g = x.2 → w.markedAt (run.key x.1) < run.listedAt)

section
variable {w w' : World}

theorem WorldInv.mark (h : WorldInv w) {keys : List MarkerKey} (hnd : keys.Nodup) {db : DirtyDb}
    (hdb : db.dirty = markAll w.db.dirty keys) : WorldInv (w.mark keys db) := by
  have hgen : ∀ k, gen db.dirty k =
      if k ∈ keys then some ((gen w.db.dirty k).elim 1 (· + 1)) else gen w.db.dirty k :=
    fun k => by rw [hdb, gen_markAll keys hnd]
  refine ⟨?_, fun k => ?_, fun run hrun => ?_, fun k g hg => ?_, fun run hrun x hx g hg hb => ?_⟩
  · show Keyed Marker.key db.dirty
    rw [hdb]
    exact markAll_keyed keys h.keyed
  · show (if k ∈ keys then w.clock else w.markedAt k) < w.clock + 1
    have := h.past k
    split <;> omega
  · have := h.listed run hrun
    show run.listedAt < w.clock + 1
    omega
  · show 0 < (if k ∈ keys ∧ gen w.db.dirty k = none then w.clock else w.bornAt k) ∧
      (if k ∈ keys ∧ gen w.db.dirty k = none then w.clock else w.bornAt k) ≤
        if k ∈ keys then w.clock else w.markedAt k
    have hpast := h.past k
    change gen db.dirty k = some g at hg
    rw [hgen] at hg
    by_cases hk : k ∈ keys
    · cases hold : gen w.db.dirty k with
      | none => simp only [hk, and_self, if_true]; omega
      | some g' =>
        have := h.born k g' hold
        simp only [hk, reduceCtorEq, and_false, if_false, if_true]
        omega
    · rw [if_neg hk] at hg
      simp only [hk, false_and, if_false]
      exact h.born k g hg
  · -- a marked key counts up, so it leaves the snapshot's generation behind
    set k := run.key x.1 with hkdef
    have hlisted := h.listed run hrun
    change gen db.dirty k = some g at hg
    change (if k ∈ keys ∧ gen w.db.dirty k = none then w.clock else w.bornAt k) < run.listedAt at hb
    show x.2 ≤ g ∧ (g = x.2 → (if k ∈ keys then w.clock else w.markedAt k) < run.listedAt)
    rw [hgen] at hg
    by_cases hk : k ∈ keys
    · cases hold : gen w.db.dirty k with
      | none =>
        simp only [hk, hold, and_self, if_true] at hb
        omega
      | some g' =>
        simp only [hold, reduceCtorEq, and_false, if_false] at hb
        have := (h.seen run hrun x hx g' hold hb).1
        rw [if_pos hk, hold] at hg
        have : g' + 1 = g := Option.some.inj hg
        refine ⟨by omega, fun e => by omega⟩
    · rw [if_neg hk] at hg
      simp only [hk, false_and, if_false] at hb ⊢
      exact h.seen run hrun x hx g hg hb

theorem WorldInv.list (h : WorldInv w) (ownerId workspace : String) :
    WorldInv (w.list ownerId workspace) := by
  refine ⟨h.keyed, fun k => ?_, fun run hrun => ?_, h.born, fun run hrun x hx g hg hb => ?_⟩
  · have := h.past k
    show w.markedAt k < w.clock + 1
    omega
  · show run.listedAt < w.clock + 1
    rcases List.mem_append.mp hrun with hrun | hrun
    · have := h.listed run hrun
      omega
    · rw [List.mem_singleton.mp hrun]
      exact Nat.lt_succ_self _
  · rcases List.mem_append.mp hrun with hrun | hrun
    · exact h.seen run hrun x hx g hg hb
    · -- the new snapshot holds the present generation
      rw [List.mem_singleton.mp hrun] at hx hg ⊢
      have hx' : gen w.db.dirty ⟨ownerId, workspace, x.1⟩ = some x.2 :=
        (gen_eq_some h.keyed).mpr (mem_listDirty.mp hx)
      have hgx : g = x.2 := Option.some.inj (hg.symm.trans hx')
      exact ⟨hgx.ge, fun _ => h.past _⟩

theorem WorldInv.ack (h : WorldInv w) (i : Nat) (run : Run) (items : List (String × Nat)) :
    WorldInv (w.ack i run items) := by
  have hgen : ∀ k g, gen (acknowledge w.db.dirty run.ownerId run.workspace items) k = some g →
      gen w.db.dirty k = some g := fun k g hg => by
    rw [gen_acknowledge h.keyed, Option.filter_eq_some_iff] at hg
    exact hg.1
  refine ⟨acknowledge_keyed _ _ _ h.keyed, fun k => ?_, fun r hr => ?_, fun k g hg => ?_,
    fun r hr x hx g hg hb => ?_⟩
  · have := h.past k
    show w.markedAt k < w.clock + 1
    omega
  · have := h.listed r hr
    show r.listedAt < w.clock + 1
    omega
  · exact h.born k g (hgen k g hg)
  · exact h.seen r hr x hx g (hgen _ g hg) hb

/-- What one step is, for an invariant to look at. -/
theorem worldStep_cases {op : WorldOp} (h : worldStep w op = some w') : w' = w ∨
    (∃ ownerId workspace sources db, w' = w.mark (markKeys ownerId workspace sources) db ∧
      db.dirty = markAll w.db.dirty (markKeys ownerId workspace sources)) ∨
    (∃ ownerId workspace, w' = w.list ownerId workspace) ∨
    ∃ i items run, op = .acknowledge i items ∧ w.runs[i]? = some run ∧
      (∀ x ∈ items, x ∈ run.generations) ∧ w' = w.ack i run items := by
  cases op with
  | mark ownerId workspace sources jobId now =>
    simp only [worldStep] at h
    split at h
    · rename_i db id hdb
      exact .inr (.inl ⟨ownerId, workspace, sources, db, (Option.some.inj h).symm,
        markAndEnqueue_dirty hdb⟩)
    · exact .inl (Option.some.inj h).symm
  | listDirty ownerId workspace =>
    exact .inr (.inr (.inl ⟨ownerId, workspace, (Option.some.inj h).symm⟩))
  | acknowledge i items =>
    obtain ⟨run, hrun, h⟩ := Option.bind_eq_some_iff.mp h
    split at h
    · rename_i hsub
      exact .inr (.inr (.inr ⟨i, items, run, rfl, hrun, hsub, (Option.some.inj h).symm⟩))
    · cases h

theorem worldInv_reach {ok : World → WorldOp → Prop} (h : Reach dirtyMachine ok w) : WorldInv w := by
  induction h with
  | start h0 =>
    rw [show _ = World.empty from h0]
    exact ⟨.nil, fun _ => Nat.zero_lt_one, fun r hr => absurd hr List.not_mem_nil,
      fun k g hg => (by cases hg), fun r hr => absurd hr List.not_mem_nil⟩
  | step _ _ hst ih =>
    rcases worldStep_cases hst with rfl | ⟨o, ws, sources, db, rfl, hdb⟩ | ⟨o, ws, rfl⟩ |
      ⟨i, items, run, _, _, _, rfl⟩
    · exact ih
    · exact ih.mark (markKeys_nodup o ws sources) hdb
    · exact ih.list o ws
    · exact ih.ack i run items

/-! ## what an acknowledgement deletes -/

/-- It deletes only marks that the run has listed, exactly when it is fresh. -/
theorem ack_fresh_iff (h : WorldInv w) {run : Run} (hrun : run ∈ w.runs)
    {items : List (String × Nat)} (hsub : ∀ x ∈ items, x ∈ run.generations) :
    (∀ m ∈ w.db.dirty, m ∉ acknowledge w.db.dirty run.ownerId run.workspace items →
      w.markedAt m.key < run.listedAt) ↔ Fresh w run items := by
  constructor
  · intro hdel x hx hg
    obtain ⟨m, hm, hk, hgm⟩ := (gen_eq_some h.keyed).mp hg
    have hgone : m ∉ acknowledge w.db.dirty run.ownerId run.workspace items := by
      rw [acknowledge_eq, mem_deleteWhere]
      rintro ⟨_, hma⟩
      have hmatch : matchesAck run.ownerId run.workspace items m = true := decide_eq_true
        ⟨congrArg MarkerKey.ownerId hk, congrArg MarkerKey.workspace hk, by
          have hs : m.sourceNoteId = x.1 := congrArg MarkerKey.sourceNoteId hk
          rw [hs, hgm]
          exact hx⟩
      rw [hmatch] at hma
      cases hma
    have hlt := hdel m hm hgone
    have hborn := (h.born _ _ hg).2
    rw [hk] at hlt
    omega
  · intro hfresh m hm hgone
    have hmatch : matchesAck run.ownerId run.workspace items m = true := by
      by_contra hno
      rw [Bool.not_eq_true] at hno
      exact hgone (by rw [acknowledge_eq, mem_deleteWhere]; exact ⟨hm, hno⟩)
    simp only [matchesAck, decide_eq_true_eq] at hmatch
    obtain ⟨ho, hws, hmem⟩ := hmatch
    have hkey : m.key = run.key m.sourceNoteId := by
      simp only [Marker.key, Run.key, ← ho, ← hws]
    have hg : gen w.db.dirty (run.key m.sourceNoteId) = some m.generation :=
      (gen_eq_some h.keyed).mpr ⟨m, hm, hkey, rfl⟩
    rw [hkey]
    exact (h.seen run hrun _ (hsub _ hmem) _ hg (hfresh _ hmem hg)).2 rfl

end

theorem kept_reach {w : World} (h : Reach dirtyMachine freshAcks w) : Kept w := by
  induction h with
  | start h0 =>
    rw [show _ = World.empty from h0]
    exact fun k hk => absurd hk (Nat.lt_irrefl 0)
  | @step w w' op hreach hok hst ih =>
    have hinv := worldInv_reach hreach
    rcases worldStep_cases hst with rfl | ⟨o, ws, sources, db, rfl, hdb⟩ | ⟨o, ws, rfl⟩ |
      ⟨i, items, run, rfl, hget, hsub, rfl⟩
    · exact ih
    · intro k hk
      change 0 < (if k ∈ markKeys o ws sources then w.clock else w.markedAt k) at hk
      have hgen : gen (markAll w.db.dirty (markKeys o ws sources)) k = _ :=
        gen_markAll _ (markKeys_nodup o ws sources) k
      by_cases hmem : k ∈ markKeys o ws sources
      · refine .inl ?_
        show (gen db.dirty k).isSome
        rw [hdb, hgen, if_pos hmem]
        rfl
      · rw [if_neg hmem] at hk hgen
        rcases ih k hk with hsome | ⟨j, run, hacked, hrun, hlt⟩
        · refine .inl ?_
          show (gen db.dirty k).isSome
          rw [hdb, hgen]
          exact hsome
        · refine .inr ⟨j, run, hacked, hrun, ?_⟩
          show (if k ∈ markKeys o ws sources then w.clock else w.markedAt k) < run.listedAt
          rw [if_neg hmem]
          exact hlt
    · intro k hk
      rcases ih k hk with hsome | ⟨j, run, hacked, hrun, hlt⟩
      · exact .inl hsome
      · refine .inr ⟨j, run, hacked, ?_, hlt⟩
        show (w.runs ++ _)[j]? = some run
        rw [List.getElem?_append_left (List.getElem?_eq_some_iff.mp hrun).1]
        exact hrun
    · intro k hk
      rcases ih k hk with hsome | ⟨j, run', hacked, hrun', hlt⟩
      · obtain ⟨g, hg⟩ := Option.isSome_iff_exists.mp hsome
        have hgen : gen (acknowledge w.db.dirty run.ownerId run.workspace items) k =
            (gen w.db.dirty k).filter fun g => ¬ ∃ x ∈ items, run.key x.1 = k ∧ x.2 = g :=
          gen_acknowledge hinv.keyed run.ownerId run.workspace items k
        by_cases hx : ∃ x ∈ items, run.key x.1 = k ∧ x.2 = g
        · -- the marker is deleted: the run has listed it after its last mark
          obtain ⟨x, hxmem, rfl, rfl⟩ := hx
          have hrun := List.mem_of_getElem? hget
          refine .inr ⟨i, run, List.mem_append_right _ (List.mem_map.mpr ⟨x, hxmem, rfl⟩), hget, ?_⟩
          exact (hinv.seen run hrun x (hsub x hxmem) x.2 hg (hok run hget x hxmem hg)).2 rfl
        · refine .inl ?_
          show (gen (acknowledge w.db.dirty run.ownerId run.workspace items) k).isSome
          rw [hgen, hg, Option.filter_some, if_pos (decide_eq_true hx)]
          rfl
      · exact .inr ⟨j, run', List.mem_append_left _ hacked, hrun', hlt⟩

/-- In every reachable state an acknowledgement of a part of a run's snapshot deletes only markers
that were last raised before the run's `list_dirty`, exactly when it is fresh; and after a run whose
acknowledgements are all fresh, every mark is kept. -/
theorem marks_kept {w : World} (h : Reach dirtyMachine free w) :
    (∀ run ∈ w.runs, ∀ items, (∀ x ∈ items, x ∈ run.generations) →
      ((∀ m ∈ w.db.dirty, m ∉ acknowledge w.db.dirty run.ownerId run.workspace items →
        w.markedAt m.key < run.listedAt) ↔ Fresh w run items)) ∧
    (Reach dirtyMachine freshAcks w → Kept w) :=
  ⟨fun _ hrun _ hsub => ack_fresh_iff (worldInv_reach h) hrun hsub, kept_reach⟩

/-! ### a marker deleted and created anew between snapshot and acknowledgement -/

/-- Two overlapping runs list generation 1; the second acknowledges it; the source is marked again. -/
def abaRun : List WorldOp :=
  [.mark "u1" "work" ["n1"] "j1" 100,
   .listDirty "u1" "work",
   .listDirty "u1" "work",
   .acknowledge 1 [("n1", 1)],
   .mark "u1" "work" ["n1"] "j2" 200]

/-- The first run's acknowledgement deletes the second mark, which no run has listed. -/
theorem marks_kept_aba : ∃ w, dirtyMachine.exec World.empty abaRun = some w ∧
    w.db.dirty = [⟨⟨"u1", "work", "n1"⟩, 1⟩] ∧ ∃ run ∈ w.runs, (("n1", 1) : String × Nat) ∈ run.generations ∧
    run.listedAt < w.markedAt ⟨"u1", "work", "n1"⟩ ∧
    acknowledge w.db.dirty run.ownerId run.workspace [("n1", 1)] = [] := by
  have hview : (dirtyMachine.exec World.empty abaRun).map
      (fun w => (w.db.dirty, w.runs, w.markedAt ⟨"u1", "work", "n1"⟩)) =
      some ([⟨⟨"u1", "work", "n1"⟩, 1⟩],
        [⟨"u1", "work", [("n1", 1)], 2⟩, ⟨"u1", "work", [("n1", 1)], 3⟩], 5) := by decide +kernel
  obtain ⟨w, hw, hv⟩ := Option.map_eq_some_iff.mp hview
  simp only [Prod.mk.injEq] at hv
  obtain ⟨hdirty, hruns, hmarked⟩ := hv
  refine ⟨w, hw, hdirty, ⟨"u1", "work", [("n1", 1)], 2⟩, by rw [hruns]; exact List.mem_cons_self,
    List.mem_cons_self, by rw [hmarked]; decide, ?_⟩
  rw [hdirty]
  decide +kernel

/-- One run alone acknowledges what it listed. -/
theorem marks_kept_single : ∃ w,
    dirtyMachine.exec World.empty (abaRun.take 3 ++ [.acknowledge 0 [("n1", 1)]]) = some w ∧
    Kept w := by
  have hsome : (dirtyMachine.exec World.empty
      (abaRun.take 3 ++ [.acknowledge 0 [("n1", 1)]])).isSome := by decide +kernel
  obtain ⟨w, hw⟩ := Option.isSome_iff_exists.mp hsome
  refine ⟨w, hw, (marks_kept (.of_exec (.start rfl) hw)).2 ?_⟩
  exact .of_guarded (.start rfl) (by decide +kernel) hw

end Kajet.Links
