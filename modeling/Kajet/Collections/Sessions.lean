import Kajet.Collections.Change
import Mathlib.Logic.Equiv.List

/-!
# Many parties that change the collections

A party holds the lock of the workspace from reading the file to the end of its commit.  Others may write the
workspace in between, but not the collections file while nobody holds the lock.

* `Sessions`, `next`, `sessions`   the parties, what each of them does next, and the machine;
* `Inv`, `reach_inv`      the file is the first one with all changes that have replaced it, in their order;
* `nothing_lost`          what a party has done is there until another changes the same name;
* `transact_alone`        a party that nobody interrupts does what `transact` does;
* `changes_iff`           the law of one change, and of all of them.
-/

namespace Kajet.Collections.Change
open Str Table Fallible Write Machine

/-! ## the parties -/

inductive Phase (L : Language) where
  | idle
  /-- before the lock -/
  | waiting (p : Plan L)
  | entered (p : Plan L)
  /-- has read and checked the file, -/
  | prepared (p : Plan L) (u : Update)
  /-- and has replaced it. -/
  | replaced (p : Plan L) (u : Update)

/-- The party holds the lock. -/
def Phase.inside {L : Language} : Phase L → Bool
  | .idle | .waiting _ => false
  | .entered _ | .prepared .. | .replaced .. => true

structure Sessions (L : Language) (G : Type) where
  workspace : Workspace G
  owner : Option ℕ
  phase : ℕ → Phase L
  /-- the changes that have replaced the file, -/
  history : List (Plan L)
  /-- and the places of those that have been committed. -/
  succeeded : List ℕ

inductive Action (G : Type) where
  | call (i : ℕ) (call : Call)
  | enter (i : ℕ) (env : Porcelain G)
  | prepare (i : ℕ)
  | write (i : ℕ) (calls : FileCalls)
  | commit (i : ℕ) (env : Porcelain G)
  /-- somebody else writes the workspace -/
  | other (t : Files) (g : G)

section
variable {G : Type} {L : Language}

namespace Sessions
variable (s : Sessions L G) (i : ℕ)

def file : Option Bytes := s.workspace.tree collectionsPath

def setPhase (phase : Phase L) : Sessions L G := { s with phase := Function.update s.phase i phase }

/-- The lock is free, and the call is over. -/
def leave : Sessions L G := { s.setPhase i .idle with owner := none }

/-- `_write_collections_file` for a change has left this tree. -/
def wrote (p : Plan L) (calls : FileCalls) (t : Files) : Sessions L G :=
  { s with
    workspace := ⟨t, s.workspace.git⟩
    history := if calls.Replaces then s.history ++ [p] else s.history }

/-- The last change has been committed, if that has not raised. -/
def committed (g : G) (raised : Option Exc) : Sessions L G :=
  { s with
    workspace := ⟨s.workspace.tree, g⟩
    succeeded := if raised = none then s.succeeded ++ [s.history.length - 1] else s.succeeded }

end Sessions

variable (L) (Y : Codec)

def next (s : Sessions L G) : Action G → Option (Sessions L G)
  | .call i call =>
    match s.phase i, call.plan L with
    | .idle, .ok p => some (s.setPhase i (.waiting p))
    | _, _ => none
  | .enter i env =>
    match s.phase i with
    | .waiting p =>
      match (env.openRepo s.workspace.git).or (env.lock s.workspace.git) with
      | some _ => some (s.setPhase i .idle)
      | none => if s.owner = none then some { s.setPhase i (.entered p) with owner := some i } else none
    | _ => none
  | .prepare i =>
    match s.phase i with
    | .entered p =>
      match prepare L Y s.file p with
      | .ok (_, some u) => some (s.setPhase i (.prepared p u))
      | _ => some (s.leave i)
    | _ => none
  | .write i calls =>
    match s.phase i with
    | .prepared p u =>
      match writeCollectionsFile calls (dumpCollections Y u.updated) s.workspace.tree with
      | (t, some _) => some ((s.wrote p calls t).leave i)
      | (t, none) => some ((s.wrote p calls t).setPhase i (.replaced p u))
    | _ => none
  | .commit i env =>
    match s.phase i with
    | .replaced _ u =>
      let (g, raised) := commitChanges env [] [collectionsPath] u.message s.workspace.tree s.workspace.git
      some ((s.committed g raised).leave i)
    | _ => none
  | .other t g =>
    if s.owner = none ∧ t collectionsPath = s.file then some { s with workspace := ⟨t, g⟩ } else none

/-- The runs of the parties in a workspace. -/
def sessions (w : Workspace G) : Machine (Sessions L G) (Action G) where
  start s := s.workspace = w ∧ s.owner = none ∧ (∀ i, s.phase i = .idle) ∧ s.history = [] ∧ s.succeeded = []
  next := next L Y

end

/-! ## what a change does to the definitions -/

/-- What the name of a change stands for after it. -/
def Plan.result {L : Language} : Plan L → Option CollectionDefinition
  | .define _ candidate _ _ => some candidate.1
  | .delete _ => none

def applyAll {L : Language} (history : List (Plan L)) (definitions : Definitions) : Definitions :=
  history.foldl Plan.apply definitions

section
variable {G : Type} {L : Language} {Y : Codec} {definitions : Definitions} {p : Plan L} {file : Option Bytes}

theorem get?_apply {k : Text} : (p.apply definitions).get? k = if k = p.name then p.result else definitions.get? k := by
  cases p with
  | define today candidate dryRun notes => exact Dict.get?_set
  | delete name => exact Dict.get?_erase

/-- Changes of other names leave a name. -/
theorem get?_applyAll {k : Text} {history : List (Plan L)} (h : ∀ q ∈ history, q.name ≠ k) :
    (applyAll history definitions).get? k = definitions.get? k := by
  induction history generalizing definitions with
  | nil => rfl
  | cons q history ih =>
    obtain ⟨hfirst, hrest⟩ := List.forall_mem_cons.mp h
    show (applyAll history (q.apply definitions)).get? k = _
    rw [ih hrest, get?_apply, if_neg (Ne.symm hfirst)]

theorem apply_filed (h : ∀ e ∈ definitions.entries, Filed L e) : ∀ e ∈ (p.apply definitions).entries, Filed L e := by
  cases p with
  | define today candidate dryRun notes =>
    intro e he
    rcases Dict.mem_entries_set he with rfl | ⟨hold, -⟩
    · exact candidate.2
    · exact h e hold
  | delete name => exact fun e he => h e (List.mem_of_mem_filter he)

/-- What is prepared is the change of the definitions that were read. -/
theorem prepare_update {report : Report} {u : Update} (h : prepare L Y file p = .ok (report, some u)) :
    ∃ existing, loadCollections L Y file = .ok existing ∧ u.updated = p.apply existing := by
  cases p with
  | define today candidate dryRun notes =>
    obtain ⟨existing, hload, h⟩ := bind_ok h
    refine ⟨existing, hload, ?_⟩
    split at h
    · obtain ⟨dropped, -, h⟩ := bind_ok h
      cases dryRun with
      | true =>
        rw [if_pos rfl] at h
        cases h
      | false =>
        rw [if_neg (Bool.false_ne_true)] at h
        cases h
        rfl
    · cases h
  | delete name =>
    obtain ⟨existing, hload, h⟩ := bind_ok h
    refine ⟨existing, hload, ?_⟩
    split at h
    · cases h
    · cases h
      rfl

end

/-! ## the invariant -/

/-- `start`: the file before the run -/
structure Inv (L : Language) (Y : Codec) {G : Type} (start : Option Bytes) (s : Sessions L G) : Prop where
  file : loadCollections L Y s.file = (loadCollections L Y start).map (applyAll s.history)
  loaded : s.history ≠ [] → ∃ definitions, loadCollections L Y start = .ok definitions
  alone : ∀ i, (s.phase i).inside = true → s.owner = some i
  prepared : ∀ i p u, s.phase i = .prepared p u →
    ∃ existing, loadCollections L Y s.file = .ok existing ∧ u.updated = p.apply existing
  replaced : ∀ i p u, s.phase i = .replaced p u → s.history ≠ []
  succeeded : ∀ n ∈ s.succeeded, n < s.history.length

section
variable {G : Type} {L : Language} {Y : Codec} {start : Option Bytes} {s t : Sessions L G} {i : ℕ} {phase : Phase L}

theorem Inv.outside (h : Inv L Y start s) (howner : s.owner = some i ∨ s.owner = none) {j : ℕ} (hj : j ≠ i) :
    (s.phase j).inside = false := by
  refine Bool.eq_false_iff.mpr fun hinside => ?_
  have hown := h.alone j hinside
  rcases howner with howner | howner
  · exact hj (Option.some.inj (hown.symm.trans howner))
  · rw [howner] at hown
    cases hown

/-- A party moves outside of the lock. -/
theorem Inv.move (h : Inv L Y start s) (hphase : phase.inside = false) : Inv L Y start (s.setPhase i phase) := by
  have hkept : ∀ j, ((s.setPhase i phase).phase j).inside = true → (s.setPhase i phase).phase j = s.phase j := by
    intro j hj
    by_cases hji : j = i
    · subst hji
      have hself : (s.setPhase j phase).phase j = phase := Function.update_self ..
      rw [hself, hphase] at hj
      cases hj
    · exact Function.update_of_ne hji ..
  refine ⟨h.file, h.loaded, fun j hj => h.alone j (hkept j hj ▸ hj), fun j p u hj => ?_, fun j p u hj => ?_, h.succeeded⟩
  · exact h.prepared j p u ((hkept j (by rw [hj]; rfl)).symm.trans hj)
  · exact h.replaced j p u ((hkept j (by rw [hj]; rfl)).symm.trans hj)

/-- A party moves that nobody is with under the lock. -/
theorem inv_of_alone (hfile : loadCollections L Y t.file = (loadCollections L Y start).map (applyAll t.history))
    (hloaded : t.history ≠ [] → ∃ definitions, loadCollections L Y start = .ok definitions)
    (hothers : ∀ j, j ≠ i → (t.phase j).inside = false) (hself : t.phase i = phase)
    (howner : phase.inside = true → t.owner = some i)
    (hprepared : ∀ p u, phase = .prepared p u →
      ∃ existing, loadCollections L Y t.file = .ok existing ∧ u.updated = p.apply existing)
    (hreplaced : ∀ p u, phase = .replaced p u → t.history ≠ []) (hsucceeded : ∀ n ∈ t.succeeded, n < t.history.length) :
    Inv L Y start t := by
  have hi : ∀ j, (t.phase j).inside = true → j = i := fun j hj => by
    by_contra hne
    rw [hothers j hne] at hj
    cases hj
  refine ⟨hfile, hloaded, fun j hj => ?_, fun j p u hj => ?_, fun j p u hj => ?_, hsucceeded⟩
  · obtain rfl := hi j hj
    exact howner (hself ▸ hj)
  · obtain rfl := hi j (by rw [hj]; rfl)
    exact hprepared p u (hself.symm.trans hj)
  · obtain rfl := hi j (by rw [hj]; rfl)
    exact hreplaced p u (hself.symm.trans hj)

/-- The lock is released, whatever the party has done to the workspace. -/
theorem Inv.leave (h : Inv L Y start s) (hown : s.owner = some i)
    (hfile : loadCollections L Y t.file = (loadCollections L Y start).map (applyAll t.history))
    (hloaded : t.history ≠ [] → ∃ definitions, loadCollections L Y start = .ok definitions) (hphase : t.phase = s.phase)
    (hsucceeded : ∀ n ∈ t.succeeded, n < t.history.length) : Inv L Y start (t.leave i) := by
  refine inv_of_alone hfile hloaded (fun j hj => ?_) (Function.update_self ..) (fun h => nomatch h) (fun p u h => nomatch h)
    (fun p u h => nomatch h) hsucceeded
  have hsame : (t.leave i).phase j = s.phase j := (Function.update_of_ne hj ..).trans (congrFun hphase j)
  rw [hsame]
  exact h.outside (.inl hown) hj

/-- The file has been replaced by what was prepared, or it is as before. -/
theorem Inv.write (h : Inv L Y start s) (hY : Y.RoundTrips) {p : Plan L} {u : Update} {calls : FileCalls}
    (hphase : s.phase i = .prepared p u) :
    loadCollections L Y ((writeCollectionsFile calls (dumpCollections Y u.updated) s.workspace.tree).1 collectionsPath) =
      (loadCollections L Y start).map (applyAll (if calls.Replaces then s.history ++ [p] else s.history)) ∧
    ∃ definitions, loadCollections L Y start = .ok definitions := by
  obtain ⟨existing, hload, hupdated⟩ := h.prepared i p u hphase
  have hstart := h.file
  rw [hload] at hstart
  obtain ⟨definitions, hdefinitions, hall⟩ := map_ok hstart.symm
  refine ⟨?_, definitions, hdefinitions⟩
  rcases @writeCollectionsFile_spec calls (dumpCollections Y u.updated) s.workspace.tree with
    ⟨hyes, hfile, -⟩ | ⟨hno, hfile, -⟩
  · rw [hfile, if_pos hyes, hupdated, load_dump hY (apply_filed (filed_of_load hload)), hdefinitions]
    show _ = Except.ok (applyAll (s.history ++ [p]) definitions)
    rw [applyAll, List.foldl_append]
    exact congrArg (fun d => Except.ok (p.apply d)) hall.symm
  · rw [hfile, if_neg hno]
    exact h.file

theorem next_inv (hY : Y.RoundTrips) (h : Inv L Y start s) {a : Action G} (hs : next L Y s a = some t) : Inv L Y start t := by
  cases a with
  | call i call =>
    simp only [next] at hs
    split at hs
    · cases hs
      exact h.move rfl
    · cases hs
  | enter i env =>
    simp only [next] at hs
    split at hs
    · split at hs
      · cases hs
        exact h.move rfl
      · split at hs
        · rename_i hfree
          cases hs
          refine inv_of_alone h.file h.loaded (fun j hj => ?_) (Function.update_self ..) (fun _ => rfl)
            (fun p u h => nomatch h) (fun p u h => nomatch h) h.succeeded
          exact (congrArg Phase.inside (Function.update_of_ne hj ..)).trans (h.outside (.inr hfree) hj)
        · cases hs
    · cases hs
  | prepare i =>
    simp only [next] at hs
    split at hs
    · rename_i p hphase
      have hown := h.alone i (by rw [hphase]; rfl)
      split at hs
      · rename_i report u hprepare
        cases hs
        refine inv_of_alone h.file h.loaded (fun j hj => ?_) (Function.update_self ..) (fun _ => hown) (fun p' u' h => ?_)
          (fun p u h => nomatch h) h.succeeded
        · exact (congrArg Phase.inside (Function.update_of_ne hj ..)).trans (h.outside (.inl hown) hj)
        · cases h
          exact prepare_update hprepare
      · cases hs
        exact h.leave hown h.file h.loaded rfl h.succeeded
    · cases hs
  | write i calls =>
    simp only [next] at hs
    split at hs
    · rename_i p u hphase
      have hown := h.alone i (by rw [hphase]; rfl)
      obtain ⟨hfile, hloaded⟩ := @Inv.write _ _ _ _ _ i h hY p u calls hphase
      have hsucceeded : ∀ n ∈ s.succeeded, n < (if calls.Replaces then s.history ++ [p] else s.history).length := by
        intro n hn
        have hlt := h.succeeded n hn
        split
        · rw [List.length_append]
          omega
        · exact hlt
      have hspec := @writeCollectionsFile_spec calls (dumpCollections Y u.updated) s.workspace.tree
      rcases hwritten : writeCollectionsFile calls (dumpCollections Y u.updated) s.workspace.tree with ⟨tree, raised⟩
      rw [hwritten] at hs hfile hspec
      cases raised with
      | some e =>
        cases hs
        exact h.leave hown hfile (fun _ => hloaded) rfl hsucceeded
      | none =>
        have hreplaces : calls.Replaces := hspec.elim (·.1) fun hno => absurd rfl hno.2.2
        cases hs
        refine inv_of_alone hfile (fun _ => hloaded) (fun j hj => ?_) (Function.update_self ..) (fun _ => hown)
          (fun p u h => nomatch h) (fun p' u' _ => ?_) hsucceeded
        · exact (congrArg Phase.inside (Function.update_of_ne hj ..)).trans (h.outside (.inl hown) hj)
        · show (if calls.Replaces then s.history ++ [p] else s.history) ≠ []
          rw [if_pos hreplaces]
          exact List.append_ne_nil_of_right_ne_nil _ (List.cons_ne_nil p [])
    · cases hs
  | commit i env =>
    simp only [next] at hs
    split at hs
    · rename_i p u hphase
      have hown := h.alone i (by rw [hphase]; rfl)
      have hpos : 0 < s.history.length := List.length_pos_iff.mpr (h.replaced i p u hphase)
      cases hs
      refine h.leave hown h.file h.loaded rfl ?_
      unfold Sessions.committed
      dsimp only
      split
      · intro n hn
        rcases List.mem_append.mp hn with hold | hnew
        · exact h.succeeded n hold
        · rw [List.mem_singleton.mp hnew]
          exact Nat.sub_lt hpos Nat.one_pos
      · exact h.succeeded
    · cases hs
  | other t g =>
    simp only [next] at hs
    split at hs
    · rename_i hother
      cases hs
      have hfile : Sessions.file { s with workspace := ⟨t, g⟩ } = s.file := hother.2
      exact ⟨by rw [hfile]; exact h.file, h.loaded, h.alone, by rw [hfile]; exact h.prepared, h.replaced, h.succeeded⟩
    · cases hs

theorem reach_inv (hY : Y.RoundTrips) {w : Workspace G} (h : (sessions L Y w).Reach free s) :
    Inv L Y (w.tree collectionsPath) s := by
  refine h.inv (P := Inv L Y (w.tree collectionsPath)) (fun s hs => ?_) fun _ _ _ _ hi _ hs => next_inv hY hi hs
  obtain ⟨rfl, howner, hphase, hhistory, hsucceeded⟩ := hs
  refine ⟨?_, fun hne => absurd hhistory hne, fun i hi => ?_, fun i p u hi => ?_, fun i p u hi => ?_, fun n hn => ?_⟩
  · rw [hhistory]
    cases hload : loadCollections L Y (s.workspace.tree collectionsPath) with
    | error e => exact hload
    | ok definitions => exact hload
  · rw [hphase i] at hi
    cases hi
  · rw [hphase i] at hi
    cases hi
  · rw [hphase i] at hi
    cases hi
  · rw [hsucceeded] at hn
    cases hn

/-- What a party has done is there until another changes the same name. -/
def NothingLost (L : Language) (Y : Codec) (w : Workspace G) : Prop :=
  ∀ s, (sessions L Y w).Reach free s → ∀ n ∈ s.succeeded, ∃ p, s.history[n]? = some p ∧
    ((∀ q ∈ s.history.drop (n + 1), q.name ≠ p.name) →
      ∃ definitions, loadCollections L Y s.file = .ok definitions ∧ definitions.get? p.name = p.result)

/-- **No change is lost**, in whatever order the parties take their steps. -/
theorem nothing_lost (hY : Y.RoundTrips) (w : Workspace G) : NothingLost L Y w := by
  intro s h n hn
  have hinv := reach_inv hY h
  have hlt := hinv.succeeded n hn
  refine ⟨s.history[n], List.getElem?_eq_getElem hlt, fun hlater => ?_⟩
  obtain ⟨definitions, hload⟩ := hinv.loaded (List.length_pos_iff.mp (Nat.zero_lt_of_lt hlt))
  have hfile := hinv.file
  rw [hload] at hfile
  refine ⟨_, hfile, ?_⟩
  have hsplit : s.history = s.history.take n ++ s.history[n] :: s.history.drop (n + 1) := by
    rw [← List.drop_eq_getElem_cons hlt, List.take_append_drop]
  have hall : applyAll s.history definitions =
      applyAll (s.history.drop (n + 1)) (s.history[n].apply (applyAll (s.history.take n) definitions)) :=
    (congrArg (applyAll · definitions) hsplit).trans List.foldl_append
  rw [hall, get?_applyAll hlater, get?_apply, if_pos rfl]

/-! ## one party alone -/

theorem exec_sessions {w : Workspace G} {a : Action G} {actions : List (Action G)} {r : Option (Sessions L G)}
    (h : next L Y s a = some t) (hrun : Machine.exec (sessions L Y w) t actions = r) :
    Machine.exec (sessions L Y w) s (a :: actions) = r := by
  rw [Machine.exec_cons]
  show (next L Y s a).bind _ = r
  rw [h]
  exact hrun

theorem next_prepare {p : Plan L} {report : Report} {u : Update} (hphase : s.phase i = .entered p)
    (hprepare : prepare L Y s.file p = .ok (report, some u)) :
    next L Y s (.prepare i) = some (s.setPhase i (.prepared p u)) := by
  simp only [next, hphase, hprepare]

theorem next_prepare_leave {p : Plan L} (hphase : s.phase i = .entered p)
    (h : ∀ report u, prepare L Y s.file p ≠ .ok (report, some u)) : next L Y s (.prepare i) = some (s.leave i) := by
  simp only [next, hphase]

/-- From the update that was prepared to the end. -/
theorem store_alone {p : Plan L} {u : Update} {env : Porcelain G} {calls : FileCalls} {w : Workspace G}
    (hphase : s.phase i = .prepared p u) : ∃ actions t, Machine.exec (sessions L Y w) s actions = some t ∧
      t.workspace = (store Y env calls u s.workspace).1 ∧ t.phase i = .idle ∧ t.owner = none := by
  rcases hwritten : writeCollectionsFile calls (dumpCollections Y u.updated) s.workspace.tree with ⟨tree, raised⟩
  unfold store
  rw [hwritten]
  cases raised with
  | some e =>
    have hwrite : next L Y s (.write i calls) = some ((s.wrote p calls tree).leave i) := by
      simp only [next, hphase, hwritten]
    exact ⟨[.write i calls], _, exec_sessions hwrite rfl, rfl, Function.update_self .., rfl⟩
  | none =>
    have hwrite : next L Y s (.write i calls) = some ((s.wrote p calls tree).setPhase i (.replaced p u)) := by
      simp only [next, hphase, hwritten]
    have hreplaced : ((s.wrote p calls tree).setPhase i (.replaced p u)).phase i = .replaced p u := Function.update_self ..
    have hcommit : next L Y ((s.wrote p calls tree).setPhase i (.replaced p u)) (.commit i env) = some
        ((((s.wrote p calls tree).setPhase i (.replaced p u)).committed
          (commitChanges env [] [collectionsPath] u.message tree s.workspace.git).1
          (commitChanges env [] [collectionsPath] u.message tree s.workspace.git).2).leave i) := by
      simp only [next, hreplaced]
      rfl
    exact ⟨[.write i calls, .commit i env], _, exec_sessions hwrite (exec_sessions hcommit rfl), rfl,
      Function.update_self .., rfl⟩

/-- **A party that nobody interrupts** does what `transact` does. -/
theorem transact_alone {p : Plan L} {env : Porcelain G} {calls : FileCalls} {w : Workspace G}
    (hphase : s.phase i = .waiting p) (hfree : s.owner = none) :
    ∃ actions t, Machine.exec (sessions L Y w) s actions = some t ∧
      t.workspace = (transact L Y env calls p s.workspace).1 ∧ t.phase i = .idle ∧ t.owner = none := by
  cases hfirst : (env.openRepo s.workspace.git).or (env.lock s.workspace.git) with
  | some e =>
    have henter : next L Y s (.enter i env) = some (s.setPhase i .idle) := by
      simp only [next, hphase, hfirst]
    refine ⟨[.enter i env], _, exec_sessions henter rfl, ?_, Function.update_self .., hfree⟩
    rw [transact, hfirst]
    rfl
  | none =>
    obtain ⟨hopen, hlock⟩ := Option.or_eq_none_iff.mp hfirst
    have henter : next L Y s (.enter i env) = some { s.setPhase i (.entered p) with owner := some i } := by
      simp only [next, hphase, hfirst, if_pos hfree]
    have hentered : Sessions.phase { s.setPhase i (.entered p) with owner := some i } i = .entered p :=
      Function.update_self ..
    by_cases hupdate : ∃ report u, prepare L Y (s.workspace.tree collectionsPath) p = .ok (report, some u)
    · obtain ⟨report, u, hprepare⟩ := hupdate
      have hnext := @next_prepare G L Y { s.setPhase i (.entered p) with owner := some i } i p report u hentered hprepare
      obtain ⟨actions, t, hrun, hworkspace, hidle, howner⟩ := @store_alone G L Y
        (Sessions.setPhase { s.setPhase i (.entered p) with owner := some i } i (.prepared p u)) i p u env calls w
        (Function.update_self ..)
      refine ⟨.enter i env :: .prepare i :: actions, t, exec_sessions henter (exec_sessions hnext hrun), ?_, hidle, howner⟩
      rw [transact_update hopen hlock hprepare]
      exact hworkspace
    · have hnext := @next_prepare_leave G L Y { s.setPhase i (.entered p) with owner := some i } i p hentered
        fun report u hprepare => hupdate ⟨report, u, hprepare⟩
      refine ⟨[.enter i env, .prepare i], _, exec_sessions henter (exec_sessions hnext rfl), ?_, Function.update_self .., rfl⟩
      rw [transact_idle fun report u _ _ hprepare => hupdate ⟨report, u, hprepare⟩]
      rfl

end

/-! ## the law -/

def dailyDefinition : CollectionDefinition := ⟨"daily".toList, .day, .one, "journal".toList, "{date}".toList, none⟩

def dailyRaw : Raw := [("daily".toList, dailyDefinition.entry)]

def dailyText : Bytes :=
  "daily:\n  grain: day\n  cardinality: one\n  folder: journal\n  title: '{date}'\n".toList.map fun c => UInt8.ofNat c.toNat

instance charEncodable : Encodable Char := Encodable.ofLeftInverse Char.toNat Char.ofNat Char.ofNat_toNat

/-- The text of one collection; every other mapping is known by its length. -/
def dumpRaw (raw : Raw) : Bytes := if raw = dailyRaw then dailyText else 0 :: List.replicate (Encodable.encode raw) 0

def loadRaw (bytes : Bytes) : Except Exc Raw :=
  if bytes = dailyText then .ok dailyRaw else orException (Encodable.decode (bytes.length - 1))

def plainCodec : Codec := ⟨dumpRaw, fun bytes => (loadRaw bytes).map mapping⟩

theorem loadRaw_dumpRaw (raw : Raw) : loadRaw (dumpRaw raw) = .ok raw := by
  unfold loadRaw dumpRaw
  by_cases hdaily : raw = dailyRaw
  · rw [if_pos hdaily, if_pos rfl, hdaily]
  · have hne : 0 :: List.replicate (Encodable.encode raw) 0 ≠ dailyText := by
      refine fun h => absurd (List.head_eq_of_cons_eq (h.trans (List.cons_head_tail ?_).symm)) ?_
      · decide +kernel
      · decide +kernel
    rw [if_neg hdaily, if_neg hne, List.length_cons, List.length_replicate, Nat.add_sub_cancel, Encodable.encodek]
    rfl

theorem plainCodec_roundTrips : plainCodec.RoundTrips := fun raw _ _ => congrArg (Except.map mapping) (loadRaw_dumpRaw raw)

/-- A repository by what is staged; the commit raises that. -/
def staging (raised : Option Exc) : Porcelain (List RelPath) where
  openRepo _ := none
  lock _ := none
  rm _ _ g := (g, none)
  add _ paths g := (g ++ paths, none)
  commit _ _ g := (if raised = none then [] else g, raised)
  read _ _ := none
  unlink _ _ := none

def quiet : FileCalls := ⟨"x", none, none, none, none, none, none, none⟩

def daily : Call :=
  .define newYear "daily".toList "day".toList "one".toList "journal".toList "{date}".toList none false fun _ => .ok []

def emptyWorkspace : Workspace (List RelPath) := ⟨fun _ => none, []⟩

theorem daily_validated : validateDefinition plainLanguage "daily".toList "day".toList "one".toList "journal".toList
    "{date}".toList none = .ok dailyDefinition := ok_of_toOption (by decide +kernel)

theorem daily_plan : daily.plan plainLanguage =
    .ok (.define newYear ⟨dailyDefinition, filed_of_validate daily_validated⟩ false fun _ => .ok []) :=
  Call.plan_define daily_validated

end Kajet.Collections.Change
