import Kajet.Lib.Rank
import Kajet.Lib.Str
import Kajet.Profiles.Store

/-!
# Requests for embeddings

The inputs go out in batches, cut to a length the endpoint takes; the items of an answer come in any order, with
the index of their input.

* `EmbedderConfig`, `resolveBackend`   what a profile resolves to;
* `answer`, `Ordered`                  what the endpoint returns;
* `embed`, `embedDocuments`            the requests;
* `embedDocuments_eq`                  every text gets its own vector.
-/

namespace Kajet.Embedding
open Str Rank

structure EmbedderConfig where
  backendId : String
  model : String
  /-- zero while it is unknown -/
  dim : ℕ
  baseUrl : String
  passagePrefix : Text
  profileId : Option String
deriving DecidableEq

/-- `ProfileResolver.resolve_backend` of the active profile. -/
def resolveBackend (p : Profiles.Profile) : EmbedderConfig where
  backendId := p.baseUrl
  model := p.model
  dim := p.dim
  baseUrl := p.baseUrl
  passagePrefix := []
  profileId := some p.id

/-- An element of `data`. -/
structure Item (ν : Type) where
  index : ℕ
  embedding : List ν

section
variable {ν : Type} (e : String → String → Text → List ν)

/-- The answer to one request, with its items in some order. -/
def answer (baseUrl model : String) (batch : List Text) (order : List ℕ) : List (Item ν) :=
  order.filterMap fun i => batch[i]?.map fun text => ⟨i, e baseUrl model text⟩

/-- The vectors of an answer; `none` is a vector of another dimension. -/
def readBatch (cfg : EmbedderConfig) (data : List (Item ν)) : Option (List (List ν)) :=
  (ranked (·.index) data).mapM fun item =>
    if 0 < cfg.dim ∧ item.embedding.length ≠ cfg.dim then none else some item.embedding

/-- The inputs from `start` on, at most 100 of them. -/
def slice (inputs : List Text) (start : ℕ) : List Text := (inputs.drop start).take 100

/-- The inputs of the requests. -/
def batches (inputs : List Text) : List (List Text) :=
  (List.range ((inputs.length + 99) / 100)).map fun k => (slice inputs (k * 100)).map (·.take 8000)

def embed (cfg : EmbedderConfig) (inputs : List Text) (orders : List (List ℕ)) : Option (List (List ν)) := do
  let vectors ← ((batches inputs).zip orders).mapM fun x => readBatch cfg (answer e cfg.baseUrl cfg.model x.1 x.2)
  some vectors.flatten

def embedDocuments (cfg : EmbedderConfig) (texts : List Text) (orders : List (List ℕ)) : Option (List (List ν)) :=
  embed e cfg (texts.map (cfg.passagePrefix ++ ·)) orders

end

/-- Every request has an answer with one item for each input. -/
def Ordered (cfg : EmbedderConfig) (texts : List Text) (orders : List (List ℕ)) : Prop :=
  List.Forall₂ (fun batch order => order.Perm (List.range batch.length)) (batches (texts.map (cfg.passagePrefix ++ ·)))
    orders

instance (cfg : EmbedderConfig) (texts : List Text) (orders : List (List ℕ)) : Decidable (Ordered cfg texts orders) :=
  inferInstanceAs (Decidable (List.Forall₂ _ _ _))

section
variable {ν : Type} {e : String → String → Text → List ν} {cfg : EmbedderConfig} {baseUrl model : String}
  {batch texts inputs : List Text} {order : List ℕ} {orders : List (List ℕ)} {vectors : List (List ν)}

/-- Slices of one length, one after the other, are the list. -/
theorem flatten_slices {α : Type*} (l : List α) (b m : ℕ) :
    ((List.range m).map fun k => (l.drop (k * b)).take b).flatten = l.take (m * b) := by
  induction m with
  | zero => rw [Nat.zero_mul, List.take_zero]; rfl
  | succ m ih =>
    rw [List.range_succ, List.map_append, List.flatten_append, ih, Nat.succ_mul, List.take_add]
    simp

theorem flatten_batches : (batches inputs).flatten = inputs.map (·.take 8000) := by
  have hmap : batches inputs =
      ((List.range ((inputs.length + 99) / 100)).map fun k => (inputs.drop (k * 100)).take 100).map
        (List.map (·.take 8000)) := by
    rw [batches, List.map_map]
    rfl
  rw [hmap, ← List.map_flatten, flatten_slices, List.take_of_length_le (by omega)]

theorem filterMap_range {α β : Type*} (g : ℕ → α → β) (l : List α) :
    ((List.range l.length).filterMap fun i => l[i]?.map (g i)) = l.zipIdx.map fun x => g x.2 x.1 := by
  induction l using List.reverseRecOn with
  | nil => rfl
  | append_singleton l x ih =>
    have hlt : ∀ i ∈ List.range l.length, (l ++ [x])[i]?.map (g i) = l[i]?.map (g i) := fun i hi => by
      rw [List.getElem?_append_left (List.mem_range.mp hi)]
    rw [List.length_append, List.length_singleton, List.range_succ, List.filterMap_append, List.filterMap_congr hlt, ih,
      List.zipIdx_append, List.map_append]
    simp

/-- Sorting an answer by the index puts the items in the order of the inputs. -/
theorem ranked_answer (h : order.Perm (List.range batch.length)) :
    (ranked (·.index) (answer e baseUrl model batch order)).map (·.embedding) = batch.map (e baseUrl model) := by
  have hperm : (answer e baseUrl model batch order).Perm
      (batch.zipIdx.map fun x => ⟨x.2, e baseUrl model x.1⟩) := by
    rw [← filterMap_range fun i text => (⟨i, e baseUrl model text⟩ : Item ν)]
    exact h.filterMap _
  have hsorted : (batch.zipIdx.map fun x => (⟨x.2, e baseUrl model x.1⟩ : Item ν)).Pairwise
      fun a b => a.index < b.index := by
    refine List.pairwise_map.mpr (List.pairwise_map.mp ?_)
    rw [List.zipIdx_map_snd]
    exact List.pairwise_lt_range'
  rw [ranked_eq_of_perm hperm hsorted, List.map_map]
  conv_rhs => rw [← List.zipIdx_map_fst 0 batch, List.map_map]
  rfl

theorem readBatch_eq (h : order.Perm (List.range batch.length))
    (hok : readBatch cfg (answer e baseUrl model batch order) = some vectors) : vectors = batch.map (e baseUrl model) := by
  have hread : ∀ {items : List (Item ν)} {vs}, items.mapM (fun item =>
      if 0 < cfg.dim ∧ item.embedding.length ≠ cfg.dim then none else some item.embedding) = some vs →
      vs = items.map (·.embedding) := by
    intro items
    induction items with
    | nil =>
      intro vs hvs
      exact (Option.some.inj hvs).symm
    | cons item items ih =>
      intro vs hvs
      rw [List.mapM_cons] at hvs
      obtain ⟨v, hv, hvs⟩ := Option.bind_eq_some_iff.mp hvs
      obtain ⟨rest, hrest, hvs⟩ := Option.bind_eq_some_iff.mp hvs
      obtain rfl := Option.some.inj hvs
      split at hv
      · cases hv
      · rw [← Option.some.inj hv, ih hrest, List.map_cons]
  rw [hread hok, ranked_answer h]

/-- **The vectors** are those of the texts, in their order. -/
theorem embedDocuments_eq (h : Ordered cfg texts orders) (hok : embedDocuments e cfg texts orders = some vectors) :
    vectors = texts.map fun text => e cfg.baseUrl cfg.model ((cfg.passagePrefix ++ text).take 8000) := by
  obtain ⟨vss, hvss, hflat⟩ := Option.bind_eq_some_iff.mp hok
  obtain rfl := Option.some.inj hflat
  have hall : ∀ {bs : List (List Text)} {os vss}, List.Forall₂ (fun batch order => order.Perm (List.range batch.length))
      bs os → (bs.zip os).mapM (fun x => readBatch cfg (answer e cfg.baseUrl cfg.model x.1 x.2)) = some vss →
      vss = bs.map (List.map (e cfg.baseUrl cfg.model)) := by
    intro bs os vss hforall
    induction hforall generalizing vss with
    | nil => exact fun hvss => (Option.some.inj hvss).symm
    | cons hone _ ih =>
      intro hvss
      rw [List.zip_cons_cons, List.mapM_cons] at hvss
      obtain ⟨v, hv, hvss⟩ := Option.bind_eq_some_iff.mp hvss
      obtain ⟨rest, hrest, hvss⟩ := Option.bind_eq_some_iff.mp hvss
      obtain rfl := Option.some.inj hvss
      rw [readBatch_eq hone hv, ih hrest, List.map_cons]
  rw [hall h hvss, ← List.map_flatten, flatten_batches, List.map_map, List.map_map]
  rfl

end
end Kajet.Embedding
