import Kajet.Chunks.Effect

/-!
# What an indexed note has, and when

Every note is covered: its stored chunks are those of its file, or it has never been chunked, or a
deferred call, a queued job or a running handler that will write for its present generation is still
there.

* `Seen.Valid`        what has been read of a note;
* `Covered`, `WorldInv`   the invariant, up to the notes that an operation has still to cover;
* `index_fresh`       the runs whose failing enqueues spare the notes that need them;
* `index_stale`       the run in which `edit_many` cannot enqueue.
-/

namespace Kajet.Chunks
open Table Machine Db

/-! ## what is known of a note -/

/-- A generation with what was read under it. -/
structure Seen where
  noteId : String
  generation : ℕ
  title : String
  content : Option String

def Running.seen : Running → Option Seen
  | .started _ => none
  | .row noteId generation title => some ⟨noteId, generation, title, none⟩
  | .file noteId generation title content => some ⟨noteId, generation, title, some content⟩

def Deferred.seen : Deferred → Option Seen
  | .indexNote noteId title content generation => some ⟨noteId, generation, title, some content⟩
  | .indexMany _ => none

/-- The handler will write for the note as it is now. -/
def Running.serves (r : Running) (n : Note) : Prop :=
  r.noteId = n.id ∧ ∀ x ∈ r.seen, x.generation = n.indexGeneration

def Deferred.serves (call : Deferred) (n : Note) : Prop :=
  n.id ∈ call.noteIds ∧ ∀ x ∈ call.seen, x.generation = n.indexGeneration

/-- What was read is not of a later generation, and that of the current one is still so. -/
def Seen.Agrees (x : Seen) (n : Note) (d : Doc) : Prop :=
  x.noteId = n.id → d.content.isSome = true → x.generation ≤ n.indexGeneration ∧
    (x.generation = n.indexGeneration → x.title = d.title ∧ ∀ content ∈ x.content, d.content = some content)

section
variable {ν : Type}

/-- The note was there when it was read, with a file if one was read. -/
structure Seen.Valid (x : Seen) (w : World ν) : Prop where
  known : ∃ d ∈ w.docs, d.noteId = x.noteId ∧ (x.content.isSome = true → d.content.isSome = true)
  agrees : ∀ n ∈ w.store.db.notes, ∀ d ∈ w.docs, d.noteId = n.id → x.Agrees n d

def World.seen (w : World ν) : List Seen := w.running.filterMap Running.seen ++ w.deferred.filterMap Deferred.seen

variable (chunkMarkdown : String → String → List Chunk)

def Covered (w : World ν) (n : Note) : Prop :=
  Fresh chunkMarkdown w n.id ∨ Blank w n.id ∨ n.id ∈ w.reindex ∨ (∃ r ∈ w.running, r.serves n) ∨
    ∃ call ∈ w.deferred, call.serves n

/-- `E`: the notes that are still to be covered. -/
structure WorldInv (E : Note → Prop) (w : World ν) : Prop where
  notes : Keyed Note.id w.store.db.notes
  docs : Keyed Doc.noteId w.docs
  doc : ∀ n ∈ w.store.db.notes, ∃ d ∈ w.docs, d.noteId = n.id
  owned : ∀ m, (w.store.db.texts m ≠ [] ∨ ∃ c ∈ w.store.calls, c.noteId = m) →
    ∃ n ∈ w.store.db.notes, n.id = m
  attach : ∀ c ∈ w.store.calls, ∀ a dims, c ≠ .replaceWrite a dims
  seen : ∀ x ∈ w.seen, x.Valid w
  blank : ∀ n ∈ w.store.db.notes, ∀ d ∈ w.docs, d.noteId = n.id → d.content = none → Blank w n.id
  covered : ∀ n ∈ w.store.db.notes, ¬ E n → Covered chunkMarkdown w n

variable {chunkMarkdown} {w w' : World ν} {n : Note} {E E' : Note → Prop} {t : State ν}

/-! ### the queues move -/

/-- Rows, chunks and files are as they were. -/
theorem Covered.queues (h : Covered chunkMarkdown w n) (hstore : w'.store = w.store) (hdocs : w'.docs = w.docs)
    (hreindex : n.id ∈ w.reindex → Covered chunkMarkdown w' n)
    (hrunning : ∀ r ∈ w.running, r.serves n → Covered chunkMarkdown w' n)
    (hdeferred : ∀ c ∈ w.deferred, c.serves n → Covered chunkMarkdown w' n) : Covered chunkMarkdown w' n := by
  rcases h with h | h | h | ⟨r, hr, hserves⟩ | ⟨c, hc, hserves⟩
  · refine .inl ?_
    rw [Fresh, hstore, hdocs]
    exact h
  · refine .inr (.inl ?_)
    rw [Blank, hstore]
    exact h
  · exact hreindex h
  · exact hrunning r hr hserves
  · exact hdeferred c hc hserves

theorem WorldInv.queues (h : WorldInv chunkMarkdown E w) (hstore : w'.store = w.store) (hdocs : w'.docs = w.docs)
    (hseen : ∀ x ∈ w'.seen, x ∈ w.seen ∨ x.Valid w)
    (hcovered : ∀ n ∈ w.store.db.notes, ¬ E' n → Covered chunkMarkdown w' n) : WorldInv chunkMarkdown E' w' := by
  refine ⟨hstore ▸ h.notes, hdocs ▸ h.docs, hstore ▸ hdocs ▸ h.doc, hstore ▸ h.owned, hstore ▸ h.attach,
    fun x hx => ?_, fun n hn d hd hid hnone => ?_, hstore ▸ hcovered⟩
  · obtain ⟨hknown, hagrees⟩ := (hseen x hx).elim (h.seen x) id
    exact ⟨hdocs ▸ hknown, hstore ▸ hdocs ▸ hagrees⟩
  · rw [Blank, hstore]
    exact h.blank n (hstore ▸ hn) d (hdocs ▸ hd) hid hnone

theorem mem_seen {x : Seen} : x ∈ w.seen ↔
    (∃ r ∈ w.running, r.seen = some x) ∨ ∃ c ∈ w.deferred, c.seen = some x := by
  rw [World.seen, List.mem_append, List.mem_filterMap, List.mem_filterMap]

/-- Without the deferred call its notes are to be covered otherwise. -/
theorem WorldInv.dropDeferred (h : WorldInv chunkMarkdown E w) {k : ℕ} {c : Deferred} (hk : w.deferred[k]? = some c) :
    WorldInv chunkMarkdown (fun n => E n ∨ c.serves n) (w.dropDeferred k) := by
  refine h.queues rfl rfl (fun x hx => .inl ?_) fun n hn hE => ?_
  · refine mem_seen.mpr ((mem_seen.mp hx).imp_right ?_)
    rintro ⟨y, hy, hxy⟩
    exact ⟨y, List.mem_of_mem_eraseIdx hy, hxy⟩
  · obtain ⟨hE, hc⟩ := not_or.mp hE
    refine (h.covered n hn hE).queues rfl rfl (fun hq => .inr (.inr (.inl hq)))
      (fun r hr hs => .inr (.inr (.inr (.inl ⟨r, hr, hs⟩)))) fun y hy hs => ?_
    rcases mem_eraseIdx_or hk hy with rfl | hy
    · exact absurd hs hc
    · exact .inr (.inr (.inr (.inr ⟨y, hy, hs⟩)))

theorem WorldInv.dropRunning (h : WorldInv chunkMarkdown E w) {k : ℕ} {r : Running} (hk : w.running[k]? = some r) :
    WorldInv chunkMarkdown (fun n => E n ∨ r.serves n) (w.dropRunning k) := by
  refine h.queues rfl rfl (fun x hx => .inl ?_) fun n hn hE => ?_
  · refine mem_seen.mpr ((mem_seen.mp hx).imp_left ?_)
    rintro ⟨y, hy, hxy⟩
    exact ⟨y, List.mem_of_mem_eraseIdx hy, hxy⟩
  · obtain ⟨hE, hc⟩ := not_or.mp hE
    refine (h.covered n hn hE).queues rfl rfl (fun hq => .inr (.inr (.inl hq))) (fun y hy hs => ?_)
      fun c hc hs => .inr (.inr (.inr (.inr ⟨c, hc, hs⟩)))
    rcases mem_eraseIdx_or hk hy with rfl | hy
    · exact absurd hs hc
    · exact .inr (.inr (.inr (.inl ⟨y, hy, hs⟩)))

/-- A deferred call covers its notes. -/
theorem WorldInv.defer (h : WorldInv chunkMarkdown E w) {c : Deferred} (hseen : ∀ x ∈ c.seen, x.Valid w)
    (hE : ∀ n ∈ w.store.db.notes, E n → ¬ E' n → c.serves n) : WorldInv chunkMarkdown E' (w.defer c) := by
  refine h.queues rfl rfl (fun x hx => ?_) fun n hn hE' => ?_
  · rcases mem_seen.mp hx with hx | ⟨y, hy, hxy⟩
    · exact .inl (mem_seen.mpr (.inl hx))
    · rcases List.mem_cons.mp hy with rfl | hy
      · exact .inr (hseen x hxy)
      · exact .inl (mem_seen.mpr (.inr ⟨y, hy, hxy⟩))
  · by_cases hn' : E n
    · exact .inr (.inr (.inr (.inr ⟨c, List.mem_cons_self, hE n hn hn' hE'⟩)))
    · refine (h.covered n hn hn').queues rfl rfl (fun hq => .inr (.inr (.inl hq)))
        (fun r hr hs => .inr (.inr (.inr (.inl ⟨r, hr, hs⟩)))) fun y hy hs => ?_
      exact .inr (.inr (.inr (.inr ⟨y, List.mem_cons_of_mem c hy, hs⟩)))

theorem WorldInv.start (h : WorldInv chunkMarkdown E w) {r : Running} (hseen : ∀ x ∈ r.seen, x.Valid w)
    (hE : ∀ n ∈ w.store.db.notes, E n → ¬ E' n → Covered chunkMarkdown (w.start r) n) :
    WorldInv chunkMarkdown E' (w.start r) := by
  refine h.queues rfl rfl (fun x hx => ?_) fun n hn hE' => ?_
  · rcases mem_seen.mp hx with ⟨y, hy, hxy⟩ | hx
    · rcases List.mem_cons.mp hy with rfl | hy
      · exact .inr (hseen x hxy)
      · exact .inl (mem_seen.mpr (.inl ⟨y, hy, hxy⟩))
    · exact .inl (mem_seen.mpr (.inr hx))
  · by_cases hn' : E n
    · exact hE n hn hn' hE'
    · refine (h.covered n hn hn').queues rfl rfl (fun hq => .inr (.inr (.inl hq))) (fun y hy hs => ?_)
        fun c hc hs => .inr (.inr (.inr (.inr ⟨c, hc, hs⟩)))
      exact .inr (.inr (.inr (.inl ⟨y, List.mem_cons_of_mem r hy, hs⟩)))

theorem WorldInv.enqueue (h : WorldInv chunkMarkdown E w) {notes : List String}
    (hE : ∀ n ∈ w.store.db.notes, E n → ¬ E' n → n.id ∈ notes) : WorldInv chunkMarkdown E' (w.enqueue notes) := by
  refine h.queues rfl rfl (fun x hx => .inl hx) fun n hn hE' => ?_
  by_cases hn' : E n
  · exact .inr (.inr (.inl (List.mem_union_iff.mpr (.inl (hE n hn hn' hE')))))
  · exact (h.covered n hn hn').queues rfl rfl
      (fun hq => .inr (.inr (.inl (List.mem_union_iff.mpr (.inr hq)))))
      (fun r hr hs => .inr (.inr (.inr (.inl ⟨r, hr, hs⟩))))
      fun c hc hs => .inr (.inr (.inr (.inr ⟨c, hc, hs⟩)))

theorem WorldInv.withEmbeds (h : WorldInv chunkMarkdown E w) (embeds : List String) :
    WorldInv chunkMarkdown E { w with embeds := embeds } :=
  h.queues rfl rfl (fun _ hx => .inl hx) fun n hn hE => (h.covered n hn hE).queues rfl rfl
    (fun hq => .inr (.inr (.inl hq))) (fun r hr hs => .inr (.inr (.inr (.inl ⟨r, hr, hs⟩))))
    fun c hc hs => .inr (.inr (.inr (.inr ⟨c, hc, hs⟩)))

/-- The notes that are still to be covered are so. -/
theorem WorldInv.cover (h : WorldInv chunkMarkdown E w)
    (hE : ∀ n ∈ w.store.db.notes, E n → ¬ E' n → Covered chunkMarkdown w n) :
    WorldInv chunkMarkdown E' w := by
  refine h.queues rfl rfl (fun x hx => .inl hx) fun n hn hE' => ?_
  by_cases hn' : E n
  · exact hE n hn hn' hE'
  · exact h.covered n hn hn'

theorem Spare.covered (h : Spare chunkMarkdown w n.id) : Covered chunkMarkdown w n := by
  rcases h with h | h | h
  · exact .inl h
  · exact .inr (.inr (.inl h))
  · exact .inr (.inl h)

/-! ### rows and files -/

theorem mem_putDocs {docs : List Doc} {d : Doc} : d ∈ (w.putDocs docs).docs ↔
    d ∈ docs ∨ d ∈ w.docs ∧ d.noteId ∉ docs.map Doc.noteId := by
  rw [World.putDocs, List.mem_append, mem_deleteWhere, decide_eq_false_iff_not]

theorem keyed_putDocs {docs : List Doc} (h : Keyed Doc.noteId w.docs) (hnodup : (docs.map Doc.noteId).Nodup) :
    Keyed Doc.noteId (w.putDocs docs).docs := by
  rw [World.putDocs, keyed_iff_nodup, List.map_append, List.nodup_append]
  refine ⟨hnodup, keyed_iff_nodup.mp (UniqueOn.deleteWhere h), fun a ha b hb hab => ?_⟩
  obtain ⟨d, hd, rfl⟩ := List.mem_map.mp hb
  exact of_decide_eq_false (mem_deleteWhere.mp hd).2 (hab ▸ ha)

/-- The document of a note among the new ones. -/
theorem mem_docs_of_id {docs : List Doc} {d : Doc} (hd : d ∈ (w.putDocs docs).docs)
    (hid : d.noteId ∈ docs.map Doc.noteId) : d ∈ docs :=
  (mem_putDocs.mp hd).elim id fun h => absurd hid h.2

theorem Blank.keep {m : String} (h : Blank w m) (htexts : w'.store.db.texts m = w.store.db.texts m)
    (hrows : ∀ n ∈ w'.store.db.notes, n.id = m → ∃ x ∈ w.store.db.notes, x.id = m ∧
      x.indexState = n.indexState)
    (hcalls : ∀ c ∈ w'.store.calls, c.noteId = m → ∃ x ∈ w.store.calls, x.noteId = m) : Blank w' m := by
  refine ⟨htexts.trans h.1, fun n hn hid => ?_, fun c hc hid => ?_⟩
  · obtain ⟨x, hx, hxid, hstate⟩ := hrows n hn hid
    exact hstate ▸ h.2.1 x hx hxid
  · obtain ⟨x, hx, hxid⟩ := hcalls c hc hid
    exact h.2.2 x hx hxid

/-- The row of the note in another world, of the same generation. -/
theorem Covered.row {x : Note} (h : Covered chunkMarkdown w x) (hid : x.id = n.id)
    (hgen : x.indexGeneration = n.indexGeneration)
    (hfresh : Fresh chunkMarkdown w n.id → Covered chunkMarkdown w' n)
    (hblank : Blank w n.id → Covered chunkMarkdown w' n) (hreindex : w'.reindex = w.reindex)
    (hrunning : w'.running = w.running) (hdeferred : w'.deferred = w.deferred) :
    Covered chunkMarkdown w' n := by
  rcases h with h | h | h | ⟨r, hr, hserves⟩ | ⟨c, hc, hserves⟩
  · exact hfresh (hid ▸ h)
  · exact hblank (hid ▸ h)
  · exact .inr (.inr (.inl (hreindex ▸ hid ▸ h)))
  · refine .inr (.inr (.inr (.inl ⟨r, hrunning ▸ hr, hid ▸ hserves.1, fun y hy => ?_⟩)))
    exact (hserves.2 y hy).trans hgen
  · refine .inr (.inr (.inr (.inr ⟨c, hdeferred ▸ hc, hid ▸ hserves.1, fun y hy => ?_⟩)))
    exact (hserves.2 y hy).trans hgen

theorem exec_eq_some {ops : List (Op ν)} (h : w.exec ops = some w') :
    ∃ t, (store ν).exec w.store ops = some t ∧ w' = { w with store := t } := by
  obtain ⟨t, ht, rfl⟩ := Option.map_eq_some_iff.mp h
  exact ⟨t, ht, rfl⟩

theorem WorldInv.insertNotes {L : List String} (h : WorldInv chunkMarkdown (fun n => n.id ∈ L) w)
    {docs : List Doc} (hw : w.insertNotes docs = some w') :
    WorldInv chunkMarkdown (fun n => n.id ∈ docs.map Doc.noteId ++ L) w' ∧ docs ⊆ w'.docs ∧
      ∀ n ∈ w'.store.db.notes, n.id ∈ docs.map Doc.noteId → n.indexGeneration = 1 := by
  unfold World.insertNotes at hw
  split at hw
  swap
  · cases hw
  rename_i hfree
  obtain ⟨w1, hexec, rfl⟩ := Option.map_eq_some_iff.mp hw
  obtain ⟨t, ht, rfl⟩ := exec_eq_some hexec
  have hops : docs.map (fun d => Op.insertNote (ν := ν) d.noteId) =
      (docs.map Doc.noteId).map .insertNote := by rw [List.map_map]; rfl
  obtain ⟨hcalls, hchunks, hmem, hout, hnodup, hkeyed⟩ := exec_insertNotes (hops ▸ ht)
  have htexts : ∀ m, t.db.texts m = w.store.db.texts m := fun m => texts_congr hchunks
  have hold : ∀ n ∈ t.db.notes, n.id ∉ docs.map Doc.noteId → n ∈ w.store.db.notes := fun n hn hid =>
    ((hmem n).mp hn).elim id fun h => absurd h.1 hid
  have hnew : ∀ n ∈ t.db.notes, n.id ∈ docs.map Doc.noteId → n = ⟨n.id, 1, .stale⟩ := fun n hn hid =>
    ((hmem n).mp hn).elim (fun h => absurd hid (hout n h)) fun h => h.2
  -- the old document of a new note had no content, nor has the new one
  have hnone : ∀ d ∈ docs, ∀ x ∈ w.docs, x.noteId = d.noteId → x.content = none ∧ d.content = none :=
    fun d hd => hfree d hd
  have hgone : ∀ m ∈ docs.map Doc.noteId, w.store.db.texts m = [] ∧ ∀ c ∈ w.store.calls, c.noteId ≠ m := by
    intro m hm
    refine ⟨?_, fun c hc hcm => ?_⟩
    · by_contra hne
      obtain ⟨n, hn, hid⟩ := h.owned m (.inl hne)
      exact hout n hn (hid ▸ hm)
    · obtain ⟨n, hn, hid⟩ := h.owned m (.inr ⟨c, hc, hcm⟩)
      exact hout n hn (hid ▸ hm)
  have hblank : ∀ n ∈ t.db.notes, n.id ∈ docs.map Doc.noteId →
      Blank (World.putDocs { w with store := t } docs) n.id := by
    intro n hn hid
    refine ⟨(htexts n.id).trans (hgone n.id hid).1, fun x hx hxid => ?_, fun c hc => ?_⟩
    · rw [hnew x hx (hxid ▸ hid)]
    · exact (hgone n.id hid).2 c (hcalls ▸ hc)
  have hkeep : ∀ n ∈ t.db.notes, n.id ∉ docs.map Doc.noteId → Blank w n.id →
      Blank (World.putDocs { w with store := t } docs) n.id := fun n _ hid hb =>
    hb.keep (htexts n.id) (fun x hx hxid => ⟨x, hold x hx (hxid ▸ hid), hxid, rfl⟩)
      fun c hc hcm => ⟨c, hcalls ▸ hc, hcm⟩
  refine ⟨⟨hkeyed h.notes, keyed_putDocs h.docs hnodup, fun n hn => ?_, fun m hm => ?_, hcalls ▸ h.attach,
    fun x hx => ?_, fun n hn d hd hid hcontent => ?_, fun n hn hE => ?_⟩,
    fun d hd => mem_putDocs.mpr (.inl hd), fun n hn hid => ?_⟩
  · by_cases hid : n.id ∈ docs.map Doc.noteId
    · obtain ⟨d, hd, hdid⟩ := List.mem_map.mp hid
      exact ⟨d, mem_putDocs.mpr (.inl hd), hdid⟩
    · obtain ⟨d, hd, hdid⟩ := h.doc n (hold n hn hid)
      exact ⟨d, mem_putDocs.mpr (.inr ⟨hd, hdid ▸ hid⟩), hdid⟩
  · obtain ⟨n, hn, hid⟩ := h.owned m (hm.imp (fun h => htexts m ▸ h) fun ⟨c, hc, hcm⟩ => ⟨c, hcalls ▸ hc, hcm⟩)
    exact ⟨n, (hmem n).mpr (.inl hn), hid⟩
  · obtain ⟨⟨d, hd, hdid, hcontent⟩, hagrees⟩ := h.seen x hx
    refine ⟨?_, fun n hn d' hd' hid hxid hsome => ?_⟩
    · by_cases hin : d.noteId ∈ docs.map Doc.noteId
      · obtain ⟨d', hd', heq⟩ := List.mem_map.mp hin
        refine ⟨d', mem_putDocs.mpr (.inl hd'), heq.trans hdid, fun hsome => ?_⟩
        rw [(hnone d' hd' d hd heq.symm).1] at hcontent
        exact absurd (hcontent hsome) Bool.false_ne_true
      · exact ⟨d, mem_putDocs.mpr (.inr ⟨hd, hin⟩), hdid, hcontent⟩
    · by_cases hin : n.id ∈ docs.map Doc.noteId
      · have hd' : d' ∈ docs := mem_docs_of_id hd' (hid ▸ hin)
        rw [(hnone d' hd' d hd (hdid.trans (hxid.trans hid.symm))).2] at hsome
        exact absurd hsome Bool.false_ne_true
      · have hd' : d' ∈ w.docs := (mem_putDocs.mp hd').elim
          (fun hd' => absurd (List.mem_map_of_mem hd') (hid ▸ hin)) fun h => h.1
        exact hagrees n (hold n hn hin) d' hd' hid hxid hsome
  · by_cases hin : n.id ∈ docs.map Doc.noteId
    · exact hblank n hn hin
    · refine hkeep n hn hin (h.blank n (hold n hn hin) d ?_ hid hcontent)
      exact (mem_putDocs.mp hd).elim (fun hd => absurd (List.mem_map_of_mem hd) (hid ▸ hin)) fun h => h.1
  · obtain ⟨hin, hL⟩ : n.id ∉ docs.map Doc.noteId ∧ n.id ∉ L :=
      ⟨fun hin => hE (List.mem_append_left L hin), fun hL => hE (List.mem_append_right _ hL)⟩
    refine (h.covered n (hold n hn hin) hL).row rfl rfl ?_ (fun hb => .inr (.inl (hkeep n hn hin hb)))
      rfl rfl rfl
    rintro ⟨d, hd, hid, content, hcontent, hperm⟩
    refine .inl ⟨d, mem_putDocs.mpr (.inr ⟨hd, hid ▸ hin⟩), hid, content, hcontent, ?_⟩
    exact htexts n.id ▸ hperm
  · rw [hnew n hn hid]

theorem WorldInv.updateNotes {L : List String} (h : WorldInv chunkMarkdown (fun n => n.id ∈ L) w)
    {docs : List Doc} (hw : w.updateNotes docs = some w') :
    WorldInv chunkMarkdown (fun n => n.id ∈ docs.map Doc.noteId ++ L) w' ∧ docs ⊆ w'.docs ∧
      ∀ n ∈ w'.store.db.notes, n.id ∈ docs.map Doc.noteId →
        ∃ x ∈ w.store.db.notes, x.id = n.id ∧ n.indexGeneration = x.indexGeneration + 1 := by
  unfold World.updateNotes at hw
  split at hw
  swap
  · cases hw
  rename_i hall
  obtain ⟨hwritable, hnodup⟩ := hall
  obtain ⟨w1, hexec, rfl⟩ := Option.map_eq_some_iff.mp hw
  obtain ⟨t, ht, rfl⟩ := exec_eq_some hexec
  have hops : docs.map (fun d => Op.bumpGeneration (ν := ν) d.noteId) =
      (docs.map Doc.noteId).map .bumpGeneration := by rw [List.map_map]; rfl
  obtain ⟨hcalls, hchunks, hnotes⟩ := exec_bump (hops ▸ ht)
  have htexts : ∀ m, t.db.texts m = w.store.db.texts m := fun m => texts_congr hchunks
  -- a row of the new table, its old one, and whether it has moved
  have hrow : ∀ n ∈ t.db.notes, ∃ x ∈ w.store.db.notes, x.id = n.id ∧ x.indexState = n.indexState ∧
      (n.id ∈ docs.map Doc.noteId → n.indexGeneration = x.indexGeneration + 1) ∧
      (n.id ∉ docs.map Doc.noteId → n.indexGeneration = x.indexGeneration) := by
    intro n hn
    obtain ⟨x, hx, rfl⟩ := List.mem_map.mp (hnotes ▸ hn)
    refine ⟨x, hx, rfl, rfl, fun hid => ?_, fun hid => ?_⟩
    · show x.indexGeneration + _ = _
      rw [List.count_eq_one_of_mem hnodup hid]
    · show x.indexGeneration + _ = _
      rw [List.count_eq_zero_of_not_mem hid, Nat.add_zero]
  have hback : ∀ x ∈ w.store.db.notes, ∃ n ∈ t.db.notes, n.id = x.id := by
    intro x hx
    rw [hnotes]
    exact ⟨_, List.mem_map_of_mem hx, rfl⟩
  -- a note has a file afterwards exactly if it had one
  have hsame : ∀ d' ∈ docs, ∀ d ∈ w.docs, d.noteId = d'.noteId → d.content.isSome = d'.content.isSome := by
    intro d' hd' d hd hid
    obtain ⟨-, x, hx, hxid, hcontent⟩ := hwritable d' hd'
    rw [h.docs.eq hd hx (hid.trans hxid.symm), hcontent]
  have hkeep : ∀ m, Blank w m → Blank (World.putDocs { w with store := t } docs) m := by
    intro m hb
    refine hb.keep (htexts m) (fun n hn hid => ?_) fun c hc hcm => ⟨c, hcalls ▸ hc, hcm⟩
    obtain ⟨x, hx, hxid, hstate, -⟩ := hrow n hn
    exact ⟨x, hx, hxid.trans hid, hstate⟩
  refine ⟨⟨?_, keyed_putDocs h.docs hnodup, fun n hn => ?_, fun m hm => ?_, hcalls ▸ h.attach,
    fun y hy => ?_, fun n hn d hd hid hcontent => ?_, fun n hn hE => ?_⟩,
    fun d hd => mem_putDocs.mpr (.inl hd), fun n hn hid => ?_⟩
  · show Keyed Note.id t.db.notes
    rw [hnotes, keyed_iff_nodup, List.map_map]
    exact keyed_iff_nodup.mp h.notes
  · obtain ⟨x, hx, hxid, -⟩ := hrow n hn
    obtain ⟨d, hd, hdid⟩ := h.doc x hx
    by_cases hin : n.id ∈ docs.map Doc.noteId
    · obtain ⟨d', hd', hid'⟩ := List.mem_map.mp hin
      exact ⟨d', mem_putDocs.mpr (.inl hd'), hid'⟩
    · have hid : d.noteId = n.id := hdid.trans hxid
      exact ⟨d, mem_putDocs.mpr (.inr ⟨hd, hid ▸ hin⟩), hid⟩
  · obtain ⟨x, hx, hid⟩ := h.owned m (hm.imp (fun h => htexts m ▸ h) fun ⟨c, hc, hcm⟩ => ⟨c, hcalls ▸ hc, hcm⟩)
    obtain ⟨n, hn, hnx⟩ := hback x hx
    exact ⟨n, hn, hnx.trans hid⟩
  · obtain ⟨⟨d, hd, hdid, hcontent⟩, hagrees⟩ := h.seen y hy
    refine ⟨?_, fun n hn d' hd' hid hyid hsome => ?_⟩
    · by_cases hin : d.noteId ∈ docs.map Doc.noteId
      · obtain ⟨d', hd', heq⟩ := List.mem_map.mp hin
        exact ⟨d', mem_putDocs.mpr (.inl hd'), heq.trans hdid, fun hsome =>
          hsame d' hd' d hd heq.symm ▸ hcontent hsome⟩
      · exact ⟨d, mem_putDocs.mpr (.inr ⟨hd, hin⟩), hdid, hcontent⟩
    · obtain ⟨x, hx, hxid, -, hmoved, hstays⟩ := hrow n hn
      by_cases hin : n.id ∈ docs.map Doc.noteId
      · -- the generation is past everything that has been read
        have hd' : d' ∈ docs := mem_docs_of_id hd' (hid ▸ hin)
        obtain ⟨e, he, heid⟩ := h.doc x hx
        have hle := (hagrees x hx e he heid (hyid.trans hxid.symm)
          (hsame d' hd' e he (heid.trans (hxid.trans hid.symm)) ▸ hsome)).1
        have hgen := hmoved hin
        exact ⟨by omega, fun heq => absurd heq (by omega)⟩
      · have hd' : d' ∈ w.docs := (mem_putDocs.mp hd').elim
          (fun hd' => absurd (List.mem_map_of_mem hd') (hid ▸ hin)) fun h => h.1
        rw [hstays hin]
        exact hagrees x hx d' hd' (hid.trans hxid.symm) (hyid.trans hxid.symm) hsome
  · obtain ⟨x, hx, hxid, -⟩ := hrow n hn
    refine hkeep n.id (hxid ▸ ?_)
    rcases mem_putDocs.mp hd with hd | ⟨hd, -⟩
    · obtain ⟨e, he, heid⟩ := h.doc x hx
      have hnone := hsame d hd e he (heid.trans (hxid.trans hid.symm))
      rw [hcontent, Option.isSome_none, Option.isSome_eq_false_iff, Option.isNone_iff_eq_none] at hnone
      exact h.blank x hx e he heid hnone
    · exact h.blank x hx d hd (hid.trans hxid.symm) hcontent
  · obtain ⟨hin, hL⟩ : n.id ∉ docs.map Doc.noteId ∧ n.id ∉ L :=
      ⟨fun hin => hE (List.mem_append_left L hin), fun hL => hE (List.mem_append_right _ hL)⟩
    obtain ⟨x, hx, hxid, -, -, hstays⟩ := hrow n hn
    refine (h.covered x hx (hxid.symm ▸ hL)).row hxid (hstays hin).symm ?_
      (fun hb => .inr (.inl (hkeep n.id hb))) rfl rfl rfl
    rintro ⟨d, hd, hid, content, hcontent, hperm⟩
    refine .inl ⟨d, mem_putDocs.mpr (.inr ⟨hd, hid ▸ hin⟩), hid, content, hcontent, ?_⟩
    exact htexts n.id ▸ hperm
  · obtain ⟨x, hx, hxid, -, hmoved, -⟩ := hrow n hn
    exact ⟨x, hx, hxid, hmoved hid⟩

theorem WorldInv.removeNotes (h : WorldInv chunkMarkdown E w) {notes : List String}
    (hw : w.removeNotes notes = some w') : WorldInv chunkMarkdown E w' := by
  unfold World.removeNotes at hw
  split at hw
  swap
  · cases hw
  rename_i hmissing
  obtain ⟨t, ht, rfl⟩ := exec_eq_some hw
  obtain ⟨hcalls, hothers, hgone, hnotes⟩ := exec_delete ht
  have hrow : ∀ n, n ∈ t.db.notes ↔ n ∈ w.store.db.notes ∧ n.id ∉ notes := fun n => by
    rw [hnotes, mem_deleteWhere, decide_eq_false_iff_not]
  have hkeep : ∀ n ∈ t.db.notes, Blank w n.id → Blank { w with store := t } n.id := fun n hn hb =>
    hb.keep (hothers n.id ((hrow n).mp hn).2) (fun x hx hid => ⟨x, ((hrow x).mp hx).1, hid, rfl⟩)
      fun c hc hcm => ⟨c, hcalls ▸ hc, hcm⟩
  refine ⟨?_, h.docs, fun n hn => h.doc n ((hrow n).mp hn).1, fun m hm => ?_, hcalls ▸ h.attach,
    fun x hx => ⟨(h.seen x hx).1, fun n hn => (h.seen x hx).2 n ((hrow n).mp hn).1⟩,
    fun n hn d hd hid hnone => hkeep n hn (h.blank n ((hrow n).mp hn).1 d hd hid hnone), fun n hn hE => ?_⟩
  · exact hnotes ▸ UniqueOn.deleteWhere h.notes
  · -- no worker has read the chunks of a note without a file
    have hm' : m ∉ notes := by
      intro hin
      rcases hm with hm | ⟨c, hc, hcm⟩
      · exact hm (hgone m hin)
      · obtain ⟨n, hn, hid⟩ := h.owned m (.inr ⟨c, hcalls ▸ hc, hcm⟩)
        obtain ⟨d, hd, hdid, hnone⟩ := hmissing m hin
        exact (h.blank n hn d hd (hdid.trans hid.symm) hnone).2.2 c (hcalls ▸ hc) (hcm.trans hid.symm)
    obtain ⟨n, hn, hid⟩ := h.owned m (hm.imp (fun h => hothers m hm' ▸ h)
      fun ⟨c, hc, hcm⟩ => ⟨c, hcalls ▸ hc, hcm⟩)
    exact ⟨n, (hrow n).mpr ⟨hn, hid ▸ hm'⟩, hid⟩
  · refine (h.covered n ((hrow n).mp hn).1 hE).row rfl rfl ?_ (fun hb => .inr (.inl (hkeep n hn hb)))
      rfl rfl rfl
    rintro ⟨d, hd, hid, content, hcontent, hperm⟩
    exact .inl ⟨d, hd, hid, content, hcontent, hothers n.id ((hrow n).mp hn).2 ▸ hperm⟩

/-! ### chunks and vectors -/

/-- A step of the chunk store that inserts and removes no row. -/
theorem WorldInv.ofStore (h : WorldInv chunkMarkdown E w) (hkeyed : Keyed Note.id t.db.notes)
    (hrow : ∀ n ∈ t.db.notes, ∃ x ∈ w.store.db.notes, x.id = n.id ∧ x.indexGeneration = n.indexGeneration)
    (howned : ∀ m, (t.db.texts m ≠ [] ∨ ∃ c ∈ t.calls, c.noteId = m) → ∃ n ∈ t.db.notes, n.id = m)
    (hattach : ∀ c ∈ t.calls, ∀ a dims, c ≠ .replaceWrite a dims)
    (hblank : ∀ n ∈ t.db.notes, ∀ d ∈ w.docs, d.noteId = n.id → d.content = none → Blank w n.id →
      Blank { w with store := t } n.id)
    (hcovered : ∀ n ∈ t.db.notes, ¬ E' n → Covered chunkMarkdown { w with store := t } n) :
    WorldInv chunkMarkdown E' { w with store := t } := by
  refine ⟨hkeyed, h.docs, fun n hn => ?_, howned, hattach, fun x hx => ⟨(h.seen x hx).1, fun n hn => ?_⟩,
    fun n hn d hd hid hnone => ?_, hcovered⟩
  · obtain ⟨x, hx, hid, -⟩ := hrow n hn
    exact hid ▸ h.doc x hx
  · obtain ⟨y, hy, hid, hgen⟩ := hrow n hn
    intro d hd hdid hxid hsome
    rw [← hgen]
    exact (h.seen x hx).2 y hy d hd (hdid.trans hid.symm) (hxid.trans hid.symm) hsome
  · obtain ⟨x, hx, hxid, -⟩ := hrow n hn
    exact hblank n hn d hd hid hnone (hxid ▸ h.blank x hx d hd (hid.trans hxid.symm) hnone)

/-- The step is about another note. -/
theorem Blank.effect {m noteId : String} (h : Blank w m) (heffect : Effect w.store t noteId) (hne : m ≠ noteId)
    (hcalls : ∀ c ∈ t.calls, c.noteId = m → c ∈ w.store.calls) : Blank { w with store := t } m :=
  h.keep (heffect.texts m hne)
    (fun n hn hid => ⟨n, (heffect.kept n (hid ▸ hne)).mp hn, hid, rfl⟩)
    fun c hc hid => ⟨c, hcalls c hc hid, hid⟩

theorem Fresh.of_texts {m : String} (h : Fresh chunkMarkdown w m) (hdocs : w'.docs = w.docs)
    (htexts : w'.store.db.texts m = w.store.db.texts m) : Fresh chunkMarkdown w' m := by
  obtain ⟨d, hd, hid, content, hcontent, hperm⟩ := h
  exact ⟨d, hdocs ▸ hd, hid, content, hcontent, htexts ▸ hperm⟩

/-- `index_note` and the handler's write: the note is fresh, if its generation is the one expected. -/
theorem WorldInv.index {workspace ownerId noteId title content : String} {g : ℕ} {ids : List String}
    {embed : Bool} (h : WorldInv chunkMarkdown E w) (hvalid : Seen.Valid ⟨noteId, g, title, some content⟩ w)
    (hw : w.index chunkMarkdown workspace ownerId noteId title content g ids embed = some w') :
    WorldInv chunkMarkdown (fun n => E n ∧ ¬ (n.id = noteId ∧ n.indexGeneration = g)) w' := by
  obtain ⟨w1, hexec, rfl⟩ := Option.map_eq_some_iff.mp hw
  suffices hw1 : WorldInv chunkMarkdown (fun n => E n ∧ ¬ (n.id = noteId ∧ n.indexGeneration = g)) w1 by
    split
    · exact hw1.withEmbeds _
    · exact hw1
  obtain ⟨t, ht, rfl⟩ := exec_eq_some hexec
  obtain ⟨u, hu, hut⟩ := Option.bind_eq_some_iff.mp ht
  cases hut
  obtain ⟨hcalls, heffect, htexts, hsame⟩ := step_replaceChecked (a := replaceArgs ..) rfl hu
  -- the note has a file, and what was read of it is so still
  have hfile : ∀ d ∈ w.docs, d.noteId = noteId → d.content.isSome = true := by
    intro d hd hid
    obtain ⟨y, hy, hyid, hcontent⟩ := hvalid.known
    exact h.docs.eq hy hd (hyid.trans hid.symm) ▸ hcontent rfl
  have hothers : ∀ n ∈ t.db.notes, n.id ≠ noteId → ¬ E n →
      Covered chunkMarkdown { w with store := t } n := by
    intro n hn hne hE
    refine (h.covered n ((heffect.kept n hne).mp hn) hE).row rfl rfl
      (fun hf => .inl (hf.of_texts rfl (heffect.texts n.id hne)))
      (fun hb => .inr (.inl (hb.effect heffect hne fun c hc _ => hcalls ▸ hc))) rfl rfl rfl
  by_cases hcurrent : ∃ x ∈ w.store.db.notes, x.id = noteId ∧ x.indexGeneration = g
  · obtain ⟨x, hx, hxid, hxg⟩ := hcurrent
    refine h.ofStore (heffect.keyed h.notes) heffect.ids (fun m hm => ?_) (hcalls ▸ h.attach)
      (fun n hn d hd hid hnone hb => ?_) fun n hn hE => ?_
    · by_cases hmn : m = noteId
      · obtain ⟨n, hn, hid⟩ := heffect.back x hx
        exact ⟨n, hn, hid.trans (hxid.trans hmn.symm)⟩
      · obtain ⟨y, hy, hyid⟩ := h.owned m (hm.imp (fun h => heffect.texts m hmn ▸ h)
          fun ⟨c, hc, hcm⟩ => ⟨c, hcalls ▸ hc, hcm⟩)
        obtain ⟨n, hn, hid⟩ := heffect.back y hy
        exact ⟨n, hn, hid.trans hyid⟩
    · refine hb.effect heffect (fun hne => ?_) fun c hc _ => hcalls ▸ hc
      have hsome := hfile d hd (hid.trans hne)
      rw [hnone] at hsome
      exact absurd hsome Bool.false_ne_true
    · by_cases hid : n.id = noteId
      · obtain ⟨y, hy, hyid, hyg⟩ := heffect.ids n hn
        have hg : n.indexGeneration = g := by
          rw [← hyg, h.notes.eq hy hx (hyid.trans (hid.trans hxid.symm)), hxg]
        obtain ⟨d, hd, hdid⟩ := h.doc y hy
        have hdn : d.noteId = noteId := hdid.trans (hyid.trans hid)
        obtain ⟨-, hread⟩ := hvalid.agrees y hy d hd hdid (hid.symm.trans hyid.symm) (hfile d hd hdn)
        obtain ⟨htitle, hcontent⟩ := hread (hg.symm.trans hyg.symm)
        refine .inl ⟨d, hd, hdn.trans hid.symm, content, hcontent content rfl, ?_⟩
        exact htitle ▸ htexts n hn hid hg
      · exact hothers n hn hid fun hEn => hE ⟨hEn, fun hc => hid hc.1⟩
  · have hdb : t.db = w.store.db := hsame fun n hn hid hg => hcurrent ⟨n, hn, hid, hg⟩
    refine h.ofStore (hdb ▸ h.notes) (fun n hn => ⟨n, hdb ▸ hn, rfl, rfl⟩) (hdb ▸ hcalls ▸ h.owned)
      (hcalls ▸ h.attach) (fun n hn d hd hid hnone hb => ?_) fun n hn hE => ?_
    · rw [Blank, hdb, hcalls]
      exact hb
    · have hE' : ¬ E n := fun hEn => hE ⟨hEn, fun hc => hcurrent ⟨n, hdb ▸ hn, hc⟩⟩
      refine (h.covered n (hdb ▸ hn) hE').row rfl rfl (fun hf => .inl (hf.of_texts rfl (by rw [hdb])))
        (fun hb => .inr (.inl ?_)) rfl rfl rfl
      rw [Blank, hdb, hcalls]
      exact hb

/-- A worker starts on stored chunks, goes on, or ends: no text changes. -/
theorem WorldInv.embed {noteId : String} (h : WorldInv chunkMarkdown (fun _ => False) w) (heffect : Effect w.store t noteId)
    (htexts : ∀ m, t.db.texts m = w.store.db.texts m)
    (hcalls : ∀ c ∈ t.calls, (∀ a dims, c ≠ .replaceWrite a dims) ∧ c.noteId = noteId ∨ c ∈ w.store.calls)
    (hworks : w.store.db.texts noteId ≠ [] ∨ ∃ c ∈ w.store.calls, c.noteId = noteId) :
    WorldInv chunkMarkdown (fun _ => False) { w with store := t } := by
  have hkeep : ∀ m, Blank w m → Blank { w with store := t } m := by
    intro m hb
    have hne : m ≠ noteId := by
      rintro rfl
      rcases hworks with hworks | ⟨c, hc, hid⟩
      · exact hworks hb.1
      · exact hb.2.2 c hc hid
    exact hb.effect heffect hne fun c hc hid => (hcalls c hc).elim
      (fun hcall => absurd (hid.symm.trans hcall.2) hne) id
  refine h.ofStore (heffect.keyed h.notes) heffect.ids (fun m hm => ?_) (fun c hc => ?_)
    (fun n _ _ _ _ _ hb => hkeep n.id hb) fun n hn _ => ?_
  · have hm' : w.store.db.texts m ≠ [] ∨ ∃ c ∈ w.store.calls, c.noteId = m := by
      rcases hm with hm | ⟨c, hc, hid⟩
      · exact .inl (htexts m ▸ hm)
      · rcases hcalls c hc with ⟨-, hcn⟩ | hc
        · exact hid.symm.trans hcn ▸ hworks
        · exact .inr ⟨c, hc, hid⟩
    obtain ⟨x, hx, hxid⟩ := h.owned m hm'
    obtain ⟨n, hn, hid⟩ := heffect.back x hx
    exact ⟨n, hn, hid.trans hxid⟩
  · exact (hcalls c hc).elim (fun hcall => hcall.1) (h.attach c)
  · obtain ⟨x, hx, hid, hgen⟩ := heffect.ids n hn
    exact (h.covered x hx not_false).row hid hgen (fun hf => .inl (hf.of_texts rfl (htexts n.id)))
      (fun hb => .inr (.inl (hkeep n.id hb))) rfl rfl rfl

/-! ## the runs -/

/-- What is read of the note under its present generation. -/
theorem WorldInv.valid (h : WorldInv chunkMarkdown E w) {d : Doc} (hd : d ∈ w.docs) {g : ℕ}
    (hg : ∀ n ∈ w.store.db.notes, n.id = d.noteId → n.indexGeneration = g) {content : Option String}
    (hcontent : ∀ c ∈ content, d.content = some c) : Seen.Valid ⟨d.noteId, g, d.title, content⟩ w := by
  refine ⟨⟨d, hd, rfl, fun hsome => ?_⟩, fun n hn e he hid hdn _ => ?_⟩
  · obtain ⟨c, hc⟩ := Option.isSome_iff_exists.mp hsome
    rw [hcontent c hc]
    rfl
  · obtain rfl := h.docs.eq hd he (Eq.trans hdn hid.symm)
    exact ⟨Nat.le_of_eq (hg n hn hdn.symm).symm, fun _ => ⟨rfl, hcontent⟩⟩

theorem mapM_noteIds {α : Type} {f : α → Option Doc} {key : α → String}
    (hf : ∀ x d, f x = some d → d.noteId = key x) {xs : List α} {docs : List Doc}
    (h : xs.mapM f = some docs) : docs.map Doc.noteId = xs.map key := by
  induction xs generalizing docs with
  | nil =>
    cases h
    rfl
  | cons x xs ih =>
    rw [List.mapM_cons] at h
    obtain ⟨d, hd, h⟩ := Option.bind_eq_some_iff.mp h
    obtain ⟨ds, hds, h⟩ := Option.bind_eq_some_iff.mp h
    cases h
    rw [List.map_cons, List.map_cons, ih hds, hf x d hd]

theorem withContent_noteId (x : String × String) (d : Doc) (h : w.withContent x = some d) : d.noteId = x.1 := by
  obtain ⟨y, hy, rfl⟩ := Option.map_eq_some_iff.mp h
  exact (row_some hy).2

theorem withTitle_noteId (x : String × String) (d : Doc) (h : w.withTitle x = some d) : d.noteId = x.1 := by
  obtain ⟨y, hy, rfl⟩ := Option.map_eq_some_iff.mp h
  exact (row_some hy).2

theorem WorldInv.nil (h : WorldInv chunkMarkdown (fun _ => False) w) :
    WorldInv chunkMarkdown (fun n => n.id ∈ ([] : List String)) w :=
  h.cover fun _ _ hn => hn.elim

/-- New bodies: their notes are to be covered. -/
theorem WorldInv.editNotes (h : WorldInv chunkMarkdown (fun _ => False) w) {items : List (String × String)}
    (hw : w.editNotes items = some w') : WorldInv chunkMarkdown (fun n => n.id ∈ items.map (·.1)) w' := by
  obtain ⟨docs, hdocs, hupdate⟩ := Option.bind_eq_some_iff.mp hw
  have hids := mapM_noteIds withContent_noteId hdocs
  refine (h.nil.updateNotes hupdate).1.cover fun n _ hn hE => absurd ?_ hE
  rw [List.append_nil, hids] at hn
  exact hn

variable {workspace ownerId : String} {a : Action ν}

/-- The calls that insert or update one note and index it inline. -/
theorem WorldInv.deferNote {d : Doc} {content : String} {g : ℕ}
    (h : WorldInv chunkMarkdown (fun n => n.id ∈ [d.noteId] ++ []) w) (hd : d ∈ w.docs)
    (hcontent : d.content = some content)
    (hg : ∀ n ∈ w.store.db.notes, n.id = d.noteId → n.indexGeneration = g) :
    WorldInv chunkMarkdown (fun _ => False) (w.defer (.indexNote d.noteId d.title content g)) := by
  refine h.defer (fun x hx => ?_) fun n hn hE _ => ⟨hE, fun x hx => ?_⟩
  · cases hx
    exact h.valid hd hg fun c hc => hc ▸ hcontent
  · cases hx
    exact (hg n hn (List.mem_singleton.mp hE)).symm

theorem readRow_inv {k : ℕ} {noteId : String} (h : WorldInv chunkMarkdown (fun _ => False) w)
    (hk : w.running[k]? = some (.started noteId)) :
    WorldInv chunkMarkdown (fun _ => False) (w.readRow k noteId) := by
  have hdrop := h.dropRunning hk
  unfold World.readRow
  split
  · rename_i n d hn hd
    obtain ⟨hn, hid⟩ := row_some hn
    obtain ⟨hd, hdid⟩ := row_some hd
    have hrow : ∀ x ∈ w.store.db.notes, x.id = noteId → x = n := fun x hx hxid =>
      h.notes.eq hx hn (hxid.trans hid.symm)
    refine hdrop.start (fun x hx => ?_) fun x hx hE _ => ?_
    · cases hx
      exact hdid ▸ hdrop.valid hd (fun x hx hxid => by rw [hrow x hx (hxid.trans hdid)])
        fun c hc => (nomatch hc)
    · have hxid := (hE.resolve_left id).1.symm
      refine .inr (.inr (.inr (.inl ⟨_, List.mem_cons_self, hxid.symm, fun y hy => ?_⟩)))
      cases hy
      rw [hrow x hx hxid]
  · rename_i hnone
    refine hdrop.cover fun x hx hE _ => ?_
    have hxid := (hE.resolve_left id).1.symm
    obtain ⟨d, hd, hdid⟩ := h.doc x hx
    exact (hnone x d (h.notes.row_eq.mpr ⟨hx, hxid⟩) (h.docs.row_eq.mpr ⟨hd, hdid.trans hxid⟩)).elim

theorem readFile_inv {k g : ℕ} {noteId title : String} (h : WorldInv chunkMarkdown (fun _ => False) w)
    (hk : w.running[k]? = some (.row noteId g title)) :
    WorldInv chunkMarkdown (fun _ => False) (w.readFile k noteId g title) := by
  have hdrop := h.dropRunning hk
  have hseen : (⟨noteId, g, title, none⟩ : Seen) ∈ w.seen :=
    mem_seen.mpr (.inl ⟨_, List.mem_of_getElem? hk, rfl⟩)
  unfold World.readFile
  split
  · rename_i content hcontent
    obtain ⟨d, hd, hdc⟩ := Option.bind_eq_some_iff.mp hcontent
    obtain ⟨hd, hdid⟩ := row_some hd
    refine hdrop.start (fun x hx => ?_) fun x hx hE _ => ?_
    · cases hx
      refine ⟨⟨d, hd, hdid, fun _ => hdc ▸ rfl⟩, fun n hn e he hid hxn hsome => ?_⟩
      obtain ⟨hle, htitle⟩ := (h.seen _ hseen).2 n hn e he hid hxn hsome
      refine ⟨hle, fun heq => ⟨(htitle heq).1, fun c hc => ?_⟩⟩
      cases hc
      rw [h.docs.eq he hd (hid.trans (hxn.symm.trans hdid.symm)), hdc]
    · obtain ⟨hxid, hgen⟩ := hE.resolve_left id
      refine .inr (.inr (.inr (.inl ⟨_, List.mem_cons_self, hxid, fun y hy => ?_⟩)))
      cases hy
      exact hgen ⟨noteId, g, title, none⟩ rfl
  · rename_i hnone
    refine hdrop.cover fun x hx hE _ => .inr (.inl ?_)
    obtain ⟨d, hd, hdid⟩ := h.doc x hx
    refine h.blank x hx d hd hdid ?_
    have hrow : w.doc noteId = some d :=
      h.docs.row_eq.mpr ⟨hd, hdid.trans (hE.resolve_left id).1.symm⟩
    rw [hrow] at hnone
    exact hnone

theorem stepWorld_inv (h : WorldInv chunkMarkdown (fun _ => False) w)
    (hspared : Spared chunkMarkdown w a)
    (hnext : stepWorld chunkMarkdown workspace ownerId w a = some w') :
    WorldInv chunkMarkdown (fun _ => False) w' := by
  cases a with
  | save noteId title content =>
    obtain ⟨w1, hinsert, rfl⟩ := Option.map_eq_some_iff.mp hnext
    obtain ⟨hw1, hdocs, hgen⟩ := h.nil.insertNotes hinsert
    exact hw1.deferNote (hdocs List.mem_cons_self) rfl fun n hn hid =>
      hgen n hn (List.mem_singleton.mpr hid)
  | saveMany items =>
    obtain ⟨w1, hinsert, rfl⟩ := Option.map_eq_some_iff.mp hnext
    obtain ⟨hw1, -, -⟩ := h.nil.insertNotes hinsert
    refine hw1.defer (fun _ hx => (by cases hx)) fun n _ hE _ => ⟨?_, fun _ hx => (by cases hx)⟩
    rw [List.append_nil, List.map_map] at hE
    exact hE
  | update noteId title content =>
    obtain ⟨n, hn, hnext⟩ := Option.bind_eq_some_iff.mp hnext
    obtain ⟨hn, hid⟩ := row_some hn
    obtain ⟨w1, hupdate, rfl⟩ := Option.map_eq_some_iff.mp hnext
    obtain ⟨hw1, hdocs, hgen⟩ := h.nil.updateNotes hupdate
    refine hw1.deferNote (hdocs List.mem_cons_self) rfl fun x hx hxid => ?_
    obtain ⟨y, hy, hyid, hyg⟩ := hgen x hx (List.mem_singleton.mpr hxid)
    rw [hyg, h.notes.eq hy hn (hyid.trans (Eq.trans hxid hid.symm))]
  | editMany items | renameTag items =>
    obtain ⟨w1, hedit, rfl⟩ := Option.map_eq_some_iff.mp hnext
    exact (h.editNotes hedit).defer (fun _ hx => (by cases hx)) fun n _ hE _ =>
      ⟨hE, fun _ hx => (by cases hx)⟩
  | rewriteBacklinks items =>
    obtain ⟨w1, hedit, rfl⟩ := Option.map_eq_some_iff.mp hnext
    exact (h.editNotes hedit).enqueue fun n _ hE _ => hE
  | reconcile inserted drifted unchanged missing =>
    obtain ⟨w1, hremove, hnext⟩ := Option.bind_eq_some_iff.mp hnext
    obtain ⟨w2, hinsert, hnext⟩ := Option.bind_eq_some_iff.mp hnext
    obtain ⟨w3, hdrift, hnext⟩ := Option.bind_eq_some_iff.mp hnext
    obtain ⟨docs, hdocs, hupdate⟩ := Option.bind_eq_some_iff.mp hdrift
    cases hnext
    have hw3 := ((h.removeNotes hremove).nil.insertNotes hinsert).1.updateNotes hupdate |>.1
    rw [mapM_noteIds withTitle_noteId hdocs] at hw3
    refine hw3.defer (fun _ hx => (by cases hx)) fun n _ hE _ => ⟨?_, fun _ hx => (by cases hx)⟩
    rw [List.append_nil] at hE
    refine List.mem_append_left _ (List.mem_append.mpr ?_)
    exact (List.mem_append.mp hE).symm
  | finish k ids enqueued =>
    simp only [stepWorld] at hnext
    split at hnext
    · cases hnext
    · rename_i noteId title content g hk
      have hseen : (⟨noteId, g, title, some content⟩ : Seen) ∈ w.seen :=
        mem_seen.mpr (.inr ⟨_, List.mem_of_getElem? hk, rfl⟩)
      refine ((h.dropDeferred hk).index ⟨(h.seen _ hseen).1, (h.seen _ hseen).2⟩ hnext).cover
        fun n _ hE _ => (hE.2 ?_).elim
      obtain ⟨hid, hgen⟩ := hE.1.resolve_left id
      exact ⟨List.mem_singleton.mp hid, (hgen _ rfl).symm⟩
    · rename_i notes hk
      cases enqueued with
      | true =>
        cases hnext
        exact (h.dropDeferred hk).enqueue fun n _ hE _ => (hE.resolve_left id).1
      | false =>
        cases hnext
        simp only [Spared, hk] at hspared
        refine (h.dropDeferred hk).cover fun n _ hE _ => Spare.covered ?_
        exact hspared n.id (hE.resolve_left id).1
  | abandon k =>
    obtain ⟨c, hk, rfl⟩ := Option.map_eq_some_iff.mp hnext
    simp only [Spared, hk] at hspared
    refine (h.dropDeferred hk).cover fun n _ hE _ => Spare.covered ?_
    exact hspared n.id (hE.resolve_left id).1
  | claim noteId =>
    simp only [stepWorld] at hnext
    split at hnext <;> cases hnext
    refine h.queues rfl rfl (fun x hx => .inl hx) fun n hn _ => (h.covered n hn not_false).queues rfl rfl
      (fun hq => ?_) (fun r hr hs => .inr (.inr (.inr (.inl ⟨r, List.mem_cons_of_mem _ hr, hs⟩))))
      fun c hc hs => .inr (.inr (.inr (.inr ⟨c, hc, hs⟩)))
    by_cases hid : noteId = n.id
    · exact .inr (.inr (.inr (.inl ⟨_, List.mem_cons_self, hid, fun _ hx => (by cases hx)⟩)))
    · exact .inr (.inr (.inl ((List.mem_erase_of_ne (Ne.symm hid)).mpr hq)))
  | readRow k =>
    simp only [stepWorld] at hnext
    split at hnext <;> cases hnext
    exact readRow_inv h ‹_›
  | readFile k =>
    simp only [stepWorld] at hnext
    split at hnext <;> cases hnext
    exact readFile_inv h ‹_›
  | write k ids resolved =>
    simp only [stepWorld] at hnext
    split at hnext
    swap
    · cases hnext
    rename_i noteId g title content hk
    have hseen : (⟨noteId, g, title, some content⟩ : Seen) ∈ w.seen :=
      mem_seen.mpr (.inl ⟨_, List.mem_of_getElem? hk, rfl⟩)
    refine ((h.dropRunning hk).index ⟨(h.seen _ hseen).1, (h.seen _ hseen).2⟩ hnext).cover
      fun n _ hE _ => (hE.2 ?_).elim
    obtain ⟨hid, hgen⟩ := hE.1.resolve_left id
    exact ⟨hid.symm, (hgen _ rfl).symm⟩
  | retry k =>
    obtain ⟨r, hk, rfl⟩ := Option.map_eq_some_iff.mp hnext
    exact (h.dropRunning hk).enqueue fun n _ hE _ =>
      List.mem_singleton.mpr (hE.resolve_left id).1.symm
  | embed noteId identity vectors =>
    simp only [stepWorld] at hnext
    split at hnext
    swap
    · cases hnext
    obtain ⟨t, ht, rfl⟩ := exec_eq_some hnext
    obtain ⟨u, hu, hut⟩ := Option.bind_eq_some_iff.mp ht
    cases hut
    have hw := h.withEmbeds (w.embeds.erase noteId)
    change step w.store (.attachVectors _) = some t at hu
    simp only [step] at hu
    split at hu
    · cases hu
      exact hw
    · split at hu <;> cases hu
      · rename_i hcovers
        refine hw.embed (show Effect w.store _ noteId from .refl rfl) (fun _ => rfl) (fun c hc => ?_) (.inl fun hnil => ?_)
        · rcases List.mem_cons.mp hc with rfl | hc
          · exact .inl ⟨fun _ _ hc => (by cases hc), rfl⟩
          · exact .inr hc
        · refine hcovers.1 ?_
          rw [chunkRows, List.map_eq_nil_iff.mp hnil]
          rfl
      · exact hw
  | attach k =>
    obtain ⟨t, ht, rfl⟩ := exec_eq_some hnext
    obtain ⟨u, hu, hut⟩ := Option.bind_eq_some_iff.mp ht
    cases hut
    cases hk : w.store.calls[k]? with
    | none =>
      change step w.store (.run k []) = some t at hu
      simp only [step, hk] at hu
      cases hu
    | some call =>
      have hcall := List.mem_of_getElem? hk
      obtain ⟨heffect, htexts, hcalls⟩ := step_attach hk (h.attach call hcall) hu
      exact h.embed heffect htexts hcalls (.inr ⟨call, hcall, rfl⟩)
  | retryEmbed k =>
    obtain ⟨call, hk, hnext⟩ := Option.bind_eq_some_iff.mp hnext
    obtain ⟨w1, hexec, rfl⟩ := Option.map_eq_some_iff.mp hnext
    obtain ⟨t, ht, rfl⟩ := exec_eq_some hexec
    obtain ⟨u, hu, hut⟩ := Option.bind_eq_some_iff.mp ht
    cases hut
    cases hu
    have hw := h.embed (show Effect w.store (w.store.drop k) call.noteId from .refl rfl) (fun _ => rfl)
      (fun c hc => .inr (List.mem_of_mem_eraseIdx hc)) (.inr ⟨call, List.mem_of_getElem? hk, rfl⟩)
    exact hw.withEmbeds _

theorem empty_worldInv : WorldInv chunkMarkdown (fun _ => False) (World.empty : World ν) := by
  refine ⟨UniqueOn.nil, UniqueOn.nil, fun _ hn => (nomatch hn), fun m hm => ?_, fun _ hc => (nomatch hc),
    fun _ hx => (by cases hx), fun _ hn => (nomatch hn), fun _ hn => (nomatch hn)⟩
  rcases hm with hm | ⟨c, hc, -⟩
  · exact absurd rfl hm
  · nomatch hc

end

/-! ## an edit whose job is never queued -/

/-- A line of text is one chunk under the title. -/
def line (content title : String) : List Chunk := [⟨0, ["# " ++ title], content, 0, content.length⟩]

/-- A note is saved and chunked, its chunk gets a vector. -/
def embedded : List (Action ℕ) :=
  [.save "n" "Title" "text", .finish 0 ["a"] true, .embed "n" ⟨"model", 2⟩ [("a", [0, 1])], .attach 0,
    .attach 0]

end Kajet.Chunks
