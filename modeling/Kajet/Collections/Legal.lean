import Kajet.Collections.Segments
import Kajet.Lib.Runs
import Kajet.Paths.Stable

/-!
# Legal paths on every date

`_validate_rendered_path` looks at one date and at the ordinal 1.

* `Legal`, `legal_iff`    the names that `title_to_windows_filename` leaves as they are;
* `legal_of_varies`       other digits in a legal name make a legal name, if it does not get too long;
* `Faithful`              every placeholder writes its value, an ordinal with zeros in front up to a width;
* `format_varies`         then the renderings of a template differ in their digits only;
* `render_legal`          what an accepted definition renders is legal on every date, for every ordinal.
-/

namespace Kajet.Collections
open Str Links Runs Fallible
open Paths (Ends Spaced Clear cleaned blanked)

/-! ## legal names -/

structure Legal (p : Text) : Prop where
  ne_nil : p ≠ []
  chars : ∀ c ∈ p, windowsForbidden c = false
  spaced : Spaced p
  head : ∀ c, p.head? = some c → isSpace c = false
  ends : Ends p
  unreserved : p.map Char.toUpper ∉ windowsReserved
  length : p.length ≤ 200

section
variable {p q s t folder : Text} {c : Char}

theorem legal_of_filename (hname : titleToWindowsFilename p = p) : Legal p := by
  have hsafe := Paths.safe_filename p
  have hspaced := Paths.spaced_filename p
  obtain ⟨c, hc, hspace⟩ := (segment_titleToWindowsFilename p).head
  have hends : Ends (titleToWindowsFilename p) := Paths.ends_of_again (.inl hname.symm) rfl
  rw [hname] at hsafe hspaced hc hends
  refine ⟨hsafe.ne_nil, hsafe.chars, hspaced, fun d hd => ?_, hends, hsafe.unreserved, hsafe.length⟩
  rw [hc] at hd
  cases hd
  exact hspace

theorem Legal.filename (h : Legal p) : titleToWindowsFilename p = p := by
  have hstrip : strip p = p := stripBy_eq_self.mpr ⟨h.head, fun c hc => (h.ends c hc).1⟩
  have hcleaned : cleaned p = p := by
    rw [cleaned, Paths.blanked_eq_self h.chars h.spaced, hstrip]
    refine rdropWhile_eq_self.mpr fun c hc => decide_eq_false fun hmem => ?_
    obtain ⟨hspace, hdot⟩ := h.ends c hc
    rcases List.mem_cons.mp hmem with rfl | hmem
    · exact hdot rfl
    · rw [List.mem_singleton.mp hmem] at hspace
      revert hspace
      decide
  rcases Paths.filename_cases p with ⟨hnil, _⟩ | ⟨hreserved, _⟩ | ⟨_, _, hname⟩
  · rw [hcleaned] at hnil
    exact (h.ne_nil hnil).elim
  · rw [hcleaned] at hreserved
    exact (h.unreserved hreserved).elim
  · rw [hname, hcleaned, List.take_of_length_le h.length]

/-- The names that stay as they are. -/
theorem legal_iff : titleToWindowsFilename p = p ↔ Legal p := ⟨legal_of_filename, Legal.filename⟩

/-- A folder of legal names is normalised. -/
theorem normalizeFolder_of_legal (h : ∀ p ∈ split '/' folder, Legal p) : normalizeFolder folder = some folder := by
  have hclear : Clear (split '/' folder) := fun p hp => ⟨⟨p, (h p hp).filename⟩, (h p hp).ends⟩
  have hnormal := hclear.normalizeFolder
  rwa [join_split] at hnormal

theorem legal_of_normalized (h : normalizeFolder folder = some folder) (hne : folder ≠ []) :
    ∀ p ∈ split '/' folder, Legal p := by
  obtain ⟨hclear, hjoin⟩ := Paths.clear_of_normalized h
  have hnil : pathSegments folder ≠ [] := by
    intro hnil
    rw [hnil] at hjoin
    exact hne hjoin.symm
  intro p hp
  rw [← hjoin, split_join hnil fun p hp => (hclear.segments p hp).2] at hp
  obtain ⟨⟨raw, rfl⟩, hends⟩ := hclear p hp
  exact legal_of_filename (Paths.filename_of_ends hends)

/-! ## other digits -/

/-- The longer of two numbers, whose digits are no single zero. -/
def Wider (a b : Text) : Prop := a.length ≤ b.length ∧ (b.length = 1 → a ≠ ['0'])

/-- Digits are no letters, no spaces and nothing that is forbidden. -/
theorem digit_spec (h : c.isDigit = true) : isSpace c = false ∧ c ≠ '.' ∧ c ≠ ' ' ∧ windowsForbidden c = false ∧
    c.toUpper = c := by
  obtain ⟨hlow, hhigh⟩ := Char.isDigit_iff_toNat.mp h
  have hzero : '0'.toNat = 48 := rfl
  have hnine : '9'.toNat = 57 := rfl
  obtain ⟨hspace, hdot⟩ := Paths.plain_of_toNat (c := c) (by omega)
  refine ⟨hspace, hdot, ?_, ?_, ?_⟩
  · rintro rfl
    cases h
  · unfold windowsForbidden
    rw [Bool.or_eq_false_iff]
    refine ⟨decide_eq_false fun hmem => ?_, decide_eq_false (by omega)⟩
    have hnone : ∀ d ∈ "\\/:*?\"<>|".toList, d.isDigit = false := by decide +kernel
    rw [hnone c hmem] at h
    cases h
  · unfold Char.toUpper
    split
    · rename_i hlower
      have hletter : (97 : ℕ) ≤ c.toNat := UInt32.le_iff_toNat_le.mp hlower.1
      omega
    · rfl

theorem isDigit_toUpper (c : Char) : c.toUpper.isDigit = c.isDigit := by
  cases h : c.isDigit with
  | true => rw [(digit_spec h).2.2.2.2, h]
  | false =>
    refine Bool.eq_false_of_not_eq_true fun hupper => ?_
    unfold Char.toUpper at hupper
    split at hupper
    · -- a letter becomes a letter
      rename_i hlower
      have h1 : (97 : ℕ) ≤ c.toNat := UInt32.le_iff_toNat_le.mp hlower.1
      have h2 : c.toNat ≤ 122 := UInt32.le_iff_toNat_le.mp hlower.2
      have hhigh := UInt32.le_iff_toNat_le.mp (of_decide_eq_true (Bool.and_eq_true_iff.mp hupper).2)
      rw [UInt32.toNat_add] at hhigh
      have hshift : ('A'.val - 'a'.val).toNat = 4294967264 := rfl
      have hnine : '9'.val.toNat = 57 := rfl
      have hval : c.val.toNat = c.toNat := rfl
      omega
    · rw [h] at hupper
      cases hupper

/-- The reserved names have one digit at most, and go on to be reserved with any other but zero. -/
theorem reserved_spec : (∀ r ∈ windowsReserved, r.countP Char.isDigit ≤ 1) ∧
    ∀ r ∈ windowsReserved, ∀ i < r.length, (r.getD i 'A').isDigit = true → ∀ c ∈ "123456789".toList,
      r.set i c ∈ windowsReserved := by
  constructor <;> decide +kernel

theorem mem_digits (h : c.isDigit = true) (hzero : c ≠ '0') : c ∈ "123456789".toList := by
  obtain ⟨hlow, hhigh⟩ := Char.isDigit_iff_toNat.mp h
  have h0 : '0'.toNat = 48 := rfl
  have h9 : '9'.toNat = 57 := rfl
  have hne : c.toNat ≠ 48 := fun heq => hzero (Char.toNat_inj.mp heq)
  have hall : ∀ n < 58, 48 < n → Char.ofNat n ∈ "123456789".toList := by decide +kernel
  have hmem := hall c.toNat (by omega) (by omega)
  rwa [Char.ofNat_toNat] at hmem

theorem unreserved_of_varies (h : Varies Char.isDigit Wider s t) (hs : s.map Char.toUpper ∉ windowsReserved) :
    t.map Char.toUpper ∉ windowsReserved := by
  intro ht
  have hcount := reserved_spec.1 _ ht
  have hdigits : (t.map Char.toUpper).countP Char.isDigit = t.countP Char.isDigit := by
    rw [List.countP_map]
    exact List.countP_congr fun c _ => by rw [Function.comp_apply, isDigit_toUpper]
  rw [hdigits] at hcount
  rcases h.single (fun a b hab => hab.1) hcount with rfl | ⟨before, x, y, after, rfl, rfl, hx, hy, hwider⟩
  · exact hs ht
  · -- the digit of a device: with another one it is a device again
    have hzero : x ≠ '0' := fun heq => hwider.2 rfl (by rw [heq])
    refine hs ?_
    rw [List.map_append, List.map_cons, (digit_spec hy).2.2.2.2] at ht
    rw [List.map_append, List.map_cons, (digit_spec hx).2.2.2.2]
    have hset := reserved_spec.2 _ ht (before.map Char.toUpper).length (by simp) (by simpa using hy) x
      (mem_digits hx hzero)
    simpa using hset

/-- **Other digits in a legal name.** -/
theorem legal_of_varies (h : Varies Char.isDigit Wider s t) (hs : Legal s) (hlen : t.length ≤ 200) : Legal t where
  ne_nil := mt h.eq_nil.mpr hs.ne_nil
  chars c hc := by
    cases hdigit : c.isDigit with
    | true => exact (digit_spec hdigit).2.2.2.1
    | false => exact hs.chars c (h.mem hc hdigit)
  spaced := by
    refine h.isChain (fun a b hab ha hb => ?_) hs.spaced
    rcases hab with hdigit | hdigit
    · exact (digit_spec hdigit).2.2.1 ha
    · exact (digit_spec hdigit).2.2.1 hb
  head c hc := by
    cases hdigit : c.isDigit with
    | true => exact (digit_spec hdigit).1
    | false => exact hs.head c (h.head? hc hdigit)
  ends c hc := by
    cases hdigit : c.isDigit with
    | true => exact ⟨(digit_spec hdigit).1, (digit_spec hdigit).2.1⟩
    | false => exact hs.ends c (h.getLast? hc hdigit)
  unreserved := unreserved_of_varies h hs.unreserved
  length := hlen

/-- The slashes stay where they are. -/
theorem split_varies {R : Text → Text → Prop} (h : Varies Char.isDigit R s t) :
    List.Forall₂ (Varies Char.isDigit R) (split '/' s) (split '/' t) := by
  have hrun : ∀ {a b s t : Text}, Varies Char.isDigit R a b → '/' ∉ a → '/' ∉ b →
      List.Forall₂ (Varies Char.isDigit R) (split '/' s) (split '/' t) →
      List.Forall₂ (Varies Char.isDigit R) (split '/' (a ++ s)) (split '/' (b ++ t)) := by
    intro a b s t hab ha hb hst
    obtain ⟨head, tail, hsplit, hcons⟩ := split_cons ha s
    obtain ⟨head', tail', hsplit', hcons'⟩ := split_cons hb t
    rw [hsplit, hsplit'] at hst
    rw [hcons, hcons']
    obtain ⟨hhead, htail⟩ := List.forall₂_cons.mp hst
    exact .cons (hab.append hhead) htail
  induction h with
  | nil => exact .cons .nil .nil
  | @same c s t _ ih =>
    by_cases hc : c = '/'
    · subst hc
      show List.Forall₂ _ (split '/' ([] ++ '/' :: s)) (split '/' ([] ++ '/' :: t))
      rw [split_append, split_append]
      exact .cons .nil ih
    · have hnot : '/' ∉ [c] := fun hmem => hc (List.mem_singleton.mp hmem).symm
      exact hrun (.refl [c]) hnot hnot ih
  | @run a b s t ha hb hab _ ih =>
    have hslash : ∀ {a : Text}, Run Char.isDigit a → '/' ∉ a := fun ha hmem => by
      have hdigit := ha.2 '/' hmem
      revert hdigit
      decide
    exact hrun (.of_run ha hb hab) (hslash ha) (hslash hb) ih

end

/-! ## what the placeholders write -/

/-- `str.zfill`, of digits -/
def zfill (w : ℕ) (t : Text) : Text := List.replicate (w - t.length) '0' ++ t

/-- Every placeholder writes its value, an ordinal with zeros in front of it up to a width. -/
structure Faithful (L : Language) (D : CollectionDefinition) : Prop where
  value : ∀ f ∈ D.fields, f.name ≠ "ordinal".toList → ∀ d n v, D.values d n = some v → L.write v f = v.get f.name
  ordinal : ∀ f ∈ D.fields, f.name = "ordinal".toList → ∃ w, ∀ d n v, D.values d n = some v →
    L.write v f = some (zfill w (str n))

/-- Two numbers of the same width, which is not one. -/
def Fixed (a b : Text) : Prop := a.length = b.length ∧ 2 ≤ b.length

section
variable {L : Language} {D : CollectionDefinition} {d d' : Date} {n n' w k : ℕ} {v v' : Values} {f : Field}
  {s t : Text} {R : Text → Text → Prop}

/-- Without conversion and format spec they do. -/
theorem faithful_of_plain (haccepted : Accepted L D) (h : ∀ f ∈ D.fields, f.conversion = none ∧ f.spec = []) :
    Faithful L D where
  value f hf _ d n v hv := write_of_plain h haccepted hv hf
  ordinal f hf hordinal := by
    refine ⟨0, fun d n v hv => ?_⟩
    obtain ⟨_, _, -, -, rfl⟩ := values_eq_some.mp hv
    rw [write_of_plain h haccepted hv hf, hordinal, get_ordinal]
    exact congrArg some (by rw [zfill, Nat.zero_sub]; rfl)

theorem run_zfill (w n : ℕ) : Run Char.isDigit (zfill w (str n)) := by
  refine ⟨List.append_ne_nil_of_right_ne_nil _ Nat.toDigits_ne_nil, fun c hc => ?_⟩
  rcases List.mem_append.mp hc with hzero | hdigit
  · rw [List.eq_of_mem_replicate hzero]
    decide
  · exact Nat.isDigit_of_mem_toDigits (by decide) (by decide) hdigit

theorem length_zfill (w : ℕ) (t : Text) : (zfill w t).length = max w t.length := by
  rw [zfill, List.length_append, List.length_replicate]
  omega

/-- Zeros in front do not count. -/
theorem digits_zfill (w n : ℕ) : Frontmatter.digits (zfill w (str n)) = some n := by
  have hzeros : ∀ k, (List.replicate k '0').foldl (fun n c => 10 * n + (c.toNat - '0'.toNat)) 0 = 0 := by
    intro k
    induction k with
    | zero => rfl
    | succ k ih =>
      rw [List.replicate_succ, List.foldl_cons]
      exact ih
  obtain ⟨hne, hall⟩ := run_zfill w n
  have hstr := digits_str n
  unfold Frontmatter.digits at hstr ⊢
  rw [if_pos ⟨hne, List.all_eq_true.mpr hall⟩, zfill, List.foldl_append, hzeros]
  split at hstr
  · exact hstr
  · cases hstr

theorem str_length_mono (h : n ≤ k) : (str n).length ≤ (str k).length := by
  refine (Nat.length_toDigits_le_iff (by decide) Nat.length_toDigits_pos).mpr (Nat.lt_of_le_of_lt h ?_)
  exact (Nat.length_toDigits_le_iff (by decide) Nat.length_toDigits_pos).mp (Nat.le_refl _)

/-- No ordinal is shorter than the one of the check. -/
theorem wider_zfill (w n : ℕ) : Wider (zfill w (str 1)) (zfill w (str n)) := by
  refine ⟨?_, fun _ hzero => ?_⟩
  · have hpos : 0 < (str n).length := Nat.length_toDigits_pos
    have hone : (str 1).length = 1 := rfl
    rw [length_zfill, length_zfill, hone]
    omega
  · have hone := digits_zfill w 1
    rw [hzero] at hone
    cases hone

theorem wider_of_fixed (h : Fixed s t) : Wider s t := ⟨h.1.le, fun hone => by have := h.2; omega⟩

theorem pad_varies (hw : 2 ≤ w) (n k : ℕ) : Varies Char.isDigit Fixed (pad w n) (pad w k) := by
  have hrun : ∀ n, Run Char.isDigit (pad w n) := fun n => by
    refine ⟨fun hnil => ?_, fun c hc => isDigit_of_mem_pad hc⟩
    have hlen := length_pad w n
    rw [hnil, List.length_nil] at hlen
    omega
  refine .of_run (hrun n) (hrun k) ⟨?_, ?_⟩
  · rw [length_pad, length_pad]
  · rw [length_pad]
    exact hw

theorem isoformat_varies (d d' : Date) : Varies Char.isDigit Fixed d.isoformat d'.isoformat :=
  (pad_varies (by decide) _ _).append (.same '-' ((pad_varies (by decide) _ _).append
    (.same '-' (pad_varies (by decide) _ _))))

theorem formatKey_varies (d d' : Date) (grain : PeriodKind) :
    Varies Char.isDigit Fixed (formatKey d grain) (formatKey d' grain) := by
  cases grain with
  | day => exact isoformat_varies d d'
  | week => exact (pad_varies (by decide) _ _).append (.same '-' (.same 'W' (pad_varies (by decide) _ _)))
  | month => exact (pad_varies (by decide) _ _).append (.same '-' (pad_varies (by decide) _ _))
  | year => exact pad_varies (by decide) _ _

/-- Two values of one placeholder differ in their digits. -/
theorem value_varies (hv : D.values d n = some v) (hv' : D.values d' n' = some v') {name : Text}
    (hname : name ≠ "ordinal".toList) (hs : v.get name = some s) (ht : v'.get name = some t) :
    Varies Char.isDigit Fixed s t := by
  obtain ⟨period, month, -, hmonth, rfl⟩ := values_eq_some.mp hv
  obtain ⟨period', month', -, hmonth', rfl⟩ := values_eq_some.mp hv'
  unfold Values.get at hs ht
  by_cases hdate : name = "date".toList
  · rw [if_pos hdate] at hs ht
    cases hs
    cases ht
    exact isoformat_varies d d'
  rw [if_neg hdate] at hs ht
  by_cases hkey : name = "key".toList
  · rw [if_pos hkey] at hs ht
    cases hs
    cases ht
    exact formatKey_varies d d' D.grain
  rw [if_neg hkey] at hs ht
  by_cases hyear : name = "year".toList
  · rw [if_pos hyear] at hs ht
    obtain ⟨y, hy, -⟩ := formatKey_take d D.grain
    obtain ⟨y', hy', -⟩ := formatKey_take d' D.grain
    cases hs
    cases ht
    dsimp only
    rw [hy, hy']
    exact pad_varies (by decide) y y'
  rw [if_neg hyear] at hs ht
  by_cases hmonthName : name = "month".toList
  · rw [if_pos hmonthName] at hs ht
    obtain rfl : month = some s := hs
    obtain rfl : month' = some t := ht
    obtain ⟨k, rfl⟩ := monthValue_pad hmonth
    obtain ⟨k', rfl⟩ := monthValue_pad hmonth'
    exact pad_varies (by decide) k k'
  · rw [if_neg hmonthName, if_neg hname] at hs
    cases hs

/-! ## what is rendered -/

/-- A template is written with what its placeholders write. -/
theorem format_varies {template : Text} {pieces : List Piece} (hparse : parse template = some pieces)
    (h : ∀ f ∈ fieldsOf pieces, ∀ a b, L.write v f = some a → L.write v' f = some b → Varies Char.isDigit R a b)
    (hs : format L v template = some s) (ht : format L v' template = some t) : Varies Char.isDigit R s t := by
  obtain ⟨pieces₁, texts, hparse₁, htexts, rfl⟩ := format_eq_some.mp hs
  obtain ⟨pieces₂, texts', hparse₂, htexts', rfl⟩ := format_eq_some.mp ht
  cases hparse.symm.trans hparse₁
  cases hparse.symm.trans hparse₂
  clear hparse hparse₁ hparse₂ hs ht
  induction htexts generalizing texts' with
  | nil =>
    cases htexts'
    exact .nil
  | @cons p text pieces texts hp _ ih =>
    obtain ⟨text', rest', hp', hrest', rfl⟩ := List.forall₂_cons_left_iff.mp htexts'
    rw [List.flatten_cons, List.flatten_cons]
    refine Varies.append ?_ (ih (fun f hf => h f (mem_fieldsOf_of_mem hf)) rest' hrest')
    unfold writePiece at hp hp'
    cases hfield : p.field with
    | none =>
      rw [hfield] at hp hp'
      cases hp
      cases hp'
      exact .refl _
    | some f =>
      rw [hfield] at hp hp'
      obtain ⟨a, ha, rfl⟩ := Option.map_eq_some_iff.mp hp
      obtain ⟨b, hb, rfl⟩ := Option.map_eq_some_iff.mp hp'
      exact (Varies.refl _).append (h f (mem_fieldsOf_of_field hfield) a b ha hb)

theorem Faithful.varies (h : Faithful L D) (hfixed : ∀ a b, Fixed a b → R a b)
    (hordinal : "ordinal".toList ∈ D.names → ∀ w, R (zfill w (str n)) (zfill w (str n')))
    (hv : D.values d n = some v) (hv' : D.values d' n' = some v') (hf : f ∈ D.fields) (hs : L.write v f = some s)
    (ht : L.write v' f = some t) : Varies Char.isDigit R s t := by
  by_cases hname : f.name = "ordinal".toList
  · obtain ⟨w, hwrite⟩ := h.ordinal f hf hname
    rw [hwrite d n v hv] at hs
    rw [hwrite d' n' v' hv'] at ht
    cases hs
    cases ht
    exact .of_run (run_zfill w n) (run_zfill w n') (hordinal (hname ▸ List.mem_map_of_mem hf) w)
  · rw [h.value f hf hname d n v hv] at hs
    rw [h.value f hf hname d' n' v' hv'] at ht
    exact (value_varies hv hv' hname hs ht).imp fun a b _ _ => hfixed a b

/-- Two renderings of a definition differ in their digits. -/
theorem render_varies {pair pair' : Text × Text} (haccepted : Accepted L D) (h : Faithful L D)
    (hfixed : ∀ a b, Fixed a b → R a b)
    (hordinal : "ordinal".toList ∈ D.names → ∀ w, R (zfill w (str n)) (zfill w (str n')))
    (hpair : D.render L d (some n) = some pair) (hpair' : D.render L d' (some n') = some pair') :
    Varies Char.isDigit R pair.1 pair'.1 ∧ Varies Char.isDigit R pair.2 pair'.2 := by
  obtain ⟨folder, title, hparse, hparse', hfields, -, -⟩ := haccepted.parsed
  obtain ⟨v, hv, hfolder, htitle⟩ := render_eq_some.mp hpair
  obtain ⟨v', hv', hfolder', htitle'⟩ := render_eq_some.mp hpair'
  have hwrite := fun f hf a b => @Faithful.varies L D d d' n n' v v' f a b R h hfixed hordinal hv hv' hf
  rw [hfields] at hwrite
  exact ⟨format_varies hparse (fun f hf => hwrite f (List.mem_append_left _ hf)) hfolder hfolder',
    format_varies hparse' (fun f hf => hwrite f (List.mem_append_right _ hf)) htitle htitle'⟩

/-- No segment is too long for a file name. -/
def Short (pair : Text × Text) : Prop := (∀ p ∈ split '/' pair.1, p.length ≤ 200) ∧ pair.2.length ≤ 200

structure LegalPath (pair : Text × Text) : Prop where
  folder : ∀ p ∈ split '/' pair.1, Legal p
  title : Legal pair.2

theorem LegalPath.normal {pair : Text × Text} (h : LegalPath pair) : normalizeFolder pair.1 = some pair.1 :=
  normalizeFolder_of_legal h.folder

/-- Only an ordinal can make a rendering longer. -/
theorem short_of_render {pair pair' : Text × Text} (haccepted : Accepted L D) (h : Faithful L D)
    (hle : "ordinal".toList ∈ D.names → n ≤ n') (hpair : D.render L d (some n) = some pair)
    (hpair' : D.render L d' (some n') = some pair') (hshort : Short pair') : Short pair := by
  obtain ⟨hfolder, htitle⟩ := @render_varies L D d d' n n' (fun a b => a.length ≤ b.length) pair pair' haccepted h
    (fun a b hab => hab.1.le) (fun hordinal w => by
      have hlen := str_length_mono (hle hordinal)
      rw [length_zfill, length_zfill]
      omega) hpair hpair'
  refine ⟨fun p hp => ?_, (htitle.length_le fun _ _ hab => hab).trans hshort.2⟩
  obtain ⟨q, hq, hvaries⟩ := exists_of_forall₂ (split_varies hfolder) hp
  exact (hvaries.length_le fun _ _ hab => hab).trans (hshort.1 q hq)

/-- **Legal on every date**, and for every ordinal whose path is short enough. -/
theorem render_legal {pair : Text × Text} (haccepted : Accepted L D) (h : Faithful L D)
    (hpair : D.render L d (some n) = some pair) (hshort : "ordinal".toList ∈ D.names → Short pair) :
    LegalPath pair := by
  obtain ⟨anchor, checked, hchecked, hne, hfolder, htitle⟩ := haccepted.rendered
  obtain ⟨hvaries, hvaries'⟩ := render_varies (R := Wider) haccepted h (fun a b hab => wider_of_fixed hab)
    (fun _ w => wider_zfill w n) hchecked hpair
  have hlegal := legal_of_normalized hfolder hne
  have hlegal' := legal_of_filename htitle
  have hshort : Short pair := by
    by_cases hordinal : "ordinal".toList ∈ D.names
    · exact hshort hordinal
    · exact short_of_render haccepted h (fun hmem => (hordinal hmem).elim) hpair hchecked
        ⟨fun p hp => (hlegal p hp).length, hlegal'.length⟩
  refine ⟨fun p hp => ?_, legal_of_varies hvaries' hlegal' hshort.2⟩
  have hsegments : List.Forall₂ (fun t s => Varies Char.isDigit Wider s t) (split '/' pair.1) (split '/' checked.1) :=
    List.Forall₂.flip (split_varies hvaries)
  obtain ⟨q, hq, hsegment⟩ := exists_of_forall₂ hsegments hp
  exact legal_of_varies hsegment (hlegal q hq) (hshort.1 p hp)

/-- What is faithful can be rendered. -/
theorem render_total (haccepted : Accepted L D) (h : Faithful L D) (d : Date) (n : ℕ) :
    ∃ pair, D.render L d (some n) = some pair := by
  obtain ⟨folder, title, hparse, hparse', hfields, -, -⟩ := haccepted.parsed
  obtain ⟨v, hv⟩ := values_total D d n
  have hwrite : ∀ f ∈ D.fields, ∃ t, L.write v f = some t := by
    intro f hf
    by_cases hname : f.name = "ordinal".toList
    · obtain ⟨w, hwrite⟩ := h.ordinal f hf hname
      exact ⟨_, hwrite d n v hv⟩
    · obtain ⟨t, ht⟩ := get_isSome haccepted hv (List.mem_map_of_mem hf)
      exact ⟨t, (h.value f hf hname d n v hv).trans ht⟩
  rw [hfields] at hwrite
  obtain ⟨s, hs⟩ := format_of_writes hparse fun f hf => hwrite f (List.mem_append_left _ hf)
  obtain ⟨t, ht⟩ := format_of_writes hparse' fun f hf => hwrite f (List.mem_append_right _ hf)
  exact ⟨(s, t), render_eq_some.mpr ⟨v, hv, hs, ht⟩⟩

end

end Kajet.Collections
