import Kajet.Collections.Sampling

/-!
# The segments of a folder

* `literal_inj`     two templates without placeholders that write the same are the same;
* `Token`           a character of a template, or a placeholder, with what it writes;
* `segments_fit`    where every placeholder writes its value, the folder has the segments of the template.
-/

namespace Kajet.Collections
open Str Fallible

/-! ## templates without placeholders -/

section
variable {L : Language} {v v' : Values} {s t x rest : Text} {p : Piece} {pieces : List Piece} {f : Field}

/-- A brace is written twice. -/
def double (c : Char) : Text := if isBrace c then [c, c] else [c]

theorem double_takeWhile (s : Text) :
    (s.takeWhile fun c => !isBrace c).flatMap double = s.takeWhile fun c => !isBrace c := by
  induction s with
  | nil => rfl
  | cons c s ih =>
    rw [List.takeWhile_cons]
    split
    · rename_i hc
      have hdouble : double c = [c] := if_neg (by simpa using hc)
      rw [List.flatMap_cons, ih, hdouble, List.singleton_append]
    · rfl

theorem nextPiece_literal (h : nextPiece s = some (p, rest)) (hp : p.field = none) :
    s = p.literal.flatMap double ++ rest := by
  have hs := @List.takeWhile_append_dropWhile _ (fun c => !isBrace c) s
  have hopen : double '{' = ['{', '{'] := rfl
  have hclose : double '}' = ['}', '}'] := rfl
  unfold nextPiece at h
  dsimp only at h
  split at h
  · rename_i hrest
    cases h
    rw [double_takeWhile, List.append_nil]
    rw [hrest, List.append_nil] at hs
    exact hs.symm
  · rename_i hrest
    cases h
    rw [List.flatMap_append, double_takeWhile, List.flatMap_singleton, hopen, List.append_assoc]
    rw [hrest] at hs
    exact hs.symm
  · rename_i hrest
    cases h
    rw [List.flatMap_append, double_takeWhile, List.flatMap_singleton, hclose, List.append_assoc]
    rw [hrest] at hs
    exact hs.symm
  · obtain ⟨r, -, hr⟩ := Option.map_eq_some_iff.mp h
    cases hr
    cases hp
  · cases h

/-- Without placeholders the text of a template gives the template. -/
theorem parsePieces_literal {fuel : ℕ} (h : parsePieces fuel s = some pieces) (hp : fieldsOf pieces = []) :
    s = (pieces.flatMap (·.literal)).flatMap double := by
  induction fuel generalizing s pieces with
  | zero =>
    cases s with
    | nil =>
      cases h
      rfl
    | cons c s => cases h
  | succ fuel ih =>
    cases s with
    | nil =>
      cases h
      rfl
    | cons c s =>
      obtain ⟨r, hr, h⟩ := Option.bind_eq_some_iff.mp h
      obtain ⟨next, hnext, h⟩ := Option.bind_eq_some_iff.mp h
      obtain rfl := Option.some.inj h
      have hfield : r.1.field = none := by
        cases hfield : r.1.field with
        | none => rfl
        | some f =>
          rw [fieldsOf_cons_some hfield] at hp
          cases hp
      rw [fieldsOf_cons_none hfield] at hp
      rw [List.flatMap_cons, List.flatMap_append, ← ih hnext hp]
      exact nextPiece_literal hr hfield

theorem format_literal (h : templateFields s = some []) (hx : format L v s = some x) : s = x.flatMap double := by
  obtain ⟨pieces, texts, hparse, htexts, rfl⟩ := format_eq_some.mp hx
  obtain ⟨pieces', hparse', hnames⟩ := templateFields_eq h
  rw [hparse] at hparse'
  cases hparse'
  have hfields : fieldsOf pieces = [] := List.map_eq_nil_iff.mp hnames.symm
  have hflat : texts.flatten = pieces.flatMap (·.literal) := by
    rw [← flatten_pieceTexts htexts]
    clear htexts hparse hnames h hx
    induction pieces with
    | nil => rfl
    | cons p pieces ih =>
      cases hfield : p.field with
      | none =>
        rw [fieldsOf_cons_none hfield] at hfields
        rw [List.flatMap_cons, List.flatMap_cons, List.flatten_append, ih hfields, pieceTexts_of_none hfield,
          List.flatten_singleton]
      | some f =>
        rw [fieldsOf_cons_some hfield] at hfields
        cases hfields
  rw [hflat]
  exact parsePieces_literal hparse hfields

/-- A template without braces writes itself. -/
theorem format_plain (hs : ∀ c ∈ s, isBrace c = false) : format L v s = some s := by
  cases s with
  | nil => rfl
  | cons c s =>
    have hall : ∀ a ∈ c :: s, (!isBrace a) = true := fun a ha => by rw [hs a ha]; rfl
    have hnext : nextPiece (c :: s) = some (⟨c :: s, none⟩, []) := by
      unfold nextPiece
      rw [List.dropWhile_eq_nil_iff.mpr hall, List.takeWhile_eq_self_iff.mpr hall]
    have hparse : parse (c :: s) = some [⟨c :: s, none⟩] := by
      show (nextPiece (c :: s) >>= _) = _
      rw [hnext]
      cases s <;> rfl
    refine format_eq_some.mpr ⟨_, [c :: s], hparse, .cons rfl .nil, ?_⟩
    rw [List.flatten_singleton]

/-- A template that begins without braces writes its beginning first. -/
theorem prefix_of_format (hs : ∀ c ∈ s, isBrace c = false) (h : format L v (s ++ t) = some x) : s <+: x := by
  obtain ⟨pieces, texts, hparse, htexts, rfl⟩ := format_eq_some.mp h
  cases s with
  | nil => exact List.nil_prefix
  | cons c s =>
    obtain ⟨r, hr, hparse⟩ := Option.bind_eq_some_iff.mp hparse
    obtain ⟨rest, -, hparse⟩ := Option.bind_eq_some_iff.mp hparse
    obtain rfl := Option.some.inj hparse
    obtain ⟨text, texts', hwrite, -, rfl⟩ := List.forall₂_cons_left_iff.mp htexts
    have htake : (c :: s) <+: ((c :: s) ++ t).takeWhile fun c => !isBrace c := by
      rw [List.takeWhile_append_of_pos fun a ha => by rw [hs a ha]; rfl]
      exact List.prefix_append _ _
    have hliteral : ((c :: s) ++ t).takeWhile (fun c => !isBrace c) <+: r.1.literal := by
      unfold nextPiece at hr
      dsimp only at hr
      split at hr
      · cases hr
        exact List.prefix_refl _
      · cases hr
        exact List.prefix_append _ _
      · cases hr
        exact List.prefix_append _ _
      · obtain ⟨field, -, rfl⟩ := Option.map_eq_some_iff.mp hr
        exact List.prefix_refl _
      · cases hr
    have htext : r.1.literal <+: text := by
      unfold writePiece at hwrite
      split at hwrite
      · cases hwrite
        exact List.prefix_refl _
      · obtain ⟨value, -, rfl⟩ := Option.map_eq_some_iff.mp hwrite
        exact List.prefix_append _ _
    rw [List.flatten_cons]
    exact ((htake.trans hliteral).trans htext).trans (List.prefix_append _ _)

/-- Two of them that write the same are the same. -/
theorem literal_inj (hs : templateFields s = some []) (ht : templateFields t = some []) (hx : format L v s = some x)
    (hx' : format L v' t = some x) : s = t := by
  rw [format_literal hs hx, ← format_literal ht hx']

/-! ## templates as tokens -/

/-- What stands in the template, and what is written for it: a character, or a placeholder. -/
inductive Token : Text × Text → Prop
  | char (c : Char) : Token (double c, [c])
  | field {c : Char} {rest text : Text} (hc : c ≠ '{') (hsource : '/' ∉ '{' :: c :: rest) (htext : '/' ∉ text) :
      Token ('{' :: c :: rest, text)

theorem fieldName_eq {hidden : Bool} {name : Text} {c : Char} (h : fieldName hidden s = some (name, c, rest)) :
    s = name ++ c :: rest := by
  induction s generalizing hidden name with
  | nil => cases hidden <;> cases h
  | cons a s ih =>
    cases hidden with
    | true =>
      obtain ⟨⟨_, _, _⟩, hr, heq⟩ := Option.map_eq_some_iff.mp h
      cases heq
      rw [ih hr, List.cons_append]
    | false =>
      unfold fieldName at h
      split at h
      · cases h
      split at h
      · cases h
        rfl
      · obtain ⟨⟨_, _, _⟩, hr, heq⟩ := Option.map_eq_some_iff.mp h
        cases heq
        rw [ih hr, List.cons_append]

theorem formatSpec_nil (h : formatSpec 0 s = some ([], rest)) : s = '}' :: rest := by
  unfold formatSpec at h
  split at h
  · cases h
  · cases h
    rfl
  · rename_i hdepth
    cases hdepth
  · obtain ⟨r, -, heq⟩ := Option.map_eq_some_iff.mp h
    cases heq
  · obtain ⟨r, -, heq⟩ := Option.map_eq_some_iff.mp h
    cases heq

/-- A placeholder without conversion and spec. -/
theorem parseField_plain (h : parseField s = some (f, rest)) (hconversion : f.conversion = none) (hspec : f.spec = []) :
    s = f.name ++ '}' :: rest ∨ s = f.name ++ ':' :: '}' :: rest := by
  unfold parseField at h
  split at h
  · rename_i name rest' hname
    cases h
    exact .inl (fieldName_eq hname)
  · rename_i name rest' hname
    obtain ⟨r, hr, heq⟩ := Option.map_eq_some_iff.mp h
    cases heq
    obtain ⟨spec, tail⟩ := r
    obtain rfl : spec = [] := hspec
    rw [formatSpec_nil hr] at hname
    exact .inr (fieldName_eq hname)
  · cases h
    cases hconversion
  · obtain ⟨r, -, heq⟩ := Option.map_eq_some_iff.mp h
    cases heq
    cases hconversion
  · cases h

theorem nextPiece_field (h : nextPiece s = some (p, rest)) (hp : p.field = some f) :
    ∃ tail, s = p.literal.flatMap double ++ '{' :: tail ∧ parseField tail = some (f, rest) := by
  have hs := @List.takeWhile_append_dropWhile _ (fun c => !isBrace c) s
  unfold nextPiece at h
  dsimp only at h
  split at h
  · cases h
    cases hp
  · cases h
    cases hp
  · cases h
    cases hp
  · rename_i tail _ hrest
    obtain ⟨⟨f', rest'⟩, hr, heq⟩ := Option.map_eq_some_iff.mp h
    cases heq
    cases hp
    refine ⟨tail, ?_, hr⟩
    rw [double_takeWhile, ← hrest, hs]
  · cases h

/-- The characters of a literal text. -/
def charTokens (literal : Text) : List (Text × Text) := literal.map fun c => (double c, [c])

theorem charTokens_spec (literal : Text) : (∀ t ∈ charTokens literal, Token t) ∧
    ((charTokens literal).map Prod.fst).flatten = literal.flatMap double ∧
    ((charTokens literal).map Prod.snd).flatten = literal := by
  refine ⟨fun t ht => ?_, ?_, ?_⟩
  · obtain ⟨c, -, rfl⟩ := List.mem_map.mp ht
    exact .char c
  · rw [charTokens, List.map_map]
    rfl
  · rw [charTokens, List.map_map]
    exact List.flatMap_singleton' literal

/-- The placeholder writes its value, as it is. -/
structure Simple (L : Language) (v : Values) (f : Field) : Prop where
  conversion : f.conversion = none
  spec : f.spec = []
  known : f.name ∈ placeholders
  segment : '/' ∉ written L v f

/-- A placeholder is a token. -/
theorem Simple.token (h : Simple L v f) (hfield : parseField s = some (f, rest)) :
    ∃ source, Token ('{' :: source, written L v f) ∧ s = source ++ rest := by
  have hname : ∃ c name, f.name = c :: name ∧ c ≠ '{' ∧ '/' ∉ f.name := by
    have hknown := h.known
    simp only [placeholders, List.map_cons, List.map_nil, List.mem_cons, List.not_mem_nil, or_false] at hknown
    rcases hknown with hname | hname | hname | hname | hname <;> rw [hname] <;>
      exact ⟨_, _, rfl, by decide, by decide +kernel⟩
  obtain ⟨c, name, heq, hc, hslash⟩ := hname
  rw [heq, List.mem_cons, not_or] at hslash
  rcases parseField_plain hfield h.conversion h.spec with hs | hs
  · refine ⟨f.name ++ ['}'], ?_, by rw [hs, List.append_assoc]; rfl⟩
    rw [heq]
    exact .field hc (by simp [hslash.1, hslash.2]) h.segment
  · refine ⟨f.name ++ [':', '}'], ?_, by rw [hs, List.append_assoc]; rfl⟩
    rw [heq]
    exact .field hc (by simp [hslash.1, hslash.2]) h.segment

theorem nextPiece_tokens (h : nextPiece s = some (p, rest)) (hsimple : ∀ f, p.field = some f → Simple L v f) :
    ∃ tokens : List (Text × Text), (∀ t ∈ tokens, Token t) ∧ s = (tokens.map Prod.fst).flatten ++ rest ∧
      (tokens.map Prod.snd).flatten = (pieceTexts L v p).flatten := by
  obtain ⟨htokens, hsource, htext⟩ := charTokens_spec p.literal
  cases hp : p.field with
  | none =>
    refine ⟨_, htokens, ?_, ?_⟩
    · rw [hsource]
      exact nextPiece_literal h hp
    · rw [htext, pieceTexts_of_none hp, List.flatten_singleton]
  | some f =>
    obtain ⟨tail, rfl, hfield⟩ := nextPiece_field h hp
    obtain ⟨source, htoken, rfl⟩ := (hsimple f hp).token hfield
    refine ⟨charTokens p.literal ++ [('{' :: source, written L v f)], fun t ht => ?_, ?_, ?_⟩
    · rcases List.mem_append.mp ht with ht | ht
      · exact htokens t ht
      · exact List.mem_singleton.mp ht ▸ htoken
    · rw [List.map_append, List.flatten_append, hsource, List.append_assoc]
      simp
    · rw [List.map_append, List.flatten_append, htext, pieceTexts_of_some hp]
      simp

/-- **A template is a list of tokens.** -/
theorem parsePieces_tokens {fuel : ℕ} (h : parsePieces fuel s = some pieces)
    (hsimple : ∀ f ∈ fieldsOf pieces, Simple L v f) : ∃ tokens : List (Text × Text), (∀ t ∈ tokens, Token t) ∧
      s = (tokens.map Prod.fst).flatten ∧ (tokens.map Prod.snd).flatten = (pieces.flatMap (pieceTexts L v)).flatten := by
  induction fuel generalizing s pieces with
  | zero =>
    cases s with
    | nil =>
      cases h
      exact ⟨[], fun _ ht => (nomatch ht), rfl, rfl⟩
    | cons c s => cases h
  | succ fuel ih =>
    cases s with
    | nil =>
      cases h
      exact ⟨[], fun _ ht => (nomatch ht), rfl, rfl⟩
    | cons c s =>
      obtain ⟨r, hr, h⟩ := Option.bind_eq_some_iff.mp h
      obtain ⟨next, hnext, h⟩ := Option.bind_eq_some_iff.mp h
      obtain rfl := Option.some.inj h
      have hrest : ∀ f ∈ fieldsOf next, Simple L v f := fun f hf => by
        obtain ⟨q, hq, hfield⟩ := List.mem_filterMap.mp hf
        exact hsimple f (List.mem_filterMap.mpr ⟨q, List.mem_cons_of_mem _ hq, hfield⟩)
      obtain ⟨tokens, htokens, hsource, htext⟩ := ih hnext hrest
      obtain ⟨first, hfirst, hsource', htext'⟩ := nextPiece_tokens (L := L) (v := v) hr fun f hf =>
        hsimple f (List.mem_filterMap.mpr ⟨r.1, List.mem_cons_self, hf⟩)
      refine ⟨first ++ tokens, fun t ht => (List.mem_append.mp ht).elim (hfirst t) (htokens t), ?_, ?_⟩
      · rw [List.map_append, List.flatten_append, ← hsource, ← hsource']
      · rw [List.map_append, List.flatten_append, htext, htext', List.flatMap_cons, List.flatten_append]

/-! ## the segments -/

/-- A segment with the text that is written for it. -/
def Written (segment text : Text) : Prop :=
  ∃ tokens : List (Text × Text), (∀ t ∈ tokens, Token t) ∧ segment = (tokens.map Prod.fst).flatten ∧
    text = (tokens.map Prod.snd).flatten

theorem token_slash {token : Text × Text} (h : Token token) :
    token = (['/'], ['/']) ∨ '/' ∉ token.1 ∧ '/' ∉ token.2 := by
  cases h with
  | char c =>
    by_cases hc : c = '/'
    · subst hc
      exact .inl rfl
    · refine .inr ⟨fun hmem => hc ?_, fun hmem => hc (List.mem_singleton.mp hmem).symm⟩
      unfold double at hmem
      split at hmem
      · exact (List.mem_cons.mp hmem).elim Eq.symm fun h => (List.mem_singleton.mp h).symm
      · exact (List.mem_singleton.mp hmem).symm
  | field hc hsource htext => exact .inr ⟨hsource, htext⟩

/-- The slashes are those of the template. -/
theorem split_tokens {tokens : List (Text × Text)} (h : ∀ t ∈ tokens, Token t) :
    List.Forall₂ Written (split '/' (tokens.map Prod.fst).flatten) (split '/' (tokens.map Prod.snd).flatten) := by
  induction tokens with
  | nil => exact .cons ⟨[], fun _ ht => (nomatch ht), rfl, rfl⟩ .nil
  | cons token tokens ih =>
    have ih := ih fun t ht => h t (List.mem_cons_of_mem _ ht)
    have htoken := h token List.mem_cons_self
    rw [List.map_cons, List.map_cons, List.flatten_cons, List.flatten_cons]
    rcases token_slash htoken with rfl | ⟨hsource, htext⟩
    · show List.Forall₂ Written (split '/' ([] ++ '/' :: _)) (split '/' ([] ++ '/' :: _))
      rw [split_append, split_append]
      exact .cons ⟨[], fun _ ht => (nomatch ht), rfl, rfl⟩ ih
    · obtain ⟨head, tail, hsplit, hcons⟩ := split_cons hsource (tokens.map Prod.fst).flatten
      obtain ⟨head', tail', hsplit', hcons'⟩ := split_cons htext (tokens.map Prod.snd).flatten
      rw [hsplit, hsplit'] at ih
      rw [hcons, hcons']
      obtain ⟨⟨ts, hts, rfl, rfl⟩, hrest⟩ := List.forall₂_cons.mp ih
      refine .cons ⟨token :: ts, fun t ht => ?_, rfl, rfl⟩ hrest
      exact (List.mem_cons.mp ht).elim (fun heq => heq ▸ htoken) (hts t)

theorem double_head (c : Char) : ∃ rest, double c = c :: rest := by
  unfold double
  split
  · exact ⟨[c], rfl⟩
  · exact ⟨[], rfl⟩

/-- A segment without placeholders has characters only. -/
theorem written_literal {text : Text} (h : Written (x.flatMap double) text) : text = x := by
  obtain ⟨tokens, htokens, hsource, rfl⟩ := h
  induction tokens generalizing x with
  | nil =>
    cases x with
    | nil => rfl
    | cons c x =>
      obtain ⟨rest, hc⟩ := double_head c
      rw [List.flatMap_cons, hc] at hsource
      cases hsource
  | cons token tokens ih =>
    have htoken := htokens token List.mem_cons_self
    have hrest : ∀ t ∈ tokens, Token t := fun t ht => htokens t (List.mem_cons_of_mem _ ht)
    rw [List.map_cons, List.flatten_cons] at hsource
    cases htoken with
    | char c =>
      obtain ⟨_, hc⟩ := double_head c
      cases x with
      | nil =>
        rw [hc] at hsource
        cases hsource
      | cons a x =>
        obtain ⟨_, ha⟩ := double_head a
        obtain rfl : a = c := by
          rw [List.flatMap_cons, ha, hc, List.cons_append, List.cons_append] at hsource
          exact (List.cons.inj hsource).1
        rw [List.flatMap_cons] at hsource
        rw [List.map_cons, List.flatten_cons, ih hrest (List.append_cancel_left hsource), List.singleton_append]
    | @field c rest text hc hslash htext =>
      exfalso
      cases x with
      | nil => cases hsource
      | cons a x =>
        -- a brace that is text is followed by another one
        rw [List.flatMap_cons] at hsource
        obtain ⟨rest', ha⟩ := double_head a
        rw [ha] at hsource
        obtain ⟨rfl, htail⟩ := List.cons.inj hsource
        obtain rfl : rest' = ['{'] := (List.cons.inj ha).2.symm
        exact hc (List.cons.inj htail).1.symm

/-- What can write every placeholder can write the template. -/
theorem format_of_writes {template : Text} (hparse : parse template = some pieces)
    (h : ∀ f ∈ fieldsOf pieces, ∃ t, L.write v f = some t) : ∃ text, format L v template = some text := by
  obtain ⟨texts, htexts⟩ := mapM_isSome (l := pieces) (f := writePiece L v) fun p hp => by
    unfold writePiece
    split
    · rfl
    · rename_i f hf
      obtain ⟨t, ht⟩ := h f (List.mem_filterMap.mpr ⟨p, hp, hf⟩)
      rw [ht]
      rfl
  exact ⟨_, format_eq_some.mpr ⟨pieces, texts, hparse, mapM_eq_some.mp htexts, rfl⟩⟩

theorem exists_format {segment : Text} (h : templateFields segment = some []) (v : Values) :
    ∃ text, format L v segment = some text := by
  obtain ⟨pieces, hparse, hnames⟩ := templateFields_eq h
  have hfields : fieldsOf pieces = [] := List.map_eq_nil_iff.mp hnames.symm
  refine format_of_writes hparse fun f hf => ?_
  rw [hfields] at hf
  cases hf

/-- **The segments of what is written** are those of the template, the literal ones as they are. -/
theorem segments_fit {template text : Text} (h : format L v template = some text)
    (hsimple : ∀ pieces, parse template = some pieces → ∀ f ∈ fieldsOf pieces, Simple L v f) :
    List.Forall₂ (fun segment text => templateFields segment = some [] → format L v segment = some text)
      (split '/' template) (split '/' text) := by
  obtain ⟨pieces, texts, hparse, htexts, rfl⟩ := format_eq_some.mp h
  obtain ⟨tokens, htokens, hsource, htext⟩ := parsePieces_tokens hparse (hsimple pieces hparse)
  rw [← flatten_pieceTexts htexts, ← htext, hsource]
  refine (split_tokens htokens).imp fun segment text hwritten hliteral => ?_
  obtain ⟨x, hx⟩ := exists_format (L := L) hliteral v
  rw [format_literal hliteral hx] at hwritten
  rw [hx, written_literal hwritten]

end

end Kajet.Collections
