import Kajet.Edit.Sections

/-!
# Edits at an anchor

* `locateUnique`   the one position that the scan finds;
* `replaceText`, `insertAfter`, `replaceTextAll`;
* `EditSpec`, `applyEdit`   an edit, and the mode's transform of the body;
* `Anchored`       what an edit at an anchor owes, whatever its mode;
* `anchored_iff`   it is paid unless all other occurrences begin within the first.
-/

namespace Kajet.Edit
open Str Markdown Occurrence

/-! ## anchors -/

/-- `_format_ambiguous` -/
def formatAmbiguous (body needle : Text) (positions : List ℕ) : Text :=
  let place (pos : ℕ) : Text :=
    let before := body.take pos
    let line := before.count '\n' + 1
    let column := (before.rtakeWhile (· ≠ '\n')).length + 1
    let context := (slice body (pos - 20) (min body.length (pos + needle.length + 20))).flatMap fun c =>
      if c = '\n' then ['\\', 'n'] else [c]
    "  line ".toList ++ decimal line ++ ", col ".toList ++ decimal column ++ ": ...".toList ++ context ++ "...".toList
  join '\n' (("old_str is ambiguous: ".toList ++ decimal positions.length ++ " matches:".toList) :: positions.map place)

/-- `_locate_unique` -/
def locateUnique (body needle : Text) : Except EditError ℕ :=
  match scan needle body with
  | [] => .error .anchorNotFound
  | [pos] => .ok pos
  | positions => .error (.anchorAmbiguous (formatAmbiguous body needle positions))

def replaceText (body old new : Text) : Except EditError Text := do
  let pos ← locateUnique body old
  .ok (body.take pos ++ new ++ body.drop (pos + old.length))

def insertAfter (body anchor text : Text) : Except EditError Text := do
  let pos ← locateUnique body anchor
  let result := body.take (pos + anchor.length)
  let rest := body.drop (pos + anchor.length)
  let result := if !endsLine result && !startsLine text then result ++ ['\n'] else result
  let result := result ++ text
  let result := if !endsLine result && !startsLine rest then result ++ ['\n'] else result
  .ok (result ++ rest)

/-- `body.replace(old, new)`, at the positions of the scan -/
def replaceAt (body old new : Text) : ℕ → List ℕ → Text
  | pos, [] => body.drop pos
  | pos, i :: positions => slice body pos i ++ new ++ replaceAt body old new (i + old.length) positions

def replaceTextAll (body old new : Text) : Except EditError (Text × ℕ) :=
  match scan old body with
  | [] => .error .anchorNotFound
  | positions => .ok (replaceAt body old new 0 positions, positions.length)

/-! ## edits -/

structure EditSpec where
  mode : EditMode
  content : Option Text
  oldStr : Option Text
  newStr : Option Text
  targetHeading : Option Text
  replaceAll : Bool

structure EditResult where
  body : Text
  replaced : Option ℕ
deriving DecidableEq

/-- `_text_edit` -/
def textEdit (body anchor replacement : Text) (replaceAll : Bool) : Except EditError EditResult :=
  if replaceAll then (replaceTextAll body anchor replacement).map fun r => ⟨r.1, some r.2⟩
  else (replaceText body anchor replacement).map fun r => ⟨r, none⟩

/-- `_reject_foreign`: the first parameter that is given and belongs to another mode -/
def rejectForeign (spec : EditSpec) : Except EditError Unit :=
  let params := [(Param.content, spec.content), (.oldStr, spec.oldStr), (.newStr, spec.newStr),
    (.targetHeading, spec.targetHeading)]
  match params.find? fun x => x.2.isSome && x.1 ∉ spec.mode.accepts with
  | some x => .error (.foreign spec.mode x.1)
  | none => .ok ()

/-- `_require` -/
def require (mode : EditMode) (param : Param) : Option Text → Except EditError Text
  | some (c :: t) => .ok (c :: t)
  | _ => .error (.required mode param)

def applyEdit (parse : Text → List Token) (body : Text) (spec : EditSpec) : Except EditError EditResult :=
  if spec.replaceAll ∧ spec.mode ≠ .replaceText ∧ spec.mode ≠ .deleteText then .error (.notAll spec.mode) else do
    rejectForeign spec
    match spec.mode with
    | .overwrite => .ok ⟨spec.content.getD body, none⟩
    | .append =>
      let content ← require spec.mode .content spec.content
      let result ← appendContent parse body content spec.targetHeading
      .ok ⟨result, none⟩
    | .prepend =>
      let content ← require spec.mode .content spec.content
      let result ← prependContent parse body content spec.targetHeading
      .ok ⟨result, none⟩
    | .replaceSection =>
      let heading ← require spec.mode .targetHeading spec.targetHeading
      let content ← require spec.mode .content spec.content
      let result ← replaceSection parse body heading content
      .ok ⟨result, none⟩
    | .replaceText =>
      let old ← require spec.mode .oldStr spec.oldStr
      let new ← require spec.mode .newStr spec.newStr
      textEdit body old new spec.replaceAll
    | .insertAfter =>
      let old ← require spec.mode .oldStr spec.oldStr
      let new ← require spec.mode .newStr spec.newStr
      let result ← insertAfter body old new
      .ok ⟨result, none⟩
    | .deleteText =>
      let old ← require spec.mode .oldStr spec.oldStr
      textEdit body old [] spec.replaceAll

/-! ## one anchor -/

/-- The edits at an anchor, without `replace_all`. -/
inductive TextEdit where
  | replace (new : Text)
  | insert (text : Text)
  | delete

def TextEdit.spec (old : Text) : TextEdit → EditSpec
  | .replace new => ⟨.replaceText, none, some old, some new, none, false⟩
  | .insert text => ⟨.insertAfter, none, some old, some text, none, false⟩
  | .delete => ⟨.deleteText, none, some old, none, none, false⟩

/-- The transform behind the mode. -/
def TextEdit.direct (body old : Text) : TextEdit → Except EditError Text
  | .replace new => replaceText body old new
  | .insert text => insertAfter body old text
  | .delete => replaceText body old []

/-- The modes that take a new text require one. -/
def TextEdit.Payload : TextEdit → Prop
  | .replace new => new ≠ []
  | .insert text => text ≠ []
  | .delete => True

/-- An edit succeeds where the anchor is at one position, and changes nothing around it. -/
structure Anchored (body old : Text) (result : Except EditError Text) : Prop where
  succeeds : (∃ r, result = .ok r) ↔ ∃ i, Occurs old body i ∧ ∀ j, Occurs old body j → j = i
  missing : (∀ i, ¬ Occurs old body i) → result = .error .anchorNotFound
  ambiguous : ∀ i j, Occurs old body i → Occurs old body j → i ≠ j → ∃ message, result = .error (.anchorAmbiguous message)
  kept : ∀ r i, result = .ok r → Occurs old body i → (∀ j, Occurs old body j → j = i) →
    ∃ mid, r = body.take i ++ mid ++ body.drop (i + old.length)

section
variable {parse : Text → List Token} {body old t : Text} {e : TextEdit} {pos : ℕ} {error : EditError}

theorem require_ok (mode : EditMode) (param : Param) (h : t ≠ []) : require mode param (some t) = .ok t := by
  cases t with
  | nil => exact (h rfl).elim
  | cons c t => rfl

/-- The mode is its transform. -/
theorem applyEdit_text (hold : old ≠ []) (hpayload : e.Payload) :
    (applyEdit parse body (e.spec old)).map (·.body) = e.direct body old := by
  cases e with
  | replace new =>
    show ((require _ _ (some old) >>= fun old =>
      require _ _ (some new) >>= fun new => textEdit body old new false).map _) = _
    rw [require_ok _ _ hold, require_ok _ _ hpayload]
    show ((replaceText body old new).map _).map _ = replaceText body old new
    cases replaceText body old new <;> rfl
  | insert text =>
    show ((require _ _ (some old) >>= fun old => require _ _ (some text) >>= fun text =>
      insertAfter body old text >>= fun r => .ok (⟨r, none⟩ : EditResult)).map _) = _
    rw [require_ok _ _ hold, require_ok _ _ hpayload]
    show ((insertAfter body old text >>= fun r => .ok (⟨r, none⟩ : EditResult)).map _) = insertAfter body old text
    cases insertAfter body old text <;> rfl
  | delete =>
    show ((require _ _ (some old) >>= fun old => textEdit body old [] false).map _) = _
    rw [require_ok _ _ hold]
    show ((replaceText body old []).map _).map _ = replaceText body old []
    cases replaceText body old [] <;> rfl

theorem direct_error (h : locateUnique body old = .error error) : e.direct body old = .error error := by
  cases e with
  | replace new => rw [TextEdit.direct, replaceText, h]; rfl
  | insert text => rw [TextEdit.direct, insertAfter, h]; rfl
  | delete => rw [TextEdit.direct, replaceText, h]; rfl

theorem lineBreak (p : Bool) (s : Text) : ∃ nl, (if p then s ++ ['\n'] else s) = s ++ nl := by
  cases p with
  | true => exact ⟨['\n'], rfl⟩
  | false => exact ⟨[], (List.append_nil s).symm⟩

/-- At the position that is located only the anchor is touched. -/
theorem direct_ok (h : locateUnique body old = .ok pos) (hocc : Occurs old body pos) :
    ∃ mid, e.direct body old = .ok (body.take pos ++ mid ++ body.drop (pos + old.length)) := by
  cases e with
  | replace new =>
    rw [TextEdit.direct, replaceText, h]
    exact ⟨new, rfl⟩
  | delete =>
    rw [TextEdit.direct, replaceText, h]
    exact ⟨[], rfl⟩
  | insert text =>
    have htake : body.take (pos + old.length) = body.take pos ++ old := by
      obtain ⟨tail, htail⟩ := hocc.2
      rw [List.take_add, ← htail, List.take_left]
    rw [TextEdit.direct, insertAfter, h]
    show ∃ mid, Except.ok (_ ++ body.drop (pos + old.length)) = _
    obtain ⟨nl, hnl⟩ := lineBreak (!endsLine (body.take (pos + old.length)) && !startsLine text)
      (body.take (pos + old.length))
    rw [hnl]
    obtain ⟨nl', hnl'⟩ := lineBreak (!endsLine (body.take (pos + old.length) ++ nl ++ text) &&
      !startsLine (body.drop (pos + old.length))) (body.take (pos + old.length) ++ nl ++ text)
    refine ⟨old ++ nl ++ text ++ nl', congrArg Except.ok ?_⟩
    rw [hnl', htake]
    simp only [List.append_assoc]

/-- **Anchored edits.** -/
theorem anchored_iff (hold : old ≠ []) : (Anchored body old (e.direct body old) ↔ ¬ Hidden old body) ∧
    (e.Payload → (Anchored body old ((applyEdit parse body (e.spec old)).map (·.body)) ↔ ¬ Hidden old body)) := by
  have hdirect : Anchored body old (e.direct body old) ↔ ¬ Hidden old body := by
    rcases scan_cases hold with ⟨hscan, hno⟩ | ⟨i, hscan, hocc, hunique⟩ | ⟨i, hscan, hocc, hhidden⟩ |
      ⟨i, j, rest, hscan, hnot, a, b, hlt, ha, hb⟩
    · have herror : e.direct body old = .error .anchorNotFound := direct_error (by rw [locateUnique, hscan])
      refine iff_of_true ⟨?_, fun _ => herror, fun i _ hi => (hno i hi).elim, fun _ i _ hi => (hno i hi).elim⟩ ?_
      · rw [herror]
        exact iff_of_false nofun fun ⟨i, hi, _⟩ => hno i hi
      · exact fun ⟨i, hi, _⟩ => hno i hi
    · obtain ⟨mid, hok⟩ := direct_ok (e := e) (by rw [locateUnique, hscan]) hocc
      refine iff_of_true ⟨iff_of_true ⟨_, hok⟩ ⟨i, hocc, hunique⟩, fun hno => (hno i hocc).elim, ?_, ?_⟩ ?_
      · exact fun j k hj hk hne => (hne ((hunique j hj).trans (hunique k hk).symm)).elim
      · intro r j hr hj _
        rw [hok] at hr
        cases hr
        exact ⟨mid, hunique j hj ▸ rfl⟩
      · rintro ⟨k, hk, ⟨j, hkj, hj⟩, -⟩
        have := hunique k hk
        have := hunique j hj
        omega
    · -- the scan has found one of them, and the edit is made there
      obtain ⟨mid, hok⟩ := direct_ok (e := e) (by rw [locateUnique, hscan]) hocc
      refine iff_of_false (fun h => ?_) (not_not.mpr hhidden)
      obtain ⟨k, hk, ⟨j, hkj, hj⟩, -⟩ := hhidden
      obtain ⟨m, hm⟩ := h.ambiguous k j hk hj (by omega)
      rw [hok] at hm
      cases hm
    · have herror : e.direct body old = .error (.anchorAmbiguous (formatAmbiguous body old (i :: j :: rest))) :=
        direct_error (by rw [locateUnique, hscan])
      have hnone : ¬ ∃ i, Occurs old body i ∧ ∀ j, Occurs old body j → j = i := fun ⟨i, _, hi⟩ => by
        have := hi a ha
        have := hi b hb
        omega
      refine iff_of_true ⟨?_, fun hno => (hno a ha).elim, fun _ _ _ _ _ => ⟨_, herror⟩, ?_⟩ hnot
      · rw [herror]
        exact iff_of_false nofun hnone
      · exact fun _ i _ hi hunique => (hnone ⟨i, hi, hunique⟩).elim
  exact ⟨hdirect, fun hpayload => by rw [applyEdit_text hold hpayload, hdirect]⟩

/-- An anchor that is there once. -/
theorem anchored_iff_small : Anchored "see here".toList "re".toList
    ((applyEdit (fun _ => []) "see here".toList (TextEdit.delete.spec "re".toList)).map (·.body)) ↔
    ¬ Hidden "re".toList "see here".toList :=
  (anchored_iff (by decide)).2 trivial

/-- `aa` is at two positions of `aaa`; the scan steps over the second. -/
theorem overlap_edited : Occurs "aa".toList "aaa".toList 0 ∧ Occurs "aa".toList "aaa".toList 1 ∧
    (applyEdit (fun _ => []) "aaa".toList (TextEdit.delete.spec "aa".toList)).map (·.body) = .ok "a".toList ∧
    ¬ Anchored "aaa".toList "aa".toList
      ((applyEdit (fun _ => []) "aaa".toList (TextEdit.delete.spec "aa".toList)).map (·.body)) := by
  have hfirst : Occurs "aa".toList "aaa".toList 0 := by decide +kernel
  have hsecond : Occurs "aa".toList "aaa".toList 1 := by decide +kernel
  have hok : (applyEdit (fun _ => []) "aaa".toList (TextEdit.delete.spec "aa".toList)).map (·.body) =
      .ok "a".toList := by decide +kernel
  refine ⟨hfirst, hsecond, hok, fun h => ?_⟩
  obtain ⟨message, hmessage⟩ := h.ambiguous 0 1 hfirst hsecond (by decide)
  rw [hok] at hmessage
  cases hmessage

end

end Kajet.Edit
