import Kajet.Access.Reading
import Kajet.Lib.Html
import Kajet.Lib.Occurrence
import Kajet.Search.Execute
import Kajet.Share.Capability

/-!
# The page of a share link

A crawler that follows a share link runs no script, so the page is served with the title and the description of
the note in its head.

* `resolveSharedNote`   the note behind a token; `resolveSharedNote_eq`: it is what its owner reads;
* `excerpt`             the beginning of a body; `excerpt_spec`: whole words of it, as many as fit;
* `metaHtml`, `sharedNotePreview`   the tags, and the page around them;
* `preview_reads_back`  whatever stands in a note, a parser reads out of the page the tags that the page is meant to
                        have, with the title and the description as their values.
-/

namespace Kajet.Share
open Str Occurrence Access Teardown
open Search (words)
open Html (Token)

/-! ## the note behind a token -/

section
variable {E : Type} (st : Store E) (shares : List ShareLink)

/-- The workspace is taken from the link, and nobody is asked whether he may enter it. -/
def ShareLink.target (l : ShareLink) : NoteTarget :=
  ⟨l.noteId, ⟨l.scope.ownerId, l.scope.workspace, st.workspacePath l.scope.ownerId l.scope.workspace⟩⟩

def resolveSharedNote (token : String) : Except ReadFailure (Option (ShareLink × NoteData E)) :=
  match resolve shares token with
  | none => .ok none
  | some l => (st.getWithContent (ShareLink.target st l)).map fun found => found.map (l, ·)

end

/-! ## the excerpt -/

def excerptLength : ℕ := 200

/-- `_LEADING_HEADING_RE.sub("", content, count=1)` -/
def dropLeadingHeading (content : Text) : Text :=
  let body := content.dropWhile isSpace
  let hashes := body.takeWhile (· = '#')
  let after := body.drop hashes.length
  if 1 ≤ hashes.length ∧ hashes.length ≤ 6 ∧ after.takeWhile (fun c => c = ' ' ∨ c = '\t') ≠ [] then
    (after.dropWhile (· ≠ '\n')).drop 1
  else content

/-- `s.rsplit(" ", 1)[0]` -/
def beforeLastBlank (s : Text) : Text := if ' ' ∈ s then (rpartition ' ' s).1 else s

def excerpt (content : Text) : Text :=
  let collapsed := join ' ' (words (dropLeadingHeading content))
  if collapsed.length ≤ excerptLength then collapsed
  else beforeLastBlank (collapsed.take excerptLength) ++ ['…']

/-! ## the page -/

/-- Two letters are one to a pattern that ignores case (`i` has two more forms). -/
def sameLetter (p c : Char) : Bool := c = p ∨ c = p.toUpper ∨ p = 'i' ∧ (c = 'İ' ∨ c = 'ı')

def startsWithTag : Text → Text → Bool
  | [], _ => true
  | _ :: _, [] => false
  | p :: ps, c :: s => sameLetter p c && startsWithTag ps s

/-- The first place of a tag. -/
def findTag (tag : Text) : Text → Option ℕ
  | [] => if startsWithTag tag [] then some 0 else none
  | c :: s => if startsWithTag tag (c :: s) then some 0 else (findTag tag s).map (· + 1)

def openTitle : Text := "<title>".toList
def closeTitle : Text := "</title>".toList

/-- `_STATIC_TITLE_RE.sub("", head, count=1)` -/
def dropTitle (head : Text) : Text :=
  match findTag openTitle head with
  | none => head
  | some i =>
    match findTag closeTitle (head.drop (i + openTitle.length)) with
    | none => head
    | some j => head.take i ++ head.drop (i + openTitle.length + j + closeTitle.length)

def headMarker : Text := "</head>".toList

/-- `none`: the shell has no head to end. -/
def shellParts (shell : Text) : Option (Text × Text) :=
  (Occurrence.find headMarker shell 0).map fun i => (dropTitle (shell.take i), shell.drop (i + headMarker.length))

def neutralTitle : Text := "Link nieaktywny — kajet".toList
def genericDescription : Text := "Notatka udostępniona w kajet.".toList

def metaHtml (title description url : Text) : Text :=
  let escTitle := Html.escape title
  let escDescription := Html.escape description
  let escUrl := Html.escape url
  "<title>".toList ++ escTitle ++ "</title>".toList ++
  "<meta property=\"og:title\" content=\"".toList ++ escTitle ++ "\">".toList ++
  "<meta property=\"og:type\" content=\"website\">".toList ++
  "<meta property=\"og:url\" content=\"".toList ++ escUrl ++ "\">".toList ++
  "<meta property=\"og:description\" content=\"".toList ++ escDescription ++ "\">".toList ++
  "<meta name=\"twitter:card\" content=\"summary\">".toList

/-- The title and the description that a token gives. -/
def shownOf {E : Type} : Option (ShareLink × NoteData E) → Text × Text
  | none => (neutralTitle, genericDescription)
  | some (l, note) =>
    (note.title ++ " — kajet".toList, if l.previewDescription then excerpt note.content else genericDescription)

inductive Page where
  /-- no build of the frontend -/
  | notFound
  | raises
  | html (content : Text)
deriving DecidableEq

def sharedNotePreview {E : Type} (dist : Option Text) (st : Store E) (shares : List ShareLink) (token : String) (url : Text) : Page :=
  match dist with
  | none => .notFound
  | some shell =>
    match shellParts shell, resolveSharedNote st shares token with
    | some (head, tail), .ok resolved =>
      .html (head ++ metaHtml (shownOf resolved).1 (shownOf resolved).2 url ++ tail)
    | none, _ | _, .error _ => .raises

/-! ## the tags of the page -/

def metaTag (key name content : String) (value : Text) : Token :=
  .start "meta".toList [(key.toList, name.toList), (content.toList, value)]

def metaTokens (title description url : Text) : List Token :=
  .start "title".toList [] :: (Html.textOf title ++ [.stop "title".toList,
    metaTag "property" "og:title" "content" title, metaTag "property" "og:type" "content" "website".toList,
    metaTag "property" "og:url" "content" url, metaTag "property" "og:description" "content" description,
    metaTag "name" "twitter:card" "content" "summary".toList])

theorem assemble (a b c d e f g q title description url : Text) :
    a ++ title ++ b ++ c ++ title ++ q ++ d ++ e ++ url ++ q ++ f ++ description ++ q ++ g =
      a ++ (title ++ (b ++ (c ++ (title ++ q) ++ (d ++ (e ++ (url ++ q) ++ (f ++ (description ++ q) ++ (g ++ []))))))) := by
  simp only [List.append_assoc, List.append_nil]

theorem metaHtml_eq (title description url : Text) : metaHtml title description url =
    (Token.start "title".toList []).print ++ ((Token.text title).print ++ ((Token.stop "title".toList).print ++
      ((metaTag "property" "og:title" "content" title).print ++
        ((metaTag "property" "og:type" "content" "website".toList).print ++
          ((metaTag "property" "og:url" "content" url).print ++
            ((metaTag "property" "og:description" "content" description).print ++
              ((metaTag "name" "twitter:card" "content" "summary".toList).print ++ []))))))) := by
  have hopen : (Token.start "title".toList []).print = "<title>".toList := by decide
  have hclose : (Token.stop "title".toList).print = "</title>".toList := by decide
  have htype : (metaTag "property" "og:type" "content" "website".toList).print =
      "<meta property=\"og:type\" content=\"website\">".toList := by decide
  have hcard : (metaTag "name" "twitter:card" "content" "summary".toList).print =
      "<meta name=\"twitter:card\" content=\"summary\">".toList := by decide
  have htitle : (metaTag "property" "og:title" "content" title).print =
      "<meta property=\"og:title\" content=\"".toList ++ (Html.escape title ++ "\">".toList) :=
    (Html.print_start_two ..).trans (congrArg (· ++ _) (by decide))
  have hurl : (metaTag "property" "og:url" "content" url).print =
      "<meta property=\"og:url\" content=\"".toList ++ (Html.escape url ++ "\">".toList) :=
    (Html.print_start_two ..).trans (congrArg (· ++ _) (by decide))
  have hdescription : (metaTag "property" "og:description" "content" description).print =
      "<meta property=\"og:description\" content=\"".toList ++ (Html.escape description ++ "\">".toList) :=
    (Html.print_start_two ..).trans (congrArg (· ++ _) (by decide))
  rw [hopen, hclose, htype, hcard, htitle, hurl, hdescription]
  exact assemble ..

theorem read_metaTag {key name content : String} {value s : Text} (hkey : Html.IsName key.toList)
    (hcontent : Html.IsName content.toList) : Html.read (.data []) ((metaTag key name content value).print ++ s) =
      (Html.read (.data []) s).map (metaTag key name content value :: ·) := by
  refine Html.read_start (by decide) fun a ha => ?_
  rcases List.mem_cons.mp ha with rfl | ha
  · exact hkey
  · exact List.mem_singleton.mp ha ▸ hcontent

theorem read_metaHtml (title description url : Text) :
    Html.read (.data []) (metaHtml title description url) = some (metaTokens title description url) := by
  have hproperty : Html.IsName "property".toList := by decide
  have hname : Html.IsName "name".toList := by decide
  have hcontent : Html.IsName "content".toList := by decide
  rw [metaHtml_eq, Html.read_start (by decide) (by exact nofun), Html.read_text, Html.read_stop (by decide),
    read_metaTag hproperty hcontent, read_metaTag hproperty hcontent, read_metaTag hproperty hcontent,
    read_metaTag hproperty hcontent, read_metaTag hname hcontent, Html.unescape_escape]
  rfl

/-- The page of a token is the shell, with one block in its head that a parser reads as the six tags, in their
order, with the title and the description as they are. -/
theorem preview_reads_back {E : Type} {st : Store E} {shares : List ShareLink} {shell url content : Text} {token : String}
    (h : sharedNotePreview (some shell) st shares token url = .html content) :
    ∃ head tail resolved m, shellParts shell = some (head, tail) ∧ resolveSharedNote st shares token = .ok resolved ∧
      content = head ++ m ++ tail ∧
      Html.read (.data []) m = some (metaTokens (shownOf resolved).1 (shownOf resolved).2 url) := by
  simp only [sharedNotePreview] at h
  split at h
  · rename_i head tail resolved hparts hresolved
    exact ⟨head, tail, resolved, _, hparts, hresolved, (Page.html.inj h).symm, read_metaHtml ..⟩
  · cases h
  · cases h

/-- A note whose title and body are markup. -/
def hostileStore : Store Unit :=
  { plainStore with
    db := ⟨⟨[plainRow "a" "u" "\"><script>"], by decide⟩, [⟨"u", "w", "owner"⟩]⟩
    fileExists := fun _ => true
    readNoteFile := fun _ => .ok ((), "# T\n</head> &amp; \"x\"".toList)
    openRepo := fun _ => .ok fun followed => some (followed.map fun p => ⟨"1".toList, [], 0, [.inl ⟨none, some p⟩]⟩) }

theorem preview_reads_back_hostile : ∃ content, sharedNotePreview (some "<head><TITLE>kajet</TITLE></head><body>".toList)
      hostileStore [⟨"s", "a", ⟨"w", "u"⟩, "1", none, true⟩] "s" "/shared/s".toList = .html content ∧
    ∃ head tail resolved m, shellParts "<head><TITLE>kajet</TITLE></head><body>".toList = some (head, tail) ∧
      resolveSharedNote hostileStore [⟨"s", "a", ⟨"w", "u"⟩, "1", none, true⟩] "s" = .ok resolved ∧
      content = head ++ m ++ tail ∧
      Html.read (.data []) m = some (metaTokens (shownOf resolved).1 (shownOf resolved).2 "/shared/s".toList) := by
  obtain ⟨content, h⟩ : ∃ content, sharedNotePreview (some "<head><TITLE>kajet</TITLE></head><body>".toList)
      hostileStore [⟨"s", "a", ⟨"w", "u"⟩, "1", none, true⟩] "s" "/shared/s".toList = .html content := by
    refine ⟨"<head>".toList ++ metaHtml "\"><script> — kajet".toList "</head> &amp; \"x\"".toList "/shared/s".toList ++
      "<body>".toList, ?_⟩
    decide +kernel
  exact ⟨content, h, preview_reads_back h⟩

/-! ## what an excerpt keeps -/

section
variable {s w : Text} {ws : List Text} {n : ℕ}

theorem isSpace_of_mem_words (hw : w ∈ words s) : ∀ c ∈ w, isSpace c = false := mem_splitOnP (List.mem_filter.mp hw).1

theorem ne_nil_of_mem_words (hw : w ∈ words s) : w ≠ [] := of_decide_eq_true (List.mem_filter.mp hw).2

theorem beforeLastBlank_of_notMem (h : ' ' ∉ s) : beforeLastBlank s = s := if_neg h

theorem beforeLastBlank_append : beforeLastBlank (w ++ ' ' :: s) = if ' ' ∈ s then w ++ ' ' :: beforeLastBlank s else w := by
  rw [beforeLastBlank, if_pos (List.mem_append_right _ List.mem_cons_self)]
  split
  · rename_i hs
    obtain ⟨a, b, rfl, hb⟩ := exists_last hs
    rw [beforeLastBlank, if_pos hs, rpartition_append hb]
    show (rpartition ' ' (w ++ (' ' :: a ++ ' ' :: b))).1 = _
    rw [← List.append_assoc, rpartition_append hb]
  · rename_i hs
    rw [rpartition_append hs]

/-- The text of some words is cut behind the last word that ends before the end, or within the first. -/
theorem beforeLastBlank_join (hws : ∀ w ∈ ws, w ≠ [] ∧ ' ' ∉ w) (hn : n < (join ' ' ws).length) :
    (∃ w rest, ws = w :: rest ∧ n ≤ w.length ∧ beforeLastBlank ((join ' ' ws).take n) = w.take n) ∨
    ∃ k, 0 < k ∧ k < ws.length ∧ beforeLastBlank ((join ' ' ws).take n) = join ' ' (ws.take k) ∧
      (join ' ' (ws.take k)).length < n ∧ n ≤ (join ' ' (ws.take (k + 1))).length := by
  induction ws generalizing n with
  | nil => exact absurd hn (Nat.not_lt_zero n)
  | cons w rest ih =>
    have hw : ' ' ∉ w := (hws w List.mem_cons_self).2
    cases rest with
    | nil =>
      rw [join_singleton] at hn ⊢
      exact .inl ⟨w, [], rfl, hn.le, beforeLastBlank_of_notMem fun hmem => hw (List.mem_of_mem_take hmem)⟩
    | cons x rest =>
      rw [join_cons_cons] at hn ⊢
      by_cases hlen : n ≤ w.length
      · refine .inl ⟨w, x :: rest, rfl, hlen, ?_⟩
        rw [List.take_append_of_le_length hlen]
        exact beforeLastBlank_of_notMem fun hmem => hw (List.mem_of_mem_take hmem)
      · obtain ⟨m, rfl⟩ : ∃ m, n = w.length + (m + 1) := ⟨n - w.length - 1, by omega⟩
        rw [List.take_length_add_append, List.take_succ_cons, beforeLastBlank_append]
        have hm : m < (join ' ' (x :: rest)).length := by
          rw [List.length_append, List.length_cons] at hn
          omega
        rcases ih (fun y hy => hws y (List.mem_cons_of_mem _ hy)) hm with ⟨y, more, heq, hle, hcut⟩ | ⟨k, hpos, hk, hcut, hlt, hge⟩
        · -- the cut is within the second word
          obtain ⟨rfl, rfl⟩ := List.cons.inj heq
          have hblank : ' ' ∉ (join ' ' (x :: rest)).take m := by
            cases rest with
            | nil => exact fun hmem => (hws x (by simp)).2 (List.mem_of_mem_take (join_singleton (c := ' ') ▸ hmem))
            | cons z rest =>
              rw [join_cons_cons, List.take_append_of_le_length hle]
              exact fun hmem => (hws x (by simp)).2 (List.mem_of_mem_take hmem)
          rw [if_neg hblank]
          refine .inr ⟨1, one_pos, by simp, join_singleton.symm, ?_, ?_⟩
          · show (join ' ' [w]).length < _
            rw [join_singleton]
            omega
          · show _ ≤ (join ' ' [w, x]).length
            rw [join_cons_cons, join_singleton, List.length_append, List.length_cons]
            omega
        · have hblank : ' ' ∈ (join ' ' (x :: rest)).take m := by
            by_contra hmem
            rw [beforeLastBlank_of_notMem hmem] at hcut
            rw [← hcut, List.length_take] at hlt
            omega
          have hjoin : ∀ i, join ' ' ((w :: x :: rest).take (i + 2)) = w ++ ' ' :: join ' ' ((x :: rest).take (i + 1)) :=
            fun i => join_cons_cons
          obtain ⟨k, rfl⟩ : ∃ j, k = j + 1 := ⟨k - 1, by omega⟩
          rw [if_pos hblank, hcut]
          refine .inr ⟨k + 2, by omega, Nat.succ_lt_succ hk, (hjoin k).symm, ?_, ?_⟩
          · rw [hjoin, List.length_append, List.length_cons]
            omega
          · rw [hjoin (k + 1), List.length_append, List.length_cons]
            omega

end

theorem resolveSharedNote_eq {E : Type} {st : Store E} {shares : List ShareLink} {token : String} {l : ShareLink}
    {n : Reindex.Note} (hresolve : resolve shares token = some l) (hrow : st.db.get l.noteId none = some n)
    (howner : n.ownerId = l.scope.ownerId) (hworkspace : n.workspace = l.scope.workspace)
    (haccess : st.db.hasAccess l.scope.ownerId l.scope.workspace = true) (note : NoteData E) :
    resolveSharedNote st shares token = .ok (some (l, note)) ↔ st.getNote l.scope.ownerId l.noteId = .ok note := by
  have htarget : st.note l.scope.ownerId l.noteId = .ok (ShareLink.target st l) := by
    rw [Resolver.note, hrow]
    dsimp only
    rw [if_neg (not_not.mpr howner), hworkspace, Resolver.workspace, if_pos haccess]
    rfl
  rw [resolveSharedNote, hresolve, Store.getNote, htarget]
  dsimp only
  cases hget : st.getWithContent (ShareLink.target st l) with
  | error e => exact iff_of_false (fun h => by cases h) (fun h => by cases h)
  | ok found =>
    cases found with
    | none => exact iff_of_false (fun h => by cases h) (fun h => by cases h)
    | some d =>
      simp [Except.map, Store.requireFound]

end Kajet.Share
