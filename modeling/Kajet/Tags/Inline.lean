import Kajet.Tags.Path

/-!
# Inline tags: the scanner and the rewriter

Extraction is a rule of the tokenizer, tried at every character of a paragraph of plain text;
the rewriter is a regular expression over the raw text.

* `Unicode`                         `str.isalnum`, `str.lower` and `str.isspace` beyond ASCII;
* `normalize`                       the canonical path of a raw tag;
* `inlineTagRule`, `extractInlineTags`;
* `rewriteInlineTags`;
* `marks`                           what stands at each `#` of a text.
-/

namespace Kajet.Tags
open Str Links

/-- The characters beyond ASCII, and what is known of them. -/
structure Unicode where
  alnum : Char → Bool
  lower : Text → Text
  alnum_space : ∀ c, alnum c = true → isSpace c = false
  /-- what was lowered is lower case, and a text of such characters stays -/
  lowered : ∀ s, ∀ c ∈ lower s, lower [c] = [c]
  lower_eq : ∀ s, (∀ c ∈ s, lower [c] = [c]) → lower s = s
  lower_newline : ∀ s, '\n' ∈ lower s → '\n' ∈ s

/-! ## tags -/

section
variable (u : Unicode)

/-- `str.isalnum` of one character. -/
def Unicode.isalnum (c : Char) : Bool := if c.toNat < 128 then c.isAlphanum else u.alnum c

/-- `\w` -/
def Unicode.isWordChar (c : Char) : Bool := u.isalnum c || c = '_'

/-- `[\w-]` -/
def Unicode.inSegment (c : Char) : Bool := u.isWordChar c || c = '-'

/-- `^[\w-]+(?:/[\w-]+)*` up to the end -/
def Unicode.pathMatches (path : Text) : Bool :=
  (split '/' path).all fun s => s ≠ [] && s.all u.inSegment

/-- `$` is also before a newline at the end. -/
def Unicode.pathRe (path : Text) : Bool :=
  u.pathMatches path || (path.getLast? = some '\n' && u.pathMatches path.dropLast)

def Unicode.normalize (raw : Text) : Option Text :=
  match pathSegments (strip ((strip raw).dropWhile (· = '#'))) with
  | [] => none
  | segments =>
    let path := u.lower (join '/' segments)
    if u.pathRe path then some path else none

/-! ## extraction -/

/-- `_TAG_BODY` or alphanumeric -/
def Unicode.inTagBody (c : Char) : Bool :=
  (c.toNat < 128 && c.isAlphanum) || c = '_' || c = '-' || c = '/' || u.isalnum c

/-- A `#` after this character can start a tag. -/
def Unicode.boundary : Option Char → Bool
  | none => true
  | some prev => !(u.isWordChar prev || prev = '/')

/-- `_inline_tag_rule` before a text: the tag, and how many characters are taken after the `#`. -/
def Unicode.inlineTagRule (prev : Option Char) : Text → Option (Text × Nat)
  | '#' :: rest =>
    if u.boundary prev then
      (u.normalize (rest.takeWhile u.inTagBody)).map fun tag => (tag, (rest.takeWhile u.inTagBody).length)
    else none
  | _ => none

/-- The tokenizer: the rule takes its characters, or one character is text. -/
def Unicode.tokenize : Option Char → Nat → Text → List Text
  | _, _, [] => []
  | _, taken + 1, c :: rest => tokenize (some c) taken rest
  | prev, 0, c :: rest =>
    match u.inlineTagRule prev (c :: rest) with
    | some (tag, length) => tag :: tokenize (some c) length rest
    | none => tokenize (some c) 0 rest

def Unicode.extractInlineTags (body : Text) : List Text := u.tokenize none 0 body

/-! ## rewriting -/

/-- `_REWRITE_RE` before a text: the group of word characters, hyphens and slashes. -/
def Unicode.rewriteRe (prev : Option Char) : Text → Option Text
  | '#' :: rest =>
    let group := rest.takeWhile fun c => u.isWordChar c || c = '-' || c = '/'
    if u.boundary prev && group ≠ [] then some group else none
  | _ => none

/-- `repl` without the `#` -/
def Unicode.repl (rewrite : Text → Option Text) (group : Text) : Text :=
  match u.normalize group with
  | none => group
  | some current =>
    match rewrite current with
    | none => group
    | some new => if new = current then group else new

/-- `re.sub`: the characters of a match are left out, its replacement is put in their place. -/
def Unicode.sub (rewrite : Text → Option Text) : Option Char → Nat → Text → Text
  | _, _, [] => []
  | _, taken + 1, c :: rest => sub rewrite (some c) taken rest
  | prev, 0, c :: rest =>
    match u.rewriteRe prev (c :: rest) with
    | some group => '#' :: (u.repl rewrite group ++ sub rewrite (some c) group.length rest)
    | none => c :: sub rewrite (some c) 0 rest

def Unicode.rewriteInlineTags (body : Text) (rewrite : Text → Option Text) : Text :=
  u.sub rewrite none 0 body

/-! ## what stands at each `#` -/

/-- The tag that starts at a `#`, or `none`, in the order of the text. -/
def Unicode.marks : Option Char → Text → List (Option Text)
  | _, [] => []
  | prev, c :: rest =>
    if c = '#' then
      (if u.boundary prev then u.normalize (rest.takeWhile u.inTagBody) else none) :: marks (some c) rest
    else marks (some c) rest

end
end Kajet.Tags
