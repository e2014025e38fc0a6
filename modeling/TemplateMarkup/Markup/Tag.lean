import TemplateMarkup.Markup.Attribute
import TemplateMarkup.Markup.OpenTags
import TemplateMarkup.Markup.Special
import TemplateMarkup.Text.Blank

/-!
# Tags

Tags are read one at a time. A start tag joins the open tags, an end tag closes the innermost open
tag of its name, and a unit of markup ends when no tag is open any more.

Three kinds of element are special. A *void* element has no content. A *script* has content that is
not markup. And the tags of the *text* element, when they are outermost, are not tags at all: they
only tell the host where literal text begins and ends.
-/

namespace TemplateMarkup

/-- The state between two tags of one unit of markup. -/
structure TagWalk (σ : Type) where
  cursor : Cursor σ
  openTags : OpenTags
  /-- Whether the tag read last was complete. -/
  complete : Bool

/-- Whether a script with these attributes holds markup: the first attribute named `type` decides. -/
def scriptHoldsMarkup (options : Options) (attributes : List Attribute) : Bool :=
  match attributes.find? fun a => Text.sameIgnoringCase a.name "type".toList with
  | some a =>
    a.value?.any fun value =>
      Text.sameIgnoringCase (Text.trim value) options.htmlScriptType.toList
  | none => false

namespace Cursor

variable {σ : Type}

/-! ## Ends of tags -/

/-- Accepts a `>`. If there is none, the tag is reported as unfinished and an empty token stands in
for it. The answer says whether the `>` was there. -/
def closeAngle (c : Cursor σ) (name : List Char) (range : Range) : Bool × Cursor σ :=
  let (closed, c) := c.eat .closeAngle
  if closed then (true, c)
  else (false, (c.report (.unfinishedTag name) range).missing .closeAngle)

/-- Skips to the next `>`, which is accepted too, or to the end of the line. -/
def recoverTextTag (c : Cursor σ) : Cursor σ :=
  ((c.acceptUntil [.closeAngle, .newline]).eat .closeAngle).2

/-- Reads an end tag as a node of its own. -/
def endTagBlock (c : Cursor σ) (name : List Char) : Bool × Cursor σ :=
  let nameRange := Range.ofText (c.offset + 2) name
  let (m, c) := c.start
  let c := ((c.bumpN 2).bangEscape.eatName).acceptUntil [.closeAngle, .openAngle]
  let (closed, c) := c.closeAngle name nameRange
  (closed, c.complete m .tagBlock)

/-- Reads the end tag of the text element. -/
def textEndTag (c : Cursor σ) (name : List Char) : Cursor σ :=
  let nameRange := Range.ofText (c.offset + 2) name
  let (closed, c) := (c.bumpN 2).eatName.eat .closeAngle
  let c := if closed then c else (c.report .textTagHasAttributes nameRange).recoverTextTag
  c.flush .markupTransition

/-- Accepts the end tag of a void element if it follows, spacing apart. -/
def voidEndTag (c : Cursor σ) (name : List Char) : Cursor σ :=
  let n := c.spacing 0
  if c.nth n = .openAngle ∧ c.nth (n + 1) = .slash ∧
      Text.sameIgnoringCase (c.tagNameAt (n + 2)) name then
    let c := ((c.bumpN (n + 2)).eatName).acceptUntil [.closeAngle, .openAngle]
    (c.eat .closeAngle).2.flush .literal
  else c

/-- Reads the body of a script up to its end tag and the end tag as a node of its own. Other tags are
part of the body; the scan passes at most `bound` of them. -/
def scriptBodyFrom (code : EmbeddedCode σ) (name : List Char) : Nat → Cursor σ → Cursor σ
  | 0, c => c.fail .stalled
  | bound + 1, c =>
    let c := c.skipTo code .openAngle
    if c.atEnd then c
    else if c.nth 1 = .slash ∧ Text.sameIgnoringCase (c.tagNameAt 2) name then
      let nameRange := Range.ofText (c.offset + 2) name
      let (m, c) := c.start
      let c := ((c.bumpN 2).eatName).skipTo code .closeAngle
      (c.closeAngle name nameRange).2.complete m .tagBlock
    else scriptBodyFrom code name bound c.bump

/-- Reads the body of a script through its end tag. -/
def scriptBody (c : Cursor σ) (code : EmbeddedCode σ) (name : List Char) : Cursor σ :=
  scriptBodyFrom code name (c.unclaimed + 1) c

/-! ## Start tags -/

/-- Reads the start tag of the text element, which takes no attributes. One with a slash needs no end
tag. -/
def textStartTag (c : Cursor σ) (openTags : OpenTags) (name : List Char) : TagWalk σ :=
  let start := c.offset
  let c := c.bump.eatName
  let slash := c.spacing 0
  let selfClosing := c.nth slash = .slash
  let c := if selfClosing then c.bumpN (slash + 1) else c
  let n := c.spacing 0
  let c :=
    if c.nth n = .closeAngle then c.bumpN (n + 1)
    else (c.report .textTagHasAttributes (.ofText (start + 1) name)).recoverTextTag
  let openTags := if selfClosing then openTags else ⟨name, start, none⟩ :: openTags
  ⟨c.flush .markupTransition, openTags, true⟩

/-- Reads a start tag from its attributes on. The element's node is started and the offset is that of
the `<`. -/
def restOfStartTag (c : Cursor σ) (code : EmbeddedCode σ) (openTags : OpenTags) (block : Marker)
    (name : List Char) (start : Nat) : TagWalk σ :=
  let (attributes, c) := c.attributes code
  if c.at? .openAngle then ⟨c.complete block .tagBlock, openTags, false⟩
  else
    let (selfClosing, c) := c.eat .slash
    let nameRange : Range := ⟨start + 1, start + 1 + max (Text.width name) 1⟩
    let (closed, c) := c.closeAngle name nameRange
    if !closed then ⟨c.complete block .tagBlock, openTags, false⟩
    else
      let c := c.flush .literal
      let options := c.context.options
      if selfClosing then ⟨c.complete block .tagBlock, openTags, true⟩
      else if options.isVoidElement name then
        ⟨(c.voidEndTag name).complete block .tagBlock, openTags, true⟩
      else if options.isScriptTag name ∧ !scriptHoldsMarkup options attributes then
        ⟨(c.scriptBody code name).complete block .tagBlock, openTags, true⟩
      else ⟨c, ⟨name, start, some block⟩ :: openTags, true⟩

/-- Reads a start tag. -/
def startTag (c : Cursor σ) (code : EmbeddedCode σ) (openTags : OpenTags) : TagWalk σ :=
  let start := c.offset
  let name := c.tagNameAt 1
  if openTags.isEmpty ∧ c.context.options.isTextTag name then c.textStartTag openTags name
  else
    let (block, c) := c.start
    c.bump.bangEscape.eatName.restOfStartTag code openTags block name start

/-! ## End tags -/

/-- Reads an end tag. -/
def endTag (c : Cursor σ) (openTags : OpenTags) : TagWalk σ :=
  if c.nth 2 = .endOfInput then
    let (m, c) := c.start
    ⟨(c.bumpN 2).complete m .tagBlock, openTags, false⟩
  else
    let name := c.tagNameAt 2
    match OpenTags.removeMatching name c.offset openTags c with
    | (some t, openTags, c) =>
      if openTags.isEmpty ∧ c.context.options.isTextTag name then
        ⟨(t.close c).textEndTag name, openTags, true⟩
      else
        let (closed, c) := c.endTagBlock name
        ⟨t.close c, openTags, closed⟩
    | (none, openTags, c) =>
      let (closed, c) := c.endTagBlock name
      ⟨c, openTags, closed⟩

/-! ## Units of markup -/

/-- Reads a `<` that is the last token of the source. -/
def loneAngle (c : Cursor σ) (openTags : OpenTags) : TagWalk σ :=
  let (m, c) := c.start
  let c := c.bump
  let c := if openTags.isEmpty then c.report .outerTagUnnamed ⟨c.offset, c.offset⟩ else c
  ⟨c.complete m .tagBlock, openTags, false⟩

/-- Reads the tag, or what looks like one, at the cursor. -/
def tag (c : Cursor σ) (code : EmbeddedCode σ) (openTags : OpenTags) : TagWalk σ :=
  if c.nth 1 = .endOfInput then c.loneAngle openTags
  else if c.atSpecialTag then
    let (closed, c) := c.specialTag code
    ⟨c, openTags, closed⟩
  else if c.nth 1 = .slash then c.endTag openTags
  else c.startTag code openTags

/-- Reads text and tags until no tag is open, at most `bound` tags. -/
def tagsFrom (code : EmbeddedCode σ) : Nat → TagWalk σ → TagWalk σ
  | 0, w => { w with cursor := w.cursor.fail .stalled }
  | bound + 1, w =>
    let c := (w.cursor.skipTo code .openAngle).flush .literal
    if c.atEnd then { w with cursor := c }
    else
      let w := c.tag code w.openTags
      if w.openTags.isEmpty then w else tagsFrom code bound w

/-- Whether a tag or single-line markup follows, spacing apart. -/
def markupFollows (c : Cursor σ) : Bool :=
  let n := c.spacing 0
  match c.nth n with
  | .openAngle => true
  | .transition => c.nth (n + 1) == .colon
  | _ => false

/-- Closes what is still open and claims the whitespace and the line ending behind the markup. At
design time these stay with the host if the markup ended cleanly; otherwise they do so behind a text
tag that no markup follows. -/
def endTags (w : TagWalk σ) : Cursor σ :=
  let (closed, c) := w.openTags.drain w.cursor
  let claim :=
    if c.context.options.designTime then !(closed && w.complete)
    else c.lastNode != some .markupTransition || c.markupFollows
  let c := if claim then ((c.eat .whitespace).2.eat .newline).2 else c
  c.flush .literal

/-- Reads one outermost element, or what stands in its place. The cursor is on a `<`. -/
def tagBlock (c : Cursor σ) (code : EmbeddedCode σ) : Cursor σ :=
  endTags (tagsFrom code (c.unclaimed + 1) ⟨c, [], false⟩)

end Cursor

end TemplateMarkup
