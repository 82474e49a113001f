import ViewTemplate.Markup.Construct
import ViewTemplate.Platform
import ViewTemplate.Text.Reference

/-! # Markup events

Markup is read as a stream of start tags, end tags, texts and comments. The reader keeps the tags
that are open, so that the stream is balanced whatever the markup: an end tag closes what is open
inside its element, an end tag of no open element is dropped, and at the end all open tags are closed.
-/

namespace ViewTemplate

/-- A step of the markup, with its place in the source. -/
inductive Event
  | start (tag : String) (attributes : List Attribute) (unary : Bool) (range : Range)
  | finish (tag : String) (range : Range)
  | text (text : String) (range : Range)
  | comment (text : String) (range : Range)
  deriving DecidableEq, Repr, Inhabited

namespace Markup

/-- How markup is read. -/
structure Settings where
  platform : Platform := .bare
  /-- Whether tags that HTML does not nest close each other. -/
  expectHtml : Bool := false
  decodeNewlines : Bool := false
  /-- For the `href` attribute of links. -/
  decodeNewlinesForHref : Bool := false
  keepComments : Bool := false

/-- Where the reader stands: the offset and the text ahead, and the open tags, innermost first. -/
structure Cursor where
  offset : Nat
  rest : List Char
  stack : List String

namespace Cursor

/-- The tag that was opened last and is still open. -/
def innermost? (cursor : Cursor) : Option String := cursor.stack.head?

/-- Passes over text of the given length. -/
def pass (cursor : Cursor) (text rest : List Char) : Cursor :=
  { cursor with offset := cursor.offset + Text.byteLength text, rest }

end Cursor

/-- The tags that an end tag closes, innermost first, and the tags that stay open. -/
def unwind? (tag : String) : List String → Option (List String × List String)
  | [] => none
  | t :: stack =>
    if Tag.lower t = Tag.lower tag then some ([t], stack)
    else (unwind? tag stack).map fun (closed, rest) => (t :: closed, rest)

/-- The events of an end tag, and the tags that stay open. An end tag that closes nothing stands for
an empty element if it names a line break or a paragraph. -/
def endEvents (tag : String) (range : Range) (stack : List String) : List Event × List String :=
  match unwind? tag stack with
  | some (closed, stack) => (closed.map fun t => .finish t range, stack)
  | none =>
    let lower := Tag.lower tag
    if lower = "br" then ([.start tag [] true range], stack)
    else if lower = "p" then ([.start tag [] false range, .finish tag range], stack)
    else ([], stack)

/-- Closes what a start tag ends: a paragraph ends at what it cannot hold, and an element that may be
left open ends at one of the same name. -/
def impliedEnds (settings : Settings) (tag : String) (range : Range) (stack : List String) :
    List Event × List String :=
  if settings.expectHtml then
    let (first, stack) :=
      if stack.head? = some "p" && Tag.isNonPhrasing tag then endEvents "p" range stack
      else ([], stack)
    let (second, stack) :=
      if settings.platform.canBeLeftOpen tag && stack.head? = some tag then endEvents tag range stack
      else ([], stack)
    (first ++ second, stack)
  else ([], stack)

/-- An attribute with its value decoded. -/
def decodeAttribute (settings : Settings) (tag : String) (a : PlacedAttribute) : Attribute :=
  let name := String.ofList a.name
  let newlines :=
    if tag = "a" && name = "href" then settings.decodeNewlinesForHref else settings.decodeNewlines
  { name, value := Text.Reference.decodeAttribute newlines (String.ofList a.value)
    range := some a.range }

/-- The events of a start tag that ends where the cursor stands, and the cursor after it. A line feed
that follows is dropped where the element ignores it. -/
def startEvents (settings : Settings) (start : Nat) (tag : String) (attributes : List PlacedAttribute)
    (selfClosing : Bool) (cursor : Cursor) : List Event × Cursor :=
  let stop := cursor.offset
  let (ends, stack) := impliedEnds settings tag ⟨stop, stop⟩ cursor.stack
  let unary := settings.platform.isUnary tag || selfClosing
  let cursor := { cursor with stack := if unary then stack else tag :: stack }
  let events :=
    ends ++ [.start tag (attributes.map (decodeAttribute settings tag)) unary ⟨start, stop⟩]
  match cursor.rest with
  | '\n' :: rest =>
    if Tag.ignoresFirstNewline tag then (events, cursor.pass ['\n'] rest) else (events, cursor)
  | _ => (events, cursor)

/-- The events of a construct, and the cursor after it. -/
def constructEvents (settings : Settings) (found : Found) (cursor : Cursor) : List Event × Cursor :=
  let next := cursor.pass found.text found.rest
  let range : Range := ⟨cursor.offset, next.offset⟩
  match found.construct with
  | .comment text =>
    (match text with
      | some text => if settings.keepComments then [.comment (String.ofList text) range] else []
      | none => [], next)
  | .conditional => ([], next)
  | .doctype => ([], next)
  | .endTag name =>
    let (events, stack) := endEvents (String.ofList name) range cursor.stack
    (events, { next with stack })
  | .startTag name attributes selfClosing =>
    startEvents settings cursor.offset (String.ofList name) attributes selfClosing next

/-- The text of a raw text element: comment and character data marks are removed unless it is kept
verbatim, and so is a leading line feed where the element ignores it. -/
def rawTextContent (tag : String) (text : List Char) : List Char :=
  let text :=
    if Tag.isVerbatim tag then text
    else unwrap '<' "![CDATA[".toList "]]>".toList (unwrap '<' "!--".toList "-->".toList text)
  match text with
  | '\n' :: rest => if Tag.ignoresFirstNewline tag then rest else text
  | _ => text

/-- Inside a raw text element: its content and its end tag; without an end tag the element is closed
and nothing is read. -/
def rawTextEvents (tag : String) (cursor : Cursor) : List Event × Cursor :=
  let lower := Tag.lower tag
  match rawText? lower.toList cursor.rest with
  | some (text, endTag, rest) =>
    let inside := cursor.pass text (cursor.rest.drop text.length)
    let next := inside.pass endTag rest
    let (ends, stack) := endEvents lower ⟨inside.offset, next.offset⟩ cursor.stack
    (.text (String.ofList (rawTextContent lower text)) ⟨cursor.offset, inside.offset⟩ :: ends,
      { next with stack })
  | none =>
    let (ends, stack) := endEvents lower ⟨cursor.offset, cursor.offset⟩ cursor.stack
    (ends, { cursor with stack })

/-- Text up to the next construct. -/
def textEvents (cursor : Cursor) : List Event × Cursor :=
  let (run, rest) := textRun cursor.rest
  let next := cursor.pass run rest
  (if run.isEmpty then [] else [.text (String.ofList run) ⟨cursor.offset, next.offset⟩], next)

/-- One step of the reader. -/
def step (settings : Settings) (cursor : Cursor) : List Event × Cursor :=
  match cursor.innermost?.filter Tag.isRawText with
  | some tag => rawTextEvents tag cursor
  | none =>
    match construct? cursor.offset cursor.rest with
    | some found => constructEvents settings found cursor
    | none => textEvents cursor

/-- Closes all open tags at the end of the source. -/
def closeAll (offset : Nat) (stack : List String) : List Event :=
  stack.map fun tag => .finish tag ⟨offset, offset⟩

/-- The events from a cursor to the end. A step that reads nothing makes the text ahead one text. -/
def eventsFrom (settings : Settings) (cursor : Cursor) : List Event :=
  if cursor.rest.isEmpty then closeAll cursor.offset cursor.stack
  else
    let (events, next) := step settings cursor
    if next.rest.length < cursor.rest.length then events ++ eventsFrom settings next
    else
      let stop := next.offset + Text.byteLength next.rest
      events ++ .text (String.ofList next.rest) ⟨next.offset, stop⟩ :: closeAll stop next.stack
termination_by cursor.rest.length

/-- The events of a source text. -/
def events (settings : Settings) (source : String) : List Event :=
  eventsFrom settings ⟨0, source.toList, []⟩

end Markup

end ViewTemplate
