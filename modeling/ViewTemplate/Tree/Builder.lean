import ViewTemplate.Element.Classification
import ViewTemplate.Element.Identity
import ViewTemplate.Element.Slots
import ViewTemplate.Markup.Event
import ViewTemplate.Options
import ViewTemplate.Tree

/-! # Building a tree from markup

Each event of the markup changes the tree under construction. Structural directives are read at a
start tag. Everything else is read when the element closes; then it gets its place: among the children
of the element around it, in a choice, or in a slot.
-/

namespace ViewTemplate

/-- A tree under construction. -/
structure Builder where
  tree : Tree := {}
  /-- Numbers of the open elements, innermost first. -/
  stack : List NodeId := []
  inVerbatim : Bool := false
  inPre : Bool := false
  /-- A fault of the root has been reported; no other is. -/
  warned : Bool := false
  deriving DecidableEq, Inhabited

namespace Builder

/-- The innermost open element. -/
def parent? (b : Builder) : Option NodeId := b.stack.head?

def withTree (b : Builder) (f : Tree → Tree) : Builder := { b with tree := f b.tree }

/-- Reports faults of the root, unless some have been reported. -/
def warnOnce (faults : List Diagnostic) (b : Builder) : Reported Builder :=
  ⟨{ b with warned := b.warned || !faults.isEmpty }, if b.warned then [] else faults⟩

/-- The faults of an element that is to be a root: it has to render as exactly one element. -/
def rootFaults (el : Element) : List Diagnostic :=
  (if el.tag = "slot" || el.tag = "template" then
    [⟨.multipleNodeRoot el.tag, el.range.map Range.atStart, .error⟩] else []) ++
  (if el.hasAttribute "v-for" then [⟨.loopedRoot, el.rangeOf "v-for", .error⟩] else [])

/-- Whether a node is a single space. -/
def isSpace (tree : Tree) (id : NodeId) : Bool :=
  match tree.node? id with
  | some (.plain t) => t.text == " "
  | _ => false

/-- Drops the spaces at the end of an element, except where all blanks are kept. -/
def trimChildren (id : NodeId) (b : Builder) : Builder :=
  b.withTree fun tree => tree.update id fun el =>
    { el with
      children := (el.children.reverse.dropWhile fun c => !b.inPre && isSpace tree c).reverse }

/-- Whether a node is content of a slot and nothing else. -/
def isSlotContent (tree : Tree) (id : NodeId) : Bool :=
  (tree.element? id).any fun el => el.slotScope.isSome

/-- Makes the children of a component the content of one slot, inside a template of its own. -/
def fillSlot (id : NodeId) (use : Element.SlotUse) (tree : Tree) : Tree :=
  match tree.element? id with
  | none => tree
  | some el =>
    let inside := el.children.filter fun child => !isSlotContent tree child
    let (container, tree) := tree.add (.element (Element.slotContainer use id inside))
    let tree := inside.foldl
      (fun tree child => tree.update child fun c => { c with parent := some container }) tree
    tree.update id fun el =>
      { el with children := [], scopedSlots := el.scopedSlots.insert use.name container, plain := false }

/-- The first readings of a closing element: key, reference and slot. -/
def readPlacement (platform : Platform) (parent : Option Element) (inLoop : Bool) (el : Element) :
    Reported (Element × Option Element.SlotUse) := do
  let el ← el.readKey (parent.map Element.tag)
  (el.markPlain.readRef inLoop).readSlotContent platform (parent.map (Element.mayBeComponent platform))

/-- The last readings of a closing element: outlet, component, extensions and all other attributes. -/
def readContent (options : Options) (loopItems : List String) (el : Element) : Reported Element := do
  let el ← el.readOutlet
  let el ← Extension.runAll Extension.atEnd options.extensions options.surroundings el.readComponent
  el.classifyAll options.surroundings loopItems

/-- Reads everything that is left of an element when it closes. -/
def readElement (options : Options) (id : NodeId) (tree : Tree) : Reported Tree := do
  match tree.element? id with
  | none => pure tree
  | some el =>
    let loops := (tree.ancestors id).filterMap fun e => e.2.loop
    let parent := el.parent.bind tree.element?
    let (el, use) ← readPlacement options.platform parent (!loops.isEmpty) el
    let tree := tree.set id (.element el)
    let tree := match use with
      | some use => fillSlot id use tree
      | none => tree
    match tree.element? id with
    | none => pure tree
    | some el =>
      let el ← readContent options (loops.map Loop.item) el
      pure (tree.set id (.element el))

/-- A second element outside all others has to be a branch of the choice of the root. -/
def placeOutside (id : NodeId) (el : Element) (b : Builder) : Reported Builder := do
  if b.stack.isEmpty && b.tree.root ≠ some id then
    match b.tree.root.filter fun root =>
      el.isBranch && (b.tree.element? root).any fun r => r.choice.isSome with
    | some root =>
      let b ← b.warnOnce (rootFaults el)
      pure (b.withTree fun tree => tree.update root (Element.addBranch ⟨el.elseIf, id⟩))
    | none => b.warnOnce [⟨.severalRoots, el.range.map Range.atStart, .error⟩]
  else pure b

/-- Reports a text that a choice passes over; spaces are passed over in silence. -/
def reportIgnored (tree : Tree) (id : NodeId) : Reported PUnit :=
  match tree.node? id with
  | some node =>
    match node.text? with
    | some text =>
      if text = " " then pure ⟨⟩
      else Reported.error (.ignoredText (Text.onChars Text.trim text)) node.range
    | none => pure ⟨⟩
  | none => pure ⟨⟩

/-- Adds a branch to the choice of the element before it. Texts between the two are dropped. -/
def placeBranch (id : NodeId) (el : Element) (parent : NodeId) (tree : Tree) : Reported Tree := do
  let children := ((tree.element? parent).map Element.children).getD []
  let between := children.reverse.takeWhile fun child => !tree.isElement child
  let kept := children.reverse.dropWhile fun child => !tree.isElement child
  between.forM (reportIgnored tree)
  let tree := tree.update parent fun p => { p with children := kept.reverse }
  match kept.head?.filter fun previous => (tree.element? previous).any fun p => p.choice.isSome with
  | some previous => pure (tree.update previous (Element.addBranch ⟨el.elseIf, id⟩))
  | none =>
    Reported.error (.orphanElse el.tag el.elseIf)
      (el.rangeOf (if el.elseIf.isSome then "v-else-if" else "v-else"))
    pure tree

/-- Makes an element a child, and content of a slot if it is that. -/
def placeChild (id : NodeId) (el : Element) (parent : NodeId) (tree : Tree) : Tree :=
  let tree := tree.update parent fun p =>
    { p with
      children := p.children ++ [id]
      scopedSlots :=
        if el.slotScope.isSome then
          p.scopedSlots.insert (el.slotTarget.getD Element.defaultSlot) id
        else p.scopedSlots }
  tree.update id fun el => { el with parent := some parent }

/-- Gives a closed element its place under the innermost open element. -/
def placeInside (id : NodeId) (el : Element) (b : Builder) : Reported Builder := do
  let tree ← (match b.parent? with
    | none => pure b.tree
    | some parent =>
      if el.forbidden then pure b.tree
      else if el.isBranch then placeBranch id el parent b.tree
      else pure (placeChild id el parent b.tree))
  pure { b with tree }

/-- Takes out of the children what is content of a slot. -/
def dropSlotContent (id : NodeId) (tree : Tree) : Tree :=
  tree.update id fun el => { el with children := el.children.filter fun c => !isSlotContent tree c }

/-- Leaves the regions that an element opened. -/
def leave (platform : Platform) (el : Element) (b : Builder) : Builder :=
  { b with
    inVerbatim := b.inVerbatim && !el.pre
    inPre := b.inPre && !platform.isPre el.tag }

/-- Reads what is left of an element, except in a verbatim region or where an extension has taken it
over. -/
def finishReading (options : Options) (id : NodeId) (b : Builder) : Reported Builder := do
  let tree ← (
    if b.inVerbatim || (b.tree.element? id).any Element.processed then pure b.tree
    else readElement options id b.tree)
  pure { b with tree }

/-- Gives an element its place. -/
def place (id : NodeId) (b : Builder) : Reported Builder := do
  match b.tree.element? id with
  | none => pure b
  | some el =>
    let b ← b.placeOutside id el
    b.placeInside id el

/-- Leaves an element that has its place. -/
def finishElement (options : Options) (id : NodeId) (b : Builder) : Reported Builder := do
  match b.tree.element? id with
  | none => pure b
  | some el =>
    let b := b.leave options.platform el
    let el ← Extension.runAll Extension.afterPlacement options.extensions options.surroundings el
    pure (b.withTree fun tree => tree.set id (.element el))

/-- Closes an element. -/
def close (options : Options) (id : NodeId) (b : Builder) : Reported Builder := do
  let b ← (b.trimChildren id).finishReading options id
  let b ← b.place id
  ((b.withTree (dropSlotContent id)).trimChildren id).finishElement options id

/-- Characters that an attribute name has only by mistake. -/
def isStrayChar (c : Char) : Bool := Text.isBlank c || ['"', '\x27', '<', '>', '/', '='].contains c

/-- The element of a start tag before its directives are read. -/
def newElement (options : Options) (tag : String) (attributes : List Attribute) (range : Range)
    (b : Builder) : Reported Element := do
  let parent := b.parent?.bind b.tree.element?
  let el := { Element.ofTag tag attributes b.parent? with
    ns := (parent.bind Element.ns).or (options.platform.namespaceOf tag), range := some range }
  attributes.forM fun a =>
    Reported.onlyIf (a.name.toList.any isStrayChar) (Reported.error .invalidAttributeName a.range)
  Reported.onlyIf el.hasSideEffects (Reported.error (.sideEffectTag tag) (some range.atStart))
  Extension.runAll Extension.atStart options.extensions options.surroundings
    { el with forbidden := el.hasSideEffects }

/-- Enters the regions that an element opens, and reads its structural directives. -/
def enter (options : Options) (el : Element) (b : Builder) : Reported (Element × Builder) := do
  let el := if b.inVerbatim then el else el.readVerbatim
  let b := { b with
    inVerbatim := b.inVerbatim || el.pre, inPre := b.inPre || options.platform.isPre el.tag }
  let el ← (
    if b.inVerbatim then pure el.keepLiterals
    else if el.processed then pure el
    else el.readStructure)
  pure (el, b)

/-- Makes the first element the root. -/
def claimRoot (id : NodeId) (el : Element) (b : Builder) : Reported Builder :=
  if b.tree.root.isNone then
    (b.withTree fun tree => { tree with root := some id }).warnOnce (rootFaults el)
  else pure b

/-- A start tag. -/
def start (options : Options) (tag : String) (attributes : List Attribute) (unary : Bool)
    (range : Range) (b : Builder) : Reported Builder := do
  let el ← b.newElement options tag attributes range
  let (el, b) ← b.enter options el
  let (id, tree) := b.tree.add (.element el)
  let b ← ({ b with tree } : Builder).claimRoot id el
  if unary then b.close options id else pure { b with stack := id :: b.stack }

/-- An end tag closes the innermost open element. -/
def finish (options : Options) (stop : Nat) (b : Builder) : Reported Builder :=
  match b.stack with
  | [] => pure b
  | id :: stack =>
    let b := ({ b with stack } : Builder).withTree fun tree =>
      tree.update id fun el => { el with range := el.range.map fun r => { r with stop } }
    b.close options id

/-- Reports a text outside all elements. -/
def textOutside (template text : String) (range : Range) (b : Builder) : Reported Builder :=
  b.warnOnce
    (if text = template then [⟨.textRoot, some range.atStart, .error⟩]
    else if Text.allBlank text.toList then []
    else [⟨.textOutsideRoot (Text.onChars Text.trim text), some range.atStart, .error⟩])

/-- Characters that a condensed text has single spaces for. -/
def isCondensed (c : Char) : Bool :=
  c == ' ' || c == '\t' || c == '\r' || c == '\n' || c.toNat == 12

/-- What stands for a blank text inside an element. -/
def blankText (options : Options) (parent : Element) (text : String) : String :=
  if parent.children.isEmpty then ""
  else
    match options.whitespace with
    | some .condense => if text.toList.any fun c => c == '\r' || c == '\n' then "" else " "
    | some .preserve => " "
    | none => if options.preserveWhitespace then " " else ""

/-- The text that is kept of a text inside an element. -/
def keptText (options : Options) (parent : Element) (text : String) (b : Builder) : String :=
  let kept :=
    if b.inPre || !Text.allBlank text.toList then
      if parent.keepsReferences then text else Text.Reference.decodeText text
    else blankText options parent text
  if !b.inPre && options.whitespace = some .condense then
    Text.onChars (Text.condense isCondensed) kept
  else kept

/-- The node of a kept text, unless it is a space after a space. -/
def textNode? (options : Options) (parent : Element) (text : String) (range : Range) (b : Builder) :
    Option Node :=
  let tokens :=
    if b.inVerbatim || text = " " then none else Interpolation.read? options.delimiters text
  match tokens with
  | some tokens => some (.interpolated { tokens, text, range := some range })
  | none =>
    let last := (parent.children.getLast?.bind b.tree.node?).bind Node.text?
    if text = " " && last = some " " then none else some (.plain { text, range := some range })

/-- The node that is made of a text inside an element, if something is kept of it. -/
def keptNode? (options : Options) (parent : Element) (text : String) (range : Range) (b : Builder) :
    Option Node :=
  let kept := b.keptText options parent text
  if kept = "" then none else b.textNode? options parent kept range

/-- Adds a node to the children of an element. -/
def appendNode (parent : NodeId) (node : Node) (tree : Tree) : Tree :=
  let (id, tree) := tree.add node
  tree.update parent fun p => { p with children := p.children ++ [id] }

/-- A text. -/
def text (options : Options) (template text : String) (range : Range) (b : Builder) :
    Reported Builder :=
  match b.parent? with
  | none => b.textOutside template text range
  | some id =>
    match (b.tree.element? id).bind fun parent => b.keptNode? options parent text range with
    | some node => pure (b.withTree (appendNode id node))
    | none => pure b

/-- A comment, which is kept inside elements only. -/
def comment (text : String) (range : Range) (b : Builder) : Builder :=
  match b.parent? with
  | some id => b.withTree (appendNode id (.plain { text, isComment := true, range := some range }))
  | none => b

/-- The change that an event makes. -/
def step (options : Options) (template : String) (b : Builder) : Event → Reported Builder
  | .start tag attributes unary range => b.start options tag attributes unary range
  | .finish _ range => b.finish options range.stop
  | .text content range => b.text options template content range
  | .comment content range => pure (b.comment content range)

end Builder

namespace Tree

/-- How the markup of a template is read. -/
def markupSettings (options : Options) : Markup.Settings where
  platform := options.platform
  expectHtml := options.expectHtml
  decodeNewlines := options.decodeNewlines
  decodeNewlinesForHref := options.decodeNewlinesForHref
  keepComments := options.comments

/-- The tree of a template. -/
def ofTemplate (options : Options) (template : String) : Reported Tree := do
  let b ← (Markup.events (markupSettings options) template).foldlM (Builder.step options template) {}
  pure b.tree

end Tree

end ViewTemplate
