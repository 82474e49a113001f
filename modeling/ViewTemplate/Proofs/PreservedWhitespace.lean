import ViewTemplate.Proofs.OpenElements

/-! # Blanks that are kept

While an element like `pre` is open, all blanks of texts are to be kept. The builder has one flag for
that, which the start of such an element sets and its end takes away, whatever else is open. Main
statement: the flag says after every event whether such an element is open exactly if no such element
starts inside another one; and as long as none has, a text in one is kept as it is.
-/

open List Option

namespace ViewTemplate

namespace Event

/-- What an event makes of the flag for kept blanks. -/
def preAfter (isPre : String → Bool) (flag : Bool) : Event → Bool
  | .start tag _ unary _ => if unary then flag && !isPre tag else flag || isPre tag
  | .finish tag _ => flag && !isPre tag
  | .text .. => flag
  | .comment .. => flag

/-- The start of an element of a kind inside another one. -/
def nests (isPre : String → Bool) (tags : List String) : Event → Bool
  | .start tag _ _ _ => isPre tag && tags.any isPre
  | _ => false

/-- No element of a kind starts inside another one, where some tags are open before the events. -/
def apart (isPre : String → Bool) (tags : List String) : List Event → Bool
  | [] => true
  | e :: events => !e.nests isPre tags && (e.read? tags).all fun later => apart isPre later events

variable {isPre : String → Bool} {tags later : List String} {flag : Bool}

theorem apart_of_append {events rest : List Event} (h : apart isPre tags (events ++ rest)) :
    apart isPre tags events := by
  induction events generalizing tags with
  | nil => rfl
  | cons e events ih =>
    rw [cons_append, apart, Bool.and_eq_true] at h
    rw [apart, h.1, Bool.true_and]
    cases hread : e.read? tags with
    | none => rfl
    | some mid =>
      rw [hread] at h
      exact ih h.2

/-- The flag counts the open tags of the kind, if there is never more than one. -/
theorem countP_read? {e : Event} (hread : e.read? tags = some later)
    (hapart : e.nests isPre tags = false) (hflag : tags.countP isPre = flag.toNat) :
    later.countP isPre = (e.preAfter isPre flag).toNat := by
  cases e with
  | start tag attributes unary range =>
    cases hread
    cases hpre : isPre tag with
    | false => cases unary <;> simp [preAfter, hpre, hflag]
    | true =>
      rw [nests, hpre, Bool.true_and, List.any_eq_false] at hapart
      have hnone : tags.countP isPre = 0 := countP_eq_zero.mpr hapart
      rw [hnone, eq_comm, Bool.toNat_eq_zero] at hflag
      cases unary <;> simp [preAfter, hpre, hnone, hflag]
  | finish tag range =>
    rw [read?_finish_eq_some.mp hread] at hflag
    cases hpre : isPre tag <;> cases flag <;> simp_all [preAfter]
  | text content range =>
    cases hread
    exact hflag
  | comment content range =>
    cases hread
    exact hflag

theorem countP_readAll? {events : List Event} (hread : readAll? tags events = some later)
    (hapart : apart isPre tags events) (hflag : tags.countP isPre = flag.toNat) :
    later.countP isPre = (events.foldl (preAfter isPre) flag).toNat := by
  induction events generalizing tags flag with
  | nil =>
    cases hread
    exact hflag
  | cons e events ih =>
    rw [readAll?_cons, bind_eq_some_iff] at hread
    obtain ⟨mid, hmid, hrest⟩ := hread
    rw [apart, hmid, Bool.and_eq_true, Bool.not_eq_true', all_some] at hapart
    exact ih hrest hapart.2 (countP_read? hmid hapart.1 hflag)

/-- An event either closes the tag that some others are open in or leaves it open. -/
theorem read?_above {upper : List String} {t : String} {e : Event}
    (hread : e.read? (upper ++ t :: tags) = some later) :
    (upper = [] ∧ ∃ range, e = .finish t range) ∨ ∃ upper', later = upper' ++ t :: tags := by
  cases e with
  | start tag attributes unary range =>
    cases hread
    cases unary
    · exact .inr ⟨tag :: upper, rfl⟩
    · exact .inr ⟨upper, rfl⟩
  | finish tag range =>
    have hopen := read?_finish_eq_some.mp hread
    cases upper with
    | nil =>
      cases hopen
      exact .inl ⟨rfl, range, rfl⟩
    | cons u upper =>
      cases hopen
      exact .inr ⟨upper, rfl⟩
  | text content range =>
    cases hread
    exact .inr ⟨upper, rfl⟩
  | comment content range =>
    cases hread
    exact .inr ⟨upper, rfl⟩

/-- In events that close all tags each open tag has its end tag. -/
theorem exists_matching_finish (upper : List String) {t : String} {events : List Event}
    (hread : readAll? (upper ++ t :: tags) events = some []) :
    ∃ inner range rest, events = inner ++ .finish t range :: rest ∧
      readAll? (upper ++ t :: tags) inner = some (t :: tags) := by
  induction events generalizing upper with
  | nil => simp at hread
  | cons e events ih =>
    rw [readAll?_cons, bind_eq_some_iff] at hread
    obtain ⟨mid, hmid, hrest⟩ := hread
    rcases read?_above hmid with ⟨rfl, range, rfl⟩ | ⟨upper', rfl⟩
    · exact ⟨[], range, events, rfl, rfl⟩
    · obtain ⟨inner, range, rest, rfl, hinner⟩ := ih upper' hrest
      refine ⟨e :: inner, range, rest, rfl, ?_⟩
      rw [readAll?_cons, hmid]
      exact hinner

/-- A flag that is right after all events of a balanced source has met no nested start: the end of the
inner element takes the flag away while the outer one is open. -/
theorem apart_of_flag (flag : Bool) {events : List Event} (hread : readAll? tags events = some [])
    (hflag : ∀ done rest later, events = done ++ rest → readAll? tags done = some later →
      done.foldl (preAfter isPre) flag = later.any isPre) : apart isPre tags events := by
  induction events generalizing tags flag with
  | nil => rfl
  | cons e events ih =>
    rw [readAll?_cons, bind_eq_some_iff] at hread
    obtain ⟨mid, hmid, hrest⟩ := hread
    rw [apart, hmid, Bool.and_eq_true, Bool.not_eq_true', all_some]
    have hlater (done rest : List Event) (later : List String) (hevents : events = done ++ rest)
        (hdone : readAll? mid done = some later) :
        done.foldl (preAfter isPre) (e.preAfter isPre flag) = later.any isPre :=
      hflag (e :: done) rest later (congrArg (e :: ·) hevents) (by rwa [readAll?_cons, hmid])
    refine ⟨?_, ih _ hrest hlater⟩
    cases e with
    | start tag attributes unary range =>
      rw [nests, Bool.eq_false_iff, Ne, Bool.and_eq_true]
      rintro ⟨hpre, houter⟩
      cases hmid
      cases unary with
      | true =>
        have hnow := hlater [] events tags rfl rfl
        simp [preAfter, hpre, houter] at hnow
      | false =>
        obtain ⟨inner, range, rest, rfl, hinner⟩ := exists_matching_finish [] hrest
        have hclosed := hlater (inner ++ [.finish tag range]) rest tags (by simp)
          ((readAll?_append_of_eq hinner _).trans (by simp [read?]))
        simp [preAfter, hpre, houter] at hclosed
    | finish tag range => rfl
    | text content range => rfl
    | comment content range => rfl

end Event

namespace Builder

open ViewTemplate.Tree

variable {options : Options} {template : String}

theorem inPre_enter (options : Options) (el : Element) (b : Builder) :
    (b.enter options el).value.2.inPre = (b.inPre || options.platform.isPre el.tag) := by
  have htag : (if b.inVerbatim then el else el.readVerbatim).tag = el.tag := by
    split <;> rfl
  rw [← htag]
  rfl

section Hooks

variable (hkeeps : ∀ x ∈ options.extensions, x.Keeps Element.tag)
include hkeeps

theorem inPre_close {b : Builder} {id : NodeId} {tag : String}
    (htag : (b.tree.element? id).map Element.tag = some tag) :
    (b.close options id).value.inPre = (b.inPre && !options.platform.isPre tag) := by
  have hplaced : KeepsTags b.tree (b.placed options id).tree := keeps_placed hkeeps trivial id b
  obtain ⟨el, hel, rfl⟩ := map_eq_some_iff.mp htag
  obtain ⟨el', hel', hsame⟩ := hplaced.element hel
  have hstanding : (b.placed options id).inPre = b.inPre := by
    have hsame : (b.placed options id).standing = b.standing := standing_placed id b
    simp only [standing, Prod.mk.injEq] at hsame
    exact hsame.2.2
  have hleft : ((b.placed options id).finishElement options id).value.inPre =
      ((b.placed options id).inPre && !options.platform.isPre el'.tag) := by
    rw [finishElement, hel']
    rfl
  rw [value_close, hleft, hstanding]
  exact congrArg (fun tag => b.inPre && !options.platform.isPre tag) hsame

theorem inPre_opened (tag : String) (attributes : List Attribute) (range : Range) (b : Builder) :
    (b.opened options tag attributes range).inPre = (b.inPre || options.platform.isPre tag) := by
  have htag : (b.newElement options tag attributes range).value.tag = tag :=
    newElement_keeps Element.tag (fun x hx => (hkeeps x hx).atStart) tag attributes range b
  refine (congrArg (·.2.2) (standing_claimRoot ..)).trans ?_
  show (b.enter options (b.newElement options tag attributes range).value).value.2.inPre = _
  rw [inPre_enter, htag]

/-- One event changes the flag by its own tag alone. -/
theorem inPre_step {b : Builder} {tags later : List String} {e : Event}
    (hread : Event.read? tags e = some later) (hb : b.openTags = tags.map some) :
    (b.step options template e).value.inPre = e.preAfter options.platform.isPre b.inPre := by
  cases e with
  | start tag attributes unary range =>
    rw [step, value_start]
    cases unary with
    | true =>
      have hnew : ((b.opened options tag attributes range).tree.element? b.tree.nodes.size).map
          Element.tag = some tag := by
        rw [element?_opened, if_pos rfl, map_some, tag_entered hkeeps]
      rw [if_pos rfl, inPre_close hkeeps hnew, inPre_opened hkeeps]
      cases hpre : options.platform.isPre tag <;> simp [Event.preAfter, hpre]
    | false => exact inPre_opened hkeeps tag attributes range b
  | finish tag range =>
    obtain ⟨id, stack, el, hstack, hel, rfl⟩ :=
      exists_of_openTags (Event.read?_finish_eq_some.mp hread ▸ hb)
    rw [step, finish, hstack]
    refine inPre_close hkeeps ?_
    rw [withTree, element?_update, if_pos rfl, hel]
    rfl
  | text content range => exact congrArg (·.2.2) (standing_text options template content range b)
  | comment content range => exact congrArg (·.2.2) (standing_comment content range b)

/-- So do several events. -/
theorem inPre_foldlM {b : Builder} {tags later : List String} {events : List Event}
    (hread : Event.readAll? tags events = some later) (hb : b.openTags = tags.map some) :
    (events.foldlM (step options template) b).value.inPre =
      events.foldl (Event.preAfter options.platform.isPre) b.inPre := by
  induction events generalizing b tags with
  | nil => rfl
  | cons e events ih =>
    rw [Event.readAll?_cons, bind_eq_some_iff] at hread
    obtain ⟨mid, hmid, hrest⟩ := hread
    rw [foldlM_cons, Reported.value_bind, ih hrest (openTags_step hkeeps hmid hb),
      inPre_step hkeeps hmid hb, foldl_cons]

end Hooks

/-- What is kept of a text while all blanks are: the text, with its references decoded. -/
def preservedText (parent : Element) (content : String) : String :=
  if parent.keepsReferences then content else Text.Reference.decodeText content

/-- Only a space after a space has no node, and no text is changed on the way. -/
theorem textNode?_map_text? (options : Options) (parent : Element) (text : String) (range : Range)
    (b : Builder) :
    (b.textNode? options parent text range).map Node.text? =
      if text = " " ∧ (parent.children.getLast?.bind b.tree.node?).bind Node.text? = some " "
      then none else some (some text) := by
  by_cases hspace : text = " "
  · simp only [textNode?, hspace, decide_true, Bool.or_true, if_true, Bool.true_and, true_and,
      decide_eq_true_eq]
    split <;> rfl
  · simp only [textNode?, hspace, decide_false, Bool.or_false, Bool.false_and, false_and, if_false,
      Bool.false_eq_true]
    split <;> rfl

/-- A later tree has the text as one more child of the innermost open element, with all its blanks. Only
an empty text and a space after a space are left out. -/
def Preserves (b : Builder) (content : String) (later : Tree) : Prop :=
  ∃ id parent, b.stack.head? = some id ∧ b.tree.element? id = some parent ∧
    if preservedText parent content = "" ∨ preservedText parent content = " " ∧
        (parent.children.getLast?.bind b.tree.node?).bind Node.text? = some " " then later = b.tree
    else ∃ node, node.text? = some (preservedText parent content) ∧ later = appendNode id node b.tree

theorem preserves_text {b : Builder} {id : NodeId} {stack : List NodeId} {parent : Element}
    (hpre : b.inPre = true) (hstack : b.stack = id :: stack) (hel : b.tree.element? id = some parent)
    (content : String) (range : Range) :
    b.Preserves content (b.text options template content range).value.tree := by
  have hkept : b.keptText options parent content = preservedText parent content := by
    simp [keptText, hpre, preservedText]
  have hparent : b.parent? = some id := by rw [parent?, hstack]; rfl
  refine ⟨id, parent, hparent, hel, ?_⟩
  rw [text, hparent]
  simp only [hel, bind_some, keptNode?, hkept]
  by_cases hempty : preservedText parent content = ""
  · simp [hempty]
  have hnode := textNode?_map_text? options parent (preservedText parent content) range b
  simp only [hempty, if_false, false_or]
  split at hnode <;> rename_i hspace
  · rw [if_pos hspace, map_eq_none_iff.mp hnode]
    rfl
  · obtain ⟨node, hsome, htext⟩ := map_eq_some_iff.mp hnode
    rw [if_neg hspace, hsome]
    exact ⟨node, htext, rfl⟩

/-- Each event of a template changes the flag for kept blanks by its own tag alone. So the flag says
after every event whether an element is open in which blanks are kept, exactly if no such element
starts inside another one. Up to the first that does, the flag is right and each text in such an
element is kept with all its blanks, under all options. Extensions must not rename elements. -/
theorem preserved_iff_apart (options : Options) (template : String)
    (hkeeps : ∀ x ∈ options.extensions, x.Keeps Element.tag) :
    let isPre := options.platform.isPre
    let events := Markup.events (Tree.markupSettings options) template
    let isOpen (b : Builder) := b.openTags.any fun tag => tag.any isPre
    (∀ done rest, events = done ++ rest →
      (after options template done).inPre = done.foldl (Event.preAfter isPre) false) ∧
    ((∀ done rest, events = done ++ rest →
        (after options template done).inPre = isOpen (after options template done)) ↔
      Event.apart isPre [] events) ∧
    ∀ done rest, events = done ++ rest → Event.apart isPre [] done →
      (after options template done).inPre = isOpen (after options template done) ∧
      ∀ content range later, rest = .text content range :: later →
        isOpen (after options template done) →
        (after options template done).Preserves content
          (after options template (done ++ [.text content range])).tree := by
  intro isPre events isOpen
  have hall : Event.readAll? [] events = some [] := Markup.readAll?_events ..
  -- what the events say of the builder after some of them
  have hdone (done rest : List Event) (hevents : events = done ++ rest) :
      ∃ tags, Event.readAll? [] done = some tags ∧
        (after options template done).openTags = tags.map some ∧
        isOpen (after options template done) = tags.any isPre ∧
        (after options template done).inPre = done.foldl (Event.preAfter isPre) false := by
    rw [hevents, Event.readAll?_append, bind_eq_some_iff] at hall
    obtain ⟨tags, htags, -⟩ := hall
    have hopen : (after options template done).openTags = tags.map some :=
      openTags_foldlM hkeeps htags rfl
    refine ⟨tags, htags, hopen, ?_, inPre_foldlM hkeeps htags rfl⟩
    show any (after options template done).openTags _ = _
    rw [hopen, List.any_map]
    rfl
  have hright (done rest : List Event) (hevents : events = done ++ rest)
      (hapart : Event.apart isPre [] done) :
      (after options template done).inPre = isOpen (after options template done) := by
    obtain ⟨tags, htags, -, hopen, hflag⟩ := hdone done rest hevents
    have hcount : tags.countP isPre = (done.foldl (Event.preAfter isPre) false).toNat :=
      Event.countP_readAll? htags hapart rfl
    rw [← hflag] at hcount
    rw [hopen, Bool.eq_iff_iff, List.any_eq_true, ← countP_pos_iff, hcount]
    cases (after options template done).inPre <;> decide
  refine ⟨fun done rest hevents => ?_, ⟨fun hflag => ?_, fun hapart done rest hevents => ?_⟩,
    fun done rest hevents hapart => ?_⟩
  · obtain ⟨tags, -, -, -, hafter⟩ := hdone done rest hevents
    exact hafter
  · refine Event.apart_of_flag false hall fun done rest later hevents hread => ?_
    obtain ⟨tags, htags, -, hopen, hafter⟩ := hdone done rest hevents
    cases htags.symm.trans hread
    rw [← hafter, ← hopen]
    exact hflag done rest hevents
  · rw [hevents] at hapart
    exact hright done rest hevents (Event.apart_of_append hapart)
  · refine ⟨hright done rest hevents hapart, ?_⟩
    rintro content range later rfl hopen
    obtain ⟨tags, -, htags, htrue, -⟩ := hdone done _ hevents
    have hpre := (hright done _ hevents hapart).trans hopen
    rw [htrue] at hopen
    cases tags with
    | nil => cases hopen
    | cons tag tags =>
      obtain ⟨id, stack, parent, hstack, hel, -⟩ := exists_of_openTags htags
      rw [after_append_singleton]
      exact preserves_text hpre hstack hel content range

/-- Two such elements side by side are apart, so the flag is right all along. -/
theorem preserved_of_siblings :
    let options := { Options.web with whitespace := some .condense }
    let template := "<div><pre> a </pre><pre> b  c</pre></div>"
    (∀ x ∈ options.extensions, x.Keeps Element.tag) ∧
      ∀ done rest, Markup.events (Tree.markupSettings options) template = done ++ rest →
        (after options template done).inPre = (after options template done).openTags.any
          fun tag => tag.any options.platform.isPre := by
  intro options template
  have hkeeps : ∀ x ∈ options.extensions, x.Keeps Element.tag := fun x hx =>
    (Extension.keeps_frame_web x hx).map Element.Frame.tag
  exact ⟨hkeeps, (preserved_iff_apart options template hkeeps).2.1.mpr (by decide +kernel)⟩

/-- After the end of the inner of two, the outer one is open and the flag is gone: of the text there
only single spaces are left. -/
theorem lost_after_inner_end :
    let options := { Options.web with whitespace := some .condense }
    let template := "<pre><pre></pre>  a  b</pre>"
    let events := Markup.events (Tree.markupSettings options) template
    (after options template (events.take 3)).openTags = [some "pre"] ∧
      (after options template (events.take 3)).inPre = false ∧
      ((after options template events).tree.node? 2).bind Node.text? = some " a b" := by
  decide +kernel

end Builder

end ViewTemplate
