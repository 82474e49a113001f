import ViewTemplate.Markup.Event

/-! # Balance of the events

The events of any source are read with a stack of tags: a start tag with content puts its tag on
top, and an end tag has to name the tag on top, which it takes off. The reader of markup keeps such
a stack itself, and each of its steps gives events that lead from its stack before to its stack
after.
-/

namespace ViewTemplate

namespace Event

/-- The open tags after an event, innermost first. An end tag that does not name the innermost open
tag is refused. -/
def read? (tags : List String) : Event → Option (List String)
  | .start tag _ unary _ => some (if unary then tags else tag :: tags)
  | .finish tag _ =>
    match tags with
    | [] => none
    | t :: rest => if t = tag then some rest else none
  | .text .. => some tags
  | .comment .. => some tags

theorem read?_finish_eq_some {tag : String} {range : Range} {tags later : List String} :
    read? tags (.finish tag range) = some later ↔ tags = tag :: later := by
  cases tags <;> simp [read?]

/-- The open tags after several events. -/
def readAll? (tags : List String) (events : List Event) : Option (List String) :=
  events.foldlM read? tags

@[simp] theorem readAll?_nil (tags : List String) : readAll? tags [] = some tags := rfl

@[simp] theorem readAll?_cons (tags : List String) (e : Event) (es : List Event) :
    readAll? tags (e :: es) = (read? tags e).bind fun tags => readAll? tags es := rfl

theorem readAll?_append (tags : List String) (es fs : List Event) :
    readAll? tags (es ++ fs) = (readAll? tags es).bind fun tags => readAll? tags fs :=
  List.foldlM_append

theorem readAll?_append_of_eq {tags mid : List String} {es : List Event}
    (h : readAll? tags es = some mid) (fs : List Event) :
    readAll? tags (es ++ fs) = readAll? mid fs := by
  rw [readAll?_append, h, Option.bind_some]

/-- End tags of the innermost open tags take them off. -/
theorem readAll?_finishes (closed rest : List String) (range : Range) :
    readAll? (closed ++ rest) (closed.map fun t => .finish t range) = some rest := by
  induction closed with
  | nil => rfl
  | cons t closed ih => simpa [read?] using ih

end Event

namespace Markup

open Event

/-- What an end tag closes stood on top of what stays open. -/
theorem eq_of_unwind? {tag : String} {stack closed rest : List String}
    (h : unwind? tag stack = some (closed, rest)) : stack = closed ++ rest := by
  induction stack generalizing closed with
  | nil => simp [unwind?] at h
  | cons t stack ih =>
    rw [unwind?] at h
    split at h
    · cases h
      rfl
    · simp only [Option.map_eq_some_iff, Prod.exists, Prod.mk.injEq] at h
      obtain ⟨closed', rest', hu, rfl, rfl⟩ := h
      rw [ih hu, List.cons_append]

theorem readAll?_endEvents (tag : String) (range : Range) (stack : List String) :
    readAll? stack (endEvents tag range stack).1 = some (endEvents tag range stack).2 := by
  rw [endEvents]
  split
  · rename_i closed rest hu
    rw [eq_of_unwind? hu]
    exact readAll?_finishes closed rest range
  · simp only
    split
    · rfl
    · split
      · simp [read?]
      · rfl

theorem readAll?_impliedEnds (settings : Settings) (tag : String) (range : Range)
    (stack : List String) :
    readAll? stack (impliedEnds settings tag range stack).1 =
      some (impliedEnds settings tag range stack).2 := by
  have optional (c : Bool) (t : String) (stack : List String) :
      readAll? stack (if c then endEvents t range stack else ([], stack)).1 =
        some (if c then endEvents t range stack else ([], stack)).2 := by
    cases c with
    | true => exact readAll?_endEvents t range stack
    | false => rfl
  rw [impliedEnds]
  split
  · rw [readAll?_append_of_eq (optional _ _ _)]
    exact optional _ _ _
  · rfl

/-- The events of a start tag leave the stack that the cursor has after it. -/
theorem readAll?_startEvents (settings : Settings) (start : Nat) (tag : String)
    (attributes : List PlacedAttribute) (selfClosing : Bool) (cursor : Cursor) :
    readAll? cursor.stack (startEvents settings start tag attributes selfClosing cursor).1 =
      some (startEvents settings start tag attributes selfClosing cursor).2.stack := by
  have h := readAll?_impliedEnds settings tag ⟨cursor.offset, cursor.offset⟩ cursor.stack
  simp only [startEvents]
  split
  · split <;> rw [readAll?_append_of_eq h] <;> rfl
  · rw [readAll?_append_of_eq h]
    rfl

theorem readAll?_constructEvents (settings : Settings) (found : Found) (cursor : Cursor) :
    readAll? cursor.stack (constructEvents settings found cursor).1 =
      some (constructEvents settings found cursor).2.stack := by
  simp only [constructEvents]
  split
  · split
    · split <;> rfl
    · rfl
  · rfl
  · rfl
  · exact readAll?_endEvents _ _ _
  · exact readAll?_startEvents settings _ _ _ _ (cursor.pass found.text found.rest)

theorem readAll?_rawTextEvents (tag : String) (cursor : Cursor) :
    readAll? cursor.stack (rawTextEvents tag cursor).1 =
      some (rawTextEvents tag cursor).2.stack := by
  simp only [rawTextEvents]
  split
  · exact readAll?_endEvents _ _ _
  · exact readAll?_endEvents _ _ _

theorem readAll?_textEvents (cursor : Cursor) :
    readAll? cursor.stack (textEvents cursor).1 = some (textEvents cursor).2.stack := by
  simp only [textEvents]
  split <;> rfl

/-- One step of the reader gives events that lead from its stack before to its stack after. -/
theorem readAll?_step (settings : Settings) (cursor : Cursor) :
    readAll? cursor.stack (step settings cursor).1 = some (step settings cursor).2.stack := by
  rw [step]
  split
  · exact readAll?_rawTextEvents _ cursor
  · split
    · exact readAll?_constructEvents settings _ cursor
    · exact readAll?_textEvents cursor

theorem readAll?_closeAll (offset : Nat) (stack : List String) :
    readAll? stack (closeAll offset stack) = some [] := by
  simpa [closeAll] using readAll?_finishes stack [] ⟨offset, offset⟩

/-- From any cursor to the end of the source all open tags are closed. -/
theorem readAll?_eventsFrom (settings : Settings) (cursor : Cursor) :
    readAll? cursor.stack (eventsFrom settings cursor) = some [] := by
  fun_induction eventsFrom settings cursor with
  | case1 cursor _ => exact readAll?_closeAll cursor.offset cursor.stack
  | case2 cursor _ events next hs _ ih =>
    have h := readAll?_step settings cursor
    rw [hs] at h
    rw [readAll?_append_of_eq h, ih]
  | case3 cursor _ events next hs _ stop =>
    have h := readAll?_step settings cursor
    rw [hs] at h
    rw [readAll?_append_of_eq h]
    exact readAll?_closeAll stop next.stack

theorem readAll?_events (settings : Settings) (source : String) :
    readAll? [] (events settings source) = some [] :=
  readAll?_eventsFrom settings ⟨0, source.toList, []⟩

end Markup

end ViewTemplate
