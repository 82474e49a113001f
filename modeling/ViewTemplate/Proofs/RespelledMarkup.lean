import Mathlib.Data.List.Forall2
import ViewTemplate.Proofs.AttributePlaces
import ViewTemplate.Proofs.RespelledSource

/-! # Markup in two spellings

Two source texts, the second with the names of some attributes in their long spellings. The reader
takes the same steps through both, so their events correspond: they differ in the names of those
attributes and in their places.
-/

open List Option

namespace ViewTemplate

open Text

/-- Whether an attribute stands at one of the places. -/
def Attribute.isAt (places : Nat → Bool) (a : Attribute) : Bool :=
  a.range.any fun range => places range.start

namespace Event

/-- Events that correspond: start tags with the attributes at the places in their long spellings, or
the same event elsewhere. -/
inductive Respelled (places : Nat → Bool) : Event → Event → Prop
  | start {tag : String} {l l' : List Attribute} {unary : Bool} {range range' : Range}
      (each : Forall₂ (fun a a' => a'.value = a.value ∧
        (if a.isAt places then Spelling.long? a.name = some a'.name else a'.name = a.name)) l l') :
      Respelled places (.start tag l unary range) (.start tag l' unary range')
  | finish {tag : String} {range range' : Range} :
      Respelled places (.finish tag range) (.finish tag range')
  | text {content : String} {range range' : Range} :
      Respelled places (.text content range) (.text content range')
  | comment {content : String} {range range' : Range} :
      Respelled places (.comment content range) (.comment content range')

end Event

namespace Markup

open Spelling

variable {cursor cursor' : Cursor} {offset : Nat} {s s' : List Char} {places : Nat → Bool}
  {settings : Settings}

/-! ## Recognising the same constructs -/

/-- A front without marks and without the first letter of the words is the same in both spellings. -/
theorem isPrefix_map_lengthened {p : List Char} (h : Lengthened s s') (f : Char → Char)
    (hv : f 'v' ∉ p) (hp : ∀ c word, longMark? c = some word → f c ∉ p) :
    (p <+: s'.map f ↔ p <+: s.map f) ∧
      (p <+: s.map f → Lengthened (s.drop p.length) (s'.drop p.length)) := by
  induction p generalizing s s' with
  | nil => exact ⟨by simp, fun _ => h⟩
  | cons d p ih =>
    cases h with
    | nil => simp
    | kept c h =>
      obtain ⟨hiff, hdrop⟩ := ih h (fun hmem => hv (mem_cons_of_mem d hmem))
        (fun c word hc hmem => hp c word hc (mem_cons_of_mem d hmem))
      simp only [map_cons, cons_prefix_cons, length_cons, drop_succ_cons]
      exact ⟨and_congr_right fun _ => hiff, fun hfront => hdrop hfront.2⟩
    | @mark c word s s' hc h =>
      have hc' : d ≠ f c := fun heq => hp c word hc (heq ▸ mem_cons_self)
      have hv' : d ≠ f 'v' := fun heq => hv (heq ▸ mem_cons_self)
      obtain ⟨x, hword⟩ : ∃ x, word.toList = 'v' :: x := by
        rcases longMark?_cases hc with ⟨-, rfl⟩ | ⟨-, rfl⟩ | ⟨-, rfl⟩
        · exact ⟨_, rfl⟩
        · exact ⟨_, rfl⟩
        · exact ⟨_, rfl⟩
      simp [hword, cons_prefix_cons, hc', hv']

theorem isPrefix_lengthened {p : List Char} (h : Lengthened s s') (hv : 'v' ∉ p)
    (hp : ∀ c word, longMark? c = some word → c ∉ p) : p <+: s' ↔ p <+: s := by
  have hiff := (isPrefix_map_lengthened h id hv hp).1
  rwa [List.map_id, List.map_id] at hiff

/-- What begins at a bracket is told by the characters next to it, which no respelling changes. -/
theorem beginsConstruct_lengthened (h : Lengthened s s') (hhead : s'.head? = s.head?)
    (hsecond : s.head? = some '/' → s'.tail.head? = s.tail.head?) :
    beginsConstruct ('<' :: s') = beginsConstruct ('<' :: s) := by
  have hmark (p : List Char) (hp : p = ['!', '-', '-'] ∨ p = ['!', '[']) :
      p <+: s' ↔ p <+: s := by
    refine isPrefix_lengthened h ?_ ?_
    · rcases hp with rfl | rfl <;> decide
    · intro c word hc
      rcases longMark?_cases hc with ⟨rfl, -⟩ | ⟨rfl, -⟩ | ⟨rfl, -⟩ <;>
        rcases hp with rfl | rfl <;> decide
  have hslash : (∃ t, s' = '/' :: t ∧ t.head?.any isNameStart = true ∧ '>' ∈ t) ↔
      ∃ t, s = '/' :: t ∧ t.head?.any isNameStart = true ∧ '>' ∈ t := by
    have hbracket : '>' ∈ s' ↔ '>' ∈ s := h.mem_iff (by decide)
    cases s with
    | nil =>
      cases h
      simp
    | cons c s =>
      obtain ⟨s', rfl⟩ : ∃ t, s' = c :: t := head?_eq_some_iff.mp hhead
      simp only [List.cons.injEq, mem_cons] at hbracket ⊢
      by_cases hc : c = '/'
      · subst hc
        rw [head?_cons, tail_cons, tail_cons] at hsecond
        have hne : ¬ '>' = '/' := by decide
        simp only [hne, false_or] at hbracket
        simp only [true_and, exists_eq_left', hsecond rfl, hbracket]
      · simp [hc]
  rw [Bool.eq_iff_iff, beginsConstruct_iff, beginsConstruct_iff, hslash, hhead,
    hmark _ (.inl rfl), hmark _ (.inr rfl)]

theorem doctype?_lengthened (h : Lengthened s s') (hnone : doctype? s = none) :
    doctype? s' = none := by
  have hp (c : Char) (word : String) (hc : longMark? c = some word) :
      asciiLower c ∉ "<!doctype ".toList := by
    rcases longMark?_cases hc with ⟨rfl, -⟩ | ⟨rfl, -⟩ | ⟨rfl, -⟩ <;> decide
  obtain ⟨hiff, hdrop⟩ := isPrefix_map_lengthened h asciiLower (by decide) hp
  rw [← not_isSome_iff_eq_none, isSome_doctype?] at hnone ⊢
  rintro ⟨hfront, hmem, hhead⟩
  have hlonger : Lengthened (s.drop 10) (s'.drop 10) := hdrop (hiff.mp hfront)
  refine hnone ⟨hiff.mp hfront, (hlonger.mem_iff (by decide)).mp hmem, fun heq => hhead ?_⟩
  rcases hlonger.head_cases with hsame | ⟨c, word, hc, hmark, -⟩
  · rw [hsame, heq]
  · rw [heq] at hc
    cases hc
    cases hmark

/-! ## Runs of text -/

/-- A run of text ends at the same bracket in both spellings. -/
theorem textRun_lengthened {rest' : List Char} (h : Lengthened (textRun s).2 rest')
    (hhead : rest'.head? = (textRun s).2.head?)
    (hbegins : beginsConstruct rest' = beginsConstruct (textRun s).2) :
    textRun ((textRun s).1 ++ rest') = ((textRun s).1, rest') := by
  induction s with
  | nil =>
    cases h
    rfl
  | cons c s ih =>
    have hstop := head_of_textRun s
    have hs := textRun_append s
    simp only [textRun] at h hhead hbegins ⊢
    split at h
    · rename_i hc
      rw [if_pos hc] at hhead hbegins
      rw [if_pos hc, nil_append]
      obtain ⟨t, rfl⟩ : ∃ t, rest' = c :: t := head?_eq_some_iff.mp hhead
      simp only [Bool.and_eq_true, decide_eq_true_eq] at hc
      obtain ⟨rfl, hc⟩ := hc
      have hmem : '<' ∈ t ↔ '<' ∈ s := by
        generalize hx : '<' :: t = x at h
        cases h with
        | kept _ h =>
          cases hx
          exact h.mem_iff (by decide)
        | mark hmark _ => cases hmark
      rw [textRun, hbegins, contains_eq_mem, decide_eq_decide.mpr hmem,
        ← contains_eq_mem, hc]
      rfl
    · rename_i hc
      rw [if_neg hc] at hhead hbegins
      rw [if_neg hc, cons_append, textRun]
      have hlonger : Lengthened s ((textRun s).1 ++ rest') := by
        have happend := (Lengthened.refl (textRun s).1).append h
        rwa [hs] at happend
      have hsame : ((textRun s).1 ++ rest').head? = s.head? := by
        rw [← hs, head?_append, head?_append, hhead, hs]
      have hc' : ¬ (c = '<' && (beginsConstruct (c :: ((textRun s).1 ++ rest')) ||
          !((textRun s).1 ++ rest').contains '<')) = true := by
        by_cases hbracket : c = '<'
        · subst hbracket
          have hsecond : s.head? = some '/' →
              ((textRun s).1 ++ rest').tail.head? = s.tail.head? := by
            intro hslash
            obtain ⟨t, rfl⟩ := head?_eq_some_iff.mp hslash
            have hrun : textRun ('/' :: t) = ('/' :: (textRun t).1, (textRun t).2) := by
              simp [textRun]
            rw [hrun] at hhead ⊢
            rw [cons_append, tail_cons, tail_cons, head?_append, hhead,
              ← head?_append, textRun_append]
          rw [beginsConstruct_lengthened hlonger hsame hsecond, contains_eq_mem,
            decide_eq_decide.mpr (hlonger.mem_iff (by decide)), ← contains_eq_mem]
          exact hc
        · simp [hbracket]
      rw [if_neg hc', ih h hhead hbegins]

/-! ## Steps that correspond -/

/-- Cursors at the same place of both texts. -/
structure Cursor.Respelled (places : Nat → Bool) (cursor cursor' : Cursor) : Prop where
  rest : cursor'.rest = respell places cursor.offset cursor.rest
  stack : cursor'.stack = cursor.stack

/-- The events of two steps correspond, and after them the cursors do. -/
structure StepRespelled (places : Nat → Bool) (out out' : List Event × Cursor) : Prop where
  events : Forall₂ (Event.Respelled places) out.1 out'.1
  cursor : out.2.Respelled places out'.2

theorem forall₂_finish (tags : List String) (range range' : Range) :
    Forall₂ (Event.Respelled places) (tags.map fun t => .finish t range)
      (tags.map fun t => .finish t range') := by
  induction tags with
  | nil => exact .nil
  | cons t tags ih => exact .cons .finish ih

theorem respelled_endEvents (places : Nat → Bool) (tag : String) (range range' : Range)
    (stack : List String) :
    Forall₂ (Event.Respelled places) (endEvents tag range stack).1
        (endEvents tag range' stack).1 ∧
      (endEvents tag range' stack).2 = (endEvents tag range stack).2 := by
  simp only [endEvents]
  split
  · exact ⟨forall₂_finish _ range range', rfl⟩
  · split
    · exact ⟨.cons (.start .nil) .nil, rfl⟩
    · split
      · exact ⟨.cons (.start .nil) (.cons .finish .nil), rfl⟩
      · exact ⟨.nil, rfl⟩

theorem respelled_impliedEnds (places : Nat → Bool) (settings : Settings) (tag : String)
    (range range' : Range) (stack : List String) :
    Forall₂ (Event.Respelled places) (impliedEnds settings tag range stack).1
        (impliedEnds settings tag range' stack).1 ∧
      (impliedEnds settings tag range' stack).2 = (impliedEnds settings tag range stack).2 := by
  have hif (condition : Bool) (tag : String) (stack : List String) :
      Forall₂ (Event.Respelled places)
          (if condition then endEvents tag range stack else ([], stack)).1
          (if condition then endEvents tag range' stack else ([], stack)).1 ∧
        (if condition then endEvents tag range' stack else ([], stack)).2 =
          (if condition then endEvents tag range stack else ([], stack)).2 := by
    cases condition with
    | true => exact respelled_endEvents places tag range range' stack
    | false => exact ⟨.nil, rfl⟩
  simp only [impliedEnds]
  split
  · obtain ⟨hfirst, hstack⟩ := hif (stack.head? = some "p" && Tag.isNonPhrasing tag) "p" stack
    simp only [hstack]
    obtain ⟨hsecond, hstack'⟩ := hif (settings.platform.canBeLeftOpen tag &&
      (if (stack.head? = some "p" && Tag.isNonPhrasing tag) = true then endEvents "p" range stack
        else ([], stack)).2.head? = some tag) tag
      (if (stack.head? = some "p" && Tag.isNonPhrasing tag) = true then endEvents "p" range stack
        else ([], stack)).2
    exact ⟨rel_append hfirst hsecond, hstack'⟩
  · exact ⟨.nil, rfl⟩

theorem ne_href_of_long? {name long : String} (h : long? name = some long) :
    name ≠ "href" ∧ long ≠ "href" := by
  obtain ⟨mark, word, x, hmark, -, rfl, rfl⟩ := long?_eq_some_iff.mp h
  constructor <;> intro heq <;> have hlist := congrArg String.toList heq <;>
    cases hmark <;> simp at hlist

/-- Values are decoded alike in both spellings. -/
theorem decodeAttribute_respelled {a a' : PlacedAttribute} (h : a.Respelled places a') (tag : String) :
    (decodeAttribute settings tag a').value = (decodeAttribute settings tag a).value ∧
      if (decodeAttribute settings tag a).isAt places then
        long? (decodeAttribute settings tag a).name = some (decodeAttribute settings tag a').name
      else (decodeAttribute settings tag a').name = (decodeAttribute settings tag a).name := by
  obtain ⟨hvalue, hname⟩ := h
  simp only [decodeAttribute, Attribute.isAt, any_some]
  split at hname
  · rename_i hplace
    obtain ⟨hne, hne'⟩ := ne_href_of_long? hname
    simp [hplace, hname, hne, hne', hvalue]
  · rename_i hplace
    simp [hplace, hname, hvalue]

/-- A character that is no mark stays where it is. -/
theorem head_respell {c : Char} (hc : longMark? c = none) (hv : c ≠ 'v') (offset : Nat)
    (s : List Char) : (respell places offset s).head? = some c ↔ s.head? = some c := by
  rcases (lengthened_respell places offset s).head_cases with heq | ⟨d, word, hd, hmark, hhead⟩
  · rw [heq]
  · rw [hd, hhead, Option.some.injEq, Option.some.injEq]
    constructor
    · rintro rfl
      exact absurd rfl hv
    · rintro rfl
      rw [hc] at hmark
      cases hmark

theorem respell_cons {c : Char} (hc : longMark? c = none ∨ places offset = false) (s : List Char) :
    respell places offset (c :: s) = c :: respell places (offset + c.utf8Size) s := by
  rw [respell]
  rcases hc with hc | hc
  · simp [hc]
  · simp [hc]

section

variable (h : cursor.Respelled places cursor')
include h

theorem respelled_startEvents (start start' : Nat) (tag : String) {as as' : List PlacedAttribute}
    (has : Forall₂ (PlacedAttribute.Respelled places) as as') (selfClosing : Bool) :
    StepRespelled places (startEvents settings start tag as selfClosing cursor)
      (startEvents settings start' tag as' selfClosing cursor') := by
  obtain ⟨hends, hstack⟩ := respelled_impliedEnds places settings tag ⟨cursor.offset, cursor.offset⟩
    ⟨cursor'.offset, cursor'.offset⟩ cursor.stack
  constructor
  · rw [fst_startEvents, fst_startEvents, h.stack]
    refine rel_append hends (.cons (.start ?_) .nil)
    rw [forall₂_map_left_iff, forall₂_map_right_iff]
    exact has.imp fun a a' ha => decodeAttribute_respelled ha tag
  · rw [snd_startEvents_eq, snd_startEvents_eq, h.stack, hstack]
    refine ⟨?_, rfl⟩
    have hhead : cursor'.rest.head? = some '\n' ↔ cursor.rest.head? = some '\n' := by
      rw [h.rest]
      exact head_respell rfl (by decide) cursor.offset cursor.rest
    simp only [hhead]
    split
    · rename_i hnewline
      obtain ⟨t, ht⟩ := head?_eq_some_iff.mp hnewline.1
      simp only [Cursor.pass, h.rest, ht, tail_cons]
      rw [respell_cons (.inl rfl)]
      rfl
    · exact h.rest

/-- Constructs that are no start tags, read in both texts. -/
theorem respelled_constructEvents {found : Found} (hstart : ∀ name attributes selfClosing,
      found.construct ≠ .startTag name attributes selfClosing) :
    StepRespelled places (constructEvents settings found cursor)
      (constructEvents settings
        { found with
          rest := respell places (cursor.offset + byteLength found.text) found.rest } cursor') := by
  obtain ⟨construct, text, rest⟩ := found
  cases construct with
  | comment content =>
    refine ⟨?_, rfl, h.stack⟩
    cases content with
    | none => exact .nil
    | some content =>
      simp only [constructEvents]
      split
      · exact .cons .comment .nil
      · exact .nil
  | conditional => exact ⟨.nil, rfl, h.stack⟩
  | doctype => exact ⟨.nil, rfl, h.stack⟩
  | endTag name =>
    simp only [constructEvents, h.stack]
    obtain ⟨hends, hstack⟩ := respelled_endEvents places (String.ofList name)
      ⟨cursor.offset, (cursor.pass text rest).offset⟩
      ⟨cursor'.offset, (cursor'.pass text
        (respell places (cursor.offset + byteLength text) rest)).offset⟩ cursor.stack
    exact ⟨hends, rfl, hstack⟩
  | startTag name attributes selfClosing => exact absurd rfl (hstart name attributes selfClosing)

/-- A text without places is the same in both spellings. -/
theorem Cursor.Respelled.rest_eq {text rest : List Char} (hrest : cursor.rest = text ++ rest)
    (hnone : ∀ p, cursor.offset ≤ p → p < cursor.offset + byteLength text →
      places p = false) :
    cursor'.rest = text ++ respell places (cursor.offset + byteLength text) rest := by
  rw [h.rest, hrest, respell_append, respell_of_none hnone]

/-- Where there are no places ahead, the texts ahead are the same. -/
theorem Cursor.Respelled.rest_same (hnone : ∀ p, cursor.offset ≤ p → places p = false) :
    cursor'.rest = cursor.rest := by
  rw [h.rest]
  exact respell_of_none fun p hle _ => hnone p hle

theorem respelled_rawTextEvents (tag : String)
    (hread : ∀ p, cursor.offset ≤ p → p < (rawTextEvents tag cursor).2.offset → places p = false)
    (hstuck : (rawTextEvents tag cursor).2.offset = cursor.offset →
      ∀ p, cursor.offset ≤ p → places p = false) :
    StepRespelled places (rawTextEvents tag cursor) (rawTextEvents tag cursor') := by
  cases hraw : rawText? (Tag.lower tag).toList cursor.rest with
  | none =>
    simp only [rawTextEvents, hraw] at hstuck
    have hsame := h.rest_same (hstuck trivial)
    have hrest := h.rest
    rw [hsame] at hrest
    simp only [rawTextEvents, hraw, hsame, h.stack]
    obtain ⟨hends, hstack⟩ := respelled_endEvents places (Tag.lower tag)
      ⟨cursor.offset, cursor.offset⟩ ⟨cursor'.offset, cursor'.offset⟩ cursor.stack
    exact ⟨hends, hrest, hstack⟩
  | some found =>
    obtain ⟨text, endTag, rest⟩ := found
    have hsplit : cursor.rest = (text ++ endTag) ++ rest := by
      rw [(rawText?_fits hraw).1, append_assoc]
    simp only [rawTextEvents, hraw, Cursor.pass, Nat.add_assoc, ← byteLength_append] at hread
    have hrest' := h.rest_eq hsplit hread
    have hraw' := rawText?_append hraw
      (respell places (cursor.offset + byteLength (text ++ endTag)) rest)
    rw [← append_assoc, ← hrest'] at hraw'
    simp only [rawTextEvents, hraw, hraw', h.stack]
    refine ⟨.cons .text (respelled_endEvents places (Tag.lower tag) _ _ cursor.stack).1, ?_,
      (respelled_endEvents places (Tag.lower tag) _ _ cursor.stack).2⟩
    simp only [Cursor.pass, byteLength_append, Nat.add_assoc]

end

/-- The characters next to a bracket are the same in both texts. -/
theorem beginsConstruct_respell
    (hbehind : ∀ p, offset ≤ p → places p = true → IsBehindTag offset s p)
    (hs : ∀ c ∈ s.head?, c = '<') :
    beginsConstruct (respell places offset s) = beginsConstruct s := by
  cases s with
  | nil => rfl
  | cons c s =>
    obtain rfl := hs c rfl
    have hplace {p : Nat} (hle : offset ≤ p) (hlt : p < offset + 2) : places p = false := by
      rw [Bool.eq_false_iff]
      intro hp
      have hge := (hbehind p hle hp).le
      omega
    have hone : '<'.utf8Size = 1 := by decide
    rw [respell_cons (.inl rfl), hone]
    have hhead : (respell places (offset + 1) s).head? = s.head? := by
      cases s with
      | nil => rfl
      | cons d s => rw [respell_cons (.inr (hplace (by omega) (by omega)))]; rfl
    refine beginsConstruct_lengthened (lengthened_respell places (offset + 1) s) hhead ?_
    intro hslash
    obtain ⟨t, rfl⟩ := head?_eq_some_iff.mp hslash
    have hsize : '/'.utf8Size = 1 := by decide
    rw [respell_cons (.inl rfl), tail_cons, tail_cons, hsize]
    cases t with
    | nil => rfl
    | cons d t =>
      have hsecond : places (offset + 1 + 1) = false := by
        rw [Bool.eq_false_iff]
        intro hp
        exact (hbehind _ (by omega) hp).ne_of_slash rfl
      rw [respell_cons (.inr hsecond)]
      rfl

/-- The run of text ahead is the same in both texts. -/
theorem textRun_respelled (h : cursor.Respelled places cursor')
    (hread : ∀ p, cursor.offset ≤ p → p < (textEvents cursor).2.offset → places p = false)
    (hbehind : ∀ p, (textEvents cursor).2.offset ≤ p → places p = true →
      IsBehindTag (textEvents cursor).2.offset (textEvents cursor).2.rest p) :
    textRun cursor'.rest = ((textRun cursor.rest).1, respell places
      (cursor.offset + byteLength (textRun cursor.rest).1) (textRun cursor.rest).2) := by
  simp only [textEvents, Cursor.pass] at hread hbehind
  have hstop := head_of_textRun cursor.rest
  have hlonger := lengthened_respell places
    (cursor.offset + byteLength (textRun cursor.rest).1) (textRun cursor.rest).2
  have hhead := hlonger.head_eq (p := (· != '<'))
    (fun c hc => by rw [hstop c hc]; rfl)
    (fun c word hc => by
      rcases longMark?_cases hc with ⟨rfl, -⟩ | ⟨rfl, -⟩ | ⟨rfl, -⟩ <;> rfl)
  rw [h.rest_eq (textRun_append cursor.rest).symm hread]
  exact textRun_lengthened hlonger hhead (beginsConstruct_respell hbehind hstop)

theorem startTag?_eq_none (h : startTag? offset s = none) (offset' : Nat) :
    startTag? offset' s = none := by
  rw [eq_none_iff_forall_ne_some]
  intro found hfound
  obtain ⟨name, as, selfClosing, -, hconstruct, -⟩ := startTag?_fits hfound
  obtain ⟨as', text', hsome, -⟩ := @startTag?_respell as name s offset' (fun _ => false)
    selfClosing found hfound hconstruct (fun _ _ _ hp => nomatch hp) offset
  rw [respell_of_none fun _ _ _ => rfl, h] at hsome
  cases hsome

section

variable (h : cursor.Respelled places cursor')
include h

/-- Where no construct is recognised, none is recognised in the respelled text. -/
theorem construct?_respelled
    (hread : ∀ p, cursor.offset ≤ p → p < (textEvents cursor).2.offset → places p = false)
    (hstuck : (textEvents cursor).2.offset = cursor.offset →
      ∀ p, cursor.offset ≤ p → places p = false)
    (hbehind : ∀ p, (textEvents cursor).2.offset ≤ p → places p = true →
      IsBehindTag (textEvents cursor).2.offset (textEvents cursor).2.rest p)
    (hnone : construct? cursor.offset cursor.rest = none) :
    construct? cursor'.offset cursor'.rest = none := by
  by_cases hrun : (textRun cursor.rest).1 = []
  · have hoffset : (textEvents cursor).2.offset = cursor.offset := by
      simp [textEvents, Cursor.pass, hrun]
    rw [h.rest_same (hstuck hoffset)]
    simp only [construct?, or_eq_none_iff] at hnone ⊢
    obtain ⟨hcomment, hconditional, hdoctype, hend, hstart⟩ := hnone
    exact ⟨hcomment, hconditional, hdoctype, hend, startTag?_eq_none hstart cursor'.offset⟩
  · have hrun' : (textRun cursor'.rest).1 ≠ [] := by
      rwa [textRun_respelled h hread hbehind]
    rw [construct?_of_not_begins (not_begins_of_textRun hrun)] at hnone
    rw [construct?_of_not_begins (not_begins_of_textRun hrun'), h.rest]
    exact doctype?_lengthened (lengthened_respell places cursor.offset cursor.rest) hnone

theorem respelled_textEvents
    (hread : ∀ p, cursor.offset ≤ p → p < (textEvents cursor).2.offset → places p = false)
    (hbehind : ∀ p, (textEvents cursor).2.offset ≤ p → places p = true →
      IsBehindTag (textEvents cursor).2.offset (textEvents cursor).2.rest p) :
    StepRespelled places (textEvents cursor) (textEvents cursor') := by
  simp only [textEvents, textRun_respelled h hread hbehind]
  refine ⟨?_, rfl, h.stack⟩
  split
  · exact .nil
  · exact .cons .text .nil

theorem respelled_startTag (hraw : cursor.innermost?.filter Tag.isRawText = none) {found : Found}
    {name : List Char} {as : List PlacedAttribute} {selfClosing : Bool}
    (hfound : startTag? cursor.offset cursor.rest = some found)
    (hconstruct : found.construct = .startTag name as selfClosing)
    (hstep : step settings cursor = startEvents settings cursor.offset (String.ofList name) as
      selfClosing (cursor.pass found.text found.rest))
    (hread : ∀ p, cursor.offset ≤ p → p < (step settings cursor).2.offset → places p = true →
      ∃ e ∈ (step settings cursor).1, p ∈ e.markPlaces) :
    StepRespelled places (step settings cursor) (step settings cursor') := by
  have hpass : cursor.offset + byteLength found.text ≤ (step settings cursor).2.offset := by
    rw [hstep]
    rcases snd_startEvents settings cursor.offset (String.ofList name) as selfClosing
      (cursor.pass found.text found.rest) with ⟨-, hoffset⟩ | ⟨-, hoffset, -⟩
    · exact Nat.le_of_eq hoffset.symm
    · rw [hoffset]
      exact Nat.le_add_right _ _
  have hplaces (p : Nat) (hle : cursor.offset ≤ p)
      (hlt : p < cursor.offset + byteLength found.text) (hp : places p = true) :
      ∃ a ∈ as, a.range.start = p ∧ (long? (String.ofList a.name)).isSome = true ∧
        p ≠ cursor.offset + 1 + byteLength name := by
    obtain ⟨e, he, hmem⟩ := hread p hle (Nat.lt_of_lt_of_le hlt hpass) hp
    obtain ⟨tag, l, unary, range, rfl, hne, a, ha, hstart, hlong⟩ :=
      Event.exists_of_mem_markPlaces hmem
    rw [hstep, fst_startEvents] at he
    rcases mem_append.mp he with he | he
    · obtain ⟨t, heq⟩ := impliedEnds_finish he
      cases heq
    · cases mem_singleton.mp he
      obtain ⟨b, hb, rfl⟩ := List.mem_map.mp ha
      rw [String.toList_ofList] at hne
      exact ⟨b, hb, Option.some.inj hstart, hlong, hne⟩
  obtain ⟨as', text', hfound', hattributes⟩ :=
    startTag?_respell hfound hconstruct hplaces cursor'.offset
  rw [← h.rest] at hfound'
  have hraw' : cursor'.innermost?.filter Tag.isRawText = none := by
    rwa [Cursor.innermost?, h.stack]
  have hstep' : step settings cursor' = startEvents settings cursor'.offset (String.ofList name) as'
      selfClosing (cursor'.pass ('<' :: name ++ text')
        (respell places (cursor.offset + byteLength found.text) found.rest)) := by
    simp only [step, hraw', construct?_of_startTag? hfound', constructEvents]
  have hpassed : (cursor.pass found.text found.rest).Respelled places
      (cursor'.pass ('<' :: name ++ text')
        (respell places (cursor.offset + byteLength found.text) found.rest)) := ⟨rfl, h.stack⟩
  rw [hstep, hstep']
  exact respelled_startEvents hpassed _ _ _ hattributes selfClosing

/-- A step reads the same in both texts. -/
theorem respelled_step
    (hread : ∀ p, cursor.offset ≤ p → p < (step settings cursor).2.offset → places p = true →
      ∃ e ∈ (step settings cursor).1, p ∈ e.markPlaces)
    (hstuck : (step settings cursor).2.offset = cursor.offset →
      ∀ p, cursor.offset ≤ p → places p = false)
    (hbehind : ∀ p, (step settings cursor).2.offset ≤ p → places p = true →
      IsBehindTag (step settings cursor).2.offset (step settings cursor).2.rest p) :
    StepRespelled places (step settings cursor) (step settings cursor') := by
  have hstack : cursor'.innermost? = cursor.innermost? := congrArg head? h.stack
  have hnone (hplain : ∀ e ∈ (step settings cursor).1, e.attributes = []) (p : Nat)
      (hle : cursor.offset ≤ p) (hlt : p < (step settings cursor).2.offset) : places p = false := by
    rw [Bool.eq_false_iff]
    intro hp
    obtain ⟨e, he, hmem⟩ := hread p hle hlt hp
    obtain ⟨tag, l, unary, range, rfl, -, a, ha, -⟩ := Event.exists_of_mem_markPlaces hmem
    have hnil : l = [] := hplain _ he
    rw [hnil] at ha
    cases ha
  cases step_case settings cursor with
  | rawText tag hraw hstep hplain =>
    have hstep' : step settings cursor' = rawTextEvents tag cursor' := by
      simp only [step, hstack, hraw]
    have hnone := hnone hplain
    rw [hstep] at hnone hstuck
    rw [hstep, hstep']
    exact respelled_rawTextEvents h tag hnone hstuck
  | construct found hraw hfound hkind hstep hplain =>
    have hnone := hnone hplain
    have hnext : (step settings cursor).2.offset =
        cursor.offset + byteLength found.text := by
      rw [hstep]
      exact offset_constructEvents hkind cursor
    rw [hnext] at hnone
    have hrest' := h.rest_eq (eq_of_construct? hfound) hnone
    have hfound' := construct?_append hfound hkind cursor'.offset
      (respell places (cursor.offset + byteLength found.text) found.rest)
    rw [← hrest'] at hfound'
    have hstep' : step settings cursor' = constructEvents settings { found with
        rest := respell places (cursor.offset + byteLength found.text) found.rest }
        cursor' := by
      simp only [step, hstack, hraw, hfound']
    rw [hstep, hstep']
    exact respelled_constructEvents h hkind
  | startTag found name as selfClosing hraw hfound hconstruct hstep =>
    exact respelled_startTag h hraw hfound hconstruct hstep hread
  | text hraw hfound hstep hplain =>
    have hnone := hnone hplain
    rw [hstep] at hnone hstuck hbehind
    have hfound' := construct?_respelled h hnone hstuck hbehind hfound
    have hstep' : step settings cursor' = textEvents cursor' := by
      simp only [step, hstack, hraw, hfound']
    rw [hstep, hstep']
    exact respelled_textEvents h hnone hbehind

end

/-! ## Events that correspond -/

theorem respell_eq_nil_iff : respell places offset s = [] ↔ s = [] := by
  constructor
  · intro h
    rcases (lengthened_respell places offset s).head_cases with hhead | ⟨c, word, -, -, hhead⟩
    · rw [h] at hhead
      exact head?_eq_none_iff.mp hhead.symm
    · rw [h] at hhead
      cases hhead
  · rintro rfl
    rfl

/-- Steps that correspond read on both or on neither. -/
theorem StepRespelled.reads_iff (h : cursor.Respelled places cursor')
    (hstep : StepRespelled places (step settings cursor) (step settings cursor')) :
    (step settings cursor').2.rest.length < cursor'.rest.length ↔
      (step settings cursor).2.rest.length < cursor.rest.length := by
  obtain ⟨text, hrest, hoffset, hreads⟩ := reads_on_iff settings cursor
  have hsplit := respell_append places cursor.offset text (step settings cursor).2.rest
  rw [← hrest] at hsplit
  rw [hreads, hstep.cursor.rest, h.rest, hoffset, hsplit, length_append, Ne,
    ← @respell_eq_nil_iff cursor.offset text places, ← length_eq_zero_iff]
  omega

theorem respelled_closeAll (places : Nat → Bool) (offset offset' : Nat) (stack : List String) :
    Forall₂ (Event.Respelled places) (closeAll offset stack) (closeAll offset' stack) :=
  forall₂_finish stack ⟨offset, offset⟩ ⟨offset', offset'⟩

/-- The events of the two texts correspond. -/
theorem respelled_eventsFrom (h : cursor.Respelled places cursor')
    (hcovered : Covered places cursor.offset (eventsFrom settings cursor)) :
    Forall₂ (Event.Respelled places) (eventsFrom settings cursor)
      (eventsFrom settings cursor') := by
  fun_induction eventsFrom settings cursor generalizing cursor' with
  | case1 cursor hend =>
    rw [List.isEmpty_iff] at hend
    have hend' : cursor'.rest = [] := by rw [h.rest, hend]; rfl
    rw [eventsFrom, hend', isEmpty_nil, if_pos rfl, h.stack]
    exact respelled_closeAll places _ _ cursor.stack
  | case2 cursor hend events next hstep hreads ih =>
    obtain ⟨hread, hlater⟩ := Covered.step (by rw [hstep]; exact hcovered)
    obtain ⟨text, -, hoffset, hreads'⟩ := reads_on_iff settings cursor
    have halike : StepRespelled places (step settings cursor) (step settings cursor') := by
      refine respelled_step h hread ?_ ?_
      · intro hstuck
        have hpos := byteLength_pos (hreads'.mp (by rw [hstep]; exact hreads))
        omega
      · intro p hle hp
        obtain ⟨e, he, hmem⟩ := hlater p hle hp
        exact place_of_event he hmem
    have hreads' := (halike.reads_iff h).mpr (by rw [hstep]; exact hreads)
    have hend' : ¬ cursor'.rest.isEmpty = true := by
      rw [List.isEmpty_iff, h.rest, respell_eq_nil_iff, ← List.isEmpty_iff]
      exact hend
    have hevents' : eventsFrom settings cursor' =
        (step settings cursor').1 ++ eventsFrom settings (step settings cursor').2 := by
      rw [eventsFrom, if_neg hend']
      simp only [if_pos hreads']
    rw [hevents']
    have hevents := halike.events
    have hcursor := halike.cursor
    rw [hstep] at hevents hcursor hlater
    exact rel_append hevents (ih hcursor hlater)
  | case3 cursor hend events next hstep hreads =>
    obtain ⟨text, hrest, hoffset, hreads'⟩ := reads_on_iff settings cursor
    have hnil : text = [] := by
      by_contra hne
      have hlt := hreads'.mpr hne
      rw [hstep] at hlt
      exact hreads hlt
    rw [hnil, byteLength_nil, Nat.add_zero] at hoffset
    have hnone (p : Nat) (hle : cursor.offset ≤ p) : places p = false := by
      rw [Bool.eq_false_iff]
      intro hp
      obtain ⟨e, he, hmem⟩ := hcovered p hle hp
      rcases mem_append.mp he with he | he
      · have hlt := (place_of_step (by rw [hstep]; exact he) hmem).2
        omega
      · rcases mem_cons.mp he with rfl | he
        · cases hmem
        · obtain ⟨t, rfl⟩ := mem_closeAll he
          cases hmem
    have halike : StepRespelled places (step settings cursor) (step settings cursor') := by
      refine respelled_step h ?_ (fun _ => hnone) ?_
      · intro p hle hlt
        omega
      · intro p hle hp
        rw [hnone p (hoffset ▸ hle)] at hp
        cases hp
    have hreads' : ¬ (step settings cursor').2.rest.length < cursor'.rest.length := by
      rw [halike.reads_iff h, hstep]
      exact hreads
    have hend' : ¬ cursor'.rest.isEmpty = true := by
      rw [List.isEmpty_iff, h.rest, respell_eq_nil_iff, ← List.isEmpty_iff]
      exact hend
    have hcursor := halike.cursor
    have hsame := hcursor.rest_same (by rw [hoffset]; exact hnone)
    have hevents := halike.events
    have hevents' : eventsFrom settings cursor' = (step settings cursor').1 ++
        .text (String.ofList (step settings cursor').2.rest) ⟨(step settings cursor').2.offset,
          (step settings cursor').2.offset + byteLength (step settings cursor').2.rest⟩ ::
        closeAll ((step settings cursor').2.offset +
          byteLength (step settings cursor').2.rest) (step settings cursor').2.stack := by
      rw [eventsFrom, if_neg hend']
      simp only [if_neg hreads']
    rw [hevents', hsame, hcursor.stack]
    rw [hstep] at hevents ⊢
    exact rel_append hevents (.cons .text (respelled_closeAll places _ _ next.stack))

end Markup

end ViewTemplate
