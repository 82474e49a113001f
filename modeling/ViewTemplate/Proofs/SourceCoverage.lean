import ViewTemplate.Proofs.SourcePieces

/-! # Coverage of the source

The reader of markup goes from the first byte of its source to the last and accounts for each of
them once, whatever the source is. Places never point into a character or backwards, and a text is
reported as it stands in the source unless its element is one of raw text.
-/

open List Option

namespace ViewTemplate.Markup

open Event Text

variable {cursor : Cursor} {e : Event} {previous : Option PieceKind} {ps : List Piece}
  {range : Range} {settings : Settings} {source : String} {start : Nat} {tags : List String}

theorem Consecutive.sourceOf_ne_nil (h : Consecutive start previous ps) (hne : ps ≠ []) :
    sourceOf ps ≠ [] := by
  cases ps with
  | nil => exact absurd rfl hne
  | cons p ps =>
    intro hs
    exact h.1.nonempty (append_eq_nil_iff.1 hs).1

/-- A run of the reader: from any cursor to the end the source is divided into pieces, and after
their events only the end tags of what is still open are left. -/
theorem pieces_eventsFrom (settings : Settings) (cursor : Cursor) :
    ∃ ps stack, Consecutive cursor.offset none ps ∧ sourceOf ps = cursor.rest ∧
      eventsFrom settings cursor =
        eventsOf ps ++ closeAll (cursor.offset + byteLength cursor.rest) stack := by
  fun_induction eventsFrom settings cursor with
  | case1 cursor he =>
    have hr : cursor.rest = [] := List.isEmpty_iff.1 he
    exact ⟨[], cursor.stack, trivial, by simp [hr], by simp [hr]⟩
  | case2 cursor _ events next hs hlt ih =>
    obtain ⟨ps, idle, hps, hrest, hoffset, hevents, hidle, -⟩ := reads_step settings cursor
    simp only [hs] at hrest hoffset hevents
    have hne : ps ≠ [] := by
      rintro rfl
      simp [hrest] at hlt
    obtain ⟨qs, stack, hqs, hsource, hlater⟩ := ih
    rw [hoffset] at hqs
    refine ⟨ps ++ qs, stack, hps.append hqs, ?_, ?_⟩
    · rw [sourceOf_append, hsource, hrest]
    · have hlength : next.offset + byteLength next.rest =
          cursor.offset + byteLength cursor.rest := by
        rw [hrest, hoffset, byteLength_append, Nat.add_assoc]
      rw [hevents, hlater, hidle hne, hlength, eventsOf_append, append_nil,
        append_assoc]
  | case3 cursor hnonempty events next hs hlt stop =>
    obtain ⟨ps, idle, hps, hrest, hoffset, hevents, -, hclosing⟩ := reads_step settings cursor
    simp only [hs] at hrest hoffset hevents
    -- A step that does not shorten the text ahead has read no piece.
    have hnil : ps = [] := by
      apply Classical.byContradiction
      intro hne
      have hpos := length_pos_iff.2 (hps.sourceOf_ne_nil hne)
      rw [hrest, length_append] at hlt
      omega
    subst hnil
    have hsame : next.rest = cursor.rest := by simpa using hrest.symm
    have hstay : next.offset = cursor.offset := by simpa using hoffset
    have hstop : stop = cursor.offset + byteLength cursor.rest := by
      simp only [stop, hsame, hstay]
    have hne : cursor.rest ≠ [] := by simpa using hnonempty
    have hp := Piece.placed_text hclosing hne (String.ofList next.rest)
    refine ⟨[_], next.stack, ⟨hp, by simp, trivial⟩, by simp, ?_⟩
    simp only [hevents, eventsOf_nil, eventsOf_cons, nil_append, append_nil,
      append_assoc, singleton_append, hstop, hstay]

/-- A piece of a run of pieces, with what stands before and after it. -/
theorem Consecutive.place (h : Consecutive start previous ps) {p : Piece} (hp : p ∈ ps) :
    ∃ before after, sourceOf ps = before ++ p.text ++ after ∧
      p.Placed (start + byteLength before) := by
  induction ps generalizing start previous with
  | nil => cases hp
  | cons q ps ih =>
    rcases mem_cons.1 hp with rfl | hp
    · exact ⟨[], sourceOf ps, by simp, h.1⟩
    · obtain ⟨before, after, hs, hplaced⟩ := ih h.2.2 hp
      refine ⟨q.text ++ before, after, by simp [hs], ?_⟩
      simpa [Nat.add_assoc] using hplaced

theorem Piece.Placed.stop_bounds {p : Piece} (h : p.Placed start) (he : e ∈ p.events) :
    start ≤ e.range.stop ∧ e.range.stop ≤ start + byteLength p.text := by
  rcases h.ends e he with hr | hr | hr
  · simp [hr]
  · simp [hr, Piece.range]
  · simp [hr]

theorem Consecutive.stop_bounds (h : Consecutive start previous ps) (he : e ∈ eventsOf ps) :
    start ≤ e.range.stop ∧ e.range.stop ≤ start + byteLength (sourceOf ps) := by
  obtain ⟨p, hp, he⟩ := mem_flatMap.1 he
  obtain ⟨before, after, hs, hplaced⟩ := h.place hp
  have hb := hplaced.stop_bounds he
  rw [hs]
  simp only [byteLength_append]
  omega

/-- The ends of the events never go back. -/
theorem Consecutive.ordered (h : Consecutive start previous ps) :
    (eventsOf ps).Pairwise fun e f => e.range.stop ≤ f.range.stop := by
  induction ps generalizing start previous with
  | nil => exact List.Pairwise.nil
  | cons p ps ih =>
    rw [eventsOf_cons, pairwise_append]
    refine ⟨h.1.ordered, ih h.2.2, ?_⟩
    intro e he f hf
    exact Nat.le_trans (h.1.stop_bounds he).2 (h.2.2.stop_bounds hf).1

/-- Of two events that bring nodes the later one starts after the earlier one. -/
theorem Consecutive.starts_ordered (h : Consecutive start previous ps) :
    ((eventsOf ps).filter Event.bringsNode).Pairwise fun e f => e.range.start < f.range.start := by
  have hstart {p : Piece} {start : Nat} (hp : p.Placed start) {e : Event}
      (he : e ∈ p.events.filter Event.bringsNode) : e.range.start = start := by
    obtain ⟨he, hb⟩ := mem_filter.1 he
    rcases hp.spans e he hb with hr | rfl
    · rw [hr, Piece.range]
    · rfl
  induction ps generalizing start previous with
  | nil => exact List.Pairwise.nil
  | cons p ps ih =>
    rw [eventsOf_cons, filter_append, pairwise_append]
    refine ⟨?_, ih h.2.2, ?_⟩
    · have hsingle := h.1.single
      cases hevents : p.events.filter Event.bringsNode with
      | nil => exact List.Pairwise.nil
      | cons e es =>
        rw [hevents, length_cons] at hsingle
        rw [eq_nil_of_length_eq_zero (by omega : es.length = 0)]
        exact pairwise_singleton _ e
    · intro e he f hf
      obtain ⟨hf, hb⟩ := mem_filter.1 hf
      obtain ⟨q, hq, hf⟩ := mem_flatMap.1 hf
      obtain ⟨before, after, -, hplaced⟩ := h.2.2.place hq
      have hpos : 0 < byteLength p.text := byteLength_pos h.1.nonempty
      rw [hstart h.1 he, hstart hplaced (mem_filter.2 ⟨hf, hb⟩)]
      omega

/-- A place that carries the ends of a piece can be cut out of the source. -/
theorem slice_of_piece {before text after : List Char}
    (h : range = ⟨byteLength before, byteLength before⟩ ∨
      range = ⟨byteLength before, byteLength before + byteLength text⟩ ∨
      range = ⟨byteLength before + byteLength text,
        byteLength before + byteLength text⟩) :
    (range.slice (String.ofList (before ++ text ++ after))).isSome = true := by
  rcases h with rfl | rfl | rfl
  · have hs := Range.slice_ofList before [] (text ++ after)
    simp only [byteLength_nil, Nat.add_zero, append_nil, ← append_assoc] at hs
    rw [hs, isSome_some]
  · rw [Range.slice_ofList, isSome_some]
  · have hs := Range.slice_ofList (before ++ text) [] after
    simp only [byteLength_append, byteLength_nil, Nat.add_zero, append_nil] at hs
    rw [hs, isSome_some]

/-! ## Texts -/

/-- Texts outside of raw text elements stand in the source as they are reported; `tags` are the tags
that are open before the events. -/
def Exact (source : String) : List String → List Event → Prop
  | _, [] => True
  | tags, e :: es =>
    (∀ content range, e = .text content range → tags.head?.any Tag.isRawText = false →
      range.slice source = some content) ∧
      ∀ later, read? tags e = some later → Exact source later es

theorem Exact.append {mid : List String} {es fs : List Event} (he : Exact source tags es)
    (hr : readAll? tags es = some mid) (hf : Exact source mid fs) :
    Exact source tags (es ++ fs) := by
  induction es generalizing tags with
  | nil =>
    cases hr
    exact hf
  | cons e es ih =>
    refine ⟨he.1, ?_⟩
    intro later hl
    rw [readAll?_cons, hl, bind_some] at hr
    exact ih (he.2 later hl) hr

theorem exact_of_no_text {es : List Event}
    (h : ∀ e ∈ es, ∀ content range, e ≠ .text content range) : Exact source tags es := by
  induction es generalizing tags with
  | nil => trivial
  | cons e es ih =>
    refine ⟨?_, ?_⟩
    · intro content range he
      exact absurd he (h e mem_cons_self content range)
    · intro later _
      exact ih fun f hf => h f (mem_cons_of_mem e hf)

/-- The text of an exact event among others. -/
theorem Exact.slice {mid : List String} {before after : List Event} {content : String}
    (h : Exact source tags (before ++ .text content range :: after))
    (hr : readAll? tags before = some mid) (hraw : mid.head?.any Tag.isRawText = false) :
    range.slice source = some content := by
  induction before generalizing tags with
  | nil =>
    cases hr
    exact h.1 content range rfl hraw
  | cons e before ih =>
    rw [readAll?_cons] at hr
    obtain ⟨later, hl, hr⟩ := bind_eq_some_iff.1 hr
    exact ih (h.2 later hl) hr

/-- The reader stands at its offset in the source. -/
def At (source : String) (cursor : Cursor) : Prop :=
  ∃ passed, source = String.ofList (passed ++ cursor.rest) ∧ byteLength passed = cursor.offset

theorem At.step (h : At source cursor) (settings : Settings) :
    At source (step settings cursor).2 := by
  obtain ⟨passed, rfl, hp⟩ := h
  obtain ⟨ps, -, -, hrest, hoffset, -⟩ := reads_step settings cursor
  refine ⟨passed ++ sourceOf ps, ?_, ?_⟩
  · rw [hrest, append_assoc]
  · rw [hoffset, byteLength_append, hp]

/-- Where the reader stands, a text ahead can be cut out of the source. -/
theorem At.slice (h : At source cursor) {text rest : List Char} (hr : cursor.rest = text ++ rest) :
    Range.slice ⟨cursor.offset, cursor.offset + byteLength text⟩ source =
      some (String.ofList text) := by
  obtain ⟨passed, rfl, hp⟩ := h
  rw [hr, ← hp, ← append_assoc]
  exact Range.slice_ofList passed text rest

theorem endEvents_no_text {tag : String} {stack : List String}
    (h : e ∈ (endEvents tag range stack).1) (content : String) (r : Range) :
    e ≠ .text content r := by
  rcases mem_endEvents h with ⟨t, rfl⟩ | ⟨-, unary, rfl⟩ <;> exact Event.noConfusion

theorem constructEvents_no_text {found : Found} (h : e ∈ (constructEvents settings found cursor).1)
    (content : String) (r : Range) : e ≠ .text content r := by
  rw [constructEvents] at h
  split at h
  · split at h
    · split at h
      · rw [mem_singleton.1 h]
        simp
      · cases h
    · cases h
  · cases h
  · cases h
  · exact endEvents_no_text h content r
  · rw [fst_startEvents] at h
    rcases mem_append.1 h with h | h
    · obtain ⟨t, rfl⟩ := impliedEnds_finish h
      simp
    · rw [mem_singleton.1 h]
      simp

theorem mem_closeAll {offset : Nat} {stack : List String} (h : e ∈ closeAll offset stack) :
    ∃ t, e = .finish t ⟨offset, offset⟩ := by
  obtain ⟨t, -, rfl⟩ := List.mem_map.1 h
  exact ⟨t, rfl⟩

theorem exact_step (h : At source cursor) (settings : Settings) :
    Exact source cursor.stack (step settings cursor).1 := by
  rw [step]
  split
  · rename_i tag ht
    obtain ⟨hhead, hraw⟩ := filter_eq_some_iff.1 ht
    simp only [rawTextEvents]
    split
    · refine ⟨?_, fun _ _ => exact_of_no_text fun e he => endEvents_no_text he⟩
      intro content range _ hn
      rw [show cursor.stack.head? = some tag from hhead, any_some, hraw] at hn
      cases hn
    · exact exact_of_no_text fun e he => endEvents_no_text he
  · split
    · exact exact_of_no_text fun e he => constructEvents_no_text he
    · simp only [textEvents]
      split
      · trivial
      · refine ⟨?_, fun _ _ => trivial⟩
        intro content range he _
        cases he
        exact h.slice (textRun_append cursor.rest).symm

/-- From any cursor to the end texts are reported as they stand in the source. -/
theorem exact_eventsFrom (settings : Settings) (cursor : Cursor) (h : At source cursor) :
    Exact source cursor.stack (eventsFrom settings cursor) := by
  have hread := readAll?_step settings cursor
  have hexact := exact_step h settings
  have hat := h.step settings
  fun_induction eventsFrom settings cursor with
  | case1 cursor _ =>
    apply exact_of_no_text
    intro e he
    obtain ⟨t, rfl⟩ := mem_closeAll he
    simp
  | case2 cursor _ events next hs _ ih =>
    rw [hs] at hread hexact hat
    exact hexact.append hread
      (ih hat (readAll?_step settings next) (exact_step hat settings) (hat.step settings))
  | case3 cursor _ events next hs _ stop =>
    rw [hs] at hread hexact hat
    refine hexact.append hread ⟨?_, ?_⟩
    · intro content range he _
      cases he
      exact At.slice hat (append_nil next.rest).symm
    · intro later _
      apply exact_of_no_text
      intro e he
      obtain ⟨t, rfl⟩ := mem_closeAll he
      simp

/-! ## The whole source -/

theorem pieces_events (settings : Settings) (source : String) :
    ∃ ps stack, Consecutive 0 none ps ∧ sourceOf ps = source.toList ∧
      events settings source = eventsOf ps ++ closeAll (byteLength source.toList) stack := by
  obtain ⟨ps, stack, hps, hsource, hevents⟩ :=
    pieces_eventsFrom settings ⟨0, source.toList, []⟩
  simp only [Nat.zero_add] at hevents
  exact ⟨ps, stack, hps, hsource, hevents⟩

/-- The place of an event lies in the source, and its ends lie between characters. -/
theorem range_bounds (he : e ∈ events settings source) :
    e.range.start ≤ e.range.stop ∧ e.range.stop ≤ byteLength source.toList ∧
      (e.range.slice source).isSome = true := by
  obtain ⟨ps, stack, hps, hsource, hevents⟩ := pieces_events settings source
  rw [hevents] at he
  rcases mem_append.1 he with he | he
  · obtain ⟨p, hp, he⟩ := mem_flatMap.1 he
    obtain ⟨before, after, hs, hplaced⟩ := hps.place hp
    rw [Nat.zero_add] at hplaced
    have hends := hplaced.ends e he
    refine ⟨?_, ?_, ?_⟩
    · rcases hends with hr | hr | hr
      · simp [hr]
      · simp [hr, Piece.range]
      · simp [hr]
    · have hstop := (hplaced.stop_bounds he).2
      rw [← hsource, hs]
      simp only [byteLength_append]
      omega
    · have hslice : (e.range.slice (String.ofList (before ++ p.text ++ after))).isSome = true :=
        slice_of_piece hends
      rwa [← hs, hsource, String.ofList_toList] at hslice
  · obtain ⟨t, rfl⟩ := mem_closeAll he
    refine ⟨Nat.le_refl _, Nat.le_refl _, ?_⟩
    have hslice := Range.slice_ofList source.toList [] []
    simp only [byteLength_nil, Nat.add_zero, append_nil, String.ofList_toList] at hslice
    rw [Event.range, hslice, isSome_some]

/-- The ends of the events never go back. -/
theorem stops_ordered (settings : Settings) (source : String) :
    (events settings source).Pairwise fun e f => e.range.stop ≤ f.range.stop := by
  obtain ⟨ps, stack, hps, hsource, hevents⟩ := pieces_events settings source
  rw [hevents, pairwise_append]
  refine ⟨hps.ordered, ?_, ?_⟩
  · apply pairwise_of_forall_mem_list
    intro e he f hf
    obtain ⟨t, rfl⟩ := mem_closeAll he
    obtain ⟨u, rfl⟩ := mem_closeAll hf
    exact Nat.le_refl _
  · intro e he f hf
    obtain ⟨t, rfl⟩ := mem_closeAll hf
    have hb := (hps.stop_bounds he).2
    rw [hsource, Nat.zero_add] at hb
    exact hb

/-- Of two events that bring nodes the later one starts after the earlier one. -/
theorem starts_ordered (settings : Settings) (source : String) :
    ((events settings source).filter Event.bringsNode).Pairwise fun e f =>
      e.range.start < f.range.start := by
  obtain ⟨ps, stack, hps, -, hevents⟩ := pieces_events settings source
  have hclose : (closeAll (byteLength source.toList) stack).filter Event.bringsNode = [] := by
    rw [filter_eq_nil_iff]
    intro e he
    obtain ⟨t, rfl⟩ := mem_closeAll he
    simp [Event.bringsNode]
  rw [hevents, filter_append, hclose, append_nil]
  exact hps.starts_ordered

/-- A text that is reported outside of raw text elements is the text of its place. -/
theorem slice_of_text {content : String} {before after : List Event}
    (he : events settings source = before ++ .text content range :: after)
    (hr : readAll? [] before = some tags) (hraw : tags.head?.any Tag.isRawText = false) :
    range.slice source = some content := by
  have hat : At source ⟨0, source.toList, []⟩ := ⟨[], by simp, rfl⟩
  have hexact : Exact source [] (events settings source) := exact_eventsFrom settings _ hat
  rw [he] at hexact
  exact hexact.slice hr hraw

/-- The place of an attribute starts with the name of the attribute. -/
theorem slice_of_attribute {a : Attribute} (he : e ∈ events settings source) (ha : a ∈ e.attributes)
    :
    ∃ range text, a.range = some range ∧ range.slice source = some text ∧
      a.name.toList <+: text.toList := by
  obtain ⟨ps, stack, hps, hsource, hevents⟩ := pieces_events settings source
  rw [hevents] at he
  rcases mem_append.1 he with he | he
  · obtain ⟨p, hp, he⟩ := mem_flatMap.1 he
    obtain ⟨before, after, hs, hplaced⟩ := hps.place hp
    rw [Nat.zero_add] at hplaced
    obtain ⟨x, part, y, htext, hrange⟩ := hplaced.names e he a ha
    refine ⟨_, String.ofList (a.name.toList ++ part), hrange, ?_, by simp⟩
    have hslice := Range.slice_ofList (before ++ x) (a.name.toList ++ part) (y ++ after)
    have hwhole : (before ++ x) ++ (a.name.toList ++ part) ++ (y ++ after) = source.toList := by
      rw [← hsource, hs, htext]
      simp
    rw [hwhole, String.ofList_toList, byteLength_append before x] at hslice
    exact hslice
  · obtain ⟨t, rfl⟩ := mem_closeAll he
    cases ha

/-- The reader ends at the end of every source, and its source is made of the pieces that it
reports or passes over; all places lie in the source and between characters, their ends never go
back, texts outside of raw text elements are those of the source, and attributes stand where
their ranges say. -/
theorem events_account_for_source (settings : Settings) (source : String) :
    (∃ ps stack, Consecutive 0 none ps ∧ sourceOf ps = source.toList ∧
      events settings source =
        eventsOf ps ++ closeAll (byteLength source.toList) stack) ∧
    (∀ e ∈ events settings source, e.range.start ≤ e.range.stop ∧
      e.range.stop ≤ byteLength source.toList ∧ (e.range.slice source).isSome = true) ∧
    ((events settings source).Pairwise fun e f => e.range.stop ≤ f.range.stop) ∧
    (∀ before content range after tags,
      events settings source = before ++ .text content range :: after →
      readAll? [] before = some tags → tags.head?.any Tag.isRawText = false →
      range.slice source = some content) ∧
    (∀ e ∈ events settings source, ∀ a ∈ e.attributes, ∃ range text,
      a.range = some range ∧ range.slice source = some text ∧ a.name.toList <+: text.toList) := by
  refine ⟨pieces_events settings source, ?_, stops_ordered settings source, ?_, ?_⟩
  · exact fun e he => range_bounds he
  · exact fun before content range after tags he hr hraw => slice_of_text he hr hraw
  · exact fun e he a ha => slice_of_attribute he ha

end ViewTemplate.Markup
