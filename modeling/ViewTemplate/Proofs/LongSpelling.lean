import ViewTemplate.Proofs.MarkupNames

/-! # Long spellings

Bindings, listeners and slots are spelled by a mark or by a word. A name has the same role in both
spellings. Only a slot that no reading takes is told apart: it has a role by its word alone.
-/

open List Option

namespace ViewTemplate.Spelling

/-- What a mark stands for. -/
def longMark? : Char → Option String
  | ':' => some "v-bind:"
  | '@' => some "v-on:"
  | '#' => some "v-slot:"
  | _ => none

/-- The long spelling of a name that starts with a mark, if anything follows the mark. -/
def long? (name : String) : Option String :=
  match name.toList with
  | mark :: first :: rest => (longMark? mark).map fun long => long ++ String.ofList (first :: rest)
  | _ => none

/-- A mark and its long spelling. -/
inductive IsMark : String → String → Prop
  | binding : IsMark ":" "v-bind:"
  | listener : IsMark "@" "v-on:"
  | slot : IsMark "#" "v-slot:"

/-- The two spellings have the same end, which is not empty. -/
theorem long?_eq_some_iff {name long : String} :
    long? name = some long ↔
      ∃ mark word x, IsMark mark word ∧ x ≠ "" ∧ name = mark ++ x ∧ long = word ++ x := by
  constructor
  · intro h
    rw [long?] at h
    split at h
    · rename_i mark first rest hname
      have hx : String.ofList (first :: rest) ≠ "" := by
        intro hempty
        have hnil := congrArg String.toList hempty
        simp at hnil
      have hsplit : name = String.singleton mark ++ String.ofList (first :: rest) := by
        apply String.toList_inj.mp
        simp [hname]
      obtain ⟨word, hword, rfl⟩ := map_eq_some_iff.mp h
      unfold longMark? at hword
      split at hword
      · cases hword
        exact ⟨":", _, _, .binding, hx, hsplit, rfl⟩
      · cases hword
        exact ⟨"@", _, _, .listener, hx, hsplit, rfl⟩
      · cases hword
        exact ⟨"#", _, _, .slot, hx, hsplit, rfl⟩
      · cases hword
    · cases h
  · rintro ⟨mark, word, x, hmark, hx, rfl, rfl⟩
    cases hlist : x.toList with
    | nil => exact absurd (String.toList_inj.mp hlist) hx
    | cons first rest =>
      have hofList : String.ofList (first :: rest) = x := by
        rw [← hlist, String.ofList_toList]
      cases hmark with
      | binding => simp [long?, hlist, longMark?, hofList]
      | listener => simp [long?, hlist, longMark?, hofList]
      | slot => simp [long?, hlist, longMark?, hofList]

variable {name other long mark word x y : String}

namespace IsMark

/-- The first letter after the dash tells the words apart. -/
theorem of_append_eq (h : IsMark mark word) (h' : IsMark other long) (heq : word ++ x = long ++ y) :
    mark = other ∧ x = y := by
  have hlist := congrArg String.toList heq
  rw [String.toList_append, String.toList_append] at hlist
  cases h <;> cases h' <;> simp at hlist <;> exact ⟨rfl, String.toList_inj.mp hlist⟩

/-- A mark is no word. -/
theorem append_ne (h : IsMark mark word) (h' : IsMark other long) : mark ++ x ≠ long ++ y := by
  intro heq
  have hlist := congrArg String.toList heq
  rw [String.toList_append, String.toList_append] at hlist
  cases h <;> cases h' <;> simp at hlist

end IsMark

theorem long?_append (h : IsMark mark word) (hx : x ≠ "") : long? (mark ++ x) = some (word ++ x) :=
  long?_eq_some_iff.mpr ⟨mark, word, x, h, hx, rfl, rfl⟩

/-- A long spelling is the spelling of one name only. -/
theorem eq_of_long? (h : long? name = some long) (h' : long? other = some long) : name = other := by
  obtain ⟨mark, word, x, hmark, -, rfl, rfl⟩ := long?_eq_some_iff.mp h
  obtain ⟨mark', word', y, hmark', -, rfl, heq⟩ := long?_eq_some_iff.mp h'
  obtain ⟨rfl, rfl⟩ := hmark.of_append_eq hmark' heq
  rfl

/-- A long spelling has no longer one. -/
theorem long?_of_long? (h : long? name = some long) : long? long = none := by
  rw [eq_none_iff_forall_ne_some]
  intro longer hlonger
  obtain ⟨mark, word, x, hmark, -, rfl, rfl⟩ := long?_eq_some_iff.mp h
  obtain ⟨mark', word', y, hmark', -, heq, -⟩ := long?_eq_some_iff.mp hlonger
  exact hmark'.append_ne hmark heq.symm

/-- Whether a name stands in no other spelling, and is no slot. -/
def isFixed (name : String) : Bool :=
  (afterOneOf? [":", "@", "#", "v-bind:", "v-on:", "v-slot"] name).isNone

theorem not_isPrefix_of_isFixed (h : isFixed name = true) (start : String)
    (hstart : start ∈ [":", "@", "#", "v-bind:", "v-on:", "v-slot"]) :
    ¬ start.toList <+: name.toList := by
  rintro ⟨rest, hrest⟩
  rw [isFixed, afterOneOf?, isNone_map, isNone_iff_eq_none,
    findSome?_eq_none_iff] at h
  have hnone := h start hstart
  rw [← hrest, Text.after?_append] at hnone
  cases hnone

theorem long?_of_isFixed (h : isFixed name = true) : long? name = none := by
  rw [eq_none_iff_forall_ne_some]
  intro long hlong
  obtain ⟨mark, word, x, hmark, -, rfl, rfl⟩ := long?_eq_some_iff.mp hlong
  cases hmark with
  | binding => exact not_isPrefix_of_isFixed h ":" (by simp) (by simp)
  | listener => exact not_isPrefix_of_isFixed h "@" (by simp) (by simp)
  | slot => exact not_isPrefix_of_isFixed h "#" (by simp) (by simp)

theorem long?_ne_of_isFixed (h : isFixed name = true) : long? other ≠ some name := by
  intro hlong
  obtain ⟨mark, word, x, hmark, -, rfl, rfl⟩ := long?_eq_some_iff.mp hlong
  cases hmark with
  | binding => exact not_isPrefix_of_isFixed h "v-bind:" (by simp) (by simp)
  | listener => exact not_isPrefix_of_isFixed h "v-on:" (by simp) (by simp)
  | slot => exact not_isPrefix_of_isFixed h "v-slot" (by simp) (by simp)

/-! ## Modifiers -/

theorem cutLast?_append (c : Char) {p : List Char} (hp : c ∉ p) (s : List Char) :
    Text.cutLast? c (p ++ s) = (Text.cutLast? c s).map fun e => (p ++ e.1, e.2) := by
  induction p with
  | nil => simp
  | cons d p ih =>
    rw [mem_cons, not_or] at hp
    rw [cons_append, Text.cutLast?, ih hp.2]
    cases Text.cutLast? c s with
    | none => simp [Ne.symm hp.1]
    | some e => rfl

theorem splitOn_append (c : Char) {p : List Char} (hp : c ∉ p) {s first : List Char}
    {pieces : List (List Char)} (hs : Text.splitOn c s = first :: pieces) :
    Text.splitOn c (p ++ s) = (p ++ first) :: pieces := by
  induction p with
  | nil => exact hs
  | cons d p ih =>
    rw [mem_cons, not_or] at hp
    rw [cons_append, Text.splitOn, ih hp.2]
    simp [Ne.symm hp.1]

theorem exists_splitOn (c : Char) (s : List Char) :
    ∃ first pieces, Text.splitOn c s = first :: pieces := by
  cases s with
  | nil => exact ⟨[], [], rfl⟩
  | cons d s =>
    rw [Text.splitOn]
    split
    · exact ⟨[d], [], rfl⟩
    · split
      · exact ⟨_, _, rfl⟩
      · exact ⟨_, _, rfl⟩

/-- What is cut off the end of a text does not depend on how the text starts. -/
theorem cut_append {p : List Char} (hdot : '.' ∉ p) (hbracket : ']' ∉ p) (s : List Char) :
    (cutBrackets (p ++ s)).1 ++ (cutModifiers (cutBrackets (p ++ s)).2).1 =
        p ++ ((cutBrackets s).1 ++ (cutModifiers (cutBrackets s).2).1) ∧
      (cutModifiers (cutBrackets (p ++ s)).2).2 = (cutModifiers (cutBrackets s).2).2 := by
  have happend := cutLast?_append ']' hbracket s
  cases hcut : Text.cutLast? ']' s with
  | some e =>
    rw [hcut] at happend
    simp [cutBrackets, happend, hcut]
  | none =>
    rw [hcut] at happend
    obtain ⟨first, pieces, hpieces⟩ := exists_splitOn '.' s
    simp [cutBrackets, happend, hcut, cutModifiers, splitOn_append '.' hdot hpieces, hpieces]

/-- The modifiers of a name stand at its end. -/
theorem splitModifiers_append {p : String} (hdot : '.' ∉ p.toList) (hbracket : ']' ∉ p.toList)
    (name : String) :
    splitModifiers (p ++ name) = (p ++ (splitModifiers name).1, (splitModifiers name).2) := by
  obtain ⟨hname, hmodifiers⟩ := cut_append hdot hbracket name.toList
  simp only [splitModifiers, String.toList_append, hname, hmodifiers]
  split
  · rfl
  · rw [String.ofList_append, String.ofList_toList]

/-! ## Roles -/

theorem afterOneOf?_cons_of_not_start {mark : String} (marks : List String) {name : String}
    (h : ¬ mark.toList <+: name.toList) : afterOneOf? (mark :: marks) name = afterOneOf? marks name := by
  have hafter : Text.after? mark.toList name.toList = none := by
    rw [eq_none_iff_forall_ne_some]
    intro rest hrest
    exact h ⟨rest, (Text.after?_eq_some_iff.mp hrest).symm⟩
  rw [afterOneOf?, afterOneOf?, findSome?_cons, hafter]

theorem afterOneOf?_append (mark : String) (marks : List String) (x : String) :
    afterOneOf? (mark :: marks) (mark ++ x) = some x := by
  simp [afterOneOf?]

/-- What stands in front of a binding or a listener is kept apart from its modifiers. -/
theorem splitModifiers_front {p : String} (hp : p = ":" ∨ p = "v-bind:" ∨ p = "@" ∨ p = "v-on:")
    (x : String) : isDirective (p ++ x) = true ∧
      splitModifiers (p ++ x) = (p ++ (splitModifiers x).1, (splitModifiers x).2) := by
  rcases hp with rfl | rfl | rfl | rfl
  · exact ⟨isDirective_short x, splitModifiers_append (by decide) (by decide) x⟩
  · exact ⟨isDirective_long x, splitModifiers_append (by decide) (by decide) x⟩
  · exact ⟨isDirective_of_isPrefix "@" (by simp) (by simp),
      splitModifiers_append (by decide) (by decide) x⟩
  · exact ⟨isDirective_of_isPrefix "v-" (by simp) (by simp),
      splitModifiers_append (by decide) (by decide) x⟩

/-- What stands in front of a binding makes no difference to its role. -/
theorem role_binding {p : String} (hp : p = ":" ∨ p = "v-bind:") (x : String) :
    role (p ++ x) = .binding (argument (splitModifiers x).1).1 (argument (splitModifiers x).1).2
      (splitModifiers x).2 := by
  obtain ⟨hdirective, hsplit⟩ := splitModifiers_front (hp.imp_right .inl) x
  have hafter (z : String) : afterBinding? (p ++ z) = some z := by
    rcases hp with rfl | rfl
    · exact afterOneOf?_append _ _ z
    · rw [afterBinding?, afterOneOf?_cons_of_not_start _ (by simp)]
      exact afterOneOf?_append _ _ z
  simp only [role, hdirective, if_true, hsplit, hafter]

/-- What stands in front of a listener makes no difference to its role. -/
theorem role_listener {p : String} (hp : p = "@" ∨ p = "v-on:") (x : String) :
    role (p ++ x) = .listener (argument (splitModifiers x).1).1 (argument (splitModifiers x).1).2
      (splitModifiers x).2 := by
  obtain ⟨hdirective, hsplit⟩ := splitModifiers_front (.inr (.inr hp)) x
  have hbinding (z : String) : afterBinding? (p ++ z) = none := by
    rcases hp with rfl | rfl
    · rw [afterBinding?, afterOneOf?_cons_of_not_start _ (by simp),
        afterOneOf?_cons_of_not_start _ (by simp)]
      rfl
    · rw [afterBinding?, afterOneOf?_cons_of_not_start _ (by simp),
        afterOneOf?_cons_of_not_start _ (by simp)]
      rfl
  have hafter (z : String) : afterListener? (p ++ z) = some z := by
    rcases hp with rfl | rfl
    · exact afterOneOf?_append _ _ z
    · rw [afterListener?, afterOneOf?_cons_of_not_start _ (by simp)]
      exact afterOneOf?_append _ _ z
  simp only [role, hdirective, if_true, hsplit, hbinding, hafter]

/-- What a slot directive says of its slot, in both spellings. -/
theorem afterSlot?_append {p : String} (hp : p = "#" ∨ p = "v-slot:") (x : String) :
    afterSlot? (p ++ x) = some x := by
  have hname : p ++ x ≠ "v-slot" := by
    intro heq
    have hlist := congrArg String.toList heq
    rw [String.toList_append] at hlist
    rcases hp with rfl | rfl <;> simp at hlist
  rw [afterSlot?, if_neg hname]
  rcases hp with rfl | rfl
  · rw [afterOneOf?_cons_of_not_start _ (by simp)]
    exact afterOneOf?_append _ _ x
  · exact afterOneOf?_append _ _ x

/-- No binding and no listener is a slot. -/
theorem isSlot_append {p : String} (hp : p = ":" ∨ p = "v-bind:" ∨ p = "@" ∨ p = "v-on:")
    (x : String) : isSlot (p ++ x) = false := by
  have hname : p ++ x ≠ "v-slot" := by
    intro heq
    have hlist := congrArg String.toList heq
    rw [String.toList_append] at hlist
    rcases hp with rfl | rfl | rfl | rfl <;> simp at hlist
  rw [isSlot, afterSlot?, if_neg hname]
  rcases hp with rfl | rfl | rfl | rfl <;>
    rw [afterOneOf?_cons_of_not_start _ (by simp), afterOneOf?_cons_of_not_start _ (by simp)] <;>
    rfl

theorem isSlot_of_isFixed (h : isFixed name = true) : isSlot name = false := by
  have hname : name ≠ "v-slot" := by
    rintro rfl
    exact not_isPrefix_of_isFixed h "v-slot" (by simp) prefix_rfl
  have hlong : ¬ "v-slot:".toList <+: name.toList := fun hprefix =>
    not_isPrefix_of_isFixed h "v-slot" (by simp) (IsPrefix.trans (by decide) hprefix)
  have hshort := not_isPrefix_of_isFixed h "#" (by simp)
  rw [isSlot, afterSlot?, if_neg hname, afterOneOf?_cons_of_not_start _ hlong,
    afterOneOf?_cons_of_not_start _ hshort]
  rfl

theorem isSlot_of_long? (h : long? name = some long) : isSlot long = isSlot name := by
  obtain ⟨mark, word, x, hmark, -, rfl, rfl⟩ := long?_eq_some_iff.mp h
  cases hmark with
  | binding => rw [isSlot_append (by simp), isSlot_append (by simp)]
  | listener => rw [isSlot_append (by simp), isSlot_append (by simp)]
  | slot => rw [isSlot, isSlot, afterSlot?_append (.inl rfl), afterSlot?_append (.inr rfl)]

/-- A slot has the same name in both spellings. -/
theorem afterSlot?_of_long? (h : long? name = some long) (hslot : isSlot name = true) :
    ∃ x, x ≠ "" ∧ afterSlot? name = some x ∧ afterSlot? long = some x := by
  obtain ⟨mark, word, x, hmark, hx, rfl, rfl⟩ := long?_eq_some_iff.mp h
  cases hmark with
  | binding =>
    rw [isSlot_append (by simp)] at hslot
    cases hslot
  | listener =>
    rw [isSlot_append (by simp)] at hslot
    cases hslot
  | slot => exact ⟨x, hx, afterSlot?_append (.inl rfl) x, afterSlot?_append (.inr rfl) x⟩

/-- A binding or a listener has the same role in both spellings. -/
theorem role_of_long? (h : long? name = some long) (hslot : isSlot name = false) :
    ∃ x dynamic modifiers,
      role name = .binding x dynamic modifiers ∧ role long = .binding x dynamic modifiers ∨
        role name = .listener x dynamic modifiers ∧ role long = .listener x dynamic modifiers := by
  obtain ⟨mark, word, x, hmark, -, rfl, rfl⟩ := long?_eq_some_iff.mp h
  cases hmark with
  | binding => exact ⟨_, _, _, .inl ⟨role_binding (.inl rfl) x, role_binding (.inr rfl) x⟩⟩
  | listener => exact ⟨_, _, _, .inr ⟨role_listener (.inl rfl) x, role_listener (.inr rfl) x⟩⟩
  | slot =>
    rw [isSlot, afterSlot?_append (.inl rfl)] at hslot
    cases hslot

end ViewTemplate.Spelling
