import Mathlib.Data.List.Nodup
import ViewTemplate.Tree

/-! # Elements that close, one after another

Which branches join a choice can be told from the order in which elements close: those that follow the
element of the choice directly, among the elements that close in the same element. Elements that are
left out do not count. Outside all elements every branch joins the choice of the first one.
-/

open List Option

namespace ViewTemplate

/-- An element that closes: the element around it, its number, and the element as it gets its
place. -/
structure Closing where
  parent : Option NodeId
  id : NodeId
  el : Element

namespace Closing

variable {c next : Closing} {earlier later : List Closing} {parent : NodeId}

/-- Its entry in a choice. -/
def branch (c : Closing) : Branch := ⟨c.el.elseIf, c.id⟩

/-- Whether it counts among the elements of a parent. -/
def isIn (parent : NodeId) (c : Closing) : Bool := c.parent == some parent && !c.el.forbidden

/-- Whether it becomes a child of a parent. -/
def isChildOf (parent : NodeId) (c : Closing) : Bool := c.isIn parent && !c.el.isBranch

def isOutside (c : Closing) : Bool := c.parent == none

/-- The branches that join the choice of an element, of all elements that close after it. -/
def joining (earlier : List Closing) (c : Closing) (later : List Closing) : List Closing :=
  match c.parent with
  | some parent =>
    if c.isChildOf parent then (later.filter (isIn parent)).takeWhile (·.el.isBranch) else []
  | none =>
    if earlier.any isOutside then [] else later.filter fun d => d.isOutside && d.el.isBranch

/-- Whether the next element that closes joins the choice, too. -/
def joins (earlier : List Closing) (c : Closing) (later : List Closing) (next : Closing) : Bool :=
  match c.parent with
  | some parent =>
    c.isChildOf parent && (later.filter (isIn parent)).all (·.el.isBranch) && next.isIn parent &&
      next.el.isBranch
  | none => !earlier.any isOutside && next.isOutside && next.el.isBranch

theorem takeWhile_append_singleton {α : Type} (p : α → Bool) (l : List α) (a : α) :
    (l ++ [a]).takeWhile p = l.takeWhile p ++ if l.all p && p a then [a] else [] := by
  induction l with
  | nil => cases hp : p a <;> simp [hp]
  | cons x l ih => cases hp : p x <;> simp [hp, ih]

theorem joining_append_singleton (earlier : List Closing) (c : Closing) (later : List Closing)
    (next : Closing) :
    joining earlier c (later ++ [next]) =
      joining earlier c later ++ if joins earlier c later next then [next] else [] := by
  cases hparent : c.parent with
  | none =>
    simp only [joining, joins, hparent]
    cases earlier.any isOutside with
    | true => rfl
    | false => cases hnext : next.isOutside && next.el.isBranch <;> simp_all
  | some parent =>
    simp only [joining, joins, hparent]
    cases c.isChildOf parent with
    | false => rfl
    | true =>
      cases hnext : next.isIn parent with
      | false => simp [hnext]
      | true => simp [hnext, takeWhile_append_singleton]

theorem joining_nil (earlier : List Closing) (c : Closing) : joining earlier c [] = [] := by
  rw [joining]
  split <;> split <;> rfl

theorem isChildOf_iff :
    c.isChildOf parent = true ↔ c.isIn parent = true ∧ c.el.isBranch = false := by
  simp [isChildOf]

theorem parent_of_isIn (h : c.isIn parent = true) : c.parent = some parent := by
  simp only [isIn, Bool.and_eq_true, beq_iff_eq] at h
  exact h.1

/-- Only branches join a choice. -/
theorem isBranch_of_joins (h : joins earlier c later next = true) : next.el.isBranch = true := by
  rw [joins] at h
  split at h
  · exact (Bool.and_eq_true_iff.mp h).2
  · exact (Bool.and_eq_true_iff.mp h).2

/-- What is left out joins no choice. -/
theorem isIn_of_joins (h : joins earlier c later next = true)
    (hparent : next.parent = some parent) : next.isIn parent = true := by
  rw [joins] at h
  split at h
  · rename_i p _
    simp only [Bool.and_eq_true] at h
    have hp := parent_of_isIn h.1.2
    rw [hparent] at hp
    cases hp
    exact h.1.2
  · simp [isOutside, hparent] at h

/-- A branch joins the choice of a child that no child follows. -/
theorem joins_iff_of_isIn (hnext : next.isIn parent = true) (hbranch : next.el.isBranch = true) :
    joins earlier c later next = true ↔
      c.isChildOf parent = true ∧ later.filter (isChildOf parent) = [] := by
  have hlater : (later.filter (isIn parent)).all (·.el.isBranch) = true ↔
      later.filter (isChildOf parent) = [] := by
    simp only [List.all_eq_true, mem_filter, filter_eq_nil_iff, isChildOf_iff]
    grind
  cases hc : c.parent with
  | none =>
    have hchild : c.isChildOf parent = false := by
      simp [isChildOf, isIn, hc]
    have hinside : next.isOutside = false := by
      simp [isOutside, parent_of_isIn hnext]
    simp [joins, hc, hchild, hinside]
  | some p =>
    by_cases hp : p = parent
    · subst hp
      simp only [joins, hc, hnext, hbranch, Bool.and_true, Bool.and_eq_true, hlater]
    · have hchild : c.isChildOf parent = false := by
        simp [isChildOf, isIn, hc, hp]
      have hnot : next.isIn p = false := by
        have hparent := parent_of_isIn hnext
        simp [isIn, hparent, Ne.symm hp]
      simp [joins, hc, hchild, hnot]

/-- That child is the last one. -/
theorem getLast?_isChildOf_iff {closed : List Closing} (hclosed : closed = earlier ++ c :: later)
    (hdistinct : (closed.map Closing.id).Nodup) :
    ((closed.filter (isChildOf parent)).map Closing.id).getLast? = some c.id ↔
      c.isChildOf parent = true ∧ later.filter (isChildOf parent) = [] := by
  subst hclosed
  have hafter : ∀ d ∈ later, d.id ≠ c.id := by
    rw [map_append, map_cons] at hdistinct
    have hnotin := (nodup_cons.mp (Nodup.of_append_right hdistinct)).1
    intro d hd heq
    exact hnotin (heq ▸ List.mem_map_of_mem hd)
  constructor
  · intro hlast
    rw [getLast?_map] at hlast
    obtain ⟨d, hd, hid⟩ := map_eq_some_iff.mp hlast
    obtain ⟨hmem, hchild⟩ := mem_filter.mp (mem_of_getLast? hd)
    have hdc : d = c := inj_on_of_nodup_map hdistinct hmem (by simp) hid
    subst hdc
    refine ⟨hchild, ?_⟩
    -- A child behind it would be the last one.
    by_contra hne
    rw [filter_append, filter_cons_of_pos hchild, getLast?_append,
      getLast?_cons_of_ne_nil hne, getLast?_eq_some_getLast hne, some_or] at hd
    have hlater := getLast_mem hne
    rw [Option.some.inj hd] at hlater
    exact hafter d (mem_filter.mp hlater).1 rfl
  · rintro ⟨hchild, hnone⟩
    rw [filter_append, filter_cons_of_pos hchild, hnone, map_append,
      getLast?_append]
    rfl

/-- Outside all elements a branch joins the choice of the first one. -/
theorem joins_iff_of_isOutside (hnext : next.isOutside = true) (hbranch : next.el.isBranch = true) :
    joins earlier c later next = true ↔
      c.isOutside = true ∧ earlier.any isOutside = false := by
  have hparent : next.parent = none := by simpa [isOutside] using hnext
  cases hc : c.parent with
  | none =>
    have houtside : c.isOutside = true := by simp [isOutside, hc]
    simp [joins, hc, hnext, hbranch, houtside]
  | some p =>
    have houtside : c.isOutside = false := by simp [isOutside, hc]
    have hnot : next.isIn p = false := by simp [isIn, hparent]
    simp [joins, hc, hnot, houtside]

theorem find?_isOutside_iff {closed : List Closing} (hclosed : closed = earlier ++ c :: later)
    (hdistinct : (closed.map Closing.id).Nodup) :
    (closed.find? isOutside).map Closing.id = some c.id ↔
      c.isOutside = true ∧ earlier.any isOutside = false := by
  subst hclosed
  have hbefore : ∀ d ∈ earlier, d.id ≠ c.id := by
    rw [map_append] at hdistinct
    intro d hd
    exact (nodup_append.mp hdistinct).2.2 d.id (List.mem_map_of_mem hd) c.id
      (List.mem_map_of_mem mem_cons_self)
  constructor
  · intro hfind
    obtain ⟨d, hd, hid⟩ := map_eq_some_iff.mp hfind
    have hdc : d = c :=
      inj_on_of_nodup_map hdistinct (mem_of_find?_eq_some hd) (by simp) hid
    subst hdc
    refine ⟨find?_some hd, ?_⟩
    -- An element before it would be the first one.
    by_contra hany
    obtain ⟨e, he⟩ := isSome_iff_exists.mp
      ((find?_isSome).mpr (List.any_eq_true.mp (Bool.not_eq_false _ ▸ hany)))
    rw [find?_append, he, some_or] at hd
    cases hd
    exact hbefore d (mem_of_find?_eq_some he) rfl
  · rintro ⟨houtside, hany⟩
    have hnone : earlier.find? isOutside = none := by
      rw [find?_eq_none]
      simpa using hany
    rw [find?_append, hnone, none_or, find?_cons_of_pos houtside]
    rfl

end Closing

end ViewTemplate
