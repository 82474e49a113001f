import Mathlib.Data.List.Induction
import Mathlib.Data.List.Nodup
import Mathlib.Data.List.Perm.Basic
import ViewTemplate.Compile

/-! # Listeners and the names that they are registered under

An element keeps its listeners by the name that they are registered under, whether that name is a text
or an expression. So the code has one group of listeners for each name, and a group is written under
an expression only if it is a single listener with an expression for its name. Main statement: a
listener with a computed name stays computed exactly if it is alone under its name.
-/

open List

namespace ViewTemplate

namespace Keyed

variable {α : Type*}

/-- The keys and the values that are found at them make up the entries. -/
theorem entries_eq_map_keys (m : Keyed α) (d : α) :
    m.entries = m.keys.map fun key => (key, (m.get? key).getD d) := by
  obtain ⟨entries, distinct⟩ := m
  simp only [keys, get?, List.map_map]
  induction entries with
  | nil => rfl
  | cons e es ih =>
    rw [map_cons, nodup_cons] at distinct
    have hrest : ∀ f ∈ es, (e :: es).lookup f.1 = es.lookup f.1 := by
      intro f hf
      have hne : f.1 ≠ e.1 := fun heq => distinct.1 (heq ▸ List.mem_map_of_mem hf)
      rw [lookup_cons, beq_eq_false_iff_ne.mpr hne]
    rw [map_cons, Function.comp_apply, lookup_cons_self, Option.getD_some]
    congr 1
    refine (ih distinct.2).trans (map_congr_left fun f hf => ?_)
    rw [Function.comp_apply, Function.comp_apply, hrest f hf]

theorem keys_insert (m : Keyed α) (key : String) (value : α) :
    (m.insert key value).keys = if key ∈ m.keys then m.keys else m.keys ++ [key] :=
  map_fst_put key value m.entries

end Keyed

/-- The listeners of an element for events of the platform, or the others. -/
def Element.listenersOf (el : Element) (native : Bool) : Keyed (List Handler) :=
  if native then el.nativeEvents else el.events

namespace Listener

/-- Listeners of one event in the order in which they run: the important ones first, the last of them
foremost. -/
def runOrder (ls : List Listener) : List Listener :=
  (ls.filter fun l => l.important).reverse ++ ls.filter fun l => !l.important

/-- The listeners under a name. -/
def under (ls : List Listener) (name : String) : List Listener :=
  ls.filter fun l => l.registered.1 = name

/-- The names under which listeners are registered, in the order in which they come up, each with its
listeners in the order in which they run. -/
def groups (ls : List Listener) : List (String × List Listener) :=
  (ls.map fun l => l.registered.1).eraseDups.map fun name => (name, runOrder (under ls name))

/-- Whether no other listener is registered under the same name. -/
def isAlone (ls : List Listener) (l : Listener) : Bool := (under ls l.registered.1).length = 1

/-- Whether the code has the name of a group as an expression. -/
def isComputed (g : String × List Listener) : Bool := Render.isComputed (g.2.map handler)

/-! ## Registering one listener after the other -/

/-- One more listener of a kind is put among those of its kind. -/
theorem listenersOf_addListener (el : Element) (l : Listener) (native : Bool) :
    (el.addListener l).listenersOf native =
      if l.isNative = native then l.insertInto (el.listenersOf native) else el.listenersOf native := by
  rw [Element.addListener, Element.listenersOf, Element.listenersOf]
  cases l.isNative <;> cases native <;> rfl

variable {native : Bool} (ls : List Listener)

/-- The listeners of the other kind do not count. -/
theorem listenersOf_foldl (el : Element) :
    (ls.foldl Element.addListener el).listenersOf native =
      (ls.filter fun l => l.isNative = native).foldl (fun events l => l.insertInto events)
        (el.listenersOf native) := by
  induction ls generalizing el with
  | nil => rfl
  | cons l ls ih =>
    rw [foldl_cons, ih, listenersOf_addListener, filter_cons]
    split
    · rename_i hkind
      rw [if_pos (decide_eq_true hkind), foldl_cons]
    · rename_i hkind
      rw [if_neg (by simpa using hkind)]

/-- Listeners registered where there were none. -/
def registeredAll (ls : List Listener) : Keyed (List Handler) :=
  ls.foldl (fun events l => l.insertInto events) {}

theorem registeredAll_concat (l : Listener) :
    registeredAll (ls ++ [l]) = l.insertInto (registeredAll ls) := by
  rw [registeredAll, foldl_append]
  rfl

theorem keys_registeredAll :
    (registeredAll ls).keys = (ls.map fun l => l.registered.1).eraseDups := by
  induction ls using reverseRecOn with
  | nil => rfl
  | append_singleton ls l ih =>
    rw [registeredAll_concat, insertInto, Keyed.keys_insert, ih, map_append,
      eraseDups_append]
    generalize (ls.map fun l => l.registered.1) = names
    by_cases hmem : l.registered.1 ∈ names
    · rw [if_pos (mem_eraseDups.mpr hmem)]
      simp [removeAll, hmem]
    · rw [if_neg (mt mem_eraseDups.mp hmem)]
      simp [removeAll, hmem, eraseDups_cons]

/-- A name has the listeners that are registered under it, in the order in which they run. -/
theorem get?_registeredAll (name : String) :
    ((registeredAll ls).get? name).getD [] = (runOrder (under ls name)).map handler := by
  induction ls using reverseRecOn with
  | nil => rfl
  | append_singleton ls l ih =>
    rw [registeredAll_concat, insertInto, Keyed.get?_insert]
    split
    · rename_i hname
      subst hname
      rw [Option.getD_some, ih]
      cases himportant : l.important <;>
        simp [runOrder, under, filter_append, himportant]
    · rename_i hname
      rw [ih]
      simp [under, filter_append, Ne.symm hname]

theorem entries_registeredAll :
    (registeredAll ls).entries = (groups ls).map fun g => (g.1, g.2.map handler) := by
  rw [Keyed.entries_eq_map_keys _ [], keys_registeredAll, groups, List.map_map]
  exact map_congr_left fun name _ => by rw [get?_registeredAll]; rfl

/-! ## Groups and their listeners -/

theorem runOrder_perm : (runOrder ls).Perm ls :=
  ((reverse_perm _).append_right _).trans (filter_append_perm _ ls)

/-- Distinct names share out the listeners that are registered under them. -/
theorem flatMap_under_perm {names : List String} (hnames : names.Nodup) :
    (names.flatMap (under ls)).Perm (ls.filter fun l => l.registered.1 ∈ names) := by
  induction names with
  | nil => simp
  | cons name names ih =>
    rw [nodup_cons] at hnames
    have hsplit := filter_append_perm (fun l => decide (l.registered.1 = name))
      (ls.filter fun l => l.registered.1 ∈ name :: names)
    rw [List.filter_filter, List.filter_filter] at hsplit
    rw [flatMap_cons]
    refine (((ih hnames.2).append_left _).trans ?_).trans hsplit
    refine Perm.of_eq (congrArg₂ _ ?_ ?_) <;> refine filter_congr fun l _ => ?_
    · by_cases hname : l.registered.1 = name
      · simp [hname]
      · simp [hname]
    · by_cases hname : l.registered.1 = name
      · simp [hname, hnames.1]
      · simp [hname]

/-- The groups that are written in one way hold the listeners whose groups are. -/
theorem flatMap_groups_perm (P : String × List Listener → Bool) (Q : Listener → Bool)
    (hP : ∀ l ∈ ls, P (l.registered.1, runOrder (under ls l.registered.1)) = Q l) :
    (((groups ls).filter P).flatMap Prod.snd).Perm (ls.filter Q) := by
  let names := (ls.map fun l => l.registered.1).eraseDups
  let kind (name : String) : Bool := P (name, runOrder (under ls name))
  have hnames : names.Nodup :=
    (congrArg Nodup (keys_registeredAll ls)).mp (registeredAll ls).distinct
  have hgroups : ((groups ls).filter P).flatMap Prod.snd =
      (names.filter kind).flatMap fun name => runOrder (under ls name) := by
    rw [groups, List.filter_map, flatMap_map]
    rfl
  have hQ : (ls.filter fun l => l.registered.1 ∈ names.filter kind) = ls.filter Q := by
    refine filter_congr fun l hl => ?_
    have hmem : l.registered.1 ∈ names := mem_eraseDups.mpr (List.mem_map_of_mem hl)
    simp [kind, hP l hl, hmem]
  rw [hgroups, ← hQ]
  refine (Perm.flatMap_left _ fun name _ => runOrder_perm _).trans ?_
  exact flatMap_under_perm ls (hnames.filter _)

/-- A group is a single listener with an expression for its name exactly if each of its listeners is
that. -/
theorem isComputed_group {l : Listener} (hl : l ∈ ls) :
    isComputed (l.registered.1, runOrder (under ls l.registered.1)) = (l.dynamic && isAlone ls l) := by
  have hmem : l ∈ runOrder (under ls l.registered.1) := by
    rw [(runOrder_perm _).mem_iff]
    exact mem_filter.mpr ⟨hl, decide_eq_true rfl⟩
  rw [isAlone, ← (runOrder_perm (under ls l.registered.1)).length_eq, isComputed]
  generalize runOrder (under ls l.registered.1) = group at hmem
  match group with
  | [m] =>
    rw [mem_singleton] at hmem
    simp [Render.isComputed, hmem, handler]
  | m :: n :: rest => simp [Render.isComputed]

/-- Written in one of two ways, the groups hold all listeners. -/
theorem quoted_append_computed_perm :
    (((groups ls).filter fun g => !isComputed g).flatMap Prod.snd ++
      ((groups ls).filter fun g => isComputed g).flatMap Prod.snd).Perm ls := by
  have hall := flatMap_groups_perm ls (fun _ => true) (fun _ => true) fun _ _ => rfl
  rw [filter_true, filter_true] at hall
  rw [← flatMap_append]
  refine Perm.trans ?_ hall
  refine Perm.flatMap_right _ (perm_append_comm.trans ?_)
  exact filter_append_perm isComputed (groups ls)

open Render (listenersEntry objectWith handlers)

/-- The code of the listeners that are registered one after the other on an element without any, for
events of the platform or others. It has the listeners of each name together, under a quoted name or
as an entry for the runtime, and all of them once. Those that the runtime computes the name of are the
ones that have an expression for it and are alone under it. So each listener is written as its name
is given exactly if no listener with an expression for its name shares that name. -/
theorem computed_iff_alone (el : Element) (native : Bool) (hfresh : el.listenersOf native = {})
    (ls : List Listener) :
    let kept := ls.filter fun l => l.isNative = native
    let quoted := (groups kept).filter fun g => !isComputed g
    let computed := (groups kept).filter fun g => isComputed g
    listenersEntry ((ls.foldl Element.addListener el).listenersOf native) native =
        (if native then "nativeOn:" else "on:") ++
          objectWith (quoted.map fun g => "\"" ++ g.1 ++ "\":" ++ handlers (g.2.map handler))
            (computed.map fun g => g.1 ++ "," ++ handlers (g.2.map handler)) ∧
      (∀ g ∈ groups kept, ∀ l ∈ g.2, l.registered.1 = g.1) ∧
      (quoted.flatMap Prod.snd ++ computed.flatMap Prod.snd).Perm kept ∧
      (computed.flatMap Prod.snd).Perm (kept.filter fun l => l.dynamic && isAlone kept l) ∧
      ((quoted.flatMap Prod.snd).Perm (kept.filter fun l => !l.dynamic) ∧
          (computed.flatMap Prod.snd).Perm (kept.filter fun l => l.dynamic) ↔
        ∀ l ∈ kept, l.dynamic = true → isAlone kept l = true) := by
  intro kept quoted computed
  have hcode : listenersEntry ((ls.foldl Element.addListener el).listenersOf native) native =
      listenersEntry (registeredAll kept) native := by
    rw [listenersOf_foldl, hfresh]
    rfl
  have hcomputed : (computed.flatMap Prod.snd).Perm
      (kept.filter fun l => l.dynamic && isAlone kept l) :=
    flatMap_groups_perm kept _ _ fun l hl => isComputed_group kept hl
  have hquoted : (quoted.flatMap Prod.snd).Perm
      (kept.filter fun l => !(l.dynamic && isAlone kept l)) :=
    flatMap_groups_perm kept _ _ fun l hl => congrArg not (isComputed_group kept hl)
  refine ⟨?_, ?_, quoted_append_computed_perm kept, hcomputed, ?_⟩
  · rw [hcode, listenersEntry, Render.listeners, entries_registeredAll, List.filter_map,
      List.filter_map, List.map_map, List.map_map]
    rfl
  · intro g hg l hl
    obtain ⟨name, -, rfl⟩ := List.mem_map.mp hg
    rw [(runOrder_perm _).mem_iff] at hl
    exact of_decide_eq_true (mem_filter.mp hl).2
  · constructor
    · rintro ⟨-, hdynamic⟩ l hl hd
      have hmem := (hdynamic.symm.trans hcomputed).mem_iff.mp (mem_filter.mpr ⟨hl, hd⟩)
      exact (Bool.and_eq_true_iff.mp (mem_filter.mp hmem).2).2
    · intro halone
      have hsame : ∀ l ∈ kept, (l.dynamic && isAlone kept l) = l.dynamic := by
        intro l hl
        cases hd : l.dynamic with
        | false => rfl
        | true => exact halone l hl hd
      rw [filter_congr hsame] at hcomputed
      rw [filter_congr fun l hl => congrArg not (hsame l hl)] at hquoted
      exact ⟨hquoted, hcomputed⟩

/-- A listener for clicks, and one for an event that is computed. -/
theorem computed_iff_alone_of_two_names :
    let ls : List Listener := [{ name := "click", value := "a" },
      { name := "evt", value := "b", dynamic := true }]
    let kept := ls.filter fun l => l.isNative = false
    (default : Element).listenersOf false = {} ∧
      listenersEntry ((ls.foldl Element.addListener default).listenersOf false) false =
        "on:_d(\x7b\"click\":a\x7d,[evt,b])" ∧
      (((groups kept).filter fun g => isComputed g).flatMap Prod.snd).Perm
        (kept.filter fun l => l.dynamic) := by
  intro ls kept
  have hfresh : (default : Element).listenersOf false = {} := rfl
  have h := computed_iff_alone default false hfresh ls
  exact ⟨hfresh, h.1.trans (by decide), (h.2.2.2.2.mpr (by decide)).2⟩

/-- A listener for the event that `click` is at run time is written as one for clicks, where there is
one already. -/
theorem computed_click_quoted_beside_click :
    (compile .web "<div @click=\"a\" @[click]=\"b\"></div>").render =
      "with(this)\x7breturn _c('div',\x7bon:\x7b\"click\":[a,b]\x7d\x7d)\x7d" := by
  decide +kernel

end Listener

end ViewTemplate
