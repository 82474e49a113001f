import Mathlib.Data.List.Forall2
import ViewTemplate.Proofs.CallOwners

/-! # What generation does

Besides giving code, generation does three things: it moves the code of an element into a function,
it marks code as rendered once in each repetition of a loop, and it generates a template inside a
template. An account of a generation lists these acts in order, each with what really came of it.
Generation follows a small machine whose state is what has been collected: a function is appended and
called by its place, and a mark takes the next number.
-/

open List

namespace ViewTemplate.Render

/-- The code of an element of the tree is moved into a function, from a given start. -/
structure Hoisting (scene : Scene) where
  site : Site
  element : scene.tree.element? site.id = some site.el
  body : Bool → Generation Code
  isBody : site.Body scene body
  verbatim : Bool
  start : Progress

namespace Hoisting

variable {scene : Scene} (h : Hoisting scene)

/-- The generation of the code that is moved. -/
def inner : Generation Code := h.body (h.verbatim || scene.tree.isVerbatim h.site.id)

/-- The code that is generated for the element. -/
def code : Code := (h.inner.run h.start).value.1

/-- The functions collected before the code is moved, those of elements inside it included. -/
def before : List Code := (h.inner.run h.start).value.2.functions

/-- What the hoisting gives in the place of the code. -/
def call : Code := ((h.site.hoisted scene h.body h.verbatim).run h.start).value.1

/-- The functions collected after the hoisting. -/
def after : List Code := ((h.site.hoisted scene h.body h.verbatim).run h.start).value.2.functions

end Hoisting

/-- Code is marked as rendered once in each repetition of a loop with a key. -/
structure Marking (scene : Scene) where
  el : Element
  key : String
  keyed : loopKey? scene el = some key
  inner : Generation Code
  start : Progress

namespace Marking

variable {scene : Scene} (m : Marking scene)

def code : Code := (m.inner.run m.start).value.1

/-- The code with its mark. -/
def marked : Code := ((onceInLoop scene m.el m.inner).run m.start).value.1

/-- The functions collected after the marking. -/
def after : List Code := ((onceInLoop scene m.el m.inner).run m.start).value.2.functions

end Marking

/-- An act of a generation. -/
inductive Act (scene : Scene)
  | hoists (h : Hoisting scene)
  | marks (m : Marking scene)
  /-- A template inside a template, with the acts of its own generation. -/
  | inlines (template : Generation Code) (acts : List (Act scene))

/-- What has been collected from the start to the end of an act, as far as it changes in between. A
template inside a template collects for itself. -/
def Act.lists {scene : Scene} : Act scene → List (List Code)
  | .hoists h => [h.start.functions, h.before, h.after]
  | .marks m => [m.start.functions, m.after]
  | .inlines _ _ => []

/-- The hoistings among acts. Those of templates inside are not counted. -/
def hoistings {scene : Scene} (acts : List (Act scene)) : List (Hoisting scene) :=
  acts.filterMap fun
    | .hoists h => some h
    | _ => none

/-- The marks among acts. Those of templates inside are not counted. -/
def markings {scene : Scene} (acts : List (Act scene)) : List (Marking scene) :=
  acts.filterMap fun
    | .marks m => some m
    | _ => none

/-- The acts of a generation that is run from a given start. Values and reports are no acts; a template
inside a template starts with nothing collected. -/
inductive Performs (scene : Scene) : {α : Type} → Generation α → Progress → List (Act scene) → Prop
  | pure {α : Type} (a : α) (p : Progress) : Performs scene (pure a) p []
  | lift {α : Type} (u : Reported α) (p : Progress) : Performs scene (StateT.lift u) p []
  | bind {α β : Type} {x : Generation α} {f : α → Generation β} {p : Progress}
      {acts more : List (Act scene)} (first : Performs scene x p acts)
      (rest : Performs scene (f (x.run p).value.1) (x.run p).value.2 more) :
      Performs scene (x >>= f) p (acts ++ more)
  | hoist (h : Hoisting scene) {acts : List (Act scene)} (inner : Performs scene h.inner h.start acts) :
      Performs scene (h.site.hoisted scene h.body h.verbatim) h.start (acts ++ [.hoists h])
  | once (m : Marking scene) {acts : List (Act scene)} (inner : Performs scene m.inner m.start acts) :
      Performs scene (onceInLoop scene m.el m.inner) m.start (acts ++ [.marks m])
  | apart {x : Generation Code} {acts : List (Act scene)} (inner : Performs scene x {} acts)
      (p : Progress) : Performs scene (Generation.apart x) p [.inlines x acts]

/-! ## The machine -/

/-- Acts that lead from one state of the collection to another. -/
inductive Follows {scene : Scene} : Progress → List (Act scene) → Progress → Prop
  | nil (p : Progress) : Follows p [] p
  | hoists {p q : Progress} {h : Hoisting scene} {acts : List (Act scene)}
      (start : h.start.functions <+: p.functions) (before : h.before = p.functions)
      (after : h.after = p.functions ++ [h.code])
      (call : h.call = .hoisted h.site.id p.functions.length h.site.el.staticInLoop)
      (rest : Follows { p with functions := p.functions ++ [h.code] } acts q) :
      Follows p (.hoists h :: acts) q
  | marks {p q : Progress} {m : Marking scene} {acts : List (Act scene)}
      (start : m.start.functions <+: p.functions) (after : m.after = p.functions)
      (marked : m.marked =
        "_o(" ++ m.code ++ "," ++ toString p.onceCount ++ "," ++ m.key ++ ")")
      (rest : Follows { p with onceCount := p.onceCount + 1 } acts q) :
      Follows p (.marks m :: acts) q
  | inlines {p q : Progress} {x : Generation Code} {inner acts : List (Act scene)}
      (template : Follows {} inner (x.run {}).value.2) (rest : Follows p acts q) :
      Follows p (.inlines x inner :: acts) q

section

variable {scene : Scene} {p q r : Progress} {acts more : List (Act scene)}

theorem Follows.append (h : Follows p acts q) (h' : Follows q more r) :
    Follows p (acts ++ more) r := by
  induction h with
  | nil p => exact h'
  | hoists start before after call _ ih => exact .hoists start before after call (ih h')
  | marks start after marked _ ih => exact .marks start after marked (ih h')
  | inlines template _ _ ih => exact .inlines template (ih h')

/-- The functions that are collected are those of the hoistings in order. -/
theorem Follows.functions_eq (h : Follows p acts q) :
    q.functions = p.functions ++ (hoistings acts).map Hoisting.code := by
  induction h with
  | nil p => exact (append_nil _).symm
  | @hoists p q h acts _ _ _ _ _ ih =>
    show q.functions = p.functions ++ h.code :: (hoistings acts).map Hoisting.code
    rw [ih, append_assoc, singleton_append]
  | marks _ _ _ _ ih => exact ih
  | inlines _ _ _ ih => exact ih

/-- What is collected only grows. -/
theorem Follows.isPrefix (h : Follows p acts q) : p.functions <+: q.functions :=
  ⟨_, h.functions_eq.symm⟩

/-- A generation follows the machine from where it starts to where it arrives. -/
theorem Performs.follows {α : Type} {x : Generation α} (h : Performs scene x p acts) :
    Follows p acts (x.run p).value.2 := by
  induction h with
  | pure a p => exact .nil p
  | lift u p => exact .nil p
  | bind _ _ ihfirst ihrest =>
    rw [StateT.run_bind]
    exact ihfirst.append ihrest
  | hoist h _ ih => exact ih.append (.hoists ih.isPrefix rfl rfl rfl (.nil _))
  | once m _ ih =>
    have hrun : (onceInLoop scene m.el m.inner).run m.start =
        (do
          let code ← m.inner
          let number ← Generation.nextOnce
          return ("_o(" ++ code ++ "," ++ toString number ++ "," ++ m.key ++ ")" : Code)).run
            m.start := by
      rw [onceInLoop, m.keyed]
    have hmarked : m.marked = "_o(" ++ m.code ++ "," ++
        toString (m.inner.run m.start).value.2.onceCount ++ "," ++ m.key ++ ")" := by
      rw [Marking.marked, hrun]
      rfl
    have hafter : m.after = (m.inner.run m.start).value.2.functions := by
      rw [Marking.after, hrun]
      rfl
    rw [hrun]
    exact ih.append (.marks ih.isPrefix hafter hmarked (.nil _))
  | apart _ p ih => exact .inlines ih (.nil p)

/-- Whatever has been collected at some time is where all functions start. -/
theorem Follows.grows (hf : Follows p acts q) : ∀ a ∈ acts, ∀ l ∈ a.lists, l <+: q.functions := by
  induction hf with
  | nil p =>
    intro a hmem
    cases hmem
  | @hoists p q h acts start before after _ rest ih =>
    rw [forall_mem_cons]
    refine ⟨?_, ih⟩
    have hafter : h.after <+: q.functions := after ▸ rest.isPrefix
    have hbefore : h.before <+: q.functions :=
      (before ▸ after ▸ prefix_append p.functions [h.code]).trans hafter
    simp only [Act.lists, forall_mem_cons]
    exact ⟨start.trans (before ▸ hbefore), hbefore, hafter, forall_mem_nil _⟩
  | @marks p q m acts start after _ rest ih =>
    rw [forall_mem_cons]
    refine ⟨?_, ih⟩
    simp only [Act.lists, forall_mem_cons]
    exact ⟨start.trans rest.isPrefix, after ▸ rest.isPrefix, forall_mem_nil _⟩
  | inlines _ _ _ ih =>
    rw [forall_mem_cons]
    exact ⟨forall_mem_nil _, ih⟩

/-- The number in a call of a function. -/
def callIndex? : Code → Option Nat
  | .hoisted _ index _ => some index
  | _ => none

/-- A hoisting is called by the place of its function. -/
theorem Follows.calls (hf : Follows p acts q) : ∀ h ∈ hoistings acts, ∃ k < q.functions.length,
    h.call = .hoisted h.site.id k h.site.el.staticInLoop ∧ q.functions[k]? = some h.code := by
  induction hf with
  | nil p =>
    intro h hmem
    cases hmem
  | @hoists p q h acts _ _ _ call rest ih =>
    intro h' hmem
    rcases mem_cons.mp hmem with rfl | hmem
    · have hplace : q.functions[p.functions.length]? = some h'.code := by
        rw [rest.functions_eq]
        simp
      exact ⟨_, (List.getElem?_eq_some_iff.mp hplace).1, call, hplace⟩
    · exact ih h' hmem
  | marks _ _ _ _ ih => exact ih
  | inlines _ _ _ ih => exact ih

/-- The calls are numbered from the first place that is free. -/
theorem Follows.indices (hf : Follows p acts q) : (hoistings acts).map (fun h => callIndex? h.call) =
    (range' p.functions.length (hoistings acts).length).map some := by
  induction hf with
  | nil p => rfl
  | @hoists p q h acts _ _ _ call _ ih =>
    show callIndex? h.call :: (hoistings acts).map (fun h => callIndex? h.call) =
      (range' p.functions.length ((hoistings acts).length + 1)).map some
    rw [ih, call, range'_succ, map_cons, length_append, length_singleton]
    rfl
  | marks _ _ _ _ ih => exact ih
  | inlines _ _ _ ih => exact ih

/-- The marks are numbered from the first number that is free. -/
theorem Follows.numbers (hf : Follows p acts q) :
    Forall₂ (fun (m : Marking scene) (number : Nat) =>
        m.marked = "_o(" ++ m.code ++ "," ++ toString number ++ "," ++ m.key ++ ")")
      (markings acts) (range' p.onceCount (markings acts).length) := by
  induction hf with
  | nil p => exact .nil
  | hoists _ _ _ _ _ ih => exact ih
  | marks _ _ marked _ ih => exact .cons marked ih
  | inlines _ _ _ ih => exact ih

end

/-! ## References -/

/-- What is collected only grows, every hoisting is called by the place of its own code, no two by the
same, and no two marks have the same number. -/
structure Referenced {scene : Scene} (functions : List Code) (acts : List (Act scene)) : Prop where
  grows : ∀ a ∈ acts, ∀ l ∈ a.lists, l <+: functions
  called : ∀ h ∈ hoistings acts, ∃ k < functions.length,
    h.call = .hoisted h.site.id k h.site.el.staticInLoop ∧ functions[k]? = some h.code ∧
      h.call.print = "_m(" ++ toString k ++ (if h.site.el.staticInLoop then ",true)" else ")") ∧
      (functions.map fun c => Code.body c.print)[k]? = some (Code.body h.code.print)
  distinct : ((hoistings acts).map fun h => callIndex? h.call).Nodup
  count : functions.length = (hoistings acts).length
  numbered : ∃ numbers : List Nat, numbers.Nodup ∧
    Forall₂ (fun (m : Marking scene) (number : Nat) =>
      m.marked = "_o(" ++ m.code ++ "," ++ toString number ++ "," ++ m.key ++ ")")
      (markings acts) numbers

/-- The references are right, and so are those of every template inside, by themselves. -/
inductive ReferencedThroughout {scene : Scene} : List Code → List (Act scene) → Prop
  | intro {functions : List Code} {acts : List (Act scene)} (own : Referenced functions acts)
      (inner : ∀ x inside, .inlines x inside ∈ acts →
        ReferencedThroughout (x.run {}).value.2.functions inside) :
      ReferencedThroughout functions acts

section

variable {scene : Scene} {p q : Progress} {acts : List (Act scene)}

theorem Follows.referenced (h : Follows {} acts q) : Referenced q.functions acts where
  grows := h.grows
  called := by
    intro h' hmem
    obtain ⟨k, hk, hcall, hcode⟩ := h.calls h' hmem
    refine ⟨k, hk, hcall, hcode, by rw [hcall, Code.print], ?_⟩
    rw [getElem?_map, hcode, Option.map_some]
  distinct := by
    rw [h.indices, Nodup, pairwise_map]
    exact List.Pairwise.imp (fun hne heq => hne (Option.some.inj heq)) nodup_range'
  count := by
    rw [h.functions_eq]
    simp
  numbered := ⟨_, nodup_range', h.numbers⟩

theorem Follows.inner (h : Follows p acts q) : ∀ x inside, .inlines x inside ∈ acts →
    ReferencedThroughout (x.run {}).value.2.functions inside := by
  induction h with
  | nil p =>
    intro x inside hmem
    cases hmem
  | hoists _ _ _ _ _ ih =>
    intro x inside hmem
    rcases mem_cons.mp hmem with heq | hmem
    · cases heq
    · exact ih x inside hmem
  | marks _ _ _ _ ih =>
    intro x inside hmem
    rcases mem_cons.mp hmem with heq | hmem
    · cases heq
    · exact ih x inside hmem
  | inlines template _ ihtemplate ih =>
    intro x inside hmem
    rcases mem_cons.mp hmem with heq | hmem
    · cases heq
      exact .intro template.referenced ihtemplate
    · exact ih x inside hmem

end

/-! ## Every generation is made of acts -/

/-- From wherever it is run, the generation is made of acts, and it gives a value of some kind. -/
def Enacted (scene : Scene) {α : Type} (R : α → Prop) (x : Generation α) : Prop :=
  ∀ p, R (x.run p).value.1 ∧ ∃ acts, Performs scene x p acts

theorem Enacted.lift {scene : Scene} {α : Type} {R : α → Prop} {u : Reported α} (h : R u.value) :
    Enacted scene R (StateT.lift u) := by
  intro p
  rw [StateT.run_lift]
  exact ⟨h, [], .lift u p⟩

theorem Enacted.bind {scene : Scene} {α β : Type} {R : α → Prop} {S : β → Prop} {x : Generation α}
    {f : α → Generation β} (hx : Enacted scene R x) (hf : ∀ a, R a → Enacted scene S (f a)) :
    Enacted scene S (x >>= f) := by
  intro p
  obtain ⟨hvalue, acts, hacts⟩ := hx p
  obtain ⟨hrest, more, hmore⟩ := hf _ hvalue (x.run p).value.2
  rw [StateT.run_bind]
  exact ⟨hrest, acts ++ more, .bind hacts hmore⟩

/-- Being made of acts follows the way in which generation is put together. -/
theorem compositional_enacted (scene : Scene) :
    Compositional scene (fun id el => scene.tree.element? id = some el) (fun _ => True)
      (fun _ => True) (@Enacted scene) where
  text _ := trivial
  append _ _ := trivial
  inlined _ _ := trivial
  pure {_ _ a} h p := ⟨h, [], .pure a p⟩
  bind := .bind
  apart {x} hx p := by
    obtain ⟨-, acts, hacts⟩ := hx {}
    exact ⟨⟨trivial, fun _ _ => trivial⟩, [.inlines x acts], .apart hacts p⟩
  known _ := trivial
  rules _ := .lift trivial
  tip _ _ := .lift trivial
  error _ _ := .lift trivial
  onceInLoop {el} _ x hx := by
    cases hkey : loopKey? scene el with
    | some key =>
      intro p
      obtain ⟨-, acts, hacts⟩ := hx p
      exact ⟨trivial, _, .once ⟨el, key, hkey, x, p⟩ hacts⟩
    | none =>
      have hrun : onceInLoop scene el x =
          (Generation.error .onceInUnkeyedLoop (el.rangeOf "v-once") >>= fun _ => x) := by
        rw [onceInLoop, hkey]
      rw [hrun]
      exact .bind (R := fun _ => True) (.lift trivial) fun _ _ => hx
  hoisted {site} hel _ body hbody h verbatim p := by
    obtain ⟨-, acts, hacts⟩ := h (verbatim || scene.tree.isVerbatim site.id) p
    exact ⟨trivial, _, .hoist ⟨site, hel, body, hbody, verbatim, p⟩ hacts⟩

end ViewTemplate.Render

namespace ViewTemplate.Tree

open Render

end ViewTemplate.Tree
