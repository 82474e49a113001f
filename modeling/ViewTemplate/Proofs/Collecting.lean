import ViewTemplate.Render

/-! # What a generation gives and collects

A generation that starts with collected functions of a kind, collects functions of that kind only and
gives a value of which something is known. Such facts follow the way a generation is put together, and
those about a content follow its parts.
-/

open List

namespace ViewTemplate.Render

/-- Whatever has been collected before, if only it is of the given kind, the generation collects code
of that kind and gives a value of which more is known. -/
def Collects (K : Code → Prop) {α : Type} (R : α → Prop) (x : Generation α) : Prop :=
  ∀ p : Progress, (∀ f ∈ p.functions, K f) →
    R (x.run p).value.1 ∧ ∀ f ∈ (x.run p).value.2.functions, K f

namespace Collects

variable {K : Code → Prop} {α β : Type} {R : α → Prop} {S : β → Prop} {x y : Generation α}

theorem pure {a : α} (h : R a) : Collects K R (pure a) := fun _ hp => ⟨h, hp⟩

theorem bind {f : α → Generation β} (hx : Collects K R x) (hf : ∀ a, R a → Collects K S (f a)) :
    Collects K S (x >>= f) := by
  intro p hp
  obtain ⟨hvalue, hfunctions⟩ := hx p hp
  rw [StateT.run_bind]
  exact hf _ hvalue _ hfunctions

theorem map {f : α → β} (hx : Collects K R x) (hf : ∀ a, R a → S (f a)) :
    Collects K S (f <$> x) := by
  intro p hp
  obtain ⟨hvalue, hfunctions⟩ := hx p hp
  rw [StateT.run_map]
  exact ⟨hf _ hvalue, hfunctions⟩

theorem lift {u : Reported α} (h : R u.value) : Collects K R (StateT.lift u) := by
  intro p hp
  rw [StateT.run_lift]
  exact ⟨h, hp⟩

theorem ite (c : Prop) [Decidable c] (hx : Collects K R x) (hy : Collects K R y) :
    Collects K R (if c then x else y) := by
  split
  · exact hx
  · exact hy

/-- One of two generations, before the rest. -/
theorem iteBind (c : Prop) [Decidable c] {f : α → Generation β} (hx : Collects K R x)
    (hy : Collects K R y) (hf : ∀ a, R a → Collects K S (f a)) :
    Collects K S (if c then x >>= f else y >>= f) :=
  ite c (bind hx hf) (bind hy hf)

/-- A report under a condition, before the rest. -/
theorem reporting (c : Prop) [Decidable c] {u : Reported β} (hx : Collects K R x) :
    Collects K R (if c then StateT.lift u >>= fun _ => x else x) :=
  ite c (bind (R := fun _ => True) (lift trivial) fun _ _ => hx) hx

theorem mapM {γ : Type} {f : γ → Generation α} {l : List γ} (h : ∀ a ∈ l, Collects K R (f a)) :
    Collects K (fun values => ∀ v ∈ values, R v) (l.mapM f) := by
  induction l with
  | nil =>
    apply pure
    intro v hv
    cases hv
  | cons a l ih =>
    rw [forall_mem_cons] at h
    rw [mapM_cons]
    apply bind h.1
    intro v hv
    apply bind (ih h.2)
    intro values hvalues
    exact pure (forall_mem_cons.mpr ⟨hv, hvalues⟩)

/-- Moving code into a function leaves a call. -/
theorem hoist {scene : Scene} {id : NodeId} {el : Element} {code : Bool → Generation Code}
    (hcall : ∀ index, K (.hoisted id index el.staticInLoop))
    (h : ∀ verbatim, Collects K K (code verbatim)) (verbatim : Bool) :
    Collects K K (Render.hoist scene id el code verbatim) := by
  rw [Render.hoist]
  apply bind (h _)
  intro c hc
  apply bind (R := fun _ => True)
  · intro p hp
    refine ⟨trivial, ?_⟩
    show ∀ f ∈ p.functions ++ [c], K f
    exact forall_mem_append.mpr ⟨hp, forall_mem_singleton.mpr hc⟩
  · intro index _
    exact pure (hcall index)

/-- A template inside a template collects for itself. -/
theorem apart {x : Generation Code} (h : Collects K K x) :
    Collects K (fun e => K e.1 ∧ ∀ f ∈ e.2, K f) (Generation.apart x) := by
  have hinner := h {} fun f hf => by cases hf
  apply bind (R := fun e => e = (x.run {}).value) (lift rfl)
  rintro e rfl
  exact pure hinner

end Collects

/-- The only child that is a list is one of the children. -/
theorem mem_of_onlyLoop? {children : List Rendering} {r : Rendering} {el : Element}
    (h : onlyLoop? children = some (r, el)) : r ∈ children := by
  match children with
  | [s] =>
    obtain ⟨e, -, hsame⟩ := Option.map_eq_some_iff.mp h
    rw [← (Prod.mk.inj hsame).1]
    exact mem_singleton_self s

/-- A fact about renderings that leaves have, and an element if its parts do, is one about what is
written for a content whose nodes are of some kind. -/
theorem rendering_of_nodes {scene : Scene} {N : NodeId → Node → Prop} {Q : Rendering → Prop}
    (hplain : ∀ id t, N id (.plain t) → Q (rendering scene (.plain id t)))
    (hinterpolated : ∀ id t, N id (.interpolated t) → Q (rendering scene (.interpolated id t)))
    (hsite : ∀ (site : Site) (content : Content), N site.id (.element site.el) →
      (∀ r ∈ site.children, Q r) → (∀ r ∈ site.branches, Q r) → (∀ r ∈ site.slots, Q r) →
      Q (site.rendering scene content))
    {c : Content} (h : ∀ e ∈ c.nodes, N e.1 e.2) : Q (rendering scene c) := by
  induction c using Content.induction with
  | plain id t => exact hplain id t (h _ mem_cons_self)
  | interpolated id t => exact hinterpolated id t (h _ mem_cons_self)
  | element id el children branches slots ihchildren ihbranches ihslots =>
    rw [Content.nodes, forall_mem_cons, forall_mem_append, forall_mem_append] at h
    obtain ⟨hself, ⟨hchildren, hbranches⟩, hslots⟩ := h
    have hpart {cs : List Content}
        (ih : ∀ c ∈ cs, (∀ e ∈ c.nodes, N e.1 e.2) → Q (rendering scene c))
        (hnodes : ∀ e ∈ Content.nodesOf cs, N e.1 e.2) : ∀ r ∈ renderings scene cs, Q r := by
      rw [renderings_eq_map, List.forall_mem_map]
      rw [Content.nodesOf_eq_flatMap] at hnodes
      intro c hc
      exact ih c hc fun e he => hnodes e (mem_flatMap_of_mem hc he)
    rw [rendering]
    exact hsite _ _ hself (hpart ihchildren hchildren) (hpart ihbranches hbranches)
      (hpart ihslots hslots)

end ViewTemplate.Render
