import ViewTemplate.Proofs.CodeExpansion

/-! # Two generations side by side

One generation tracks another if it gives the same code but for calls, reports the same, and
collects functions that unfold to what their calls stand for. The other one collects nothing.
Tracking is closed under the steps of which generation is made; collected functions are a list that
only grows.
-/

open List

namespace ViewTemplate.Render

variable {stands : NodeId → Bool → Code → Prop} {quiet : Prop} {base done later : List Code}

/-- Code unfolds to other code. Where nothing is hoisted the two are the same. -/
structure Alike (stands : NodeId → Bool → Code → Prop) (quiet : Prop) (done : List Code)
    (c c' : Code) : Prop where
  unfolds : Code.Unfolds stands done c c'
  eq : quiet → c = c'

namespace Alike

variable {c c' d d' : Code}

theorem text (s : String) : Alike stands quiet done (.text s) (.text s) :=
  ⟨.text done s, fun _ => rfl⟩

theorem append (hc : Alike stands quiet done c c') (hd : Alike stands quiet done d d') :
    Alike stands quiet done (c ++ d) (c' ++ d') where
  unfolds := .append hc.unfolds hd.unfolds
  eq h := by rw [hc.eq h, hd.eq h]

theorem mono (h : Alike stands quiet done c c') (hle : done <+: later) :
    Alike stands quiet later c c' :=
  ⟨h.unfolds.mono hle, h.eq⟩

theorem weaken {still : Prop} (h : Alike stands still done c c') (hq : quiet → still) :
    Alike stands quiet done c c' :=
  ⟨h.unfolds, fun hquiet => h.eq (hq hquiet)⟩

end Alike

/-- Where two generations have arrived, the first one from a given start. -/
structure Arrives (stands : NodeId → Bool → Code → Prop) (quiet : Prop) {α : Type}
    (R : List Code → α → α → Prop) (start : Progress) (done : List Code)
    (x y : Reported (α × Progress)) : Prop where
  collected : Code.UnfoldsAll stands x.value.2.functions done
  value : R done x.value.1 y.value.1
  notes : x.notes = y.notes
  untouched : y.value.2 = {}
  quiet : quiet → x.value.2 = start

/-- Whatever has been collected before, beyond some functions that are known, the first generation
arrives where the second one does. -/
def Tracks (stands : NodeId → Bool → Code → Prop) (quiet : Prop) {α : Type} (base : List Code)
    (R : List Code → α → α → Prop) (x y : Generation α) : Prop :=
  ∀ (p : Progress) (done : List Code), base <+: done → Code.UnfoldsAll stands p.functions done →
    ∃ later, done <+: later ∧ Arrives stands quiet R p later (x.run p) (y.run {})

namespace Tracks

variable {α β : Type} {R R' : List Code → α → α → Prop} {S : List Code → β → β → Prop}
  {x y : Generation α}

theorem pure {a b : α} (h : ∀ done, base <+: done → R done a b) :
    Tracks stands quiet base R (pure a) (pure b) := by
  intro p done hle hp
  exact ⟨done, prefix_refl done, hp, h done hle, rfl, rfl, fun _ => rfl⟩

theorem bind {f g : α → Generation β} (hx : Tracks stands quiet base R x y)
    (hf : ∀ done a b, base <+: done → R done a b → Tracks stands quiet done S (f a) (g b)) :
    Tracks stands quiet base S (x >>= f) (y >>= g) := by
  intro p done hle hp
  obtain ⟨mid, hmid, h⟩ := hx p done hle hp
  obtain ⟨last, hlast, h'⟩ := hf mid _ _ (hle.trans hmid) h.value _ mid (prefix_refl mid)
    h.collected
  refine ⟨last, hmid.trans hlast, ?_⟩
  rw [StateT.run_bind, StateT.run_bind]
  have hy : (y.run {} >>= fun e => (g e.1).run e.2) =
      (y.run {} >>= fun e => (g e.1).run {}) := by
    ext1 <;> simp only [Reported.value_bind, Reported.notes_bind, h.untouched]
  rw [hy]
  refine ⟨h'.collected, h'.value, ?_, h'.untouched, ?_⟩
  · rw [Reported.notes_bind, Reported.notes_bind, h.notes, h'.notes]
  · intro hquiet
    exact (h'.quiet hquiet).trans (h.quiet hquiet)

/-- Reports without a look at what is collected. -/
theorem lift {u v : Reported α} (hnotes : u.notes = v.notes)
    (hvalue : ∀ done, base <+: done → R done u.value v.value) :
    Tracks stands quiet base R (StateT.lift u) (StateT.lift v) := by
  intro p done hle hp
  refine ⟨done, prefix_refl done, ?_⟩
  rw [StateT.run_lift, StateT.run_lift]
  exact ⟨hp, hvalue done hle, by simp [hnotes], rfl, fun _ => rfl⟩

/-- More may be known to be collected, and less may be known of the result. -/
theorem weaken {still : Prop} {more : List Code} (h : Tracks stands still base R x y)
    (hq : quiet → still) (hle : base <+: more) (hR : ∀ done a b, R done a b → R' done a b) :
    Tracks stands quiet more R' x y := by
  intro p done hmore hp
  obtain ⟨later, hlater, h'⟩ := h p done (hle.trans hmore) hp
  exact ⟨later, hlater, h'.collected, hR later _ _ h'.value, h'.notes, h'.untouched,
    fun hquiet => h'.quiet (hq hquiet)⟩

/-- Moving code into a function of its own, which then stands for it. -/
theorem hoist {x y : Generation Code} {owner : NodeId} {inLoop : Bool}
    (h : Tracks stands quiet base (Alike stands quiet) x y) (hquiet : ¬ quiet)
    (hstands : stands owner inLoop (y.run {}).value.1) :
    Tracks stands quiet base (Alike stands quiet)
      (do
        let code ← x
        let index ← Generation.collect code
        return .hoisted owner index inLoop) y := by
  intro p done hle hp
  obtain ⟨mid, hmid, h'⟩ := h p done hle hp
  refine ⟨mid ++ [(y.run {}).value.1], hmid.trans (prefix_append _ _), ?_⟩
  refine ⟨h'.collected.snoc h'.value.unfolds, ⟨.hoisted ?_ hstands, fun hq => absurd hq hquiet⟩, ?_,
    h'.untouched, fun hq => absurd hq hquiet⟩
  · show (mid ++ [_])[(x.run p).value.2.functions.length]? = _
    rw [h'.collected.length_eq, getElem?_concat_length]
  · rw [← h'.notes]
    simp [StateT.run_bind, Generation.collect]

/-- A template inside a template collects for itself. -/
theorem apart {x y : Generation Code} (h : Tracks stands quiet [] (Alike stands quiet) x y)
    (base : List Code) :
    Tracks stands quiet base
      (fun done e e' => Alike stands quiet done (.inlined e.1 e.2) (.inlined e'.1 e'.2))
      (Generation.apart x) (Generation.apart y) := by
  obtain ⟨inner, -, h'⟩ := h {} [] (prefix_refl []) .nil
  have hfunctions : (y.run {}).value.2.functions = [] := by rw [h'.untouched]
  refine bind (lift (R := fun _ e e' => e = (x.run {}).value ∧ e' = (y.run {}).value) h'.notes
    fun _ _ => ⟨rfl, rfl⟩) ?_
  rintro done _ _ - ⟨rfl, rfl⟩
  refine pure fun last _ => ⟨?_, ?_⟩
  · rw [hfunctions]
    exact .inlined h'.collected.length_eq h'.collected.unfolds h'.value.unfolds
  · intro hquiet
    rw [hfunctions, h'.value.eq hquiet, h'.quiet hquiet]

end Tracks

end ViewTemplate.Render
