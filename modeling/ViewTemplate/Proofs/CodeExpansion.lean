import ViewTemplate.Render

/-! # Expanding calls

A call in generated code stands for the code of the function that it names. A function may call
those collected before it, so functions are expanded from the first to the last; a template inside a
template has functions of its own. Expansion is a computation (`Code.expand`) and a relation
(`Code.Unfolds`) that stays true when further functions are collected.
-/

open List

namespace ViewTemplate

namespace Code

mutual
/-- The code with each call replaced by the function that it names, given the functions expanded. A
call of no function stays. -/
def expand (done : List Code) : Code → Code
  | .text s => .text s
  | .append first second => .append (expand done first) (expand done second)
  | .hoisted owner index inLoop => done[index]?.getD (.hoisted owner index inLoop)
  | .inlined render functions => .inlined (expand (expandAll [] functions) render) []

/-- Expands functions in order, each by those before it. -/
def expandAll (done : List Code) : List Code → List Code
  | [] => done
  | c :: cs => expandAll (done ++ [expand done c]) cs
end

/-- A call, and the functions among which it is looked up. -/
structure Call where
  functions : List Code
  /-- The element whose code the call stands for. -/
  owner : NodeId
  index : Nat
  inLoop : Bool

/-- The body of the function that a call names. -/
def Call.body? (call : Call) : Option String :=
  (call.functions.map fun code => body code.print)[call.index]?

mutual
/-- All calls in the code, those of templates inside it included. -/
def calls (functions : List Code) : Code → List Call
  | .text _ => []
  | .append first second => calls functions first ++ calls functions second
  | .hoisted owner index inLoop => [⟨functions, owner, index, inLoop⟩]
  | .inlined render inner => calls inner render ++ callsOf inner inner

def callsOf (functions : List Code) : List Code → List Call
  | [] => []
  | c :: cs => calls functions c ++ callsOf functions cs
end

theorem mem_callsOf {functions cs : List Code} {call : Call} :
    call ∈ callsOf functions cs ↔ ∃ c ∈ cs, call ∈ calls functions c := by
  induction cs with
  | nil => simp [callsOf]
  | cons c cs ih => simp [callsOf, ih]

/-- A code unfolds to another one, in which each call is replaced by one of the codes given for the
functions. What a call may be replaced by is a condition on its element. -/
inductive Unfolds (stands : NodeId → Bool → Code → Prop) : List Code → Code → Code → Prop
  | text (done : List Code) (s : String) : Unfolds stands done (.text s) (.text s)
  | append {done : List Code} {first second first' second' : Code}
      (hfirst : Unfolds stands done first first') (hsecond : Unfolds stands done second second') :
      Unfolds stands done (.append first second) (.append first' second')
  | hoisted {done : List Code} {owner : NodeId} {index : Nat} {inLoop : Bool} {code : Code}
      (hindex : done[index]? = some code) (hstands : stands owner inLoop code) :
      Unfolds stands done (.hoisted owner index inLoop) code
  | inlined {done functions inner : List Code} {render code : Code}
      (hlength : functions.length = inner.length)
      (hfunctions : ∀ (k : Nat) (f c : Code), functions[k]? = some f → inner[k]? = some c →
        Unfolds stands (inner.take k) f c)
      (hrender : Unfolds stands inner render code) :
      Unfolds stands done (.inlined render functions) (.inlined code [])

/-- Functions unfold, each by those before it. -/
structure UnfoldsAll (stands : NodeId → Bool → Code → Prop) (functions done : List Code) :
    Prop where
  length_eq : functions.length = done.length
  unfolds : ∀ (k : Nat) (f c : Code), functions[k]? = some f → done[k]? = some c →
    Unfolds stands (done.take k) f c

section

variable {stands : NodeId → Bool → Code → Prop} {done later functions : List Code} {c c' : Code}

/-- What stands in a list stays there in every longer one. -/
theorem getElem?_of_isPrefix (hle : done <+: later) {k : Nat} (h : done[k]? = some c) :
    later[k]? = some c := by
  obtain ⟨rest, rfl⟩ := hle
  rw [getElem?_append_left (List.getElem?_eq_some_iff.mp h).1]
  exact h

/-- Functions collected later change nothing. -/
theorem Unfolds.mono (h : Unfolds stands done c c') (hle : done <+: later) :
    Unfolds stands later c c' := by
  induction h generalizing later with
  | text done s => exact .text later s
  | append _ _ ihfirst ihsecond => exact .append (ihfirst hle) (ihsecond hle)
  | hoisted hindex hstands => exact .hoisted (getElem?_of_isPrefix hle hindex) hstands
  | inlined hlength hfunctions hrender _ _ => exact .inlined hlength hfunctions hrender

theorem UnfoldsAll.nil : UnfoldsAll stands [] [] where
  length_eq := rfl
  unfolds k f c hf := by cases hf

/-- Collecting one more function. -/
theorem UnfoldsAll.snoc (h : UnfoldsAll stands functions done) (hc : Unfolds stands done c c') :
    UnfoldsAll stands (functions ++ [c]) (done ++ [c']) where
  length_eq := by simp [h.length_eq]
  unfolds k f d hf hd := by
    have hlt : k < done.length ∨ k = done.length := by
      have hk := (List.getElem?_eq_some_iff.mp hd).1
      simp only [length_append, length_cons, length_nil] at hk
      omega
    rcases hlt with hlt | rfl
    · rw [getElem?_append_left hlt] at hd
      rw [getElem?_append_left (h.length_eq ▸ hlt)] at hf
      rw [take_append_of_le_length (Nat.le_of_lt hlt)]
      exact h.unfolds k f d hf hd
    · rw [getElem?_concat_length] at hd
      rw [← h.length_eq, getElem?_concat_length] at hf
      cases hd
      cases hf
      rw [take_append_of_le_length (Nat.le_refl _), take_length]
      exact hc

/-! ## The relation and the computation agree -/

/-- Functions that expand one after the other to given codes expand to the list of those. -/
theorem expandAll_eq (functions done rest : List Code) (hlength : functions.length = rest.length)
    (h : ∀ (k : Nat) (f c : Code), functions[k]? = some f → rest[k]? = some c →
      f.expand (done ++ rest.take k) = c) : expandAll done functions = done ++ rest := by
  induction functions generalizing done rest with
  | nil =>
    rw [eq_nil_of_length_eq_zero hlength.symm, append_nil]
    rfl
  | cons f functions ih =>
    obtain ⟨c, rest, rfl⟩ := exists_cons_of_length_eq_add_one hlength.symm
    have hc : f.expand done = c := by
      rw [← h 0 f c rfl rfl]
      simp
    rw [expandAll, hc, ih (done ++ [c]) rest (Nat.succ.inj hlength), append_assoc]
    · rfl
    · intro k g d hg hd
      rw [← h (k + 1) g d hg hd, append_assoc]
      rfl

theorem Unfolds.expand_eq (h : Unfolds stands done c c') : c.expand done = c' := by
  induction h with
  | text done s => rfl
  | append _ _ ihfirst ihsecond => rw [expand, ihfirst, ihsecond]
  | hoisted hindex _ => rw [expand, hindex, Option.getD_some]
  | @inlined _ functions inner _ _ hlength _ _ ihfunctions ihrender =>
    have hall : expandAll [] functions = inner :=
      expandAll_eq functions [] inner hlength ihfunctions
    rw [expand, hall, ihrender]

theorem UnfoldsAll.expandAll_eq (h : UnfoldsAll stands functions done) :
    expandAll [] functions = done :=
  Code.expandAll_eq functions [] done h.length_eq
    fun k f c hf hc => (h.unfolds k f c hf hc).expand_eq

/-- A call runs a function that expands to what the call stands for. -/
def Call.Kept (stands : NodeId → Bool → Code → Prop) (call : Call) : Prop :=
  ∃ code, call.functions[call.index]? = some code ∧
    stands call.owner call.inLoop (code.expand (expandAll [] call.functions))

theorem UnfoldsAll.kept (h : UnfoldsAll stands functions done) {owner : NodeId} {index : Nat}
    {inLoop : Bool} (hindex : done[index]? = some c) (hstands : stands owner inLoop c) :
    (Call.mk functions owner index inLoop).Kept stands := by
  have hlt : index < functions.length := by
    rw [h.length_eq]
    exact (List.getElem?_eq_some_iff.mp hindex).1
  have hcode := getElem?_eq_getElem hlt
  have hfull := (h.unfolds index _ c hcode hindex).mono ( take_prefix index done)
  refine ⟨_, hcode, ?_⟩
  rw [h.expandAll_eq, hfull.expand_eq]
  exact hstands

/-- Every call in code that unfolds is kept. -/
theorem Unfolds.calls_kept (h : Unfolds stands done c c') (hall : UnfoldsAll stands functions later)
    (hle : done <+: later) : ∀ call ∈ c.calls functions, call.Kept stands := by
  induction h generalizing functions later with
  | text done s =>
    intro call hcall
    cases hcall
  | append _ _ ihfirst ihsecond =>
    intro call hcall
    rcases mem_append.mp hcall with hcall | hcall
    · exact ihfirst hall hle call hcall
    · exact ihsecond hall hle call hcall
  | hoisted hindex hstands =>
    intro call hcall
    rw [calls, mem_singleton] at hcall
    rw [hcall]
    exact hall.kept (getElem?_of_isPrefix hle hindex) hstands
  | @inlined _ own inner _ _ hlength hfunctions _ ihfunctions ihrender =>
    intro call hcall
    have hown : UnfoldsAll stands own inner := ⟨hlength, hfunctions⟩
    rw [calls, mem_append, mem_callsOf] at hcall
    rcases hcall with hcall | ⟨f, hf, hcall⟩
    · exact ihrender hown (prefix_refl inner) call hcall
    · obtain ⟨k, hk⟩ := mem_iff_getElem?.mp hf
      have hlt : k < inner.length := by
        rw [← hlength]
        exact (List.getElem?_eq_some_iff.mp hk).1
      exact ihfunctions k f _ hk (getElem?_eq_getElem hlt) hown ( take_prefix k inner)
        call hcall

theorem UnfoldsAll.calls_kept (h : UnfoldsAll stands functions done) :
    ∀ call ∈ callsOf functions functions, call.Kept stands := by
  intro call hcall
  obtain ⟨f, hf, hcall⟩ := mem_callsOf.mp hcall
  obtain ⟨k, hk⟩ := mem_iff_getElem?.mp hf
  have hlt : k < done.length := by
    rw [← h.length_eq]
    exact (List.getElem?_eq_some_iff.mp hk).1
  exact (h.unfolds k f _ hk (getElem?_eq_getElem hlt)).calls_kept h ( take_prefix k done)
    call hcall

end

end Code

namespace Render.Program

/-- The program with all calls expanded. No functions are left. -/
def expanded (program : Program) : Program where
  render := program.render.expand (Code.expandAll [] program.functions)
  functions := []

/-- All calls in a program. -/
def calls (program : Program) : List Code.Call :=
  program.render.calls program.functions ++ Code.callsOf program.functions program.functions

end Render.Program

end ViewTemplate
