import ViewTemplate.Diagnostic

/-! # Values with reports

A stage of the compiler gives a value together with the diagnostics it reported, in order. No stage
reads back what was reported before it.
-/

namespace ViewTemplate

universe u

/-- A value and the diagnostics reported on the way to it. -/
structure Reported (α : Type u) where
  value : α
  notes : List Diagnostic := []

namespace Reported

variable {α β : Type u}

instance : Monad Reported where
  pure a := ⟨a, []⟩
  bind x f := ⟨(f x.value).value, x.notes ++ (f x.value).notes⟩

@[simp] theorem value_pure (a : α) : (pure a : Reported α).value = a := rfl

@[simp] theorem notes_pure (a : α) : (pure a : Reported α).notes = [] := rfl

@[simp] theorem value_bind (x : Reported α) (f : α → Reported β) :
    (x >>= f).value = (f x.value).value := rfl

@[simp] theorem notes_bind (x : Reported α) (f : α → Reported β) :
    (x >>= f).notes = x.notes ++ (f x.value).notes := rfl

@[simp] theorem value_map (f : α → β) (x : Reported α) : (f <$> x).value = f x.value := rfl

@[simp] theorem notes_map (f : α → β) (x : Reported α) : (f <$> x).notes = x.notes := by
  show x.notes ++ [] = x.notes
  simp

@[ext] theorem ext {x y : Reported α} (hv : x.value = y.value) (hn : x.notes = y.notes) :
    x = y := by
  cases x
  cases y
  cases hv
  cases hn
  rfl

instance : LawfulMonad Reported :=
  LawfulMonad.mk' Reported
    (fun x => by ext1 <;> simp)
    (fun _ _ => by ext1 <;> simp)
    (fun _ _ _ => by ext1 <;> simp)

def report (d : Diagnostic) : Reported PUnit := ⟨⟨⟩, [d]⟩

def error (cause : Cause) (range : Option Range) : Reported PUnit := report ⟨cause, range, .error⟩

def tip (cause : Cause) (range : Option Range) : Reported PUnit := report ⟨cause, range, .tip⟩

/-- Reports under a condition. -/
def onlyIf (c : Bool) (x : Reported PUnit) : Reported PUnit := if c then x else pure ⟨⟩

@[simp] theorem notes_error (cause : Cause) (range : Option Range) :
    (error.{u} cause range).notes = [⟨cause, range, .error⟩] := rfl

@[simp] theorem notes_tip (cause : Cause) (range : Option Range) :
    (tip.{u} cause range).notes = [⟨cause, range, .tip⟩] := rfl

end Reported

end ViewTemplate
