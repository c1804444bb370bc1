import Mathlib.Data.List.Basic

/-!
# Effects: a state and a trace of events

`Effect E S α` is a computation that changes a state of type `S`, emits a list of events of type
`E` and returns a value. It is a lawful monad; a sequence of computations emits the events of the
first, then those of the second.

A computation is **silent** (`Silent`) when it emits nothing and leaves the state as it is, and
silent at a state (`SilentAt`) when it does so there; what such a computation returns may be used
in its place (`bind_of_silentAt`).
-/

universe v

/-- A computation over a state, with a trace of events. -/
def Effect (E S : Type*) (α : Type v) := S → List E × α × S

namespace Effect

variable {E S : Type*} {α β : Type v}

@[ext] theorem ext {x y : Effect E S α} (h : ∀ s, x s = y s) : x = y :=
  funext h

instance : Monad (Effect E S) where
  pure a := fun s ↦ ([], a, s)
  bind x f := fun s ↦ ((x s).1 ++ (f (x s).2.1 (x s).2.2).1, (f (x s).2.1 (x s).2.2).2)

@[simp] theorem pure_apply (a : α) (s : S) : (pure a : Effect E S α) s = ([], a, s) := rfl

theorem bind_apply (x : Effect E S α) (f : α → Effect E S β) (s : S) :
    (x >>= f) s = ((x s).1 ++ (f (x s).2.1 (x s).2.2).1, (f (x s).2.1 (x s).2.2).2) := rfl

/-- Run a sequence whose first part is known. -/
theorem bind_eq {x : Effect E S α} {f : α → Effect E S β} {s s' : S} {es : List E} {a : α}
    (h : x s = (es, a, s')) : (x >>= f) s = (es ++ (f a s').1, (f a s').2) := by
  rw [bind_apply, h]

instance : LawfulMonad (Effect E S) :=
  LawfulMonad.mk' _
    (fun x ↦ ext fun s ↦ Prod.ext (List.append_nil (x s).1) rfl)
    (fun a f ↦ ext fun s ↦ by simp [bind_apply])
    (fun x f g ↦ ext fun s ↦ by simp [bind_apply])

/-- Read from the state. -/
def get (f : S → α) : Effect E S α := fun s ↦ ([], f s, s)

/-- Change the state. -/
def modify (f : S → S) : Effect E S Unit := fun s ↦ ([], (), f s)

/-- Emit an event. -/
def emit (e : E) : Effect E S PUnit := fun s ↦ ([e], (), s)

@[simp] theorem get_apply (f : S → α) (s : S) : (get f : Effect E S α) s = ([], f s, s) := rfl

@[simp] theorem modify_apply (f : S → S) (s : S) :
    (modify f : Effect E S Unit) s = ([], (), f s) := rfl

@[simp] theorem emit_apply (e : E) (s : S) : (emit e : Effect E S PUnit) s = ([e], (), s) := rfl

/-! ### Silent computations -/

/-- At `s`, the computation emits nothing and leaves the state as it is. -/
def SilentAt (x : Effect E S α) (s : S) : Prop :=
  (x s).1 = [] ∧ (x s).2.2 = s

theorem SilentAt.eq {x : Effect E S α} {s : S} (h : x.SilentAt s) : x s = ([], (x s).2.1, s) :=
  Prod.ext h.1 (Prod.ext rfl h.2)

theorem silentAt_pure (a : α) (s : S) : (pure a : Effect E S α).SilentAt s := ⟨rfl, rfl⟩

theorem silentAt_get (f : S → α) (s : S) : (get f : Effect E S α).SilentAt s := ⟨rfl, rfl⟩

theorem bind_of_silentAt {x : Effect E S α} {s : S} (h : x.SilentAt s) (f : α → Effect E S β) :
    (x >>= f) s = f (x s).2.1 s := by
  rw [bind_eq h.eq, List.nil_append]

theorem SilentAt.bind {x : Effect E S α} {f : α → Effect E S β} {s : S} (h : x.SilentAt s)
    (hf : (f (x s).2.1).SilentAt s) : (x >>= f).SilentAt s := by
  unfold SilentAt
  rw [bind_of_silentAt h]
  exact hf

end Effect
