import Mathlib.Logic.Basic

/-! Computations that change a state and may fail midway: a failure keeps what was done before it.
-/

abbrev Effect (σ ε α : Type) := ExceptT ε (StateM σ) α

namespace Effect

variable {σ ε α β : Type} {Q : Except ε β → σ → Prop} {s : σ}

/-- `c`, started in `s`, ends with an outcome and a state that `Q` admits. -/
def Ends (c : Effect σ ε α) (s : σ) (Q : Except ε α → σ → Prop) : Prop :=
  Q (c.run.run s).1 (c.run.run s).2

def ofExcept (x : Except ε α) : Effect σ ε α := ExceptT.mk (pure x)

theorem Ends.imp {c : Effect σ ε α} {P Q : Except ε α → σ → Prop} (h : Ends c s P)
    (hi : ∀ r t, P r t → Q r t) : Ends c s Q := hi _ _ h

theorem ends_pure {a : α} {Q : Except ε α → σ → Prop} :
    Ends (pure a : Effect σ ε α) s Q ↔ Q (.ok a) s := Iff.rfl

theorem ends_ofExcept {x : Except ε α} {Q : Except ε α → σ → Prop} :
    Ends (ofExcept x : Effect σ ε α) s Q ↔ Q x s := Iff.rfl

theorem ends_get {Q : Except ε σ → σ → Prop} : Ends (get : Effect σ ε σ) s Q ↔ Q (.ok s) s :=
  Iff.rfl

/-- A failure skips what follows it. -/
theorem ends_bind {c : Effect σ ε α} {f : α → Effect σ ε β} :
    Ends (c >>= f) s Q ↔ Ends c s fun r t => match r with
      | .ok a => Ends (f a) t Q
      | .error e => Q (.error e) t := by
  unfold Ends ExceptT.run StateT.run
  simp only [bind, ExceptT.bind, ExceptT.mk, StateT.bind]
  cases c s with
  | mk r t => cases r <;> rfl

/-- A handler starts in the state the failure has left. -/
theorem ends_tryCatch {c : Effect σ ε β} {f : ε → Effect σ ε β} :
    Ends (tryCatch c f) s Q ↔ Ends c s fun r t => match r with
      | .ok b => Q (.ok b) t
      | .error e => Ends (f e) t Q := by
  unfold Ends ExceptT.run StateT.run
  simp only [tryCatch, tryCatchThe, MonadExceptOf.tryCatch, ExceptT.tryCatch, bind, ExceptT.mk,
    StateT.bind]
  cases c s with
  | mk r t => cases r <;> rfl

end Effect
