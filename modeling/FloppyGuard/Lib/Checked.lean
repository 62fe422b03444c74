import Mathlib.Data.List.Nodup

/-! Computations that may be refused: `Except`, step by step. -/
namespace Checked

variable {ε α β : Type} {x : Except ε α} {b : β}

/-- A refused step refuses the rest. -/
theorem bind_eq_ok {f : α → Except ε β} : (x >>= f) = .ok b ↔ ∃ a, x = .ok a ∧ f a = .ok b := by
  cases x with
  | error e => simp [bind, Except.bind]
  | ok a => simp [bind, Except.bind]

theorem map_eq_ok {f : α → β} : x.map f = .ok b ↔ ∃ a, x = .ok a ∧ f a = b := by
  cases x with
  | error e => simp [Except.map]
  | ok a => simp [Except.map]

theorem mapError_eq_ok {ε' : Type} {f : ε → ε'} {a : α} : x.mapError f = .ok a ↔ x = .ok a := by
  cases x <;> simp [Except.mapError]

/-- What each accepted step keeps, an accepted fold keeps. -/
theorem foldlM_invariant {f : β → α → Except ε β} {P : β → Prop} {xs : List α} {s : β}
    (hstep : ∀ s x t, x ∈ xs → f s x = .ok t → P s → P t) (hs : P s) (h : xs.foldlM f s = .ok b) :
    P b := by
  induction xs generalizing s with
  | nil =>
    obtain rfl : s = b := Except.ok.inj h
    exact hs
  | cons x xs ih =>
    rw [List.foldlM_cons, bind_eq_ok] at h
    obtain ⟨t, ht, h⟩ := h
    exact ih (fun s y t hy => hstep s y t (by simp [hy])) (hstep s x t (by simp) ht hs) h

/-- Each result of an accepted traversal is the result for one entry. -/
theorem mem_of_mapM_eq_ok {f : α → Except ε β} {xs : List α} {ys : List β}
    (h : xs.mapM f = .ok ys) :
    ∀ y ∈ ys, ∃ x ∈ xs, f x = .ok y := by
  induction xs generalizing ys with
  | nil =>
    obtain rfl : [] = ys := Except.ok.inj h
    nofun
  | cons x xs ih =>
    rw [List.mapM_cons] at h
    obtain ⟨y, hy, h⟩ := bind_eq_ok.mp h
    obtain ⟨zs, hzs, h⟩ := bind_eq_ok.mp h
    obtain rfl : y :: zs = ys := Except.ok.inj h
    intro z hz
    rcases List.mem_cons.mp hz with rfl | hz
    · exact ⟨x, List.mem_cons_self, hy⟩
    · obtain ⟨w, hw, hwz⟩ := ih hzs z hz
      exact ⟨w, List.mem_cons_of_mem _ hw, hwz⟩

/-- An accepted traversal has a result for each entry. -/
theorem exists_of_mapM_eq_ok {f : α → Except ε β} {xs : List α} {ys : List β}
    (h : xs.mapM f = .ok ys) :
    ∀ x ∈ xs, ∃ y ∈ ys, f x = .ok y := by
  induction xs generalizing ys with
  | nil => nofun
  | cons x xs ih =>
    rw [List.mapM_cons] at h
    obtain ⟨y, hy, h⟩ := bind_eq_ok.mp h
    obtain ⟨zs, hzs, h⟩ := bind_eq_ok.mp h
    obtain rfl : y :: zs = ys := Except.ok.inj h
    intro w hw
    rcases List.mem_cons.mp hw with rfl | hw
    · exact ⟨y, List.mem_cons_self, hy⟩
    · obtain ⟨z, hz, hwz⟩ := ih hzs w hw
      exact ⟨z, List.mem_cons_of_mem _ hz, hwz⟩

/-- What every result has in common with its entry, the lists have in common. -/
theorem map_of_mapM_eq_ok {γ : Type} {f : α → Except ε β} {g : α → γ} {k : β → γ}
    (hf : ∀ x y, f x = .ok y → k y = g x)
    {xs : List α} {ys : List β} (h : xs.mapM f = .ok ys) : ys.map k = xs.map g := by
  induction xs generalizing ys with
  | nil =>
    obtain rfl : [] = ys := Except.ok.inj h
    rfl
  | cons x xs ih =>
    rw [List.mapM_cons] at h
    obtain ⟨y, hy, h⟩ := bind_eq_ok.mp h
    obtain ⟨zs, hzs, h⟩ := bind_eq_ok.mp h
    obtain rfl : y :: zs = ys := Except.ok.inj h
    rw [List.map_cons, List.map_cons, hf x y hy, ih hzs]

/-- A check that returns nothing. -/
theorem unit_bind_eq_ok {x : Except ε Unit} {f : Unit → Except ε β} :
    (x >>= f) = .ok b ↔ x = .ok () ∧ f () = .ok b := by
  rw [bind_eq_ok]
  exact ⟨fun ⟨(), h⟩ => h, fun h => ⟨(), h⟩⟩

end Checked
