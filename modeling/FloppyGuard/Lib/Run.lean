import Mathlib.Data.List.Basic

/-! Finite runs of a labelled transition relation, and the rules invariants are proved with. -/

/-- `Run step s xs t`: the labels `xs` lead from `s` to `t`. -/
inductive Run {σ α : Type*} (step : σ → α → σ → Prop) : σ → List α → σ → Prop
  | nil (s : σ) : Run step s [] s
  | cons {s t u : σ} {a : α} {xs : List α} : step s a t → Run step t xs u → Run step s (a :: xs) u

namespace Run

variable {σ τ α β : Type*} {step : σ → α → σ → Prop} {s t u : σ} {xs ys : List α} {a : α}

theorem single (h : step s a t) : Run step s [a] t := .cons h (.nil t)

theorem append (h : Run step s xs t) (h' : Run step t ys u) : Run step s (xs ++ ys) u := by
  induction h with
  | nil => exact h'
  | cons hs _ ih => exact .cons hs (ih h')

/-- What every step keeps, every run keeps. -/
theorem invariant {I : σ → Prop} (hI : ∀ s a t, step s a t → I s → I t)
    (h : Run step s xs t) (hs : I s) : I t := by
  induction h with
  | nil => exact hs
  | cons hst _ ih => exact ih (hI _ _ _ hst hs)

/-- An executable step leads where its fold does. -/
theorem of_foldlM {f : σ → α → Option σ} (h : xs.foldlM f s = some t) :
    Run (fun s a t => f s a = some t) s xs t := by
  induction xs generalizing s with
  | nil =>
    cases Option.some.inj h
    exact .nil _
  | cons a xs ih =>
    rw [List.foldlM_cons] at h
    obtain ⟨u, hu, h⟩ := Option.bind_eq_some_iff.mp h
    exact .cons hu (ih h)

/-- A relation between start and end that each step extends. -/
theorem related {R : σ → σ → Prop} (hr : ∀ s, R s s) (ht : ∀ {s t u}, R s t → R t u → R s u)
    (hR : ∀ s a t, step s a t → R s t) (h : Run step s xs t) : R s t := by
  induction h with
  | nil => exact hr _
  | cons hst _ ih => exact ht (hR _ _ _ hst) ih

theorem imp {step' : σ → α → σ → Prop} (hi : ∀ s a t, step s a t → step' s a t)
    (h : Run step s xs t) : Run step' s xs t := by
  induction h with
  | nil => exact .nil _
  | cons hs _ ih => exact .cons (hi _ _ _ hs) ih

end Run

/-- The steps that meet a condition on the state before and the label. -/
def Guarded {σ α : Type*} (step : σ → α → σ → Prop) (ok : σ → α → Prop) : σ → α → σ → Prop :=
  fun s a t => step s a t ∧ ok s a

namespace Run

variable {σ α : Type*} {step : σ → α → σ → Prop} {ok : σ → α → Prop} {s t : σ} {xs : List α}

theorem of_guarded (h : Run (Guarded step ok) s xs t) : Run step s xs t :=
  h.imp fun _ _ _ hs => hs.1

/-- The invariant rule for runs whose steps all meet a condition. -/
theorem guarded_invariant {I : σ → Prop} (hI : ∀ s a t, step s a t → ok s a → I s → I t)
    (h : Run (Guarded step ok) s xs t) (hs : I s) : I t :=
  h.invariant (fun s a t hst => hI s a t hst.1 hst.2) hs

/-- Where `I` is kept by the steps that meet the condition and shows as `C`, and a step after which
`C` holds meets the condition, `C` holds all along a run exactly when every step of it does. -/
theorem guarded_iff_of {I C J : σ → Prop} (hdet : ∀ {s a t u}, step s a t → step s a u → t = u)
    (hJ : ∀ {s a t}, step s a t → J s → J t) (hC : ∀ {s}, J s → I s → C s)
    (hI : ∀ {s a t}, step s a t → J s → I s → (ok s a → I t) ∧ (C t → ok s a)) (h : Run step s xs t)
    (hj : J s) (hi : I s) :
    (∀ ys u, ys <+: xs → Run step s ys u → C u) ↔ Run (Guarded step ok) s xs t := by
  induction h with
  | nil s =>
    refine ⟨fun _ => .nil s, fun _ ys u hys hrun => ?_⟩
    obtain rfl := List.prefix_nil.mp hys
    cases hrun
    exact hC hj hi
  | @cons s t' t a xs hst hrest ih =>
    obtain ⟨hkeep, hmeet⟩ := hI hst hj hi
    constructor
    · intro hall
      have hok : ok s a := hmeet (hall [a] t' (List.prefix_append [a] xs) (.single hst))
      refine .cons ⟨hst, hok⟩ ((ih (hJ hst hj) (hkeep hok)).mp fun ys u hys hrun => ?_)
      exact hall (a :: ys) u (List.cons_prefix_cons.mpr ⟨rfl, hys⟩) (.cons hst hrun)
    · intro hguarded ys u hys hrun
      cases hguarded with
      | cons hst' hrest' =>
        obtain rfl := hdet hst hst'.1
        cases hrun with
        | nil => exact hC hj hi
        | cons hst'' hrun =>
          obtain ⟨rfl, htail⟩ := List.cons_prefix_cons.mp hys
          obtain rfl := hdet hst hst''
          exact (ih (hJ hst hj) (hkeep hst'.2)).mpr hrest' _ u htail hrun

/-- Where each step leads to one state and keeps `I` exactly when it meets the condition, `I` holds
all along a run exactly when every step of it does. -/
theorem guarded_iff {I J : σ → Prop} (hdet : ∀ {s a t u}, step s a t → step s a u → t = u)
    (hJ : ∀ {s a t}, step s a t → J s → J t)
    (hI : ∀ {s a t}, step s a t → J s → I s → (I t ↔ ok s a))
    (h : Run step s xs t) (hj : J s) (hi : I s) :
    (∀ ys u, ys <+: xs → Run step s ys u → I u) ↔ Run (Guarded step ok) s xs t :=
  guarded_iff_of hdet hJ (fun _ hi => hi) (fun hs hj hi => ⟨(hI hs hj hi).mpr, (hI hs hj hi).mp⟩) h
    hj hi

/-- Where a step does what is wanted exactly when it meets the condition, all steps of a run do so
exactly when all of them meet it. -/
theorem guarded_iff_each {J : σ → Prop} {G : σ → α → σ → Prop}
    (hJ : ∀ {s a t}, step s a t → J s → J t)
    (hG : ∀ {s a t}, a ∈ xs → step s a t → J s → (G s a t ↔ ok s a)) (hj : J s) :
    Run (fun s a t => step s a t ∧ G s a t) s xs t ↔ Run (Guarded step ok) s xs t := by
  constructor
  · intro h
    induction h with
    | nil s => exact .nil s
    | cons hst _ ih =>
      have hrest := ih fun ha => hG (List.mem_cons_of_mem _ ha)
      exact .cons ⟨hst.1, (hG List.mem_cons_self hst.1 hj).mp hst.2⟩ (hrest (hJ hst.1 hj))
  · intro h
    induction h with
    | nil s => exact .nil s
    | cons hst _ ih =>
      have hrest := ih fun ha => hG (List.mem_cons_of_mem _ ha)
      exact .cons ⟨hst.1, (hG List.mem_cons_self hst.1 hj).mpr hst.2⟩ (hrest (hJ hst.1 hj))

/-- An executable step whose condition is checked before each step. -/
def checked {σ α : Type*} (f : σ → α → Option σ) (ok : σ → α → Prop) [∀ s a, Decidable (ok s a)]
    (s : σ) (a : α) :
    Option σ := if ok s a then f s a else none

theorem checked_eq_some {f : σ → α → Option σ} [∀ s a, Decidable (ok s a)] {a : α} :
    checked f ok s a = some t ↔ f s a = some t ∧ ok s a := by
  unfold checked
  split
  · next hok => simp [hok]
  · next hno => simp [hno]

theorem of_checked {f : σ → α → Option σ} [∀ s a, Decidable (ok s a)]
    (h : xs.foldlM (checked f ok) s = some t) :
    Run (Guarded (fun s a t => f s a = some t) ok) s xs t :=
  (of_foldlM h).imp fun _ _ _ hs => checked_eq_some.mp hs

end Run
