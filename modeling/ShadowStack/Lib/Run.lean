import Mathlib.Data.List.Basic
import Mathlib.Logic.Function.Basic

/-!
# Labelled runs and the invariant rule

A transition system is a relation `step s i s'` read as "from `s`, the event `i` may lead to
`s'`".  A `Run` is a finite sequence of steps with the list of its events, latest event last:
growing at the end is what makes the invariant rule a plain induction, since the state before the
last step is then itself reached by a run.

Side conditions on events ("every step of the run meets `C`") are expressed by strengthening the
step relation with `Guarded`, so that the invariant rule applies to them unchanged.
-/

universe u v

namespace ShadowStack.Lib

variable {σ : Type u} {ι : Type v}

/-- `Run step s is s'`: the events `is` lead from `s` to `s'`, one `step` for each. -/
inductive Run (step : σ → ι → σ → Prop) (s : σ) : List ι → σ → Prop
  /-- No event, no change. -/
  | nil : Run step s [] s
  /-- One more event at the end. -/
  | snoc {is : List ι} {i : ι} {t t' : σ} : Run step s is t → step t i t' → Run step s (is ++ [i]) t'

/-- The steps of `step` whose event meets `cond` in the state it happens in. -/
def Guarded (cond : σ → ι → Prop) (step : σ → ι → σ → Prop) : σ → ι → σ → Prop :=
  fun s i s' ↦ cond s i ∧ step s i s'

namespace Run

variable {step step' : σ → ι → σ → Prop} {s t : σ} {is : List ι}

/-- **The invariant rule.**  What holds initially and is kept by every step holds after every
run. -/
theorem invariant {I : σ → Prop} (hinit : I s)
    (hstep : ∀ t i t', I t → step t i t' → I t') (h : Run step s is t) : I t := by
  induction h with
  | nil => exact hinit
  | snoc _ hs ih => exact hstep _ _ _ ih hs

/-- A run of a system is a run of any larger system. -/
theorem mono (hstep : ∀ t i t', step t i t' → step' t i t') (h : Run step s is t) :
    Run step' s is t := by
  induction h with
  | nil => exact .nil
  | snoc _ hs ih => exact ih.snoc (hstep _ _ _ hs)

/-- The same for steps in states that meet an invariant. -/
theorem mono_of_invariant {I : σ → Prop} (hinit : I s) (hI : ∀ t i t', I t → step t i t' → I t')
    (hstep : ∀ t i t', I t → step t i t' → step' t i t') (h : Run step s is t) : Run step' s is t := by
  induction h with
  | nil => exact .nil
  | snoc hr hs ih => exact ih.snoc (hstep _ _ _ (hr.invariant hinit hI) hs)

/-- A run without events stays where it is. -/
theorem nil_inv (h : Run step s [] t) : t = s := by
  generalize hl : ([] : List ι) = l at h
  cases h with
  | nil => rfl
  | snoc => simp at hl

/-- The last step of a run. -/
theorem snoc_inv {i : ι} (h : Run step s (is ++ [i]) t) : ∃ u, Run step s is u ∧ step u i t := by
  generalize hl : is ++ [i] = l at h
  cases h with
  | nil => simp at hl
  | snoc hr hs =>
      obtain ⟨rfl, rfl⟩ := List.append_singleton_inj.mp hl
      exact ⟨_, hr, hs⟩

/-- **The rule for two runs.**  A relation that two systems keep when they take the same event
holds after two runs of the same events. -/
theorem relate {R : σ → σ → Prop} {s₂ t₂ : σ} (hinit : R s s₂)
    (hstep : ∀ t i t' u u', R t u → step t i t' → step' u i u' → R t' u')
    (h : Run step s is t) (h₂ : Run step' s₂ is t₂) : R t t₂ := by
  induction h generalizing t₂ with
  | nil =>
      obtain rfl := h₂.nil_inv
      exact hinit
  | snoc _ hs ih =>
      obtain ⟨u, hu, hs₂⟩ := h₂.snoc_inv
      exact hstep _ _ _ _ _ (ih hu) hs hs₂

/-- A one-event run. -/
theorem single {i : ι} (h : step s i t) : Run step s [i] t := Run.nil.snoc h

/-- One run after another. -/
theorem trans {u : σ} {js : List ι} (h : Run step s is t) (h' : Run step t js u) :
    Run step s (is ++ js) u := by
  induction h' with
  | nil => rwa [List.append_nil]
  | snoc _ hs ih =>
      rw [← List.append_assoc]
      exact ih.snoc hs

/-- The runs of a system whose steps are computed. -/
theorem of_foldlM {f : σ → ι → Option σ} (hstep : ∀ s i s', f s i = some s' → step s i s')
    (h : is.foldlM f s = some t) : Run step s is t := by
  induction is generalizing s with
  | nil =>
      obtain rfl : s = t := Option.some.inj h
      exact .nil
  | cons i is ih =>
      rw [List.foldlM_cons, Option.bind_eq_bind, Option.bind_eq_some_iff] at h
      obtain ⟨u, hu, hrest⟩ := h
      exact (single (hstep s i u hu)).trans (ih hrest)

end Run

/-! ## Simulation -/

section Simulation

universe w

variable {τ : Type w} {step : σ → ι → σ → Prop} {step' : τ → ι → τ → Prop} {vis : ι → Bool} {R : σ → τ → Prop}
  {s : σ} {t : τ}

/-- Every run of the one system has a run of the other with the same visible events that ends in a related
state. -/
def Simulated (vis : ι → Bool) (step : σ → ι → σ → Prop) (step' : τ → ι → τ → Prop) (R : σ → τ → Prop) (s : σ)
    (t : τ) : Prop :=
  ∀ is s', Run step s is s' → ∃ is' t', Run step' t is' t' ∧ is'.filter vis = is.filter vis ∧ R s' t'

/-- **The simulation rule.**  It is enough that each step has such a run. -/
theorem Simulated.of_step (hinit : R s t) (hstep : ∀ s i s' t, R s t → step s i s' →
    ∃ is' t', Run step' t is' t' ∧ is'.filter vis = [i].filter vis ∧ R s' t') :
    Simulated vis step step' R s t := by
  intro is s' h
  induction h with
  | nil => exact ⟨[], t, .nil, rfl, hinit⟩
  | snoc _ hs ih =>
      obtain ⟨is₁, t₁, hr₁, hvis₁, hR₁⟩ := ih
      obtain ⟨is₂, t₂, hr₂, hvis₂, hR₂⟩ := hstep _ _ _ _ hR₁ hs
      exact ⟨is₁ ++ is₂, t₂, hr₁.trans hr₂, by rw [List.filter_append, List.filter_append, hvis₁, hvis₂], hR₂⟩

/-- A weaker relation. -/
theorem Simulated.mono {R' : σ → τ → Prop} (h : Simulated vis step step' R s t) (hR : ∀ s t, R s t → R' s t) :
    Simulated vis step step' R' s t := by
  intro is s' hr
  obtain ⟨is', t', hr', hvis, hR'⟩ := h is s' hr
  exact ⟨is', t', hr', hvis, hR _ _ hR'⟩

/-- One simulation after another. -/
theorem Simulated.trans {υ : Type*} {step'' : υ → ι → υ → Prop} {R' : τ → υ → Prop} {u : υ}
    (h : Simulated vis step step' R s t) (h' : Simulated vis step' step'' R' t u) :
    Simulated vis step step'' (fun s u ↦ ∃ t, R s t ∧ R' t u) s u := by
  intro is s' hr
  obtain ⟨is₁, t₁, hr₁, hvis₁, hR⟩ := h is s' hr
  obtain ⟨is₂, u₂, hr₂, hvis₂, hR'⟩ := h' is₁ t₁ hr₁
  exact ⟨is₂, u₂, hr₂, hvis₂.trans hvis₁, t₁, hR, hR'⟩

end Simulation

/-- **One party moves.**  Of parties that are in the state together, the one that moved has its new state,
or none if it has left; the others have the state they had. -/
theorem update_eq_some [DecidableEq ι] {f : ι → Option σ} {n m : ι} {x : Option σ} {y : σ}
    (h : Function.update f n x m = some y) : (m = n ∧ x = some y) ∨ (m ≠ n ∧ f m = some y) := by
  by_cases hm : m = n
  · rw [hm, Function.update_self] at h
    exact .inl ⟨hm, h⟩
  · rw [Function.update_of_ne hm] at h
    exact .inr ⟨hm, h⟩

/-- **The rank rule.**  A sequence of states whose rank drops as long as `D` does not hold gets to
a state where it does. -/
theorem exists_of_rank {D : σ → Prop} (f : Nat → σ) (rank : σ → Nat)
    (hdec : ∀ k, ¬D (f k) → rank (f (k + 1)) < rank (f k)) : ∃ k, D (f k) := by
  by_contra hnever
  have hbound : ∀ k, rank (f k) + k ≤ rank (f 0) := by
    intro k
    induction k with
    | zero => exact Nat.le_refl _
    | succ k ih =>
        have hlt := hdec k fun hD ↦ hnever ⟨k, hD⟩
        omega
  have := hbound (rank (f 0) + 1)
  omega

end ShadowStack.Lib
