import Mathlib.Data.List.Induction
import Mathlib.Logic.Function.Basic

/-!
# FallibleRun — runs of a step function that may fail

A run feeds a list of inputs to a step function `σ → α → Except ε σ` and stops at the first error.
The rules below package the induction over runs once: `run_total` for invariants that also show that
every step returns, `run_preserves` for invariants of the states that are reached, `run_simulates`
for two machines side by side, `run_stepAt` for components that run interleaved.
-/

namespace FallibleRun

universe u

variable {σ : Type u} {α ε : Type*} (step : σ → α → Except ε σ)

/-- A sequence of two computations that returns went through an intermediate result. -/
theorem exists_of_bind_eq {β γ : Type u} {x : Except ε β} {f : β → Except ε γ} {c : γ}
    (h : x >>= f = .ok c) : ∃ b, x = .ok b ∧ f b = .ok c := by
  cases x with
  | error e => cases h
  | ok b => exact ⟨b, rfl, h⟩

/-- What can be observed of a result shows that there is one. -/
theorem exists_of_map_eq {β γ : Type*} {x : Except ε β} {f : β → γ} {c : γ}
    (h : x.toOption.map f = some c) : ∃ b, x = .ok b ∧ f b = c := by
  cases x with
  | error e => cases h
  | ok b => exact ⟨b, rfl, Option.some.inj h⟩

def run (s : σ) (as : List α) : Except ε σ :=
  as.foldlM step s

@[simp] theorem run_nil (s : σ) : run step s [] = .ok s := rfl

theorem run_append (s : σ) (as bs : List α) :
    run step s (as ++ bs) = (run step s as).bind (fun t => run step t bs) := by
  simp [run, List.foldlM_append, bind]

theorem run_concat (s : σ) (as : List α) (a : α) :
    run step s (as ++ [a]) = (run step s as).bind (fun t => step t a) := by
  rw [run_append]
  refine congrArg (Except.bind (run step s as)) (funext fun t => ?_)
  cases h : step t a with
  | error e => simp [run, bind, Except.bind, h]
  | ok u => simp [run, bind, Except.bind, h, pure, Except.pure]

theorem run_concat_of_ok {s t : σ} {as : List α} (h : run step s as = .ok t) (a : α) :
    run step s (as ++ [a]) = step t a := by
  rw [run_concat, h]
  rfl

/-- A run that ends in a state went through a state after each of its prefixes. -/
theorem exists_of_run_concat {s u : σ} {as : List α} {a : α}
    (h : run step s (as ++ [a]) = .ok u) :
    ∃ t, run step s as = .ok t ∧ step t a = .ok u := by
  rw [run_concat] at h
  exact exists_of_bind_eq h

/-- Whatever every returning step keeps, a returning run keeps; `P` may speak of the inputs so far. -/
theorem run_preserves {P : List α → σ → Prop} {s : σ} (init : P [] s)
    (keep : ∀ as a t u, P as t → step t a = .ok u → P (as ++ [a]) u) :
    ∀ as u, run step s as = .ok u → P as u := by
  intro as
  induction as using List.reverseRecOn with
  | nil =>
      intro u h
      cases h
      exact init
  | append_singleton as a ih =>
      intro u h
      rcases exists_of_run_concat step h with ⟨t, ht, hu⟩
      exact keep as a t u (ih t ht) hu

/-- When every allowed step returns and keeps `P`, every allowed run returns and keeps `P`; the
allowed input lists `Q` are closed under dropping the last input. -/
theorem run_total {Q : List α → Prop} {P : List α → σ → Prop} {s : σ}
    (shorter : ∀ as a, Q (as ++ [a]) → Q as) (init : P [] s)
    (advance : ∀ as a t, Q (as ++ [a]) → P as t → ∃ u, step t a = .ok u ∧ P (as ++ [a]) u) :
    ∀ as, Q as → ∃ u, run step s as = .ok u ∧ P as u := by
  intro as
  induction as using List.reverseRecOn with
  | nil =>
      intro _
      exact ⟨s, rfl, init⟩
  | append_singleton as a ih =>
      intro hQ
      -- the shorter run returns, and its last state allows one more step
      rcases ih (shorter as a hQ) with ⟨t, ht, hP⟩
      rcases advance as a t hQ hP with ⟨u, hu, hP'⟩
      refine ⟨u, ?_, hP'⟩
      rw [run_concat_of_ok step ht, hu]

/-! ## Runs that are broken off -/

/-- The state at the end of the run, or the one in which the first error breaks it off. -/
def lastState (s : σ) : List α → σ
  | [] => s
  | a :: as =>
      match step s a with
      | .ok t => lastState t as
      | .error _ => s

theorem run_cons_of_ok {s t : σ} {a : α} (h : step s a = .ok t) (as : List α) :
    run step s (a :: as) = run step t as := by
  simp [run, List.foldlM_cons, h, bind, Except.bind]

theorem lastState_of_run {s t : σ} {as : List α} (h : run step s as = .ok t) :
    lastState step s as = t := by
  induction as generalizing s with
  | nil =>
      cases h
      rfl
  | cons a as ih =>
      rcases exists_of_bind_eq h with ⟨u, hu, hrest⟩
      rw [lastState, hu]
      exact ih hrest

/-- A run that is broken off has returned so far. -/
theorem exists_prefix_of_lastState (s : σ) (as : List α) :
    ∃ bs, bs.IsPrefix as ∧ run step s bs = .ok (lastState step s as) := by
  induction as generalizing s with
  | nil => exact ⟨[], List.prefix_rfl, rfl⟩
  | cons a as ih =>
      cases h : step s a with
      | error e => exact ⟨[], List.nil_prefix, by simp [lastState, h]⟩
      | ok t =>
          rcases ih t with ⟨bs, hbs, hrun⟩
          refine ⟨a :: bs, List.cons_prefix_cons.2 ⟨rfl, hbs⟩, ?_⟩
          rw [run_cons_of_ok step h, hrun]
          simp [lastState, h]

/-! ## Simulation -/

section

variable {τ β : Type*}

/-- Two computations end alike: in related states, or with the same error. -/
def EndAlike (R : σ → τ → Prop) (x : Except ε σ) (y : Except ε τ) : Prop :=
  (∃ s t, x = .ok s ∧ y = .ok t ∧ R s t) ∨ ∃ e, x = .error e ∧ y = .error e

theorem EndAlike.imp {R R' : σ → τ → Prop} {x : Except ε σ} {y : Except ε τ}
    (h : EndAlike R x y) (himp : ∀ s t, R s t → R' s t) : EndAlike R' x y := by
  rcases h with ⟨s, t, hx, hy, hR⟩ | herror
  · exact Or.inl ⟨s, t, hx, hy, himp s t hR⟩
  · exact Or.inr herror

/-- What holds of every result on the left may be added. -/
theorem EndAlike.and_left {R : σ → τ → Prop} {P : σ → Prop} {x : Except ε σ} {y : Except ε τ}
    (h : EndAlike R x y) (hP : ∀ s, x = .ok s → P s) : EndAlike (fun s t => R s t ∧ P s) x y := by
  rcases h with ⟨s, t, hx, hy, hR⟩ | herror
  · exact Or.inl ⟨s, t, hx, hy, hR, hP s hx⟩
  · exact Or.inr herror

theorem EndAlike.exists_left {R : σ → τ → Prop} {x : Except ε σ} {y : Except ε τ} {t : τ}
    (h : EndAlike R x y) (hy : y = .ok t) : ∃ s, x = .ok s ∧ R s t := by
  rcases h with ⟨s, t', hx, hy', hR⟩ | ⟨e, -, hy'⟩
  · cases hy.symm.trans hy'
    exact ⟨s, hx, hR⟩
  · cases hy.symm.trans hy'

theorem EndAlike.exists_right {R : σ → τ → Prop} {x : Except ε σ} {y : Except ε τ} {s : σ}
    (h : EndAlike R x y) (hx : x = .ok s) : ∃ t, y = .ok t ∧ R s t := by
  rcases h with ⟨s', t, hx', hy, hR⟩ | ⟨e, hx', -⟩
  · cases hx.symm.trans hx'
    exact ⟨t, hy, hR⟩
  · cases hx.symm.trans hx'

/-- When every allowed step of one machine ends like the step of the other on the input `f a`, so do
the runs. -/
theorem run_simulates {step' : τ → β → Except ε τ} {f : α → β} {Q : List α → Prop}
    {R : List α → σ → τ → Prop} {s : σ} {t : τ}
    (shorter : ∀ as a, Q (as ++ [a]) → Q as) (init : R [] s t)
    (advance : ∀ as a s t, Q (as ++ [a]) → R as s t →
      EndAlike (R (as ++ [a])) (step s a) (step' t (f a))) :
    ∀ as, Q as → EndAlike (R as) (run step s as) (run step' t (as.map f)) := by
  intro as
  induction as using List.reverseRecOn with
  | nil =>
      intro _
      exact Or.inl ⟨s, t, rfl, rfl, init⟩
  | append_singleton as a ih =>
      intro hQ
      rw [List.map_append, List.map_cons, List.map_nil]
      rcases ih (shorter as a hQ) with ⟨s', t', hs, ht, hR⟩ | ⟨e, hs, ht⟩
      · rw [run_concat_of_ok step hs, run_concat_of_ok step' ht]
        exact advance as a s' t' hQ hR
      · -- an error ends both runs
        rw [run_concat, run_concat, hs, ht]
        exact Or.inr ⟨e, rfl, rfl⟩

end

/-! ## Independent components -/

section

variable {ι : Type u} [DecidableEq ι]

/-- Component `c.1` takes a step, the others stay. -/
def stepAt (s : ι → σ) (c : ι × α) : Except ε (ι → σ) := do
  let t ← step (s c.1) c.2
  .ok (Function.update s c.1 t)

/-- The inputs of one component, in their order. -/
def inputsOf (i : ι) (cs : List (ι × α)) : List α :=
  cs.filterMap (fun c => if c.1 = i then some c.2 else none)

theorem inputsOf_concat (i : ι) (cs : List (ι × α)) (c : ι × α) :
    inputsOf i (cs ++ [c]) = if c.1 = i then inputsOf i cs ++ [c.2] else inputsOf i cs := by
  by_cases hi : c.1 = i
  · simp [inputsOf, hi]
  · simp [inputsOf, hi]

theorem inputsOf_map {β : Type*} (g : α → β) (i : ι) (cs : List (ι × α)) :
    inputsOf i (cs.map (fun c => (c.1, g c.2))) = (inputsOf i cs).map g := by
  induction cs with
  | nil => rfl
  | cons c cs ih =>
      simp only [inputsOf, List.map_cons, List.filterMap_cons] at ih ⊢
      by_cases hi : c.1 = i
      · simp [hi, ih]
      · simp [hi, ih]

theorem inputsOf_sublist (i : ι) (cs : List (ι × α)) :
    (inputsOf i cs).Sublist (cs.map Prod.snd) := by
  induction cs with
  | nil => exact List.Sublist.slnil
  | cons c cs ih =>
      simp only [inputsOf, List.map_cons, List.filterMap_cons] at ih ⊢
      by_cases hi : c.1 = i
      · simpa [hi] using ih
      · simpa [hi] using ih.cons c.2

/-- In an interleaved run each component runs on its own inputs. -/
theorem run_stepAt {s t : ι → σ} {cs : List (ι × α)} (h : run (stepAt step) s cs = .ok t) (i : ι) :
    run step (s i) (inputsOf i cs) = .ok (t i) := by
  refine run_preserves (stepAt step)
    (P := fun cs t => ∀ i, run step (s i) (inputsOf i cs) = .ok (t i)) (fun _ => rfl) ?_ cs t h i
  intro cs c t u ht hstep j
  rcases exists_of_bind_eq hstep with ⟨v, hv, hu⟩
  cases hu
  rw [inputsOf_concat]
  by_cases hj : c.1 = j
  · subst hj
    rw [if_pos rfl, run_concat_of_ok step (ht c.1), hv, Function.update_self]
  · rw [if_neg hj, ht j, Function.update_of_ne (fun heq => hj heq.symm)]

/-- An interleaving of runs that all return does not fail. -/
theorem exists_run_stepAt {s : ι → σ} {cs : List (ι × α)}
    (h : ∀ i, ∃ t, run step (s i) (inputsOf i cs) = .ok t) :
    ∃ t, run (stepAt step) s cs = .ok t := by
  induction cs using List.reverseRecOn with
  | nil => exact ⟨s, rfl⟩
  | append_singleton cs c ih =>
      have hshort : ∀ i, ∃ t, run step (s i) (inputsOf i cs) = .ok t := by
        intro i
        rcases h i with ⟨t, ht⟩
        rw [inputsOf_concat] at ht
        by_cases hi : c.1 = i
        · rw [if_pos hi] at ht
          rcases exists_of_run_concat step ht with ⟨t', ht', -⟩
          exact ⟨t', ht'⟩
        · rw [if_neg hi] at ht
          exact ⟨t, ht⟩
      rcases ih hshort with ⟨t, ht⟩
      -- the last input is one more step of its own component
      rcases h c.1 with ⟨v, hv⟩
      rw [inputsOf_concat, if_pos rfl, run_concat_of_ok step (run_stepAt step ht c.1)] at hv
      refine ⟨Function.update t c.1 v, ?_⟩
      rw [run_concat_of_ok (stepAt step) ht, stepAt, hv]
      rfl

end

end FallibleRun
