import Mathlib

/-!
# Executions of a program, step by step

A program that changes a state in atomic steps, each of which may leave a mark in a log, is a
relation `step s es s'`: from `s` to `s'`, appending the **events** `es`. `Execution step s₀ es s`
says that some sequence of steps leads from `s₀` to `s`, with the log `es`.

Threads that share a state are **interleaved** (`interleave`): the state is the shared part
together with the local state of every thread, and one thread at a time takes a step. A
condition on steps is a relation of its own (`guarded`), so that a statement about the runs all
of whose steps meet a condition is a statement about executions.
-/

namespace Rust

variable {σ ε θ ι : Type}

/-- The state `s` is reached from `s₀` with the log `es`. -/
inductive Execution (step : σ → List ε → σ → Prop) (s₀ : σ) : List ε → σ → Prop
  | start : Execution step s₀ [] s₀
  | next {es es' : List ε} {s s' : σ} (run : Execution step s₀ es s) (h : step s es' s') :
      Execution step s₀ (es ++ es') s'

/-- The steps that meet a condition on the state before them and on the events they log. -/
def guarded (cond : σ → List ε → Prop) (step : σ → List ε → σ → Prop) (s : σ) (es : List ε)
    (s' : σ) : Prop := step s es s' ∧ cond s es

/-- Threads with local states in `θ` and a shared state in `σ`: one of them takes a step. -/
def interleave [DecidableEq ι] (step : σ → θ → List ε → σ → θ → Prop) (s : σ × (ι → θ))
    (es : List ε) (s' : σ × (ι → θ)) : Prop :=
  ∃ i t, step s.1 (s.2 i) es s'.1 t ∧ s'.2 = Function.update s.2 i t

/-- A single thread. -/
def alone (step : σ → θ → List ε → σ → θ → Prop) (s : σ × θ) (es : List ε) (s' : σ × θ) : Prop :=
  step s.1 s.2 es s'.1 s'.2

namespace Execution

variable {step step' : σ → List ε → σ → Prop} {s₀ s : σ} {es : List ε}

theorem invariant {I : List ε → σ → Prop} (hstart : I [] s₀)
    (hstep : ∀ {es es' : List ε} {s s' : σ}, Execution step s₀ es s → I es s → step s es' s' →
      I (es ++ es') s')
    (h : Execution step s₀ es s) : I es s := by
  induction h with
  | start => exact hstart
  | next run hnext ih => exact hstep run ih hnext

theorem mono (hle : ∀ {s : σ} {es : List ε} {s' : σ}, step s es s' → step' s es s')
    (h : Execution step s₀ es s) : Execution step' s₀ es s := by
  induction h with
  | start => exact .start
  | next _ hnext ih => exact ih.next (hle hnext)

/-- Every entry of the log was written by a step, from a state reached with what the log held
before. -/
theorem exists_step_of_log {before after : List ε} {e : ε}
    (h : Execution step s₀ (before ++ e :: after) s) :
    ∃ es₁ s₁ l₁ l₂ s₂, Execution step s₀ es₁ s₁ ∧ step s₁ (l₁ ++ e :: l₂) s₂ ∧
      before = es₁ ++ l₁ := by
  generalize hlog : before ++ e :: after = log at h
  induction h generalizing after with
  | start => simp at hlog
  | @next es _ s s' run hnext =>
    rcases List.append_eq_append_iff.mp hlog with ⟨l₁, hes, htail⟩ | ⟨rest, rfl, htail⟩
    · -- the entry is in the log before the step, or it is the first one the step writes
      cases l₁ with
      | nil =>
        refine ⟨es, s, [], after, s', run, ?_, by simpa using hes.symm⟩
        simpa using htail ▸ hnext
      | cons => simp_all
    · exact ⟨es, s, rest, after, s', run, htail ▸ hnext, rfl⟩

variable {move : σ → θ → List ε → σ → θ → Prop}

theorem next_thread [DecidableEq ι] {cond : σ × (ι → θ) → List ε → Prop} {s₀ : σ × (ι → θ)}
    {s s' : σ} {threads : ι → θ} {t : θ} {es' : List ε}
    (run : Execution (guarded cond (interleave move)) s₀ es (s, threads)) (i : ι)
    (hmove : move s (threads i) es' s' t) (hcond : cond (s, threads) es') :
    Execution (guarded cond (interleave move)) s₀ (es ++ es')
      (s', Function.update threads i t) :=
  run.next ⟨⟨i, t, hmove, rfl⟩, hcond⟩

theorem interleave_of_alone {s₀ s : σ × θ} (h : Execution (alone move) s₀ es s) :
    Execution (interleave move) (s₀.1, fun _ : Unit => s₀.2) es (s.1, fun _ => s.2) := by
  induction h with
  | start => exact .start
  | next _ hnext ih =>
    refine ih.next ⟨(), _, hnext, ?_⟩
    funext i
    simp

/-- **Simulation.** If the states of a program and of a more abstract one are related at the
start, and every step from related states is one abstract step with the same events, or logs
nothing and is none, then every execution has an abstract one with the same log. -/
theorem simulate {τ : Type} {R : σ → τ → Prop} {abstract : τ → List ε → τ → Prop} {t₀ : τ}
    (hstart : R s₀ t₀)
    (hstep : ∀ {s : σ} {es : List ε} {s' : σ} {t : τ}, R s t → step s es s' →
      (es = [] ∧ R s' t) ∨ ∃ t', abstract t es t' ∧ R s' t')
    (h : Execution step s₀ es s) : ∃ t, Execution abstract t₀ es t ∧ R s t := by
  induction h with
  | start => exact ⟨t₀, .start, hstart⟩
  | next _ hnext ih =>
    obtain ⟨t, habs, hR⟩ := ih
    rcases hstep hR hnext with ⟨rfl, hR'⟩ | ⟨t', hnext', hR'⟩
    · rw [List.append_nil]
      exact ⟨t, habs, hR'⟩
    · exact ⟨t', habs.next hnext', hR'⟩

/-- **Invariants of interleaved threads.** A property `G` of the log and the shared state, and a
property `F` of the log and one thread's state that a longer log keeps, hold in every state
reached when they hold at the start and a step of a thread keeps both. -/
theorem invariant_interleave [DecidableEq ι] {s₀ : σ × (ι → θ)} {s : σ × (ι → θ)}
    {G : List ε → σ → Prop} {F : List ε → θ → Prop}
    (hmono : ∀ {es : List ε} (es' : List ε) {t : θ}, F es t → F (es ++ es') t) (hG : G [] s₀.1)
    (hF : ∀ i, F [] (s₀.2 i))
    (hstep : ∀ {es es' : List ε} {s s' : σ} {t t' : θ}, G es s → F es t → move s t es' s' t' →
      G (es ++ es') s' ∧ F (es ++ es') t') (h : Execution (interleave move) s₀ es s) :
    G es s.1 ∧ ∀ i, F es (s.2 i) := by
  refine invariant (I := fun es s => G es s.1 ∧ ∀ i, F es (s.2 i)) ⟨hG, hF⟩ ?_ h
  rintro es es' s s' - ⟨hGs, hFs⟩ ⟨i, t, hmove, hupd⟩
  obtain ⟨hG', hF'⟩ := hstep hGs (hFs i) hmove
  refine ⟨hG', fun j => ?_⟩
  rw [hupd]
  by_cases hj : j = i
  · simp_all
  · rw [Function.update_of_ne hj]
    exact hmono es' (hFs j)

end Execution

end Rust
