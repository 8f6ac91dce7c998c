import Mathlib.Data.List.Basic
import Mathlib.Logic.Basic

/-!
# Machines: partial step functions, guarded runs, invariants, simulations

A `Machine σ α` is a step function `σ → α → Option σ`: at a state, an action is
either refused (`none`) or taken. Concurrency is the choice of the next action:
one action names one agent and the single shared access it makes, so a list of
actions is one interleaving. Nothing in this file knows what the agents do.

`Runs m ok s s'` are the runs from `s` to `s'` all of whose steps satisfy the
guard `ok` in the state they leave; `ok := fun _ _ => True` gives every
interleaving (`Reach`). The rules the development uses:

* `Runs.invariant` — what holds at the start and survives every guarded step
  holds at the end;
* `Traces` — the same runs with the actions they took, for statements that count;
* `run_runs`, `runWhile_runs` — a schedule the executable `run` (or its guarded form)
  accepts is a run, so a concrete interleaving is checked by evaluation;
* `Simulates.runs` — a relation that matches every concrete step with zero or
  one abstract steps carries runs over.
-/

namespace Ticklog.Lib

universe u v w

/-- A partial, labelled step function. -/
structure Machine (σ : Type u) (α : Type v) where
  step : σ → α → Option σ

namespace Machine

variable {σ : Type u} {α : Type v} (m : Machine σ α)

/-- Runs every action of the schedule in turn; `none` once one is refused. -/
def run : σ → List α → Option σ
  | s, [] => some s
  | s, a :: as =>
    match m.step s a with
    | some s' => run s' as
    | none => none

/-- As `run`, refusing also the actions the guard `ok` forbids. -/
def runWhile (ok : σ → α → Prop) [∀ s a, Decidable (ok s a)] : σ → List α → Option σ
  | s, [] => some s
  | s, a :: as =>
    if ok s a then
      match m.step s a with
      | some s' => runWhile ok s' as
      | none => none
    else none

/-- The runs whose steps all satisfy `ok` in the state they are taken in. -/
inductive Runs (ok : σ → α → Prop) : σ → σ → Prop where
  | refl (s : σ) : Runs ok s s
  | tail {s s' s'' : σ} {a : α} :
      Runs ok s s' → ok s' a → m.step s' a = some s'' → Runs ok s s''

/-- A guarded run with the actions it took, each with the state it left. -/
inductive Traces (ok : σ → α → Prop) : σ → List (σ × α) → σ → Prop where
  | nil (s : σ) : Traces ok s [] s
  | snoc {s s' s'' : σ} {tr : List (σ × α)} {a : α} :
      Traces ok s tr s' → ok s' a → m.step s' a = some s'' →
      Traces ok s (tr ++ [(s', a)]) s''

/-- Every interleaving: the unguarded runs. -/
def Reach (s s' : σ) : Prop := m.Runs (fun _ _ => True) s s'

variable {m}

theorem Runs.trans {ok : σ → α → Prop} {s s' s'' : σ}
    (h₁ : m.Runs ok s s') (h₂ : m.Runs ok s' s'') : m.Runs ok s s'' := by
  induction h₂ with
  | refl => exact h₁
  | tail _ hok hstep ih => exact .tail ih hok hstep

theorem Runs.single {ok : σ → α → Prop} {s s' : σ} {a : α}
    (hok : ok s a) (h : m.step s a = some s') : m.Runs ok s s' :=
  .tail (.refl s) hok h

/-- A weaker guard admits the same run. -/
theorem Runs.mono {ok ok' : σ → α → Prop} (himp : ∀ s a, ok s a → ok' s a) {s s' : σ}
    (h : m.Runs ok s s') : m.Runs ok' s s' := by
  induction h with
  | refl => exact .refl _
  | tail _ hok hstep ih => exact .tail ih (himp _ _ hok) hstep

/-- **The invariant rule**: initial, and preserved by every guarded step. -/
theorem Runs.invariant {ok : σ → α → Prop} {I : σ → Prop}
    (hstep : ∀ s a s', I s → ok s a → m.step s a = some s' → I s')
    {s s' : σ} (h : m.Runs ok s s') (hs : I s) : I s' := by
  induction h with
  | refl => exact hs
  | tail _ hok hst ih => exact hstep _ _ _ ih hok hst

/-- The invariant rule with a quantity that only grows and is bounded at the end:
the bound may be assumed at every step of the run. -/
theorem Runs.invariant_of_bounded {ok : σ → α → Prop} {I : σ → Prop} {f : σ → Nat} {b : Nat}
    (hmono : ∀ s a s', ok s a → m.step s a = some s' → f s ≤ f s')
    (hstep : ∀ s a s', I s → f s' < b → ok s a → m.step s a = some s' → I s')
    {s s' : σ} (h : m.Runs ok s s') (hs : I s) (hb : f s' < b) : I s' := by
  induction h with
  | refl => exact hs
  | tail _ hok hst ih =>
    exact hstep _ _ _ (ih (Nat.lt_of_le_of_lt (hmono _ _ _ hok hst) hb)) hb hok hst

theorem Traces.runs {ok : σ → α → Prop} {s s' : σ} {tr : List (σ × α)}
    (h : m.Traces ok s tr s') : m.Runs ok s s' := by
  induction h with
  | nil => exact .refl _
  | snoc _ hok hst ih => exact .tail ih hok hst

theorem Runs.traces {ok : σ → α → Prop} {s s' : σ} (h : m.Runs ok s s') :
    ∃ tr, m.Traces ok s tr s' := by
  induction h with
  | refl => exact ⟨[], .nil _⟩
  | tail _ hok hst ih =>
    obtain ⟨tr, htr⟩ := ih
    exact ⟨_, .snoc htr hok hst⟩

/-- A schedule's first step, then the rest. -/
theorem run_cons {s s₁ s' : σ} {a : α} {as : List α} (h : m.step s a = some s₁)
    (hrest : m.run s₁ as = some s') : m.run s (a :: as) = some s' := by
  simp only [run, h]
  exact hrest

/-- Two schedules in turn. -/
theorem run_append {s s' : σ} {as : List α} (h : m.run s as = some s') (bs : List α) :
    m.run s (as ++ bs) = m.run s' bs := by
  induction as generalizing s with
  | nil =>
    cases h
    rfl
  | cons a as ih =>
    simp only [run, List.cons_append] at h ⊢
    split at h
    next s₁ hst => exact ih h
    next => cases h

/-- A schedule that leads back to its start may be repeated. -/
theorem run_cycle {s : σ} {as : List α} (h : m.run s as = some s) (n : ℕ) :
    m.run s (List.replicate n as).flatten = some s := by
  induction n with
  | zero => rfl
  | succ n ih =>
    rw [List.replicate_succ, List.flatten_cons, run_append h]
    exact ih

/-- A schedule that `run` accepts is a run. -/
theorem run_runs {s s' : σ} : ∀ {as : List α}, m.run s as = some s' → m.Reach s s' := by
  intro as
  induction as generalizing s with
  | nil =>
    intro h
    simp only [run, Option.some.injEq] at h
    exact h ▸ .refl s
  | cons a as ih =>
    intro h
    simp only [run] at h
    split at h
    next s₁ hst => exact Runs.trans (.single trivial hst) (ih h)
    next => exact absurd h (by simp)

/-- A guarded schedule, one action at a time. -/
theorem runWhile_cons {ok : σ → α → Prop} [∀ s a, Decidable (ok s a)] {s s' : σ} {a : α}
    {as : List α} (h : m.runWhile ok s (a :: as) = some s') :
    ok s a ∧ ∃ s₁, m.step s a = some s₁ ∧ m.runWhile ok s₁ as = some s' := by
  simp only [runWhile] at h
  split at h
  next hok =>
    split at h
    next s₁ hst => exact ⟨hok, s₁, hst, h⟩
    next => cases h
  next => cases h

/-- Without the guard the schedule leads to the same state. -/
theorem runWhile_run {ok : σ → α → Prop} [∀ s a, Decidable (ok s a)] {s s' : σ} {as : List α}
    (h : m.runWhile ok s as = some s') : m.run s as = some s' := by
  induction as generalizing s with
  | nil => exact h
  | cons a as ih =>
    obtain ⟨-, s₁, hst, hrest⟩ := runWhile_cons h
    exact run_cons hst (ih hrest)

/-- A schedule that `runWhile` accepts is a guarded run. -/
theorem runWhile_runs {ok : σ → α → Prop} [∀ s a, Decidable (ok s a)] {s s' : σ} :
    ∀ {as : List α}, m.runWhile ok s as = some s' → m.Runs ok s s' := by
  intro as
  induction as generalizing s with
  | nil =>
    intro h
    simp only [runWhile, Option.some.injEq] at h
    exact h ▸ .refl s
  | cons a as ih =>
    intro h
    obtain ⟨hok, s₁, hst, hrest⟩ := runWhile_cons h
    exact Runs.trans (.single hok hst) (ih hrest)

end Machine

/-- `R` is a forward simulation of `m` by `m'`: each concrete step is matched by
no abstract step or by one. -/
structure Simulates {σ : Type u} {α : Type v} {τ : Type w} {β : Type v}
    (m : Machine σ α) (m' : Machine τ β) (ok : σ → α → Prop) (R : σ → τ → Prop) : Prop where
  step : ∀ s a s' t, R s t → ok s a → m.step s a = some s' →
    R s' t ∨ ∃ b t', m'.step t b = some t' ∧ R s' t'

/-- A simulated run has an abstract run beside it. -/
theorem Simulates.runs {σ : Type u} {α : Type v} {τ : Type w} {β : Type v}
    {m : Machine σ α} {m' : Machine τ β} {ok : σ → α → Prop} {R : σ → τ → Prop}
    (hsim : Simulates m m' ok R) {s s' : σ} {t : τ} (h : m.Runs ok s s') (hR : R s t) :
    ∃ t', m'.Reach t t' ∧ R s' t' := by
  induction h with
  | refl => exact ⟨t, .refl t, hR⟩
  | tail _ hok hst ih =>
    obtain ⟨t₁, hr, hR₁⟩ := ih
    rcases hsim.step _ _ _ _ hR₁ hok hst with hR' | ⟨b, t₂, hb, hR'⟩
    · exact ⟨t₁, hr, hR'⟩
    · exact ⟨t₂, .tail hr trivial hb, hR'⟩

end Ticklog.Lib
