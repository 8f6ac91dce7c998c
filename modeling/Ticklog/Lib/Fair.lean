import Mathlib.Order.WellFounded
import Ticklog.Lib.Machine

/-!
# Infinite behaviours, weak fairness and leads-to

A `Behaviour` of a machine runs for ever: at each time it takes one action or stands
still. `WeaklyFair a` asks that an action which stays enabled is taken some day, and
nothing else is promised to progress. The rules for what happens some day:

* `Ranked.leadsTo` — the fair action lowers a well-founded rank and the other actions
  leave it alone, until the goal is reached;
* `LeadsTo.trans` — chaining;
* `Behaviour.runs` — what was reached at two times is connected by a guarded run, so
  invariants of runs hold at every time.

`Behaviour.ofRun` makes a finite schedule a behaviour; it is fair to every action that is
refused where the schedule ends.
-/

namespace Ticklog.Lib

universe u v w

/-- What a machine does over all times. -/
structure Behaviour {σ : Type u} {α : Type v} (m : Machine σ α) where
  state : ℕ → σ
  /-- The action taken at a time, if any. -/
  act : ℕ → Option α
  moves : ∀ n a, act n = some a → m.step (state n) a = some (state (n + 1))
  stutters : ∀ n, act n = none → state (n + 1) = state n

namespace Behaviour

variable {σ : Type u} {α : Type v} {m : Machine σ α} (b : Behaviour m)

/-- Every action taken satisfies `ok` where it is taken. -/
def Obeys (ok : σ → α → Prop) : Prop := ∀ n a, b.act n = some a → ok (b.state n) a

/-- An action that stays enabled is taken. -/
def WeaklyFair (a : α) : Prop :=
  ∀ n, (∀ k, n ≤ k → (m.step (b.state k) a).isSome) → ∃ k, n ≤ k ∧ b.act k = some a

/-- Whenever `P` holds, `Q` holds then or later. -/
def LeadsTo (P Q : σ → Prop) : Prop := ∀ n, P (b.state n) → ∃ k, n ≤ k ∧ Q (b.state k)

variable {b}

/-- Two times are connected by a run. -/
theorem runs {ok : σ → α → Prop} (h : b.Obeys ok) {n k : ℕ} (hnk : n ≤ k) :
    m.Runs ok (b.state n) (b.state k) := by
  induction k, hnk using Nat.le_induction with
  | base => exact .refl _
  | succ k _ ih =>
    cases hact : b.act k with
    | none =>
      rw [b.stutters k hact]
      exact ih
    | some a => exact .tail ih (h k a hact) (b.moves k a hact)

theorem obeys_true : b.Obeys fun _ _ => True := fun _ _ _ => trivial

/-- What every step keeps, and standing still does, is kept from a time on. -/
theorem stays {P : σ → Prop} {n : ℕ} (hP : P (b.state n))
    (hstep : ∀ k a, n ≤ k → b.act k = some a → P (b.state k) → P (b.state (k + 1))) {k : ℕ}
    (hnk : n ≤ k) : P (b.state k) := by
  induction k, hnk using Nat.le_induction with
  | base => exact hP
  | succ k hk ih =>
    cases hact : b.act k with
    | none =>
      rw [b.stutters k hact]
      exact ih
    | some a => exact hstep k a hk hact ih

namespace LeadsTo

variable {P Q R : σ → Prop}

theorem trans (h : b.LeadsTo P Q) (h' : b.LeadsTo Q R) : b.LeadsTo P R := by
  intro n hP
  obtain ⟨k, hnk, hQ⟩ := h n hP
  obtain ⟨l, hkl, hR⟩ := h' k hQ
  exact ⟨l, Nat.le_trans hnk hkl, hR⟩

end LeadsTo

/-- How the fair action `a` brings the system from `P` to `Q`, where `I` holds at every
time: enabled until then, it lowers the rank, and nobody else moves the rank. -/
structure Ranked {β : Type w} [LT β] (m : Machine σ α) (a : α) (rank : σ → β)
    (I P Q : σ → Prop) : Prop where
  enabled : ∀ s, I s → P s → ¬ Q s → (m.step s a).isSome
  lowers : ∀ s s', I s → I s' → P s → ¬ Q s → m.step s a = some s' →
    Q s' ∨ P s' ∧ rank s' < rank s
  others : ∀ s c s', I s → I s' → P s → ¬ Q s → c ≠ a → m.step s c = some s' →
    Q s' ∨ P s' ∧ rank s' = rank s

/-- One round: the goal, or a lower rank. -/
theorem Ranked.round {β : Type w} [LT β] {a : α} {rank : σ → β} {I P Q : σ → Prop}
    (h : Ranked m a rank I P Q) (hfair : b.WeaklyFair a) {n : ℕ}
    (hI : ∀ k, n ≤ k → I (b.state k)) (hP : P (b.state n)) :
    ∃ k, n ≤ k ∧ (Q (b.state k) ∨ P (b.state k) ∧ rank (b.state k) < rank (b.state n)) := by
  by_contra hno
  push Not at hno
  -- until the fair action is taken, `P` and the rank stay
  have hstay : ∀ k, n ≤ k → P (b.state k) ∧ rank (b.state k) = rank (b.state n) := by
    intro k hnk
    refine stays (P := fun s => P s ∧ rank s = rank (b.state n)) ⟨hP, rfl⟩ ?_ hnk
    rintro j c hj hact ⟨hPj, hrank⟩
    have hstep := b.moves j c hact
    have hnext := hno (j + 1) (Nat.le_succ_of_le hj)
    by_cases hc : c = a
    · subst hc
      rcases h.lowers _ _ (hI j hj) (hI _ (Nat.le_succ_of_le hj)) hPj (hno j hj).1 hstep with
        hQ | ⟨hP', hlt⟩
      · exact absurd hQ hnext.1
      · exact absurd (hrank ▸ hlt) (hnext.2 hP')
    · rcases h.others _ c _ (hI j hj) (hI _ (Nat.le_succ_of_le hj)) hPj (hno j hj).1 hc hstep with
        hQ | ⟨hP', heq⟩
      · exact absurd hQ hnext.1
      · exact ⟨hP', heq.trans hrank⟩
  obtain ⟨k, hnk, hact⟩ := hfair n fun k hk =>
    h.enabled _ (hI k hk) (hstay k hk).1 (hno k hk).1
  have hnext := hno (k + 1) (Nat.le_succ_of_le hnk)
  rcases h.lowers _ _ (hI k hnk) (hI _ (Nat.le_succ_of_le hnk)) (hstay k hnk).1 (hno k hnk).1
    (b.moves k a hact) with hQ | ⟨hP', hlt⟩
  · exact hnext.1 hQ
  · exact hnext.2 hP' ((hstay k hnk).2 ▸ hlt)

/-- **The rank rule**: a fair action that lowers a well-founded rank reaches the goal. `I`
need only hold from the start of the walk on. -/
theorem Ranked.reaches {β : Type w} [LT β] [WellFoundedLT β] {a : α} {rank : σ → β}
    {I P Q : σ → Prop} (h : Ranked m a rank I P Q) (hfair : b.WeaklyFair a) {n : ℕ}
    (hI : ∀ k, n ≤ k → I (b.state k)) (hP : P (b.state n)) :
    ∃ k, n ≤ k ∧ Q (b.state k) := by
  generalize hw : rank (b.state n) = w
  induction w using WellFoundedLT.induction generalizing n with
  | ind w ih =>
    obtain ⟨k, hnk, hQ | ⟨hP', hlt⟩⟩ := h.round hfair hI hP
    · exact ⟨k, hnk, hQ⟩
    · obtain ⟨l, hkl, hQ⟩ := ih _ (hw ▸ hlt) (fun j hj => hI j (Nat.le_trans hnk hj)) hP' rfl
      exact ⟨l, Nat.le_trans hnk hkl, hQ⟩

/-- The rank rule along a whole behaviour. -/
theorem Ranked.leadsTo {β : Type w} [LT β] [WellFoundedLT β] {a : α} {rank : σ → β}
    {I P Q : σ → Prop} (h : Ranked m a rank I P Q) (hfair : b.WeaklyFair a)
    (hI : ∀ n, I (b.state n)) : b.LeadsTo P Q :=
  fun _ hP => h.reaches hfair (fun k _ => hI k) hP

/-! ## Schedules as behaviours -/

/-- The states of a schedule, and its last state from then on. -/
def statesOf (m : Machine σ α) (s : σ) : List α → ℕ → σ
  | [], _ => s
  | _ :: _, 0 => s
  | a :: as, n + 1 =>
    match m.step s a with
    | some s' => statesOf m s' as n
    | none => s

theorem statesOf_zero (s : σ) (as : List α) : statesOf m s as 0 = s := by
  cases as <;> rfl

theorem statesOf_move {s s' : σ} {as : List α} (h : m.run s as = some s') :
    ∀ {n : ℕ} {a : α}, as[n]? = some a →
      m.step (statesOf m s as n) a = some (statesOf m s as (n + 1)) := by
  induction as generalizing s with
  | nil =>
    intro n a hget
    cases hget
  | cons c as ih =>
    intro n a hget
    simp only [Machine.run] at h
    split at h
    next s₁ hst =>
      cases n with
      | zero =>
        cases hget
        simp only [statesOf, hst, statesOf_zero]
      | succ n =>
        simp only [statesOf, hst]
        exact ih h hget
    next => cases h

theorem statesOf_end {s s' : σ} {as : List α} (h : m.run s as = some s') :
    ∀ {n : ℕ}, as.length ≤ n → statesOf m s as n = s' := by
  induction as generalizing s with
  | nil =>
    intro n _
    cases h
    cases n <;> rfl
  | cons c as ih =>
    intro n hn
    simp only [Machine.run] at h
    split at h
    next s₁ hst =>
      cases n with
      | zero => exact absurd hn (by simp)
      | succ n =>
        simp only [statesOf, hst]
        exact ih h (Nat.le_of_succ_le_succ hn)
    next => cases h

/-- A schedule the machine accepts, followed by rest. -/
def ofRun {s s' : σ} (as : List α) (h : m.run s as = some s') : Behaviour m where
  state := statesOf m s as
  act n := as[n]?
  moves _ _ hget := statesOf_move h hget
  stutters n hnone := by
    have hn : as.length ≤ n := List.getElem?_eq_none_iff.mp hnone
    rw [statesOf_end h hn, statesOf_end h (Nat.le_succ_of_le hn)]

/-- A guarded schedule obeys its guard. -/
theorem ofRun_obeys {ok : σ → α → Prop} [∀ s a, Decidable (ok s a)] {s s' : σ} {as : List α}
    (h : m.runWhile ok s as = some s') : (ofRun as (Machine.runWhile_run h)).Obeys ok := by
  suffices hall : ∀ {as : List α} {s : σ}, m.runWhile ok s as = some s' →
      ∀ n a, as[n]? = some a → ok (statesOf m s as n) a from hall h
  intro as
  induction as with
  | nil =>
    intro s _ n a hget
    cases hget
  | cons c as ih =>
    intro s h n a hget
    obtain ⟨hok, s₁, hst, hrest⟩ := Machine.runWhile_cons h
    cases n with
    | zero =>
      cases hget
      exact hok
    | succ n =>
      simp only [statesOf, hst]
      exact ih hrest n a hget

/-- Fair to the actions that are refused at its end. -/
theorem ofRun_fair {s s' : σ} {as : List α} (h : m.run s as = some s') {a : α}
    (hend : m.step s' a = none) : (ofRun as h).WeaklyFair a := by
  intro n hen
  have hlast := hen (max n as.length) (Nat.le_max_left _ _)
  rw [show (ofRun as h).state (max n as.length) = s' from statesOf_end h (Nat.le_max_right _ _),
    hend] at hlast
  cases hlast

end Behaviour

end Ticklog.Lib
