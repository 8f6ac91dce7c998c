import Mathlib.Logic.Function.Basic
import Ticklog.Lib.Machine

/-!
# Waiting on the segment pool (`src/segments.rs`)

The pool's mutex and its condition variable, access by access: `try_take_spare`,
`take_pooled` and `recycle`, each lock, each load of `live` and each notification on its
own. Any number of agents call them, the drain among them, in any order. A segment is its
identity, and what is done to it outside the pool does not matter here.

`recycle` pushes under the lock but notifies after it, and `take_pooled` locks once to pop
and once more to wait. `asleep` is an agent inside `wait` that nobody has notified.
-/

namespace Ticklog

open Lib

/-- Where an agent stands in a call on the pool. -/
inductive PoolPc where
  /-- Not in a call. -/
  | outside
  /-- `try_take_spare` of `reserve_with_policy` or `initial_ring`: lock the pool. -/
  | claimLock
  /-- Locked: pop, unlock, return. -/
  | claim
  /-- `take_pooled`, top of the loop: lock the pool. -/
  | tryLock
  /-- Locked: pop and unlock. -/
  | tryTake
  /-- Load the `live` flag of the caller's current ring. -/
  | testLive
  /-- Lock the pool again. -/
  | waitLock
  /-- Locked: enter `wait`, which unlocks. -/
  | wait
  | asleep
  /-- Notified, or woken unasked: lock the pool. -/
  | woken
  /-- `wait` returned with the lock: pop and unlock. -/
  | rePop
  /-- `recycle(ring)`: lock the pool. -/
  | pushLock (ring : Nat)
  /-- Locked: push and unlock. -/
  | push (ring : Nat)
  /-- `notify_all`. -/
  | notify
deriving DecidableEq, Repr

/-- The calls on the pool. -/
inductive PoolCall where
  | tryTakeSpare
  | takePooled
  | recycle (ring : Nat)
deriving DecidableEq, Repr

/-- The pool and its callers. -/
structure Pool where
  /-- The segments waiting to be claimed, last pushed first. -/
  spares : List Nat
  /-- Who holds the mutex. -/
  holder : Option Nat
  /-- The `live` flag of each agent's current ring. -/
  live : Nat → Bool
  pc : Nat → PoolPc

inductive PoolAction where
  /-- Agent `t` starts a call. -/
  | call (t : Nat) (c : PoolCall)
  /-- Agent `t`'s next access. -/
  | next (t : Nat)
  /-- Agent `t` wakes unasked. -/
  | wake (t : Nat)
  /-- The `live` flag of agent `t`'s current ring is stored to. -/
  | setLive (t : Nat) (live : Bool)
deriving DecidableEq, Repr

namespace Pool

/-- Nobody is in a call. -/
def init (spares : List Nat) (live : Nat → Bool) : Pool where
  spares := spares
  holder := none
  live := live
  pc := fun _ => .outside

def goto (s : Pool) (t : Nat) (pc : PoolPc) : Pool :=
  { s with pc := Function.update s.pc t pc }

/-- Agent `t` locks the mutex and goes on at `pc`. -/
def acquire (s : Pool) (t : Nat) (pc : PoolPc) : Option Pool :=
  match s.holder with
  | none => some ({ s with holder := some t }.goto t pc)
  | some _ => none

/-- Agent `t` unlocks the mutex and goes on at `pc`. -/
def release (s : Pool) (t : Nat) (pc : PoolPc) : Pool := { s with holder := none }.goto t pc

/-- Pop a segment under the lock: with one the call returns, else it goes on at `pc`. -/
def popOr (s : Pool) (t : Nat) (pc : PoolPc) : Pool :=
  match s.spares with
  | _ :: rest => { s with spares := rest }.release t .outside
  | [] => s.release t pc

/-- Wakes every agent asleep on the condition variable. -/
def notifyAll (s : Pool) : Pool :=
  { s with pc := fun t => if s.pc t = .asleep then .woken else s.pc t }

def start : PoolCall → PoolPc
  | .tryTakeSpare => .claimLock
  | .takePooled => .tryLock
  | .recycle ring => .pushLock ring

/-- Agent `t`'s next access. -/
def next (t : Nat) (s : Pool) : Option Pool :=
  match s.pc t with
  | .outside | .asleep => none
  | .claimLock => s.acquire t .claim
  | .claim => some (s.popOr t .outside)
  | .tryLock => s.acquire t .tryTake
  | .tryTake => some (s.popOr t .testLive)
  | .testLive => some (s.goto t (if s.live t then .waitLock else .outside))
  | .waitLock => s.acquire t .wait
  | .wait => some (s.release t .asleep)
  | .woken => s.acquire t .rePop
  | .rePop => some (s.popOr t .tryLock)
  | .pushLock ring => s.acquire t (.push ring)
  | .push ring => some ({ s with spares := ring :: s.spares }.release t .notify)
  | .notify => some (s.notifyAll.goto t .outside)

def step (s : Pool) : PoolAction → Option Pool
  | .call t c => if s.pc t = .outside then some (s.goto t (start c)) else none
  | .next t => next t s
  | .wake t => if s.pc t = .asleep then some (s.goto t .woken) else none
  | .setLive t live => some { s with live := Function.update s.live t live }

end Pool

/-- The pool as a machine. -/
def pool : Machine Pool PoolAction where
  step := Pool.step

namespace Pool

/-! ## Lost wakeups -/

/-- Some agent has pushed a segment and is about to notify. -/
def NotifyPending (s : Pool) : Prop := ∃ t, s.pc t = .notify

/-- No agent sleeps beside a segment without a wakeup on its way. -/
def NoLostWakeup (s : Pool) : Prop :=
  ∀ t, s.pc t = .asleep → s.spares ≠ [] → NotifyPending s

/-- An agent enters `wait` only while the pool is still empty, or while a notification of
the segment in it is on its way. -/
def WaitsOnEmpty (s : Pool) (a : PoolAction) : Prop :=
  ∀ t, a = .next t → s.pc t = .wait → s.spares = [] ∨ NotifyPending s

variable {s s' : Pool} {t t' : Nat}

theorem goto_pc (pc : PoolPc) : (s.goto t pc).pc t' = if t' = t then pc else s.pc t' := by
  exact Function.update_apply s.pc t pc t'

/-- What an access may do to the others' positions, and to the one's own. -/
structure Moves (s s' : Pool) (t : Nat) : Prop where
  others : ∀ t', t' ≠ t → s'.pc t' = s.pc t'
  awake : s'.pc t ≠ .asleep

theorem Moves.goto {s₁ : Pool} {pc : PoolPc} (h : s₁.pc = s.pc) (hpc : pc ≠ .asleep) :
    Moves s (s₁.goto t pc) t := by
  refine ⟨fun t' hne => ?_, ?_⟩
  · rw [goto_pc, if_neg hne, h]
  · rw [goto_pc, if_pos rfl]
    exact hpc

/-- A step that adds no segment and, but for the agent that moves, leaves everybody where
they are, keeps the promise, unless that agent goes to sleep or was to notify. -/
theorem NoLostWakeup.move (h : NoLostWakeup s) (hm : Moves s s' t) (hpc : s.pc t ≠ .notify)
    (hsp : s'.spares ≠ [] → s.spares ≠ []) : NoLostWakeup s' := by
  intro t₁ hsleep hne
  have ht₁ : t₁ ≠ t := by
    rintro rfl
    exact hm.awake hsleep
  rw [hm.others t₁ ht₁] at hsleep
  obtain ⟨t₂, ht₂⟩ := h t₁ hsleep (hsp hne)
  have hne₂ : t₂ ≠ t := by
    rintro rfl
    exact hpc ht₂
  exact ⟨t₂, by rw [hm.others t₂ hne₂, ht₂]⟩

theorem NoLostWakeup.acquire (h : NoLostWakeup s) {pc : PoolPc} (hpc : s.pc t ≠ .notify)
    (hne : pc ≠ .asleep) (hstep : s.acquire t pc = some s') : NoLostWakeup s' := by
  unfold Pool.acquire at hstep
  split at hstep
  next =>
    cases hstep
    exact h.move (.goto rfl hne) hpc fun h => h
  next => cases hstep

theorem NoLostWakeup.popOr (h : NoLostWakeup s) {pc : PoolPc} (hpc : s.pc t ≠ .notify)
    (hne : pc ≠ .asleep) : NoLostWakeup (s.popOr t pc) := by
  unfold Pool.popOr
  split
  next r rest hsp =>
    refine h.move (.goto rfl (by nofun)) hpc fun _ => ?_
    rw [hsp]
    exact List.cons_ne_nil r rest
  next => exact h.move (.goto rfl hne) hpc fun h => h

theorem next_noLostWakeup (h : NoLostWakeup s) (hok : WaitsOnEmpty s (.next t))
    (hstep : next t s = some s') : NoLostWakeup s' := by
  unfold next at hstep
  split at hstep
  next => cases hstep
  next => cases hstep
  next hpc => exact h.acquire (by rw [hpc]; nofun) (by nofun) hstep
  next hpc =>
    cases hstep
    exact h.popOr (by rw [hpc]; nofun) (by nofun)
  next hpc => exact h.acquire (by rw [hpc]; nofun) (by nofun) hstep
  next hpc =>
    cases hstep
    exact h.popOr (by rw [hpc]; nofun) (by nofun)
  next hpc =>
    cases hstep
    exact h.move (.goto rfl (by split <;> nofun)) (by rw [hpc]; nofun) fun h => h
  next hpc => exact h.acquire (by rw [hpc]; nofun) (by nofun) hstep
  next hpc =>
    -- the one step that goes to sleep
    cases hstep
    intro t₁ hsleep hne
    rcases hok t rfl hpc with hempty | ⟨t₂, ht₂⟩
    · exact absurd hempty hne
    · have hne₂ : t₂ ≠ t := by
        rintro rfl
        rw [hpc] at ht₂
        cases ht₂
      exact ⟨t₂, by rw [release, goto_pc, if_neg hne₂]; exact ht₂⟩
  next hpc => exact h.acquire (by rw [hpc]; nofun) (by nofun) hstep
  next hpc =>
    cases hstep
    exact h.popOr (by rw [hpc]; nofun) (by nofun)
  next hpc => exact h.acquire (by rw [hpc]; nofun) (by nofun) hstep
  next =>
    -- a segment is pushed: its notification is now on its way
    cases hstep
    exact fun _ _ _ => ⟨t, by rw [release, goto_pc, if_pos rfl]⟩
  next =>
    -- nobody sleeps after a notification
    cases hstep
    intro t₁ hsleep
    exfalso
    rw [goto_pc] at hsleep
    split at hsleep
    · cases hsleep
    · unfold notifyAll at hsleep
      simp only at hsleep
      split at hsleep
      · cases hsleep
      · contradiction

/-- The step lemma. -/
theorem step_noLostWakeup {a : PoolAction} (h : NoLostWakeup s) (hok : WaitsOnEmpty s a)
    (hstep : step s a = some s') : NoLostWakeup s' := by
  cases a with
  | call t c =>
    simp only [step] at hstep
    split at hstep
    next hpc =>
      cases hstep
      refine h.move (.goto rfl ?_) (by rw [hpc]; nofun) fun h => h
      cases c <;> nofun
    next => cases hstep
  | next t => exact next_noLostWakeup h hok hstep
  | wake t =>
    simp only [step] at hstep
    split at hstep
    next hpc =>
      cases hstep
      exact h.move (.goto rfl (by nofun)) (by rw [hpc]; nofun) fun h => h
    next => cases hstep
  | setLive t live =>
    cases hstep
    exact h

/-- Whatever the pool starts with: as long as agents enter `wait` only on an empty pool, or
with a notification on its way, none ever sleeps beside a segment without a wakeup on its
way; and the first access that breaks the condition leaves one asleep so. -/
theorem no_lost_wakeup (spares : List Nat) (live : Nat → Bool) :
    (∀ s, pool.Runs WaitsOnEmpty (init spares live) s → NoLostWakeup s) ∧
    ∀ s a s', pool.Reach (init spares live) s → pool.step s a = some s' →
      ¬ WaitsOnEmpty s a → ¬ NoLostWakeup s' := by
  refine ⟨fun s h => ?_, fun s a s' _ hstep hbad hgood => ?_⟩
  · refine h.invariant (fun s₁ a s₂ hI hok hst => step_noLostWakeup hI hok hst) ?_
    intro t hsleep
    cases hsleep
  · unfold WaitsOnEmpty at hbad
    push Not at hbad
    obtain ⟨t, rfl, hpc, hne, hnone⟩ := hbad
    change next t s = some s' at hstep
    simp only [next, hpc, Option.some.injEq] at hstep
    subst hstep
    have hsleep : (s.release t .asleep).pc t = .asleep := by rw [release, goto_pc, if_pos rfl]
    obtain ⟨t', ht'⟩ := hgood t hsleep hne
    rw [release, goto_pc] at ht'
    split at ht'
    · cases ht'
    · exact hnone ⟨t', ht'⟩

/-- Agent 0 finds the pool empty and its ring live; agent 1 recycles segment 7 and notifies
nobody; agent 0 waits. -/
def lostWakeup : List PoolAction :=
  [.call 0 .takePooled, .next 0, .next 0, .next 0, .call 1 (.recycle 7), .next 1, .next 1, .next 1,
    .next 0, .next 0]

theorem recycled_while_testing :
    ∃ s, pool.Reach (init [] fun _ => true) s ∧ ¬ NoLostWakeup s := by
  obtain ⟨s, hs⟩ : ∃ s, pool.run (init [] fun _ => true) lostWakeup = some s := ⟨_, rfl⟩
  refine ⟨s, Machine.run_runs hs, fun h => ?_⟩
  obtain rfl := Option.some.inj hs
  obtain ⟨t, ht⟩ := h 0 rfl (by nofun)
  by_cases h0 : t = 0
  · subst h0
    cases ht
  · by_cases h1 : t = 1
    · subst h1
      cases ht
    · simp [release, popOr, notifyAll, init, goto, start, h0, h1] at ht

end Pool

end Ticklog
