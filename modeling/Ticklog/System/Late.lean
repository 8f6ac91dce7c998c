import Mathlib.Algebra.Order.BigOperators.Group.Finset
import Ticklog.System.Flush
import Ticklog.System.Holders
import Ticklog.System.Numbering
import Ticklog.System.Retire

/-!
# Log calls after the guard (`src/guard.rs`, `src/thread_buf.rs`)

`Guard::drop` marks the rings then registered dead and joins the drain; a thread that
logs for the first time later gets a live ring that nobody will drain. `LateOk` is the
condition under which this does no harm: no capacity check fails on a live ring under
Block or on any ring under Quill, and no NanoLog handoff finds the pool empty. Then a
call begun after the drop ends within a bounded number of its own accesses, whatever the
other threads do, and memory grows with the number of threads only.

`Settled` is the per-thread invariant. Two quantities carry the bounds: `callRank`, the
accesses a call has left, and the pool, which pays for the NanoLog handoffs.
-/

namespace Ticklog

open Lib

/-- The action starts a log call of thread `t`. -/
def Action.startsCall (t : Nat) : Action → Bool
  | .log t' _ => t' == t
  | _ => false

namespace Sys

variable {cfg : Config} {s s' : Sys}

/-- The threads that act in a schedule. -/
def actors (as : List Action) : Finset Nat := (as.filterMap Action.actor).toFinset

/-- `Guard::drop` has returned. -/
def Dropped (s : Sys) : Prop := s.guard = .dropped ∧ s.drain.pc = .stopped

/-- No access turns to a drain that is gone: a full ring is dead under Block and does not
occur under Quill, and a NanoLog handoff finds a spare. -/
def LateOk (cfg : Config) (s : Sys) (a : Action) : Prop :=
  match a with
  | .thread t =>
    match (s.threads t).pc, (s.threads t).ring with
    | .reserve, some r =>
      (s.rings r).hasRoom cfg.geometry (s.threads t).total = true ∨ cfg.policy = .drop ∨
        cfg.policy = .block ∧ (s.rings r).live = false ∨ cfg.policy = .nanoLog
    | .takeSpare, _ => s.spares ≠ []
    | _, _ => True
  | _ => True

theorem lateOk_thread {cfg : Config} {s : Sys} {t : Nat} : LateOk cfg s (.thread t) ↔
    ((s.threads t).pc = .reserve → ∀ r ∈ (s.threads t).ring,
      (s.rings r).hasRoom cfg.geometry (s.threads t).total = true ∨ cfg.policy = .drop ∨
        cfg.policy = .block ∧ (s.rings r).live = false ∨ cfg.policy = .nanoLog) ∧
    ((s.threads t).pc = .takeSpare → s.spares ≠ []) := by
  unfold LateOk
  dsimp only
  cases (s.threads t).pc with
  | reserve => cases (s.threads t).ring <;> simp
  | _ => simp

instance (cfg : Config) (s : Sys) (a : Action) : Decidable (LateOk cfg s a) :=
  match a with
  | .thread _ => decidable_of_iff' _ lateOk_thread
  | .log _ _ | .wake _ | .exit _ | .drain | .guard => inferInstanceAs (Decidable True)

/-- A thread that is waiting: for the pool, for the drain to leave its segment, or for
room in a ring that is still live. -/
def Waiting (s : Sys) (t : Nat) : Prop :=
  match (s.threads t).pc with
  | .formatWait | .poolTake | .poolLive | .poolWait | .asleep | .woken => True
  | .spin => ∃ r, (s.threads t).ring = some r ∧ (s.rings r).live = true
  | _ => False

/-- A thread inside a log call. -/
def inCall (pc : ThreadPc) : Bool :=
  match pc with
  | .idle | .exited => false
  | _ => true

/-- A thread that is outside a call, or in one that was begun after the drop. -/
def SettledAt (cfg : Config) (s : Sys) (th : Thread) : Prop :=
  match th.pc with
  | .idle | .exited | .initRing | .setInfo _ | .register _ | .switch _ => True
  | .reset why _ k => why ≠ .helper ∧ k < Ring.resetSteps
  | .reserve | .publish => th.ring ≠ none
  | .spin => cfg.policy = .block ∧
      ∃ r, th.ring = some r ∧ r ∈ s.registered ∧ (s.rings r).live = false
  | .markHandedOff | .takeSpare => cfg.policy = .nanoLog ∧ th.ring ≠ none
  | _ => False

def Settled (cfg : Config) (s : Sys) (t : Nat) : Prop := SettledAt cfg s (s.threads t)

/-- The accesses a call has left until it returns or takes another spare. -/
def callRank (pc : ThreadPc) : Nat :=
  match pc with
  | .initRing => 16
  | .reset _ _ k => 7 + (Ring.resetSteps - k)
  | .setInfo _ => 7
  | .register _ => 6
  | .switch _ => 5
  | .reserve => 4
  | .markHandedOff => 3
  | .takeSpare => 2
  | .publish | .spin => 1
  | _ => 0

def callSteps : Nat := 16

/-- A helper that will return its segment to the pool. -/
def willRecycle (pc : ThreadPc) : Nat :=
  match pc with
  | .reserveHelper | .formatWait | .format _ _ | .pushLines _ | .reset .helper _ _ | .recycle => 1
  | _ => 0

/-- A thread that may still carve a segment or allocate a ring. -/
def mayAlloc (cfg : Config) (th : Thread) : Nat :=
  match th.pc with
  | .idle => if th.ring = none then 1 else 0
  | .initRing | .allocFresh => 1
  | .markHandedOff => if cfg.policy = .nanoLog then 0 else 1
  | _ => 0

/-! ## The drop is final -/

theorem dropped_step {a : Action} (h : s.guard = .dropped → s.drain.pc = .stopped)
    (hstep : step cfg s a = some s') : s'.guard = .dropped → s'.drain.pc = .stopped := by
  cases a with
  | log t total =>
    obtain ⟨-, pc, -, rfl⟩ := log_inv hstep
    exact h
  | exit t =>
    obtain ⟨-, ⟨r₀, -, rfl⟩ | ⟨-, rfl⟩⟩ := exit_inv hstep
    · exact h
    · exact h
  | thread t =>
    obtain ⟨hd, hg, -, -⟩ := (threadStep_move hstep).frame
    rw [hd, hg]
    exact h
  | wake t =>
    obtain ⟨-, rfl⟩ := wake_inv hstep
    exact h
  | drain =>
    intro hg
    rw [(drain_keeps (drainStep_move hstep)).guard] at hg
    dsimp only [step, drainStep] at hstep
    simp only [h hg] at hstep
    cases hstep
  | guard =>
    dsimp only [step, guardStep] at hstep
    split at hstep
    next =>
      split at hstep <;> cases hstep
      nofun
    next =>
      cases hstep
      nofun
    next =>
      cases hstep
      nofun
    next =>
      cases hstep
      nofun
    next =>
      split at hstep
      next hst =>
        cases hstep
        exact fun _ => hst
      next => cases hstep
    next => cases hstep

theorem reach_dropped (h : (system cfg).Reach (Sys.init cfg) s) (hg : s.guard = .dropped) :
    Dropped s :=
  ⟨hg, Machine.Runs.invariant (I := fun s => s.guard = .dropped → s.drain.pc = .stopped)
    (fun _ _ _ hi _ (hst : step cfg _ _ = some _) => dropped_step hi hst) h nofun hg⟩

/-- After the drop only threads act. -/
theorem Dropped.actor (h : Dropped s) {a : Action} (hstep : step cfg s a = some s') :
    Dropped s' ∧ ∃ t, a.actor = some t := by
  cases a with
  | log t total =>
    obtain ⟨-, pc, -, rfl⟩ := log_inv hstep
    exact ⟨h, t, rfl⟩
  | exit t =>
    obtain ⟨-, ⟨r₀, -, rfl⟩ | ⟨-, rfl⟩⟩ := exit_inv hstep
    · exact ⟨h, t, rfl⟩
    · exact ⟨h, t, rfl⟩
  | thread t =>
    obtain ⟨hd, hg, -, -⟩ := (threadStep_move hstep).frame
    exact ⟨⟨hg.trans h.1, hd ▸ h.2⟩, t, rfl⟩
  | wake t =>
    obtain ⟨-, rfl⟩ := wake_inv hstep
    exact ⟨h, t, rfl⟩
  | drain =>
    simp only [step, drainStep, h.2] at hstep
    cases hstep
  | guard =>
    simp only [step, guardStep, h.1] at hstep
    cases hstep

theorem Dropped.unlocked (h : Dropped s) : s.registryLocked = false := by
  unfold registryLocked
  rw [h.1, h.2]
  rfl

/-! ## Other threads -/

theorem Settled.not_asleep {t : Nat} (h : Settled cfg s t) : (s.threads t).pc ≠ .asleep := by
  intro hpc
  unfold Settled SettledAt at h
  simp only [hpc] at h

theorem Settled.not_waiting {t : Nat} (h : Settled cfg s t) : ¬ Waiting s t := by
  intro hw
  unfold Settled SettledAt at h
  unfold Waiting at hw
  split at hw
  case h_7 hpc =>
    simp only [hpc] at h
    obtain ⟨-, r, hr, -, hdead⟩ := h
    obtain ⟨r', hr', hlive⟩ := hw
    rw [hr, Option.some.injEq] at hr'
    rw [← hr', hdead] at hlive
    cases hlive
  case h_8 => exact hw
  all_goals next hpc => simp only [hpc] at h

/-- A settled thread stays so while others act. -/
theorem Settled.others {a : Action} {t : Nat} (h : Settled cfg s t)
    (hp : cfg.policy = .block → PlainInv s) (ha : a.actor ≠ some t)
    (hstep : step cfg s a = some s') : Settled cfg s' t := by
  have hth := step_others ha h.not_asleep hstep
  unfold Settled SettledAt at h ⊢
  rw [hth]
  cases hpc : (s.threads t).pc with
  | spin =>
    simp only [hpc] at h ⊢
    obtain ⟨hb, r, hr, hreg, hdead⟩ := h
    refine ⟨hb, r, hr, step_registered hstep hreg, Bool.eq_false_iff.mpr fun hlive => ?_⟩
    have hlive := (step_grows (hp hb) hstep hreg).live hlive
    rw [hdead] at hlive
    cases hlive
  | _ =>
    rw [hpc] at h
    exact h

/-! ## A settled thread's own accesses -/

/-- A call in progress can always go on. -/
theorem Settled.enabled {t : Nat} (h : Settled cfg s t) (hd : Dropped s)
    (hin : inCall (s.threads t).pc = true) : ∃ s', step cfg s (.thread t) = some s' := by
  have hring : (s.threads t).ring ≠ none → (∃ r, (s.threads t).ring = some r) :=
    Option.ne_none_iff_exists'.mp
  unfold Settled SettledAt at h
  show ∃ s', threadStep cfg t s = some s'
  unfold threadStep
  cases hpc : (s.threads t).pc with
  | idle | exited =>
    rw [hpc] at hin
    cases hin
  | initRing =>
    simp only [hpc]
    repeat' split
    all_goals exact ⟨_, rfl⟩
  | reset why r k =>
    simp only [hpc]
    split
    all_goals exact ⟨_, rfl⟩
  | setInfo r =>
    simp only [hpc]
    exact ⟨_, rfl⟩
  | register r =>
    simp only [hpc, hd.unlocked]
    exact ⟨_, rfl⟩
  | switch r =>
    simp only [hpc]
    exact ⟨_, rfl⟩
  | reserve =>
    simp only [hpc] at h ⊢
    obtain ⟨r, hr⟩ := hring h
    rw [hr]
    exact ⟨_, rfl⟩
  | publish =>
    simp only [hpc] at h ⊢
    obtain ⟨r, hr⟩ := hring h
    rw [hr]
    exact ⟨_, rfl⟩
  | spin =>
    simp only [hpc] at h ⊢
    obtain ⟨-, r, hr, -, hdead⟩ := h
    rw [hr]
    simp only [threadRingStep, hdead]
    exact ⟨_, rfl⟩
  | markHandedOff =>
    simp only [hpc] at h ⊢
    obtain ⟨r, hr⟩ := hring h.2
    rw [hr]
    simp only [threadRingStep]
    split
    all_goals exact ⟨_, rfl⟩
  | takeSpare =>
    simp only [hpc] at h ⊢
    obtain ⟨r, hr⟩ := hring h.2
    rw [hr]
    simp only [threadRingStep]
    split
    all_goals exact ⟨_, rfl⟩
  | allocFresh | reserveHelper | formatWait | format | pushLines | recycle | poolTake | poolLive
  | poolWait | asleep | woken => simp only [hpc] at h

/-- What one access does to a settled thread: it stays settled, queues nothing, and has
one access less before it returns or takes another spare. -/
structure SettledStep (cfg : Config) (t : Nat) (s s' : Sys) : Prop where
  settled : Settled cfg s' t
  lines : s'.lines = s.lines
  rank : callRank (s'.threads t).pc + 1 + callSteps * s'.spares.length
    ≤ callRank (s.threads t).pc + callSteps * s.spares.length

/-- A thread that only changes its position. -/
theorem SettledStep.goto {t : Nat} {s₁ : Sys} {pc : ThreadPc}
    (hset : SettledAt cfg s₁ { s₁.threads t with pc := pc }) (hlines : s₁.lines = s.lines)
    (hspares : s₁.spares = s.spares) (hrank : callRank pc + 1 ≤ callRank (s.threads t).pc) :
    SettledStep cfg t s (s₁.goto t pc) where
  settled := by
    unfold Settled
    rw [threads_goto]
    exact hset
  lines := hlines
  rank := by
    rw [threads_goto, goto_eq, setThread_spares, hspares]
    exact Nat.add_le_add_right hrank _

/-- A thread that takes a spare. -/
theorem SettledStep.take {t r : Nat} {rest : List Nat} {why : Reset} (hwhy : why ≠ .helper)
    (hsp : s.spares = r :: rest) :
    SettledStep cfg t s ({ s with spares := rest }.goto t (.reset why r 0)) where
  settled := by
    unfold Settled
    rw [threads_goto]
    exact ⟨hwhy, by decide⟩
  lines := rfl
  rank := by
    rw [threads_goto, goto_eq, setThread_spares, hsp, List.length_cons, Nat.mul_succ]
    simp only [callRank, callSteps, Ring.resetSteps]
    omega

theorem Settled.step {t : Nat} (h : Settled cfg s t) (hp : cfg.policy ≠ .nanoLog → PlainInv s)
    (hok : LateOk cfg s (.thread t)) (hm : ThreadMove cfg t s s') : SettledStep cfg t s s' := by
  unfold Settled SettledAt at h
  cases hm with
  | takeFirst hpc hseg hsp => exact .take (by decide) hsp
  | allocFirst hpc hsp =>
    refine .goto trivial rfl rfl ?_
    rw [hpc]
    simp only [callRank]
    omega
  | @reset why r k hpc hk =>
    simp only [hpc] at h
    refine .goto ⟨h.1, hk⟩ rfl rfl ?_
    rw [hpc]
    simp only [callRank]
    omega
  | @resetLast why r k hpc hk =>
    simp only [hpc] at h
    have hafter : afterReset why r = .setInfo r := by
      cases why <;> first | rfl | exact absurd rfl h.1
    rw [hafter]
    refine .goto trivial rfl rfl ?_
    rw [hpc]
    simp only [callRank]
    omega
  | setInfo hpc =>
    refine .goto trivial rfl rfl ?_
    rw [hpc]
    exact Nat.le_refl _
  | register hpc hl =>
    refine .goto trivial rfl rfl ?_
    rw [hpc]
    exact Nat.le_refl _
  | switch hpc =>
    refine ⟨?_, rfl, ?_⟩
    · unfold Settled
      rw [threads_self]
      exact Option.some_ne_none _
    · rw [threads_self, setThread_spares, hpc]
      exact Nat.le_refl _
  | granted hpc hr hroom =>
    simp only [hpc] at h
    refine .goto h rfl rfl ?_
    rw [hpc]
    decide
  | @full r pc hpc hr hroom hnext =>
    simp only [hpc] at h
    have hcond : cfg.policy = .drop ∨ cfg.policy = .block ∧ (s.rings r).live = false ∨
        cfg.policy = .nanoLog := by
      simpa [LateOk, hpc, hr, hroom] using hok
    rcases hnext with ⟨hpol, rfl⟩ | ⟨hpol, rfl⟩ | ⟨hseg, rfl⟩
    · refine .goto trivial rfl rfl ?_
      rw [hpc]
      decide
    · have hw := (hp (by simp [hpol])).threads t
      unfold ThreadOk at hw
      simp only [hpc] at hw
      have hdead : (s.rings r).live = false := by simpa [hpol] using hcond
      refine .goto ⟨hpol, r, hr, (hw r hr).1.1, hdead⟩ rfl rfl ?_
      rw [hpc]
      decide
    · have hpol : cfg.policy = .nanoLog := by
        rcases hcond with hpol | ⟨hpol, -⟩ | hpol
        · simp [Config.segmented, hpol] at hseg
        · simp [Config.segmented, hpol] at hseg
        · exact hpol
      refine .goto ⟨hpol, h⟩ rfl rfl ?_
      rw [hpc]
      decide
  | @spin r hpc hr =>
    simp only [hpc] at h
    obtain ⟨-, r', hr', -, hdead⟩ := h
    rw [hr, Option.some.injEq] at hr'
    rw [hr', hdead]
    refine .goto trivial rfl rfl ?_
    rw [hpc]
    decide
  | @publish r hpc hr =>
    have hth : (publish t r s).threads t
        = { s.threads t with pc := .idle, seq := (s.threads t).seq + 1 } := threads_self _ _ _
    refine ⟨?_, rfl, ?_⟩
    · unfold Settled
      rw [hth]
      trivial
    · rw [hth, hpc]
      exact Nat.le_refl _
  | markHandedOff hpc hr =>
    simp only [hpc] at h
    rw [if_pos h.1]
    refine .goto h rfl rfl ?_
    rw [hpc]
    decide
  | takeSpare hpc hr hsp => exact .take (by decide) hsp
  | noSpare hpc hr hsp =>
    rcases hpc with ⟨hpc, -⟩ | ⟨hpc, -⟩ | ⟨hpc, -⟩
    · unfold LateOk at hok
      simp only [hpc] at hok
      exact absurd hsp hok
    all_goals simp only [hpc] at h
  | allocFresh hpc | reserveHelper hpc | formatSpin hpc | formatEnter hpc | formatDone hpc
  | format hpc | pushLines hpc | recycle hpc | poolLive hpc | poolWait hpc =>
    simp only [hpc] at h

/-! ## The pool and the allocations -/

/-- What an access of thread `t` does to the common stocks: a spare is put back only by a
helper, and segments are carved only where `mayAlloc` allows one. -/
structure StockStep (cfg : Config) (t : Nat) (s s' : Sys) : Prop where
  pool : s'.spares.length + willRecycle (s'.threads t).pc
    ≤ s.spares.length + willRecycle (s.threads t).pc
  segments : s'.nextRing + mayAlloc cfg (s'.threads t) ≤ s.nextRing + mayAlloc cfg (s.threads t)

/-- An access that leaves both stocks alone and does not widen what the thread may do. -/
theorem StockStep.keep {t : Nat} (hspares : s'.spares = s.spares)
    (hnext : s'.nextRing = s.nextRing)
    (hpool : willRecycle (s'.threads t).pc ≤ willRecycle (s.threads t).pc)
    (hsegs : mayAlloc cfg (s'.threads t) ≤ mayAlloc cfg (s.threads t)) :
    StockStep cfg t s s' := by
  refine ⟨?_, ?_⟩
  · rw [hspares]
    exact Nat.add_le_add_left hpool _
  · rw [hnext]
    exact Nat.add_le_add_left hsegs _

theorem StockStep.goto {t : Nat} {s₁ : Sys} {pc : ThreadPc} (hth : s₁.threads t = s.threads t)
    (hspares : s₁.spares = s.spares) (hnext : s₁.nextRing = s.nextRing)
    (hpool : willRecycle pc ≤ willRecycle (s.threads t).pc)
    (hsegs : mayAlloc cfg { s.threads t with pc := pc } ≤ mayAlloc cfg (s.threads t)) :
    StockStep cfg t s (s₁.goto t pc) := by
  refine .keep hspares hnext ?_ ?_
  · rw [threads_goto]
    exact hpool
  · rw [threads_goto, hth]
    exact hsegs

/-- Carving a segment uses up the thread's one permission. -/
theorem StockStep.alloc {t : Nat} (hw : mayAlloc cfg (s.threads t) = 1) :
    StockStep cfg t s (alloc t s) := by
  have hth : (Sys.alloc t s).threads t = { s.threads t with pc := .setInfo s.nextRing } :=
    threads_goto _ _ _
  refine ⟨?_, ?_⟩
  · rw [hth]
    exact Nat.le_add_right _ _
  · rw [hth, hw]
    exact Nat.le_refl _

/-- A spare is taken. -/
theorem StockStep.take {t r : Nat} {rest : List Nat} {why : Reset} (hwhy : why ≠ .helper)
    (hsp : s.spares = r :: rest) :
    StockStep cfg t s ({ s with spares := rest }.goto t (.reset why r 0)) := by
  have hzero : willRecycle (.reset why r 0) = 0 := by
    cases why <;> first | rfl | exact absurd rfl hwhy
  refine ⟨?_, ?_⟩
  · rw [threads_goto, hzero, goto_eq, setThread_spares, hsp, List.length_cons]
    show rest.length + 0 ≤ _
    omega
  · rw [threads_goto]
    exact Nat.le_add_right _ _

theorem thread_stock {t : Nat} (hok : LateOk cfg s (.thread t)) (hm : ThreadMove cfg t s s') :
    StockStep cfg t s s' := by
  cases hm with
  | takeFirst hpc hseg hsp => exact .take (by decide) hsp
  | takeSpare hpc hr hsp => exact .take (by decide) hsp
  | allocFirst hpc hsp => exact .alloc (by simp [mayAlloc, hpc])
  | allocFresh hpc hr => exact .alloc (by simp [mayAlloc, hpc])
  | @reset why r k hpc hk =>
    refine .goto rfl rfl rfl ?_ (Nat.zero_le _)
    rw [hpc]
    cases why <;> exact Nat.le_refl _
  | @resetLast why r k hpc hk =>
    refine .goto rfl rfl rfl ?_ ?_
    · rw [hpc]
      cases why <;> exact Nat.le_refl _
    · cases why <;> exact Nat.zero_le _
  | setInfo hpc => exact .goto rfl rfl rfl (Nat.zero_le _) (Nat.zero_le _)
  | register hpc hl => exact .goto rfl rfl rfl (Nat.zero_le _) (Nat.zero_le _)
  | switch hpc =>
    refine .keep rfl rfl ?_ ?_ <;> rw [threads_self] <;> exact Nat.zero_le _
  | granted hpc hr hroom => exact .goto rfl rfl rfl (Nat.zero_le _) (Nat.zero_le _)
  | @full r pc hpc hr hroom hnext =>
    have hcond : cfg.policy = .drop ∨ cfg.policy = .block ∧ (s.rings r).live = false ∨
        cfg.policy = .nanoLog := by
      simpa [LateOk, hpc, hr, hroom] using hok
    rcases hnext with ⟨hpol, rfl⟩ | ⟨hpol, rfl⟩ | ⟨hseg, rfl⟩
    · refine .goto rfl rfl rfl (Nat.zero_le _) ?_
      simp [mayAlloc, hr]
    · exact .goto rfl rfl rfl (Nat.zero_le _) (Nat.zero_le _)
    · have hpol : cfg.policy = .nanoLog := by
        rcases hcond with hpol | ⟨hpol, -⟩ | hpol
        · simp [Config.segmented, hpol] at hseg
        · simp [Config.segmented, hpol] at hseg
        · exact hpol
      refine .goto rfl rfl rfl (Nat.zero_le _) ?_
      simp [mayAlloc, hpol]
  | @spin r hpc hr =>
    refine .goto rfl rfl rfl ?_ ?_
    · split <;> exact Nat.zero_le _
    · split <;> simp [mayAlloc, hr]
  | @publish r hpc hr =>
    have hth : (publish t r s).threads t
        = { s.threads t with pc := .idle, seq := (s.threads t).seq + 1 } := threads_self _ _ _
    refine .keep rfl rfl ?_ ?_
    · rw [hth]
      exact Nat.zero_le _
    · rw [hth]
      simp [mayAlloc, hr]
  | markHandedOff hpc hr =>
    split
    · exact .goto rfl rfl rfl (Nat.zero_le _) (Nat.zero_le _)
    next hpol =>
      refine .goto rfl rfl rfl (Nat.zero_le _) ?_
      simp [mayAlloc, hpc, hpol]
  | noSpare hpc hr hsp =>
    rcases hpc with ⟨hpc, -⟩ | ⟨hpc, rfl⟩ | ⟨hpc, rfl⟩
    · unfold LateOk at hok
      simp only [hpc] at hok
      exact absurd hsp hok
    all_goals exact .goto rfl rfl rfl (Nat.zero_le _) (Nat.zero_le _)
  | reserveHelper hpc hr =>
    refine .goto rfl rfl rfl ?_ (Nat.zero_le _)
    rw [hpc]
    exact Nat.le_refl _
  | formatSpin hpc hr hd => exact .keep rfl rfl (Nat.le_refl _) (Nat.le_refl _)
  | formatEnter hpc hr hd =>
    refine .goto rfl rfl rfl ?_ (Nat.zero_le _)
    rw [hpc]
    exact Nat.le_refl _
  | formatDone hpc hr =>
    refine .goto rfl rfl rfl ?_ (Nat.zero_le _)
    rw [hpc]
    exact Nat.le_refl _
  | format hpc hr hp hst =>
    refine .goto rfl rfl rfl ?_ (Nat.zero_le _)
    rw [hpc]
    exact Nat.le_refl _
  | pushLines hpc hr =>
    refine .goto rfl rfl rfl ?_ (Nat.zero_le _)
    rw [hpc]
    exact Nat.le_refl _
  | @recycle r hpc hr =>
    refine ⟨?_, ?_⟩
    · rw [threads_goto, goto_eq, setThread_spares, recycle_spares, hpc, List.length_cons]
      exact Nat.le_refl _
    · rw [threads_goto]
      exact Nat.le_add_right _ _
  | @poolLive r hpc hr =>
    refine .goto rfl rfl rfl ?_ ?_
    · split <;> exact Nat.zero_le _
    · split <;> simp [mayAlloc, hr]
  | poolWait hpc hr => exact .goto rfl rfl rfl (Nat.zero_le _) (Nat.zero_le _)

theorem step_stock {a : Action} {t : Nat} (ha : a.actor = some t) (hok : LateOk cfg s a)
    (hstep : step cfg s a = some s') : StockStep cfg t s s' := by
  cases a with
  | log t' total =>
    cases ha
    simp only [step, log] at hstep
    split at hstep
    next hidle =>
      split at hstep
      next hr =>
        cases hstep
        refine .keep rfl rfl ?_ ?_
        · rw [threads_self]
          exact Nat.zero_le _
        · rw [threads_self]
          simp [mayAlloc, hidle.1, hr]
      next hr =>
        cases hstep
        refine .keep rfl rfl ?_ ?_ <;> rw [threads_self] <;> exact Nat.zero_le _
    next => cases hstep
  | exit t' =>
    cases ha
    simp only [step, exit] at hstep
    repeat' split at hstep
    all_goals cases hstep
    all_goals refine .keep rfl rfl ?_ ?_ <;> rw [threads_self] <;> exact Nat.zero_le _
  | thread t' =>
    cases ha
    exact thread_stock hok (threadStep_move hstep)
  | wake t' =>
    cases ha
    obtain ⟨-, rfl⟩ := wake_inv hstep
    exact .goto rfl rfl rfl (Nat.zero_le _) (Nat.zero_le _)
  | drain => cases ha
  | guard => cases ha

/-- The other threads' permissions stay. -/
theorem others_stock {a : Action} {t : Nat} (ha : a.actor ≠ some t)
    (hstep : step cfg s a = some s') :
    willRecycle (s'.threads t).pc = willRecycle (s.threads t).pc ∧
      mayAlloc cfg (s'.threads t) = mayAlloc cfg (s.threads t) := by
  rcases step_wakes ha hstep with h | ⟨hpc, h, -⟩
  · rw [h]
    exact ⟨rfl, rfl⟩
  · rw [h]
    simp [willRecycle, mayAlloc, hpc]

/-- The spares in the pool and those the threads of `T` will still put back. -/
def pool (T : Finset Nat) (s : Sys) : Nat :=
  s.spares.length + ∑ t ∈ T, willRecycle (s.threads t).pc

/-- The rings that exist and those the threads of `T` may still make. -/
def ringBudget (cfg : Config) (T : Finset Nat) (s : Sys) : Nat :=
  s.nextRing + ∑ t ∈ T, mayAlloc cfg (s.threads t)

theorem pool_le {T : Finset Nat} {a : Action} {t : Nat} (ha : a.actor = some t) (ht : t ∈ T)
    (hok : LateOk cfg s a) (hstep : step cfg s a = some s') : pool T s' ≤ pool T s := by
  refine budget_le ht (fun j hj => (others_stock ?_ hstep).1) (step_stock ha hok hstep).pool
  rw [ha]
  exact fun h => hj (Option.some.inj h).symm

theorem ringBudget_le {T : Finset Nat} {a : Action} {t : Nat} (ha : a.actor = some t)
    (ht : t ∈ T) (hok : LateOk cfg s a) (hstep : step cfg s a = some s') :
    ringBudget cfg T s' ≤ ringBudget cfg T s := by
  refine budget_le ht (fun j hj => (others_stock ?_ hstep).2) (step_stock ha hok hstep).segments
  rw [ha]
  exact fun h => hj (Option.some.inj h).symm

/-! ## Runs after the drop -/

/-- What a run after the drop carries. -/
structure LateRun (cfg : Config) (s : Sys) : Prop where
  dropped : Dropped s
  plain : cfg.policy ≠ .nanoLog → PlainRun s

theorem LateRun.step {a : Action} (h : LateRun cfg s) (hstep : step cfg s a = some s') :
    LateRun cfg s' :=
  ⟨(h.dropped.actor hstep).1, fun hpol => step_plain hpol (h.plain hpol) hstep⟩

/-- The accesses thread `t` has left, were it to spend the whole pool on handoffs. -/
def callBudget (T : Finset Nat) (t : Nat) (s : Sys) : Nat :=
  callRank (s.threads t).pc + callSteps * pool T s

/-- Another agent's access does not disturb a settled thread. -/
theorem late_others {T : Finset Nat} {a : Action} {t u : Nat} (h : LateRun cfg s)
    (hset : Settled cfg s t) (ha : a.actor = some u) (hu : u ∈ T) (hut : u ≠ t)
    (hok : LateOk cfg s a) (hstep : step cfg s a = some s') :
    Settled cfg s' t ∧ callBudget T t s' ≤ callBudget T t s := by
  have hne : a.actor ≠ some t := by
    rw [ha]
    exact fun heq => hut (Option.some.inj heq)
  refine ⟨hset.others (fun hb => (h.plain (by simp [hb])).1) hne hstep, ?_⟩
  unfold callBudget
  rw [step_others hne hset.not_asleep hstep]
  exact Nat.add_le_add_left (Nat.mul_le_mul_left _ (pool_le ha hu hok hstep)) _

theorem Settled.willRecycle_eq {t : Nat} (h : Settled cfg s t) :
    willRecycle (s.threads t).pc = 0 := by
  unfold Settled SettledAt at h
  cases hpc : (s.threads t).pc with
  | reset why r k =>
    simp only [hpc] at h
    cases why <;> first | rfl | exact absurd rfl h.1
  | reserveHelper | formatWait | format | pushLines | recycle => simp only [hpc] at h
  | _ => rfl

/-- A settled thread's access inside its call uses up one of its budget. -/
theorem late_thread {T : Finset Nat} {t : Nat} (h : LateRun cfg s) (hset : Settled cfg s t)
    (hok : LateOk cfg s (.thread t)) (hstep : step cfg s (.thread t) = some s') :
    Settled cfg s' t ∧ callBudget T t s' + 1 ≤ callBudget T t s := by
  have hown := hset.step (fun hpol => (h.plain hpol).1) hok (threadStep_move hstep)
  refine ⟨hown.settled, ?_⟩
  have hsum : ∑ u ∈ T, willRecycle (s'.threads u).pc = ∑ u ∈ T, willRecycle (s.threads u).pc := by
    refine Finset.sum_congr rfl fun u _ => ?_
    by_cases hu : u = t
    · rw [hu, hown.settled.willRecycle_eq, hset.willRecycle_eq]
    · exact (others_stock (a := .thread t) (fun heq => hu (Option.some.inj heq).symm) hstep).1
  have hrank := hown.rank
  unfold callBudget pool
  rw [hsum, Nat.mul_add, Nat.mul_add]
  omega

/-- A call that starts. -/
theorem late_log {T : Finset Nat} {t total : Nat} (hstep : step cfg s (.log t total) = some s') :
    Settled cfg s' t ∧ callBudget T t s' ≤ callSteps + callSteps * pool T s' := by
  simp only [step, log] at hstep
  split at hstep
  next hidle =>
    split at hstep
    next hr =>
      cases hstep
      unfold Settled callBudget
      rw [threads_self]
      exact ⟨trivial, Nat.le_refl _⟩
    next r hr =>
      cases hstep
      unfold Settled callBudget
      rw [threads_self]
      exact ⟨by simp [SettledAt, hr], Nat.add_le_add_right (by simp [callRank, callSteps]) _⟩
  next => cases hstep

/-- One access after the drop: a settled thread stays settled, and pays for its own
accesses out of its budget, which each call it starts replenishes. -/
theorem late_step {T : Finset Nat} {a : Action} {t u : Nat} (h : LateRun cfg s)
    (hset : Settled cfg s t) (ha : a.actor = some u) (hu : u ∈ T) (hok : LateOk cfg s a)
    (hstep : step cfg s a = some s') :
    Settled cfg s' t ∧
      callBudget T t s' + [a].count (.thread t)
        ≤ callBudget T t s + callSteps * [a].countP (Action.startsCall t) := by
  have hpool := Nat.mul_le_mul_left callSteps (pool_le ha hu hok hstep)
  by_cases hut : u = t
  · subst hut
    cases a with
    | log t' total =>
      cases ha
      obtain ⟨hset', hb⟩ := late_log (T := T) hstep
      refine ⟨hset', ?_⟩
      have hone : callSteps * [Action.log u total].countP (Action.startsCall u) = callSteps := by
        simp [Action.startsCall]
      rw [hone, List.count_singleton, if_neg (by simp)]
      unfold callBudget at hb ⊢
      omega
    | exit t' =>
      cases ha
      have hpc : (s'.threads u).pc = .exited := by
        simp only [step, exit] at hstep
        repeat' split at hstep
        all_goals cases hstep
        all_goals rw [threads_self]
      refine ⟨?_, ?_⟩
      · unfold Settled SettledAt
        rw [hpc]
        trivial
      · rw [List.count_singleton, if_neg (by simp)]
        unfold callBudget
        rw [hpc]
        simp only [callRank]
        omega
    | thread t' =>
      cases ha
      obtain ⟨hset', hb⟩ := late_thread (T := T) h hset hok hstep
      refine ⟨hset', ?_⟩
      rw [List.count_singleton, if_pos (by simp)]
      exact Nat.le_trans hb (Nat.le_add_right _ _)
    | wake t' =>
      cases ha
      simp only [step, wake] at hstep
      split at hstep
      next hpc => exact absurd hpc hset.not_asleep
      next => cases hstep
    | drain => cases ha
    | guard => cases ha
  · obtain ⟨hset', hb⟩ := late_others h hset ha hu hut hok hstep
    refine ⟨hset', ?_⟩
    have hzero : [a].count (.thread t) = 0 := by
      refine List.count_eq_zero.mpr fun hmem => ?_
      rw [← List.mem_singleton.mp hmem] at ha
      exact hut (Option.some.inj ha).symm
    rw [hzero]
    exact Nat.le_trans hb (Nat.le_add_right _ _)

/-- The run's account of one settled thread and of the rings. -/
theorem late_runs {T : Finset Nat} {as : List Action} (hT : actors as ⊆ T) (h : LateRun cfg s)
    (hrun : (system cfg).runWhile (LateOk cfg) s as = some s') :
    LateRun cfg s' ∧ pool T s' ≤ pool T s ∧ ringBudget cfg T s' ≤ ringBudget cfg T s ∧
    ∀ t, Settled cfg s t → Settled cfg s' t ∧
      callBudget T t s' + as.count (.thread t)
        ≤ callBudget T t s + callSteps * as.countP (Action.startsCall t) := by
  induction as generalizing s with
  | nil =>
    cases hrun
    exact ⟨h, Nat.le_refl _, Nat.le_refl _, fun t hset => ⟨hset, Nat.le_refl _⟩⟩
  | cons a as ih =>
    obtain ⟨hok, s₁, hst, hrest⟩ := Machine.runWhile_cons hrun
    have hst : step cfg s a = some s₁ := hst
    obtain ⟨-, u, ha⟩ := h.dropped.actor hst
    have hu : u ∈ T := hT (by simp [actors, ha])
    have has : actors as ⊆ T := by
      refine Finset.Subset.trans (fun v hv => ?_) hT
      simp only [actors, List.mem_toFinset, List.mem_filterMap, List.mem_cons] at hv ⊢
      obtain ⟨b, hb, hbv⟩ := hv
      exact ⟨b, Or.inr hb, hbv⟩
    obtain ⟨h', hpool, hring, hset'⟩ := ih has (h.step hst) hrest
    refine ⟨h', Nat.le_trans hpool (pool_le ha hu hok hst),
      Nat.le_trans hring (ringBudget_le ha hu hok hst), fun t hset => ?_⟩
    obtain ⟨hset₁, hb₁⟩ := late_step h hset ha hu hok hst
    obtain ⟨hset₂, hb₂⟩ := hset' t hset₁
    refine ⟨hset₂, ?_⟩
    have hcount : (a :: as).count (.thread t) = [a].count (.thread t) + as.count (.thread t) := by
      rw [← List.count_append, List.singleton_append]
    have hcalls : (a :: as).countP (Action.startsCall t)
        = [a].countP (Action.startsCall t) + as.countP (Action.startsCall t) := by
      rw [← List.countP_append, List.singleton_append]
    rw [hcount, hcalls, Nat.mul_add]
    omega

/-- A settled thread queues no payload. -/
theorem Settled.lines {a : Action} {t : Nat} (hset : Settled cfg s t) (h : LateRun cfg s)
    (ha : a.actor = some t) (hok : LateOk cfg s a) (hstep : Sys.step cfg s a = some s') :
    s'.lines = s.lines := by
  cases a with
  | log t' total =>
    simp only [Sys.step, log] at hstep
    repeat' split at hstep
    all_goals cases hstep
    all_goals rfl
  | exit t' =>
    simp only [Sys.step, exit] at hstep
    repeat' split at hstep
    all_goals cases hstep
    all_goals rfl
  | thread t' =>
    cases ha
    exact (hset.step (fun hpol => (h.plain hpol).1) hok (threadStep_move hstep)).lines
  | wake t' =>
    simp only [Sys.step, wake] at hstep
    split at hstep <;> cases hstep
    rfl
  | drain => cases ha
  | guard => cases ha

/-- With no call under way at the drop, the line queue stays as it was. -/
theorem late_lines {as : List Action} (h : LateRun cfg s) (hset : ∀ t, Settled cfg s t)
    (hrun : (system cfg).runWhile (LateOk cfg) s as = some s') : s'.lines = s.lines := by
  induction as generalizing s with
  | nil =>
    cases hrun
    rfl
  | cons a as ih =>
    obtain ⟨hok, s₁, hst, hrest⟩ := Machine.runWhile_cons hrun
    have hst : step cfg s a = some s₁ := hst
    obtain ⟨-, u, ha⟩ := h.dropped.actor hst
    have hset₁ : ∀ t, Settled cfg s₁ t := fun t =>
      (late_step h (hset t) ha (Finset.mem_singleton_self u) hok hst).1
    rw [ih (h.step hst) hset₁ hrest, (hset u).lines h ha hok hst]

theorem reach_late (h : (system cfg).Reach (Sys.init cfg) s) (hg : s.guard = .dropped) :
    LateRun cfg s :=
  ⟨reach_dropped h hg, fun hpol => reach_plain hpol h⟩

theorem Settled.of_idle {t : Nat} (h : inCall (s.threads t).pc = false) : Settled cfg s t := by
  unfold Settled SettledAt
  cases hpc : (s.threads t).pc with
  | idle | exited => trivial
  | _ =>
    rw [hpc] at h
    cases h

theorem pool_le_card (T : Finset Nat) (s : Sys) : pool T s ≤ s.spares.length + T.card := by
  refine Nat.add_le_add_left (le_trans (Finset.sum_le_card_nsmul T _ 1 fun t _ => ?_) ?_) _
  · unfold willRecycle
    split <;> decide
  · simp

theorem ringBudget_le_card (T : Finset Nat) (s : Sys) :
    ringBudget cfg T s ≤ s.nextRing + T.card := by
  refine Nat.add_le_add_left (le_trans (Finset.sum_le_card_nsmul T _ 1 fun t _ => ?_) ?_) _
  · unfold mayAlloc
    repeat' split
    all_goals decide
  · simp

/-- A Quill handoff carves a segment, drain or no drain. -/
theorem quill_carves {t r : Nat} (hpol : cfg.policy = .quill)
    (hpc : (s.threads t).pc = .markHandedOff) (hr : (s.threads t).ring = some r) :
    ∃ s', (system cfg).run s [.thread t, .thread t] = some s' ∧ s'.nextRing = s.nextRing + 1 := by
  obtain ⟨s₁, hs₁⟩ : ∃ s₁, s₁ = (s.setRing r { s.rings r with handedOff := true }).goto t
    .allocFresh := ⟨_, rfl⟩
  have hth : s₁.threads t = { s.threads t with pc := .allocFresh } := by
    rw [hs₁, threads_goto]
    rfl
  have hmark : step cfg s (.thread t) = some s₁ := by
    simp [step, threadStep, hpc, hr, threadRingStep, hpol, hs₁]
  have halloc : step cfg s₁ (.thread t) = some (alloc t s₁) := by
    simp [step, threadStep, hth, hr, threadRingStep]
  refine ⟨alloc t s₁, ?_, ?_⟩
  · simp only [Machine.run, system, hmark, halloc]
  · rw [hs₁]
    rfl

/-- Where the condition fails the thread turns to the drain: it spins on a live ring, is
about to carve a segment, or becomes a helper. -/
theorem not_lateOk {a : Action} (hok : ¬ LateOk cfg s a) (hstep : step cfg s a = some s') :
    ∃ t, a = .thread t ∧ (cfg.policy = .block ∧ Waiting s' t ∨
      cfg.policy = .quill ∧ (∃ s'', (system cfg).run s' [.thread t, .thread t] = some s'' ∧
        s''.nextRing = s'.nextRing + 1) ∨
      (s'.threads t).pc = .reserveHelper) := by
  unfold LateOk at hok
  split at hok
  next t =>
    refine ⟨t, rfl, ?_⟩
    split at hok
    next r hpc hr =>
      push Not at hok
      obtain ⟨hroom, hdrop, hblock, hnano⟩ := hok
      simp only [step, threadStep, hpc, hr, threadRingStep, reserve, Option.some.injEq] at hstep
      rw [if_neg hroom] at hstep
      cases hpol : cfg.policy with
      | drop => exact absurd hpol hdrop
      | nanoLog => exact absurd hpol hnano
      | block =>
        rw [hpol] at hstep
        subst hstep
        refine Or.inl ⟨rfl, ?_⟩
        unfold Waiting
        rw [threads_goto]
        refine ⟨r, hr, ?_⟩
        show (s.rings r).live = true
        simpa using hblock hpol
      | quill =>
        rw [hpol] at hstep
        subst hstep
        refine Or.inr (Or.inl ⟨rfl, quill_carves hpol (r := r) ?_ ?_⟩)
        · rw [threads_goto]
        · rw [threads_goto]
          exact hr
    next hpc =>
      simp only [step, threadStep, hpc] at hstep
      split at hstep
      next r hr =>
        simp only [threadRingStep, popSpare, not_not.mp hok, Option.some.injEq] at hstep
        subst hstep
        refine Or.inr (Or.inr ?_)
        rw [threads_goto]
      next => cases hstep
    next => exact absurd trivial hok
  next => exact absurd trivial hok

/-- **After the guard, log calls return where no one turns to the drain.** In every run
from a state in which `Guard::drop` has returned, all of whose accesses meet `LateOk`: a
thread that was outside a call at the drop is never waiting, can always go on inside a
call, makes at most `callSteps` accesses for each call it starts (the pool's handoffs
counted as calls), and queues no payload; and the rings grow by one for each acting
thread at most. Where the condition fails, a call waits on a live ring, carves a segment
for a later call of a thread that has one, or becomes a helper. -/
theorem late_calls_return (cfg : Config) :
    (∀ s₀ as s, (system cfg).Reach (Sys.init cfg) s₀ → s₀.guard = .dropped →
      (system cfg).runWhile (LateOk cfg) s₀ as = some s →
      (∀ t, inCall (s₀.threads t).pc = false →
        ¬ Waiting s t ∧
        (inCall (s.threads t).pc = true → ∃ s', step cfg s (.thread t) = some s') ∧
        as.count (.thread t) ≤ callSteps *
          (as.countP (Action.startsCall t) + s₀.spares.length + (actors as).card) ∧
        ∀ a s', a.actor = some t → LateOk cfg s a → step cfg s a = some s' →
          s'.lines = s.lines) ∧
      s.nextRing ≤ s₀.nextRing + (actors as).card ∧
      ((∀ t, inCall (s₀.threads t).pc = false) → s.lines = s₀.lines)) ∧
    (∀ s a s', (system cfg).Reach (Sys.init cfg) s → s.guard = .dropped → ¬ LateOk cfg s a →
      step cfg s a = some s' →
      ∃ t, a = .thread t ∧ (cfg.policy = .block ∧ Waiting s' t ∨
        cfg.policy = .quill ∧ (∃ s'', (system cfg).run s' [.thread t, .thread t] = some s'' ∧
          s''.nextRing = s'.nextRing + 1) ∨
        (s'.threads t).pc = .reserveHelper)) := by
  refine ⟨fun s₀ as s hreach hdrop hrun => ?_, fun s a s' _ _ hok hstep => not_lateOk hok hstep⟩
  have h₀ := reach_late hreach hdrop
  obtain ⟨h, -, hring, hset⟩ := late_runs (Finset.Subset.refl (actors as)) h₀ hrun
  refine ⟨fun t ht => ?_, ?_, fun hall => late_lines h₀ (fun t => .of_idle (hall t)) hrun⟩
  · obtain ⟨hst, hb⟩ := hset t (.of_idle ht)
    refine ⟨hst.not_waiting, hst.enabled h.dropped, ?_,
      fun a s' ha hok hstep => hst.lines h ha hok hstep⟩
    have hzero : callRank (s₀.threads t).pc = 0 := by
      cases hpc : (s₀.threads t).pc with
      | idle | exited => rfl
      | _ =>
        rw [hpc] at ht
        cases ht
    have hpool := pool_le_card (actors as) s₀
    unfold callBudget at hb
    rw [hzero, Nat.zero_add] at hb
    calc as.count (.thread t)
        ≤ callSteps * pool (actors as) s₀ + callSteps * as.countP (Action.startsCall t) :=
          Nat.le_trans (Nat.le_add_left _ _) hb
      _ = callSteps * (pool (actors as) s₀ + as.countP (Action.startsCall t)) :=
          (Nat.mul_add _ _ _).symm
      _ ≤ _ := Nat.mul_le_mul_left _ (by omega)
  · exact Nat.le_trans (Nat.le_add_right _ _) (Nat.le_trans hring (ringBudget_le_card _ _))

/-- The guard is dropped before anybody logs. -/
def dropFirst : List Action :=
  List.replicate 3 .guard ++ List.replicate 11 .drain ++ [.guard]

/-- Under Drop a thread fills its late ring and goes on. -/
theorem late_calls_return_drop :
    ∃ s₀ s, (system (smallConfig .drop)).run (Sys.init (smallConfig .drop)) dropFirst = some s₀ ∧
      (system (smallConfig .drop)).runWhile (LateOk (smallConfig .drop)) s₀
        (firstLog 0 64 ++ [.log 0 64, .thread 0]) = some s ∧
      s.published.length = 1 ∧ ¬ Waiting s 0 ∧ s.nextRing ≤ s₀.nextRing + 1 := by
  obtain ⟨s₀, hs₀⟩ := Option.isSome_iff_exists.mp
    (show ((system (smallConfig .drop)).run (Sys.init (smallConfig .drop)) dropFirst).isSome
      = true by decide +kernel)
  have hall : ((system (smallConfig .drop)).run (Sys.init (smallConfig .drop)) dropFirst).map
      (fun s₀ => (s₀.guard, (s₀.threads 0).pc,
        ((system (smallConfig .drop)).runWhile (LateOk (smallConfig .drop)) s₀
          (firstLog 0 64 ++ [.log 0 64, .thread 0])).map (·.published.length)))
      = some (.dropped, .idle, some 1) := by decide +kernel
  rw [hs₀, Option.map_some, Option.some.injEq, Prod.mk.injEq, Prod.mk.injEq] at hall
  obtain ⟨hdrop, hidle, hpub⟩ := hall
  obtain ⟨s, hs, hlen⟩ := Option.map_eq_some_iff.mp hpub
  have hret := (late_calls_return (smallConfig .drop)).1 s₀ _ s (Machine.run_runs hs₀) hdrop hs
  exact ⟨s₀, s, hs₀, hs, hlen, (hret.1 0 (by rw [hidle]; rfl)).1, hret.2.1⟩

/-- Two accesses of a thread that finds its live ring full under Block lead nowhere. -/
theorem spin_cycle {t r : Nat} (hpol : cfg.policy = .block)
    (hpc : (s.threads t).pc = .reserve) (hr : (s.threads t).ring = some r)
    (hroom : (s.rings r).hasRoom cfg.geometry (s.threads t).total = false)
    (hlive : (s.rings r).live = true) :
    (system cfg).run s [.thread t, .thread t] = some s := by
  have hspin : step cfg s (.thread t) = some (s.goto t .spin) := by
    simp [step, threadStep, hpc, hr, threadRingStep, reserve, hroom, hpol]
  have hback : step cfg (s.goto t .spin) (.thread t) = some ((s.goto t .spin).goto t .reserve) := by
    simp [step, threadStep, threads_goto, hr, threadRingStep,
      show ((s.goto t .spin).rings r).live = true from hlive]
  have hsame : (s.goto t .spin).goto t .reserve = s := by
    have hth : ({ (s.goto t .spin).threads t with pc := .reserve } : Thread) = s.threads t := by
      rw [threads_goto, ← hpc]
    rw [goto_eq, hth]
    simp only [setThread, goto, Function.update_idem, Function.update_eq_self]
  simp only [Machine.run, system, hspin, hback, hsame]

/-- Under Block a thread's first call after the drop fills its new ring; its second one
never returns. -/
theorem late_call_spins :
    ∃ s₀, (system (smallConfig .block)).Reach (Sys.init (smallConfig .block)) s₀ ∧
      s₀.guard = .dropped ∧ (s₀.threads 0).pc = .idle ∧
      ∀ n, ∃ as s, (system (smallConfig .block)).run s₀ as = some s ∧
        as.countP (Action.startsCall 0) = 2 ∧ n ≤ as.count (.thread 0) ∧
        inCall (s.threads 0).pc = true := by
  obtain ⟨s₀, hs₀⟩ := Option.isSome_iff_exists.mp
    (show ((system (smallConfig .block)).run (Sys.init (smallConfig .block)) dropFirst).isSome
      = true by decide +kernel)
  have hdrop : ((system (smallConfig .block)).run (Sys.init (smallConfig .block)) dropFirst).map
      (fun s₀ => (s₀.guard, (s₀.threads 0).pc)) = some (.dropped, .idle) := by decide +kernel
  rw [hs₀, Option.map_some, Option.some.injEq, Prod.mk.injEq] at hdrop
  obtain ⟨hdrop, hidle⟩ := hdrop
  have hfull : ((system (smallConfig .block)).run (Sys.init (smallConfig .block))
      (dropFirst ++ (firstLog 0 64 ++ [.log 0 64]))).map (fun s => ((s.threads 0).pc,
        (s.threads 0).ring, (s.rings 0).hasRoom (smallConfig .block).geometry
          (s.threads 0).total, (s.rings 0).live))
      = some (.reserve, some 0, false, true) := by decide +kernel
  rw [Machine.run_append hs₀] at hfull
  obtain ⟨s, hs, hfull⟩ := Option.map_eq_some_iff.mp hfull
  simp only [Prod.mk.injEq] at hfull
  obtain ⟨hpc, hr, hroom, hlive⟩ := hfull
  refine ⟨s₀, Machine.run_runs hs₀, hdrop, hidle, fun n => ?_⟩
  refine ⟨firstLog 0 64 ++ [.log 0 64] ++ (List.replicate n [.thread 0, .thread 0]).flatten, s,
    ?_, ?_, ?_, ?_⟩
  · rw [Machine.run_append hs]
    exact Machine.run_cycle (spin_cycle rfl hpc hr hroom hlive) n
  · have hnone : (List.replicate n [Action.thread 0, .thread 0]).flatten.countP
        (Action.startsCall 0) = 0 := by
      refine List.countP_eq_zero.mpr fun a ha => ?_
      obtain ⟨l, hl, hal⟩ := List.mem_flatten.mp ha
      rw [(List.mem_replicate.mp hl).2] at hal
      simp only [List.mem_cons, List.not_mem_nil, or_false, or_self] at hal
      rw [hal]
      exact Bool.false_ne_true
    rw [List.countP_append, hnone]
    decide
  · have hcount : (List.replicate n [Action.thread 0, .thread 0]).flatten.count (.thread 0)
        = n * 2 := by
      rw [List.count_flatten, List.map_replicate, List.sum_replicate]
      simp
    rw [List.count_append, hcount]
    omega
  · rw [hpc]
    rfl

end Sys

end Ticklog
