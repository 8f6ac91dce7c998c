import Ticklog.System.DrainMoves

/-!
# `Guard::drop` against the drain's loop (`src/guard.rs`)

The guard only moves forward, it marks rings only while no scan is under way and only rings
of the registry, and the drain leaves its loop only after `shutdown`. None of this depends
on the policy.
-/

namespace Ticklog

namespace Sys

variable {cfg : Config} {s s' : Sys}

/-- Only the guard's own steps move the guard. -/
theorem step_guard_frame {a : Action} (ha : a ≠ .guard) (hstep : step cfg s a = some s') :
    s'.guard = s.guard ∧ s'.shutdown = s.shutdown := by
  cases a with
  | log t total =>
    obtain ⟨-, pc, -, rfl⟩ := log_inv hstep
    exact ⟨rfl, rfl⟩
  | exit t =>
    obtain ⟨-, ⟨r, -, rfl⟩ | ⟨-, rfl⟩⟩ := exit_inv hstep
    · exact ⟨rfl, rfl⟩
    · exact ⟨rfl, rfl⟩
  | thread t =>
    have hf := (threadStep_move hstep).frame
    exact ⟨hf.2.1, hf.2.2.1⟩
  | wake t =>
    obtain ⟨-, rfl⟩ := wake_inv hstep
    exact ⟨rfl, rfl⟩
  | drain =>
    have hk := drain_keeps (drainStep_move hstep)
    exact ⟨hk.guard, hk.shutdown⟩
  | guard => exact absurd rfl ha

/-- The guard only moves forward. -/
theorem alive_before {a : Action} (hstep : step cfg s a = some s') (h : s'.guard = .alive) :
    s.guard = .alive := by
  by_cases ha : a = .guard
  · subst ha
    have hm : GuardMove s s' := guardStep_move hstep
    cases hm with
    | lock hg => exact hg
    | mark | unlock | signal | joined => cases h
  · exact (step_guard_frame ha hstep).1 ▸ h

/-- The rings the guard has yet to mark. -/
def toMark (s : Sys) : List Nat :=
  match s.guard with
  | .marking todo => todo
  | _ => []

theorem toMark_eq {todo : List Nat} (hg : s.guard = .marking todo) : toMark s = todo := by
  unfold toMark
  rw [hg]

/-- How `Guard::drop` and the drain relate. -/
structure GuardOrder (s : Sys) : Prop where
  /-- The guard marks rings only while no scan is under way. -/
  excluded : ∀ todo, s.guard = .marking todo → ∀ phase half, s.drain.pc ≠ .sync phase half
  signalled : s.shutdown = true → s.guard = .joining ∨ s.guard = .dropped
  left : s.drain.last = true → s.shutdown = true
  stopped : s.drain.pc = .stopped → s.drain.last = true

theorem init_order : GuardOrder (Sys.init cfg) := ⟨nofun, nofun, nofun, nofun⟩

/-- While the guard is alive there is no shutdown, -/
theorem GuardOrder.unsignalled (h : GuardOrder s) (ha : s.guard = .alive) :
    s.shutdown = false := by
  refine Bool.eq_false_iff.mpr fun hsh => ?_
  rcases h.signalled hsh with hg | hg <;> rw [ha] at hg <;> cases hg

/-- and the drain is inside its loop. -/
theorem GuardOrder.running (h : GuardOrder s) (ha : s.guard = .alive) : s.drain.last = false := by
  refine Bool.eq_false_iff.mpr fun hl => ?_
  have hsh := h.left hl
  rw [h.unsignalled ha] at hsh
  cases hsh

/-- No step of the drain enters a scan while the guard marks, leaves its loop before
`shutdown`, or stops before it left. -/
theorem drain_loop (h : GuardOrder s) (hm : DrainMove cfg s s') :
    (∀ todo, s.guard = .marking todo → ∀ phase half, s'.drain.pc ≠ .sync phase half) ∧
    (s'.drain.last = true → s.shutdown = true) ∧
    (s'.drain.pc = .stopped → s'.drain.last = true) := by
  have hscan : ∀ {s₁ : Sys} {phase : SyncPhase} {half : Bool}, s.drain.pc = .sync phase half →
      ScanFrame s s₁ → syncing s₁.drain.pc = true →
      (∀ todo, s.guard = .marking todo → ∀ phase half, s₁.drain.pc ≠ .sync phase half) ∧
      (s₁.drain.last = true → s.shutdown = true) ∧
      (s₁.drain.pc = .stopped → s₁.drain.last = true) := by
    intro s₁ phase half hpc hf hs
    refine ⟨fun todo hg => absurd hpc (h.excluded todo hg _ _), fun hl => ?_, fun hst => ?_⟩
    · exact h.left (hf.last ▸ hl)
    · rw [hst] at hs
      cases hs
  cases hm with
  | syncNext hpc hsub => exact hscan hpc (syncNext_frame _) (syncNext_syncing _)
  | syncLive hpc hsub hl => exact hscan hpc (syncDecide_frame _ _) (syncDecide_syncing hpc)
  | syncDead hpc hsub => exact hscan hpc (syncDecide_frame _ _) (syncDecide_syncing hpc)
  | syncHalf hpc hsub hl =>
    exact ⟨fun todo hg => absurd hpc (h.excluded todo hg _ _), h.left, nofun⟩
  | lock hpc hl =>
    refine ⟨fun todo hg => ?_, h.left, nofun⟩
    unfold registryLocked at hl
    rw [hg, Bool.or_true] at hl
    cases hl
  | leave hpc hsh => exact ⟨nofun, fun _ => hsh, nofun⟩
  | enter hpc hsh hnext =>
    rcases hnext with rfl | ⟨-, rfl⟩
    all_goals exact ⟨nofun, h.left, nofun⟩
  | pollDone hpc he hnext =>
    rcases hnext with ⟨-, rfl⟩ | ⟨-, rfl⟩
    all_goals exact ⟨nofun, h.left, nofun⟩
  | @clear ctx r hpc =>
    cases ctx with
    | final =>
      simp only [drainTo_drain, afterPass]
      cases cfg.segmented <;> exact ⟨nofun, h.left, nofun⟩
    | poll i k => exact ⟨nofun, h.left, nofun⟩
  | retired hpc hl hk hr =>
    simp only
    cases cfg.segmented <;> exact ⟨nofun, h.left, nofun⟩
  | @notRecycled ctx r hpc hr => cases ctx <;> exact ⟨nofun, h.left, nofun⟩
  | @recycle ctx r hpc => cases ctx <;> exact ⟨nofun, h.left, nofun⟩
  | lastFlush hpc hl => exact ⟨nofun, h.left, fun _ => hl⟩
  | finalRing | finalDone | entry | stale | skip | unreserved | mark | passDone | pass | keepEntry
  | handedOff | notReserved | sameSerial | loadHead | drained | markRecycled | takeLines | deliver
  | delivered | lastPoll | worked | idleDirty | idleClean | flush | again =>
    exact ⟨nofun, h.left, nofun⟩

theorem step_order {a : Action} (h : GuardOrder s) (hstep : step cfg s a = some s') :
    GuardOrder s' := by
  by_cases hdr : a = .drain
  · subst hdr
    have hm : DrainMove cfg s s' := drainStep_move hstep
    have hk := drain_keeps hm
    obtain ⟨h₁, h₂, h₃⟩ := drain_loop h hm
    refine ⟨?_, ?_, ?_, h₃⟩
    · rw [hk.guard]
      exact h₁
    · rw [hk.guard, hk.shutdown]
      exact h.signalled
    · rw [hk.shutdown]
      exact h₂
  by_cases hgu : a = .guard
  · subst hgu
    have hm : GuardMove s s' := guardStep_move hstep
    have hbefore : ∀ {gp : GuardPc}, s.guard = gp → gp ≠ .joining → gp ≠ .dropped →
        s.shutdown ≠ true := by
      intro gp hg hj hd hsh
      rcases h.signalled hsh with h' | h' <;> rw [hg] at h'
      · exact hj h'
      · exact hd h'
    cases hm with
    | lock hg hl =>
      refine ⟨fun todo _ phase half hpc => ?_, fun hsh => ?_, h.left, h.stopped⟩
      · unfold registryLocked at hl
        rw [show s.drain.pc = _ from hpc] at hl
        cases hl
      · exact absurd hsh (hbefore hg nofun nofun)
    | mark hg =>
      exact ⟨fun todo _ => h.excluded _ hg, fun hsh => absurd hsh (hbefore hg nofun nofun),
        h.left, h.stopped⟩
    | unlock hg =>
      exact ⟨nofun, fun hsh => absurd hsh (hbefore hg nofun nofun), h.left, h.stopped⟩
    | signal hg => exact ⟨nofun, fun _ => Or.inl rfl, fun _ => rfl, h.stopped⟩
    | joined hg hst => exact ⟨nofun, fun _ => Or.inr rfl, h.left, h.stopped⟩
  obtain ⟨hd, -⟩ := step_drain_frame hdr hstep
  obtain ⟨hg, hsh⟩ := step_guard_frame hgu hstep
  refine ⟨?_, ?_, ?_, ?_⟩
  · rw [hg, hd]
    exact h.excluded
  · rw [hg, hsh]
    exact h.signalled
  · rw [hd, hsh]
    exact h.left
  · rw [hd]
    exact h.stopped

end Sys

end Ticklog
