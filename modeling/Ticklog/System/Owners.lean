import Ticklog.System.Reclaim
import Ticklog.System.Teardown

/-!
# One owner for each segment (`src/segments.rs`, `src/drain.rs`, `src/thread_buf.rs`)

The pool holds a segment at most once, never one a producer can still write to, and no two
producers write to one ring, in every run in which the two parties that return segments do
not meet on one (`OwnOk`). They can meet: a producer that found the pool empty reserves its
handed-off segment without looking whether the drain has retired it meanwhile.
-/

namespace Ticklog

open Lib

namespace Sys

variable {cfg : Config} {s s' : Sys}

/-- Each segment is in the pool once, or the writable ring of one producer, or neither. -/
structure OneOwner (s : Sys) : Prop where
  once : s.spares.Nodup
  unwritten : ∀ r, r ∈ s.spares → ∀ t, ¬ Writes s t r
  single : ∀ r t t', Writes s t r → Writes s t' r → t = t'

theorem OwnInv.oneOwner (h : OwnInv s) : OneOwner s where
  once := h.hold.nodup
  unwritten := fun r hr t hw => h.hold.pooled r hr t hw.holds
  single := fun r t t' hw hw' => h.hold.alone r t t' hw.holds hw'.holds

theorem reach_own (h : (system cfg).Runs OwnOk (Sys.init cfg) s) : OwnInv s :=
  h.invariant (fun _ _ _ hinv hok hstep => step_own hinv hok hstep) init_own

/-- **One owner.** In every run whose accesses keep the two parties apart. -/
theorem segments_owned (cfg : Config) (s : Sys)
    (h : (system cfg).Runs OwnOk (Sys.init cfg) s) : OneOwner s :=
  (reach_own h).oneOwner

/-- The steps that plainly keep the condition: a reservation before the drain has looked at
the segment, and a drain whose test finds the reservation set. -/
def PlainlyOwned (s : Sys) : Action → Prop
  | .thread t =>
    match (s.threads t).pc with
    | .reserveHelper =>
      match (s.threads t).ring, s.drain.pc with
      | some r, .top => r ∈ s.registry ∧ (s.rings r).threadId = t
      | _, _ => False
    | .poolLive => False
    | _ => True
  | .drain =>
    match s.drain.pc with
    | .retire _ r _ .reserved => (s.rings r).helperReserved = true
    | _ => True
  | .guard => s.guard = .alive
  | _ => True

/-- The ring at one of the tests of `maybe_retire`. -/
def retiring (test : Retire) : LoopPc → Option Nat
  | .retire _ r _ test' => if test' = test then some r else none
  | _ => none

theorem plainlyOwned_thread {s : Sys} {t : Nat} : PlainlyOwned s (.thread t) ↔
    ((s.threads t).pc = .reserveHelper → ∃ r ∈ (s.threads t).ring,
      s.drain.pc = .top ∧ r ∈ s.registry ∧ (s.rings r).threadId = t) ∧
    (s.threads t).pc ≠ .poolLive := by
  unfold PlainlyOwned
  dsimp only
  cases (s.threads t).pc with
  | reserveHelper =>
    cases (s.threads t).ring with
    | none => simp
    | some r => cases s.drain.pc <;> simp
  | _ => simp

theorem plainlyOwned_drain {s : Sys} : PlainlyOwned s .drain ↔
    ∀ r ∈ retiring .reserved s.drain.pc, (s.rings r).helperReserved = true := by
  unfold PlainlyOwned retiring
  dsimp only
  cases s.drain.pc with
  | retire i r serial test => cases test <;> simp
  | _ => simp

instance (s : Sys) (a : Action) : Decidable (PlainlyOwned s a) :=
  match a with
  | .thread _ => decidable_of_iff' _ plainlyOwned_thread
  | .drain => decidable_of_iff' _ plainlyOwned_drain
  | .guard => inferInstanceAs (Decidable (s.guard = .alive))
  | .log _ _ | .wake _ | .exit _ => inferInstanceAs (Decidable True)

theorem PlainlyOwned.ok {a : Action} (h : PlainlyOwned s a) : OwnOk s a := by
  cases a with
  | thread t =>
    unfold PlainlyOwned at h
    unfold OwnOk
    cases hpc : (s.threads t).pc with
    | reserveHelper =>
      simp only [hpc] at h ⊢
      split at h
      next r hr htop =>
        intro r' hr' _
        obtain rfl : r' = r := Option.some.inj (hr'.symm.trans hr)
        refine ⟨h.1, h.2, ?_⟩
        unfold Retiring
        rw [htop]
        exact id
      next => exact h.elim
    | poolLive => simp only [hpc] at h
    | _ => simp only [hpc]
  | drain =>
    unfold PlainlyOwned at h
    unfold OwnOk
    cases hpc : s.drain.pc with
    | retire i r k test =>
      cases test with
      | reserved =>
        simp only [hpc] at h ⊢
        intro _ _ _ hres
        rw [h] at hres
        cases hres
      | _ => trivial
    | _ => trivial
  | guard =>
    unfold PlainlyOwned at h
    unfold OwnOk
    simp only [h]
  | log | exit | wake => trivial

/-- Thread 0 reserves its full segment, the drain skips it, and thread 0 formats and recycles
it. -/
theorem segments_owned_helped :
    ∃ s, (system onePool).runWhile PlainlyOwned (Sys.init onePool)
        (firstPooled 0 64 ++ .log 0 64 :: List.replicate 4 (.thread 0) ++
          List.replicate 13 .drain ++ List.replicate 19 (.thread 0)) = some s ∧
      s.spares = [0] ∧ OneOwner s := by
  have hrun : ((system onePool).runWhile PlainlyOwned (Sys.init onePool)
      (firstPooled 0 64 ++ .log 0 64 :: List.replicate 4 (.thread 0) ++
        List.replicate 13 .drain ++ List.replicate 19 (.thread 0))).map (·.spares)
      = some [0] := by decide +kernel
  obtain ⟨s, hs, hsp⟩ := Option.map_eq_some_iff.mp hrun
  refine ⟨s, hs, hsp, segments_owned onePool s ?_⟩
  exact (Machine.runWhile_runs hs).mono fun _ _ => PlainlyOwned.ok

/-- Thread 0 finds the pool empty; before its reservation the drain drains, retires and
recycles the segment it has just handed off. Thread 0 reserves it all the same, finds
nothing to format and recycles it once more. -/
theorem segment_pooled_twice :
    ¬ ∀ s, (system onePool).Reach (Sys.init onePool) s → OneOwner s := by
  intro hall
  have hend : ((system onePool).run (Sys.init onePool)
      (firstPooled 0 64 ++ .log 0 64 :: List.replicate 3 (.thread 0) ++
        List.replicate 31 .drain ++ List.replicate 16 (.thread 0))).map (·.spares)
      = some [0, 0] := by decide +kernel
  obtain ⟨s, hs, hsp⟩ := Option.map_eq_some_iff.mp hend
  have hn := (hall s (Machine.run_runs hs)).once
  rw [hsp] at hn
  cases hn with
  | cons h _ => exact h 0 List.mem_cons_self rfl

end Sys

end Ticklog
