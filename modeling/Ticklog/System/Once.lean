import Ticklog.System.Settle

/-!
# Each record is formatted once (`Backpressure::NanoLog`)

The drain and a helper are never inside `drain_ring_inner` on one ring, no record is delivered
twice, and each is delivered once the producers are quiet and the drain has synced and polled
again: in every run in which no mark of the drain comes after a helper's test (`FormatOk`). The
code does not rule that out: a producer may reserve its segment between the drain's test of
`helper_reserved` and its `mark_draining`, and both then format it.
-/

namespace Ticklog

open Lib

namespace Sys

variable {cfg : Config} {s s' : Sys}

/-- Each segment has one formatter at a time and each record reaches the sink once, in runs
whose steps are `ok`. -/
structure FormattedOnce (cfg : Config) (ok : Sys → Action → Prop) (s : Sys) : Prop where
  /-- The drain and a helper are not inside `drain_ring_inner` on one ring. -/
  apart : ∀ ctx r p, s.drain.pc = .pass ctx r p → ∀ t q payload,
    (s.threads t).ring = some r → (s.threads t).pc ≠ .format q payload
  known : ∀ x, x ∈ s.delivered → x ∈ s.published
  atMost : ∀ x, x ∈ s.published → s.delivered.count x ≤ 1
  /-- Quiet producers, and then a sync and a poll of the drain. -/
  exactly : Quiet s → s.drain.pc = .lock → ∀ s', (system cfg).Runs (Alone ok) s s' →
    s'.drain.pc = .decide → ∀ x, x ∈ s'.published → s'.delivered.count x = 1

theorem reach_ledger (h : (system cfg).Runs FormatOk (Sys.init cfg) s) : LedgerInv s :=
  h.invariant (fun _ _ _ hinv hok hstep => step_ledger hinv hok hstep) init_ledger

theorem LedgerInv.delivered_le (h : LedgerInv s) (x : Rec) :
    s.delivered.count x ≤ s.published.count x := by
  obtain ⟨d, payload, hacc⟩ := h.account x.ring
  have ht := hacc.tally x rfl
  omega

/-- **Each record once.** In every run in which the two formatters keep apart. -/
theorem formatted_once (cfg : Config) (hpol : cfg.policy = .nanoLog) (s : Sys)
    (h : (system cfg).Runs FormatOk (Sys.init cfg) s) : FormattedOnce cfg FormatOk s := by
  have hL := reach_ledger h
  have hnodup := hL.backlog.format.numbered.nodup
  refine ⟨fun ctx r p hpc => ?_, fun x hx => ?_, fun x hx => ?_,
    fun hquiet hpc s' hrun hpc' x hx => ?_⟩
  · exact hL.backlog.format.apart.unformatted r (by rw [hpc]; rfl)
  · have hle := hL.delivered_le x
    have hpos := List.count_pos_iff.mpr hx
    exact List.count_pos_iff.mp (Nat.lt_of_lt_of_le hpos hle)
  · rw [← List.count_eq_one_of_mem hnodup hx]
    exact hL.delivered_le x
  · have hstart : Round s := ⟨hL, hquiet, by
      unfold Swept
      rw [hpc]
      trivial⟩
    have hround : Round s' :=
      hrun.invariant (fun _ _ _ hinv hok hstep => step_round hpol hinv hok hstep) hstart
    exact hround.settled hpc' hx

/-- The drain is about to enter a pass. -/
def marks : LoopPc → Bool
  | .mark _ _ => true
  | _ => false

/-- The steps that plainly keep the condition: the drain marks nothing, and no ring is rewound
during a pass. -/
def PlainlyFormatted (s : Sys) : Action → Prop
  | .log _ _ | .wake _ => True
  | .thread t => PlainlyOwned s (.thread t) ∧
      (inHand (s.threads t).pc = none ∨ passing s.drain.pc = none)
  | .drain => PlainlyOwned s .drain ∧ marks s.drain.pc = false
  | .exit _ | .guard => False

instance (s : Sys) (a : Action) : Decidable (PlainlyFormatted s a) :=
  match a with
  | .log _ _ | .wake _ => inferInstanceAs (Decidable True)
  | .thread _ | .drain => inferInstanceAs (Decidable (_ ∧ _))
  | .exit _ | .guard => inferInstanceAs (Decidable False)

theorem PlainlyFormatted.ok {a : Action} (h : PlainlyFormatted s a) : FormatOk s a := by
  cases a with
  | thread t =>
    refine ⟨h.1.ok, fun why r k hpc hp => ?_⟩
    rcases h.2 with hno | hno
    · rw [hpc] at hno
      cases hno
    · rw [hno] at hp
      cases hp
  | drain =>
    refine ⟨h.1.ok, fun ctx r hpc => ?_⟩
    have hno := h.2
    rw [hpc] at hno
    cases hno
  | log | wake => trivial
  | exit | guard => exact h.elim

/-- Thread 0 reserves its full segment, the drain skips it, thread 0 formats it into the queue,
and the drain delivers the record. -/
def formattedByHelper : List Action :=
  firstPooled 0 64 ++ .log 0 64 :: List.replicate 4 (.thread 0) ++ List.replicate 13 .drain ++
    List.replicate 19 (.thread 0) ++ List.replicate 3 .drain

theorem formatted_once_helped :
    ∃ s, (system onePool).runWhile PlainlyFormatted (Sys.init onePool) formattedByHelper = some s ∧
      s.delivered = [⟨0, 0, 0, 64⟩] ∧ FormattedOnce onePool FormatOk s := by
  have hrun : ((system onePool).runWhile PlainlyFormatted (Sys.init onePool)
      formattedByHelper).map (·.delivered) = some [⟨0, 0, 0, 64⟩] := by decide +kernel
  obtain ⟨s, hs, hdel⟩ := Option.map_eq_some_iff.mp hrun
  refine ⟨s, hs, hdel, formatted_once onePool rfl s ?_⟩
  exact (Machine.runWhile_runs hs).mono fun _ _ => PlainlyFormatted.ok

/-- Thread 0 reserves its full segment after the drain has found it unreserved and before the
drain marks it. Thread 0 finds it unmarked, and both format it; the record is delivered from
the ring and from the queue. -/
def formattedByBoth : List Action :=
  firstPooled 0 64 ++ List.replicate 13 .drain ++ .log 0 64 :: List.replicate 5 (.thread 0) ++
    List.replicate 5 .drain ++ List.replicate 9 (.thread 0) ++ List.replicate 10 .drain

theorem formatted_twice :
    ¬ ∀ s, (system onePool).Runs Undying (Sys.init onePool) s →
      FormattedOnce onePool Undying s := by
  intro hall
  have hend : ((system onePool).runWhile Undying (Sys.init onePool) formattedByBoth).map
      (fun s => (s.published, s.delivered))
      = some ([⟨0, 0, 0, 64⟩], [⟨0, 0, 0, 64⟩, ⟨0, 0, 0, 64⟩]) := by decide +kernel
  obtain ⟨s, hs, hend⟩ := Option.map_eq_some_iff.mp hend
  obtain ⟨hpub, hdel⟩ := Prod.mk.inj hend
  have hmost := (hall s (Machine.runWhile_runs hs)).atMost ⟨0, 0, 0, 64⟩
    (by rw [hpub]; exact List.mem_singleton_self _)
  rw [hdel] at hmost
  exact absurd hmost (by decide)

end Sys

end Ticklog
