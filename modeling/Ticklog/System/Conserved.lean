import Ticklog.System.Comeback
import Ticklog.System.Once

/-!
# Segment conservation (`src/segments.rs`, `src/drain.rs`, `src/thread_buf.rs`)

Every handoff is followed by one return to the pool, and until then the segment can still come
back; the segments in circulation never become fewer, and a producer blocked on the pool always
has one to wait for (`segments_conserved`). A segment a thread has carved breaks this where the
thread leaves it for a spare: the drain retires it and drops it (`segment_dropped`).
-/

namespace Ticklog

open Lib

namespace Sys

variable {cfg : Config} {s s' : Sys}

/-! ## The ledger -/

/-- How often ring `r` was handed off along a run. -/
def handoffs (tr : List (Sys × Action)) (r : Nat) : Nat :=
  tr.countP fun e => handsOff e.1 e.2 = some r

/-- How often it was given back to the pool. -/
def returns (tr : List (Sys × Action)) (r : Nat) : Nat :=
  tr.countP fun e => givesBack e.1 e.2 = some r

/-- The rings in the pool, in use, or handed off and not yet given back. -/
def circulating (s : Sys) : Set Nat := {r | Circulates s r}

/-- Inside `take_pooled`, past the helper's push. -/
def blockedOnPool : ThreadPc → Bool
  | .poolTake | .poolLive | .poolWait | .asleep | .woken => true
  | _ => false

/-- A handed-off ring has gone back to the pool once, or is owed to it and can still be given
back; the rings in circulation never become fewer; and whoever is blocked on the pool may still
be given one: at least the ring it handed off itself is in circulation. -/
def Conserves (cfg : Config) (ok : Sys → Action → Prop) : Prop :=
  ∀ tr s, (system cfg).Traces ok (Sys.init cfg) tr s →
    (∀ r, (handoffs tr r = returns tr r + 1 ∧ Owed s r ∧ Retrievable cfg ok s r) ∨
      (handoffs tr r = returns tr r ∧ ¬ Owed s r)) ∧
    (∀ s', (system cfg).Runs ok s s' → (circulating s).ncard ≤ (circulating s').ncard) ∧
    ∀ t, blockedOnPool (s.threads t).pc = true →
      ∃ r, (s.threads t).ring = some r ∧ Circulates s r

theorem Circulates.inUse {r : Nat} (h : Circulates s r) : InUse s r := by
  rcases h with h | ⟨t, h⟩ | h
  · exact Or.inr (Or.inl h)
  · exact h.holds.inUse
  · exact h.inUse

theorem reach_bounded {ok : Sys → Action → Prop} (h : (system cfg).Runs ok (Sys.init cfg) s) :
    Bounded s :=
  h.invariant (I := Bounded) (fun _ _ _ hb _ hstep => step_bounded hb hstep) init_bounded

theorem circulating_finite (hb : Bounded s) : (circulating s).Finite :=
  (Set.finite_lt_nat s.nextRing).subset fun _ hr => hb _ hr.inUse

/-- The positions of a thread that may not have a ring yet. -/
def starting : ThreadPc → Bool
  | .idle | .initRing | .reset .initial _ _ | .reset .handoff _ _ | .setInfo _ | .register _
  | .switch _ | .exited => true
  | _ => false

/-- A thread gets past its first ring's preparation by having it. -/
def Started (s : Sys) : Prop :=
  ∀ t, (s.threads t).ring = none → starting (s.threads t).pc = true

theorem thread_started (hhelp : HelpersOwn s) {t : Nat} (hm : ThreadMove cfg t s s')
    (h : (s'.threads t).ring = none) : starting (s'.threads t).pc = true := by
  cases hm with
  | @resetLast why r k hpc hk =>
    rw [threads_goto] at h ⊢
    cases why with
    | initial | handoff => rfl
    | helper =>
      have hr : (s.threads t).ring = none := h
      rw [hhelp t r k hpc] at hr
      cases hr
  | @reset why r k hpc hk =>
    rw [threads_goto] at h ⊢
    cases why with
    | initial | handoff => rfl
    | helper =>
      have hr : (s.threads t).ring = none := h
      rw [hhelp t r k hpc] at hr
      cases hr
  | switch hpc =>
    rw [threads_self] at h
    cases h
  | takeFirst | setInfo | register =>
    rw [threads_goto]
    rfl
  | allocFirst | allocFresh =>
    rw [show (alloc t s).threads t = _ from threads_goto _ _ _]
    rfl
  | @publish r hpc hr =>
    rw [show (publish t r s).threads t = _ from threads_self _ _ _]
    rfl
  | formatSpin hpc hr =>
    rw [hr] at h
    cases h
  | granted hpc hr | full hpc hr | spin hpc hr | markHandedOff hpc hr | takeSpare hpc hr
  | noSpare hpc hr | reserveHelper hpc hr | formatEnter hpc hr | formatDone hpc hr
  | format hpc hr | pushLines hpc hr | recycle hpc hr | poolLive hpc hr | poolWait hpc hr =>
    rw [threads_goto] at h
    first
      | (rw [hr] at h; cases h)
      | (rw [show (s.recycle _).threads t = _ from recycle_threads _ _ _] at h
         split at h
         all_goals
           rw [show (s.threads t).ring = none from h] at hr
           cases hr)
      | (rw [show (s.threads t).ring = none from h] at hr
         cases hr)

theorem step_started (hhelp : HelpersOwn s) (h : Started s) {a : Action}
    (hstep : step cfg s a = some s') : Started s' := by
  intro t hring
  by_cases hact : a.actor = some t
  · cases a with
    | thread t' =>
      obtain rfl : t' = t := Option.some.inj hact
      exact thread_started hhelp (threadStep_move hstep) hring
    | log t' total =>
      obtain rfl : t' = t := Option.some.inj hact
      simp only [step, log] at hstep
      split at hstep
      next =>
        split at hstep
        next =>
          cases hstep
          rw [threads_self]
          rfl
        next hr =>
          cases hstep
          rw [threads_self] at hring
          rw [hring] at hr
          cases hr
      next => cases hstep
    | exit t' =>
      obtain rfl : t' = t := Option.some.inj hact
      obtain ⟨-, ⟨r, -, rfl⟩ | ⟨-, rfl⟩⟩ := exit_inv hstep
      all_goals
        rw [threads_self]
        rfl
    | wake t' =>
      obtain rfl : t' = t := Option.some.inj hact
      obtain ⟨hpc, rfl⟩ := wake_inv hstep
      rw [threads_goto] at hring
      have hs := h t' hring
      rw [hpc] at hs
      cases hs
    | drain | guard => cases hact
  · rcases step_wakes hact hstep with hth | ⟨hpc, hth, -⟩
    · rw [hth] at hring ⊢
      exact h t hring
    · rw [hth] at hring
      have hs := h t hring
      rw [hpc] at hs
      cases hs

/-- The books balance after every access. -/
theorem ledger (hpol : cfg.policy = .nanoLog) {tr : List (Sys × Action)}
    (h : (system cfg).Traces CircOk (Sys.init cfg) tr s) (r : Nat) :
    (handoffs tr r = returns tr r + 1 ∧ Owed s r) ∨
      (handoffs tr r = returns tr r ∧ ¬ Owed s r) := by
  induction h with
  | nil =>
    refine Or.inr ⟨rfl, ?_⟩
    rintro (⟨hrec, hdue | ⟨hreg, -⟩⟩ | ⟨t, hhelp | ⟨hoffer, -⟩⟩)
    · cases hdue
    · cases hreg
    · cases hhelp
    · cases hoffer
  | @snoc s s' tr a htr hok hstep ih =>
    have hinv := reach_circ hpol htr.runs
    have howed := owed_step hpol hinv hok (step_intact hinv.intact hok.undying hstep) hstep r
    have hfresh := @handsOff_fresh s hinv a r
    have hback := @givesBack_owed s hinv a r
    unfold handoffs returns at ih ⊢
    rw [List.countP_append, List.countP_append, List.countP_singleton, List.countP_singleton]
    by_cases hh : handsOff s a = some r
    · have hno := hfresh hh
      have hg : ¬ givesBack s a = some r := fun hg => hno (hback hg)
      simp only [hh, hg, decide_true, decide_false, if_true, Bool.false_eq_true, if_false]
      refine Or.inl ⟨?_, howed.mpr (Or.inr hh)⟩
      obtain ⟨ih, -⟩ := ih.resolve_left fun ho => hno ho.2
      omega
    · by_cases hg : givesBack s a = some r
      · simp only [hh, hg, decide_true, decide_false, if_true, Bool.false_eq_true, if_false]
        obtain ⟨ih, -⟩ := ih.resolve_right fun ho => ho.2 (hback hg)
        refine Or.inr ⟨by omega, fun ho => ?_⟩
        rcases howed.mp ho with ⟨-, hne⟩ | hoff
        · exact hne hg
        · exact hh hoff
      · simp only [hh, hg, decide_false, Bool.false_eq_true, if_false, Nat.add_zero]
        refine ih.imp (fun ⟨he, ho⟩ => ⟨he, howed.mpr (Or.inl ⟨ho, hg⟩)⟩)
          fun ⟨he, ho⟩ => ⟨he, fun ho' => ?_⟩
        rcases howed.mp ho' with ⟨ho', -⟩ | hoff
        · exact ho ho'
        · exact hh hoff

/-- **Segment conservation.** In every run of threads that start, log and hand off and of the
drain, in which the parties that return, format and rewind segments keep apart and no thread
leaves a carved segment for a spare. -/
theorem segments_conserved (cfg : Config) (hpol : cfg.policy = .nanoLog) :
    Conserves cfg CircOk := by
  intro tr s h
  have hinv := reach_circ hpol h.runs
  refine ⟨fun r => ?_, fun s' hs' => ?_, fun t ht => ?_⟩
  · exact (ledger hpol h r).imp (fun ⟨hcount, ho⟩ =>
      ⟨hcount, ho, owed_retrievable hpol (reach_back hpol h.runs) ho⟩) id
  · have hinv' := reach_circ hpol (h.runs.trans hs')
    have hsub : circulating s ⊆ circulating s' := by
      intro r hr
      have hlt := hinv.own.hold.bounded r hr.inUse
      refine hinv'.all r (Nat.lt_of_lt_of_le hlt ?_)
      exact hs'.invariant (I := fun s' => s.nextRing ≤ s'.nextRing)
        (fun _ _ _ hle _ hst => Nat.le_trans hle (step_nextRing hst)) (Nat.le_refl _)
    exact Set.ncard_le_ncard hsub (circulating_finite hinv'.own.hold.bounded)
  · have hstarted : Started s := by
      have hruns : (system cfg).Runs OwnOk (Sys.init cfg) s := h.runs.mono fun _ _ => CircOk.own
      have hboth := hruns.invariant (I := fun s => OwnInv s ∧ Started s)
        (fun _ _ _ hs hok hst => ⟨step_own hs.1 hok hst,
          step_started hs.1.hold.helpersOwn hs.2 hst⟩)
        ⟨init_own, fun _ _ => rfl⟩
      exact hboth.2
    cases hr : (s.threads t).ring with
    | none =>
      have hs := hstarted t hr
      cases hpc : (s.threads t).pc <;> simp_all [starting, blockedOnPool]
    | some r =>
      exact ⟨r, rfl, hinv.all r (hinv.own.hold.bounded r (Or.inr (Or.inr ⟨t, Or.inl hr⟩)))⟩

/-- The steps that plainly keep the condition: a full segment is not left for a spare at all. -/
def PlainlyCirculates (s : Sys) (a : Action) : Prop :=
  PlainlyFormatted s a ∧
    match a with
    | .thread t => (s.threads t).pc = .takeSpare → s.spares = []
    | _ => True

instance (s : Sys) (a : Action) : Decidable (PlainlyCirculates s a) :=
  match a with
  | .thread t => inferInstanceAs (Decidable (PlainlyFormatted s (.thread t) ∧ (_ → _)))
  | .log t total => inferInstanceAs (Decidable (PlainlyFormatted s (.log t total) ∧ True))
  | .exit t => inferInstanceAs (Decidable (PlainlyFormatted s (.exit t) ∧ True))
  | .wake t => inferInstanceAs (Decidable (PlainlyFormatted s (.wake t) ∧ True))
  | .drain => inferInstanceAs (Decidable (PlainlyFormatted s .drain ∧ True))
  | .guard => inferInstanceAs (Decidable (PlainlyFormatted s .guard ∧ True))

theorem PlainlyCirculates.ok {a : Action} (h : PlainlyCirculates s a) : CircOk s a := by
  cases a with
  | thread t => exact ⟨h.1.ok, fun hpc _ _ _ => h.2 hpc⟩
  | log | wake | drain | exit | guard => exact h.1.ok

/-- Thread 0 hands its segment off and reserves it. -/
def handedOver : List Action := firstPooled 0 64 ++ .log 0 64 :: List.replicate 4 (.thread 0)

/-- It can still be given back; and when thread 0 has formatted it as a helper and given it back,
the thread stands before the pool. -/
theorem segments_conserved_helped :
    (∃ tr s, (system onePool).Traces CircOk (Sys.init onePool) tr s ∧
      (s.threads 0).pc = .formatWait ∧ handoffs tr 0 = returns tr 0 + 1 ∧
      Retrievable onePool CircOk s 0) ∧
    ∃ tr s, (system onePool).Traces CircOk (Sys.init onePool) tr s ∧
      s.spares = [0] ∧ (s.threads 0).pc = .poolTake ∧
      ((handoffs tr 0 = returns tr 0 + 1 ∧ Owed s 0) ∨
        (handoffs tr 0 = returns tr 0 ∧ ¬ Owed s 0)) ∧
      ∃ r, (s.threads 0).ring = some r ∧ Circulates s r := by
  have hrun : ((system onePool).runWhile PlainlyCirculates (Sys.init onePool) handedOver).map
      (fun s => ((s.threads 0).pc, (s.threads 0).ring)) = some (.formatWait, some 0) := by
    decide +kernel
  have hrun' : ((system onePool).runWhile PlainlyCirculates (Sys.init onePool)
      (handedOver ++ List.replicate 13 .drain ++ List.replicate 19 (.thread 0))).map
        (fun s => (s.spares, (s.threads 0).pc)) = some ([0], .poolTake) := by decide +kernel
  constructor
  · obtain ⟨s, hs, hend⟩ := Option.map_eq_some_iff.mp hrun
    obtain ⟨hpc, hring⟩ := Prod.mk.inj hend
    obtain ⟨tr, htr⟩ := ((Machine.runWhile_runs hs).mono fun _ _ => PlainlyCirculates.ok).traces
    have hhelp : Helps s 0 0 := by
      unfold Helps onLoan
      rw [hpc]
      exact hring
    obtain ⟨hcount, -, hback⟩ := ((segments_conserved onePool rfl tr s htr).1 0).resolve_right
      fun hno => hno.2 (Or.inr ⟨0, Or.inl hhelp⟩)
    exact ⟨tr, s, htr, hpc, hcount, hback⟩
  · obtain ⟨s, hs, hend⟩ := Option.map_eq_some_iff.mp hrun'
    obtain ⟨hsp, hpc⟩ := Prod.mk.inj hend
    obtain ⟨tr, htr⟩ := ((Machine.runWhile_runs hs).mono fun _ _ => PlainlyCirculates.ok).traces
    obtain ⟨hledger, -, hblocked⟩ := segments_conserved onePool rfl tr s htr
    refine ⟨tr, s, htr, hsp, hpc, ?_, hblocked 0 (by rw [hpc]; rfl)⟩
    exact (hledger 0).imp (fun ⟨hcount, ho, _⟩ => ⟨hcount, ho⟩) id

/-- Thread 0 has the pool's one segment and thread 1 starts with one of its own. -/
def bothStarted : List Action := firstPooled 0 64 ++ firstLog 1 64

/-- Thread 0 formats and recycles its segment; thread 1 hands its own off directly to that
spare, and the drain retires and drops it. -/
def droppedSegment : List Action :=
  .log 0 64 :: List.replicate 23 (.thread 0) ++ .log 1 64 :: List.replicate 3 (.thread 1) ++
    List.replicate 43 .drain

/-- The segment a thread made on an empty pool leaves circulation: the drain retires it and
does not push it, for it did not come from the pool. -/
theorem segment_dropped : ¬ Conserves onePool Undying := by
  intro hall
  have hstart : ((system onePool).runWhile Undying (Sys.init onePool) bothStarted).map
      (fun s => ((s.threads 0).pc, (s.threads 0).ring, (s.threads 1).pc, (s.threads 1).ring))
      = some (.idle, some 0, .idle, some 1) := by decide +kernel
  obtain ⟨s₁, hs₁, hstart⟩ := Option.map_eq_some_iff.mp hstart
  simp only [Prod.mk.injEq] at hstart
  obtain ⟨hpc₀', hring₀, hpc, hring⟩ := hstart
  have hdrop : (((system onePool).runWhile Undying (Sys.init onePool) bothStarted).bind fun s =>
      (system onePool).runWhile Undying s droppedSegment).map
        (fun s => ((s.spares, s.registry, s.nextRing), s.drain.pc, (s.threads 0).pc,
          (s.threads 1).pc))
      = some (([], [0], 2), .takeLines, .poolTake, .reset .handoff 0 0) := by decide +kernel
  obtain ⟨s₂, hs₂, hdrop⟩ := Option.map_eq_some_iff.mp hdrop
  simp only [Prod.mk.injEq] at hdrop
  obtain ⟨⟨hsp, hreg, hnext⟩, hdpc, hpc₀, hpc₁⟩ := hdrop
  rw [hs₁, Option.bind_some] at hs₂
  have hidle : ∀ t, t ≠ 0 → t ≠ 1 → s₂.threads t = Thread.new := by
    intro t h₀ h₁
    have hrun : (system onePool).run (Sys.init onePool) (bothStarted ++ droppedSegment)
        = some s₂ := by
      rw [Machine.run_append (Machine.runWhile_run hs₁)]
      exact Machine.runWhile_run hs₂
    have hnew : ((Sys.init onePool).threads t).pc ≠ .asleep := nofun
    refine run_others (fun a ha hact => ?_) hnew hrun
    have hwho : ∀ a, a ∈ bothStarted ++ droppedSegment →
        a.actor = some 0 ∨ a.actor = some 1 ∨ a.actor = none := by decide
    rcases hwho a ha with hw | hw | hw
    all_goals
      rw [hact] at hw
    · exact h₀ (Option.some.inj hw)
    · exact h₁ (Option.some.inj hw)
    · cases hw
  have hruns₁ := Machine.runWhile_runs hs₁
  have hruns₂ := Machine.runWhile_runs hs₂
  obtain ⟨tr, htr⟩ := hruns₁.traces
  have hle := (hall tr s₁ htr).2.1 s₂ hruns₂
  -- two rings before
  have hboth : ({0, 1} : Set Nat) ⊆ circulating s₁ := by
    rintro r (rfl | rfl)
    · exact Or.inr (Or.inl ⟨0, by unfold Uses ownRing; rw [hpc₀']; exact hring₀⟩)
    · exact Or.inr (Or.inl ⟨1, by unfold Uses ownRing; rw [hpc]; exact hring⟩)
  have htwo := Set.ncard_le_ncard hboth (circulating_finite (reach_bounded hruns₁))
  rw [Set.ncard_pair (by decide)] at htwo
  -- nobody has the segment any more
  have hthread : ∀ t, ownRing (s₂.threads t) ≠ some 1 ∧ onLoan (s₂.threads t) ≠ some 1 ∧
      offering (s₂.threads t).pc = false := by
    intro t
    by_cases h₀ : t = 0
    · subst h₀
      unfold ownRing onLoan
      rw [hpc₀]
      exact ⟨nofun, nofun, rfl⟩
    · by_cases h₁ : t = 1
      · subst h₁
        unfold ownRing onLoan
        rw [hpc₁]
        exact ⟨nofun, nofun, rfl⟩
      · rw [hidle t h₀ h₁]
        exact ⟨nofun, nofun, rfl⟩
  have hone : circulating s₂ ⊆ {0} := by
    intro r hr
    have hlt : r < s₂.nextRing := reach_bounded (hruns₁.trans hruns₂) r hr.inUse
    rw [hnext] at hlt
    have hne : r ≠ 1 := by
      rintro rfl
      rcases hr with h | ⟨t, h⟩ | ⟨-, hdue | ⟨h, -⟩⟩ | ⟨t, hhelp | ⟨hoffer, -⟩⟩
      · rw [hsp] at h
        cases h
      · exact (hthread t).1 h
      · unfold due at hdue
        rw [hdpc] at hdue
        cases hdue
      · rw [hreg] at h
        cases List.mem_singleton.mp h
      · exact (hthread t).2.1 hhelp
      · rw [(hthread t).2.2] at hoffer
        cases hoffer
    have hzero : r = 0 := by omega
    exact hzero
  have hlast := Set.ncard_le_ncard hone (Set.finite_singleton 0)
  rw [Set.ncard_singleton] at hlast
  omega

end Sys

end Ticklog
