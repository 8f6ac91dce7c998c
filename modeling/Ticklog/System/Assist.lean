import Ticklog.Lib.Possible
import Ticklog.System.Recycling
import Ticklog.System.Rounds

/-!
# The threads make way for the drain

Under `CircOk` the drain waits in two places: it does not mark a ring that a thread formats or
rewinds, and it does not test the reservation of one that its helper has just rewound. Either
wait can end by steps of threads alone (`makes_way`). A thread comes to the end of what it does
with a segment by its own accesses, each of which lowers `workRank`; and a segment in the pool
gets another incarnation once threads that have not logged yet have taken the segments above it.
-/

namespace Ticklog

open Lib Lib.Machine

namespace Sys

variable {cfg : Config} {s s' : Sys}

/-! ## What all runs keep -/

/-- There are threads that have not logged yet. -/
def Unstarted (s : Sys) : Prop := ∃ n, ∀ t, n ≤ t → s.threads t = Thread.new

/-- No ring is marked but the one of the pass under way. -/
def MarkedOnly (s : Sys) : Prop :=
  ∀ r, (s.rings r).draining = true → passing s.drain.pc = some r

theorem step_unstarted {a : Action} (h : Unstarted s) (hstep : step cfg s a = some s') :
    Unstarted s' := by
  obtain ⟨n, hn⟩ := h
  have hother : ∀ t, n ≤ t → a.actor ≠ some t → s'.threads t = Thread.new := by
    intro t ht hact
    rcases step_wakes hact hstep with hth | ⟨hpc, -, -⟩
    · rw [hth]
      exact hn t ht
    · rw [hn t ht] at hpc
      cases hpc
  cases hact : a.actor with
  | none => exact ⟨n, fun t ht => hother t ht (by rw [hact]; nofun)⟩
  | some t₀ =>
    refine ⟨max n (t₀ + 1), fun t ht => hother t (by omega) ?_⟩
    rw [hact]
    intro heq
    cases heq
    omega

/-- The drain unmarks a ring where it ends its pass. -/
theorem drain_markedOnly (h : MarkedOnly s) (hm : DrainMove cfg s s') : MarkedOnly s' := by
  intro r hd
  -- no store to `draining`, and the pass goes on if there was one
  have hkeep : s'.rings = s.rings → (passing s.drain.pc = some r → passing s'.drain.pc = some r) →
      passing s'.drain.pc = some r := by
    intro hrings hpass
    rw [hrings] at hd
    exact hpass (h r hd)
  have hset : ∀ {r₀ : Nat} {v : Ring}, (Function.update s.rings r₀ v r).draining = true →
      (r = r₀ ∧ v.draining = true) ∨ passing s.drain.pc = some r := by
    intro r₀ v hv
    by_cases hr : r = r₀
    · subst hr
      rw [Function.update_self] at hv
      exact Or.inl ⟨rfl, hv⟩
    · rw [Function.update_of_ne hr] at hv
      exact Or.inr (h r hv)
  cases hm with
  | @mark ctx r₀ hpc =>
    rcases hset hd with ⟨rfl, -⟩ | hp
    · rfl
    · rw [hpc] at hp
      cases hp
  | @pass ctx r₀ p p' ring' x hpc hp hst =>
    rcases hset hd with ⟨rfl, -⟩ | hp
    · rfl
    · rw [hpc] at hp
      exact hp
  | @clear ctx r₀ hpc =>
    rcases hset hd with ⟨-, hv⟩ | hp
    · cases hv
    · rw [hpc] at hp
      obtain rfl := Option.some.inj hp
      rw [drainTo_rings, setRing_rings, Function.update_self] at hd
      cases hd
  | @markRecycled ctx r₀ hpc =>
    rcases hset hd with ⟨rfl, hv⟩ | hp
    · have hp := h r hv
      rw [hpc] at hp
      cases hp
    · rw [hpc] at hp
      cases hp
  | passDone hpc => exact hkeep rfl fun hp => by rw [hpc] at hp; exact hp
  | syncNext hpc =>
    refine hkeep (syncNext_frame _).rings fun hp => ?_
    rw [hpc] at hp
    cases hp
  | syncLive hpc | syncDead hpc =>
    refine hkeep (syncDecide_frame _ _).rings fun hp => ?_
    rw [hpc] at hp
    cases hp
  | leave hpc | enter hpc | lock hpc | syncHalf hpc | finalRing hpc | finalDone hpc | entry hpc
  | stale hpc | pollDone hpc | skip hpc | unreserved hpc | keepEntry hpc | handedOff hpc
  | notReserved hpc | sameSerial hpc | loadHead hpc | drained hpc | retired hpc
  | notRecycled hpc | recycle hpc | takeLines hpc | deliver hpc | delivered hpc | lastPoll hpc
  | worked hpc | idleDirty hpc | idleClean hpc | lastFlush hpc | flush hpc | again hpc =>
    refine hkeep rfl fun hp => ?_
    rw [hpc] at hp
    cases hp

theorem step_markedOnly (hB : BacklogInv s) (h : MarkedOnly s) {a : Action} (hok : Undying s a)
    (hstep : step cfg s a = some s') : MarkedOnly s' := by
  by_cases ha : a = .drain
  · subst ha
    exact drain_markedOnly h (drainStep_move hstep)
  intro r hd
  rw [(step_drain_frame ha hstep).1]
  by_cases hr : r < s.nextRing
  · refine h r ?_
    have hw := step_writes ha hstep hr
    generalize s'.rings r = v at hw hd
    cases hw with
    | @reset t k why hpc =>
      match k with
      | 0 | 1 | 2 | 3 | 5 | 6 => exact hd
      | 4 => cases hd
      | k + 7 => exact hd
    | format hpc hr hst => exact (Pass.step_draining hst) ▸ hd
    | _ => exact hd
  · -- a ring that is not made yet is fresh
    obtain ⟨_, hfresh⟩ := hB.unmade r (Nat.le_of_not_lt hr)
    rcases step_unused hB.format.own.hold.bounded hok hstep (Nat.le_of_not_lt hr) with heq |
      ⟨-, heq⟩
    · rw [heq, hfresh] at hd
      cases hd
    · rw [heq] at hd
      cases hd

/-- What runs under `CircOk` keep. -/
structure BackInv (s : Sys) : Prop where
  circ : CircInv s
  order : GuardOrder s
  alive : s.guard = .alive
  unstarted : Unstarted s
  marked : MarkedOnly s

theorem init_back (hpol : cfg.policy = .nanoLog) : BackInv (Sys.init cfg) where
  circ := init_circ hpol
  order := init_order
  alive := rfl
  unstarted := ⟨0, fun _ _ => rfl⟩
  marked := nofun

theorem step_back (hpol : cfg.policy = .nanoLog) {a : Action} (h : BackInv s) (hok : CircOk s a)
    (hstep : step cfg s a = some s') : BackInv s' where
  circ := step_circ hpol h.circ hok hstep
  order := step_order h.order hstep
  alive := by
    have ha : a ≠ .guard := by
      rintro rfl
      exact hok.undying
    exact (step_guard_frame ha hstep).1.trans h.alive
  unstarted := step_unstarted h.unstarted hstep
  marked := step_markedOnly h.circ.ledger.backlog h.marked hok.undying hstep

theorem reach_back (hpol : cfg.policy = .nanoLog)
    (h : (system cfg).Runs CircOk (Sys.init cfg) s) : BackInv s :=
  h.invariant (fun _ _ _ hinv hok hstep => step_back hpol hinv hok hstep) (init_back hpol)

theorem BackInv.unlocked (h : BackInv s) (hpc : ∀ phase half, s.drain.pc ≠ .sync phase half) :
    s.registryLocked = false := by
  unfold registryLocked
  rw [h.alive]
  cases hat : s.drain.pc with
  | sync phase half => exact absurd hat (hpc phase half)
  | _ => rfl

/-- The drain is inside its loop and its next access is enabled. -/
theorem BackInv.drains (h : BackInv s) : ∃ s', step cfg s .drain = some s' := by
  refine Option.isSome_iff_exists.mp (drain_enabled (fun hstop => ?_) fun todo hm => ?_)
  · have hlast := h.order.stopped hstop
    rw [h.order.running h.alive] at hlast
    cases hlast
  · rw [h.alive] at hm
    cases hm

/-! ## A segment the drain is to retire -/

/-- Ring `r` waits for the drain: it is handed off, and its thread has not reserved it. -/
structure Waits (s : Sys) (r : Nat) : Prop where
  pooled : (s.rings r).recyclable = true
  listed : r ∈ s.registry
  off : (s.rings r).handedOff = true
  unhelped : ∀ t, ¬ Helps s t r

theorem Waits.unreserved {r : Nat} (h : Waits s r) (hB : BacklogInv s) :
    (s.rings r).helperReserved = false := by
  refine Bool.eq_false_iff.mpr fun hres => ?_
  obtain ⟨t, ht⟩ := hB.leased r hres
  refine h.unhelped t ?_
  unfold reserving at ht
  unfold Helps onLoan
  split at ht
  next hpc => rw [hpc]; exact ht
  next hpc => rw [hpc]; exact ht
  next hpc => rw [hpc]; exact ht
  next hpc =>
    rw [hpc]
    split at ht
    next => exact ht
    next => cases ht
  next => cases ht

theorem Waits.notPooled {r : Nat} (h : Waits s r) (hc : CircInv s) : r ∉ s.spares := by
  intro hsp
  have hoff := h.off
  rw [hc.stale r hsp h.listed] at hoff
  cases hoff

theorem Waits.notWritten {r t : Nat} (h : Waits s r) (hc : CircInv s)
    (hw : writing (s.threads t).pc = true) : (s.threads t).ring ≠ some r := by
  intro hr
  have hoff := h.off
  have hf := hc.own.hold.fit t
  unfold Fit at hf
  cases hpc : (s.threads t).pc with
  | idle | reserve | spin | publish | markHandedOff =>
    simp only [hpc] at hf
    rw [(hf r hr).2.1] at hoff
    cases hoff
  | _ =>
    rw [hpc] at hw
    cases hw

theorem Waits.notInHand {r t : Nat} (h : Waits s r) (hc : CircInv s) :
    inHand (s.threads t).pc ≠ some r := by
  intro hr
  have hoff := h.off
  have hh := hc.hands t
  have hf := hc.own.hold.fit t
  unfold Hands at hh
  unfold Fit at hf
  cases hpc : (s.threads t).pc with
  | reset why r' k =>
    rw [hpc] at hr
    obtain rfl := Option.some.inj hr
    simp only [hpc] at hh
    cases why with
    | initial | handoff =>
      rw [hh.2 h.listed] at hoff
      cases hoff
    | helper =>
      refine h.unhelped t ?_
      unfold Helps onLoan
      rw [hpc]
  | setInfo r' =>
    rw [hpc] at hr
    obtain rfl := Option.some.inj hr
    simp only [hpc] at hf
    rw [hf.1] at hoff
    cases hoff
  | register r' | switch r' =>
    rw [hpc] at hr
    obtain rfl := Option.some.inj hr
    simp only [hpc] at hf
    rw [hf.2.1] at hoff
    cases hoff
  | _ =>
    rw [hpc] at hr
    cases hr

/-- What became of ring `r` and the drain while threads acted that leave both alone. -/
structure Beside (r : Nat) (s s' : Sys) : Prop where
  drain : s'.drain = s.drain
  ring : s'.rings r = s.rings r
  waits : Waits s' r

theorem Beside.refl {r : Nat} (h : Waits s r) : Beside r s s := ⟨rfl, rfl, h⟩

theorem Beside.trans {r : Nat} {s₁ s₂ : Sys} (h : Beside r s s₁) (h' : Beside r s₁ s₂) :
    Beside r s s₂ :=
  ⟨h'.drain.trans h.drain, h'.ring.trans h.ring, h'.waits⟩

/-- Nobody but the drain has to do with a ring that waits, until its thread reserves it. -/
theorem Waits.beside {r : Nat} (hw : Waits s r) (h : CircInv s) {a : Action} (ha : a ≠ .drain)
    (hok : CircOk s a) (hno : ∀ t, a = .thread t → (s.threads t).pc = .reserveHelper →
      (s.threads t).ring ≠ some r) (hstep : step cfg s a = some s') : Beside r s s' := by
  have hd := (step_drain_frame ha hstep).1
  have hlt : r < s.nextRing := h.own.hold.bounded r (Or.inl (Or.inl hw.listed))
  have hring : s'.rings r = s.rings r := by
    have hwr := step_writes ha hstep hlt
    generalize s'.rings r = v at hwr ⊢
    cases hwr with
    | same => rfl
    | reset hpc | setInfo hpc | register hpc =>
      exact absurd (by rw [hpc]; rfl) (hw.notInHand h)
    | publish hpc hr | markHandedOff hpc hr =>
      exact absurd hr (hw.notWritten h (by rw [hpc]; rfl))
    | reserveHelper hpc hr => exact absurd hr (hno _ rfl hpc)
    | @format t p p' payload ring' x hpc hr =>
      refine (hw.unhelped t ?_).elim
      unfold Helps onLoan
      rw [hpc]
      exact hr
    | exit | mark => exact hok.undying.elim
  refine ⟨hd, hring, ⟨by rw [hring]; exact hw.pooled, ?_, by rw [hring]; exact hw.off, ?_⟩⟩
  · exact (keeps_registered h.intact hstep hw.listed).resolve_right fun hdr => ha hdr.1
  · intro t hhelp
    by_cases hact : a.actor = some t
    · cases a with
      | thread t' =>
        obtain rfl : t' = t := Option.some.inj hact
        rcases (thread_helps h.own.hold.helpersOwn (threadStep_move hstep)).mp hhelp with
          ⟨hhelp, -⟩ | ⟨hpc, hr⟩
        · exact hw.unhelped t' hhelp
        · exact hno t' rfl hpc hr
      | log t' total =>
        obtain rfl : t' = t := Option.some.inj hact
        obtain ⟨-, pc, hpc, rfl⟩ := log_inv hstep
        unfold Helps at hhelp
        rw [threads_self] at hhelp
        rcases hpc with rfl | rfl <;> cases hhelp
      | wake t' =>
        obtain rfl : t' = t := Option.some.inj hact
        obtain ⟨-, rfl⟩ := wake_inv hstep
        unfold Helps at hhelp
        rw [threads_goto] at hhelp
        cases hhelp
      | exit | guard => exact hok.undying.elim
      | drain => exact ha rfl
    · exact hw.unhelped t ((helps_other hact hstep).mp hhelp)

/-! ## A thread at work on a segment -/

/-- How far a thread is with the segment it formats, rewinds or prepares. -/
def workPlace : ThreadPc → ℕ
  | .formatWait => 21
  | .format p _ => 14 + passPlace p
  | .pushLines _ => 13
  | .reset _ _ k => 4 + (Ring.resetSteps - k)
  | .setInfo _ => 3
  | .register _ => 2
  | _ => 0

/-- The records it has yet to format. -/
def unformatted : ThreadPc → ℕ
  | .format (.scan tail headCache) _ => headCache - tail
  | _ => 0

/-- The place first, and inside a pass the records that are left. -/
def workRank (pc : ThreadPc) : ℕ ×ₗ ℕ := toLex (workPlace pc, unformatted pc)

/-- Nothing keeps thread `t` from its next access to the segment it works on. -/
def Working (s : Sys) (t : Nat) : Prop :=
  match (s.threads t).pc with
  | .formatWait => ∃ r, (s.threads t).ring = some r ∧ (s.rings r).draining = false
  | .format _ _ | .pushLines _ => ∃ r, (s.threads t).ring = some r
  | .reset _ r _ => passing s.drain.pc ≠ some r
  | .setInfo _ => True
  | .register _ => s.registryLocked = false
  | _ => False

/-- The condition speaks of four accesses of a thread only. -/
theorem thread_ok {t : Nat} (hreserve : (s.threads t).pc ≠ .reserveHelper)
    (hlive : (s.threads t).pc ≠ .poolLive)
    (hreset : ∀ why r k, (s.threads t).pc = .reset why r k → passing s.drain.pc ≠ some r)
    (hspare : (s.threads t).pc = .takeSpare → s.spares = []) : CircOk s (.thread t) := by
  refine ⟨⟨?_, hreset⟩, fun hpc _ _ _ => hspare hpc⟩
  unfold OwnOk
  dsimp only
  split
  next hpc => exact absurd hpc hreserve
  next hpc => exact absurd hpc hlive
  next => trivial

theorem Working.ok {t : Nat} (h : Working s t) : CircOk s (.thread t) := by
  unfold Working at h
  refine thread_ok (fun hpc => ?_) (fun hpc => ?_) (fun why r k hpc => ?_) fun hpc => ?_
  all_goals simp only [hpc] at h
  exact h

theorem workRank_place {pc pc' : ThreadPc} (h : workPlace pc' < workPlace pc) :
    workRank pc' < workRank pc :=
  Prod.Lex.toLex_lt_toLex.mpr (Or.inl h)

/-- Nor is there anything in the way of a helper's push. -/
theorem push_ok {t : Nat} (hpc : (s.threads t).pc = .recycle) : CircOk s (.thread t) := by
  refine thread_ok (fun hpc' => ?_) (fun hpc' => ?_) (fun why r k hpc' => ?_) fun hpc' => ?_
  all_goals
    rw [hpc] at hpc'
    cases hpc'

/-- Its access is enabled and brings it nearer to the end. -/
theorem Working.step {t : Nat} (h : Working s t) : ∃ s', step cfg s (.thread t) = some s' ∧
    workRank (s'.threads t).pc < workRank (s.threads t).pc := by
  unfold Working at h
  dsimp only [Sys.step, threadStep]
  cases hpc : (s.threads t).pc with
  | formatWait =>
    simp only [hpc] at h
    obtain ⟨r, hr, hd⟩ := h
    simp only [hr, threadRingStep, hd, Bool.false_eq_true, if_false]
    refine ⟨_, rfl, ?_⟩
    rw [threads_goto]
    exact workRank_place (by show 14 + 6 < 21; omega)
  | pushLines payload =>
    simp only [hpc] at h
    obtain ⟨r, hr⟩ := h
    simp only [hr, threadRingStep]
    refine ⟨_, rfl, ?_⟩
    rw [threads_goto]
    exact workRank_place (by show 4 + (8 - 0) < 13; omega)
  | format p payload =>
    simp only [hpc] at h
    obtain ⟨r, hr⟩ := h
    by_cases hp : p = .finished
    · subst hp
      simp only [hr, threadRingStep]
      refine ⟨_, rfl, ?_⟩
      rw [threads_goto]
      exact workRank_place (by show 13 < 14 + 0; omega)
    · obtain ⟨p', ring', x, hst⟩ : ∃ p' ring' x, Pass.step (s.rings r) p = (p', ring', x) :=
        ⟨_, _, _, rfl⟩
      have hnext : threadRingStep cfg t r s (.format p payload) =
          some ((s.setRing r ring').goto t (.format p' (payload ++ x.toList))) := by
        cases p with
        | finished => exact absurd rfl hp
        | _ => simp only [threadRingStep, hst]
      simp only [hr, hnext]
      refine ⟨_, rfl, ?_⟩
      rw [threads_goto]
      rcases pass_place hp hst with hlt | ⟨tail, headCache, rfl, rfl, hlt⟩
      · exact workRank_place (by show 14 + passPlace p' < 14 + passPlace p; omega)
      · refine Prod.Lex.toLex_lt_toLex.mpr (Or.inr ⟨rfl, ?_⟩)
        show headCache - (tail + 1) < headCache - tail
        omega
  | reset why r k =>
    dsimp only
    split
    next hk =>
      refine ⟨_, rfl, ?_⟩
      rw [threads_goto]
      refine workRank_place ?_
      show 4 + (Ring.resetSteps - (k + 1)) < 4 + (Ring.resetSteps - k)
      omega
    next =>
      refine ⟨_, rfl, ?_⟩
      rw [threads_goto]
      refine workRank_place (Nat.lt_of_lt_of_le (m := 4) ?_ (Nat.le_add_right 4 _))
      cases why
      all_goals
        dsimp only [afterReset, workPlace]
        omega
  | setInfo r =>
    refine ⟨_, rfl, ?_⟩
    rw [threads_goto]
    exact workRank_place (by show 2 < 3; omega)
  | register r =>
    simp only [hpc] at h
    simp only [h, Bool.false_eq_true, if_false]
    refine ⟨_, rfl, ?_⟩
    rw [threads_goto]
    exact workRank_place (by show 0 < 2; omega)
  | _ => simp only [hpc] at h

theorem Working.not_reserving {t : Nat} (h : Working s t) :
    (s.threads t).pc ≠ .reserveHelper := by
  intro hpc
  unfold Working at h
  simp only [hpc] at h

/-- A thread that is at work until `D` gets there. `K` is what its accesses keep on the way. -/
theorem work_ends (hpol : cfg.policy = .nanoLog) {t : Nat} {K D : Sys → Prop}
    (hwork : ∀ s, BackInv s → K s → ¬ D s → Working s t)
    (hkeep : ∀ s s', BackInv s → K s → ¬ D s → Working s t →
      step cfg s (.thread t) = some s' → K s')
    (h : BackInv s) (hK : K s) :
    (system cfg).Can CircOk (fun s' => BackInv s' ∧ K s' ∧ D s') s := by
  refine Can.ranked (I := fun s => BackInv s ∧ K s) (fun s => workRank (s.threads t).pc) ?_ ⟨h, hK⟩
  rintro s ⟨h, hK⟩
  by_cases hD : D s
  · exact .now (Or.inl ⟨h, hK, hD⟩)
  · have hw := hwork s h hK hD
    obtain ⟨s', hstep, hlt⟩ : ∃ s', step cfg s (.thread t) = some s' ∧ _ := hw.step
    exact .step hw.ok hstep (.now (Or.inr
      ⟨⟨step_back hpol h hw.ok hstep, hkeep s s' h hK hD hw hstep⟩, hlt⟩))

/-- It leaves aside what waits for the drain. -/
theorem Working.beside {t r : Nat} (h : Working s t) (hc : CircInv s) (hw : Waits s r)
    (hstep : Sys.step cfg s (.thread t) = some s') : Beside r s s' := by
  refine hw.beside hc (a := .thread t) nofun h.ok (fun t' ht hpc => ?_) hstep
  cases ht
  exact absurd hpc h.not_reserving

/-- A helper comes to the push of its segment, once the drain is not inside it. -/
theorem helps_pushes (hpol : cfg.policy = .nanoLog) {t r : Nat} {K : Sys → Prop}
    (hkeep : ∀ s s', BackInv s → K s → Working s t → step cfg s (.thread t) = some s' → K s')
    (h : BackInv s) (hK : K s) (hhelp : Helps s t r) (hpass : passing s.drain.pc ≠ some r) :
    (system cfg).Can CircOk (fun s' => BackInv s' ∧ K s' ∧ (s'.threads t).pc = .recycle ∧
      (s'.threads t).ring = some r) s := by
  refine (work_ends hpol (t := t) (D := fun s' => (s'.threads t).pc = .recycle)
    (K := fun s' => K s' ∧ Helps s' t r ∧ passing s'.drain.pc ≠ some r) ?_ ?_ h
    ⟨hK, hhelp, hpass⟩).mono ?_
  · rintro s h ⟨-, hhelp, hpass⟩ hpush
    unfold Helps onLoan at hhelp
    unfold Working
    cases hpc : (s.threads t).pc with
    | formatWait =>
      rw [hpc] at hhelp
      exact ⟨r, hhelp, Bool.eq_false_iff.mpr fun hd => hpass (h.marked r hd)⟩
    | format p payload | pushLines payload =>
      rw [hpc] at hhelp
      exact ⟨r, hhelp⟩
    | reset why r' k =>
      rw [hpc] at hhelp
      cases why with
      | initial | handoff => cases hhelp
      | helper =>
        obtain rfl := Option.some.inj hhelp
        exact hpass
    | recycle => exact absurd hpc hpush
    | _ =>
      rw [hpc] at hhelp
      cases hhelp
  · rintro s s' h ⟨hK, hhelp, hpass⟩ - hw hstep
    refine ⟨hkeep s s' h hK hw hstep, ?_, ?_⟩
    · refine (thread_helps h.circ.own.hold.helpersOwn (threadStep_move hstep)).mpr
        (Or.inl ⟨hhelp, fun hpc => ?_⟩)
      unfold Working at hw
      simp only [hpc] at hw
    · have hm : ThreadMove cfg t s s' := threadStep_move hstep
      rwa [hm.frame.1]
  · rintro s' ⟨h, ⟨hK, hhelp, -⟩, hpc⟩
    unfold Helps onLoan at hhelp
    rw [hpc] at hhelp
    exact ⟨h, hK, hpc, hhelp⟩

/-! ## Out of the pool -/

/-- Some threads have started, each with a segment of the pool. -/
structure Begun (s s' : Sys) : Prop where
  rings : s'.rings = s.rings
  registry : s'.registry = s.registry
  drain : s'.drain = s.drain
  threads : ∀ t, s'.threads t = s.threads t ∨
    (s.threads t = Thread.new ∧ ∃ q, (s'.threads t).pc = .reset .initial q 0)

theorem Begun.refl (s : Sys) : Begun s s := ⟨rfl, rfl, rfl, fun _ => Or.inl rfl⟩

theorem Begun.trans {s₁ s₂ : Sys} (h : Begun s s₁) (h' : Begun s₁ s₂) :
    Begun s s₂ := by
  refine ⟨h'.rings.trans h.rings, h'.registry.trans h.registry, h'.drain.trans h.drain,
    fun t => ?_⟩
  rcases h'.threads t with ht' | ⟨hnew, hpc⟩
  · rw [ht']
    exact h.threads t
  · rcases h.threads t with ht | ⟨-, q, hpc'⟩
    · exact Or.inr ⟨ht ▸ hnew, hpc⟩
    · rw [hnew] at hpc'
      cases hpc'

/-- A thread that starts takes the segment on top. -/
theorem takes_first (hpol : cfg.policy = .nanoLog) (h : BackInv s) {q : Nat} {rest : List Nat}
    (hsp : s.spares = q :: rest) : ∃ s', (system cfg).Runs CircOk s s' ∧ Begun s s' ∧
      s'.spares = rest ∧ ∃ t, (s'.threads t).pc = .reset .initial q 0 := by
  have hseg := Config.segmented_of_nanoLog hpol
  obtain ⟨t, hn⟩ := h.unstarted
  have ht := hn t (Nat.le_refl t)
  have hcall : (⟨.initRing, none, headerSize, 0⟩ : Thread).pc = .initRing := rfl
  generalize hth : (⟨.initRing, none, headerSize, 0⟩ : Thread) = th at hcall
  have hlog : step cfg s (.log t headerSize) = some (s.setThread t th) := by
    simp only [step, log, ht, Thread.new]
    rw [if_pos ⟨trivial, Nat.le_refl _, by decide⟩, ← hth]
  have hself : (s.setThread t th).threads t = th := threads_self _ _ _
  have hok : CircOk (s.setThread t th) (.thread t) := by
    refine thread_ok (fun hpc => ?_) (fun hpc => ?_) (fun why r k hpc => ?_) fun hpc => ?_
    all_goals
      rw [hself, hcall] at hpc
      cases hpc
  have htake : step cfg (s.setThread t th) (.thread t) =
      some ({ s.setThread t th with spares := rest }.goto t (.reset .initial q 0)) := by
    simp only [step, threadStep, hself, hcall, if_pos hseg, popSpare]
    rw [show (s.setThread t th).spares = q :: rest from hsp]
  have hpc : (({ s.setThread t th with spares := rest }.goto t (.reset .initial q 0)).threads
      t).pc = .reset .initial q 0 := by rw [threads_goto]
  refine ⟨_, .tail (Runs.single (a := .log t headerSize) trivial hlog) hok htake,
    ⟨rfl, rfl, rfl, fun t' => ?_⟩, rfl, t, hpc⟩
  by_cases hne : t' = t
  · subst hne
    exact Or.inr ⟨ht, q, hpc⟩
  · refine Or.inl ?_
    rw [goto_eq, setThread_threads, Function.update_of_ne hne]
    exact Function.update_of_ne hne _ _

/-- A segment of the pool is taken when those above it are. -/
theorem takes (hpol : cfg.policy = .nanoLog) (h : BackInv s) {q : Nat} (hq : q ∈ s.spares) :
    ∃ s', (system cfg).Runs CircOk s s' ∧ Begun s s' ∧
      ∃ t, (s'.threads t).pc = .reset .initial q 0 := by
  generalize hsp : s.spares = spares at hq
  induction spares generalizing s with
  | nil => cases hq
  | cons q₀ rest ih =>
    obtain ⟨s₁, hrun, hst, hsp₁, htake⟩ := takes_first hpol h hsp
    rcases List.mem_cons.mp hq with rfl | hq
    · exact ⟨s₁, hrun, hst, htake⟩
    · have h₁ : BackInv s₁ := hrun.invariant (fun _ _ _ => step_back hpol) h
      obtain ⟨s₂, hrun', hst', htake'⟩ := ih h₁ hsp₁ hq
      exact ⟨s₂, hrun.trans hrun', hst.trans hst', htake'⟩

/-- The pool is empty when all are taken. -/
theorem takes_all (hpol : cfg.policy = .nanoLog) (h : BackInv s) :
    ∃ s', (system cfg).Runs CircOk s s' ∧ Begun s s' ∧ s'.spares = [] := by
  generalize hsp : s.spares = spares
  induction spares generalizing s with
  | nil => exact ⟨s, .refl s, .refl s, hsp⟩
  | cons q rest ih =>
    obtain ⟨s₁, hrun, hst, hsp₁, -⟩ := takes_first hpol h hsp
    have h₁ : BackInv s₁ := hrun.invariant (fun _ _ _ => step_back hpol) h
    obtain ⟨s₂, hrun', hst', hempty⟩ := ih h₁ hsp₁
    exact ⟨s₂, hrun.trans hrun', hst.trans hst', hempty⟩

theorem Waits.started {r : Nat} (hw : Waits s r) (h : Begun s s') : Beside r s s' := by
  refine ⟨h.drain, congrFun h.rings r, ⟨?_, ?_, ?_, fun t hhelp => ?_⟩⟩
  · rw [h.rings]
    exact hw.pooled
  · rw [h.registry]
    exact hw.listed
  · rw [h.rings]
    exact hw.off
  · unfold Helps at hhelp
    rcases h.threads t with ht | ⟨-, q, hpc⟩
    · rw [ht] at hhelp
      exact hw.unhelped t hhelp
    · unfold onLoan at hhelp
      rw [hpc] at hhelp
      cases hhelp

/-! ## Out of the drain's way -/

/-- The drain may mark a ring once the thread that formats or rewinds it is through. -/
theorem quits (hpol : cfg.policy = .nanoLog) (h : BackInv s) {r : Nat} (hw : Waits s r)
    {ctx : PassCtx} {q : Nat} (hpc : s.drain.pc = .mark ctx q) :
    (system cfg).Can CircOk
      (fun s' => Beside r s s' ∧ ∀ t, reworking (s'.threads t) ≠ some q) s := by
  by_cases hno : ∃ t, reworking (s.threads t) = some q
  case neg => exact .now ⟨.refl hw, fun t ht => hno ⟨t, ht⟩⟩
  obtain ⟨t, ht⟩ := hno
  have hholds : ∀ {s : Sys} {t : Nat}, reworking (s.threads t) = some q → Holds s t q := by
    intro s t ht
    unfold reworking at ht
    split at ht
    next hpc => exact Or.inl ⟨ht, Or.inr (Or.inl (by rw [hpc]; rfl))⟩
    next hpc => exact Or.inr (by rw [hpc]; exact ht)
    next => cases ht
  -- one thread works on a ring at a time, so when this one is through nobody does
  have halone : ∀ t', t' ≠ t → reworking (s.threads t') ≠ some q := fun t' hne ht' =>
    hne (h.circ.own.hold.alone q t' t (hholds ht') (hholds ht))
  refine (work_ends hpol (t := t) (D := fun s' => reworking (s'.threads t) ≠ some q)
    (K := fun s' => Beside r s s' ∧ ∀ t', t' ≠ t → reworking (s'.threads t') ≠ some q) ?_ ?_ h
    ⟨.refl hw, halone⟩).mono ?_
  · rintro s' h' ⟨hbeside, -⟩ hstill
    have ht' : reworking (s'.threads t) = some q := not_not.mp hstill
    unfold Working
    unfold reworking at ht'
    split at ht'
    next hpc' =>
      simp only [hpc']
      exact ⟨q, ht'⟩
    next hpc' =>
      simp only [hpc', hbeside.drain, hpc]
      nofun
    next => cases ht'
  · rintro s₁ s₂ h₁ ⟨hbeside, hother⟩ - hwork hstep
    refine ⟨hbeside.trans (hwork.beside h₁.circ hbeside.waits hstep), fun t' hne ht' => ?_⟩
    have hact : (Action.thread t).actor ≠ some t' := fun heq => hne (Option.some.inj heq).symm
    rcases step_wakes hact hstep with hth | ⟨-, hth, -⟩
    · rw [hth] at ht'
      exact hother t' hne ht'
    · rw [hth] at ht'
      cases ht'
  · rintro s' ⟨-, ⟨hbeside, hother⟩, hdone⟩
    refine ⟨hbeside, fun t' => ?_⟩
    by_cases hne : t' = t
    · exact hne ▸ hdone
    · exact hother t' hne

/-- The ring a thread prepares and has not registered yet. -/
def preparing : ThreadPc → Option Nat
  | .reset .initial r _ | .reset .handoff r _ | .setInfo r | .register r => some r
  | _ => none

/-- A thread comes to the registration of the segment it prepares. -/
theorem reregisters (hpol : cfg.policy = .nanoLog) (h : BackInv s) {r : Nat} (hw : Waits s r)
    {i q k t : Nat} (hpc : s.drain.pc = .retire i q k .reserved)
    (ht : preparing (s.threads t).pc = some q) :
    (system cfg).Can CircOk (fun s' => Beside r s s' ∧ (s'.rings q).serial ≠ k) s := by
  refine (work_ends hpol (t := t) (D := fun s' => (s'.rings q).serial ≠ k)
    (K := fun s' => Beside r s s' ∧
      (preparing (s'.threads t).pc = some q ∨ (s'.rings q).serial ≠ k)) ?_ ?_ h
    ⟨.refl hw, Or.inl ht⟩).mono fun s' hs' => ⟨hs'.2.1.1, hs'.2.2⟩
  · rintro s' h' ⟨hbeside, hprep⟩ hsame
    have hprep := hprep.resolve_right hsame
    have hunlocked : s'.registryLocked = false :=
      h'.unlocked fun phase half hsync => by
        rw [hbeside.drain, hpc] at hsync
        cases hsync
    unfold Working
    cases hpc' : (s'.threads t).pc with
    | reset why r' k' =>
      simp only [hbeside.drain, hpc]
      nofun
    | setInfo => trivial
    | register => exact hunlocked
    | _ =>
      rw [hpc'] at hprep
      cases hprep
  · rintro s₁ s₂ h₁ ⟨hbeside, hprep⟩ hsame hwork hstep
    have hprep := hprep.resolve_right hsame
    refine ⟨hbeside.trans (hwork.beside h₁.circ hbeside.waits hstep), ?_⟩
    have hm : ThreadMove cfg t s₁ s₂ := threadStep_move hstep
    cases hm with
    | @reset why r' k' hpc' =>
      rw [hpc'] at hprep
      rw [threads_goto]
      cases why <;> exact Or.inl hprep
    | @resetLast why r' k' hpc' =>
      rw [hpc'] at hprep
      rw [threads_goto]
      cases why with
      | initial | handoff => exact Or.inl hprep
      | helper => cases hprep
    | setInfo hpc' =>
      rw [hpc'] at hprep
      rw [threads_goto]
      exact Or.inl hprep
    | register hpc' =>
      -- a serial that no entry of the list has yet
      rw [hpc'] at hprep
      obtain rfl := Option.some.inj hprep
      have hentry := h₁.circ.own.drain.entry i _ k (by rw [hbeside.drain, hpc]; rfl)
      have hlt := h₁.circ.own.drain.localNumbered _ (List.mem_of_getElem? hentry)
      rw [(register_serial hstep hpc').1]
      exact Or.inr (Nat.ne_of_gt hlt)
    | takeSpare hpc' =>
      rcases hpc' with hpc' | hpc' | hpc'
      all_goals
        rw [hpc'] at hprep
        cases hprep
    | noSpare hpc' =>
      rcases hpc' with ⟨hpc', -⟩ | ⟨hpc', -⟩ | ⟨hpc', -⟩
      all_goals
        rw [hpc'] at hprep
        cases hprep
    | takeFirst hpc' | allocFirst hpc' | switch hpc' | granted hpc' | full hpc' | spin hpc'
    | publish hpc' | markHandedOff hpc' | allocFresh hpc' | reserveHelper hpc' | formatSpin hpc'
    | formatEnter hpc' | formatDone hpc' | format hpc' | pushLines hpc' | recycle hpc'
    | poolLive hpc' | poolWait hpc' =>
      rw [hpc'] at hprep
      cases hprep

/-- A segment in the pool gets another incarnation by a thread that starts with it. -/
theorem renews_pooled (hpol : cfg.policy = .nanoLog) (h : BackInv s) {r : Nat} (hw : Waits s r)
    {i q k : Nat} (hpc : s.drain.pc = .retire i q k .reserved) (hq : q ∈ s.spares) :
    (system cfg).Can CircOk (fun s' => Beside r s s' ∧ (s'.rings q).serial ≠ k) s := by
  obtain ⟨s₁, hrun, hst, t, ht⟩ := takes hpol h hq
  have h₁ : BackInv s₁ := hrun.invariant (fun _ _ _ => step_back hpol) h
  have hbeside := hw.started hst
  have hcan := reregisters hpol h₁ hbeside.waits (i := i) (k := k) (t := t) (q := q)
    (by rw [hbeside.drain]; exact hpc) (by rw [ht]; rfl)
  refine Can.after hrun ?_
  exact hcan.mono fun s' hs' => ⟨hbeside.trans hs'.1, hs'.2⟩

/-- So does one that its helper is about to push. -/
theorem renews_pushed (hpol : cfg.policy = .nanoLog) (h : BackInv s) {r : Nat} (hw : Waits s r)
    {i q k t : Nat} (hpc : s.drain.pc = .retire i q k .reserved)
    (ht : (s.threads t).pc = .recycle) (hr : (s.threads t).ring = some q) :
    (system cfg).Can CircOk (fun s' => Beside r s s' ∧ (s'.rings q).serial ≠ k) s := by
  have hok := push_ok ht
  have hstep : step cfg s (.thread t) = some ((s.recycle q).goto t .poolTake) := by
    simp only [step, threadStep, ht, hr, threadRingStep]
  have hbeside : Beside r s ((s.recycle q).goto t .poolTake) := by
    refine hw.beside h.circ (a := .thread t) Action.noConfusion hok (fun t' heq hpc' => ?_) hstep
    cases heq
    rw [ht] at hpc'
    cases hpc'
  have hcan := renews_pooled hpol (step_back hpol h hok hstep) hbeside.waits (i := i) (q := q)
    (k := k) (by rw [hbeside.drain]; exact hpc) List.mem_cons_self
  exact .step hok hstep (hcan.mono fun s' hs' => ⟨hbeside.trans hs'.1, hs'.2⟩)

/-- And one that a thread has in hand. -/
theorem renews_held (hpol : cfg.policy = .nanoLog) (h : BackInv s) {r : Nat} (hw : Waits s r)
    {i q k t : Nat} (hpc : s.drain.pc = .retire i q k .reserved) (hreg : q ∈ s.registry)
    (hser : (s.rings q).serial = k) (ht : inHand (s.threads t).pc = some q) :
    (system cfg).Can CircOk (fun s' => Beside r s s' ∧ (s'.rings q).serial ≠ k) s := by
  by_cases hprep : preparing (s.threads t).pc = some q
  · exact reregisters hpol h hw hpc hprep
  cases hpc' : (s.threads t).pc with
  | reset why r' k' =>
    rw [hpc'] at ht hprep
    cases why with
    | initial | handoff => exact absurd ht hprep
    | helper =>
      have hhelp : Helps s t q := by
        unfold Helps onLoan
        rw [hpc']
        exact ht
      refine (helps_pushes hpol (K := fun s' => Beside r s s') ?_ h (.refl hw) hhelp
        (by rw [hpc]; nofun)).bind ?_
      · intro s₁ s₂ h₁ hbeside hwork hstep
        exact hbeside.trans (hwork.beside h₁.circ hbeside.waits hstep)
      · rintro s₁ ⟨h₁, hbeside, hpush, hr⟩
        have hcan := renews_pushed hpol h₁ hbeside.waits (i := i) (k := k)
          (by rw [hbeside.drain]; exact hpc) hpush hr
        exact hcan.mono fun s' hs' => ⟨hbeside.trans hs'.1, hs'.2⟩
  | switch r' =>
    -- the incarnation under test is nobody's
    rw [hpc'] at ht
    obtain rfl := Option.some.inj ht
    have htested := h.circ.own.drain.tested
    unfold Tested at htested
    simp only [hpc] at htested
    exact absurd (Or.inr hpc') (htested hreg hser t)
  | setInfo | register =>
    rw [hpc'] at ht hprep
    exact absurd ht hprep
  | _ =>
    rw [hpc'] at ht
    cases ht

/-- The drain waits nowhere else. -/
theorem drain_ok (hmark : ∀ ctx r, s.drain.pc ≠ .mark ctx r)
    (htest : ∀ i r k, s.drain.pc ≠ .retire i r k .reserved) : CircOk s .drain := by
  refine ⟨?_, fun ctx r hpc => absurd hpc (hmark ctx r)⟩
  unfold OwnOk
  dsimp only
  split
  next hpc => exact absurd hpc (htest _ _ _)
  next => trivial

/-- **The threads make way**: by steps of theirs that leave ring `r` alone the drain's next access
keeps the condition. -/
theorem makes_way (hpol : cfg.policy = .nanoLog) (h : BackInv s) {r : Nat} (hw : Waits s r) :
    (system cfg).Can CircOk (fun s' => Beside r s s' ∧ CircOk s' .drain) s := by
  cases hpc : s.drain.pc with
  | mark ctx q =>
    refine (quits hpol h hw hpc).mono fun s' ⟨hbeside, hno⟩ => ⟨hbeside, ?_, ?_⟩
    · unfold OwnOk
      simp only [hbeside.drain, hpc]
    · intro ctx' q' hpc'
      rw [hbeside.drain, hpc] at hpc'
      cases hpc'
      exact hno
  | retire i q k test =>
    by_cases hok : CircOk s .drain
    · exact .now ⟨.refl hw, hok⟩
    cases test with
    | reserved =>
      have hmark : ∀ {s' : Sys}, Beside r s s' → ∀ ctx q, s'.drain.pc ≠ .mark ctx q := by
        intro s' hbeside ctx q hpc'
        rw [hbeside.drain, hpc] at hpc'
        cases hpc'
      have hown : ¬ OwnOk s .drain := fun hown =>
        hok ⟨hown, fun ctx q hpc' => absurd hpc' (hmark (.refl hw) ctx q)⟩
      have hcan : (system cfg).Can CircOk
          (fun s' => Beside r s s' ∧ (s'.rings q).serial ≠ k) s := by
        unfold OwnOk at hown
        simp only [hpc] at hown
        push Not at hown
        obtain ⟨-, hreg, hser, -, hno⟩ := hown
        by_cases hq : q ∈ s.spares
        · exact renews_pooled hpol h hw hpc hq
        · obtain ⟨t, ht⟩ := hno hq
          by_cases hhand : inHand (s.threads t).pc = some q
          · exact renews_held hpol h hw hpc hreg hser hhand
          · obtain ⟨hpush, hr⟩ := ht hhand
            exact renews_pushed hpol h hw hpc hpush hr
      refine hcan.mono fun s' ⟨hbeside, hser⟩ =>
        ⟨hbeside, ?_, fun ctx q hpc' => absurd hpc' (hmark hbeside ctx q)⟩
      unfold OwnOk
      simp only [hbeside.drain, hpc]
      exact fun _ _ heq => absurd heq hser
    | handedOff | serial | head | tail | locked =>
      refine absurd (drain_ok (by rw [hpc]; nofun) ?_) hok
      rw [hpc]
      nofun
  | _ => exact .now ⟨.refl hw, drain_ok (by rw [hpc]; nofun) (by rw [hpc]; nofun)⟩

end Sys

end Ticklog
