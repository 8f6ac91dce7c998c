import Ticklog.System.Assist
import Ticklog.System.Settle

/-!
# What is owed can come back

In every state of a run under `CircOk`, a ring owed to the pool can still be given back by a run
under `CircOk` (`owed_retrievable`). A ring the drain has retired is pushed by its next accesses.
A helper goes on to its push once the drain has ended its pass over the ring. A thread that has
handed off a carved segment reserves it once the pool is empty. And a ring that waits for the
drain is retired in the drain's next full round: the sync lists it with its serial, the pass
reads it to its end, and every test of `maybe_retire` says yes (`Sought`).
-/

namespace Ticklog

open Lib Lib.Machine

namespace Sys

variable {cfg : Config} {s s' : Sys}

/-- Some run of steps that are `ok` gives ring `r` back. -/
def Retrievable (cfg : Config) (ok : Sys → Action → Prop) (s : Sys) (r : Nat) : Prop :=
  (system cfg).Can ok
    (fun s' => ∃ a, ok s' a ∧ (step cfg s' a).isSome ∧ givesBack s' a = some r) s

/-! ## Retired -/

theorem returning_ok {ctx : PassCtx} {r : Nat}
    (hpc : s.drain.pc = .markRecycled ctx r ∨ s.drain.pc = .recycle ctx r) : CircOk s .drain := by
  refine drain_ok (fun ctx' q hpc' => ?_) fun i q k hpc' => ?_
  all_goals
    rw [hpc'] at hpc
    rcases hpc with hpc | hpc <;> cases hpc

theorem due_retrievable (h : BackInv s) {r : Nat} (hrec : (s.rings r).recyclable = true)
    (hdue : r ∈ due s.drain) : Retrievable cfg CircOk s r := by
  have hpush : ∀ {s : Sys} {ctx : PassCtx}, s.drain.pc = .recycle ctx r →
      Retrievable cfg CircOk s r := by
    intro s ctx hpc
    refine .now ⟨.drain, returning_ok (Or.inr hpc), ?_, ?_⟩
    · simp only [step, drainStep, hpc, Option.isSome_some]
    · rw [givesBack, hpc]
  obtain ⟨i, k, hpc | hpc⟩ := h.circ.intact.due hdue
  · have hnew := h.circ.unmarked _ _ hpc hrec
    have hstep : step cfg s .drain = some ((s.setRing r
        { s.rings r with recycled := true }).drainTo (.recycle (.poll i k) r)) := by
      simp only [step, drainStep, hpc, hrec, hnew, Bool.not_false, Bool.and_true, if_true]
    exact .step (returning_ok (Or.inl hpc)) hstep (hpush rfl)
  · exact hpush hpc

/-! ## On loan to its helper -/

theorem helped_retrievable (hpol : cfg.policy = .nanoLog) (h : BackInv s) {t r : Nat}
    (hhelp : Helps s t r) : Retrievable cfg CircOk s r := by
  -- the drain ends the pass it may be in
  have hclear : (system cfg).Can CircOk
      (fun s' => BackInv s' ∧ Helps s' t r ∧ passing s'.drain.pc ≠ some r) s := by
    refine Can.ranked (I := fun s => BackInv s ∧ Helps s t r) (fun s => roundRank s.drain) ?_
      ⟨h, hhelp⟩
    rintro s ⟨h, hhelp⟩
    by_cases hpass : passing s.drain.pc = some r
    case neg => exact .now (Or.inl ⟨h, hhelp, hpass⟩)
    have hok : CircOk s .drain := by
      refine drain_ok (fun ctx q hpc => ?_) fun i q k hpc => ?_
      all_goals
        rw [hpc] at hpass
        cases hpass
    have htop : s.drain.pc ≠ .top := by
      intro hpc
      rw [hpc] at hpass
      cases hpass
    obtain ⟨s', hstep⟩ : ∃ s', step cfg s .drain = some s' := h.drains
    have hact : Action.drain.actor ≠ some t := nofun
    exact .step hok hstep (.now (Or.inr ⟨⟨step_back hpol h hok hstep,
      (helps_other hact hstep).mpr hhelp⟩,
      drain_rank h.circ.own.drain.entry (drainStep_move hstep) htop⟩))
  refine hclear.bind fun s₁ ⟨h₁, hhelp₁, hpass₁⟩ => ?_
  refine (helps_pushes hpol (K := fun _ => True) (fun _ _ _ _ _ _ => trivial) h₁ trivial hhelp₁
    hpass₁).mono fun s₂ ⟨_, _, hpc, hr⟩ => ⟨.thread t, push_ok hpc, ?_, ?_⟩
  · simp only [step, threadStep, hpc, hr, threadRingStep, Option.isSome_some]
  · rw [givesBack, if_pos hpc]
    exact hr

/-! ## With the thread that carved it -/

theorem retained_retrievable (hpol : cfg.policy = .nanoLog) (h : BackInv s) {t r : Nat}
    (hkeep : Retains s t r) : Retrievable cfg CircOk s r := by
  have hreserve : ∀ {s : Sys}, BackInv s → (s.threads t).pc = .reserveHelper →
      (s.threads t).ring = some r → (s.rings r).recyclable = false →
      Retrievable cfg CircOk s r := by
    intro s h hpc hr hrec
    have hok : CircOk s (.thread t) := by
      refine ⟨⟨?_, fun why q k hpc' => ?_⟩, fun hpc' => ?_⟩
      · unfold OwnOk
        simp only [hpc]
        intro r' hr' hrec'
        rw [Option.some.inj (hr'.symm.trans hr), hrec] at hrec'
        cases hrec'
      all_goals
        rw [hpc] at hpc'
        cases hpc'
    have hstep : step cfg s (.thread t) = some ((s.setRing r
        { s.rings r with helperReserved := true }).goto t .formatWait) := by
      simp only [step, threadStep, hpc, hr, threadRingStep]
    refine .step hok hstep (helped_retrievable hpol (step_back hpol h hok hstep) (t := t) ?_)
    unfold Helps
    rw [threads_goto]
    exact hr
  -- threads that start empty the pool, so the thread finds no spare and reserves its own segment
  obtain ⟨s₁, hrun, hst, hempty⟩ := takes_all hpol h
  have h₁ : BackInv s₁ := hrun.invariant (fun _ _ _ => step_back hpol) h
  obtain ⟨hpc, hr, hrec⟩ := hkeep
  have hth : s₁.threads t = s.threads t := by
    refine (hst.threads t).resolve_right fun hnew => ?_
    rw [hnew.1] at hpc
    cases hpc
  rw [← hth] at hpc hr
  have hrec₁ : (s₁.rings r).recyclable = false := by rw [hst.rings, hrec]
  refine Can.after hrun ?_
  cases hpc' : (s₁.threads t).pc with
  | reserveHelper => exact hreserve h₁ hpc' hr hrec₁
  | takeSpare =>
    have hok : CircOk s₁ (.thread t) := by
      refine thread_ok (fun hno => ?_) (fun hno => ?_) (fun why q k hno => ?_) fun _ => hempty
      all_goals
        rw [hpc'] at hno
        cases hno
    have hstep : step cfg s₁ (.thread t) = some (s₁.goto t .reserveHelper) := by
      simp only [step, threadStep, hpc', hr, threadRingStep, popSpare, hempty]
    refine .step hok hstep (hreserve (step_back hpol h₁ hok hstep) ?_ ?_ hrec₁)
    · rw [threads_goto]
    · rw [threads_goto]
      exact hr
  | _ =>
    rw [hpc'] at hpc
    cases hpc

/-! ## Waiting for the drain -/

/-- An access of the drain leaves a ring waiting, or retires it. -/
theorem drain_waits (hpol : cfg.policy = .nanoLog) (h : BackInv s) {r : Nat} (hw : Waits s r)
    (hok : CircOk s .drain) (hstep : step cfg s .drain = some s') :
    (s'.rings r).recyclable = true ∧ r ∈ due s'.drain ∨ Waits s' r := by
  have hseg := Config.segmented_of_nanoLog hpol
  have howed : Owed s r := Or.inl ⟨hw.pooled, Or.inr ⟨hw.listed, hw.off⟩⟩
  have hback : givesBack s .drain ≠ some r := fun hg =>
    (givesBack_settled h.circ hg).1 ⟨hw.listed, hw.off⟩
  have hframe := drain_ring_frame (drainStep_move hstep) r
  rcases owed_after hseg h.circ hok hstep howed hback with ⟨hrec, hdue | ⟨hreg, hoff⟩⟩ | ⟨t, ht⟩
  · exact Or.inl ⟨hrec, hdue⟩
  · refine Or.inr ⟨hrec, hreg, hoff, fun t hhelp => ?_⟩
    exact hw.unhelped t ((helps_other (nofun : Action.drain.actor ≠ some t) hstep).mp hhelp)
  · rcases ht with hhelp | ⟨-, -, hrec⟩
    · exact (hw.unhelped t
        ((helps_other (nofun : Action.drain.actor ≠ some t) hstep).mp hhelp)).elim
    · rw [hframe.recyclable, hw.pooled] at hrec
      cases hrec

/-- The drain goes on, the threads making way where it waits, until it reaches `G` or has retired
the ring. `K` says where in its round the drain is. -/
theorem drain_reaches (hpol : cfg.policy = .nanoLog) {r : Nat} {K G : Sys → Prop}
    (hbeside : ∀ s s', K s → ¬ CircOk s .drain → Beside r s s' → K s')
    (hnext : ∀ s s', BackInv s → Waits s r → K s → step cfg s .drain = some s' → Waits s' r →
      G s' ∨ K s' ∧ roundRank s'.drain < roundRank s.drain)
    (h : BackInv s) (hw : Waits s r) (hK : K s) :
    (system cfg).Can CircOk (fun s' => BackInv s' ∧
      ((s'.rings r).recyclable = true ∧ r ∈ due s'.drain ∨ Waits s' r ∧ G s')) s := by
  refine Can.ranked (I := fun s => BackInv s ∧ Waits s r ∧ K s) (fun s => roundRank s.drain) ?_
    ⟨h, hw, hK⟩
  rintro s ⟨h, hw, hK⟩
  have hgo : ∀ s₁, BackInv s₁ → Waits s₁ r → K s₁ → s₁.drain = s.drain → CircOk s₁ .drain →
      (system cfg).Can CircOk (fun s' => (BackInv s' ∧
        ((s'.rings r).recyclable = true ∧ r ∈ due s'.drain ∨ Waits s' r ∧ G s')) ∨
        (BackInv s' ∧ Waits s' r ∧ K s') ∧ roundRank s'.drain < roundRank s.drain) s₁ := by
    intro s₁ h₁ hw₁ hK₁ hd hok
    obtain ⟨s₂, hstep⟩ : ∃ s₂, step cfg s₁ .drain = some s₂ := h₁.drains
    have h₂ := step_back hpol h₁ hok hstep
    refine .step hok hstep (.now ?_)
    rcases drain_waits hpol h₁ hw₁ hok hstep with hdue | hw₂
    · exact Or.inl ⟨h₂, Or.inl hdue⟩
    · rcases hnext s₁ s₂ h₁ hw₁ hK₁ hstep hw₂ with hG | ⟨hK₂, hlt⟩
      · exact Or.inl ⟨h₂, Or.inr ⟨hw₂, hG⟩⟩
      · exact Or.inr ⟨⟨h₂, hw₂, hK₂⟩, hd ▸ hlt⟩
  by_cases hok : CircOk s .drain
  · exact hgo s h hw hK rfl hok
  -- where the condition forbids the access, threads move first and the drain stands still
  · obtain ⟨s₁, hrun, hbes, hok₁⟩ := makes_way hpol h hw
    have h₁ : BackInv s₁ := hrun.invariant (fun _ _ _ => step_back hpol) h
    exact .after hrun (hgo s₁ h₁ hbes.waits (hbeside s s₁ hK hok hbes) hbes.drain hok₁)

/-- The drain comes to its next sync. -/
theorem reaches_lock (hpol : cfg.policy = .nanoLog) (h : BackInv s) {r : Nat} (hw : Waits s r) :
    (system cfg).Can CircOk (fun s' => BackInv s' ∧
      ((s'.rings r).recyclable = true ∧ r ∈ due s'.drain ∨
        Waits s' r ∧ s'.drain.pc = .lock)) s := by
  have hseg := Config.segmented_of_nanoLog hpol
  refine drain_reaches hpol (K := fun _ => True) (fun _ _ _ _ _ => trivial) ?_ h hw trivial
  intro s s' h hw _ hstep hw'
  by_cases htop : s.drain.pc = .top
  · left
    simp only [step, drainStep, htop, topStep, h.order.unsignalled h.alive, hseg,
      Bool.false_eq_true, if_false, if_true, Nat.mod_one, Option.some.injEq] at hstep
    rw [← hstep]
  · exact Or.inr ⟨trivial, drain_rank h.circ.own.drain.entry (drainStep_move hstep) htop⟩

/-- The sync lists each registered ring with its serial. -/
theorem reaches_listed (hpol : cfg.policy = .nanoLog) (h : BackInv s) {r : Nat} (hw : Waits s r)
    (hlock : s.drain.pc = .lock) :
    (system cfg).Can CircOk (fun s' => BackInv s' ∧
      ((s'.rings r).recyclable = true ∧ r ∈ due s'.drain ∨
        Waits s' r ∧ s'.drain.pc = .finalNext ∧ Listed s')) s := by
  have hswept : Swept s := by
    unfold Swept
    rw [hlock]
    trivial
  refine drain_reaches hpol (K := fun s =>
    (s.drain.pc = .lock ∨ ∃ phase half, s.drain.pc = .sync phase half) ∧ Swept s) ?_ ?_ h hw
    ⟨Or.inl hlock, hswept⟩
  · rintro s s' ⟨hpc | ⟨phase, half, hpc⟩, -⟩ hno
    · exact absurd (drain_ok (by rw [hpc]; nofun) (by rw [hpc]; nofun)) hno
    · exact absurd (drain_ok (by rw [hpc]; nofun) (by rw [hpc]; nofun)) hno
  rintro s s' h hw ⟨hat, hswept⟩ hstep hw'
  have hm : DrainMove cfg s s' := drainStep_move hstep
  have hrank : roundRank s'.drain < roundRank s.drain := by
    refine drain_rank h.circ.own.drain.entry hm ?_
    rcases hat with hpc | ⟨phase, half, hpc⟩ <;> rw [hpc] <;> nofun
  -- the sync goes on, or its last scan is through
  suffices hsync : syncing s'.drain.pc = true ∧ Swept s' by
    obtain ⟨hsync, hswept'⟩ := hsync
    cases hpc : s'.drain.pc with
    | sync phase half => exact Or.inr ⟨⟨Or.inr ⟨phase, half, rfl⟩, hswept'⟩, hrank⟩
    | finalNext =>
      unfold Swept at hswept'
      simp only [hpc] at hswept'
      exact Or.inl ⟨rfl, hswept'⟩
    | _ =>
      rw [hpc] at hsync
      cases hsync
  have hi := h.circ.intact
  cases hm with
  | lock => exact ⟨rfl, trivial⟩
  | syncNext hpc hsub => exact ⟨syncNext_syncing _, syncNext_swept hi hswept hpc hsub⟩
  | syncLive hpc hsub => exact ⟨syncDecide_syncing hpc, syncLive_swept hswept hpc hsub⟩
  | syncHalf hpc hsub hl =>
    rw [hi.live] at hl
    cases hl
  | syncDead hpc => exact absurd hpc (hi.half _)
  | leave hpc | enter hpc | finalRing hpc | finalDone hpc | entry hpc | stale hpc | pollDone hpc
  | skip hpc | unreserved hpc | mark hpc | passDone hpc | pass hpc | clear hpc | keepEntry hpc
  | handedOff hpc | notReserved hpc | sameSerial hpc | loadHead hpc | drained hpc | retired hpc
  | markRecycled hpc | notRecycled hpc | recycle hpc | takeLines hpc | deliver hpc | delivered hpc
  | lastPoll hpc | worked hpc | idleDirty hpc | idleClean hpc | lastFlush hpc | flush hpc
  | again hpc =>
    rcases hat with hat | ⟨_, _, hat⟩
    all_goals
      rw [hpc] at hat
      cases hat

/-! ## The poll finds it -/

/-- The ring's entry is at `i` or behind. -/
def Ahead (s : Sys) (r i : Nat) : Prop :=
  ∃ j, i ≤ j ∧ s.drain.rings[j]? = some (r, (s.rings r).serial)

/-- The poll has yet to come to ring `r`, or is about to retire it. -/
def Sought (s : Sys) (r : Nat) : Prop :=
  match s.drain.pc with
  | .finalNext => Ahead s r 0
  | .entry i | .reserved i _ _ | .mark (.poll i _) _ | .markRecycled (.poll i _) _
  | .recycle (.poll i _) _ => Ahead s r i
  | .pass (.poll i k) q p =>
    (q = r ∧ k = (s.rings r).serial ∧ Complete (s.rings r) p) ∨ Ahead s r (i + 1)
  | .clear (.poll i k) q =>
    (q = r ∧ k = (s.rings r).serial ∧ Drained s r) ∨ Ahead s r (i + 1)
  | .retire i q k test =>
    (q = r ∧ k = (s.rings r).serial ∧ Drained s r ∧ ∀ h, test = .tail h → h = (s.rings r).head) ∨
      Ahead s r (i + 1)
  | _ => False

/-- Nothing `Ahead` looks at has changed. -/
theorem Ahead.congr {r i : Nat} (h : Ahead s r i) (hser : (s'.rings r).serial = (s.rings r).serial)
    (hlist : s'.drain.rings = s.drain.rings) : Ahead s' r i := by
  obtain ⟨j, hij, he⟩ := h
  exact ⟨j, hij, by rw [hlist, hser]; exact he⟩

/-- The poll is at the entry, or it is behind. -/
theorem Ahead.next {r i q k : Nat} (h : Ahead s r i) (he : s.drain.rings[i]? = some (q, k)) :
    (q = r ∧ k = (s.rings r).serial) ∨ Ahead s r (i + 1) := by
  obtain ⟨j, hij, hj⟩ := h
  by_cases heq : j = i
  · rw [heq, he] at hj
    cases hj
    exact Or.inl ⟨rfl, rfl⟩
  · exact Or.inr ⟨j, by omega, hj⟩

theorem Sought.beside {r : Nat} (h : Sought s r) (hb : Beside r s s') : Sought s' r := by
  unfold Sought Ahead Drained at *
  rw [hb.drain, hb.ring]
  exact h

/-- An access of the drain brings it nearer to the ring. -/
theorem drain_sought (hpol : cfg.policy = .nanoLog) (h : BackInv s) {r : Nat} (hw : Waits s r)
    (hs : Sought s r) (hstep : step cfg s .drain = some s') (hw' : Waits s' r) : Sought s' r := by
  have hseg := Config.segmented_of_nanoLog hpol
  have hi := h.circ.intact
  have hentry := h.circ.own.drain.entry
  have hm : DrainMove cfg s s' := drainStep_move hstep
  have hser := (drain_ring_frame hm r).serial
  cases hm with
  | finalDone hpc =>
    unfold Sought at hs
    simp only [hpc] at hs
    exact hs
  | entry hpc =>
    unfold Sought at hs
    simp only [hpc] at hs
    exact hs
  | stale hpc he hk =>
    unfold Sought at hs
    simp only [hpc] at hs
    rcases hs.next he with ⟨rfl, rfl⟩ | hnext
    · exact absurd rfl hk
    · exact hnext
  | pollDone hpc he =>
    unfold Sought at hs
    simp only [hpc] at hs
    obtain ⟨j, hij, hj⟩ := hs
    have hlt := (List.getElem?_eq_some_iff.mp hj).1
    rw [List.getElem?_eq_none_iff] at he
    omega
  | skip hpc hres =>
    unfold Sought at hs
    simp only [hpc] at hs
    -- a ring that waits is reserved by nobody
    rcases hs.next (hentry _ _ _ (by rw [hpc]; rfl)) with ⟨rfl, -⟩ | hnext
    · rw [hw.unreserved h.circ.ledger.backlog] at hres
      cases hres
    · exact hnext
  | unreserved hpc =>
    unfold Sought at hs
    simp only [hpc] at hs
    exact hs
  | @mark ctx q hpc =>
    unfold Sought at hs
    simp only [hpc] at hs
    obtain ⟨i, k, rfl⟩ := hi.polls (.mark · q) hpc rfl
    rcases hs.next (hentry _ _ _ (by rw [hpc]; rfl)) with ⟨rfl, hk⟩ | hnext
    · exact Or.inl ⟨rfl, hk.trans hser.symm, trivial⟩
    · exact Or.inr (hnext.congr hser rfl)
  | @pass ctx q p p' ring' x hpc hp hst =>
    unfold Sought at hs
    simp only [hpc] at hs
    obtain ⟨i, k, rfl⟩ := hi.polls (.pass · q p) hpc rfl
    -- nobody publishes to `r` any more, so its pass ends at its head
    rcases hs with ⟨rfl, hk, hcomplete⟩ | hnext
    · obtain ⟨d, payload, hacc⟩ := h.circ.ledger.account q
      have hat := hacc.reader p (Or.inl ⟨_, hpc⟩)
      refine Or.inl ⟨rfl, hk.trans hser.symm, ?_⟩
      have hring : ((acceptAll (PassCtx.path (.poll i k)) x.toList
          (s.setRing q ring')).drainTo (.pass (.poll i k) q p')).rings q = ring' :=
        Function.update_self _ _ _
      rw [hring]
      exact hcomplete.step hat hp hst
    · exact Or.inr (hnext.congr hser rfl)
  | @passDone ctx q hpc =>
    unfold Sought at hs
    simp only [hpc] at hs
    obtain ⟨i, k, rfl⟩ := hi.polls (.pass · q .finished) hpc rfl
    exact hs
  | @clear ctx q hpc =>
    unfold Sought at hs
    simp only [hpc] at hs
    obtain ⟨i, k, rfl⟩ := hi.polls (.clear · q) hpc rfl
    rcases hs with ⟨rfl, hk, hdrained⟩ | hnext
    · refine Or.inl ⟨rfl, hk.trans hser.symm, ?_, nofun⟩
      unfold Drained
      rw [drainTo_rings, setRing_rings, Function.update_self]
      exact hdrained
    · exact Or.inr (hnext.congr hser rfl)
  | @keepEntry i q k test hpc hfail =>
    unfold Sought at hs
    simp only [hpc] at hs
    rcases hs with ⟨rfl, hk, hdrained, hseen⟩ | hnext
    · -- no test of a ring that waits, read to its end, fails
      refine absurd hfail ?_
      cases test with
      | handedOff => exact fun hoff => Bool.noConfusion (hw.off.symm.trans hoff)
      | reserved =>
        exact fun hres => Bool.noConfusion
          ((hw.unreserved h.circ.ledger.backlog).symm.trans hres)
      | serial => exact fun hne => hne hk.symm
      | head => exact id
      | tail h => exact fun hne => hne ((hseen h rfl).trans hdrained.symm)
      | locked => exact fun hne => hne.elim (· hk.symm) (· hw.listed)
    · exact hnext
  | handedOff hpc | notReserved hpc | sameSerial hpc | drained hpc =>
    unfold Sought at hs
    simp only [hpc] at hs
    refine hs.imp (fun ⟨hq, hk, hdrained, _⟩ => ⟨hq, hk, hdrained, nofun⟩) id
  | loadHead hpc =>
    unfold Sought at hs
    simp only [hpc] at hs
    refine hs.imp (fun ⟨hq, hk, hdrained, _⟩ => ⟨hq, hk, hdrained, ?_⟩) id
    rintro h ⟨⟩
    rw [hq]
    rfl
  | @retired i q k hpc hl hk hreg =>
    unfold Sought at hs
    simp only [hpc] at hs
    -- `r` still waits, so another ring was retired and the last entry moved into its place
    rcases hs with ⟨rfl, -⟩ | ⟨j, hij, hj⟩
    · exact absurd rfl (of_decide_eq_true (List.mem_filter.mp hw'.listed).2)
    · obtain ⟨j', hij', hj'⟩ := swapRemove_behind hj (i := i) (by omega)
      unfold Sought
      dsimp only
      rw [if_pos hseg]
      exact ⟨j', hij', hj'⟩
  | @markRecycled ctx q hpc =>
    unfold Sought at hs
    simp only [hpc] at hs
    obtain ⟨i, k, rfl⟩ := hi.polls (.markRecycled · q) hpc rfl
    exact hs.congr hser rfl
  | @notRecycled ctx q hpc =>
    unfold Sought at hs
    simp only [hpc] at hs
    obtain ⟨i, k, rfl⟩ := hi.polls (.markRecycled · q) hpc rfl
    exact hs
  | @recycle ctx q hpc =>
    unfold Sought at hs
    simp only [hpc] at hs
    obtain ⟨i, k, rfl⟩ := hi.polls (.recycle · q) hpc rfl
    exact hs
  | finalRing hpc hf =>
    rw [hi.finalize] at hf
    cases hf
  | leave hpc | enter hpc | lock hpc | syncNext hpc | syncHalf hpc | syncLive hpc | syncDead hpc
  | takeLines hpc | deliver hpc | delivered hpc | lastPoll hpc | worked hpc | idleDirty hpc
  | idleClean hpc | lastFlush hpc | flush hpc | again hpc =>
    unfold Sought at hs
    simp only [hpc] at hs

/-- A ring that waits is retired in the drain's next full round. -/
theorem waits_retrievable (hpol : cfg.policy = .nanoLog) (h : BackInv s) {r : Nat}
    (hw : Waits s r) : Retrievable cfg CircOk s r := by
  refine (reaches_lock hpol h hw).bind fun s₁ ⟨h₁, hs₁⟩ => ?_
  rcases hs₁ with ⟨hrec, hdue⟩ | ⟨hw₁, hlock⟩
  · exact due_retrievable h₁ hrec hdue
  refine (reaches_listed hpol h₁ hw₁ hlock).bind fun s₂ ⟨h₂, hs₂⟩ => ?_
  rcases hs₂ with ⟨hrec, hdue⟩ | ⟨hw₂, hpc, hlisted⟩
  · exact due_retrievable h₂ hrec hdue
  have hsought : Sought s₂ r := by
    obtain ⟨j, hj⟩ := hlisted r hw₂.listed
    unfold Sought
    simp only [hpc]
    exact ⟨j, Nat.zero_le j, hj⟩
  refine (drain_reaches hpol (K := fun s => Sought s r) (G := fun _ => False)
    (fun _ _ hs _ hb => hs.beside hb) ?_ h₂ hw₂ hsought).bind fun s₃ ⟨h₃, hs₃⟩ => ?_
  · intro s s' h hw hs hstep hw'
    refine Or.inr ⟨drain_sought hpol h hw hs hstep hw',
      drain_rank h.circ.own.drain.entry (drainStep_move hstep) fun htop => ?_⟩
    unfold Sought at hs
    simp only [htop] at hs
  · rcases hs₃ with ⟨hrec, hdue⟩ | ⟨-, hno⟩
    · exact due_retrievable h₃ hrec hdue
    · exact hno.elim

/-- **What is owed can come back.** -/
theorem owed_retrievable (hpol : cfg.policy = .nanoLog) (h : BackInv s) {r : Nat}
    (ho : Owed s r) : Retrievable cfg CircOk s r := by
  by_cases hhelp : ∃ t, Helps s t r
  · obtain ⟨t, hhelp⟩ := hhelp
    exact helped_retrievable hpol h hhelp
  rcases ho with ⟨hrec, hdue | ⟨hreg, hoff⟩⟩ | ⟨t, hhelp' | hkeep⟩
  · exact due_retrievable h hrec hdue
  · exact waits_retrievable hpol h ⟨hrec, hreg, hoff, fun t ht => hhelp ⟨t, ht⟩⟩
  · exact absurd ⟨t, hhelp'⟩ hhelp
  · exact retained_retrievable hpol h hkeep

end Sys

end Ticklog
