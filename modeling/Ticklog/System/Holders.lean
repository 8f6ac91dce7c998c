import Ticklog.System.Guard

/-!
# Who holds a ring

Under any policy a ring object is somewhere: in the registry or the drain's own state, in
the pool, current in a thread, or in the hands of a thread that is about to make it
current. A step moves rings between these places and brings in one new ring at most, the
next unused number.
-/

namespace Ticklog

open Lib

/-- The thread an action belongs to. -/
def Action.actor : Action → Option Nat
  | .log t _ | .exit t | .thread t | .wake t => some t
  | .drain | .guard => none

namespace Sys

variable {cfg : Config} {s s' : Sys}

/-! ## Other threads -/

theorem threads_self (s : Sys) (t : Nat) (th : Thread) : (s.setThread t th).threads t = th := by
  rw [setThread_threads, Function.update_self]

theorem threads_goto (s : Sys) (t : Nat) (pc : ThreadPc) :
    (s.goto t pc).threads t = { s.threads t with pc := pc } := threads_self s t _


/-- An access of one thread moves another only by waking it, with a segment in the pool. -/
theorem step_wakes {a : Action} {t : Nat} (ha : a.actor ≠ some t)
    (hstep : step cfg s a = some s') :
    s'.threads t = s.threads t ∨ ((s.threads t).pc = .asleep ∧
      s'.threads t = { s.threads t with pc := .woken } ∧ s'.spares ≠ []) := by
  have hset : ∀ {s₁ : Sys} {t' : Nat} {th : Thread}, t' ≠ t → s₁.threads = s.threads →
      (s₁.setThread t' th).threads t = s.threads t := by
    intro s₁ t' th hne hth
    rw [setThread_threads, Function.update_of_ne (Ne.symm hne), hth]
  have hnotify : ∀ r, (s.recycle r).threads t = s.threads t ∨ (s.threads t).pc = .asleep ∧
      (s.recycle r).threads t = { s.threads t with pc := .woken } ∧ r :: s.spares ≠ [] := by
    intro r
    by_cases ht : (s.threads t).pc = .asleep
    · exact Or.inr ⟨ht, by rw [recycle_threads, if_pos ht], List.cons_ne_nil _ _⟩
    · exact Or.inl (by rw [recycle_threads, if_neg ht])
  cases a with
  | log t' total =>
    have hne : t' ≠ t := fun h => ha (congrArg some h)
    obtain ⟨-, pc, -, rfl⟩ := log_inv hstep
    exact Or.inl (hset hne rfl)
  | exit t' =>
    have hne : t' ≠ t := fun h => ha (congrArg some h)
    obtain ⟨-, ⟨r, -, rfl⟩ | ⟨-, rfl⟩⟩ := exit_inv hstep
    · exact Or.inl (hset hne rfl)
    · exact Or.inl (hset hne rfl)
  | thread t' =>
    have hne : t' ≠ t := fun h => ha (congrArg some h)
    have hm : ThreadMove cfg t' s s' := threadStep_move hstep
    cases hm with
    | formatSpin => exact Or.inl rfl
    | @recycle r hpc hr =>
      rw [goto_eq, setThread_threads, Function.update_of_ne (Ne.symm hne)]
      exact hnotify r
    | _ => exact Or.inl (hset hne rfl)
  | wake t' =>
    have hne : t' ≠ t := fun h => ha (congrArg some h)
    obtain ⟨-, rfl⟩ := wake_inv hstep
    exact Or.inl (hset hne rfl)
  | drain =>
    have hm : DrainMove cfg s s' := drainStep_move hstep
    by_cases ht : (s.threads t).pc = .asleep
    · cases hm with
      | syncNext hpc hsub => exact Or.inl (congrFun (syncNext_frame _).threads t)
      | syncLive hpc hsub hl => exact Or.inl (congrFun (syncDecide_frame _ _).threads t)
      | syncDead hpc hsub => exact Or.inl (congrFun (syncDecide_frame _ _).threads t)
      | recycle hpc => exact hnotify _
      | _ => exact Or.inl rfl
    · exact Or.inl (drain_threads hm ht)
  | guard =>
    have hm : GuardMove s s' := guardStep_move hstep
    cases hm <;> exact Or.inl rfl

theorem step_others {a : Action} {t : Nat} (ha : a.actor ≠ some t)
    (ht : (s.threads t).pc ≠ .asleep) (hstep : step cfg s a = some s') :
    s'.threads t = s.threads t :=
  (step_wakes ha hstep).resolve_right fun h => ht h.1

/-- A schedule leaves the threads alone that do not act in it and do not sleep. -/
theorem run_others {as : List Action} {t : Nat} (has : ∀ a, a ∈ as → a.actor ≠ some t)
    (ht : (s.threads t).pc ≠ .asleep) (h : (system cfg).run s as = some s') :
    s'.threads t = s.threads t := by
  induction as generalizing s with
  | nil =>
    cases h
    rfl
  | cons a as ih =>
    simp only [Machine.run] at h
    split at h
    next s₁ hst =>
      have hth : s₁.threads t = s.threads t := step_others (has a List.mem_cons_self) ht hst
      rw [ih (fun b hb => has b (List.mem_cons_of_mem _ hb)) (by rwa [hth]) h, hth]
    next => cases h

/-! ## Rings in use -/

/-- The ring a thread has taken or made and not yet switched to, or rewinds. -/
def inHand : ThreadPc → Option Nat
  | .reset _ r _ | .setInfo r | .register r | .switch r => some r
  | _ => none

/-- Ring `r` is in somebody's reach. -/
def InUse (s : Sys) (r : Nat) : Prop :=
  Known s r ∨ r ∈ s.spares ∨
    ∃ t, (s.threads t).ring = some r ∨ inHand (s.threads t).pc = some r

/-- Nothing outside thread `t` changed, and what `t` now has was in use. -/
theorem InUse.setThread {s₁ : Sys} {t r : Nat} {th : Thread}
    (h : InUse (s₁.setThread t th) r) (hknown : Known s₁ r → Known s r)
    (hspares : r ∈ s₁.spares → r ∈ s.spares) (hthreads : s₁.threads = s.threads)
    (hself : th.ring = some r ∨ inHand th.pc = some r → InUse s r) : InUse s r := by
  rcases h with h | h | ⟨t', h⟩
  · exact Or.inl (hknown h)
  · exact Or.inr (Or.inl (hspares h))
  · rw [setThread_threads] at h
    by_cases ht : t' = t
    · rw [ht, Function.update_self] at h
      exact hself h
    · rw [Function.update_of_ne ht, hthreads] at h
      exact Or.inr (Or.inr ⟨t', h⟩)

/-- A notification changes nobody's rings. -/
theorem recycle_holds {r t r' : Nat} (h : ((s.recycle r).threads t).ring = some r' ∨
    inHand ((s.recycle r).threads t).pc = some r') :
    (s.threads t).ring = some r' ∨ inHand (s.threads t).pc = some r' := by
  rw [recycle_threads] at h
  split at h
  · exact h.imp id nofun
  · exact h

/-- The drain puts into the pool the ring it recycles. -/
theorem drain_push (hm : DrainMove cfg s s') {q : Nat} (h : q ∈ s'.spares) :
    q ∈ s.spares ∨ ∃ ctx, s.drain.pc = .recycle ctx q := by
  cases hm with
  | syncNext hpc hsub => exact Or.inl ((syncNext_frame _).spares ▸ h)
  | syncLive hpc hsub hl => exact Or.inl ((syncDecide_frame _ _).spares ▸ h)
  | syncDead hpc hsub => exact Or.inl ((syncDecide_frame _ _).spares ▸ h)
  | @recycle ctx r₀ hpc =>
    rcases List.mem_cons.mp h with rfl | h
    · exact Or.inr ⟨ctx, hpc⟩
    · exact Or.inl h
  | _ => exact Or.inl h

theorem drain_spares (hm : DrainMove cfg s s') {r : Nat} (h : r ∈ s'.spares) :
    r ∈ s.spares ∨ Known s r := by
  refine (drain_push hm h).imp id fun ⟨ctx, hpc⟩ => Or.inr (Or.inr (Or.inr ?_))
  rw [hpc]
  exact List.mem_singleton_self _

/-- The drain takes nothing from the pool. -/
theorem drain_pool (hm : DrainMove cfg s s') {r : Nat} (h : r ∈ s.spares) : r ∈ s'.spares := by
  cases hm with
  | syncNext hpc hsub =>
    rw [(syncNext_frame _).spares]
    exact h
  | syncLive hpc hsub hl =>
    rw [(syncDecide_frame _ _).spares]
    exact h
  | syncDead hpc hsub =>
    rw [(syncDecide_frame _ _).spares]
    exact h
  | recycle hpc => exact List.mem_cons_of_mem _ h
  | _ => exact h

theorem thread_in_use {t : Nat} (hm : ThreadMove cfg t s s') {r : Nat} (h : InUse s' r) :
    InUse s r ∨ (r = s.nextRing ∧ s'.nextRing = s.nextRing + 1) := by
  have hring : (s.threads t).ring = some r → InUse s r := fun h => Or.inr (Or.inr ⟨t, Or.inl h⟩)
  have hhand : inHand (s.threads t).pc = some r → InUse s r :=
    fun h => Or.inr (Or.inr ⟨t, Or.inr h⟩)
  have hsame : ∀ {r₀ : Nat} {v : Ring}, Known (s.setRing r₀ v) r → Known s r := fun h => h
  -- a move that leaves the pool and the registry alone and takes no ring in hand
  have hgoto : ∀ {s₁ : Sys} {pc : ThreadPc}, InUse (s₁.goto t pc) r →
      (Known s₁ r → Known s r) → (r ∈ s₁.spares → r ∈ s.spares) →
      s₁.threads = s.threads → (inHand pc = some r → InUse s r) → InUse s r := by
    intro s₁ pc h hk hsp hth hpc
    refine InUse.setThread h hk hsp hth ?_
    rintro (h | h)
    · rw [hth] at h
      exact hring h
    · exact hpc h
  have halloc : InUse (alloc t s) r →
      InUse s r ∨ (r = s.nextRing ∧ s.nextRing + 1 = s.nextRing + 1) := by
    intro h
    by_cases hr : r = s.nextRing
    · exact Or.inr ⟨hr, rfl⟩
    · refine Or.inl ?_
      unfold alloc at h
      refine hgoto h (fun h => h) (fun h => h) rfl ?_
      intro h
      exact absurd (Option.some.inj h).symm hr
  have htake : ∀ {why : Reset} {r₀ : Nat} {rest : List Nat}, s.spares = r₀ :: rest →
      InUse ({ s with spares := rest }.goto t (.reset why r₀ 0)) r → InUse s r := by
    intro why r₀ rest hsp h
    refine hgoto h (fun h => h) (fun h => ?_) rfl ?_
    · rw [hsp]
      exact List.mem_cons_of_mem _ h
    · intro h
      refine Or.inr (Or.inl ?_)
      rw [hsp, Option.some.inj h]
      exact List.mem_cons_self
  cases hm with
  | takeFirst hpc hseg hsp => exact Or.inl (htake hsp h)
  | takeSpare hpc hr hsp => exact Or.inl (htake hsp h)
  | allocFirst => exact halloc h
  | allocFresh => exact halloc h
  | reset hpc hk =>
    exact Or.inl (hgoto h hsame (fun h => h) rfl (fun h => hhand (by rw [hpc]; exact h)))
  | @resetLast why r₀ k hpc hk =>
    refine Or.inl (hgoto h hsame (fun h => h) rfl (fun h => hhand ?_))
    rw [hpc]
    cases why with
    | initial | handoff => exact h
    | helper => cases h
  | setInfo hpc =>
    exact Or.inl (hgoto h hsame (fun h => h) rfl (fun h => hhand (by rw [hpc]; exact h)))
  | @register r₀ hpc hl =>
    have hin : r₀ = r → InUse s r := fun heq => hhand (by rw [hpc, ← heq]; rfl)
    rcases h with h | h | ⟨t', h⟩
    · rcases h with h | h
      · -- the registry may hold the new ring
        change r ∈ (if r₀ ∈ s.registry then s.registry else s.registry ++ [r₀]) at h
        split at h
        · exact Or.inl (Or.inl (Or.inl h))
        · rcases List.mem_append.mp h with h | h
          · exact Or.inl (Or.inl (Or.inl h))
          · exact Or.inl (hin (List.mem_singleton.mp h).symm)
      · exact Or.inl (Or.inl (Or.inr h))
    · exact Or.inl (Or.inr (Or.inl h))
    · rw [goto_eq, setThread_threads] at h
      by_cases ht : t' = t
      · rw [ht, Function.update_self] at h
        rcases h with h | h
        · exact Or.inl (hring h)
        · exact Or.inl (hin (Option.some.inj h))
      · rw [Function.update_of_ne ht] at h
        exact Or.inl (Or.inr (Or.inr ⟨t', h⟩))
  | @switch r₀ hpc =>
    refine Or.inl (InUse.setThread h (fun h => h) (fun h => h) rfl ?_)
    rintro (h | h)
    · exact hhand (by rw [hpc]; exact h)
    · cases h
  | @recycle r₀ hpc hr =>
    rcases h with h | h | ⟨t', h⟩
    · exact Or.inl (Or.inl h)
    · rcases List.mem_cons.mp h with h | h
      · exact Or.inl (hring (h ▸ hr))
      · exact Or.inl (Or.inr (Or.inl h))
    · rw [goto_eq, setThread_threads] at h
      by_cases ht : t' = t
      · rw [ht, Function.update_self] at h
        rcases h with h | h
        · exact Or.inl (Or.inr (Or.inr ⟨t, recycle_holds (Or.inl h)⟩))
        · cases h
      · rw [Function.update_of_ne ht] at h
        exact Or.inl (Or.inr (Or.inr ⟨t', recycle_holds h⟩))
  | granted hpc hr hroom => exact Or.inl (hgoto h (fun h => h) (fun h => h) rfl nofun)
  | full hpc hr hroom hpol =>
    refine Or.inl (hgoto h (fun h => h) (fun h => h) rfl (fun h => ?_))
    rcases hpol with ⟨-, rfl⟩ | ⟨-, rfl⟩ | ⟨-, rfl⟩ <;> cases h
  | spin hpc hr =>
    refine Or.inl (hgoto h (fun h => h) (fun h => h) rfl (fun h => ?_))
    split at h <;> cases h
  | publish hpc hr =>
    have h' : InUse (s.setThread t
        { s.threads t with pc := .idle, seq := (s.threads t).seq + 1 }) r := h
    refine Or.inl (InUse.setThread h' (fun h => h) (fun h => h) rfl ?_)
    rintro (h | h)
    · exact hring h
    · cases h
  | markHandedOff hpc hr =>
    refine Or.inl (hgoto h hsame (fun h => h) rfl (fun h => ?_))
    split at h <;> cases h
  | noSpare hpc hr hsp =>
    refine Or.inl (hgoto h (fun h => h) (fun h => h) rfl (fun h => ?_))
    rcases hpc with ⟨-, rfl⟩ | ⟨-, rfl⟩ | ⟨-, rfl⟩ <;> cases h
  | reserveHelper hpc hr => exact Or.inl (hgoto h hsame (fun h => h) rfl nofun)
  | formatSpin => exact Or.inl h
  | formatEnter hpc hr hd => exact Or.inl (hgoto h (fun h => h) (fun h => h) rfl nofun)
  | formatDone hpc hr => exact Or.inl (hgoto h (fun h => h) (fun h => h) rfl nofun)
  | format hpc hr hp hst => exact Or.inl (hgoto h hsame (fun h => h) rfl nofun)
  | pushLines hpc hr =>
    refine Or.inl (hgoto h (fun h => h) (fun h => h) rfl (fun h => ?_))
    rw [← Option.some.inj h]
    exact Or.inr (Or.inr ⟨t, Or.inl hr⟩)
  | poolLive hpc hr =>
    refine Or.inl (hgoto h (fun h => h) (fun h => h) rfl (fun h => ?_))
    split at h <;> cases h
  | poolWait hpc hr => exact Or.inl (hgoto h (fun h => h) (fun h => h) rfl nofun)

/-- A step brings in the next ring at most. -/
theorem step_in_use {a : Action} (hstep : step cfg s a = some s') {r : Nat} (h : InUse s' r) :
    InUse s r ∨ (r = s.nextRing ∧ s'.nextRing = s.nextRing + 1) := by
  cases a with
  | log t total =>
    obtain ⟨-, pc, hpc, rfl⟩ := log_inv hstep
    refine Or.inl (InUse.setThread h (fun h => h) (fun h => h) rfl ?_)
    rintro (h | h)
    · exact Or.inr (Or.inr ⟨t, Or.inl h⟩)
    · rcases hpc with rfl | rfl <;> cases h
  | exit t =>
    obtain ⟨-, ⟨r₀, hr, rfl⟩ | ⟨hr, rfl⟩⟩ := exit_inv hstep
    · exact Or.inl (InUse.setThread h (fun h => h) (fun h => h) rfl nofun)
    · refine Or.inl (InUse.setThread h (fun h => h) (fun h => h) rfl ?_)
      rintro (h | h)
      · exact Or.inr (Or.inr ⟨t, Or.inl h⟩)
      · cases h
  | thread t => exact thread_in_use (threadStep_move hstep) h
  | wake t =>
    obtain ⟨-, rfl⟩ := wake_inv hstep
    refine Or.inl (InUse.setThread h (fun h => h) (fun h => h) rfl ?_)
    rintro (h | h)
    · exact Or.inr (Or.inr ⟨t, Or.inl h⟩)
    · cases h
  | drain =>
    have hm : DrainMove cfg s s' := drainStep_move hstep
    rcases h with h | h | ⟨t, h⟩
    · exact Or.inl (Or.inl (drain_known hm h))
    · rcases drain_spares hm h with h | h
      · exact Or.inl (Or.inr (Or.inl h))
      · exact Or.inl (Or.inl h)
    · refine Or.inl (Or.inr (Or.inr ⟨t, ?_⟩))
      have hact : Action.drain.actor ≠ some t := nofun
      rcases step_wakes hact hstep with ht | ⟨-, ht, -⟩
      · rwa [ht] at h
      · rw [ht] at h
        exact h.imp id nofun
  | guard =>
    have hm : GuardMove s s' := guardStep_move hstep
    cases hm <;> exact Or.inl h

/-- Every ring in use has been made. -/
def Bounded (s : Sys) : Prop := ∀ r, InUse s r → r < s.nextRing

theorem init_bounded : Bounded (Sys.init cfg) := by
  intro r h
  rcases h with h | h | ⟨t, h⟩
  · rcases h with h | h | h | h <;> cases h
  · unfold Sys.init at h ⊢
    by_cases hp : cfg.policy = .nanoLog
    · simpa [hp] using h
    · simp [hp] at h
  · rcases h with h | h <;> cases h

theorem thread_nextRing {t : Nat} (hm : ThreadMove cfg t s s') : s.nextRing ≤ s'.nextRing := by
  cases hm with
  | allocFirst => exact Nat.le_succ _
  | allocFresh => exact Nat.le_succ _
  | _ => exact Nat.le_refl _

theorem step_nextRing {a : Action} (hstep : step cfg s a = some s') :
    s.nextRing ≤ s'.nextRing := by
  cases a with
  | log t total =>
    obtain ⟨-, pc, -, rfl⟩ := log_inv hstep
    exact Nat.le_refl _
  | exit t =>
    obtain ⟨-, ⟨r, -, rfl⟩ | ⟨-, rfl⟩⟩ := exit_inv hstep
    · exact Nat.le_refl _
    · exact Nat.le_refl _
  | thread t => exact thread_nextRing (threadStep_move hstep)
  | wake t =>
    obtain ⟨-, rfl⟩ := wake_inv hstep
    exact Nat.le_refl _
  | drain => exact (drain_keeps (drainStep_move hstep)).nextRing.ge
  | guard =>
    have hm : GuardMove s s' := guardStep_move hstep
    cases hm <;> exact Nat.le_refl _

theorem step_bounded {a : Action} (h : Bounded s) (hstep : step cfg s a = some s') :
    Bounded s' := by
  intro r hr
  rcases step_in_use hstep hr with hr | ⟨rfl, hnext⟩
  · exact Nat.lt_of_lt_of_le (h r hr) (step_nextRing hstep)
  · omega

/-! ## The draining mark -/

/-- Only a pass of the drain under way has `draining` set on its ring. -/
def DrainMarked (s : Sys) : Prop :=
  ∀ r, (s.rings r).draining = true →
    ∃ ctx, s.drain.pc = .clear ctx r ∨ ∃ p, s.drain.pc = .pass ctx r p

theorem init_drainMarked : DrainMarked (Sys.init cfg) := by
  intro r h
  cases h

theorem resetStore_draining {k : Nat} {r : Ring} (h : (r.resetStore k).draining = true) :
    r.draining = true := by
  unfold Ring.resetStore at h
  split at h
  all_goals first | exact h | cases h

theorem Pass.step_draining {ring ring' : Ring} {p p' : Pass} {x : Option Rec}
    (h : Pass.step ring p = (p', ring', x)) : ring'.draining = ring.draining := by
  cases p with
  | loadTail | finished | storeTail | storeCache =>
    cases h
    rfl
  | loadCache | loadHead | scan =>
    simp only [Pass.step] at h
    repeat' split at h
    all_goals
      cases h
      rfl

/-- The last store makes the segment live again and touches nothing else. -/
theorem resetStore_last {k : Nat} (hk : ¬ k + 1 < Ring.resetSteps) (r : Ring) :
    r.resetStore k = { r with live := true } := by
  unfold Ring.resetSteps at hk
  match k, hk with
  | k + 7, _ => rfl

/-- No thread sets `draining`. -/
theorem thread_draining {t : Nat} (hm : ThreadMove cfg t s s') {r : Nat}
    (h : (s'.rings r).draining = true) : (s.rings r).draining = true := by
  have hset : ∀ {r₀ : Nat} {v : Ring}, (Function.update s.rings r₀ v r).draining = true →
      (v.draining = true → (s.rings r₀).draining = true) → (s.rings r).draining = true := by
    intro r₀ v h hv
    by_cases hr : r = r₀
    · subst hr
      rw [Function.update_self] at h
      exact hv h
    · rwa [Function.update_of_ne hr] at h
  cases hm with
  | reset hpc hk => exact hset h resetStore_draining
  | resetLast hpc hk => exact hset h resetStore_draining
  | allocFirst => exact hset h nofun
  | allocFresh => exact hset h nofun
  | format hpc hr hp hst => exact hset h fun hv => Pass.step_draining hst ▸ hv
  | setInfo | register | publish | markHandedOff | reserveHelper => exact hset h id
  | _ => exact h

/-- The drain sets it where its pass begins and clears it where the pass ends. -/
theorem drain_draining (hm : DrainMove cfg s s') (hinv : DrainMarked s) : DrainMarked s' := by
  intro r h
  have hother : ∀ {r₀ : Nat} {v : Ring}, r ≠ r₀ → (Function.update s.rings r₀ v r).draining = true →
      (s.rings r).draining = true := by
    intro r₀ v hne h
    rwa [Function.update_of_ne hne] at h
  -- a pass is over one ring
  have hpassing : ∀ {ctx : PassCtx} {r₀ : Nat}, (s.rings r).draining = true →
      (s.drain.pc = .clear ctx r₀ ∨ ∃ p, s.drain.pc = .pass ctx r₀ p) → r = r₀ := by
    intro ctx r₀ h hpc
    obtain ⟨ctx', hc | ⟨p, hc⟩⟩ := hinv r h
    all_goals
      rcases hpc with hpc | ⟨p', hpc⟩
      all_goals
        rw [hpc] at hc
        cases hc
        try rfl
  have hno : (s.rings r).draining = true →
      (∀ ctx r, s.drain.pc ≠ .clear ctx r) → (∀ ctx r p, s.drain.pc ≠ .pass ctx r p) → False := by
    intro h h₁ h₂
    obtain ⟨ctx, hc | ⟨p, hc⟩⟩ := hinv r h
    · exact h₁ _ _ hc
    · exact h₂ _ _ _ hc
  cases hm with
  | @mark ctx r₀ hpc =>
    by_cases hr : r = r₀
    · exact ⟨ctx, Or.inr ⟨.loadTail, by rw [hr]; rfl⟩⟩
    · exact (hno (hother hr h) (by rw [hpc]; nofun) (by rw [hpc]; nofun)).elim
  | @passDone ctx r₀ hpc =>
    have hr := hpassing h (Or.inr ⟨_, hpc⟩)
    exact ⟨ctx, Or.inl (by rw [hr]; rfl)⟩
  | @pass ctx r₀ p p' ring' x hpc hp hst =>
    have hd : (s.rings r).draining = true := by
      by_cases hr : r = r₀
      · subst hr
        change (Function.update s.rings r ring' r).draining = true at h
        rw [Function.update_self, Pass.step_draining hst] at h
        exact h
      · exact hother hr h
    have hr := hpassing hd (Or.inr ⟨_, hpc⟩)
    exact ⟨ctx, Or.inr ⟨p', by rw [hr]; rfl⟩⟩
  | @clear ctx r₀ hpc =>
    by_cases hr : r = r₀
    · subst hr
      change (Function.update s.rings r _ r).draining = true at h
      rw [Function.update_self] at h
      cases h
    · exact absurd (hpassing (hother hr h) (Or.inl hpc)) hr
  | @markRecycled ctx r₀ hpc h1 h2 =>
    have hd : (s.rings r).draining = true := by
      by_cases hr : r = r₀
      · subst hr
        change (Function.update s.rings r _ r).draining = true at h
        rw [Function.update_self] at h
        exact h
      · exact hother hr h
    exact (hno hd (by rw [hpc]; nofun) (by rw [hpc]; nofun)).elim
  | syncNext hpc hsub =>
    rw [(syncNext_frame _).rings] at h
    exact (hno h (by rw [hpc]; nofun) (by rw [hpc]; nofun)).elim
  | syncLive hpc | syncDead hpc =>
    rw [(syncDecide_frame _ _).rings] at h
    exact (hno h (by rw [hpc]; nofun) (by rw [hpc]; nofun)).elim
  | leave hpc | enter hpc | lock hpc | syncHalf hpc | finalRing hpc | finalDone hpc | entry hpc
  | stale hpc | pollDone hpc | skip hpc | unreserved hpc | keepEntry hpc | handedOff hpc
  | notReserved hpc | sameSerial hpc | loadHead hpc | drained hpc | retired hpc | notRecycled hpc
  | recycle hpc | takeLines hpc | deliver hpc | delivered hpc | lastPoll hpc | worked hpc
  | idleDirty hpc | idleClean hpc | lastFlush hpc | flush hpc | again hpc =>
    exact (hno h (by rw [hpc]; nofun) (by rw [hpc]; nofun)).elim

theorem step_drainMarked {a : Action} (h : DrainMarked s) (hstep : step cfg s a = some s') :
    DrainMarked s' := by
  have hkeep : s'.drain = s.drain →
      (∀ r, (s'.rings r).draining = true → (s.rings r).draining = true) → DrainMarked s' := by
    intro hd hr r hdr
    rw [hd]
    exact h r (hr r hdr)
  have hkill : ∀ {r₀ : Nat} (r : Nat), (Function.update s.rings r₀
      { s.rings r₀ with live := false } r).draining = true → (s.rings r).draining = true := by
    intro r₀ r hdr
    by_cases hr : r = r₀
    · subst hr
      rwa [Function.update_self] at hdr
    · rwa [Function.update_of_ne hr] at hdr
  cases a with
  | log t total =>
    obtain ⟨-, pc, -, rfl⟩ := log_inv hstep
    exact hkeep rfl fun _ => id
  | exit t =>
    obtain ⟨-, ⟨r, -, rfl⟩ | ⟨-, rfl⟩⟩ := exit_inv hstep
    · exact hkeep rfl hkill
    · exact hkeep rfl fun _ => id
  | thread t =>
    have hm : ThreadMove cfg t s s' := threadStep_move hstep
    exact hkeep hm.frame.1 fun r => thread_draining hm
  | wake t =>
    obtain ⟨-, rfl⟩ := wake_inv hstep
    exact hkeep rfl fun _ => id
  | drain => exact drain_draining (drainStep_move hstep) h
  | guard =>
    have hm : GuardMove s s' := guardStep_move hstep
    cases hm with
    | mark => exact hkeep rfl hkill
    | lock | unlock | signal | joined => exact hkeep rfl fun _ => id

end Sys

end Ticklog
