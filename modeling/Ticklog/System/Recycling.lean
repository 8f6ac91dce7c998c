import Ticklog.System.Circulation

/-!
# What circulates goes on circulating (`src/segments.rs`, `src/drain.rs`)

The invariant of the circulating segments survives each step (`step_circ`): what a thread pops
it prepares, registers and uses, what it hands off is the drain's to retire or its own to
format, and nobody marks or rewinds a segment that is in somebody else's hands.
-/

namespace Ticklog

open Lib

namespace Sys

variable {cfg : Config} {s s' : Sys}

/-- What the drain is about to mark as recycled it has retired. -/
theorem CircInv.marks (h : CircInv s) {ctx : PassCtx} {r : Nat}
    (hpc : s.drain.pc = .markRecycled ctx r) (hrec : (s.rings r).recyclable = true) :
    Free s r ∧ r ∉ s.registry :=
  h.due_free (h.intact.returning (Or.inl hpc)) hrec

/-- A ring in somebody's hands is not marked as recycled. -/
theorem held_unrecycled (h : CircInv s) {a : Action} (hstep : step cfg s a = some s') {t r : Nat}
    (hold : Holds s t r) (hr : (s.rings r).recycled = false) : (s'.rings r).recycled = false := by
  by_contra hne
  rcases step_recycled hstep (h.own.hold.bounded r hold.inUse) (Bool.not_eq_false _ ▸ hne) with
    hrec | ⟨-, ⟨ctx, hpc⟩, hrec⟩
  · rw [hr] at hrec
    cases hrec
  · exact (h.marks hpc hrec).1.2 t hold

/-- Nobody hands off another thread's ring. -/
theorem held_unmarked (h : CircInv s) {a : Action} (hstep : step cfg s a = some s') {t r : Nat}
    (hact : a.actor ≠ some t) (hold : Holds s t r) (hr : (s.rings r).handedOff = false) :
    (s'.rings r).handedOff = false := by
  by_contra hne
  rcases step_handsOff hstep (h.own.hold.bounded r hold.inUse) (Bool.not_eq_false _ ▸ hne) with
    hoff | ⟨t', rfl, hpc, hring⟩
  · rw [hr] at hoff
    cases hoff
  · have ht := h.own.hold.alone r t' t (Or.inl ⟨hring, Or.inl (by rw [hpc]; rfl)⟩) hold
    exact hact (congrArg some ht)

/-- Nobody registers another thread's ring. -/
theorem held_unregistered (h : CircInv s) {a : Action} (hstep : step cfg s a = some s')
    {t r : Nat} (hact : a.actor ≠ some t) (hold : Holds s t r) (hr : r ∈ s'.registry) :
    r ∈ s.registry := by
  rcases step_registry_mem h.own.drain.fair hstep hr with hr | ⟨t', rfl, hpc⟩
  · exact hr
  · have ht := h.own.hold.alone r t' t (Or.inr (by rw [hpc]; rfl)) hold
    exact absurd (congrArg some ht) hact

/-- Other agents leave what is known at a thread's position. -/
theorem hands_others (h : CircInv s) {a : Action} (hstep : step cfg s a = some s') {t : Nat}
    (hact : a.actor ≠ some t) : Hands s' t := by
  rcases step_wakes hact hstep with hth | ⟨-, hth, -⟩
  case inr =>
    unfold Hands
    rw [hth]
    trivial
  have hhold := h.own.hold
  have hh := h.hands t
  have hhand : ∀ {r}, inHand (s.threads t).pc = some r → Holds s t r := fun hr => Or.inr hr
  unfold Hands at hh ⊢
  rw [hth]
  cases hpc : (s.threads t).pc with
  | reset why r k =>
    have hold := hhand (r := r) (by rw [hpc]; rfl)
    simp only [hpc] at hh
    cases why with
    | helper => trivial
    | initial | handoff =>
      refine ⟨fun hk => held_unrecycled h hstep hold (hh.1 hk), fun hreg => ?_⟩
      exact held_unmarked h hstep hact hold (hh.2 (held_unregistered h hstep hact hold hreg))
  | setInfo r | register r =>
    simp only [hpc] at hh
    exact held_unrecycled h hstep (hhand (by rw [hpc]; rfl)) hh
  | recycle =>
    simp only [hpc] at hh
    intro r hr
    exact held_unmarked h hstep hact (Or.inl ⟨hr, Or.inr (Or.inl (by rw [hpc]; rfl))⟩) (hh r hr)
  | takeSpare | reserveHelper =>
    simp only [hpc] at hh
    intro r hr hrec hreg hid
    have hlt : r < s.nextRing := hhold.bounded r (Or.inr (Or.inr ⟨t, Or.inl hr⟩))
    rw [step_recyclable hstep hlt] at hrec
    -- the incarnation is the one that was there before, and nobody's
    have hid₀ : (s.rings r).threadId = t := by
      rcases step_threadId hstep hlt with heq | ⟨t', rfl, -, heq⟩
      · rw [← heq, hid]
      · exact absurd (congrArg some (heq.symm.trans hid)) hact
    have hreg₀ : r ∈ s.registry := by
      rcases step_registry_mem h.own.drain.fair hstep hreg with hreg | ⟨t', rfl, hpc'⟩
      · exact hreg
      · have hf := hhold.fit t'
        unfold Fit at hf
        simp only [hpc'] at hf
        exact absurd (congrArg some (hf.1.symm.trans hid₀)) hact
    obtain ⟨hfree, -⟩ := (hhold.fit t).offered (by rw [hpc]; rfl) hr hrec hreg₀ hid₀
    rcases step_takesBack hstep hlt (hh r hr hrec hreg₀ hid₀) with hoff | ⟨t', why, -, hpc'⟩
    · exact hoff
    · exact absurd (Or.inr (by rw [hpc']; rfl)) (hfree.2 t')
  | switch | idle | reserve | spin | publish | markHandedOff | initRing | formatWait | format
  | pushLines | allocFresh | poolTake | poolLive | poolWait | asleep | woken | exited => trivial

/-- A rewind clears `recycled` with its sixth store. -/
theorem resetStore_recycled {k : Nat} {r : Ring} (h : 6 ≤ k → r.recycled = false)
    (hk : 6 ≤ k + 1) : (r.resetStore k).recycled = false := by
  match k with
  | 0 | 1 | 2 | 3 | 4 => omega
  | 5 => rfl
  | 6 => exact h (by omega)
  | k + 7 => exact h (by omega)

theorem resetStore_unmarked {k : Nat} {r : Ring} (h : r.handedOff = false) :
    (r.resetStore k).handedOff = false := by
  unfold Ring.resetStore
  split <;> first | exact h | rfl

/-- A thread's own step. -/
theorem thread_hands (h : CircInv s) {t : Nat} (hm : ThreadMove cfg t s s') : Hands s' t := by
  have hh := h.hands t
  have hf := h.own.hold.fit t
  unfold Hands at hh
  unfold Fit at hf
  cases hm with
  | @takeFirst r rest hpc hseg hsp =>
    unfold Hands
    rw [threads_goto]
    refine ⟨fun hk => by omega, fun hreg => ?_⟩
    exact h.stale r (by rw [hsp]; exact List.mem_cons_self) hreg
  | @takeSpare r r' rest hpc hr hsp =>
    unfold Hands
    rw [threads_goto]
    refine ⟨fun hk => by omega, fun hreg => ?_⟩
    exact h.stale r' (by rw [hsp]; exact List.mem_cons_self) hreg
  | allocFirst | allocFresh =>
    have hnew : (alloc t s).rings s.nextRing = Ring.fresh false := Function.update_self _ _ _
    unfold Hands
    rw [show (alloc t s).threads t = { s.threads t with pc := .setInfo s.nextRing } from
      threads_goto _ _ _]
    dsimp only
    rw [hnew]
    rfl
  | @reset why r k hpc hk =>
    simp only [hpc] at hh
    unfold Hands
    rw [threads_goto]
    cases why with
    | helper => trivial
    | initial | handoff =>
      dsimp only
      rw [rings_self]
      exact ⟨fun hk => resetStore_recycled hh.1 hk, fun hreg => resetStore_unmarked (hh.2 hreg)⟩
  | @resetLast why r k hpc hk =>
    simp only [hpc] at hh hf
    have hk' : 7 ≤ k := by
      unfold Ring.resetSteps at hk
      omega
    unfold Hands
    rw [threads_goto]
    cases why with
    | helper =>
      intro r' hr'
      rw [setRing_threads, hf.1, Option.some.injEq] at hr'
      subst hr'
      rw [rings_self]
      exact resetStore_unmarked (hf.2.2.1 hk')
    | initial | handoff =>
      dsimp only [afterReset]
      rw [rings_self]
      exact resetStore_recycled hh.1 (by omega)
  | @setInfo r hpc =>
    simp only [hpc] at hh
    unfold Hands
    rw [threads_goto]
    dsimp only
    rw [rings_self]
    exact hh
  | switch =>
    unfold Hands
    rw [threads_self]
    trivial
  | full hpc hr hroom hpol =>
    unfold Hands
    rw [threads_goto]
    rcases hpol with ⟨-, rfl⟩ | ⟨-, rfl⟩ | ⟨-, rfl⟩
    all_goals trivial
  | publish hpc hr =>
    unfold Hands
    rw [show (publish t _ s).threads t = _ from threads_self _ _ _]
    trivial
  | @markHandedOff r hpc hr =>
    by_cases hpol : cfg.policy = .nanoLog
    · rw [if_pos hpol]
      unfold Hands
      rw [threads_goto]
      intro r' hr' _ _ _
      obtain rfl : r' = r := Option.some.inj (hr'.symm.trans hr)
      rw [rings_self]
    · rw [if_neg hpol]
      unfold Hands
      rw [threads_goto]
      trivial
  | @noSpare r pc hpc hr hsp =>
    unfold Hands
    rw [threads_goto]
    rcases hpc with ⟨hpc, rfl⟩ | ⟨hpc, rfl⟩ | ⟨hpc, rfl⟩
    · simp only [hpc] at hh
      exact hh
    · trivial
    · trivial
  | formatSpin hpc =>
    unfold Hands
    rw [hpc]
    trivial
  | @spin r hpc hr | @poolLive r hpc hr =>
    unfold Hands
    rw [threads_goto, h.intact.live r]
    trivial
  | register | granted | reserveHelper | formatEnter | formatDone | format | pushLines | recycle
  | poolWait =>
    unfold Hands
    rw [threads_goto]
    trivial

theorem step_hands (h : CircInv s) {a : Action} (hok : CircOk s a)
    (hstep : step cfg s a = some s') (t : Nat) : Hands s' t := by
  by_cases hact : a.actor = some t
  · cases a with
    | thread t' =>
      obtain rfl : t' = t := Option.some.inj hact
      exact thread_hands h (threadStep_move hstep)
    | log t' total =>
      obtain rfl : t' = t := Option.some.inj hact
      obtain ⟨hpc, pc, hpc', rfl⟩ := log_inv hstep
      unfold Hands
      rw [threads_self]
      rcases hpc' with rfl | rfl
      all_goals trivial
    | wake t' =>
      obtain rfl : t' = t := Option.some.inj hact
      obtain ⟨-, rfl⟩ := wake_inv hstep
      unfold Hands
      rw [threads_goto]
      trivial
    | exit | guard => exact hok.elim
    | drain => cases hact
  · exact hands_others h hstep hact

theorem step_stale (h : CircInv s) {a : Action} (hstep : step cfg s a = some s') {r : Nat}
    (hsp : r ∈ s'.spares) (hreg : r ∈ s'.registry) : (s'.rings r).handedOff = false := by
  have hhold := h.own.hold
  by_contra hne
  have hoff' : (s'.rings r).handedOff = true := Bool.not_eq_false _ ▸ hne
  have hmem := step_registry_mem h.own.drain.fair hstep hreg
  rcases step_pool hstep hsp with hsp | ⟨t, rfl, hpc, hr⟩ | ⟨rfl, ctx, hpc⟩
  · have hlt : r < s.nextRing := hhold.bounded r (Or.inr (Or.inl hsp))
    rcases hmem with hreg | ⟨t, -, hpc⟩
    · rcases step_handsOff hstep hlt hoff' with hoff | ⟨t, -, hpc, hr⟩
      · rw [h.stale r hsp hreg] at hoff
        cases hoff
      · exact hhold.pooled r hsp t (Or.inl ⟨hr, Or.inl (by rw [hpc]; rfl)⟩)
    · exact hhold.pooled r hsp t (Or.inr (by rw [hpc]; rfl))
  · have hlt : r < s.nextRing := hhold.bounded r (Or.inr (Or.inr ⟨t, Or.inl hr⟩))
    have hh := h.hands t
    unfold Hands at hh
    simp only [hpc] at hh
    rcases step_handsOff hstep hlt hoff' with hoff | ⟨t', ha, hpc', -⟩
    · rw [hh r hr] at hoff
      cases hoff
    · cases ha
      rw [hpc] at hpc'
      cases hpc'
  · obtain ⟨hno, -⟩ := h.own.drain.fair.pushed ctx r hpc
    rcases hmem with hreg | ⟨t, ha, -⟩
    · exact hno hreg
    · cases ha

theorem step_clean (h : CircInv s) {a : Action} (hstep : step cfg s a = some s') {r : Nat}
    (hreg : r ∈ s'.registry) : (s'.rings r).recycled = false := by
  rcases step_registry_mem h.own.drain.fair hstep hreg with hreg | ⟨t, -, hpc⟩
  · by_contra hne
    have hlt : r < s.nextRing := h.own.hold.bounded r (Or.inl (Or.inl hreg))
    rcases step_recycled hstep hlt (Bool.not_eq_false _ ▸ hne) with
      hrec | ⟨-, ⟨ctx, hpc⟩, hrec⟩
    · rw [h.clean r hreg] at hrec
      cases hrec
    · exact (h.marks hpc hrec).2 hreg
  · have hh := h.hands t
    unfold Hands at hh
    simp only [hpc] at hh
    exact held_unrecycled h hstep (Or.inr (by rw [hpc]; rfl)) hh

theorem step_unmarked (h : CircInv s) {a : Action} (h' : Intact s')
    (hstep : step cfg s a = some s') {ctx : PassCtx} {r : Nat}
    (hpc' : s'.drain.pc = .markRecycled ctx r) (hrec' : (s'.rings r).recyclable = true) :
    (s'.rings r).recycled = false := by
  by_contra hne
  have hne' : (s'.rings r).recycled = true := Bool.not_eq_false _ ▸ hne
  by_cases ha : a = .drain
  · subst ha
    have hm : DrainMove cfg s s' := drainStep_move hstep
    -- the position before is the retirement
    have hbefore : ∃ i k, s.drain.pc = .retire i r k .locked ∧ (s.rings r).serial = k ∧
        r ∈ s.registry := by
      rcases due_step h' hm (h'.returning (Or.inl hpc')) with ⟨hdue, hno⟩ | hret
      · obtain ⟨i', k', hpc | hpc⟩ := h.intact.due hdue
        · cases hm with
          | markRecycled hpc₂ => cases hpc'
          | @notRecycled ctx₂ r₂ hpc₂ hno =>
            cases ctx₂ <;> cases hpc'
          | _ => simp_all
        · exact absurd hpc (hno _)
      · exact hret
    obtain ⟨i, k, hpc, hk, hreg⟩ := hbefore
    have hlt : r < s.nextRing := h.own.hold.bounded r (Or.inl (Or.inl hreg))
    rcases step_recycled hstep hlt hne' with hold | ⟨-, ⟨ctx', hpc₂⟩, -⟩
    · rw [h.clean r hreg] at hold
      cases hold
    · rw [hpc] at hpc₂
      cases hpc₂
  · obtain ⟨hd, -⟩ := step_drain_frame ha hstep
    rw [hd] at hpc'
    have hlt : r < s.nextRing := by
      refine h.own.hold.bounded r (Or.inl (Or.inr (Or.inr (Or.inr ?_))))
      rw [hpc']
      exact List.mem_singleton_self r
    rw [step_recyclable hstep hlt] at hrec'
    rcases step_recycled hstep hlt hne' with hold | ⟨ha', -⟩
    · rw [h.unmarked _ _ hpc' hrec'] at hold
      cases hold
    · exact ha ha'

/-- A ring in a thread's use stays so, or is handed off. -/
theorem step_uses {a : Action} (hok : CircOk s a) (hstep : step cfg s a = some s') {t r : Nat}
    (h : Uses s t r) : Uses s' t r ∨ handsOff s a = some r := by
  by_cases hact : a.actor = some t
  · cases a with
    | thread t' =>
      obtain rfl : t' = t := Option.some.inj hact
      rcases thread_uses (threadStep_move hstep) h with h | ⟨hpc, hr⟩
      · exact Or.inl h
      · exact Or.inr (by rw [handsOff, if_pos hpc, hr])
    | log t' total =>
      obtain rfl : t' = t := Option.some.inj hact
      refine Or.inl ?_
      simp only [step, log] at hstep
      split at hstep
      next hcall =>
        unfold Uses ownRing at h
        rw [hcall.1] at h
        split at hstep
        next hring =>
          rw [hring] at h
          cases h
        next =>
          cases hstep
          unfold Uses
          rw [threads_self]
          exact h
      next => cases hstep
    | wake t' =>
      obtain rfl : t' = t := Option.some.inj hact
      obtain ⟨hpc, -⟩ := wake_inv hstep
      unfold Uses ownRing at h
      rw [hpc] at h
      cases h
    | exit | guard => exact hok.elim
    | drain => cases hact
  · exact Or.inl ((uses_other hact hstep).mpr h)

/-- A ring on loan stays so, or is given back. -/
theorem step_helps (h : CircInv s) {a : Action} (hok : CircOk s a)
    (hstep : step cfg s a = some s') {t r : Nat} (hhelp : Helps s t r) :
    Helps s' t r ∨ givesBack s a = some r := by
  by_cases hact : a.actor = some t
  · cases a with
    | thread t' =>
      obtain rfl : t' = t := Option.some.inj hact
      by_cases hpc : (s.threads t').pc = .recycle
      · unfold Helps onLoan at hhelp
        rw [hpc] at hhelp
        exact Or.inr (by rw [givesBack, if_pos hpc]; exact hhelp)
      · exact Or.inl ((thread_helps h.own.hold.helpersOwn (threadStep_move hstep)).mpr
          (Or.inl ⟨hhelp, hpc⟩))
    | log t' total =>
      obtain rfl : t' = t := Option.some.inj hact
      obtain ⟨hpc, -⟩ := log_inv hstep
      unfold Helps onLoan at hhelp
      rw [hpc] at hhelp
      cases hhelp
    | wake t' =>
      obtain rfl : t' = t := Option.some.inj hact
      obtain ⟨hpc, -⟩ := wake_inv hstep
      unfold Helps onLoan at hhelp
      rw [hpc] at hhelp
      cases hhelp
    | exit | guard => exact hok.elim
    | drain => cases hact
  · exact Or.inl ((helps_other hact hstep).mpr hhelp)

theorem other_seen (h : CircInv s) {a : Action} (hok : CircOk s a) (ha : a ≠ .drain)
    (hstep : step cfg s a = some s') : Seen s' := by
  obtain ⟨hd, -⟩ := step_drain_frame ha hstep
  have hhold := h.own.hold
  have hdrain := h.own.drain
  have hs := h.seen
  have ht := hdrain.tested
  have hentry : ∀ {i r k : Nat} {test : Retire}, s.drain.pc = .retire i r k test →
      k < s.nextSerial ∧ r < s.nextRing := by
    intro i r k test hpc
    have he := hdrain.entry i r k (by rw [hpc]; rfl)
    refine ⟨hdrain.localNumbered _ (List.mem_of_getElem? he), hhold.bounded r (Or.inl ?_)⟩
    exact Or.inr (Or.inl (List.mem_map.mpr ⟨_, List.mem_of_getElem? he, rfl⟩))
  have hlate : ∀ {i r k : Nat} {test : Retire}, s.drain.pc = .retire i r k test →
      ((s.rings r).recyclable = true → r ∈ s.registry → (s.rings r).serial = k → Free s r) →
      ((s.rings r).recyclable = true → r ∈ s.registry → (s.rings r).serial = k →
        (s.rings r).handedOff = true) →
      (s'.rings r).recyclable = true → r ∈ s'.registry → (s'.rings r).serial = k →
      (s'.rings r).handedOff = true := by
    intro i r k test hpc hfree hoff hrec hreg hser
    obtain ⟨hk, hlt⟩ := hentry hpc
    rw [step_recyclable hstep hlt] at hrec
    obtain ⟨hreg₀, hser₀, -⟩ := same_incarnation hdrain hstep hk hlt hreg hser
    rcases step_takesBack hstep hlt (hoff hrec hreg₀ hser₀) with hoff | ⟨t, why, -, hpc'⟩
    · exact hoff
    · exact absurd (Or.inr (by rw [hpc']; rfl)) ((hfree hrec hreg₀ hser₀).2 t)
  unfold Tested at ht
  unfold Seen at hs ⊢
  rw [hd]
  cases hpc : s.drain.pc with
  | retire i r k test =>
    simp only [hpc] at hs ht
    cases test with
    | handedOff => trivial
    | reserved =>
      intro hreg hser
      obtain ⟨hk, hlt⟩ := hentry hpc
      obtain ⟨hreg₀, hser₀, -⟩ := same_incarnation hdrain hstep hk hlt hreg hser
      rcases hs hreg₀ hser₀ with hoff | hsp | ⟨t, hhelp | huse⟩
      · rcases step_takesBack hstep hlt hoff with hoff | ⟨t, why, rfl, hpc'⟩
        · exact Or.inl hoff
        · -- a rewind: the ring is on its way to the pool, or out of it
          refine Or.inr ?_
          cases why with
          | helper =>
            have hhelp : Helps s t r := by
              unfold Helps onLoan
              rw [hpc']
            rcases step_helps h hok hstep hhelp with hhelp | hback
            · exact Or.inr ⟨t, Or.inl hhelp⟩
            · exact Or.inl (givesBack_pool hback hstep)
          | initial | handoff =>
            have huse : Uses s t r := by
              unfold Uses ownRing
              rw [hpc']
            rcases step_uses hok hstep huse with huse | hh
            · exact Or.inr ⟨t, Or.inr huse⟩
            · rw [handsOff, hpc'] at hh
              cases hh
      · rcases step_takes hstep hsp with hsp | ⟨t, huse⟩
        · exact Or.inr (Or.inl hsp)
        · exact Or.inr (Or.inr ⟨t, Or.inr huse⟩)
      · rcases step_helps h hok hstep hhelp with hhelp | hback
        · exact Or.inr (Or.inr ⟨t, Or.inl hhelp⟩)
        · exact Or.inr (Or.inl (givesBack_pool hback hstep))
      · rcases step_uses hok hstep huse with huse | hh
        · exact Or.inr (Or.inr ⟨t, Or.inr huse⟩)
        · -- nobody writes the ring under test
          obtain ⟨t', rfl, hpc', hr⟩ := handsOff_some hh
          exact absurd (Or.inl ⟨hr, by rw [hpc']; rfl⟩) (ht hreg₀ hser₀ t')
    | serial => exact hlate hpc ht hs
    | head => exact hlate hpc ht hs
    | tail head => exact hlate hpc ht hs
    | locked => exact hlate hpc ht hs
  | _ => trivial

/-- A position outside `maybe_retire` has seen nothing. -/
theorem Seen.of_pc (h : ∀ i r k test, s.drain.pc ≠ .retire i r k test) : Seen s := by
  unfold Seen
  split
  next hpc => exact absurd hpc (h _ _ _ _)
  next hpc => exact absurd hpc (h _ _ _ _)
  next hpc => exact absurd hpc (h _ _ _ _)
  next hpc => exact absurd hpc (h _ _ _ _)
  next hpc => exact absurd hpc (h _ _ _ _)
  next => trivial

theorem drain_seen (h : CircInv s) (hok : CircOk s .drain) (hm : DrainMove cfg s s') :
    Seen s' := by
  have hhold := h.own.hold
  have hs := h.seen
  have ht := h.own.drain.tested
  have hscan : syncing s'.drain.pc = true → Seen s' := by
    intro hs'
    refine .of_pc fun i r k test hpc => ?_
    rw [hpc] at hs'
    cases hs'
  unfold Tested at ht
  unfold Seen at hs
  cases hm with
  | handedOff hpc hoff => exact fun _ _ => Or.inl hoff
  | @notReserved i r k hpc hres =>
    simp only [hpc] at hs ht
    have hw := hok.1
    unfold OwnOk at hw
    simp only [hpc] at hw
    intro hrec hreg hser
    obtain ⟨hsp, hno⟩ := hw hrec hreg hser hres
    have hfree := unreserved_free hhold hrec (ht hreg hser) hres hsp hno
    rcases hs hreg hser with hoff | hin | ⟨t, hhelp | huse⟩
    · exact hoff
    · exact absurd hin hsp
    · exact absurd hhelp.holds (hfree.2 t)
    · exact absurd huse.holds (hfree.2 t)
  | sameSerial hpc hk =>
    simp only [hpc] at hs
    exact hs
  | loadHead hpc =>
    simp only [hpc] at hs
    exact hs
  | drained hpc =>
    simp only [hpc] at hs
    exact hs
  | syncNext hpc hsub => exact hscan (syncNext_syncing _)
  | syncLive hpc hsub hl => exact hscan (syncDecide_syncing hpc)
  | syncDead hpc hsub => exact hscan (syncDecide_syncing hpc)
  | enter hpc hsh hnext => rcases hnext with rfl | ⟨-, rfl⟩ <;> trivial
  | pollDone hpc he hnext => rcases hnext with ⟨-, rfl⟩ | ⟨-, rfl⟩ <;> trivial
  | @clear ctx r hpc =>
    cases ctx with
    | final =>
      refine .of_pc fun i r k test hpc' => ?_
      simp only [drainTo_drain, afterPass] at hpc'
      split at hpc' <;> cases hpc'
    | poll i k => trivial
  | retired hpc hl hk hr =>
    refine .of_pc fun i r k test hpc' => ?_
    dsimp only at hpc'
    split at hpc' <;> cases hpc'
  | @notRecycled ctx r hpc hr => cases ctx <;> trivial
  | @recycle ctx r hpc => cases ctx <;> trivial
  | _ => trivial

/-- No ring drops out. -/
theorem step_all (hpol : cfg.policy = .nanoLog) (h : CircInv s) {a : Action} (hok : CircOk s a)
    (h' : Intact s') (hstep : step cfg s a = some s') {r : Nat} (hr : r < s.nextRing) :
    Circulates s' r := by
  have howed := owed_step hpol h hok h' hstep r
  rcases h.all r hr with hsp | ⟨t, huse⟩ | ho
  · rcases step_takes hstep hsp with hsp | huse
    · exact Or.inl hsp
    · exact Or.inr (Or.inl huse)
  · rcases step_uses hok hstep huse with huse | hh
    · exact Or.inr (Or.inl ⟨t, huse⟩)
    · exact Or.inr (Or.inr (howed.mpr (Or.inr hh)))
  · by_cases hg : givesBack s a = some r
    · exact Or.inl (givesBack_pool hg hstep)
    · exact Or.inr (Or.inr (howed.mpr (Or.inl ⟨ho, hg⟩)))

/-- A new ring is in its maker's hands. -/
theorem step_made {a : Action} (hstep : step cfg s a = some s') {r : Nat} (hr : s.nextRing ≤ r)
    (hr' : r < s'.nextRing) : ∃ t, Uses s' t r := by
  have hmade : ∀ {t : Nat}, r < (alloc t s).nextRing → ∃ t', Uses (alloc t s) t' r := by
    intro t hlt
    have hr₀ : r = s.nextRing := by
      change r < s.nextRing + 1 at hlt
      omega
    refine ⟨t, ?_⟩
    unfold Uses
    rw [show (alloc t s).threads t = { s.threads t with pc := .setInfo s.nextRing } from
      threads_goto _ _ _, hr₀]
    rfl
  cases a with
  | log t total =>
    obtain ⟨-, pc, -, rfl⟩ := log_inv hstep
    exact absurd hr' (Nat.not_lt_of_le hr)
  | exit t =>
    obtain ⟨-, ⟨r₀, -, rfl⟩ | ⟨-, rfl⟩⟩ := exit_inv hstep
    · exact absurd hr' (Nat.not_lt_of_le hr)
    · exact absurd hr' (Nat.not_lt_of_le hr)
  | wake t =>
    obtain ⟨-, rfl⟩ := wake_inv hstep
    exact absurd hr' (Nat.not_lt_of_le hr)
  | drain =>
    rw [(drain_keeps (drainStep_move hstep)).nextRing] at hr'
    exact absurd hr' (Nat.not_lt_of_le hr)
  | guard =>
    have hm : GuardMove s s' := guardStep_move hstep
    cases hm <;> exact absurd hr' (Nat.not_lt_of_le hr)
  | thread t =>
    have hm : ThreadMove cfg t s s' := threadStep_move hstep
    cases hm with
    | allocFirst => exact hmade hr'
    | allocFresh => exact hmade hr'
    | _ => exact absurd hr' (Nat.not_lt_of_le hr)

theorem step_circ (hpol : cfg.policy = .nanoLog) {a : Action} (h : CircInv s) (hok : CircOk s a)
    (hstep : step cfg s a = some s') : CircInv s' := by
  have h' : Intact s' := step_intact h.intact hok.undying hstep
  refine ⟨step_ledger h.ledger hok.format hstep, fun r hr => step_clean h hstep hr,
    fun ctx r hpc => step_unmarked h h' hstep hpc, step_hands h hok hstep,
    fun r hsp hreg => step_stale h hstep hsp hreg, ?_, fun r hr => ?_⟩
  · by_cases ha : a = .drain
    · subst ha
      exact drain_seen h hok (drainStep_move hstep)
    · exact other_seen h hok ha hstep
  · by_cases hold : r < s.nextRing
    · exact step_all hpol h hok h' hstep hold
    · exact Or.inr (Or.inl (step_made hstep (Nat.le_of_not_lt hold) hr))

theorem reach_circ (hpol : cfg.policy = .nanoLog)
    (h : (system cfg).Runs CircOk (Sys.init cfg) s) : CircInv s :=
  h.invariant (fun _ _ _ hinv hok hstep => step_circ hpol hinv hok hstep) (init_circ hpol)

end Sys

end Ticklog
