import Ticklog.System.Custody

/-!
# What the drain gives back (`src/drain.rs`)

The drain's half of the ownership invariant. A ring it has collected or retired is out of
everybody's sight (`due`), a dead registered ring is nobody's, and along the tests of
`maybe_retire` the drain learns that nobody holds the ring it is about to remove.
-/

namespace Ticklog

open Lib

namespace Sys

variable {cfg : Config} {s s' : Sys}

/-- The rings the drain has collected or retired and not yet done with. -/
def due (d : Drain) : List Nat :=
  match d.pc with
  | .sync _ _ | .finalNext => d.finalize
  | .mark .final r | .pass .final r _ | .clear .final r | .markRecycled .final r
  | .recycle .final r => r :: d.finalize
  | .markRecycled (.poll _ _) r | .recycle (.poll _ _) r => [r]
  | _ => []

/-- What the scans under the lock have established so far. -/
def Scanned (s : Sys) : Prop :=
  match s.drain.pc with
  | .sync (.scanRegistry todo) _ =>
    todo.Sublist s.registry ∧ ∀ r, r ∈ s.drain.finalize → r ∈ s.registry ∧ r ∉ todo
  | .sync (.scanLocal todo) _ =>
    todo.Sublist s.drain.rings ∧
      ∀ r, r ∈ s.drain.finalize → r ∈ s.registry ∨ r ∉ todo.map Prod.fst
  | .sync (.reconcile i) _ =>
    ∀ r, r ∈ s.drain.finalize → (s.rings r).recyclable = true →
      r ∉ (s.drain.rings.take i).map Prod.fst
  | .sync (.addNew todo) _ =>
    todo.Sublist s.registry ∧
      ∀ r, r ∈ s.drain.finalize → (s.rings r).recyclable = true →
        r ∉ s.drain.rings.map Prod.fst
  | .sync (.retain todo kept) _ =>
    (kept ++ todo).Sublist s.registry ∧
      ∀ r, r ∈ s.drain.finalize → (s.rings r).recyclable = true →
        r ∉ s.drain.rings.map Prod.fst ∧ r ∉ kept
  | _ => True

/-- A scan is under way. -/
def scanning (pc : LoopPc) : Bool :=
  match pc with
  | .sync _ _ => true
  | _ => false

/-- Thread `t` writes ring `r` or is about to. -/
def Settles (s : Sys) (t r : Nat) : Prop := Writes s t r ∨ (s.threads t).pc = .switch r

/-- The drain's tests of `maybe_retire` on a pooled ring that is still the entry's
incarnation. -/
def Tested (s : Sys) : Prop :=
  match s.drain.pc with
  | .retire _ r k .reserved =>
    r ∈ s.registry → (s.rings r).serial = k → ∀ t, ¬ Settles s t r
  | .retire _ r k .serial | .retire _ r k .head | .retire _ r k (.tail _)
  | .retire _ r k .locked =>
    (s.rings r).recyclable = true → r ∈ s.registry → (s.rings r).serial = k → Free s r
  | _ => True

/-- What the drain knows of the segments in its own hands and in the registry. -/
structure DrainOwn (s : Sys) : Prop where
  registryNodup : s.registry.Nodup
  localNodup : (s.drain.rings.map Prod.fst).Nodup
  registryNumbered : ∀ r, r ∈ s.registry → (s.rings r).serial < s.nextSerial
  localNumbered : ∀ e, e ∈ s.drain.rings → e.2 < s.nextSerial
  entry : EntryInv s
  dead : ∀ r, (s.rings r).recyclable = true → (s.rings r).live = false →
    (r ∈ s.registry ∨ r ∈ s.drain.rings.map Prod.fst) → Free s r
  half : ∀ phase r, s.drain.pc = .sync phase true → syncSubject s phase = some r →
    (s.rings r).recyclable = true → (s.rings r).live = false
  scanned : Scanned s
  dueNodup : (due s.drain).Nodup
  dueFree : ∀ r, r ∈ due s.drain → (s.rings r).recyclable = true → Free s r
  dueDead : scanning s.drain.pc = true → ∀ r, r ∈ due s.drain → (s.rings r).recyclable = true →
    (s.rings r).live = false ∧ (s.rings r).helperReserved = false
  dueGone : scanning s.drain.pc = false → ∀ r, r ∈ due s.drain → (s.rings r).recyclable = true →
    r ∉ s.registry ∧ r ∉ s.drain.rings.map Prod.fst
  tested : Tested s
  /-- The drain pushes the pool's own segments only. -/
  pushes : ∀ ctx r, s.drain.pc = .recycle ctx r → (s.rings r).recyclable = true

theorem init_drainOwn : DrainOwn (Sys.init cfg) where
  registryNodup := List.nodup_nil
  localNodup := List.nodup_nil
  registryNumbered := nofun
  localNumbered := nofun
  entry := init_entry
  dead := by
    intro r _ hl
    cases hl
  half := nofun
  scanned := trivial
  dueNodup := List.nodup_nil
  dueFree := nofun
  dueDead := nofun
  dueGone := nofun
  tested := trivial
  pushes := nofun

theorem DrainOwn.fair (h : DrainOwn s) : DrainFair s where
  pushed := by
    intro ctx r hpc
    have hin : r ∈ due s.drain := by
      unfold due
      rw [hpc]
      cases ctx with
      | final => exact List.mem_cons_self
      | poll i k => exact List.mem_singleton_self r
    have hrec := h.pushes ctx r hpc
    exact ⟨(h.dueGone (by rw [hpc]; rfl) r hin hrec).1, h.dueFree r hin hrec⟩
  kept := by
    intro todo kept half hpc r hr
    have hs := h.scanned
    unfold Scanned at hs
    rw [hpc] at hs
    exact hs.1.subset hr

/-! ## Other agents -/

/-- Whoever else acts, a free ring that is dead, or out of the registry, or about to be
retired stays free. -/
theorem free_other (hh : HoldInv s) {a : Action} (hok : OwnOk s a) (ha : a ≠ .drain)
    (hstep : step cfg s a = some s') {r : Nat} (h : Free s r) (hr : r < s.nextRing)
    (hrec : (s.rings r).recyclable = true)
    (hwhy : (s.rings r).live = false ∨ r ∉ s.registry ∨ Retiring s r) : Free s' r := by
  refine h.step hh.bounded hh.helpersOwn hstep hr (fun t hact hring => ⟨fun hpc => ?_,
    fun hpc => ?_⟩) fun hact => absurd hact ha
  · subst hact
    obtain ⟨-, hlive, hreg, -, hno⟩ := hh.reserve hok hpc hring hrec
    rcases hwhy with hd | hd | hd
    · rw [hlive] at hd
      cases hd
    · exact hd hreg
    · exact hno hd
  · subst hact
    unfold OwnOk at hok
    simp only [hpc] at hok
    exact hok r hring

/-- Whom an exit or the guard's mark leaves a dead ring to. -/
theorem dies_free (hh : HoldInv s) {a : Action} (hok : OwnOk s a)
    (hstep : step cfg s a = some s') {r : Nat} (hr : r < s.nextRing)
    (hrec : (s.rings r).recyclable = true)
    (hdies : (∃ t, a = .exit t ∧ Writes s t r) ∨
      (a = .guard ∧ ∃ rest, s.guard = .marking (r :: rest))) : Free s' r := by
  rcases hdies with ⟨t, rfl, hw⟩ | ⟨rfl, rest, hg⟩
  · refine ⟨fun hin => ?_, fun t' hold => ?_⟩
    · rcases step_pool hstep hin with hin | ⟨t', ha, -⟩ | ⟨ha, -⟩
      · exact hh.pooled r hin t hw.holds
      · cases ha
      · cases ha
    · rcases step_gains hh.bounded hh.helpersOwn hstep hold with hold₀ | ⟨ha, -⟩
      · have ht := hh.alone r t' t hold₀ hw.holds
        subst ht
        obtain ⟨-, ⟨r₀, -, rfl⟩ | ⟨-, rfl⟩⟩ := exit_inv hstep
        all_goals
          unfold Holds at hold
          rw [threads_self] at hold
          rcases hold with ⟨-, hpc | hpc | ⟨hpc, -⟩⟩ | hpc <;> cases hpc
      · cases ha
  · unfold OwnOk at hok
    simp only [hg] at hok
    obtain ⟨hsp, hthreads⟩ := hok hrec
    have hfree : Free s r := by
      refine ⟨hsp, fun t hold => ?_⟩
      obtain ⟨hin, hleave⟩ := hthreads t
      rcases hold with ⟨hring, hpc⟩ | hin'
      · have hl := hleave hring
        rcases hpc with hpc | hpc | ⟨hpc, -⟩ <;>
          cases hpc' : (s.threads t).pc <;> rw [hpc'] at hpc hl
        all_goals first
          | exact absurd hpc Bool.false_ne_true
          | exact absurd hl Bool.false_ne_true
      · exact hin hin'
    refine hfree.step hh.bounded hh.helpersOwn hstep hr (fun t ha => ?_) nofun
    cases ha

theorem dead_other (hh : HoldInv s) (h : DrainOwn s) {a : Action} (hok : OwnOk s a)
    (ha : a ≠ .drain) (hstep : step cfg s a = some s') {r : Nat}
    (hrec : (s'.rings r).recyclable = true) (hl : (s'.rings r).live = false)
    (hin : r ∈ s'.registry ∨ r ∈ s'.drain.rings.map Prod.fst) : Free s' r := by
  obtain ⟨hd, -⟩ := step_drain_frame ha hstep
  rw [hd] at hin
  -- a ring is registered alive
  have hin₀ : (r ∈ s.registry ∨ r ∈ s.drain.rings.map Prod.fst) ∨
      ∃ t, a = .thread t ∧ (s.threads t).pc = .register r := by
    rcases hin with hin | hin
    · exact (step_registry_mem h.fair hstep hin).imp Or.inl id
    · exact Or.inl (Or.inr hin)
  have hr : r < s.nextRing := by
    rcases hin₀ with (hin₀ | hin₀) | ⟨t, -, hpc⟩
    · exact hh.bounded r (Or.inl (Or.inl hin₀))
    · exact hh.bounded r (Or.inl (Or.inr (Or.inl hin₀)))
    · exact hh.bounded r (Or.inr (Or.inr ⟨t, Or.inr (by rw [hpc]; rfl)⟩))
  rw [step_recyclable hstep hr] at hrec
  rcases step_dies hstep hr hl with hl₀ | hdies
  · rcases hin₀ with hin₀ | ⟨t, -, hpc⟩
    · exact free_other hh hok ha hstep (h.dead r hrec hl₀ hin₀) hr hrec (Or.inl hl₀)
    · have hf := hh.fit t
      unfold Fit at hf
      simp only [hpc] at hf
      rw [hf.2.2 hrec] at hl₀
      cases hl₀
  · exact dies_free hh hok hstep hr hrec hdies

theorem thread_settles {t r : Nat} (hok : OwnOk s (.thread t)) (hm : ThreadMove cfg t s s')
    (h : Settles s' t r) : Settles s t r ∨ (s.threads t).pc = .register r := by
  have hkeep : ∀ {s₁ : Sys} {pc : ThreadPc}, Settles (s₁.goto t pc) t r →
      s₁.threads = s.threads → writing (s.threads t).pc = true → (∀ r', pc ≠ .switch r') →
      Settles s t r := by
    intro s₁ pc h hth hpc hno
    unfold Settles Writes at h
    rw [threads_goto, hth] at h
    rcases h with h | h
    · exact Or.inl ⟨h.1, hpc⟩
    · exact absurd h (hno r)
  have hnone : ∀ {s₁ : Sys} {pc : ThreadPc}, Settles (s₁.goto t pc) t r →
      writing pc = false → (∀ r', pc ≠ .switch r') → False := by
    intro s₁ pc h hpc hno
    unfold Settles Writes at h
    rw [threads_goto] at h
    rcases h with h | h
    · rw [hpc] at h
      cases h.2
    · exact hno r h
  cases hm with
  | @register r₀ hpc hl =>
    unfold Settles Writes at h
    rw [threads_goto] at h
    rcases h with h | h
    · cases h.2
    · rw [ThreadPc.switch.injEq] at h
      exact Or.inr (h ▸ hpc)
  | @switch r₀ hpc =>
    unfold Settles Writes at h
    rw [threads_self] at h
    rcases h with h | h
    · refine Or.inl (Or.inr ?_)
      rw [hpc, Option.some.inj h.1]
    · cases h
  | granted hpc => exact Or.inl (hkeep h rfl (by rw [hpc]; rfl) nofun)
  | full hpc hr hroom hpol =>
    refine Or.inl (hkeep h rfl (by rw [hpc]; rfl) ?_)
    rcases hpol with ⟨-, rfl⟩ | ⟨-, rfl⟩ | ⟨-, rfl⟩ <;> exact nofun
  | spin hpc hr =>
    refine Or.inl (hkeep h rfl (by rw [hpc]; rfl) ?_)
    intro r'
    split <;> exact nofun
  | publish hpc hr =>
    refine Or.inl (Or.inl ?_)
    change Settles ((s.setRing _ _).setThread t _) t r at h
    unfold Settles Writes at h
    rw [threads_self] at h
    rcases h with h | h
    · exact ⟨h.1, by rw [hpc]; rfl⟩
    · cases h
  | @poolLive r₀ hpc hr =>
    unfold OwnOk at hok
    simp only [hpc] at hok
    rw [if_pos (hok r₀ hr)] at h
    exact (hnone h rfl nofun).elim
  | resetLast =>
    next why _ _ _ _ =>
      refine (hnone h ?_ ?_).elim
      · cases why <;> rfl
      · cases why <;> exact nofun
  | markHandedOff hpc hr =>
    refine (hnone h ?_ ?_).elim
    · split <;> rfl
    · intro r'
      split <;> exact nofun
  | noSpare hpc hr hsp =>
    refine (hnone h ?_ ?_).elim
    · rcases hpc with ⟨-, rfl⟩ | ⟨-, rfl⟩ | ⟨-, rfl⟩ <;> rfl
    · rcases hpc with ⟨-, rfl⟩ | ⟨-, rfl⟩ | ⟨-, rfl⟩ <;> exact nofun
  | formatSpin => exact Or.inl h
  | allocFirst | allocFresh =>
    unfold alloc at h
    exact (hnone h rfl nofun).elim
  | _ => exact (hnone h rfl nofun).elim

theorem step_settles {a : Action} (hok : OwnOk s a) (hstep : step cfg s a = some s')
    {t r : Nat} (h : Settles s' t r) :
    Settles s t r ∨ (a = .thread t ∧ (s.threads t).pc = .register r) := by
  by_cases hact : a.actor = some t
  · cases a with
    | thread t' =>
      obtain rfl : t' = t := Option.some.inj hact
      have hm : ThreadMove cfg t' s s' := threadStep_move hstep
      exact (thread_settles hok hm h).imp id fun hpc => ⟨rfl, hpc⟩
    | log t' total =>
      obtain rfl : t' = t := Option.some.inj hact
      obtain ⟨hpc, pc, hpc', rfl⟩ := log_inv hstep
      unfold Settles Writes at h
      rw [threads_self] at h
      rcases h with h | h
      · exact Or.inl (Or.inl ⟨h.1, by rw [hpc]; rfl⟩)
      · rcases hpc' with rfl | rfl <;> cases h
    | exit t' =>
      obtain rfl : t' = t := Option.some.inj hact
      obtain ⟨-, ⟨r, -, rfl⟩ | ⟨-, rfl⟩⟩ := exit_inv hstep
      all_goals
        unfold Settles Writes at h
        rw [threads_self] at h
        simp [writing] at h
    | wake t' =>
      obtain rfl : t' = t := Option.some.inj hact
      obtain ⟨-, rfl⟩ := wake_inv hstep
      unfold Settles Writes at h
      rw [threads_goto] at h
      simp [writing] at h
    | drain | guard => cases hact
  · unfold Settles Writes at h ⊢
    rcases step_wakes hact hstep with hth | ⟨-, hth, -⟩
    · rw [hth] at h
      exact Or.inl h
    · rw [hth] at h
      simp [writing] at h

/-- The registry's entry is the incarnation it was, or a new one. -/
theorem same_incarnation (h : DrainOwn s) {a : Action}
    (hstep : step cfg s a = some s') {r k : Nat} (hk : k < s.nextSerial) (hr : r < s.nextRing)
    (hreg : r ∈ s'.registry) (hser : (s'.rings r).serial = k) :
    r ∈ s.registry ∧ (s.rings r).serial = k ∧
      ∀ t, a = .thread t → (s.threads t).pc ≠ .register r := by
  have hno : ∀ t, a = .thread t → (s.threads t).pc ≠ .register r := by
    rintro t rfl hpc
    have hnew : (s'.rings r).serial = s.nextSerial := by
      have hm : step cfg s (.thread t) = some s' := hstep
      simp only [step, threadStep, hpc] at hm
      split at hm
      next => cases hm
      next =>
        cases hm
        change (Function.update s.rings r _ r).serial = s.nextSerial
        rw [Function.update_self]
    omega
  refine ⟨?_, ?_, hno⟩
  · rcases step_registry_mem h.fair hstep hreg with hreg | ⟨t, ha, hpc⟩
    · exact hreg
    · exact absurd hpc (hno t ha)
  · rcases step_serial hstep hr with heq | ⟨t, ha, hpc, -⟩
    · exact heq ▸ hser
    · exact absurd hpc (hno t ha)

theorem tested_other (hh : HoldInv s) (h : DrainOwn s) {a : Action} (hok : OwnOk s a)
    (ha : a ≠ .drain) (hstep : step cfg s a = some s') : Tested s' := by
  obtain ⟨hd, -⟩ := step_drain_frame ha hstep
  have ht := h.tested
  -- the entry under test is in the local list
  have hentry : ∀ {i r k : Nat} {test : Retire}, s.drain.pc = .retire i r k test →
      k < s.nextSerial ∧ r < s.nextRing := by
    intro i r k test hpc
    have he := h.entry i r k (by rw [hpc]; rfl)
    refine ⟨h.localNumbered _ (List.mem_of_getElem? he), hh.bounded r (Or.inl ?_)⟩
    exact Or.inr (Or.inl (List.mem_map.mpr ⟨_, List.mem_of_getElem? he, rfl⟩))
  have hlate : ∀ {i r k : Nat} {test : Retire}, s.drain.pc = .retire i r k test →
      (test = .serial ∨ test = .head ∨ (∃ head, test = .tail head) ∨ test = .locked) →
      ((s.rings r).recyclable = true → r ∈ s.registry → (s.rings r).serial = k → Free s r) →
      (s'.rings r).recyclable = true → r ∈ s'.registry → (s'.rings r).serial = k →
      Free s' r := by
    intro i r k test hpc htest hfree hrec hreg hser
    obtain ⟨hk, hr⟩ := hentry hpc
    rw [step_recyclable hstep hr] at hrec
    obtain ⟨hreg₀, hser₀, -⟩ := same_incarnation h hstep hk hr hreg hser
    refine free_other hh hok ha hstep (hfree hrec hreg₀ hser₀) hr hrec (Or.inr (Or.inr ?_))
    unfold Retiring
    rw [hpc]
    rcases htest with rfl | rfl | ⟨head, rfl⟩ | rfl
    all_goals exact ⟨rfl, hser₀⟩
  unfold Tested at ht ⊢
  rw [hd]
  cases hpc : s.drain.pc with
  | retire i r k test =>
    simp only [hpc] at ht
    cases test with
    | handedOff => trivial
    | reserved =>
      intro hreg hser t hset
      obtain ⟨hk, hr⟩ := hentry hpc
      obtain ⟨hreg₀, hser₀, hno⟩ := same_incarnation h hstep hk hr hreg hser
      rcases step_settles hok hstep hset with hset | ⟨hact, hpc'⟩
      · exact ht hreg₀ hser₀ t hset
      · exact hno t hact hpc'
    | serial => exact hlate hpc (Or.inl rfl) ht
    | head => exact hlate hpc (Or.inr (Or.inl rfl)) ht
    | tail head => exact hlate hpc (Or.inr (Or.inr (Or.inl ⟨head, rfl⟩))) ht
    | locked => exact hlate hpc (Or.inr (Or.inr (Or.inr rfl))) ht
  | _ => trivial

theorem locked_not_scanning (hl : s.registryLocked = false) : scanning s.drain.pc = false := by
  unfold registryLocked at hl
  unfold scanning
  cases hpc : s.drain.pc with
  | sync phase half =>
    rw [hpc] at hl
    cases hl
  | _ => rfl

/-- While a scan is under way the registry does not change. -/
theorem scanning_registry {a : Action} (ha : a ≠ .drain) (hs : scanning s.drain.pc = true)
    (hstep : step cfg s a = some s') : s'.registry = s.registry := by
  cases a with
  | log t total =>
    obtain ⟨-, pc, -, rfl⟩ := log_inv hstep
    rfl
  | exit t =>
    obtain ⟨-, ⟨r, -, rfl⟩ | ⟨-, rfl⟩⟩ := exit_inv hstep <;> rfl
  | wake t =>
    obtain ⟨-, rfl⟩ := wake_inv hstep
    rfl
  | drain => exact absurd rfl ha
  | guard =>
    have hm : GuardMove s s' := guardStep_move hstep
    cases hm <;> rfl
  | thread t =>
    have hm : ThreadMove cfg t s s' := threadStep_move hstep
    cases hm with
    | register hpc hl =>
      rw [locked_not_scanning hl] at hs
      cases hs
    | _ => rfl

/-- Free rings in the drain's hands stay so, whoever else acts. -/
theorem due_other (hh : HoldInv s) (h : DrainOwn s) {a : Action} (hok : OwnOk s a)
    (ha : a ≠ .drain) (hstep : step cfg s a = some s') {r : Nat} (hin : r ∈ due s.drain)
    (hr : r < s.nextRing) (hrec : (s.rings r).recyclable = true) : Free s' r := by
  refine free_other hh hok ha hstep (h.dueFree r hin hrec) hr hrec ?_
  cases hs : scanning s.drain.pc with
  | true => exact Or.inl (h.dueDead hs r hin hrec).1
  | false => exact Or.inr (Or.inl (h.dueGone hs r hin hrec).1)

theorem due_known {r : Nat} (hin : r ∈ due s.drain) : Known s r := by
  unfold due at hin
  cases hpc : s.drain.pc with
  | sync phase half =>
    rw [hpc] at hin
    exact Or.inr (Or.inr (Or.inl hin))
  | finalNext =>
    rw [hpc] at hin
    exact Or.inr (Or.inr (Or.inl hin))
  | mark ctx r' | clear ctx r' | pass ctx r' p =>
    rw [hpc] at hin
    cases ctx with
    | final =>
      rcases List.mem_cons.mp hin with rfl | hin
      · exact Or.inr (Or.inr (Or.inr (by rw [hpc]; exact List.mem_singleton_self _)))
      · exact Or.inr (Or.inr (Or.inl hin))
    | poll i k => cases hin
  | markRecycled ctx r' | recycle ctx r' =>
    rw [hpc] at hin
    cases ctx with
    | final =>
      rcases List.mem_cons.mp hin with rfl | hin
      · exact Or.inr (Or.inr (Or.inr (by rw [hpc]; exact List.mem_singleton_self _)))
      · exact Or.inr (Or.inr (Or.inl hin))
    | poll i k =>
      refine Or.inr (Or.inr (Or.inr ?_))
      rw [hpc]
      exact hin
  | _ =>
    rw [hpc] at hin
    cases hin

/-- What a registration does to the serials. -/
theorem register_serial {t r : Nat} (hstep : step cfg s (.thread t) = some s')
    (hpc : (s.threads t).pc = .register r) :
    (s'.rings r).serial = s.nextSerial ∧ s'.nextSerial = s.nextSerial + 1 := by
  simp only [step, threadStep, hpc] at hstep
  split at hstep
  next => cases hstep
  next =>
    cases hstep
    refine ⟨?_, rfl⟩
    change (Function.update s.rings r _ r).serial = s.nextSerial
    rw [Function.update_self]

theorem step_nextSerial {a : Action} (hstep : step cfg s a = some s') :
    s.nextSerial ≤ s'.nextSerial := by
  cases a with
  | log t total =>
    obtain ⟨-, pc, -, rfl⟩ := log_inv hstep
    exact Nat.le_refl _
  | exit t =>
    obtain ⟨-, ⟨r, -, rfl⟩ | ⟨-, rfl⟩⟩ := exit_inv hstep
    · exact Nat.le_refl _
    · exact Nat.le_refl _
  | thread t =>
    have hm : ThreadMove cfg t s s' := threadStep_move hstep
    cases hm with
    | register => exact Nat.le_succ _
    | _ => exact Nat.le_refl _
  | wake t =>
    obtain ⟨-, rfl⟩ := wake_inv hstep
    exact Nat.le_refl _
  | drain => exact (drain_keeps (drainStep_move hstep)).nextSerial.ge
  | guard =>
    have hm : GuardMove s s' := guardStep_move hstep
    cases hm <;> exact Nat.le_refl _

/-- Other agents add a ring to the registry by registering it, outside the drain's scans. -/
theorem other_registry {a : Action} (ha : a ≠ .drain) (hstep : step cfg s a = some s') :
    s'.registry = s.registry ∨ ∃ t r, a = .thread t ∧ (s.threads t).pc = .register r ∧
      s.registryLocked = false ∧ r ∉ s.registry ∧ s'.registry = s.registry ++ [r] := by
  cases a with
  | log t total =>
    obtain ⟨-, pc, -, rfl⟩ := log_inv hstep
    exact Or.inl rfl
  | exit t =>
    obtain ⟨-, ⟨r, -, rfl⟩ | ⟨-, rfl⟩⟩ := exit_inv hstep
    · exact Or.inl rfl
    · exact Or.inl rfl
  | wake t =>
    obtain ⟨-, rfl⟩ := wake_inv hstep
    exact Or.inl rfl
  | drain => exact absurd rfl ha
  | guard =>
    have hm : GuardMove s s' := guardStep_move hstep
    cases hm <;> exact Or.inl rfl
  | thread t =>
    have hm : ThreadMove cfg t s s' := threadStep_move hstep
    cases hm with
    | @register r hpc hl =>
      by_cases hr : r ∈ s.registry
      · exact Or.inl (if_pos hr)
      · exact Or.inr ⟨t, r, rfl, hpc, hl, hr, if_neg hr⟩
    | _ => exact Or.inl rfl

/-- The ring a scan is about to evaluate is registered or in the local list. -/
theorem Scanned.subject (h : Scanned s) {phase : SyncPhase} {half : Bool} {r : Nat}
    (hpc : s.drain.pc = .sync phase half) (hsub : syncSubject s phase = some r) :
    r ∈ s.registry ∨ r ∈ s.drain.rings.map Prod.fst := by
  unfold Scanned at h
  rw [hpc] at h
  unfold syncSubject at hsub
  cases phase with
  | scanRegistry todo => exact Or.inl (h.1.subset (List.mem_of_head? hsub))
  | scanLocal todo =>
    refine Or.inr ?_
    obtain ⟨e, he, rfl⟩ := Option.map_eq_some_iff.mp hsub
    exact List.mem_map.mpr ⟨e, h.1.subset (List.mem_of_head? he), rfl⟩
  | reconcile i =>
    obtain ⟨e, -, he⟩ := Option.bind_eq_some_iff.mp hsub
    split at he
    next hreg =>
      cases he
      exact Or.inl hreg
    next => cases he
  | addNew todo => exact Or.inl (h.1.subset (List.mem_of_head? hsub))
  | retain todo kept =>
    exact Or.inl (h.1.subset (List.mem_append_right _ (List.mem_of_head? hsub)))

theorem syncSubject_congr (hd : s'.drain = s.drain) (hreg : s'.registry = s.registry)
    (phase : SyncPhase) : syncSubject s' phase = syncSubject s phase := by
  unfold syncSubject
  rw [hd, hreg]

/-- What the scans found does not change under them. -/
theorem Scanned.congr (h : Scanned s) (hd : s'.drain = s.drain)
    (hreg : s'.registry = s.registry)
    (hrec : ∀ r, r ∈ s.drain.finalize → (s'.rings r).recyclable = (s.rings r).recyclable) :
    Scanned s' := by
  unfold Scanned at h ⊢
  rw [hd]
  cases hpc : s.drain.pc with
  | sync phase half =>
    simp only [hpc] at h
    cases phase with
    | scanRegistry todo | scanLocal todo =>
      rw [hreg]
      exact h
    | reconcile i =>
      intro r hr hrec'
      rw [hrec r hr] at hrec'
      exact h r hr hrec'
    | addNew todo | retain todo kept =>
      rw [hreg]
      refine ⟨h.1, fun r hr hrec' => ?_⟩
      rw [hrec r hr] at hrec'
      exact h.2 r hr hrec'
  | _ => trivial

/-- A dead ring that is nobody's is revived by nobody. -/
theorem Free.stays_dead {a : Action} {r : Nat} (h : Free s r)
    (hstep : Sys.step cfg s a = some s')
    (hr : r < s.nextRing) (hl : (s.rings r).live = false) : (s'.rings r).live = false := by
  by_contra hlive
  rcases step_revives hstep hr (Bool.not_eq_false _ ▸ hlive) with hlive | ⟨t, why, k, -, hpc⟩
  · rw [hl] at hlive
    cases hlive
  · exact h.2 t (Or.inr (by rw [hpc]; rfl))

/-- Whoever else acts, the drain's knowledge stays right. -/
theorem other_drainOwn (hh : HoldInv s) (h : DrainOwn s) {a : Action} (hok : OwnOk s a)
    (ha : a ≠ .drain) (hstep : step cfg s a = some s') : DrainOwn s' := by
  obtain ⟨hd, -⟩ := step_drain_frame ha hstep
  have hregistry := other_registry ha hstep
  have hserials : s.nextSerial ≤ s'.nextSerial := step_nextSerial hstep
  have hknown : ∀ {r}, Known s r → r < s.nextRing := fun hk => hh.bounded _ (Or.inl hk)
  have hsame : scanning s.drain.pc = true → s'.registry = s.registry := fun hs =>
    scanning_registry ha hs hstep
  refine ⟨?_, ?_, ?_, ?_, step_entry h.entry hstep, ?_, ?_, ?_, ?_, ?_, ?_, ?_,
    tested_other hh h hok ha hstep, ?_⟩
  · rcases hregistry with heq | ⟨t, r, -, -, -, hr, heq⟩
    · rw [heq]
      exact h.registryNodup
    · rw [heq]
      exact List.Nodup.append h.registryNodup (List.nodup_singleton r)
        (List.disjoint_singleton.mpr hr)
  · rw [hd]
    exact h.localNodup
  · -- a registered ring keeps its serial or is given the next one
    intro r hr
    have hlt : r < s.nextRing ∧ (r ∈ s.registry ∨
        ∃ t, a = .thread t ∧ (s.threads t).pc = .register r) := by
      rcases step_registry_mem h.fair hstep hr with hr | ⟨t, hact, hpc⟩
      · exact ⟨hknown (Or.inl hr), Or.inl hr⟩
      · exact ⟨hh.bounded r (Or.inr (Or.inr ⟨t, Or.inr (by rw [hpc]; rfl)⟩)),
          Or.inr ⟨t, hact, hpc⟩⟩
    obtain ⟨hlt, hwhere⟩ := hlt
    by_cases hreg : ∃ t, a = .thread t ∧ (s.threads t).pc = .register r
    · obtain ⟨t, rfl, hpc⟩ := hreg
      obtain ⟨hser, hnext⟩ := register_serial hstep hpc
      omega
    · have hin := hwhere.resolve_right hreg
      rcases step_serial hstep hlt with heq | ⟨t, hact, hpc, -⟩
      · rw [heq]
        exact Nat.lt_of_lt_of_le (h.registryNumbered r hin) hserials
      · exact absurd ⟨t, hact, hpc⟩ hreg
  · rw [hd]
    intro e he
    exact Nat.lt_of_lt_of_le (h.localNumbered e he) hserials
  · intro r hrec hl hin
    exact dead_other hh h hok ha hstep hrec hl hin
  · rw [hd]
    intro phase r hpc hsub hrec
    have hreg := hsame (by rw [hpc]; rfl)
    rw [syncSubject_congr hd hreg] at hsub
    have hin := h.scanned.subject hpc hsub
    have hlt : r < s.nextRing := hin.elim (fun hin => hknown (Or.inl hin))
      fun hin => hknown (Or.inr (Or.inl hin))
    rw [step_recyclable hstep hlt] at hrec
    have hl := h.half phase r hpc hsub hrec
    exact (h.dead r hrec hl hin).stays_dead hstep hlt hl
  · cases hs : scanning s.drain.pc with
    | true =>
      refine h.scanned.congr hd (hsame hs) fun r hr => step_recyclable hstep ?_
      exact hknown (Or.inr (Or.inr (Or.inl hr)))
    | false =>
      unfold Scanned
      rw [hd]
      cases hpc : s.drain.pc with
      | sync phase half =>
        rw [hpc] at hs
        cases hs
      | _ => trivial
  · rw [hd]
    exact h.dueNodup
  · rw [hd]
    intro r hin hrec
    have hlt := hknown (due_known hin)
    rw [step_recyclable hstep hlt] at hrec
    exact due_other hh h hok ha hstep hin hlt hrec
  · rw [hd]
    intro hs r hin hrec
    have hlt := hknown (due_known hin)
    rw [step_recyclable hstep hlt] at hrec
    obtain ⟨hl, hres⟩ := h.dueDead hs r hin hrec
    refine ⟨(h.dueFree r hin hrec).stays_dead hstep hlt hl, ?_⟩
    by_contra hres'
    rcases step_reserves hstep hlt (Bool.not_eq_false _ ▸ hres') with hv | ⟨t, rfl, hpc, hring⟩
    · rw [hres] at hv
      cases hv
    · have hlive := (hh.reserve hok hpc hring hrec).2.1
      rw [hl] at hlive
      cases hlive
  · rw [hd]
    intro hs r hin hrec
    have hlt := hknown (due_known hin)
    rw [step_recyclable hstep hlt] at hrec
    obtain ⟨hreg, hloc⟩ := h.dueGone hs r hin hrec
    refine ⟨fun hin' => ?_, hloc⟩
    rcases step_registry_mem h.fair hstep hin' with hin' | ⟨t, -, hpc⟩
    · exact hreg hin'
    · exact (h.dueFree r hin hrec).2 t (Or.inr (by rw [hpc]; rfl))
  · rw [hd]
    intro ctx r hpc
    have hlt : r < s.nextRing := by
      refine hknown (Or.inr (Or.inr (Or.inr ?_)))
      rw [hpc]
      exact List.mem_singleton_self r
    rw [step_recyclable hstep hlt]
    exact h.pushes ctx r hpc

end Sys

end Ticklog
