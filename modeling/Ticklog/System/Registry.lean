import Mathlib.Data.List.Infix
import Ticklog.System.Retire

/-!
# The registry under threads that exit

`sync_rings` loads `live` several times in one call. What survives of that in a plain run:
the registry stays in registration order, a scan that has read `live == false` stands on a
ring that stays dead, and a live registered ring is in the registry, or among what
`retain` keeps of it, until `maybe_retire` takes it.
-/

namespace Ticklog

open Lib

namespace Sys

variable {cfg : Config} {s s' : Sys}

/-- The registry, as it will be when the scan under way is over. -/
def listed (s : Sys) : List Nat :=
  match s.drain.pc with
  | .sync (.retain todo kept) _ => kept ++ todo
  | _ => s.registry

theorem listed_eq (h : ∀ todo kept half, s.drain.pc ≠ .sync (.retain todo kept) half) :
    s.listed = s.registry := by
  unfold listed
  split
  next hpc => exact absurd hpc (h _ _ _)
  next => rfl

/-- Registered earlier. -/
def Earlier (s : Sys) (r r' : Nat) : Prop := (s.rings r).serial < (s.rings r').serial

structure RegistryInv (s : Sys) : Prop where
  sorted : s.registry.Pairwise (Earlier s)
  kept : ∀ todo kept half, s.drain.pc = .sync (.retain todo kept) half →
    (kept ++ todo).Sublist s.registry
  half : ∀ phase r, s.drain.pc = .sync phase true → s.syncSubject phase = some r →
    (s.rings r).live = false
  live : ∀ r, r ∈ s.registered → (s.rings r).live = true → r ∈ s.listed ∨ Retired s r

theorem init_registry : RegistryInv (Sys.init cfg) where
  sorted := .nil
  kept := nofun
  half := nofun
  live := nofun

/-- The ring a scan evaluates is one the drain knows. -/
theorem subject_known {phase : SyncPhase} {half : Bool} {r : Nat}
    (hpc : s.drain.pc = .sync phase half) (hsub : s.syncSubject phase = some r) : Known s r := by
  have hhead : ∀ {l : List Nat}, l.head? = some r → r ∈ l := fun h => List.mem_of_head? h
  unfold Known
  rw [hpc]
  cases phase with
  | scanRegistry todo => exact Or.inr (Or.inr (Or.inr (hhead hsub)))
  | scanLocal todo =>
    refine Or.inr (Or.inr (Or.inr (hhead ?_)))
    rw [mentions, List.head?_map]
    exact hsub
  | reconcile i =>
    simp only [syncSubject] at hsub
    obtain ⟨e, he, hr⟩ := Option.bind_eq_some_iff.mp hsub
    split at hr
    next hmem =>
      cases hr
      exact Or.inl hmem
    next => cases hr
  | addNew todo => exact Or.inr (Or.inr (Or.inr (hhead hsub)))
  | retain todo kept =>
    exact Or.inr (Or.inr (Or.inr (List.mem_append_right _ (hhead hsub))))

/-- A step registers one ring, or none; but for that only the drain changes the registry. -/
theorem step_registers {a : Action} (hstep : step cfg s a = some s') :
    (s'.registered = s.registered ∧ (a ≠ .drain → s'.registry = s.registry)) ∨
    ∃ t r, a = .thread t ∧ (s.threads t).pc = .register r ∧ s.registryLocked = false ∧
      s' = (s.registerRing r).goto t (.switch r) := by
  cases a with
  | log t total =>
    obtain ⟨-, pc, -, rfl⟩ := log_inv hstep
    exact Or.inl ⟨rfl, fun _ => rfl⟩
  | exit t =>
    obtain ⟨-, ⟨r₀, -, rfl⟩ | ⟨-, rfl⟩⟩ := exit_inv hstep
    · exact Or.inl ⟨rfl, fun _ => rfl⟩
    · exact Or.inl ⟨rfl, fun _ => rfl⟩
  | thread t =>
    have hm : ThreadMove cfg t s s' := threadStep_move hstep
    cases hm with
    | @register r hpc hl => exact Or.inr ⟨t, r, rfl, hpc, hl, rfl⟩
    | _ => exact Or.inl ⟨rfl, fun _ => rfl⟩
  | wake t =>
    obtain ⟨-, rfl⟩ := wake_inv hstep
    exact Or.inl ⟨rfl, fun _ => rfl⟩
  | drain =>
    exact Or.inl ⟨(drain_keeps (drainStep_move hstep)).registered, fun h => absurd rfl h⟩
  | guard =>
    have hm : GuardMove s s' := guardStep_move hstep
    cases hm <;> exact Or.inl ⟨rfl, fun _ => rfl⟩

theorem registerRing_registry {t r : Nat} {pc : ThreadPc} :
    s.registry ⊆ ((s.registerRing r).goto t pc).registry := by
  change s.registry ⊆ if r ∈ s.registry then s.registry else s.registry ++ [r]
  split
  · exact List.Subset.refl _
  · exact List.subset_append_left _ _

/-- The registry lock is free only between two scans. -/
theorem unlocked_not_sync (h : s.registryLocked = false) (phase : SyncPhase) (half : Bool) :
    s.drain.pc ≠ .sync phase half := by
  intro hpc
  unfold registryLocked at h
  rw [hpc] at h
  cases h

/-- Registration order only depends on the serials of registered rings. -/
theorem Earlier.step {a : Action} (hp : PlainInv s) (hstep : step cfg s a = some s') {r r' : Nat}
    (hr : r ∈ s.registered) (hr' : r' ∈ s.registered) : Earlier s' r r' ↔ Earlier s r r' := by
  unfold Earlier
  rw [(step_grows hp hstep hr).serial, (step_grows hp hstep hr').serial]

theorem sorted_step {a : Action} (hp : PlainInv s) (hstep : step cfg s a = some s') {l : List Nat}
    (hl : ∀ r, r ∈ l → r ∈ s.registered) (h : l.Pairwise (Earlier s)) :
    l.Pairwise (Earlier s') :=
  h.imp_of_mem fun hr hr' hlt => (Earlier.step hp hstep (hl _ hr) (hl _ hr')).mpr hlt

/-! ## The drain's steps -/

/-- What a scan's step must show of the registry. -/
structure RegistryScan (s s' : Sys) : Prop where
  sub : s'.registry.Sublist s.registry
  kept : ∀ todo kept half, s'.drain.pc = .sync (.retain todo kept) half →
    (kept ++ todo).Sublist s'.registry
  half : ∀ phase r, s'.drain.pc = .sync phase true → s'.syncSubject phase = some r →
    (s.rings r).live = false
  live : ∀ r, (s.rings r).live = true → r ∈ s.listed → r ∈ s'.listed

theorem syncNext_registry (h : RegistryInv s) {phase : SyncPhase} {half : Bool}
    (hpc : s.drain.pc = .sync phase half) (hsub : s.syncSubject phase = none) :
    RegistryScan s (syncNext s phase) := by
  cases phase with
  | scanRegistry todo =>
    have hlisted : s.listed = s.registry := listed_eq (by rw [hpc]; nofun)
    exact ⟨List.Sublist.refl _, nofun, nofun, fun r _ hr => (hlisted ▸ hr : r ∈ s.registry)⟩
  | scanLocal todo =>
    have hlisted : s.listed = s.registry := listed_eq (by rw [hpc]; nofun)
    exact ⟨List.Sublist.refl _, nofun, nofun, fun r _ hr => (hlisted ▸ hr : r ∈ s.registry)⟩
  | reconcile i =>
    have hlisted : s.listed = s.registry := listed_eq (by rw [hpc]; nofun)
    dsimp only [syncNext]
    split
    · exact ⟨List.Sublist.refl _, nofun, nofun, fun r _ hr => (hlisted ▸ hr : r ∈ s.registry)⟩
    · exact ⟨List.Sublist.refl _, nofun, nofun, fun r _ hr => (hlisted ▸ hr : r ∈ s.registry)⟩
  | addNew todo =>
    have hlisted : s.listed = s.registry := listed_eq (by rw [hpc]; nofun)
    refine ⟨List.Sublist.refl _, fun todo' kept half' hpc' => ?_, nofun, fun r _ hr => ?_⟩
    · cases hpc'
      exact List.Sublist.refl _
    · rw [hlisted] at hr
      exact hr
  | retain todo kept =>
    have htodo : todo = [] := List.head?_eq_none_iff.mp hsub
    subst htodo
    have hkept := h.kept _ _ _ hpc
    have hlisted : s.listed = kept ++ [] := by
      unfold listed
      rw [hpc]
    rw [List.append_nil] at hkept hlisted
    exact ⟨hkept, nofun, nofun, fun r _ hr => (hlisted ▸ hr : r ∈ kept)⟩

/-- A verdict of a scan; `keep` is false only for a dead ring. -/
theorem syncDecide_registry (h : RegistryInv s) {phase : SyncPhase} {half keep : Bool} {r : Nat}
    (hpc : s.drain.pc = .sync phase half) (hsub : s.syncSubject phase = some r)
    (hkeep : keep = false → (s.rings r).live = false) :
    RegistryScan s (syncDecide keep s phase) := by
  have hsame : RegistryScan s s := ⟨List.Sublist.refl _, h.kept, h.half, fun _ _ hr => hr⟩
  unfold syncDecide
  split
  next =>
    have hlisted : s.listed = s.registry := listed_eq (by rw [hpc]; nofun)
    exact ⟨List.Sublist.refl _, nofun, nofun, fun r _ hr => (hlisted ▸ hr : r ∈ s.registry)⟩
  next =>
    have hlisted : s.listed = s.registry := listed_eq (by rw [hpc]; nofun)
    exact ⟨List.Sublist.refl _, nofun, nofun, fun r _ hr => (hlisted ▸ hr : r ∈ s.registry)⟩
  next =>
    have hlisted : s.listed = s.registry := listed_eq (by rw [hpc]; nofun)
    split
    next =>
      split
      · exact ⟨List.Sublist.refl _, nofun, nofun, fun r _ hr => (hlisted ▸ hr : r ∈ s.registry)⟩
      · exact ⟨List.Sublist.refl _, nofun, nofun, fun r _ hr => (hlisted ▸ hr : r ∈ s.registry)⟩
    next => exact hsame
  next =>
    have hlisted : s.listed = s.registry := listed_eq (by rw [hpc]; nofun)
    exact ⟨List.Sublist.refl _, nofun, nofun, fun r _ hr => (hlisted ▸ hr : r ∈ s.registry)⟩
  next r₀ rest kept =>
    have hr₀ : r₀ = r := Option.some.inj hsub
    have hkept := h.kept _ _ _ hpc
    have hlisted : s.listed = kept ++ r₀ :: rest := by
      unfold listed
      rw [hpc]
    refine ⟨List.Sublist.refl _, fun todo' kept' half' hpc' => ?_, nofun, fun r' hl hr' => ?_⟩
    · cases hpc'
      split
      · simpa using hkept
      · exact (List.Sublist.append_left (List.sublist_cons_self r₀ rest) kept).trans hkept
    · rw [hlisted] at hr'
      change r' ∈ (if keep then kept ++ [r₀] else kept) ++ rest
      cases hk : keep with
      | true => simpa using hr'
      | false =>
        -- the ring that is dropped is dead
        have hne : r' ≠ r₀ := by
          rintro rfl
          rw [hr₀, hkeep hk] at hl
          cases hl
        simpa [hne] using hr'
  next => exact hsame

/-- The invariant after a scan's step. -/
theorem RegistryInv.scan (h : RegistryInv s) (hp : PlainInv s) (hdel' : DeliveryInv s')
    (hstep : step cfg s .drain = some s') (hf : ScanFrame s s') (hs : RegistryScan s s') :
    RegistryInv s' where
  sorted := by
    have hmem : ∀ r, r ∈ s'.registry → r ∈ s.registered := fun r hr =>
      hp.known r (Or.inl (hs.sub.subset hr))
    exact sorted_step hp hstep hmem (h.sorted.sublist hs.sub)
  kept := hs.kept
  half := by
    rw [hf.rings]
    exact hs.half
  live := by
    intro r hr hl
    rw [hf.registered] at hr
    rw [hf.rings] at hl
    exact (h.live r hr hl).imp (hs.live r hl) fun hR => hR.step hp hdel' hstep hr

theorem drain_registry (h : RegistryInv s) (hret : RetireInv s) (hp : PlainInv s)
    (hdel' : DeliveryInv s') (hstep : step cfg s .drain = some s') : RegistryInv s' := by
  have hm : DrainMove cfg s s' := drainStep_move hstep
  have hregd := (drain_keeps hm).registered
  have hlive : ∀ r, (s'.rings r).live = (s.rings r).live := fun r => (drain_ring_frame hm r).live
  -- outside the scans, with the registry as it was
  have hout : (∀ todo kept half, s.drain.pc ≠ .sync (.retain todo kept) half) →
      (∀ todo kept half, s'.drain.pc ≠ .sync (.retain todo kept) half) →
      (∀ phase, s'.drain.pc ≠ .sync phase true) → s'.registry = s.registry →
      RegistryInv s' := by
    intro hpc hpc' hhalf hreg
    refine ⟨?_, fun todo kept half h' => absurd h' (hpc' _ _ _),
      fun phase r h' => absurd h' (hhalf _),
      fun r hr hl => ?_⟩
    · rw [hreg]
      exact sorted_step hp hstep (fun r hr => hp.known r (Or.inl hr)) h.sorted
    · rw [hregd] at hr
      rw [hlive] at hl
      rw [listed_eq hpc', hreg, ← listed_eq hpc]
      exact (h.live r hr hl).imp id fun hR => hR.step hp hdel' hstep hr
  cases hm with
  | syncNext hpc hsub =>
    exact h.scan hp hdel' hstep (syncNext_frame _) (syncNext_registry h hpc hsub)
  | syncLive hpc hsub hl =>
    exact h.scan hp hdel' hstep (syncDecide_frame _ _) (syncDecide_registry h hpc hsub nofun)
  | syncDead hpc hsub =>
    exact h.scan hp hdel' hstep (syncDecide_frame _ _)
      (syncDecide_registry h hpc hsub fun _ => h.half _ _ hpc hsub)
  | @syncHalf phase r₀ hpc hsub hl =>
    have hlisted : (s.drainTo (.sync phase true)).listed = s.listed := by
      unfold listed
      rw [hpc, drainTo_drain]
      cases phase <;> rfl
    refine ⟨sorted_step hp hstep (fun r hr => hp.known r (Or.inl hr)) h.sorted, ?_, ?_, ?_⟩
    · intro todo kept half hpc'
      cases hpc'
      exact h.kept _ _ _ hpc
    · intro phase' r hpc' hsub'
      cases hpc'
      have heq : r₀ = r := Option.some.inj (hsub.symm.trans hsub')
      exact heq ▸ hl
    · intro r hr hl'
      rw [hlisted]
      exact (h.live r hr hl').imp id fun hR => hR.step hp hdel' hstep hr
  | @retired i r k hpc hl hk hr =>
    have hR : Retired s r := by
      unfold RetireInv at hret
      simp only [hpc] at hret
      exact hret
    have hnext : ∀ phase half, (if cfg.segmented then LoopPc.markRecycled (.poll i k) r
        else .entry i) ≠ .sync phase half := by
      intro phase half
      cases cfg.segmented <;> nofun
    refine ⟨?_, ?_, ?_, ?_⟩
    · exact sorted_step hp hstep (fun r hr => hp.known r (Or.inl (List.mem_of_mem_filter hr)))
        (h.sorted.sublist List.filter_sublist)
    · exact fun todo kept half hpc' => absurd hpc' (hnext _ _)
    · exact fun phase r hpc' => absurd hpc' (hnext _ _)
    · intro r' hr' hl'
      rw [listed_eq (fun _ _ _ => hnext _ _)]
      by_cases hne : r' = r
      · exact Or.inr (hne ▸ hR.step hp hdel' hstep (hne ▸ hr'))
      · have hthen := h.live r' hr' hl'
        rw [listed_eq (by rw [hpc]; nofun)] at hthen
        exact hthen.imp (fun hmem => List.mem_filter.mpr ⟨hmem, by simpa using hne⟩)
          fun hR' => hR'.step hp hdel' hstep hr'
  | enter hpc hsh hnext =>
    rcases hnext with rfl | ⟨-, rfl⟩
    all_goals exact hout (by rw [hpc]; nofun) nofun nofun rfl
  | pollDone hpc he hnext =>
    rcases hnext with ⟨-, rfl⟩ | ⟨-, rfl⟩
    all_goals exact hout (by rw [hpc]; nofun) nofun nofun rfl
  | @clear ctx r hpc =>
    refine hout (by rw [hpc]; nofun) ?_ ?_ rfl
    all_goals
      simp only [drainTo_drain]
      cases ctx with
      | final =>
        unfold afterPass
        cases cfg.segmented <;> nofun
      | poll i k => nofun
  | @notRecycled ctx r hpc hr =>
    refine hout (by rw [hpc]; nofun) ?_ ?_ rfl
    all_goals cases ctx <;> nofun
  | @recycle ctx r hpc =>
    refine hout (by rw [hpc]; nofun) ?_ ?_ rfl
    all_goals cases ctx <;> nofun
  | leave hpc | lock hpc | finalRing hpc | finalDone hpc | entry hpc | stale hpc | skip hpc
  | unreserved hpc | mark hpc | passDone hpc | pass hpc | keepEntry hpc | handedOff hpc
  | notReserved hpc | sameSerial hpc | loadHead hpc | drained hpc | markRecycled hpc
  | takeLines hpc | deliver hpc | delivered hpc | lastPoll hpc | worked hpc | idleDirty hpc
  | idleClean hpc | lastFlush hpc | flush hpc | again hpc =>
    exact hout (by rw [hpc]; nofun) nofun nofun rfl

/-! ## The other agents' steps -/

/-- A step of another agent that leaves the registry alone. -/
theorem RegistryInv.other (h : RegistryInv s) (hp : PlainInv s) (hdel' : DeliveryInv s')
    {a : Action} (hstep : step cfg s a = some s') (hdrain : s'.drain = s.drain)
    (hreg : s'.registry = s.registry) (hregd : s'.registered = s.registered) :
    RegistryInv s' := by
  have hlisted : s'.listed = s.listed := by
    unfold listed
    rw [hdrain, hreg]
  have hsubject : ∀ phase, s'.syncSubject phase = s.syncSubject phase := by
    intro phase
    unfold syncSubject
    rw [hdrain, hreg]
  refine ⟨?_, ?_, ?_, ?_⟩
  · rw [hreg]
    exact sorted_step hp hstep (fun r hr => hp.known r (Or.inl hr)) h.sorted
  · rw [hdrain, hreg]
    exact h.kept
  · intro phase r hpc hsub
    rw [hdrain] at hpc
    rw [hsubject] at hsub
    -- nobody revives a dead ring
    have hg := step_grows hp hstep (hp.known r (subject_known hpc hsub))
    exact Bool.eq_false_iff.mpr fun hl => absurd (hg.live hl) (by simp [h.half _ _ hpc hsub])
  · intro r hr hl
    rw [hregd] at hr
    rw [hlisted]
    have hg := step_grows hp hstep hr
    exact (h.live r hr (hg.live hl)).imp id fun hR => hR.step hp hdel' hstep hr

theorem register_registry (h : RegistryInv s) (hp : PlainInv s) (hdel' : DeliveryInv s')
    {t r : Nat} (hpc : (s.threads t).pc = .register r) (hlock : s.registryLocked = false)
    (hs' : s' = (s.registerRing r).goto t (.switch r))
    (hstep : step cfg s (.thread t) = some s') : RegistryInv s' := by
  have ht := hp.threads t
  unfold ThreadOk at ht
  simp only [hpc] at ht
  have hnr : r ∉ s.registry := fun hr => ht.2.1 (hp.known r (Or.inl hr))
  have hreg : s'.registry = s.registry ++ [r] := by
    rw [hs']
    exact if_neg hnr
  have hdrain : s'.drain = s.drain := by
    rw [hs']
    rfl
  have hserial : (s'.rings r).serial = s.nextSerial := by
    rw [hs']
    exact congrArg Ring.serial (Function.update_self r _ s.rings)
  have hnosync : ∀ phase half, s.drain.pc ≠ .sync phase half := by
    intro phase half hpc'
    unfold registryLocked at hlock
    rw [hpc'] at hlock
    cases hlock
  have hlisted : s'.listed = s.registry ++ [r] := by
    rw [listed_eq (by rw [hdrain]; exact fun _ _ _ => hnosync _ _), hreg]
  refine ⟨?_, ?_, ?_, ?_⟩
  · rw [hreg]
    refine List.pairwise_append.mpr ⟨?_, List.pairwise_singleton _ _, ?_⟩
    · exact sorted_step hp hstep (fun r hr => hp.known r (Or.inl hr)) h.sorted
    · intro r' hr' r'' hr''
      rw [List.mem_singleton.mp hr'']
      have hmem := hp.known r' (Or.inl hr')
      obtain ⟨k, hk⟩ := List.mem_iff_getElem?.mp hmem
      have hlt : k < s.registered.length := (List.getElem?_eq_some_iff.mp hk).1
      unfold Earlier
      rw [hserial, (step_grows hp hstep hmem).serial, hp.serials k r' hk, hp.count]
      exact hlt
  · rw [hdrain]
    exact fun todo kept half hpc' => absurd hpc' (hnosync _ _)
  · rw [hdrain]
    exact fun phase r hpc' => absurd hpc' (hnosync _ _)
  · intro r' hr' hl
    rw [hlisted]
    have hregd : s'.registered = s.registered ++ [r] := by
      rw [hs']
      rfl
    rw [hregd] at hr'
    rcases List.mem_append.mp hr' with hr' | hr'
    · have hthen := h.live r' hr' ((step_grows hp hstep hr').live hl)
      rw [listed_eq (fun _ _ _ => hnosync _ _)] at hthen
      exact hthen.imp (List.mem_append_left _) fun hR => hR.step hp hdel' hstep hr'
    · exact Or.inl (List.mem_append_right _ hr')

theorem step_registry {a : Action} (h : RegistryInv s) (hret : RetireInv s) (hp : PlainInv s)
    (hdel' : DeliveryInv s') (hstep : step cfg s a = some s') : RegistryInv s' := by
  have hother := h.other hp hdel' hstep
  cases a with
  | log t total =>
    have hst := hstep
    simp only [step, log] at hst
    repeat' split at hst
    all_goals cases hst
    all_goals exact hother rfl rfl rfl
  | exit t =>
    have hst := hstep
    simp only [step, exit] at hst
    repeat' split at hst
    all_goals cases hst
    all_goals exact hother rfl rfl rfl
  | thread t =>
    have hm : ThreadMove cfg t s s' := threadStep_move hstep
    cases hm with
    | register hpc hl => exact register_registry h hp hdel' hpc hl rfl hstep
    | _ => exact hother rfl rfl rfl
  | wake t =>
    have hst := hstep
    simp only [step, wake] at hst
    split at hst <;> cases hst
    exact hother rfl rfl rfl
  | drain => exact drain_registry h hret hp hdel' hstep
  | guard =>
    have hst := hstep
    simp only [step, guardStep] at hst
    repeat' split at hst
    all_goals cases hst
    all_goals exact hother rfl rfl rfl

end Sys

end Ticklog
