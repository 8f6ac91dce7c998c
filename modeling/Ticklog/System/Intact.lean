import Ticklog.System.Owners

/-!
# Runs without deaths

While no thread exits and the guard is alive, every ring is live. So the scans of `sync_rings`
drop no ring and collect none, there is no final drain, and a ring leaves the registry by its
retirement only.
-/

namespace Ticklog

open Lib

namespace Sys

variable {cfg : Config} {s s' : Sys}

/-- No thread exits and the guard is alive. -/
def Undying (_ : Sys) : Action → Prop
  | .exit _ | .guard => False
  | _ => True

instance (s : Sys) (a : Action) : Decidable (Undying s a) :=
  match a with
  | .exit _ | .guard => inferInstanceAs (Decidable False)
  | .log _ _ | .thread _ | .wake _ | .drain => inferInstanceAs (Decidable True)

/-- The positions of a final drain. -/
def finalizing : LoopPc → Bool
  | .mark .final _ | .pass .final _ _ | .clear .final _ | .markRecycled .final _
  | .recycle .final _ => true
  | _ => false

/-- No ring is dead, so the scans drop nothing. -/
structure Intact (s : Sys) : Prop where
  live : ∀ r, (s.rings r).live = true
  finalize : s.drain.finalize = []
  final : finalizing s.drain.pc = false
  half : ∀ phase, s.drain.pc ≠ .sync phase true
  retain : ∀ todo kept half, s.drain.pc = .sync (.retain todo kept) half →
    kept ++ todo = s.registry

/-- So every pass belongs to a poll. -/
theorem Intact.polls (h : Intact s) (pc : PassCtx → LoopPc) {ctx : PassCtx}
    (hpc : s.drain.pc = pc ctx) (hf : finalizing (pc .final) = true) :
    ∃ i k, ctx = .poll i k := by
  cases ctx with
  | final =>
    have hno := h.final
    rw [hpc, hf] at hno
    cases hno
  | poll i k => exact ⟨i, k, rfl⟩

theorem init_intact : Intact (Sys.init cfg) where
  live := fun _ => rfl
  finalize := rfl
  final := rfl
  half := nofun
  retain := nofun

/-- Threads make and rewind rings alive. -/
theorem thread_alive {t : Nat} (hm : ThreadMove cfg t s s') (h : ∀ r, (s.rings r).live = true)
    (r : Nat) : (s'.rings r).live = true := by
  have hset : ∀ {r₀ : Nat} {v : Ring}, v.live = true →
      (Function.update s.rings r₀ v r).live = true := by
    intro r₀ v hv
    by_cases hr : r = r₀
    · subst hr
      rwa [Function.update_self]
    · rw [Function.update_of_ne hr]
      exact h r
  cases hm with
  | reset => exact hset (resetStore_live (h _))
  | resetLast => exact hset (resetStore_live (h _))
  | allocFirst => exact hset rfl
  | allocFresh => exact hset rfl
  | format hpc hr hp hst => exact hset ((Pass.step_names hst).2.1.trans (h _))
  | setInfo | register | publish | markHandedOff | reserveHelper => exact hset (h _)
  | _ => exact h r

theorem drain_intact (h : Intact s) (hm : DrainMove cfg s s') : Intact s' := by
  have hlive : ∀ r, (s'.rings r).live = true := fun r =>
    (drain_ring_frame hm r).live.trans (h.live r)
  -- a position that says nothing of dead rings
  have hpos : s'.drain.finalize = [] → finalizing s'.drain.pc = false →
      (∀ phase half, s'.drain.pc ≠ .sync phase half) → Intact s' := fun hf hp hs =>
    ⟨hlive, hf, hp, fun phase => hs phase true, fun todo kept half hpc => absurd hpc (hs _ _)⟩
  have hfinal := h.final
  cases hm with
  | lock hpc hl => exact ⟨hlive, rfl, rfl, nofun, nofun⟩
  | @syncNext phase half hpc hsub =>
    cases phase with
    | scanRegistry | scanLocal => exact ⟨hlive, h.finalize, rfl, nofun, nofun⟩
    | reconcile i =>
      dsimp only [syncNext]
      split <;> exact ⟨h.live, h.finalize, rfl, nofun, nofun⟩
    | addNew todo =>
      refine ⟨hlive, h.finalize, rfl, nofun, fun todo kept half hpc' => ?_⟩
      cases hpc'
      rfl
    | retain todo kept => exact hpos h.finalize rfl nofun
  | @syncHalf phase r hpc hsub hl =>
    rw [h.live r] at hl
    cases hl
  | @syncLive phase r hpc hsub hl =>
    cases phase with
    | scanRegistry todo =>
      cases todo with
      | nil => cases hsub
      | cons r₀ rest => exact ⟨hlive, h.finalize, rfl, nofun, nofun⟩
    | scanLocal todo =>
      cases todo with
      | nil => cases hsub
      | cons e rest =>
        refine ⟨hlive, ?_, rfl, nofun, nofun⟩
        dsimp only [syncDecide]
        simp only [not_true_eq_false, false_and, if_false]
        exact h.finalize
    | reconcile i =>
      dsimp only [syncSubject] at hsub
      obtain ⟨e, he, -⟩ := Option.bind_eq_some_iff.mp hsub
      dsimp only [syncDecide]
      simp only [he, if_true]
      exact ⟨h.live, h.finalize, rfl, nofun, nofun⟩
    | addNew todo =>
      cases todo with
      | nil => cases hsub
      | cons r₀ rest => exact ⟨hlive, h.finalize, rfl, nofun, nofun⟩
    | retain todo kept =>
      cases todo with
      | nil => cases hsub
      | cons r₀ rest =>
        refine ⟨hlive, h.finalize, rfl, nofun, fun todo' kept' half hpc' => ?_⟩
        cases hpc'
        change kept ++ [r₀] ++ rest = s.registry
        rw [List.append_assoc]
        exact h.retain _ _ _ hpc
  | syncDead hpc hsub => exact absurd hpc (h.half _)
  | finalRing hpc hf =>
    rw [h.finalize] at hf
    cases hf
  | enter hpc hsh hnext =>
    rcases hnext with rfl | ⟨-, rfl⟩ <;> exact hpos h.finalize rfl nofun
  | pollDone hpc he hnext =>
    rcases hnext with ⟨-, rfl⟩ | ⟨-, rfl⟩ <;> exact hpos h.finalize rfl nofun
  | @mark ctx r hpc | @passDone ctx r hpc | @pass ctx r p p' ring' x hpc hp hst
  | @clear ctx r hpc | @markRecycled ctx r hpc h₁ h₂ | @notRecycled ctx r hpc hr
  | @recycle ctx r hpc =>
    rw [hpc] at hfinal
    cases ctx with
    | final => cases hfinal
    | poll i k => exact hpos h.finalize rfl nofun
  | retired hpc hl hk hr =>
    refine hpos h.finalize ?_ ?_
    · dsimp only
      split <;> rfl
    · dsimp only
      split <;> nofun
  | _ => exact hpos h.finalize rfl nofun

/-- Neither the drain's state nor the registry has changed under a scan. -/
theorem Intact.of_same (h : Intact s) (hlive : ∀ r, (s'.rings r).live = true)
    (hd : s'.drain = s.drain)
    (hreg : scanning s.drain.pc = true → s'.registry = s.registry) : Intact s' := by
  refine ⟨hlive, by rw [hd]; exact h.finalize, by rw [hd]; exact h.final,
    by rw [hd]; exact h.half, ?_⟩
  rw [hd]
  intro todo kept half hpc
  rw [hreg (by rw [hpc]; rfl)]
  exact h.retain _ _ _ hpc

theorem step_intact {a : Action} (h : Intact s) (hok : Undying s a)
    (hstep : step cfg s a = some s') : Intact s' := by
  cases a with
  | log t total =>
    obtain ⟨-, pc, -, rfl⟩ := log_inv hstep
    exact h.of_same h.live rfl fun _ => rfl
  | wake t =>
    obtain ⟨-, rfl⟩ := wake_inv hstep
    exact h.of_same h.live rfl fun _ => rfl
  | thread t =>
    have hm : ThreadMove cfg t s s' := threadStep_move hstep
    have ha : Action.thread t ≠ .drain := nofun
    exact h.of_same (thread_alive hm h.live) hm.frame.1 fun hs => scanning_registry ha hs hstep
  | drain => exact drain_intact h (drainStep_move hstep)
  | exit | guard => exact hok.elim

/-- A registered ring leaves the registry by its retirement. -/
theorem keeps_registered (h : Intact s) {a : Action} (hstep : step cfg s a = some s') {r : Nat}
    (hr : r ∈ s.registry) : r ∈ s'.registry ∨ (a = .drain ∧ ∃ i k,
      s.drain.pc = .retire i r k .locked ∧ (s.rings r).serial = k) := by
  by_cases ha : a = .drain
  · subst ha
    have hm : DrainMove cfg s s' := drainStep_move hstep
    cases hm with
    | @syncNext phase half hpc hsub =>
      cases phase with
      | retain todo kept =>
        refine Or.inl ?_
        have hall := h.retain _ _ _ hpc
        have hnil : todo = [] := by
          cases todo with
          | nil => rfl
          | cons r₀ rest => cases hsub
        rw [hnil, List.append_nil] at hall
        change r ∈ kept
        rwa [hall]
      | reconcile i =>
        simp only [syncNext]
        split <;> exact Or.inl hr
      | scanRegistry | scanLocal | addNew => exact Or.inl hr
    | syncLive =>
      unfold syncDecide
      repeat' split
      all_goals exact Or.inl hr
    | syncDead hpc => exact absurd hpc (h.half _)
    | @retired i r₀ k hpc hl hk hreg =>
      by_cases hr₀ : r = r₀
      · exact Or.inr ⟨rfl, i, k, hr₀ ▸ hpc, hr₀ ▸ hk⟩
      · exact Or.inl (List.mem_filter.mpr ⟨hr, by simpa using hr₀⟩)
    | _ => exact Or.inl hr
  · rcases other_registry ha hstep with heq | ⟨t, r₀, -, -, -, -, heq⟩
    · exact Or.inl (heq ▸ hr)
    · exact Or.inl (heq ▸ List.mem_append_left _ hr)

/-- What the drain is about to return it has retired. -/
theorem Intact.returning (h : Intact s) {ctx : PassCtx} {r : Nat}
    (hpc : s.drain.pc = .markRecycled ctx r ∨ s.drain.pc = .recycle ctx r) :
    r ∈ Sys.due s.drain := by
  unfold Sys.due
  rcases hpc with hpc | hpc
  · obtain ⟨i, k, rfl⟩ := h.polls (.markRecycled · r) hpc rfl
    rw [hpc]
    exact List.mem_singleton_self r
  · obtain ⟨i, k, rfl⟩ := h.polls (.recycle · r) hpc rfl
    rw [hpc]
    exact List.mem_singleton_self r

/-- What the drain still has to push is one ring it retired. -/
theorem Intact.due (h : Intact s) {r : Nat} (hr : r ∈ Sys.due s.drain) :
    ∃ i k, s.drain.pc = .markRecycled (.poll i k) r ∨ s.drain.pc = .recycle (.poll i k) r := by
  have hfin := h.finalize
  have hfinal := h.final
  unfold Sys.due at hr
  cases hpc : s.drain.pc with
  | sync | finalNext =>
    rw [hpc, hfin] at hr
    cases hr
  | mark ctx r' | pass ctx r' p | clear ctx r' =>
    rw [hpc] at hr hfinal
    cases ctx with
    | final => cases hfinal
    | poll i k => cases hr
  | markRecycled ctx r' =>
    rw [hpc] at hr hfinal
    cases ctx with
    | final => cases hfinal
    | poll i k => exact ⟨i, k, Or.inl (by rw [List.mem_singleton.mp hr])⟩
  | recycle ctx r' =>
    rw [hpc] at hr hfinal
    cases ctx with
    | final => cases hfinal
    | poll i k => exact ⟨i, k, Or.inr (by rw [List.mem_singleton.mp hr])⟩
  | _ =>
    rw [hpc] at hr
    cases hr

/-- The drain takes a ring in hand by retiring it. -/
theorem due_step (h' : Intact s') (hm : DrainMove cfg s s') {r : Nat}
    (hr : r ∈ Sys.due s'.drain) :
    (r ∈ Sys.due s.drain ∧ ∀ ctx, s.drain.pc ≠ .recycle ctx r) ∨
      ∃ i k, s.drain.pc = .retire i r k .locked ∧ (s.rings r).serial = k ∧ r ∈ s.registry := by
  obtain ⟨i, k, hpc'⟩ := h'.due hr
  have hscan : syncing s'.drain.pc = true → False := by
    intro hs
    rcases hpc' with hpc' | hpc'
    all_goals
      rw [hpc'] at hs
      cases hs
  cases hm with
  | @retired i' r₀ k' hpc hl hk hreg =>
    refine Or.inr ⟨i', k', ?_⟩
    have hr₀ : r₀ = r := by
      dsimp only at hpc'
      split at hpc'
      · rcases hpc' with hpc' | hpc'
        · cases hpc'
          rfl
        · cases hpc'
      · rcases hpc' with hpc' | hpc' <;> cases hpc'
    exact ⟨hr₀ ▸ hpc, hr₀ ▸ hk, hr₀ ▸ hreg⟩
  | @markRecycled ctx r₀ hpc hrec hnew =>
    refine Or.inl ⟨?_, by rw [hpc]; nofun⟩
    rcases hpc' with hpc' | hpc'
    · cases hpc'
    · cases hpc'
      unfold Sys.due
      rw [hpc]
      exact List.mem_singleton_self r
  | syncNext hpc hsub => exact (hscan (syncNext_syncing _)).elim
  | syncLive hpc hsub hl => exact (hscan (syncDecide_syncing hpc)).elim
  | syncDead hpc hsub => exact (hscan (syncDecide_syncing hpc)).elim
  | enter hpc hsh hnext =>
    rcases hnext with rfl | ⟨-, rfl⟩
    all_goals rcases hpc' with hpc' | hpc' <;> cases hpc'
  | pollDone hpc he hnext =>
    rcases hnext with ⟨-, rfl⟩ | ⟨-, rfl⟩
    all_goals rcases hpc' with hpc' | hpc' <;> cases hpc'
  | @clear ctx r₀ hpc =>
    cases ctx with
    | final =>
      simp only [drainTo_drain, afterPass] at hpc'
      split at hpc'
      all_goals rcases hpc' with hpc' | hpc' <;> cases hpc'
    | poll i' k' => rcases hpc' with hpc' | hpc' <;> cases hpc'
  | @notRecycled ctx r₀ hpc hno =>
    cases ctx with
    | final => rcases hpc' with hpc' | hpc' <;> cases hpc'
    | poll i' k' => rcases hpc' with hpc' | hpc' <;> cases hpc'
  | @recycle ctx r₀ hpc =>
    cases ctx with
    | final => rcases hpc' with hpc' | hpc' <;> cases hpc'
    | poll i' k' => rcases hpc' with hpc' | hpc' <;> cases hpc'
  | _ => rcases hpc' with hpc' | hpc' <;> cases hpc'

end Sys

end Ticklog
