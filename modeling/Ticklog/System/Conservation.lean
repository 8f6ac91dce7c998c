import Mathlib.Data.List.Perm.Basic
import Ticklog.System.Flush
import Ticklog.System.Numbering
import Ticklog.System.Retire

/-!
# Retirement loses nothing (`Backpressure::Quill`)

While no thread exits and the guard is alive, every ring is live, the scans of
`sync_rings` keep all of them, and the only way out of the registry is `maybe_retire`.
So every registered ring is still in the registry or `Retired`: left by its producer
and fully delivered. With the accounting of each ring this is a conservation law for
the whole logger: the published records are the delivered ones and those still pending
in registered rings.
-/

namespace Ticklog

open Lib

namespace Sys

variable {cfg : Config} {s s' : Sys}

/-- Nobody exits and the guard stays alive. -/
def Steady (_ : Sys) (a : Action) : Prop :=
  match a with
  | .exit _ | .guard => False
  | _ => True

instance (s : Sys) (a : Action) : Decidable (Steady s a) := by
  cases a <;> unfold Steady <;> infer_instance

/-- The drain's running tail on ring `r`: its private one inside a pass. -/
def runningTail (s : Sys) (r : Nat) : Nat :=
  match reading s.drain.pc r with
  | some (.loadCache t) | some (.loadHead t) | some (.scan t _) | some (.storeTail t _) => t
  | _ => (s.rings r).tail

/-- The records in `[tail, head)` of ring `r`. -/
def pending (s : Sys) (r : Nat) : List Rec := (s.rings r).cells.drop (runningTail s r)

theorem runningTail_eq {r : Nat} (h : RingDelivery s r) : runningTail s r = done s r := by
  have hread := h.reader
  unfold runningTail
  cases hp : reading s.drain.pc r with
  | none =>
    rw [hp] at hread
    exact hread.1
  | some p =>
    rw [hp] at hread
    cases p with
    | loadTail => exact hread.1
    | loadCache t => exact hread.1
    | loadHead t => exact hread.1
    | scan t hc => exact hread.1
    | storeTail t hc => exact hread.1
    | storeCache hc => exact hread.1
    | finished => exact hread.1

/-- A ring the drain leaves behind has nothing pending. -/
theorem Retired.pending_eq {r : Nat} (h : Retired s r) (hd : RingDelivery s r) :
    pending s r = [] := by
  unfold pending
  rw [runningTail_eq hd, h.drained]
  exact List.drop_length

/-! ## The steady invariant -/

/-- A position of the drain that stands on a dead ring. -/
def onFinal (pc : LoopPc) : Bool :=
  match pc with
  | .mark .final _ | .pass .final _ _ | .clear .final _ => true
  | .markRecycled .final _ | .recycle .final _ => true
  | .sync _ half => half
  | _ => false

/-- All rings live: the scans keep every ring, and registered rings are in the registry
until they are retired. -/
structure SteadyInv (s : Sys) : Prop where
  alive : s.guard = .alive
  live : ∀ r, (s.rings r).live = true
  finalize : s.drain.finalize = []
  noFinal : onFinal s.drain.pc = false
  kept : ∀ todo kept half, s.drain.pc = .sync (.retain todo kept) half → kept ++ todo = s.registry
  nodup : s.registry.Nodup
  tracked : ∀ r, r ∈ s.registered → r ∈ s.registry ∨ Retired s r

theorem init_steady : SteadyInv (Sys.init cfg) where
  alive := rfl
  live := fun _ => rfl
  finalize := rfl
  noFinal := rfl
  kept := nofun
  nodup := List.nodup_nil
  tracked := nofun

/-- What the scans do while every ring is live: only the local list and the position
change, and the registry is rebuilt as it was. -/
structure SteadyScan (s s' : Sys) : Prop where
  finalize : s'.drain.finalize = []
  noFinal : onFinal s'.drain.pc = false
  kept : ∀ todo kept half, s'.drain.pc = .sync (.retain todo kept) half →
    kept ++ todo = s'.registry
  registry : s'.registry = s.registry

theorem syncNext_steady (h : SteadyInv s) {phase : SyncPhase} {half : Bool}
    (hpc : s.drain.pc = .sync phase half) (hsub : s.syncSubject phase = none) :
    SteadyScan s (syncNext s phase) := by
  cases phase with
  | scanRegistry todo => exact ⟨h.finalize, rfl, nofun, rfl⟩
  | scanLocal todo => exact ⟨h.finalize, rfl, nofun, rfl⟩
  | reconcile i =>
    dsimp only [syncNext]
    split
    · exact ⟨h.finalize, rfl, nofun, rfl⟩
    · exact ⟨h.finalize, rfl, nofun, rfl⟩
  | addNew todo =>
    refine ⟨h.finalize, rfl, fun todo' kept half' hpc' => ?_, rfl⟩
    cases hpc'
    rfl
  | retain todo kept =>
    have htodo : todo = [] := List.head?_eq_none_iff.mp hsub
    have hkept := h.kept _ _ _ hpc
    rw [htodo, List.append_nil] at hkept
    exact ⟨h.finalize, rfl, nofun, hkept⟩

theorem syncDecide_steady (h : SteadyInv s) {phase : SyncPhase} {half : Bool}
    (hpc : s.drain.pc = .sync phase half) : SteadyScan s (syncDecide true s phase) := by
  have hnone : SteadyScan s s := ⟨h.finalize, h.noFinal, h.kept, rfl⟩
  unfold syncDecide
  split
  next => exact ⟨h.finalize, rfl, nofun, rfl⟩
  next r k rest =>
    refine ⟨?_, rfl, nofun, rfl⟩
    simp [h.finalize]
  next i =>
    split
    next => exact ⟨h.finalize, rfl, nofun, rfl⟩
    next => exact hnone
  next => exact ⟨h.finalize, rfl, nofun, rfl⟩
  next r rest kept =>
    refine ⟨h.finalize, rfl, fun todo' kept' half' hpc' => ?_, rfl⟩
    have hkept := h.kept _ _ _ hpc
    cases hpc'
    simpa using hkept
  next => exact hnone

/-- A scan keeps the invariant. -/
theorem SteadyInv.scan (h : SteadyInv s) (hf : ScanFrame s s') (hs : SteadyScan s s')
    (htracked : ∀ r, r ∈ s'.registered → r ∈ s'.registry ∨ Retired s' r) : SteadyInv s' where
  alive := hf.guard.trans h.alive
  live := by
    rw [hf.rings]
    exact h.live
  finalize := hs.finalize
  noFinal := hs.noFinal
  kept := hs.kept
  nodup := by
    rw [hs.registry]
    exact h.nodup
  tracked := htracked

theorem drain_steady (h : SteadyInv s) (hret : RetireInv s) (hp : PlainInv s)
    (hdel' : DeliveryInv s') (hstep : step cfg s .drain = some s') : SteadyInv s' := by
  have hm : DrainMove cfg s s' := drainStep_move hstep
  have hreg := (drain_keeps hm).registered
  have hno := h.noFinal
  have hretired : ∀ {r : Nat}, r ∈ s.registered → Retired s r → Retired s' r := fun hr hR =>
    hR.step hp hdel' hstep hr
  -- registered rings stay tracked wherever the registry is the same
  have htracked : s'.registry = s.registry →
      ∀ r, r ∈ s'.registered → r ∈ s'.registry ∨ Retired s' r := by
    intro heq r hr
    rw [hreg] at hr
    rw [heq]
    exact (h.tracked r hr).imp id (hretired hr)
  have hlive : ∀ r, (s'.rings r).live = true := fun r =>
    (drain_ring_frame hm r).live.trans (h.live r)
  have halive : s'.guard = .alive := (drain_keeps hm).guard.trans h.alive
  cases hm with
  | syncNext hpc hsub =>
    have hs := syncNext_steady h hpc hsub
    exact h.scan (syncNext_frame _) hs (htracked hs.registry)
  | syncLive hpc hsub hl =>
    have hs := syncDecide_steady h hpc
    exact h.scan (syncDecide_frame _ _) hs (htracked hs.registry)
  | syncDead hpc hsub =>
    rw [hpc] at hno
    cases hno
  | syncHalf hpc hsub hl =>
    rw [h.live] at hl
    cases hl
  | finalRing hpc hf =>
    rw [h.finalize] at hf
    cases hf
  | enter hpc hsh hnext =>
    rcases hnext with rfl | ⟨-, rfl⟩
    all_goals exact ⟨halive, hlive, h.finalize, rfl, nofun, h.nodup, htracked rfl⟩
  | pollDone hpc he hnext =>
    rcases hnext with ⟨-, rfl⟩ | ⟨-, rfl⟩
    all_goals exact ⟨halive, hlive, h.finalize, rfl, nofun, h.nodup, htracked rfl⟩
  | lock hpc hl => exact ⟨halive, hlive, rfl, rfl, nofun, h.nodup, htracked rfl⟩
  | @mark ctx r hpc =>
    refine ⟨halive, hlive, h.finalize, ?_, nofun, h.nodup, htracked rfl⟩
    rw [hpc] at hno
    cases ctx <;> first | rfl | cases hno
  | @pass ctx r p p' ring' x hpc hp' hps =>
    refine ⟨halive, hlive, h.finalize, ?_, nofun, h.nodup, htracked rfl⟩
    rw [hpc] at hno
    cases ctx <;> first | rfl | cases hno
  | @passDone ctx r hpc =>
    refine ⟨halive, hlive, h.finalize, ?_, nofun, h.nodup, htracked rfl⟩
    rw [hpc] at hno
    cases ctx <;> first | rfl | cases hno
  | @clear ctx r hpc =>
    rw [hpc] at hno
    cases ctx with
    | final => cases hno
    | poll i k => exact ⟨halive, hlive, h.finalize, rfl, nofun, h.nodup, htracked rfl⟩
  | @retired i r k hpc hl hk hr =>
    have hR : Retired s r := by
      unfold RetireInv at hret
      simp only [hpc] at hret
      exact hret
    refine ⟨halive, hlive, h.finalize, ?_, ?_, h.nodup.filter _, fun r' hr' => ?_⟩
    · simp only
      cases cfg.segmented <;> rfl
    · intro todo kept half hpc'
      simp only at hpc'
      cases hseg : cfg.segmented <;> simp [hseg] at hpc'
    · by_cases hne : r' = r
      · exact Or.inr (hne ▸ hretired (hreg ▸ hne ▸ hr') hR)
      · rcases h.tracked r' hr' with hmem | hR'
        · exact Or.inl (List.mem_filter.mpr ⟨hmem, by simpa using hne⟩)
        · exact Or.inr (hretired hr' hR')
  | @markRecycled ctx r hpc h1 h2 =>
    rw [hp.notPooled r] at h1
    cases h1
  | @notRecycled ctx r hpc h1 =>
    refine ⟨halive, hlive, h.finalize, ?_, ?_, h.nodup, htracked rfl⟩
    · cases ctx <;> rfl
    · cases ctx <;> nofun
  | @recycle ctx r hpc => exact absurd hpc (hp.noRecycle _ _)
  | leave | finalDone | entry | stale | skip | unreserved | keepEntry | handedOff
  | notReserved | sameSerial | loadHead | drained | takeLines | deliver | delivered | lastPoll
  | worked | idleDirty | idleClean | lastFlush | flush | again =>
    exact ⟨halive, hlive, h.finalize, rfl, nofun, h.nodup, htracked rfl⟩

/-- A ring is replaced by one that is live too. -/
theorem live_update (h : SteadyInv s) {r₀ : Nat} {v : Ring} (hv : v.live = true) (r : Nat) :
    (Function.update s.rings r₀ v r).live = true := by
  by_cases hr : r = r₀
  · rw [hr, Function.update_self]
    exact hv
  · rw [Function.update_of_ne hr]
    exact h.live r

theorem thread_steady (h : SteadyInv s) (hp : PlainInv s) (hdel' : DeliveryInv s') {t : Nat}
    (hstep : step cfg s (.thread t) = some s') : SteadyInv s' := by
  have hm : ThreadMove cfg t s s' := threadStep_move hstep
  have hframe := hm.frame
  have ht := hp.threads t
  unfold ThreadOk at ht
  -- everything but the registry and the `live` flags is the drain's
  have hkeep : (∀ r, (s'.rings r).live = true) → s'.registry = s.registry →
      s'.registered = s.registered → SteadyInv s' := by
    intro hlive hreg hregd
    refine ⟨hframe.2.1.trans h.alive, hlive, ?_, ?_, ?_, ?_, ?_⟩
    · rw [hframe.1]
      exact h.finalize
    · rw [hframe.1]
      exact h.noFinal
    · rw [hframe.1, hreg]
      exact h.kept
    · rw [hreg]
      exact h.nodup
    · intro r hr
      rw [hregd] at hr
      rw [hreg]
      exact (h.tracked r hr).imp id fun hR => hR.step hp hdel' hstep hr
  cases hm with
  | @register r hpc hl =>
    simp only [hpc] at ht
    have hnr : r ∉ s.registry := fun hr => ht.2.1 (hp.known r (Or.inl hr))
    have hreg : ((s.registerRing r).goto t (.switch r)).registry = s.registry ++ [r] := if_neg hnr
    refine ⟨h.alive, live_update h (h.live r), h.finalize, h.noFinal, ?_, ?_, ?_⟩
    · intro todo kept half hpc'
      -- the drain is not scanning: the lock is free
      have hlocked : s.registryLocked = true := by
        unfold registryLocked
        rw [show s.drain.pc = _ from hpc']
        rfl
      rw [hl] at hlocked
      cases hlocked
    · rw [hreg]
      refine List.nodup_append.mpr ⟨h.nodup, List.nodup_singleton r, ?_⟩
      intro a ha b hb
      rw [List.mem_singleton.mp hb]
      rintro rfl
      exact hnr ha
    · intro r' hr'
      rw [hreg]
      rcases List.mem_append.mp hr' with hr' | hr'
      · rcases h.tracked r' hr' with hmem | hR
        · exact Or.inl (List.mem_append_left _ hmem)
        · exact Or.inr (hR.step hp hdel' hstep hr')
      · exact Or.inl (List.mem_append_right _ hr')
  | allocFirst hpc hsp => exact hkeep (live_update h rfl) rfl rfl
  | allocFresh hpc hr => exact hkeep (live_update h rfl) rfl rfl
  | @setInfo r hpc => exact hkeep (live_update h (h.live r)) rfl rfl
  | @publish r hpc hr => exact hkeep (live_update h (h.live r)) rfl rfl
  | @markHandedOff r hpc hr => exact hkeep (live_update h (h.live r)) rfl rfl
  | switch | granted | full | spin | noSpare | formatSpin => exact hkeep h.live rfl rfl
  | takeFirst hpc hseg hsp =>
    rw [hp.spares] at hsp
    cases hsp
  | takeSpare hpc hr hsp =>
    rw [hp.spares] at hsp
    cases hsp
  | reset hpc | resetLast hpc | reserveHelper hpc | formatEnter hpc | formatDone hpc | format hpc
  | pushLines hpc | recycle hpc | poolLive hpc | poolWait hpc => simp only [hpc] at ht

theorem step_steady {a : Action} (hok : Steady s a) (h : SteadyInv s) (hret : RetireInv s)
    (hp : PlainInv s) (hdel' : DeliveryInv s') (hstep : step cfg s a = some s') :
    SteadyInv s' := by
  cases a with
  | log t total =>
    have hsame : s'.rings = s.rings ∧ s'.registry = s.registry ∧ s'.drain = s.drain ∧
        s'.guard = s.guard ∧ s'.registered = s.registered := by
      obtain ⟨-, pc, -, rfl⟩ := log_inv hstep
      exact ⟨rfl, rfl, rfl, rfl, rfl⟩
    obtain ⟨hr, hg, hd, hgu, hrd⟩ := hsame
    refine ⟨hgu.trans h.alive, hr ▸ h.live, hd ▸ h.finalize, hd ▸ h.noFinal, ?_, hg ▸ h.nodup, ?_⟩
    · rw [hd, hg]
      exact h.kept
    · intro r hmem
      rw [hrd] at hmem
      rw [hg]
      exact (h.tracked r hmem).imp id fun hR => hR.step hp hdel' hstep hmem
  | exit t => exact hok.elim
  | thread t => exact thread_steady h hp hdel' hstep
  | wake t =>
    exact absurd (wake_inv hstep).1 (hp.not_asleep t)
  | drain => exact drain_steady h hret hp hdel' hstep
  | guard => exact hok.elim

/-- Everything a steady run carries. -/
structure SteadyRun (s : Sys) : Prop where
  plain : PlainDelivery s
  retire : RetireInv s
  steady : SteadyInv s
  numbered : Numbered s

theorem init_steadyRun (hpol : cfg.policy ≠ .nanoLog) : SteadyRun (Sys.init cfg) :=
  ⟨init_plainDelivery hpol, trivial, init_steady, init_numbered⟩

theorem step_steadyRun (hpol : cfg.policy ≠ .nanoLog) {a : Action} (h : SteadyRun s)
    (hok : Steady s a) (hstep : step cfg s a = some s') : SteadyRun s' := by
  have hplain := step_delivery hpol h.plain hstep
  exact ⟨hplain, step_retire h.retire h.plain.1.1 h.plain.2 hplain.2 hstep,
    step_steady hok h.steady h.retire h.plain.1.1 hplain.2 hstep, step_numbered h.numbered hstep⟩

theorem runs_steadyRun (hpol : cfg.policy ≠ .nanoLog) (h : (system cfg).Runs Steady s s')
    (hs : SteadyRun s) : SteadyRun s' :=
  Machine.Runs.invariant (I := SteadyRun)
    (fun _ _ _ hi hok (hst : step cfg _ _ = some _) => step_steadyRun hpol hi hok hst) h hs

/-! ## What a registry entry leaves behind -/

/-- A thread that may still write in its current ring: its log calls start and publish
there. -/
def writes (pc : ThreadPc) : Bool :=
  match pc with
  | .idle | .reserve | .spin | .publish => true
  | _ => false

/-- Nobody writes in ring `r` any more. -/
def Abandoned (s : Sys) (r : Nat) : Prop :=
  ∀ t, (s.threads t).ring = some r → writes (s.threads t).pc = false

/-- No thread writes in a handed-off ring. -/
theorem PlainInv.abandoned (h : PlainInv s) {r : Nat} (hh : (s.rings r).handedOff = true) :
    Abandoned s r := by
  intro t hr
  have ht := h.threads t
  unfold ThreadOk at ht
  cases hpc : (s.threads t).pc with
  | idle | reserve | spin | publish =>
    simp only [hpc] at ht
    have hw := (ht r hr).2
    rw [hh] at hw
    cases hw
  | _ => rfl

/-- In a steady run only `maybe_retire` takes a ring from the registry, and only one that
its producer has left and the drain has emptied. -/
theorem registry_drop {a : Action} (hok : Steady s a) (h : SteadyRun s)
    (hstep : step cfg s a = some s') {r : Nat} (hr : r ∈ s.registry) (hr' : r ∉ s'.registry) :
    Retired s r := by
  have hno := h.steady.noFinal
  cases a with
  | log t total =>
    obtain ⟨-, pc, -, rfl⟩ := log_inv hstep
    exact absurd hr hr'
  | exit t => exact hok.elim
  | thread t =>
    have hm : ThreadMove cfg t s s' := threadStep_move hstep
    cases hm with
    | @register r₀ hpc hl =>
      have hsub : s.registry ⊆ (s.registerRing r₀).registry := by
        unfold registerRing
        intro x hx
        show x ∈ (if r₀ ∈ s.registry then s.registry else s.registry ++ [r₀])
        split
        · exact hx
        · exact List.mem_append_left _ hx
      exact absurd (hsub hr) hr'
    | _ => exact absurd hr hr'
  | wake t =>
    obtain ⟨-, rfl⟩ := wake_inv hstep
    exact absurd hr hr'
  | drain =>
    have hm : DrainMove cfg s s' := drainStep_move hstep
    cases hm with
    | @retired i r₀ k hpc hl hk hmem =>
      have hret := h.retire
      unfold RetireInv at hret
      simp only [hpc] at hret
      by_cases hne : r = r₀
      · exact hne ▸ hret
      · exact absurd (List.mem_filter.mpr ⟨hr, by simpa using hne⟩) hr'
    | syncNext hpc hsub =>
      rw [(syncNext_steady h.steady hpc hsub).registry] at hr'
      exact absurd hr hr'
    | syncLive hpc hsub hl =>
      rw [(syncDecide_steady h.steady hpc).registry] at hr'
      exact absurd hr hr'
    | syncDead hpc hsub =>
      rw [hpc] at hno
      cases hno
    | _ => exact absurd hr hr'
  | guard => exact hok.elim

/-- Everything published in a drained ring has been delivered. -/
theorem Retired.delivered {r : Nat} (h : Retired s r) (hd : RingDelivery s r) {x : Rec}
    (hx : x ∈ s.published) (hr : x.ring = r) : x ∈ s.delivered := by
  have hcells : x ∈ (s.rings r).cells := by
    rw [← hd.history]
    exact List.mem_filter.mpr ⟨hx, by simpa using hr⟩
  have hsplit := hd.split
  rw [h.drained] at hsplit
  rw [← hsplit, List.mem_append] at hcells
  rcases hcells with hcells | hcells
  · exact (List.mem_filter.mp hcells).1
  · rw [show (s.rings r).head = (s.rings r).cells.length from rfl, List.drop_length] at hcells
    cases hcells

/-- A handed-off ring is never written again. -/
theorem frozen (hpol : cfg.policy ≠ .nanoLog) {r : Nat} (h : SteadyRun s)
    (hr : r ∈ s.registered) (hh : (s.rings r).handedOff = true)
    (hrun : (system cfg).Runs Steady s s') :
    Abandoned s' r ∧ s'.published.filter (·.ring = r) = s.published.filter (·.ring = r) := by
  have hinv : SteadyRun s' ∧ r ∈ s'.registered ∧ (s'.rings r).handedOff = true ∧
      (s'.rings r).cells = (s.rings r).cells := by
    refine Machine.Runs.invariant (I := fun s₁ => SteadyRun s₁ ∧ r ∈ s₁.registered ∧
      (s₁.rings r).handedOff = true ∧ (s₁.rings r).cells = (s.rings r).cells) ?_ hrun
      ⟨h, hr, hh, rfl⟩
    rintro s₁ a s₂ ⟨hi, hmem, hoff, hcells⟩ hok hst
    have hg := step_grows hi.plain.1.1 hst hmem
    exact ⟨step_steadyRun hpol hi hok hst, step_registered hst hmem, hg.handedOff hoff,
      (hg.final hoff).trans hcells⟩
  obtain ⟨hi, hmem, hoff, hcells⟩ := hinv
  refine ⟨hi.plain.1.1.abandoned hoff, ?_⟩
  rw [(hi.plain.2 r).history, (h.plain.2 r).history, hcells]

/-! ## The balance -/

/-- A record is delivered or pending in its ring, and never both. -/
theorem count_ring {r : Nat} (h : RingDelivery s r) {x : Rec} (hx : x.ring = r) :
    s.published.count x = s.delivered.count x + (pending s r).count x := by
  have hpub : s.published.count x = (s.rings r).cells.count x := by
    rw [← h.history, List.count_filter (by simp [hx])]
  have hdel : (s.deliveredFrom r).count x = s.delivered.count x := by
    unfold deliveredFrom
    rw [List.count_filter (by simp [hx])]
  rw [hpub, ← h.split, List.count_append, hdel]
  unfold pending
  rw [runningTail_eq h]

/-- Only the rings of the registry have anything pending. -/
theorem pending_eq_nil (h : SteadyRun s) {r : Nat} (hr : r ∉ s.registry) : pending s r = [] := by
  by_cases hmem : r ∈ s.registered
  · exact ((h.steady.tracked r hmem).resolve_left hr).pending_eq (h.plain.2 r)
  · unfold pending
    rw [(h.plain.1.1.blank r hmem).cells]
    exact List.drop_nil

theorem balance (h : SteadyRun s) :
    s.published.Perm (s.delivered ++ s.registry.flatMap (pending s)) := by
  rw [List.perm_iff_count]
  intro x
  have honly : ∀ j, j ∈ s.registry → j ≠ x.ring → x ∉ pending s j := by
    intro j _ hj hx
    exact hj ((h.plain.2 j).ring_eq (List.mem_of_mem_drop hx)).symm
  rw [List.count_append, count_flatMap_of_nodup h.steady.nodup honly, count_ring (h.plain.2 _) rfl]
  split
  next => rfl
  next hr => rw [pending_eq_nil h hr]; rfl

/-- **Retirement loses nothing.** Under Quill, while no thread exits and the guard is
alive: a ring leaves the registry only when everything published in it is delivered and
nobody writes in it, then or ever after; the published records are the delivered ones and
those from the drain's tail to the head of registered rings, the rings about to be
registered holding none; and no record is delivered twice. -/
theorem retirement_safe (hpol : cfg.policy = .quill)
    (hrun : (system cfg).Runs Steady (Sys.init cfg) s) :
    (∀ a s' r, Steady s a → step cfg s a = some s' → r ∈ s.registry → r ∉ s'.registry →
      (∀ x, x ∈ s.published → x.ring = r → x ∈ s.delivered) ∧
      ∀ s'', (system cfg).Runs Steady s s'' → Abandoned s'' r ∧
        s''.published.filter (·.ring = r) = s.published.filter (·.ring = r)) ∧
    s.published.Perm (s.delivered ++ s.registry.flatMap (pending s)) ∧
    (∀ t r, heldFresh (s.threads t).pc = some r → pending s r = []) ∧
    s.delivered.Nodup := by
  have hne : cfg.policy ≠ .nanoLog := by simp [hpol]
  have h : SteadyRun s := runs_steadyRun hne hrun (init_steadyRun hne)
  refine ⟨?_, balance h, ?_, ?_⟩
  · intro a s' r hok hstep hr hr'
    have hret := registry_drop hok h hstep hr hr'
    exact ⟨fun x hx hxr => hret.delivered (h.plain.2 r) hx hxr,
      fun s'' hrun' => frozen hne h (h.plain.1.1.known r (Or.inl hr)) hret.handedOff hrun'⟩
  · intro t r hheld
    refine pending_eq_nil h fun hr => ?_
    exact (h.plain.1.1.held hheld).2 (h.plain.1.1.known r (Or.inl hr))
  · exact (List.nodup_append.mp ((balance h).nodup_iff.mp h.numbered.nodup)).1

/-- A thread fills its first segment and moves to a second; the drain delivers the first
and is about to take it from the registry. -/
theorem retirement_safe_twoSegments :
    ∃ s s', (system (smallConfig .quill)).runWhile Steady (Sys.init (smallConfig .quill))
        (firstLog 0 64 ++ .log 0 64 :: List.replicate 7 (.thread 0)
          ++ List.replicate 31 .drain) = some s ∧
      step (smallConfig .quill) s .drain = some s' ∧ 0 ∈ s.registry ∧ 0 ∉ s'.registry ∧
      (∀ x, x ∈ s.published → x.ring = 0 → x ∈ s.delivered) ∧
      s.published.Perm (s.delivered ++ s.registry.flatMap (pending s)) := by
  obtain ⟨s, hs⟩ := Option.isSome_iff_exists.mp
    (show ((system (smallConfig .quill)).runWhile Steady (Sys.init (smallConfig .quill))
      (firstLog 0 64 ++ .log 0 64 :: List.replicate 7 (.thread 0)
        ++ List.replicate 31 .drain)).isSome = true by decide +kernel)
  have hend : ((system (smallConfig .quill)).runWhile Steady (Sys.init (smallConfig .quill))
      (firstLog 0 64 ++ .log 0 64 :: List.replicate 7 (.thread 0)
        ++ List.replicate 31 .drain)).map
      (fun s => (decide (0 ∈ s.registry),
        (step (smallConfig .quill) s .drain).map fun s' => decide (0 ∈ s'.registry)))
      = some (true, some false) := by decide +kernel
  rw [hs, Option.map_some, Option.some.injEq, Prod.mk.injEq] at hend
  obtain ⟨hreg, hnext⟩ := hend
  obtain ⟨s', hstep, hreg'⟩ := Option.map_eq_some_iff.mp hnext
  have hin : 0 ∈ s.registry := of_decide_eq_true hreg
  have hout : 0 ∉ s'.registry := of_decide_eq_false hreg'
  have hsafe := retirement_safe rfl (Machine.runWhile_runs hs)
  exact ⟨s, s', hs, hstep, hin, hout, (hsafe.1 .drain s' 0 trivial hstep hin hout).1, hsafe.2.1⟩

end Sys

end Ticklog
