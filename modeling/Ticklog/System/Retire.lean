import Mathlib.Data.List.Infix
import Ticklog.System.Delivery

/-!
# What `maybe_retire` knows (`src/drain.rs`)

While `poll_once` works on entry `i` the local list does not change, so the position of
the drain names that entry (`EntryInv`). Along the tests of `maybe_retire` the drain
collects facts that later steps of other agents cannot undo: a handed-off ring is never
written again, so its head is final, and once `tail` is seen to equal it everything in
the ring is delivered (`RetireInv`).
-/

namespace Ticklog

open Lib

namespace Sys

variable {cfg : Config} {s s' : Sys}

/-- The local entry a position of `poll_once` works on. -/
def workingOn (pc : LoopPc) : Option (Nat × Nat × Nat) :=
  match pc with
  | .reserved i r k => some (i, r, k)
  | .mark (.poll i k) r => some (i, r, k)
  | .pass (.poll i k) r _ => some (i, r, k)
  | .clear (.poll i k) r => some (i, r, k)
  | .retire i r k _ => some (i, r, k)
  | _ => none

/-- The entry worked on is the entry in the list. -/
def EntryInv (s : Sys) : Prop :=
  ∀ i r k, workingOn s.drain.pc = some (i, r, k) → s.drain.rings[i]? = some (r, k)

theorem init_entry : EntryInv (Sys.init cfg) := nofun

/-- The same entry is worked on after the step, or none. -/
theorem EntryInv.keep (h : EntryInv s) (hrings : s'.drain.rings = s.drain.rings)
    (hpc : ∀ i r k, workingOn s'.drain.pc = some (i, r, k) →
      workingOn s.drain.pc = some (i, r, k)) : EntryInv s' := by
  intro i r k hw
  rw [hrings]
  exact h i r k (hpc i r k hw)

theorem EntryInv.none (hpc : workingOn s'.drain.pc = Option.none) : EntryInv s' := by
  intro i r k hw
  rw [hpc] at hw
  cases hw

theorem workingOn_syncing {pc : LoopPc} (h : syncing pc = true) : workingOn pc = none := by
  cases pc <;> first | rfl | cases h

theorem drain_entry (h : EntryInv s) (hm : DrainMove cfg s s') : EntryInv s' := by
  cases hm with
  | entry hpc he hk =>
    intro i r k hw
    cases hw
    exact he
  | unreserved hpc hr => exact h.keep rfl (by rw [hpc]; exact fun _ _ _ hw => hw)
  | @mark ctx r hpc =>
    refine h.keep rfl ?_
    rw [hpc]
    cases ctx <;> exact fun _ _ _ hw => hw
  | @passDone ctx r hpc =>
    refine h.keep rfl ?_
    rw [hpc]
    cases ctx <;> exact fun _ _ _ hw => hw
  | @pass ctx r p p' ring' x hpc hp hstep =>
    refine h.keep rfl ?_
    rw [hpc]
    cases ctx <;> exact fun _ _ _ hw => hw
  | @clear ctx r hpc =>
    refine h.keep rfl ?_
    rw [hpc]
    cases ctx with
    | final =>
      dsimp only [drainTo_drain, afterPass]
      cases cfg.segmented <;> exact fun _ _ _ hw => nomatch hw
    | poll i k => exact fun _ _ _ hw => hw
  | handedOff hpc hh => exact h.keep rfl (by rw [hpc]; exact fun _ _ _ hw => hw)
  | notReserved hpc hh => exact h.keep rfl (by rw [hpc]; exact fun _ _ _ hw => hw)
  | sameSerial hpc hh => exact h.keep rfl (by rw [hpc]; exact fun _ _ _ hw => hw)
  | loadHead hpc => exact h.keep rfl (by rw [hpc]; exact fun _ _ _ hw => hw)
  | drained hpc => exact h.keep rfl (by rw [hpc]; exact fun _ _ _ hw => hw)
  | syncNext hpc hsub => exact .none (workingOn_syncing (syncNext_syncing _))
  | syncLive hpc hsub hl => exact .none (workingOn_syncing (syncDecide_syncing hpc))
  | syncDead hpc hsub => exact .none (workingOn_syncing (syncDecide_syncing hpc))
  | enter hpc hsh hnext =>
    refine .none ?_
    rcases hnext with rfl | ⟨-, rfl⟩ <;> rfl
  | pollDone hpc he hnext =>
    refine .none ?_
    rcases hnext with ⟨-, rfl⟩ | ⟨-, rfl⟩ <;> rfl
  | retired hpc hl hk hr =>
    refine .none ?_
    simp only
    cases cfg.segmented <;> rfl
  | @notRecycled ctx r hpc hr =>
    refine .none ?_
    cases ctx <;> rfl
  | @recycle ctx r hpc =>
    refine .none ?_
    cases ctx <;> rfl
  | leave | lock | syncHalf | finalRing | finalDone | stale | skip | keepEntry | markRecycled
  | takeLines | deliver | delivered | lastPoll | worked | idleDirty | idleClean | lastFlush
  | flush | again => exact .none rfl

theorem step_entry {a : Action} (h : EntryInv s) (hstep : step cfg s a = some s') :
    EntryInv s' := by
  by_cases ha : a = .drain
  · subst ha
    exact drain_entry h (drainStep_move hstep)
  · obtain ⟨hd, -⟩ := step_drain_frame ha hstep
    intro i r k hw
    rw [hd] at hw ⊢
    exact h i r k hw

/-! ## The tests of `maybe_retire` -/

/-- Everything published in a ring is delivered, and its producer has left it. -/
structure Retired (s : Sys) (r : Nat) : Prop where
  handedOff : (s.rings r).handedOff = true
  drained : done s r = (s.rings r).head

/-- What the tests passed so far tell about the ring. -/
def RetireInv (s : Sys) : Prop :=
  match s.drain.pc with
  | .retire _ _ _ .handedOff => True
  | .retire _ r _ (.tail head) => (s.rings r).handedOff = true ∧ head = (s.rings r).head
  | .retire _ r _ .locked => Retired s r
  | .retire _ r _ _ => (s.rings r).handedOff = true
  | _ => True

/-- A position outside `maybe_retire` knows nothing. -/
theorem RetireInv.of_pc (h : ∀ i r k test, s.drain.pc ≠ .retire i r k test) : RetireInv s := by
  unfold RetireInv
  split
  next => trivial
  next hpc => exact absurd hpc (h _ _ _ _)
  next hpc => exact absurd hpc (h _ _ _ _)
  next hpc => exact absurd hpc (h _ _ _ _)
  next => trivial

theorem drain_retire (hdel : DeliveryInv s) (h : RetireInv s) (hm : DrainMove cfg s s') :
    RetireInv s' := by
  have hscan : ∀ {s₁ : Sys}, syncing s₁.drain.pc = true → RetireInv s₁ := by
    intro s₁ hs
    refine .of_pc fun i r k test hpc => ?_
    rw [hpc] at hs
    cases hs
  unfold RetireInv at h
  cases hm with
  | handedOff hpc hh => exact hh
  | notReserved hpc hh =>
    simp only [hpc] at h
    exact h
  | sameSerial hpc hh =>
    simp only [hpc] at h
    exact h
  | loadHead hpc =>
    simp only [hpc] at h
    exact ⟨h, rfl⟩
  | @drained i r k hpc =>
    simp only [hpc] at h
    -- nobody is inside `drain_ring_inner`, so `tail` counts the delivered records
    have hread := (hdel r).reader
    rw [hpc] at hread
    exact ⟨h.1, hread.1.symm.trans h.2⟩
  | syncNext hpc hsub => exact hscan (syncNext_syncing _)
  | syncLive hpc hsub hl => exact hscan (syncDecide_syncing hpc)
  | syncDead hpc hsub => exact hscan (syncDecide_syncing hpc)
  | enter hpc hsh hnext => rcases hnext with rfl | ⟨-, rfl⟩ <;> trivial
  | pollDone hpc he hnext => rcases hnext with ⟨-, rfl⟩ | ⟨-, rfl⟩ <;> trivial
  | @clear ctx r hpc =>
    cases ctx with
    | final =>
      refine .of_pc fun i r k test hpc' => ?_
      simp only [drainTo_drain, afterPass] at hpc'
      cases hseg : cfg.segmented <;> simp [hseg] at hpc'
    | poll i k => trivial
  | retired hpc hl hk hr =>
    refine .of_pc fun i r k test hpc' => ?_
    simp only at hpc'
    cases hseg : cfg.segmented <;> simp [hseg] at hpc'
  | @notRecycled ctx r hpc hr => cases ctx <;> trivial
  | @recycle ctx r hpc => cases ctx <;> trivial
  | leave | lock | syncHalf | finalRing | finalDone | entry | stale | skip | unreserved | mark
  | passDone | pass | keepEntry | markRecycled | takeLines | deliver | delivered | lastPoll
  | worked | idleDirty | idleClean | lastFlush | flush | again => trivial

/-- What other agents do to the rings in a plain run: registered rings keep serial, owner and
a set `handedOff`, and gain records only while they are not handed off. -/
structure RingGrows (a b : Ring) : Prop where
  threadId : b.threadId = a.threadId
  serial : b.serial = a.serial
  handedOff : a.handedOff = true → b.handedOff = true
  live : b.live = true → a.live = true
  cells : a.cells <+: b.cells
  final : a.handedOff = true → b.cells = a.cells

theorem RingGrows.rfl' {a : Ring} : RingGrows a a :=
  ⟨rfl, rfl, id, id, List.prefix_rfl, fun _ => rfl⟩

theorem RingGrows.of_drain {a b : Ring} (h : DrainFrame a b) : RingGrows a b :=
  ⟨h.threadId, h.serial, fun ha => h.handedOff.trans ha, fun hb => h.live ▸ hb,
    h.cells ▸ List.prefix_rfl, fun _ => h.cells⟩

/-- One ring replaced. -/
theorem RingGrows.update {r₀ : Nat} {v : Ring} (h : RingGrows (s.rings r₀) v) (r : Nat) :
    RingGrows (s.rings r) (Function.update s.rings r₀ v r) := by
  by_cases hr : r = r₀
  · rw [hr, Function.update_self]
    exact h
  · rw [Function.update_of_ne hr]
    exact .rfl'

/-- In a plain run a thread's access lets every registered ring only grow. -/
theorem thread_grows (hp : PlainInv s) {t : Nat} (hm : ThreadMove cfg t s s') {r : Nat}
    (hr : r ∈ s.registered) : RingGrows (s.rings r) (s'.rings r) := by
  have ht := hp.threads t
  unfold ThreadOk at ht
  have hfresh : ∀ {r₀ : Nat} {v : Ring}, r₀ ∉ s.registered →
      RingGrows (s.rings r) (Function.update s.rings r₀ v r) := by
    intro r₀ v hr₀
    have hne : r ≠ r₀ := by
      rintro rfl
      exact hr₀ hr
    rw [Function.update_of_ne hne]
    exact .rfl'
  have hnew : s.nextRing ∉ s.registered := fun h => absurd (hp.born _ h) (Nat.lt_irrefl _)
  cases hm with
  | allocFirst hpc hsp => exact hfresh hnew
  | allocFresh hpc hr => exact hfresh hnew
  | setInfo hpc =>
    simp only [hpc] at ht
    exact hfresh ht.2.1
  | register hpc hl =>
    simp only [hpc] at ht
    exact hfresh ht.2.1
  | @publish r₀ hpc hr₀ =>
    simp only [hpc] at ht
    have hw := ht r₀ hr₀
    refine @RingGrows.update s r₀ _ ?_ r
    refine ⟨rfl, rfl, id, id, List.prefix_append _ _, fun hh => ?_⟩
    rw [hw.2] at hh
    cases hh
  | @markHandedOff r₀ hpc hr₀ =>
    show RingGrows (s.rings r) (Function.update s.rings r₀ _ r)
    refine RingGrows.update ?_ r
    exact ⟨rfl, rfl, fun _ => rfl, id, List.prefix_rfl, fun _ => rfl⟩
  | takeFirst hpc hseg hsp =>
    rw [hp.spares] at hsp
    cases hsp
  | takeSpare hpc hr hsp =>
    rw [hp.spares] at hsp
    cases hsp
  | switch | granted | full | spin | noSpare | formatSpin => exact .rfl'
  | reset hpc | resetLast hpc | reserveHelper hpc | formatEnter hpc | formatDone hpc | format hpc
  | pushLines hpc | recycle hpc | poolLive hpc | poolWait hpc => simp only [hpc] at ht

/-- In a plain run registered rings only grow, whoever moves. -/
theorem step_grows (hp : PlainInv s) {a : Action} (hstep : step cfg s a = some s') {r : Nat}
    (hr : r ∈ s.registered) : RingGrows (s.rings r) (s'.rings r) := by
  have hdead : ∀ r₀, RingGrows (s.rings r)
      (Function.update s.rings r₀ { s.rings r₀ with live := false } r) := by
    intro r₀
    refine RingGrows.update ?_ r
    exact ⟨rfl, rfl, id, nofun, List.prefix_rfl, fun _ => rfl⟩
  cases a with
  | log t total =>
    obtain ⟨-, pc, -, rfl⟩ := log_inv hstep
    exact .rfl'
  | exit t =>
    obtain ⟨-, ⟨r₀, -, rfl⟩ | ⟨-, rfl⟩⟩ := exit_inv hstep
    · exact hdead _
    · exact .rfl'
  | thread t => exact thread_grows hp (threadStep_move hstep) hr
  | wake t =>
    exact absurd (wake_inv hstep).1 (hp.not_asleep t)
  | drain => exact .of_drain (drain_ring_frame (drainStep_move hstep) r)
  | guard =>
    have hm : GuardMove s s' := guardStep_move hstep
    cases hm with
    | mark hg => exact hdead _
    | _ => exact .rfl'

/-- The sink only receives. -/
theorem step_sink {a : Action} (hstep : step cfg s a = some s') : s.sink <+: s'.sink := by
  by_cases ha : a = .drain
  · subst ha
    have hm : DrainMove cfg s s' := drainStep_move hstep
    cases hm with
    | syncNext hpc hsub =>
      rw [(syncNext_frame _).sink]
    | syncLive hpc hsub hl =>
      rw [(syncDecide_frame _ _).sink]
    | syncDead hpc hsub =>
      rw [(syncDecide_frame _ _).sink]
    | pass | deliver | lastFlush | flush => exact List.prefix_append _ _
    | _ => exact List.prefix_rfl
  · rw [(step_drain_frame ha hstep).2]

/-- Deliveries are never taken back. -/
theorem delivered_mono {a : Action} (hstep : step cfg s a = some s') :
    s.delivered <+: s'.delivered := by
  obtain ⟨es, hes⟩ := step_sink hstep
  unfold delivered
  rw [← hes, List.filterMap_append]
  exact List.prefix_append _ _

theorem done_mono {a : Action} (hstep : step cfg s a = some s') (r : Nat) :
    done s r ≤ done s' r :=
  ((delivered_mono hstep).filter _).length_le

/-- A retired ring stays so. -/
theorem Retired.step {a : Action} {r : Nat} (h : Retired s r) (hp : PlainInv s)
    (hdel : DeliveryInv s') (hstep : step cfg s a = some s') (hr : r ∈ s.registered) :
    Retired s' r := by
  have hg := step_grows hp hstep hr
  have hhead : (s'.rings r).head = (s.rings r).head := congrArg List.length (hg.final h.handedOff)
  refine ⟨hg.handedOff h.handedOff, Nat.le_antisymm (hdel r).done_le ?_⟩
  rw [hhead, ← h.drained]
  exact done_mono hstep r

theorem step_retire {a : Action} (h : RetireInv s) (hp : PlainInv s) (hdel : DeliveryInv s)
    (hdel' : DeliveryInv s') (hstep : step cfg s a = some s') : RetireInv s' := by
  by_cases ha : a = .drain
  · subst ha
    exact drain_retire hdel h (drainStep_move hstep)
  · obtain ⟨hd, -⟩ := step_drain_frame ha hstep
    have hknown : ∀ {i r k : Nat} {test : Retire}, s.drain.pc = .retire i r k test →
        r ∈ s.registered := by
      intro i r k test hpc
      refine hp.known r (Or.inr (Or.inr (Or.inr ?_)))
      rw [hpc]
      exact List.mem_singleton.mpr rfl
    unfold RetireInv at h ⊢
    rw [hd]
    cases hpc : s.drain.pc with
    | retire i r k test =>
      have hg := step_grows hp hstep (hknown hpc)
      simp only [hpc] at h
      cases test with
      | handedOff => trivial
      | reserved => exact hg.handedOff h
      | serial => exact hg.handedOff h
      | head => exact hg.handedOff h
      | tail head =>
        exact ⟨hg.handedOff h.1, h.2.trans (congrArg List.length (hg.final h.1).symm)⟩
      | locked => exact Retired.step h hp hdel' hstep (hknown hpc)
    | _ => trivial

end Sys

end Ticklog
