import Mathlib.Data.List.Nodup
import Ticklog.System.Guard
import Ticklog.System.Numbering

/-!
# Rings that are never reused: `Drop`, `Block` and `Quill`

Without the NanoLog pool a ring object lives once: a thread allocates it, registers it,
publishes in it, and leaves it for good, by switching to a fresh segment or by exiting.
`PlainInv` is that life in one invariant: who holds an unregistered ring, whose ring a
registered one is, and that nobody but its producer writes it. The pool, the helper
reservations and the line queue stay empty.
-/

namespace Ticklog

open Lib

namespace Sys

variable {cfg : Config} {s s' : Sys}

/-- Ring `r` was registered by thread `t`. -/
def Mine (s : Sys) (t r : Nat) : Prop := r ∈ s.registered ∧ (s.rings r).threadId = t

/-- Ring `r` is thread `t`'s and its producer has moved past it. -/
def Left (s : Sys) (t r : Nat) : Prop := Mine s t r ∧ (s.rings r).handedOff = true

/-- Ring `r` is thread `t`'s to write. -/
def Writable (s : Sys) (t r : Nat) : Prop := Mine s t r ∧ (s.rings r).handedOff = false

/-- A ring nobody has registered: allocated and empty, or not allocated yet. -/
structure Blank (r : Ring) : Prop where
  cells : r.cells = []
  tail : r.tail = 0
  headCache : r.headCache = 0
  live : r.live = true
  handedOff : r.handedOff = false

/-- What a thread's position says about its rings. -/
def ThreadOk (s : Sys) (t : Nat) : Prop :=
  match (s.threads t).pc with
  | .idle | .reserve | .spin | .publish | .markHandedOff =>
    ∀ r, (s.threads t).ring = some r → Writable s t r
  | .initRing | .exited => (s.threads t).ring = none
  | .allocFresh => ∀ r, (s.threads t).ring = some r → Left s t r
  | .setInfo r =>
    r < s.nextRing ∧ r ∉ s.registered ∧ ∀ r', (s.threads t).ring = some r' → Left s t r'
  | .register r =>
    r < s.nextRing ∧ r ∉ s.registered ∧ (s.rings r).threadId = t ∧
      ∀ r', (s.threads t).ring = some r' → Left s t r'
  | .switch r =>
    Writable s t r ∧ (s.rings r).cells = [] ∧ ∀ r', (s.threads t).ring = some r' → Left s t r'
  | _ => False

/-- The unregistered ring a thread holds. -/
def heldFresh (pc : ThreadPc) : Option Nat :=
  match pc with
  | .setInfo r | .register r => some r
  | _ => none

/-- The life of rings that are used once. -/
structure PlainInv (s : Sys) : Prop where
  spares : s.spares = []
  lines : s.lines = []
  queue : ∀ todo, s.drain.pc = .deliver todo → todo = []
  noRecycle : ∀ ctx r, s.drain.pc ≠ .recycle ctx r
  noHelper : ∀ r, (s.rings r).helperReserved = false
  notPooled : ∀ r, (s.rings r).recyclable = false
  born : ∀ r, r ∈ s.registered → r < s.nextRing
  nodup : s.registered.Nodup
  count : s.nextSerial = s.registered.length
  serials : ∀ k r, s.registered[k]? = some r → (s.rings r).serial = k
  blank : ∀ r, r ∉ s.registered → Blank (s.rings r)
  known : ∀ r, Known s r → r ∈ s.registered
  entries : ∀ e, e ∈ s.drain.rings → e.2 = (s.rings e.1).serial
  threads : ∀ t, ThreadOk s t
  fresh : ∀ t t' r, heldFresh (s.threads t).pc = some r → heldFresh (s.threads t').pc = some r →
    t = t'

theorem init_plain (hp : cfg.policy ≠ .nanoLog) : PlainInv (Sys.init cfg) where
  spares := if_neg hp
  lines := rfl
  queue := nofun
  noRecycle := nofun
  noHelper := fun _ => rfl
  notPooled := fun _ => decide_eq_false hp
  born := nofun
  nodup := List.nodup_nil
  count := rfl
  serials := nofun
  blank := fun _ _ => ⟨rfl, rfl, rfl, rfl, rfl⟩
  known := by
    intro r h
    rcases h with h | h | h | h <;> cases h
  entries := nofun
  threads := fun _ => nofun
  fresh := nofun

/-! ## Frames -/

/-- Two versions of a ring agree on what its producer relies on. -/
structure OwnerFrame (a b : Ring) : Prop where
  cells : b.cells = a.cells
  threadId : b.threadId = a.threadId
  handedOff : b.handedOff = a.handedOff

theorem OwnerFrame.rfl' {a : Ring} : OwnerFrame a a := ⟨rfl, rfl, rfl⟩

theorem DrainFrame.owner {a b : Ring} (h : DrainFrame a b) : OwnerFrame a b :=
  ⟨h.cells, h.threadId, h.handedOff⟩

/-- A thread that did not move, with its rings as they were, is still fine. -/
theorem ThreadOk.frame {t : Nat} (h : ThreadOk s t) (hth : s'.threads t = s.threads t)
    (hreg : ∀ r, r ∈ s.registered → r ∈ s'.registered) (hnext : s.nextRing ≤ s'.nextRing)
    (hmine : ∀ r, Mine s t r → OwnerFrame (s.rings r) (s'.rings r))
    (hheld : ∀ r, heldFresh (s.threads t).pc = some r →
      r ∉ s'.registered ∧ OwnerFrame (s.rings r) (s'.rings r)) : ThreadOk s' t := by
  have hm : ∀ {r : Nat}, Mine s t r → Mine s' t r := fun hm =>
    ⟨hreg _ hm.1, (hmine _ hm).threadId.trans hm.2⟩
  have hw : ∀ {r : Nat}, Writable s t r → Writable s' t r := fun hw =>
    ⟨hm hw.1, (hmine _ hw.1).handedOff.trans hw.2⟩
  have hl : ∀ {r : Nat}, Left s t r → Left s' t r := fun hl =>
    ⟨hm hl.1, (hmine _ hl.1).handedOff.trans hl.2⟩
  unfold ThreadOk at *
  rw [hth]
  cases hpc : (s.threads t).pc with
  | idle => simp only [hpc] at h ⊢; exact fun r hr => hw (h r hr)
  | reserve => simp only [hpc] at h ⊢; exact fun r hr => hw (h r hr)
  | spin => simp only [hpc] at h ⊢; exact fun r hr => hw (h r hr)
  | publish => simp only [hpc] at h ⊢; exact fun r hr => hw (h r hr)
  | markHandedOff => simp only [hpc] at h ⊢; exact fun r hr => hw (h r hr)
  | initRing => simp only [hpc] at h ⊢; exact h
  | exited => simp only [hpc] at h ⊢; exact h
  | allocFresh => simp only [hpc] at h ⊢; exact fun r hr => hl (h r hr)
  | setInfo r =>
    simp only [hpc] at h ⊢
    have hf := hheld r (by rw [hpc]; rfl)
    exact ⟨Nat.lt_of_lt_of_le h.1 hnext, hf.1, fun r' hr' => hl (h.2.2 r' hr')⟩
  | register r =>
    simp only [hpc] at h ⊢
    have hf := hheld r (by rw [hpc]; rfl)
    exact ⟨Nat.lt_of_lt_of_le h.1 hnext, hf.1, hf.2.threadId.trans h.2.2.1,
      fun r' hr' => hl (h.2.2.2 r' hr')⟩
  | switch r =>
    simp only [hpc] at h ⊢
    exact ⟨hw h.1, (hmine r h.1.1).cells.trans h.2.1, fun r' hr' => hl (h.2.2 r' hr')⟩
  | reset | takeSpare | reserveHelper | formatWait | format | pushLines | recycle | poolTake
  | poolLive | poolWait | asleep | woken => simp only [hpc] at h

/-- In a plain run no thread is in the NanoLog part of the handoff. -/
theorem PlainInv.not_asleep (h : PlainInv s) (t : Nat) : (s.threads t).pc ≠ .asleep := by
  intro hpc
  have ht := h.threads t
  unfold ThreadOk at ht
  simp only [hpc] at ht

/-! ## The drain's steps -/

theorem syncNext_entries {phase : SyncPhase} (h : ∀ e, e ∈ s.drain.rings →
    e.2 = (s.rings e.1).serial) : ∀ e, e ∈ (syncNext s phase).drain.rings →
    e.2 = (s.rings e.1).serial := by
  intro e he
  cases phase with
  | reconcile i =>
    simp only [syncNext] at he
    split at he
    · exact h e (mem_swapRemove he)
    · exact h e he
  | scanRegistry | scanLocal | addNew | retain => exact h e he

theorem syncDecide_entries {keep : Bool} {phase : SyncPhase} (h : ∀ e, e ∈ s.drain.rings →
    e.2 = (s.rings e.1).serial) : ∀ e, e ∈ (syncDecide keep s phase).drain.rings →
    e.2 = (s.rings e.1).serial := by
  intro e he
  unfold syncDecide at he
  split at he
  next => exact h e he
  next => exact h e he
  next =>
    split at he
    next r k hr =>
      split at he
      · rcases List.mem_or_eq_of_mem_set he with he | rfl
        · exact h e he
        · rfl
      · exact h e (mem_swapRemove he)
    next => exact h e he
  next =>
    simp only at he
    split at he
    · rcases List.mem_append.mp he with he | he
      · exact h e he
      · rw [List.mem_singleton.mp he]
    · exact h e he
  next => exact h e he
  next => exact h e he

/-- The local list's serials stay current. -/
theorem drain_entries (hm : DrainMove cfg s s') (h : ∀ e, e ∈ s.drain.rings →
    e.2 = (s.rings e.1).serial) : ∀ e, e ∈ s'.drain.rings → e.2 = (s'.rings e.1).serial := by
  intro e he
  rw [(drain_ring_frame hm e.1).serial]
  cases hm with
  | syncNext hpc hsub => exact syncNext_entries h e he
  | syncLive hpc hsub hl => exact syncDecide_entries h e he
  | syncDead hpc hsub => exact syncDecide_entries h e he
  | retired hpc hl hk hr => exact h e (mem_swapRemove he)
  | _ => exact h e he

/-- The drain recycles only what it found pooled. -/
theorem drain_to_recycle (hm : DrainMove cfg s s') {ctx : PassCtx} {r : Nat}
    (h : s'.drain.pc = .recycle ctx r) : (s.rings r).recyclable = true := by
  have hscan : syncing s'.drain.pc = true → False := by
    intro hs
    rw [h] at hs
    cases hs
  have hafter : ∀ {ctx' : PassCtx}, afterRecycle ctx' ≠ .recycle ctx r := by
    intro ctx'
    cases ctx' <;> nofun
  cases hm with
  | markRecycled hpc hr hc =>
    cases h
    exact hr
  | syncNext hpc hsub => exact (hscan (syncNext_syncing _)).elim
  | syncLive hpc hsub hl => exact (hscan (syncDecide_syncing hpc)).elim
  | syncDead hpc hsub => exact (hscan (syncDecide_syncing hpc)).elim
  | enter hpc hsh hnext => rcases hnext with rfl | ⟨-, rfl⟩ <;> cases h
  | pollDone hpc he hnext => rcases hnext with ⟨-, rfl⟩ | ⟨-, rfl⟩ <;> cases h
  | @clear ctx' r' hpc =>
    simp only [drainTo_drain] at h
    cases ctx' with
    | final =>
      unfold afterPass at h
      cases hseg : cfg.segmented <;> simp [hseg] at h
    | poll i k => cases h
  | retired hpc hl hk hr => cases hseg : cfg.segmented <;> simp [hseg] at h
  | notRecycled hpc hr => exact absurd h hafter
  | recycle hpc => exact absurd h hafter
  | leave | lock | syncHalf | finalRing | finalDone | entry | stale | skip | unreserved
  | mark | passDone | pass | keepEntry | handedOff | notReserved | sameSerial | loadHead
  | drained | takeLines | deliver | delivered | lastPoll | worked | idleDirty | idleClean
  | lastFlush | flush | again => cases h

/-- The drain delivers from the queue only what it took from there. -/
theorem drain_to_deliver (hm : DrainMove cfg s s') {todo : List Rec}
    (h : s'.drain.pc = .deliver todo) :
    todo = s.lines ∨ ∃ x, s.drain.pc = .deliver (x :: todo) := by
  have hscan : syncing s'.drain.pc = true → False := by
    intro hs
    rw [h] at hs
    cases hs
  have hafter : ∀ {ctx : PassCtx}, afterRecycle ctx ≠ .deliver todo := by
    intro ctx
    cases ctx <;> nofun
  cases hm with
  | takeLines hpc =>
    cases h
    exact Or.inl rfl
  | @deliver x rest hpc =>
    cases h
    exact Or.inr ⟨x, hpc⟩
  | syncNext hpc hsub => exact (hscan (syncNext_syncing _)).elim
  | syncLive hpc hsub hl => exact (hscan (syncDecide_syncing hpc)).elim
  | syncDead hpc hsub => exact (hscan (syncDecide_syncing hpc)).elim
  | enter hpc hsh hnext => rcases hnext with rfl | ⟨-, rfl⟩ <;> cases h
  | pollDone hpc he hnext => rcases hnext with ⟨-, rfl⟩ | ⟨-, rfl⟩ <;> cases h
  | @clear ctx' r' hpc =>
    simp only [drainTo_drain] at h
    cases ctx' with
    | final =>
      unfold afterPass at h
      cases hseg : cfg.segmented <;> simp [hseg] at h
    | poll i k => cases h
  | retired hpc hl hk hr => cases hseg : cfg.segmented <;> simp [hseg] at h
  | notRecycled hpc hr => exact absurd h hafter
  | recycle hpc => exact absurd h hafter
  | leave | lock | syncHalf | finalRing | finalDone | entry | stale | skip | unreserved
  | mark | passDone | pass | keepEntry | handedOff | notReserved | sameSerial | loadHead
  | drained | markRecycled | delivered | lastPoll | worked | idleDirty | idleClean
  | lastFlush | flush | again => cases h

/-- The pool and the queue stay empty. -/
theorem drain_pools (h : PlainInv s) (hm : DrainMove cfg s s') :
    s'.spares = [] ∧ s'.lines = [] := by
  have hscan : ∀ {s₁ : Sys}, ScanFrame s s₁ → s₁.spares = [] ∧ s₁.lines = [] := fun hf =>
    ⟨hf.spares.trans h.spares, hf.lines.trans h.lines⟩
  cases hm with
  | syncNext hpc hsub => exact hscan (syncNext_frame _)
  | syncLive hpc hsub hl => exact hscan (syncDecide_frame _ _)
  | syncDead hpc hsub => exact hscan (syncDecide_frame _ _)
  | recycle hpc => exact absurd hpc (h.noRecycle _ _)
  | takeLines hpc => exact ⟨h.spares, rfl⟩
  | _ => exact ⟨h.spares, h.lines⟩

theorem drain_blank (hm : DrainMove cfg s s') {r : Nat} (hr : ¬ Known s r)
    (h : Blank (s.rings r)) : Blank (s'.rings r) := by
  have hkeep : ∀ {r₀ : Nat} {v : Ring}, r₀ ∈ mentions s.drain.pc →
      Function.update s.rings r₀ v r = s.rings r := by
    intro r₀ v hmem
    refine Function.update_of_ne ?_ _ _
    rintro rfl
    exact hr (Or.inr (Or.inr (Or.inr hmem)))
  cases hm with
  | syncNext hpc hsub =>
    rw [(syncNext_frame _).rings]
    exact h
  | syncLive hpc hsub hl =>
    rw [(syncDecide_frame _ _).rings]
    exact h
  | syncDead hpc hsub =>
    rw [(syncDecide_frame _ _).rings]
    exact h
  | @mark ctx r₀ hpc =>
    rw [drainTo_rings, setRing_rings, hkeep (by rw [hpc]; exact List.mem_singleton.mpr rfl)]
    exact h
  | @pass ctx r₀ p p' ring' x hpc hp hstep =>
    rw [drainTo_rings, acceptAll_rings, setRing_rings,
      hkeep (by rw [hpc]; exact List.mem_singleton.mpr rfl)]
    exact h
  | @clear ctx r₀ hpc =>
    rw [drainTo_rings, setRing_rings, hkeep (by rw [hpc]; exact List.mem_singleton.mpr rfl)]
    exact h
  | @markRecycled ctx r₀ hpc h1 h2 =>
    rw [drainTo_rings, setRing_rings, hkeep (by rw [hpc]; exact List.mem_singleton.mpr rfl)]
    exact h
  | _ => exact h

theorem drain_plain (h : PlainInv s) (hm : DrainMove cfg s s') : PlainInv s' := by
  have hkeeps := drain_keeps hm
  have hpools := drain_pools h hm
  have hth : ∀ t, s'.threads t = s.threads t := fun t => drain_threads hm (h.not_asleep t)
  refine
    { spares := hpools.1, lines := hpools.2, queue := ?_, noRecycle := ?_, noHelper := ?_,
      notPooled := ?_, born := ?_, nodup := ?_, count := ?_, serials := ?_, blank := ?_,
      known := ?_, entries := drain_entries hm h.entries, threads := ?_, fresh := ?_ }
  · intro todo hpc
    rcases drain_to_deliver hm hpc with rfl | ⟨x, hx⟩
    · exact h.lines
    · exact absurd (h.queue _ hx) (List.cons_ne_nil _ _)
  · intro ctx r hpc
    have := drain_to_recycle hm hpc
    rw [h.notPooled r] at this
    cases this
  · intro r
    rw [(drain_ring_frame hm r).helperReserved]
    exact h.noHelper r
  · intro r
    rw [(drain_ring_frame hm r).recyclable]
    exact h.notPooled r
  · rw [hkeeps.registered, hkeeps.nextRing]
    exact h.born
  · rw [hkeeps.registered]
    exact h.nodup
  · rw [hkeeps.registered, hkeeps.nextSerial]
    exact h.count
  · intro k r hr
    rw [(drain_ring_frame hm r).serial]
    rw [hkeeps.registered] at hr
    exact h.serials k r hr
  · intro r hr
    rw [hkeeps.registered] at hr
    exact drain_blank hm (fun hk => hr (h.known r hk)) (h.blank r hr)
  · intro r hr
    rw [hkeeps.registered]
    exact h.known r (drain_known hm hr)
  · intro t
    refine (h.threads t).frame (hth t) ?_ ?_ (fun r _ => (drain_ring_frame hm r).owner) ?_
    · intro r hr
      rw [hkeeps.registered]
      exact hr
    · rw [hkeeps.nextRing]
    · intro r hr
      refine ⟨?_, (drain_ring_frame hm r).owner⟩
      rw [hkeeps.registered]
      have ht := h.threads t
      unfold ThreadOk at ht
      unfold heldFresh at hr
      split at hr
      next hpc =>
        cases hr
        simp only [hpc] at ht
        exact ht.2.1
      next hpc =>
        cases hr
        simp only [hpc] at ht
        exact ht.2.1
      next => cases hr
  · intro t t' r hr hr'
    rw [hth] at hr hr'
    exact h.fresh t t' r hr hr'

/-! ## The threads' steps -/

/-- What a fresh ring's holder says of it. -/
theorem PlainInv.held (h : PlainInv s) {t r : Nat} (hr : heldFresh (s.threads t).pc = some r) :
    r < s.nextRing ∧ r ∉ s.registered := by
  have ht := h.threads t
  unfold ThreadOk at ht
  unfold heldFresh at hr
  split at hr
  next hpc =>
    cases hr
    simp only [hpc] at ht
    exact ⟨ht.1, ht.2.1⟩
  next hpc =>
    cases hr
    simp only [hpc] at ht
    exact ⟨ht.1, ht.2.1⟩
  next => cases hr

/-- A thread moves without a fresh ring in hand. -/
theorem PlainInv.moveThread (h : PlainInv s) {t : Nat} {th : Thread}
    (hok : ThreadOk (s.setThread t th) t) (hf : heldFresh th.pc = none) :
    PlainInv (s.setThread t th) where
  spares := h.spares
  lines := h.lines
  queue := h.queue
  noRecycle := h.noRecycle
  noHelper := h.noHelper
  notPooled := h.notPooled
  born := h.born
  nodup := h.nodup
  count := h.count
  serials := h.serials
  blank := h.blank
  known := h.known
  entries := h.entries
  threads := by
    intro t'
    by_cases ht : t' = t
    · exact ht ▸ hok
    · refine (h.threads t').frame (Function.update_of_ne ht _ _) (fun _ hr => hr) (Nat.le_refl _)
        (fun _ _ => .rfl') (fun r hr => ⟨(h.held hr).2, .rfl'⟩)
  fresh := by
    have hne : ∀ {t' r : Nat}, heldFresh ((s.setThread t th).threads t').pc = some r →
        heldFresh (s.threads t').pc = some r := by
      intro t' r hr
      by_cases ht : t' = t
      · subst ht
        rw [setThread_threads, Function.update_self, hf] at hr
        cases hr
      · rwa [setThread_threads, Function.update_of_ne ht] at hr
    exact fun t₁ t₂ r h₁ h₂ => h.fresh t₁ t₂ r (hne h₁) (hne h₂)

/-- A registered ring changes in a field no thread relies on. -/
theorem PlainInv.touchRing (h : PlainInv s) {r : Nat} {v : Ring} (hr : r ∈ s.registered)
    (hv : OwnerFrame (s.rings r) v) (hserial : v.serial = (s.rings r).serial)
    (hhelp : v.helperReserved = false) (hpool : v.recyclable = false) :
    PlainInv (s.setRing r v) := by
  have hother : ∀ {r' : Nat}, r' ≠ r → (s.setRing r v).rings r' = s.rings r' := fun hne =>
    Function.update_of_ne hne _ _
  have hself : (s.setRing r v).rings r = v := Function.update_self _ _ _
  have howner : ∀ r', OwnerFrame (s.rings r') ((s.setRing r v).rings r') := by
    intro r'
    by_cases hne : r' = r
    · rw [hne, hself]
      exact hv
    · rw [hother hne]
      exact .rfl'
  have hserials : ∀ r', ((s.setRing r v).rings r').serial = (s.rings r').serial := by
    intro r'
    by_cases hne : r' = r
    · rw [hne, hself, hserial]
    · rw [hother hne]
  refine
    { spares := h.spares, lines := h.lines, queue := h.queue, noRecycle := h.noRecycle,
      noHelper := ?_, notPooled := ?_, born := h.born, nodup := h.nodup, count := h.count,
      serials := ?_, blank := ?_, known := h.known, entries := ?_, threads := ?_,
      fresh := h.fresh }
  · intro r'
    by_cases hne : r' = r
    · rw [hne, hself, hhelp]
    · rw [hother hne]
      exact h.noHelper r'
  · intro r'
    by_cases hne : r' = r
    · rw [hne, hself, hpool]
    · rw [hother hne]
      exact h.notPooled r'
  · intro k r' hk
    rw [hserials]
    exact h.serials k r' hk
  · intro r' hr'
    have hne : r' ≠ r := by
      rintro rfl
      exact hr' hr
    rw [hother hne]
    exact h.blank r' hr'
  · intro e he
    rw [hserials]
    exact h.entries e he
  · intro t
    exact (h.threads t).frame rfl (fun _ hr => hr) (Nat.le_refl _) (fun r' _ => howner r')
      (fun r' hr' => ⟨(h.held hr').2, howner r'⟩)

/-- A thread changes its own registered ring and moves on. -/
theorem PlainInv.ownRing (h : PlainInv s) {t r : Nat} {v : Ring} {th : Thread}
    (hmine : Mine s t r) (hid : v.threadId = (s.rings r).threadId)
    (hserial : v.serial = (s.rings r).serial) (hhelp : v.helperReserved = false)
    (hpool : v.recyclable = false)
    (hok : ThreadOk ((s.setRing r v).setThread t th) t) (hf : heldFresh th.pc = none) :
    PlainInv ((s.setRing r v).setThread t th) := by
  have hother : ∀ {r' : Nat}, r' ≠ r →
      ((s.setRing r v).setThread t th).rings r' = s.rings r' := fun hne =>
    Function.update_of_ne hne _ _
  have hself : ((s.setRing r v).setThread t th).rings r = v := Function.update_self _ _ _
  have hserials : ∀ r', (((s.setRing r v).setThread t th).rings r').serial
      = (s.rings r').serial := by
    intro r'
    by_cases hne : r' = r
    · rw [hne, hself, hserial]
    · rw [hother hne]
  have hnotheld : ∀ {t' r' : Nat}, heldFresh (s.threads t').pc = some r' → r' ≠ r := by
    intro t' r' hr' heq
    exact (h.held hr').2 (heq ▸ hmine.1)
  refine
    { spares := h.spares, lines := h.lines, queue := h.queue, noRecycle := h.noRecycle,
      noHelper := ?_, notPooled := ?_, born := h.born, nodup := h.nodup, count := h.count,
      serials := ?_, blank := ?_, known := h.known, entries := ?_, threads := ?_,
      fresh := ?_ }
  · intro r'
    by_cases hne : r' = r
    · rw [hne, hself, hhelp]
    · rw [hother hne]
      exact h.noHelper r'
  · intro r'
    by_cases hne : r' = r
    · rw [hne, hself, hpool]
    · rw [hother hne]
      exact h.notPooled r'
  · intro k r' hk
    rw [hserials]
    exact h.serials k r' hk
  · intro r' hr'
    have hne : r' ≠ r := by
      rintro rfl
      exact hr' hmine.1
    rw [hother hne]
    exact h.blank r' hr'
  · intro e he
    rw [hserials]
    exact h.entries e he
  · intro t'
    by_cases ht : t' = t
    · exact ht ▸ hok
    · refine (h.threads t').frame (Function.update_of_ne ht _ _) (fun _ hr => hr) (Nat.le_refl _)
        ?_ ?_
      · intro r' hm
        have hne : r' ≠ r := by
          rintro rfl
          exact ht (hm.2.symm.trans hmine.2)
        rw [hother hne]
        exact .rfl'
      · intro r' hr'
        rw [hother (hnotheld hr')]
        exact ⟨(h.held hr').2, .rfl'⟩
  · have hne : ∀ {t' r' : Nat}, heldFresh (((s.setRing r v).setThread t th).threads t').pc
        = some r' → heldFresh (s.threads t').pc = some r' := by
      intro t' r' hr'
      by_cases ht : t' = t
      · subst ht
        rw [setThread_threads, Function.update_self, hf] at hr'
        cases hr'
      · rwa [setThread_threads, Function.update_of_ne ht] at hr'
    exact fun t₁ t₂ r' h₁ h₂ => h.fresh t₁ t₂ r' (hne h₁) (hne h₂)

/-- A new ring is born in a thread's hands. -/
theorem PlainInv.alloc (h : PlainInv s) {t : Nat}
    (hleft : ∀ r, (s.threads t).ring = some r → Left s t r) : PlainInv (alloc t s) := by
  have hnew : s.nextRing ∉ s.registered := fun hr => absurd (h.born _ hr) (Nat.lt_irrefl _)
  have hother : ∀ {r' : Nat}, r' ≠ s.nextRing → (Sys.alloc t s).rings r' = s.rings r' := fun hne =>
    Function.update_of_ne hne _ _
  have hself : (Sys.alloc t s).rings s.nextRing = Ring.fresh false := Function.update_self _ _ _
  have hreg : ∀ {r : Nat}, r ∈ s.registered → (Sys.alloc t s).rings r = s.rings r := fun hr =>
    hother fun heq => hnew (heq ▸ hr)
  have hcast : ∀ {r' : Nat}, Left s t r' → Left (Sys.alloc t s) t r' := by
    intro r' hl
    obtain ⟨⟨hr, hid⟩, hho⟩ := hl
    exact ⟨⟨hr, by rw [hreg hr]; exact hid⟩, by rw [hreg hr]; exact hho⟩
  refine
    { spares := h.spares, lines := h.lines, queue := h.queue, noRecycle := h.noRecycle,
      noHelper := ?_, notPooled := ?_, born := ?_, nodup := h.nodup, count := h.count,
      serials := ?_, blank := ?_, known := h.known, entries := ?_, threads := ?_, fresh := ?_ }
  · intro r'
    by_cases hne : r' = s.nextRing
    · rw [hne, hself]
      rfl
    · rw [hother hne]
      exact h.noHelper r'
  · intro r'
    by_cases hne : r' = s.nextRing
    · rw [hne, hself]
      rfl
    · rw [hother hne]
      exact h.notPooled r'
  · intro r hr
    exact Nat.lt_succ_of_lt (h.born r hr)
  · intro k r hk
    rw [hreg (List.mem_of_getElem? hk)]
    exact h.serials k r hk
  · intro r hr
    by_cases hne : r = s.nextRing
    · rw [hne, hself]
      exact ⟨rfl, rfl, rfl, rfl, rfl⟩
    · rw [hother hne]
      exact h.blank r hr
  · intro e he
    rw [hreg (h.known e.1 (Or.inr (Or.inl (List.mem_map.mpr ⟨e, he, rfl⟩))))]
    exact h.entries e he
  · intro t'
    by_cases ht : t' = t
    · subst ht
      have hpc : ((Sys.alloc t' s).threads t') = { s.threads t' with pc := .setInfo s.nextRing } :=
        Function.update_self _ _ _
      unfold ThreadOk
      rw [hpc]
      exact ⟨Nat.lt_succ_self _, hnew, fun r' hr' => hcast (hleft r' hr')⟩
    · refine (h.threads t').frame (Function.update_of_ne ht _ _) (fun _ hr => hr) (Nat.le_succ _)
        (fun r' hm => ?_) (fun r' hr' => ?_)
      · rw [hreg hm.1]
        exact .rfl'
      · obtain ⟨hlt, hnr⟩ := h.held hr'
        rw [hother (Nat.ne_of_lt hlt)]
        exact ⟨hnr, .rfl'⟩
  · intro t₁ t₂ r h₁ h₂
    have hcase : ∀ {t' : Nat}, heldFresh ((Sys.alloc t s).threads t').pc = some r →
        (t' = t ∧ r = s.nextRing) ∨ (t' ≠ t ∧ heldFresh (s.threads t').pc = some r) := by
      intro t' hr'
      by_cases ht : t' = t
      · subst ht
        rw [show ((Sys.alloc t' s).threads t').pc = .setInfo s.nextRing from by
          rw [show (Sys.alloc t' s).threads t' = { s.threads t' with pc := .setInfo s.nextRing }
            from Function.update_self _ _ _]] at hr'
        cases hr'
        exact Or.inl ⟨rfl, rfl⟩
      · rw [show (Sys.alloc t s).threads t' = s.threads t' from Function.update_of_ne ht _ _] at hr'
        exact Or.inr ⟨ht, hr'⟩
    rcases hcase h₁ with ⟨e₁, e₁'⟩ | ⟨-, g₁⟩ <;> rcases hcase h₂ with ⟨e₂, e₂'⟩ | ⟨-, g₂⟩
    · rw [e₁, e₂]
    · exact absurd e₁' (Nat.ne_of_lt (h.held g₂).1)
    · exact absurd e₂' (Nat.ne_of_lt (h.held g₁).1)
    · exact h.fresh t₁ t₂ r g₁ g₂

/-- The holder names itself on its fresh ring. -/
theorem PlainInv.setInfo (h : PlainInv s) {t r : Nat} (hpc : (s.threads t).pc = .setInfo r) :
    PlainInv ((s.setRing r { s.rings r with threadId := t }).goto t (.register r)) := by
  have ht := h.threads t
  unfold ThreadOk at ht
  simp only [hpc] at ht
  obtain ⟨hlt, hnr, hleft⟩ := ht
  rw [goto_eq]
  have hother : ∀ {r' : Nat}, r' ≠ r → Function.update s.rings r
      { s.rings r with threadId := t } r' = s.rings r' := fun hne => Function.update_of_ne hne _ _
  have hself : Function.update s.rings r { s.rings r with threadId := t } r
      = { s.rings r with threadId := t } := Function.update_self _ _ _
  have hreg : ∀ {r' : Nat}, r' ∈ s.registered → r' ≠ r := by
    rintro r' hr' rfl
    exact hnr hr'
  refine
    { spares := h.spares, lines := h.lines, queue := h.queue, noRecycle := h.noRecycle,
      noHelper := ?_, notPooled := ?_, born := h.born, nodup := h.nodup, count := h.count,
      serials := ?_, blank := ?_, known := h.known, entries := ?_, threads := ?_,
      fresh := ?_ }
  · intro r'
    rw [setThread_rings, setRing_rings]
    by_cases hne : r' = r
    · rw [hne, hself]
      exact h.noHelper r
    · rw [hother hne]
      exact h.noHelper r'
  · intro r'
    rw [setThread_rings, setRing_rings]
    by_cases hne : r' = r
    · rw [hne, hself]
      exact h.notPooled r
    · rw [hother hne]
      exact h.notPooled r'
  · intro k r' hk
    rw [setThread_rings, setRing_rings, hother (hreg (List.mem_of_getElem? hk))]
    exact h.serials k r' hk
  · intro r' hr'
    rw [setThread_rings, setRing_rings]
    have hb := h.blank r' hr'
    by_cases hne : r' = r
    · rw [hne] at hb ⊢
      rw [hself]
      exact ⟨hb.cells, hb.tail, hb.headCache, hb.live, hb.handedOff⟩
    · rw [hother hne]
      exact hb
  · intro e he
    have hk := h.known e.1 (Or.inr (Or.inl (List.mem_map.mpr ⟨e, he, rfl⟩)))
    rw [setThread_rings, setRing_rings, hother (hreg hk)]
    exact h.entries e he
  · intro t'
    by_cases htt : t' = t
    · subst htt
      unfold ThreadOk
      rw [setThread_threads, Function.update_self]
      refine ⟨hlt, hnr, ?_, fun r' hr' => ?_⟩
      · rw [setThread_rings, setRing_rings, hself]
      · obtain ⟨⟨hr, hid⟩, hho⟩ := hleft r' hr'
        refine ⟨⟨hr, ?_⟩, ?_⟩
        · rw [setThread_rings, setRing_rings, hother (hreg hr)]
          exact hid
        · rw [setThread_rings, setRing_rings, hother (hreg hr)]
          exact hho
    · refine (h.threads t').frame (Function.update_of_ne htt _ _) (fun _ hr => hr) (Nat.le_refl _)
        (fun r' hm => ?_) (fun r' hr' => ?_)
      · rw [setThread_rings, setRing_rings, hother (hreg hm.1)]
        exact .rfl'
      · have hne : r' ≠ r := by
          rintro rfl
          exact htt (h.fresh t' t r' hr' (by rw [hpc]; rfl))
        rw [setThread_rings, setRing_rings, hother hne]
        exact ⟨(h.held hr').2, .rfl'⟩
  · have hheld : ∀ {t' r' : Nat}, heldFresh (((s.setRing r
        { s.rings r with threadId := t }).setThread t
        { s.threads t with pc := .register r }).threads t').pc = some r' →
        heldFresh (s.threads t').pc = some r' := by
      intro t' r' hr'
      by_cases htt : t' = t
      · subst htt
        rw [setThread_threads, Function.update_self] at hr'
        rw [hpc]
        exact hr'
      · rwa [setThread_threads, Function.update_of_ne htt] at hr'
    exact fun t₁ t₂ r' h₁ h₂ => h.fresh t₁ t₂ r' (hheld h₁) (hheld h₂)

/-- Registration: the fresh ring gets the next serial and joins the registry. -/
theorem PlainInv.register (h : PlainInv s) {t r : Nat} (hpc : (s.threads t).pc = .register r) :
    PlainInv ((s.registerRing r).goto t (.switch r)) := by
  have ht := h.threads t
  unfold ThreadOk at ht
  simp only [hpc] at ht
  obtain ⟨hlt, hnr, hid, hleft⟩ := ht
  have hb := h.blank r hnr
  rw [goto_eq]
  have hrings : ((s.registerRing r).setThread t { (s.registerRing r).threads t with
      pc := .switch r }).rings
      = Function.update s.rings r { s.rings r with serial := s.nextSerial } := rfl
  have hother : ∀ {r' : Nat}, r' ≠ r → Function.update s.rings r
      { s.rings r with serial := s.nextSerial } r' = s.rings r' := fun hne =>
    Function.update_of_ne hne _ _
  have hself : Function.update s.rings r { s.rings r with serial := s.nextSerial } r
      = { s.rings r with serial := s.nextSerial } := Function.update_self _ _ _
  have hregd : ((s.registerRing r).setThread t { (s.registerRing r).threads t with
      pc := .switch r }).registered = s.registered ++ [r] := rfl
  have hne' : ∀ {r' : Nat}, r' ∈ s.registered → r' ≠ r := by
    rintro r' hr' rfl
    exact hnr hr'
  have hcast : ∀ {t' r' : Nat}, Left s t' r' → Left ((s.registerRing r).setThread t
      { (s.registerRing r).threads t with pc := .switch r }) t' r' := by
    intro t' r' hl
    obtain ⟨⟨hr, hid'⟩, hho⟩ := hl
    refine ⟨⟨?_, ?_⟩, ?_⟩
    · rw [hregd]
      exact List.mem_append_left _ hr
    · rw [hrings, hother (hne' hr)]
      exact hid'
    · rw [hrings, hother (hne' hr)]
      exact hho
  refine
    { spares := h.spares, lines := h.lines, queue := h.queue, noRecycle := h.noRecycle,
      noHelper := ?_, notPooled := ?_, born := ?_, nodup := ?_, count := ?_,
      serials := ?_, blank := ?_, known := ?_, entries := ?_, threads := ?_,
      fresh := ?_ }
  · intro r'
    rw [hrings]
    by_cases hne : r' = r
    · rw [hne, hself]
      exact h.noHelper r
    · rw [hother hne]
      exact h.noHelper r'
  · intro r'
    rw [hrings]
    by_cases hne : r' = r
    · rw [hne, hself]
      exact h.notPooled r
    · rw [hother hne]
      exact h.notPooled r'
  · intro r' hr'
    rw [hregd, List.mem_append, List.mem_singleton] at hr'
    rcases hr' with hr' | rfl
    · exact h.born r' hr'
    · exact hlt
  · rw [hregd]
    refine List.nodup_append.mpr ⟨h.nodup, List.nodup_singleton r, ?_⟩
    intro a ha b hb
    rw [List.mem_singleton.mp hb]
    exact hne' ha
  · show s.nextSerial + 1 = (s.registered ++ [r]).length
    rw [List.length_append, List.length_singleton, h.count]
  · intro k r' hk
    rw [hregd] at hk
    rw [hrings]
    rcases Nat.lt_trichotomy k s.registered.length with hlt' | heq | hgt
    · rw [List.getElem?_append_left hlt'] at hk
      rw [hother (hne' (List.mem_of_getElem? hk))]
      exact h.serials k r' hk
    · rw [heq, List.getElem?_append_right (Nat.le_refl _), Nat.sub_self] at hk
      cases hk
      rw [hself, heq, ← h.count]
    · rw [List.getElem?_eq_none (by simp; omega)] at hk
      cases hk
  · intro r' hr'
    rw [hregd, List.mem_append, not_or, List.mem_singleton] at hr'
    rw [hrings, hother hr'.2]
    exact h.blank r' hr'.1
  · intro r' hk
    rw [hregd]
    by_cases hne : r' = r
    · exact List.mem_append_right _ (List.mem_singleton.mpr hne)
    · refine List.mem_append_left _ (h.known r' ?_)
      rcases hk with hk | hk
      · left
        have hk' : r' ∈ if r ∈ s.registry then s.registry else s.registry ++ [r] := hk
        split at hk'
        · exact hk'
        · rcases List.mem_append.mp hk' with hk' | hk'
          · exact hk'
          · exact absurd (List.mem_singleton.mp hk') hne
      · exact Or.inr hk
  · intro e he
    have hk := h.known e.1 (Or.inr (Or.inl (List.mem_map.mpr ⟨e, he, rfl⟩)))
    rw [hrings, hother (hne' hk)]
    exact h.entries e he
  · intro t'
    by_cases htt : t' = t
    · subst htt
      unfold ThreadOk
      rw [setThread_threads, Function.update_self]
      refine ⟨⟨⟨?_, ?_⟩, ?_⟩, ?_, fun r' hr' => hcast (hleft r' hr')⟩
      · rw [hregd]
        exact List.mem_append_right _ (List.mem_singleton.mpr rfl)
      · rw [hrings, hself]
        exact hid
      · rw [hrings, hself]
        exact hb.handedOff
      · rw [hrings, hself]
        exact hb.cells
    · refine (h.threads t').frame (Function.update_of_ne htt _ _) (fun r' hr' => ?_)
        (Nat.le_refl _) (fun r' hm => ?_) (fun r' hr' => ?_)
      · rw [hregd]
        exact List.mem_append_left _ hr'
      · rw [hrings, hother (hne' hm.1)]
        exact .rfl'
      · have hne : r' ≠ r := by
          rintro rfl
          exact htt (h.fresh t' t r' hr' (by rw [hpc]; rfl))
        rw [hrings, hother hne, hregd, List.mem_append, not_or, List.mem_singleton]
        exact ⟨⟨(h.held hr').2, hne⟩, .rfl'⟩
  · have hheld : ∀ {t' r' : Nat}, heldFresh (((s.registerRing r).setThread t
        { (s.registerRing r).threads t with pc := .switch r }).threads t').pc = some r' →
        heldFresh (s.threads t').pc = some r' := by
      intro t' r' hr'
      by_cases htt : t' = t
      · subst htt
        rw [setThread_threads, Function.update_self] at hr'
        cases hr'
      · rwa [setThread_threads, Function.update_of_ne htt] at hr'
    exact fun t₁ t₂ r' h₁ h₂ => h.fresh t₁ t₂ r' (hheld h₁) (hheld h₂)

/-- A thread's own registered ring after its own change. -/
theorem mine_self {t r : Nat} {v : Ring} {th : Thread} (hm : Mine s t r)
    (hid : v.threadId = (s.rings r).threadId) : Mine ((s.setRing r v).setThread t th) t r := by
  refine ⟨hm.1, ?_⟩
  rw [setThread_rings, setRing_rings, Function.update_self, hid]
  exact hm.2

/-- A publication extends the history and the thread's own ring. -/
theorem PlainInv.publish (h : PlainInv s) {t r : Nat} (hpc : (s.threads t).pc = .publish)
    (hr : (s.threads t).ring = some r) : PlainInv (publish t r s) := by
  have ht := h.threads t
  unfold ThreadOk at ht
  simp only [hpc] at ht
  have hw := ht r hr
  have hmove : PlainInv ((s.setRing r { s.rings r with
      cells := (s.rings r).cells ++ [⟨t, (s.threads t).seq, r, (s.threads t).total⟩] }).setThread t
        { s.threads t with pc := .idle, seq := (s.threads t).seq + 1 }) := by
    refine h.ownRing hw.1 rfl rfl (h.noHelper r) (h.notPooled r) ?_ rfl
    unfold ThreadOk
    rw [setThread_threads, Function.update_self]
    intro r' hr'
    have heq : r = r' := Option.some.inj (hr.symm.trans hr')
    subst heq
    refine ⟨mine_self hw.1 rfl, ?_⟩
    rw [setThread_rings, setRing_rings, Function.update_self]
    exact hw.2
  -- the history is no part of the invariant
  exact ⟨hmove.spares, hmove.lines, hmove.queue, hmove.noRecycle, hmove.noHelper,
    hmove.notPooled, hmove.born, hmove.nodup, hmove.count, hmove.serials, hmove.blank,
    hmove.known, hmove.entries, hmove.threads, hmove.fresh⟩

/-- The ring is handed off; its thread goes for a fresh one. -/
theorem PlainInv.handOff (h : PlainInv s) {t r : Nat} (hpc : (s.threads t).pc = .markHandedOff)
    (hr : (s.threads t).ring = some r) :
    PlainInv ((s.setRing r { s.rings r with handedOff := true }).goto t .allocFresh) := by
  have ht := h.threads t
  unfold ThreadOk at ht
  simp only [hpc] at ht
  have hw := ht r hr
  rw [goto_eq]
  refine h.ownRing hw.1 rfl rfl (h.noHelper r) (h.notPooled r) ?_ rfl
  unfold ThreadOk
  rw [setThread_threads, Function.update_self]
  intro r' hr'
  have heq : r = r' := Option.some.inj (hr.symm.trans hr')
  subst heq
  refine ⟨mine_self hw.1 rfl, ?_⟩
  rw [setThread_rings, setRing_rings, Function.update_self]

/-- A thread that keeps its ring and stays clear of the handoff. -/
theorem PlainInv.stay (h : PlainInv s) {t : Nat} {th : Thread}
    (hold : ∀ r, (s.threads t).ring = some r → Writable s t r)
    (hring : th.ring = (s.threads t).ring)
    (hpc : th.pc = .idle ∨ th.pc = .reserve ∨ th.pc = .spin ∨ th.pc = .publish ∨
      th.pc = .markHandedOff) : PlainInv (s.setThread t th) := by
  refine h.moveThread ?_ ?_
  · unfold ThreadOk
    rw [setThread_threads, Function.update_self]
    rcases hpc with hpc | hpc | hpc | hpc | hpc <;> rw [hpc] <;> exact fun r hr =>
      hold r (hring ▸ hr)
  · rcases hpc with hpc | hpc | hpc | hpc | hpc <;> rw [hpc] <;> rfl

theorem thread_plain (h : PlainInv s) (hp : cfg.policy ≠ .nanoLog) {t : Nat}
    (hm : ThreadMove cfg t s s') : PlainInv s' := by
  have ht := h.threads t
  unfold ThreadOk at ht
  cases hm with
  | takeFirst hpc hseg hsp =>
    rw [h.spares] at hsp
    cases hsp
  | allocFirst hpc hsp =>
    simp only [hpc] at ht
    refine h.alloc fun r hr => ?_
    rw [ht] at hr
    cases hr
  | reset hpc hk => simp only [hpc] at ht
  | resetLast hpc hk => simp only [hpc] at ht
  | setInfo hpc => exact h.setInfo hpc
  | register hpc hl => exact h.register hpc
  | @switch r hpc =>
    simp only [hpc] at ht
    refine h.moveThread ?_ rfl
    unfold ThreadOk
    rw [setThread_threads, Function.update_self]
    intro r' hr'
    cases hr'
    exact ht.1
  | granted hpc hr hroom =>
    simp only [hpc] at ht
    exact h.stay ht rfl (by simp)
  | full hpc hr hroom hnext =>
    simp only [hpc] at ht
    rcases hnext with ⟨-, rfl⟩ | ⟨-, rfl⟩ | ⟨-, rfl⟩
    all_goals exact h.stay ht rfl (by simp)
  | spin hpc hr =>
    simp only [hpc] at ht
    refine h.stay ht rfl ?_
    simp only
    split <;> simp
  | publish hpc hr => exact h.publish hpc hr
  | markHandedOff hpc hr =>
    rw [if_neg hp]
    exact h.handOff hpc hr
  | takeSpare hpc hr hsp =>
    rw [h.spares] at hsp
    cases hsp
  | noSpare hpc hr hsp => rcases hpc with ⟨hpc, -⟩ | ⟨hpc, -⟩ | ⟨hpc, -⟩ <;> simp only [hpc] at ht
  | allocFresh hpc hr =>
    simp only [hpc] at ht
    exact h.alloc ht
  | reserveHelper hpc hr => simp only [hpc] at ht
  | formatSpin hpc hr hd => simp only [hpc] at ht
  | formatEnter hpc hr hd => simp only [hpc] at ht
  | formatDone hpc hr => simp only [hpc] at ht
  | format hpc hr hf hstep => simp only [hpc] at ht
  | pushLines hpc hr => simp only [hpc] at ht
  | recycle hpc hr => simp only [hpc] at ht
  | poolLive hpc hr => simp only [hpc] at ht
  | poolWait hpc hr => simp only [hpc] at ht

/-! ## The other agents, and runs -/

theorem log_plain (h : PlainInv s) {t total : Nat} (hstep : log t total s = some s') :
    PlainInv s' := by
  have ht := h.threads t
  unfold ThreadOk at ht
  simp only [log] at hstep
  split at hstep
  next hok =>
    rw [hok.1] at ht
    split at hstep
    next hr =>
      cases hstep
      refine h.moveThread ?_ rfl
      unfold ThreadOk
      rw [setThread_threads, Function.update_self]
      exact hr
    next hr =>
      cases hstep
      exact h.stay ht rfl (by simp)
  next => cases hstep

/-- Marking a registered ring dead: no thread relies on its `live` flag. -/
theorem PlainInv.setDead (h : PlainInv s) {r : Nat} (hr : r ∈ s.registered) :
    PlainInv (s.setRing r { s.rings r with live := false }) :=
  h.touchRing hr ⟨rfl, rfl, rfl⟩ rfl (h.noHelper r) (h.notPooled r)

theorem exit_plain (h : PlainInv s) {t : Nat} (hstep : exit t s = some s') : PlainInv s' := by
  have ht := h.threads t
  unfold ThreadOk at ht
  simp only [exit] at hstep
  split at hstep
  next hpc =>
    rw [hpc] at ht
    split at hstep
    next r hr =>
      cases hstep
      refine (h.setDead (ht r hr).1.1).moveThread ?_ rfl
      unfold ThreadOk
      rw [setThread_threads, Function.update_self]
    next hr =>
      cases hstep
      refine h.moveThread ?_ rfl
      unfold ThreadOk
      rw [setThread_threads, Function.update_self]
      exact hr
  next => cases hstep

/-- The guard only ever marks rings it found in the registry. -/
def GuardKnows (s : Sys) : Prop :=
  ∀ todo, s.guard = .marking todo → ∀ r, r ∈ todo → r ∈ s.registered

/-- The guard's own position is no part of the invariant. -/
theorem PlainInv.moveGuard (h : PlainInv s) (gp : GuardPc) (b : Bool) :
    PlainInv { s with guard := gp, shutdown := b } :=
  ⟨h.spares, h.lines, h.queue, h.noRecycle, h.noHelper, h.notPooled, h.born, h.nodup, h.count,
    h.serials, h.blank, h.known, h.entries, h.threads, h.fresh⟩

theorem guard_plain (h : PlainInv s) (hg : GuardKnows s) (hstep : guardStep s = some s') :
    PlainInv s' ∧ GuardKnows s' := by
  dsimp only [guardStep] at hstep
  split at hstep
  next hpc =>
    split at hstep
    next => cases hstep
    next =>
      cases hstep
      refine ⟨h.moveGuard _ _, fun todo ht r hr => ?_⟩
      cases ht
      exact h.known r (Or.inl hr)
  next r rest hpc =>
    cases hstep
    have hr := hg _ hpc r List.mem_cons_self
    refine ⟨(h.setDead hr).moveGuard _ _, fun todo ht r' hr' => ?_⟩
    cases ht
    exact hg _ hpc r' (List.mem_cons_of_mem _ hr')
  next hpc =>
    cases hstep
    exact ⟨h.moveGuard _ _, fun _ ht => nomatch ht⟩
  next hpc =>
    cases hstep
    exact ⟨h.moveGuard _ _, fun _ ht => nomatch ht⟩
  next hpc =>
    split at hstep
    next =>
      cases hstep
      exact ⟨h.moveGuard _ _, fun _ ht => nomatch ht⟩
    next => cases hstep
  next => cases hstep

/-- What a plain run carries. -/
def PlainRun (s : Sys) : Prop := PlainInv s ∧ GuardKnows s

theorem GuardKnows.mono (h : GuardKnows s) (hg : s'.guard = s.guard)
    (hr : ∀ r, r ∈ s.registered → r ∈ s'.registered) : GuardKnows s' := by
  intro todo ht r hmem
  rw [hg] at ht
  exact hr r (h todo ht r hmem)

theorem step_plain (hp : cfg.policy ≠ .nanoLog) {a : Action} (h : PlainRun s)
    (hstep : step cfg s a = some s') : PlainRun s' := by
  obtain ⟨hi, hg⟩ := h
  by_cases ha : a = .guard
  · subst ha
    exact guard_plain hi hg hstep
  · refine ⟨?_, hg.mono (step_guard_frame ha hstep).1 fun r hr => step_registered hstep hr⟩
    cases a with
    | log t total => exact log_plain hi hstep
    | exit t => exact exit_plain hi hstep
    | thread t => exact thread_plain hi hp (threadStep_move hstep)
    | wake t => exact absurd (wake_inv hstep).1 (hi.not_asleep t)
    | drain => exact drain_plain hi (drainStep_move hstep)
    | guard => exact absurd rfl ha

/-- The life of rings, in every reachable state. -/
theorem reach_plain (hp : cfg.policy ≠ .nanoLog)
    (h : (system cfg).Reach (Sys.init cfg) s) : PlainRun s :=
  Machine.Runs.invariant (I := PlainRun)
    (fun _ _ _ hi _ (hst : step cfg _ _ = some _) => step_plain hp hi hst) h
    ⟨init_plain hp, nofun⟩

end Sys

end Ticklog
