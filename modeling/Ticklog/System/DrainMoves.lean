import Ticklog.System.Frame

/-!
# What the drain can do

`drainStep` once more as the list of its accesses, each with its guard. The scans of
`sync_rings` are taken apart once further, by phase.
-/

namespace Ticklog

/-- Why `maybe_retire` keeps an entry. -/
def Retire.Fails (s : Sys) (r k : Nat) : Retire → Prop
  | .handedOff => (s.rings r).handedOff = false
  | .reserved => (s.rings r).helperReserved = true
  | .serial => (s.rings r).serial ≠ k
  | .head => False
  | .tail h => h ≠ (s.rings r).tail
  | .locked => (s.rings r).serial ≠ k ∨ r ∉ s.registry

/-- Everything `drainStep` does. -/
inductive DrainMove (cfg : Config) (s : Sys) : Sys → Prop where
  | leave :
      s.drain.pc = .top → s.shutdown = true →
      DrainMove cfg s { s with drain := { s.drain with last := true, pc := .lock } }
  | enter {pc : LoopPc} :
      s.drain.pc = .top → s.shutdown = false →
      (pc = .lock ∨ cfg.segmented = false ∧ pc = .entry 0) →
      DrainMove cfg s { s with drain := { s.drain with
        sinceSync := (s.drain.sinceSync + 1) % 2 ^ 32, hadWork := false, pc := pc } }
  | lock :
      s.drain.pc = .lock → s.registryLocked = false →
      DrainMove cfg s { s with drain := { s.drain with
        finalize := [], pc := .sync (.scanRegistry s.registry) false } }
  | syncNext {phase : SyncPhase} {half : Bool} :
      s.drain.pc = .sync phase half → s.syncSubject phase = none →
      DrainMove cfg s (s.syncNext phase)
  | syncHalf {phase : SyncPhase} {r : Nat} :
      s.drain.pc = .sync phase false → s.syncSubject phase = some r →
      (s.rings r).live = false → DrainMove cfg s (s.drainTo (.sync phase true))
  | syncLive {phase : SyncPhase} {r : Nat} :
      s.drain.pc = .sync phase false → s.syncSubject phase = some r →
      (s.rings r).live = true → DrainMove cfg s (s.syncDecide true phase)
  | syncDead {phase : SyncPhase} {r : Nat} :
      s.drain.pc = .sync phase true → s.syncSubject phase = some r →
      DrainMove cfg s (s.syncDecide (s.rings r).helperReserved phase)
  | finalRing {r : Nat} {rest : List Nat} :
      s.drain.pc = .finalNext → s.drain.finalize = r :: rest →
      DrainMove cfg s { s with drain := { s.drain with finalize := rest, pc := .mark .final r } }
  | finalDone :
      s.drain.pc = .finalNext → s.drain.finalize = [] →
      DrainMove cfg s { s with drain := { s.drain with hadWork := false, pc := .entry 0 } }
  | entry {i r k : Nat} :
      s.drain.pc = .entry i → s.drain.rings[i]? = some (r, k) → (s.rings r).serial = k →
      DrainMove cfg s (s.drainTo (.reserved i r k))
  | stale {i r k : Nat} :
      s.drain.pc = .entry i → s.drain.rings[i]? = some (r, k) → (s.rings r).serial ≠ k →
      DrainMove cfg s (s.drainTo (.entry (i + 1)))
  | pollDone {i : Nat} {pc : LoopPc} :
      s.drain.pc = .entry i → s.drain.rings[i]? = none →
      (cfg.segmented = true ∧ pc = .takeLines ∨ cfg.segmented = false ∧ pc = .decide) →
      DrainMove cfg s (s.drainTo pc)
  | skip {i r k : Nat} :
      s.drain.pc = .reserved i r k → (s.rings r).helperReserved = true →
      DrainMove cfg s (s.drainTo (.entry (i + 1)))
  | unreserved {i r k : Nat} :
      s.drain.pc = .reserved i r k → (s.rings r).helperReserved = false →
      DrainMove cfg s (s.drainTo (.mark (.poll i k) r))
  | mark {ctx : PassCtx} {r : Nat} :
      s.drain.pc = .mark ctx r →
      DrainMove cfg s
        ((s.setRing r { s.rings r with draining := true }).drainTo (.pass ctx r .loadTail))
  | passDone {ctx : PassCtx} {r : Nat} :
      s.drain.pc = .pass ctx r .finished → DrainMove cfg s (s.drainTo (.clear ctx r))
  | pass {ctx : PassCtx} {r : Nat} {p p' : Pass} {ring' : Ring} {x : Option Rec} :
      s.drain.pc = .pass ctx r p → p ≠ .finished → Pass.step (s.rings r) p = (p', ring', x) →
      DrainMove cfg s
        ((Sys.acceptAll (Sys.PassCtx.path ctx) x.toList (s.setRing r ring')).drainTo
          (.pass ctx r p'))
  | clear {ctx : PassCtx} {r : Nat} :
      s.drain.pc = .clear ctx r →
      DrainMove cfg s
        ((s.setRing r { s.rings r with draining := false }).drainTo (Sys.afterPass cfg ctx r))
  | keepEntry {i r k : Nat} {test : Retire} :
      s.drain.pc = .retire i r k test → test.Fails s r k →
      DrainMove cfg s (s.drainTo (.entry (i + 1)))
  | handedOff {i r k : Nat} :
      s.drain.pc = .retire i r k .handedOff → (s.rings r).handedOff = true →
      DrainMove cfg s (s.drainTo (.retire i r k .reserved))
  | notReserved {i r k : Nat} :
      s.drain.pc = .retire i r k .reserved → (s.rings r).helperReserved = false →
      DrainMove cfg s (s.drainTo (.retire i r k .serial))
  | sameSerial {i r k : Nat} :
      s.drain.pc = .retire i r k .serial → (s.rings r).serial = k →
      DrainMove cfg s (s.drainTo (.retire i r k .head))
  | loadHead {i r k : Nat} :
      s.drain.pc = .retire i r k .head →
      DrainMove cfg s (s.drainTo (.retire i r k (.tail (s.rings r).head)))
  | drained {i r k : Nat} :
      s.drain.pc = .retire i r k (.tail (s.rings r).tail) →
      DrainMove cfg s (s.drainTo (.retire i r k .locked))
  | retired {i r k : Nat} :
      s.drain.pc = .retire i r k .locked → s.registryLocked = false →
      (s.rings r).serial = k → r ∈ s.registry →
      DrainMove cfg s { s with
        registry := s.registry.filter (· ≠ r)
        drain := { s.drain with
          rings := swapRemove s.drain.rings i
          pc := if cfg.segmented then .markRecycled (.poll i k) r else .entry i } }
  | markRecycled {ctx : PassCtx} {r : Nat} :
      s.drain.pc = .markRecycled ctx r → (s.rings r).recyclable = true →
      (s.rings r).recycled = false →
      DrainMove cfg s
        ((s.setRing r { s.rings r with recycled := true }).drainTo (.recycle ctx r))
  | notRecycled {ctx : PassCtx} {r : Nat} :
      s.drain.pc = .markRecycled ctx r →
      ((s.rings r).recyclable = false ∨ (s.rings r).recycled = true) →
      DrainMove cfg s (s.drainTo (Sys.afterRecycle ctx))
  | recycle {ctx : PassCtx} {r : Nat} :
      s.drain.pc = .recycle ctx r →
      DrainMove cfg s ((s.recycle r).drainTo (Sys.afterRecycle ctx))
  | takeLines :
      s.drain.pc = .takeLines → DrainMove cfg s ({ s with lines := [] }.drainTo (.deliver s.lines))
  | deliver {x : Rec} {rest : List Rec} :
      s.drain.pc = .deliver (x :: rest) →
      DrainMove cfg s ((Sys.acceptAll .queue [x] s).drainTo (.deliver rest))
  | delivered :
      s.drain.pc = .deliver [] → DrainMove cfg s (s.drainTo .decide)
  | lastPoll :
      s.drain.pc = .decide → s.drain.last = true → DrainMove cfg s (s.drainTo .flush)
  | worked :
      s.drain.pc = .decide → s.drain.last = false → s.drain.hadWork = true →
      DrainMove cfg s { s with drain := { s.drain with dirty := true, pc := .top } }
  | idleDirty :
      s.drain.pc = .decide → s.drain.last = false → s.drain.hadWork = false →
      s.drain.dirty = true → DrainMove cfg s (s.drainTo .flush)
  | idleClean :
      s.drain.pc = .decide → s.drain.last = false → s.drain.hadWork = false →
      s.drain.dirty = false → DrainMove cfg s (s.drainTo .idle)
  | lastFlush :
      s.drain.pc = .flush → s.drain.last = true →
      DrainMove cfg s ({ s with sink := s.sink ++ [Event.flush] }.drainTo .stopped)
  | flush :
      s.drain.pc = .flush → s.drain.last = false →
      DrainMove cfg s { s with
        sink := s.sink ++ [Event.flush], drain := { s.drain with dirty := false, pc := .idle } }
  | again :
      s.drain.pc = .idle → DrainMove cfg s (s.drainTo .top)

namespace Sys

variable {cfg : Config} {s s' : Sys}

theorem topStep_move (hpc : s.drain.pc = .top) : DrainMove cfg s (topStep cfg s) := by
  unfold topStep
  by_cases hsh : s.shutdown = true
  · rw [if_pos hsh]
    exact .leave hpc hsh
  · rw [if_neg hsh]
    refine .enter hpc (Bool.eq_false_iff.mpr hsh) ?_
    by_cases hseg : cfg.segmented = true
    · -- a sync on every pass
      left
      simp [hseg, Nat.mod_one]
    · have hseg' := Bool.eq_false_iff.mpr hseg
      by_cases hdue : s.drain.sinceSync % syncEvery = 0
      · left
        simp [hseg', hdue]
      · right
        exact ⟨hseg', by simp [hseg', hdue]⟩

theorem syncStep_move {phase : SyncPhase} {half : Bool} (hpc : s.drain.pc = .sync phase half) :
    DrainMove cfg s (syncStep phase half s) := by
  unfold syncStep
  cases hsub : s.syncSubject phase with
  | none => exact .syncNext hpc hsub
  | some r =>
    cases half with
    | true => exact .syncDead hpc hsub
    | false =>
      by_cases hlive : (s.rings r).live = true
      · simp only [hlive, if_true, Bool.false_eq_true, if_false]
        exact .syncLive hpc hsub hlive
      · simp only [hlive, Bool.false_eq_true, if_false]
        exact .syncHalf hpc hsub (Bool.eq_false_iff.mpr hlive)

theorem passStep_move {ctx : PassCtx} {r : Nat} {p : Pass} (hpc : s.drain.pc = .pass ctx r p) :
    DrainMove cfg s (passStep ctx r p s) := by
  unfold passStep
  split
  next => exact .passDone hpc
  next p hp => exact .pass hpc hp rfl

theorem retireStep_move {i r k : Nat} {test : Retire} (hpc : s.drain.pc = .retire i r k test)
    (h : retireStep cfg i r k test s = some s') : DrainMove cfg s s' := by
  unfold retireStep at h
  cases test with
  | handedOff =>
    simp only [Option.some.injEq] at h
    split at h
    next hh => exact h ▸ .handedOff hpc hh
    next hh => exact h ▸ .keepEntry hpc (Bool.eq_false_iff.mpr hh)
  | reserved =>
    simp only [Option.some.injEq] at h
    split at h
    next hh => exact h ▸ .keepEntry hpc hh
    next hh => exact h ▸ .notReserved hpc (Bool.eq_false_iff.mpr hh)
  | serial =>
    simp only [Option.some.injEq] at h
    split at h
    next hh => exact h ▸ .sameSerial hpc hh
    next hh => exact h ▸ .keepEntry hpc hh
  | head =>
    simp only [Option.some.injEq] at h
    exact h ▸ .loadHead hpc
  | tail head =>
    simp only [Option.some.injEq] at h
    split at h
    next hh =>
      subst hh
      exact h ▸ .drained hpc
    next hh => exact h ▸ .keepEntry hpc hh
  | locked =>
    simp only at h
    split at h
    next => cases h
    next hl =>
      split at h
      next hh =>
        cases h
        exact .keepEntry hpc hh
      next hok =>
        cases h
        obtain ⟨hk, hr⟩ := not_or.mp hok
        exact .retired hpc (Bool.eq_false_iff.mpr hl) (not_not.mp hk) (not_not.mp hr)

theorem decideStep_move (hpc : s.drain.pc = .decide) : DrainMove cfg s (decideStep s) := by
  unfold decideStep
  by_cases hl : s.drain.last = true
  · rw [if_pos hl]
    exact .lastPoll hpc hl
  · have hl' := Bool.eq_false_iff.mpr hl
    rw [if_neg hl]
    by_cases hw : s.drain.hadWork = true
    · rw [if_pos hw]
      exact .worked hpc hl' hw
    · have hw' := Bool.eq_false_iff.mpr hw
      rw [if_neg hw]
      by_cases hd : s.drain.dirty = true
      · rw [if_pos hd]
        exact .idleDirty hpc hl' hw' hd
      · rw [if_neg hd]
        exact .idleClean hpc hl' hw' (Bool.eq_false_iff.mpr hd)

/-- Every access of the drain is one of the moves. -/
theorem drainStep_move (h : drainStep cfg s = some s') : DrainMove cfg s s' := by
  unfold drainStep at h
  split at h
  next hpc =>
    cases h
    exact topStep_move hpc
  next hpc =>
    split at h
    next => cases h
    next hl =>
      cases h
      exact .lock hpc (Bool.eq_false_iff.mpr hl)
  next hpc =>
    cases h
    exact syncStep_move hpc
  next hpc =>
    split at h
    next r rest hf =>
      cases h
      exact .finalRing hpc hf
    next hf =>
      cases h
      exact .finalDone hpc hf
  next hpc =>
    split at h
    next r k he =>
      split at h
      next hk =>
        cases h
        exact .entry hpc he hk
      next hk =>
        cases h
        exact .stale hpc he hk
    next he =>
      split at h
      next hseg =>
        cases h
        exact .pollDone hpc he (Or.inl ⟨hseg, rfl⟩)
      next hseg =>
        cases h
        exact .pollDone hpc he (Or.inr ⟨Bool.eq_false_iff.mpr hseg, rfl⟩)
  next hpc =>
    split at h
    next hr =>
      cases h
      exact .skip hpc hr
    next hr =>
      cases h
      exact .unreserved hpc (Bool.eq_false_iff.mpr hr)
  next hpc =>
    cases h
    exact .mark hpc
  next hpc =>
    cases h
    exact passStep_move hpc
  next hpc =>
    cases h
    exact .clear hpc
  next hpc => exact retireStep_move hpc h
  next hpc =>
    split at h
    next hr =>
      cases h
      simp only [Bool.and_eq_true, Bool.not_eq_true'] at hr
      exact .markRecycled hpc hr.1 hr.2
    next hr =>
      cases h
      refine .notRecycled hpc ?_
      simp only [Bool.and_eq_true, Bool.not_eq_true', not_and_or, Bool.not_eq_true,
        Bool.not_eq_false] at hr
      exact hr
  next hpc =>
    cases h
    exact .recycle hpc
  next hpc =>
    cases h
    exact .takeLines hpc
  next hpc =>
    cases h
    exact .deliver hpc
  next hpc =>
    cases h
    exact .delivered hpc
  next hpc =>
    cases h
    exact decideStep_move hpc
  next hpc =>
    simp only at h
    split at h
    next hl =>
      cases h
      exact .lastFlush hpc hl
    next hl =>
      cases h
      exact .flush hpc (Bool.eq_false_iff.mpr hl)
  next hpc =>
    cases h
    exact .again hpc
  next => cases h

/-! ## Frames of the scans -/

/-- Positions under the registry lock, and the one that releases it. -/
def syncing : LoopPc → Bool
  | .sync _ _ | .finalNext => true
  | _ => false

/-- A scan touches the local list, the finalize list and the position. -/
structure ScanFrame (s s' : Sys) : Prop where
  rings : s'.rings = s.rings
  nextRing : s'.nextRing = s.nextRing
  nextSerial : s'.nextSerial = s.nextSerial
  spares : s'.spares = s.spares
  lines : s'.lines = s.lines
  threads : s'.threads = s.threads
  guard : s'.guard = s.guard
  shutdown : s'.shutdown = s.shutdown
  sink : s'.sink = s.sink
  published : s'.published = s.published
  registered : s'.registered = s.registered
  sinceSync : s'.drain.sinceSync = s.drain.sinceSync
  dirty : s'.drain.dirty = s.drain.dirty
  hadWork : s'.drain.hadWork = s.drain.hadWork
  last : s'.drain.last = s.drain.last

theorem syncNext_frame (phase : SyncPhase) : ScanFrame s (syncNext s phase) := by
  cases phase with
  | reconcile i =>
    simp only [syncNext]
    split <;> exact ⟨rfl, rfl, rfl, rfl, rfl, rfl, rfl, rfl, rfl, rfl, rfl, rfl, rfl, rfl, rfl⟩
  | scanRegistry | scanLocal | addNew | retain =>
    exact ⟨rfl, rfl, rfl, rfl, rfl, rfl, rfl, rfl, rfl, rfl, rfl, rfl, rfl, rfl, rfl⟩

theorem syncDecide_frame (keep : Bool) (phase : SyncPhase) :
    ScanFrame s (syncDecide keep s phase) := by
  unfold syncDecide
  repeat' split
  all_goals exact ⟨rfl, rfl, rfl, rfl, rfl, rfl, rfl, rfl, rfl, rfl, rfl, rfl, rfl, rfl, rfl⟩

theorem syncNext_syncing (phase : SyncPhase) :
    syncing (syncNext s phase).drain.pc = true := by
  cases phase with
  | reconcile i =>
    simp only [syncNext]
    split <;> rfl
  | scanRegistry todo => rfl
  | scanLocal todo => rfl
  | addNew todo => rfl
  | retain todo kept => rfl

theorem syncDecide_syncing {keep half : Bool} {phase : SyncPhase}
    (hpc : s.drain.pc = .sync phase half) :
    syncing (syncDecide keep s phase).drain.pc = true := by
  unfold syncDecide
  repeat' split
  all_goals first | rfl | rw [hpc]; rfl

/-! ## Frames of the passes -/

@[simp] theorem acceptAll_rings (path : Path) (xs : List Rec) :
    (acceptAll path xs s).rings = s.rings := rfl
@[simp] theorem acceptAll_threads (path : Path) (xs : List Rec) :
    (acceptAll path xs s).threads = s.threads := rfl
@[simp] theorem acceptAll_registry (path : Path) (xs : List Rec) :
    (acceptAll path xs s).registry = s.registry := rfl
@[simp] theorem acceptAll_spares (path : Path) (xs : List Rec) :
    (acceptAll path xs s).spares = s.spares := rfl
@[simp] theorem acceptAll_lines (path : Path) (xs : List Rec) :
    (acceptAll path xs s).lines = s.lines := rfl
@[simp] theorem acceptAll_guard (path : Path) (xs : List Rec) :
    (acceptAll path xs s).guard = s.guard := rfl
@[simp] theorem acceptAll_published (path : Path) (xs : List Rec) :
    (acceptAll path xs s).published = s.published := rfl
@[simp] theorem acceptAll_registered (path : Path) (xs : List Rec) :
    (acceptAll path xs s).registered = s.registered := rfl
@[simp] theorem acceptAll_nextRing (path : Path) (xs : List Rec) :
    (acceptAll path xs s).nextRing = s.nextRing := rfl
@[simp] theorem acceptAll_nextSerial (path : Path) (xs : List Rec) :
    (acceptAll path xs s).nextSerial = s.nextSerial := rfl
@[simp] theorem acceptAll_sink (path : Path) (xs : List Rec) :
    (acceptAll path xs s).sink = s.sink ++ xs.map (Event.accept path) := rfl

/-- The sink's records after a delivery. -/
theorem delivered_acceptAll (path : Path) (xs : List Rec) :
    (acceptAll path xs s).delivered = s.delivered ++ xs := by
  unfold delivered
  rw [acceptAll_sink, List.filterMap_append, List.filterMap_map]
  congr 1
  exact List.filterMap_some

/-- A ring after an access of the drain: only its own index, the cached head and the
drain's two flags may differ. -/
structure DrainFrame (a b : Ring) : Prop where
  cells : b.cells = a.cells
  stale : b.stale = a.stale
  live : b.live = a.live
  threadId : b.threadId = a.threadId
  serial : b.serial = a.serial
  helperReserved : b.helperReserved = a.helperReserved
  recyclable : b.recyclable = a.recyclable
  handedOff : b.handedOff = a.handedOff

theorem DrainFrame.rfl' {a : Ring} : DrainFrame a a :=
  ⟨rfl, rfl, rfl, rfl, rfl, rfl, rfl, rfl⟩

theorem DrainFrame.storage {a b : Ring} (h : DrainFrame a b) : b.storage = a.storage := by
  unfold Ring.storage
  rw [h.cells, h.stale]

/-- One ring replaced by a drain successor of itself. -/
theorem DrainFrame.update {r : Nat} {v : Ring} (h : DrainFrame (s.rings r) v) (r' : Nat) :
    DrainFrame (s.rings r') (Function.update s.rings r v r') := by
  by_cases hr : r' = r
  · subst hr
    rw [Function.update_self]
    exact h
  · rw [Function.update_of_ne hr]
    exact .rfl'

theorem Pass.step_frame {ring ring' : Ring} {p p' : Pass} {x : Option Rec}
    (h : Pass.step ring p = (p', ring', x)) : DrainFrame ring ring' := by
  cases p with
  | loadTail => cases h; exact .rfl'
  | loadCache t =>
    simp only [Pass.step] at h
    split at h
    all_goals cases h; exact .rfl'
  | loadHead t =>
    simp only [Pass.step] at h
    split at h
    all_goals cases h; exact .rfl'
  | scan t hc =>
    simp only [Pass.step] at h
    repeat' split at h
    all_goals
      cases h
      exact .rfl'
  | storeTail t hc => cases h; exact ⟨rfl, rfl, rfl, rfl, rfl, rfl, rfl, rfl⟩
  | storeCache hc => cases h; exact ⟨rfl, rfl, rfl, rfl, rfl, rfl, rfl, rfl⟩
  | finished => cases h; exact .rfl'

/-- The drain changes of a ring only what is the drain's. -/
theorem drain_ring_frame (hm : DrainMove cfg s s') (r : Nat) :
    DrainFrame (s.rings r) (s'.rings r) := by
  cases hm with
  | syncNext hpc hsub => rw [(syncNext_frame _).rings]; exact .rfl'
  | syncLive hpc hsub hl => rw [(syncDecide_frame _ _).rings]; exact .rfl'
  | syncDead hpc hsub => rw [(syncDecide_frame _ _).rings]; exact .rfl'
  | mark hpc =>
    show DrainFrame (s.rings r) (Function.update s.rings _ _ r)
    refine DrainFrame.update ?_ r
    exact ⟨rfl, rfl, rfl, rfl, rfl, rfl, rfl, rfl⟩
  | pass hpc hp hstep =>
    show DrainFrame (s.rings r) (Function.update s.rings _ _ r)
    exact DrainFrame.update (Pass.step_frame hstep) r
  | clear hpc =>
    show DrainFrame (s.rings r) (Function.update s.rings _ _ r)
    refine DrainFrame.update ?_ r
    exact ⟨rfl, rfl, rfl, rfl, rfl, rfl, rfl, rfl⟩
  | markRecycled hpc h1 h2 =>
    show DrainFrame (s.rings r) (Function.update s.rings _ _ r)
    refine DrainFrame.update ?_ r
    exact ⟨rfl, rfl, rfl, rfl, rfl, rfl, rfl, rfl⟩
  | leave | enter | lock | syncHalf | finalRing | finalDone | entry | stale | pollDone | skip
  | unreserved | passDone | keepEntry | handedOff | notReserved | sameSerial | loadHead
  | drained | retired | notRecycled | recycle | takeLines | deliver | delivered | lastPoll
  | worked | idleDirty | idleClean | lastFlush | flush | again => exact .rfl'

/-- What the drain never touches. -/
structure DrainKeeps (s s' : Sys) : Prop where
  nextRing : s'.nextRing = s.nextRing
  nextSerial : s'.nextSerial = s.nextSerial
  published : s'.published = s.published
  registered : s'.registered = s.registered
  guard : s'.guard = s.guard
  shutdown : s'.shutdown = s.shutdown

theorem drain_keeps (hm : DrainMove cfg s s') : DrainKeeps s s' := by
  have hscan : ∀ {s' : Sys}, ScanFrame s s' → DrainKeeps s s' := fun hf =>
    ⟨hf.nextRing, hf.nextSerial, hf.published, hf.registered, hf.guard, hf.shutdown⟩
  cases hm with
  | syncNext hpc hsub => exact hscan (syncNext_frame _)
  | syncLive hpc hsub hl => exact hscan (syncDecide_frame _ _)
  | syncDead hpc hsub => exact hscan (syncDecide_frame _ _)
  | _ => exact ⟨rfl, rfl, rfl, rfl, rfl, rfl⟩

/-- The drain moves no thread that is not asleep on the pool. -/
theorem drain_threads (hm : DrainMove cfg s s') {t : Nat} (ht : (s.threads t).pc ≠ .asleep) :
    s'.threads t = s.threads t := by
  cases hm with
  | syncNext hpc hsub => rw [(syncNext_frame _).threads]
  | syncLive hpc hsub hl => rw [(syncDecide_frame _ _).threads]
  | syncDead hpc hsub => rw [(syncDecide_frame _ _).threads]
  | recycle hpc =>
    rw [drainTo_threads, recycle_threads, if_neg ht]
  | _ => rfl

/-! ## The rings the drain knows -/

/-- The rings a position of the drain speaks of. -/
def mentions : LoopPc → List Nat
  | .sync (.scanRegistry todo) _ => todo
  | .sync (.scanLocal todo) _ => todo.map Prod.fst
  | .sync (.addNew todo) _ => todo
  | .sync (.retain todo kept) _ => kept ++ todo
  | .reserved _ r _ | .mark _ r | .pass _ r _ | .clear _ r => [r]
  | .retire _ r _ _ | .markRecycled _ r | .recycle _ r => [r]
  | _ => []

/-- The rings in the registry or anywhere in the drain's own state. -/
def Known (s : Sys) (r : Nat) : Prop :=
  r ∈ s.registry ∨ r ∈ s.drain.rings.map Prod.fst ∨ r ∈ s.drain.finalize ∨
    r ∈ mentions s.drain.pc

theorem mem_swapRemove {α : Type} {l : List α} {i : Nat} {x : α} (h : x ∈ swapRemove l i) :
    x ∈ l := by
  unfold swapRemove at h
  split at h
  next y hy =>
    rcases List.mem_or_eq_of_mem_set (List.dropLast_subset _ h) with h | h
    · exact h
    · exact h ▸ List.mem_of_getLast? hy
  next => exact h

/-- The entries before the removed one stay where they are. -/
theorem swapRemove_take {α : Type} (l : List α) {i : Nat} (hi : i < l.length) :
    (swapRemove l i).take i = l.take i := by
  unfold swapRemove
  split
  next x hl =>
    refine List.ext_getElem? fun j => ?_
    by_cases hj : j < i
    · have hj' : j < (l.set i x).length - 1 := by
        rw [List.length_set]
        omega
      rw [List.getElem?_take_of_lt hj, List.getElem?_take_of_lt hj, List.dropLast_eq_take,
        List.getElem?_take_of_lt hj', List.getElem?_set_ne (by omega)]
    · rw [List.getElem?_eq_none, List.getElem?_eq_none]
      · rw [List.length_take]
        omega
      · rw [List.length_take]
        omega
  next => rfl

/-- The entry taken out and the rest are the list. -/
theorem swapRemove_perm {α : Type} {l : List α} {i : Nat} {x : α} (h : l[i]? = some x) :
    (x :: swapRemove l i).Perm l := by
  unfold swapRemove
  rcases List.eq_nil_or_concat l with rfl | ⟨init, y, rfl⟩
  · cases h
  · rw [List.concat_eq_append] at h ⊢
    rw [List.getLast?_append, List.getLast?_singleton, Option.some_or]
    dsimp only
    by_cases hi : i < init.length
    · rw [List.getElem?_append_left hi] at h
      obtain ⟨hi', hx⟩ := List.getElem?_eq_some_iff.mp h
      have hsplit : init = init.take i ++ x :: init.drop (i + 1) := by
        rw [← hx, List.getElem_cons_drop, List.take_append_drop]
      rw [List.set_append_left _ _ hi, List.dropLast_concat, List.set_eq_take_append_cons_drop,
        if_pos hi]
      conv_rhs => rw [hsplit]
      rw [List.append_assoc, List.cons_append]
      refine List.Perm.trans ?_ (List.perm_middle.symm)
      refine List.Perm.cons x (List.Perm.append_left _ ?_)
      exact (List.perm_append_singleton _ _).symm
    · have hl : (init ++ [y]).length = init.length + 1 := by simp
      obtain ⟨hi', hx⟩ := List.getElem?_eq_some_iff.mp h
      have hieq : i = init.length := by omega
      subst hieq
      rw [List.getElem_concat_length rfl] at hx
      subst hx
      rw [List.set_append_right _ _ (Nat.le_refl _), Nat.sub_self, List.set_cons_zero,
        List.dropLast_concat]
      exact (List.perm_append_singleton _ _).symm

/-- Removal names the entries it keeps as before. -/
theorem swapRemove_map {α β : Type} (f : α → β) (l : List α) (i : Nat) :
    (swapRemove l i).map f = swapRemove (l.map f) i := by
  unfold swapRemove
  rw [List.getLast?_map]
  cases l.getLast? with
  | none => rfl
  | some x =>
    simp only [Option.map_some]
    rw [List.map_dropLast, List.map_set]

/-- The last entry in the place of entry `i`, then what lay between them. -/
theorem swapRemove_eq {α : Type} {l : List α} {i : Nat} {x : α} (hi : i + 1 < l.length)
    (hx : l.getLast? = some x) :
    swapRemove l i = l.take i ++ x :: (l.drop (i + 1)).dropLast := by
  rcases List.eq_nil_or_concat l with rfl | ⟨init, y, rfl⟩
  · cases hx
  · rw [List.concat_eq_append] at *
    rw [List.length_append, List.length_singleton] at hi
    have hi' : i < init.length := by omega
    rw [List.getLast?_concat, Option.some.injEq] at hx
    subst hx
    unfold swapRemove
    rw [List.getLast?_concat]
    dsimp only
    rw [List.set_append_left _ _ hi', List.dropLast_concat,
      List.take_append_of_le_length (by omega), List.drop_append_of_le_length (by omega),
      List.dropLast_concat, List.set_eq_take_append_cons_drop, if_pos hi']

/-- Taking out the last entry. -/
theorem swapRemove_last {α : Type} {l : List α} {i : Nat} (hi : i + 1 = l.length) :
    swapRemove l i = l.take i := by
  rcases List.eq_nil_or_concat l with rfl | ⟨init, y, rfl⟩
  · cases hi
  · rw [List.concat_eq_append] at *
    rw [List.length_append, List.length_singleton] at hi
    have hi' : i = init.length := by omega
    subst hi'
    unfold swapRemove
    rw [List.getLast?_concat]
    dsimp only
    rw [List.set_append_right _ _ (Nat.le_refl _), Nat.sub_self, List.set_cons_zero,
      List.dropLast_concat, List.take_left]

/-- What the list without an entry names is named elsewhere in it. -/
theorem swapRemove_fst {α β : Type} {l : List (α × β)} {i : Nat} {e : α × β} (h : l[i]? = some e)
    (hn : (l.map Prod.fst).Nodup) :
    ((swapRemove l i).map Prod.fst).Nodup ∧ e.1 ∉ (swapRemove l i).map Prod.fst := by
  have hp := (swapRemove_perm h).map Prod.fst
  rw [List.map_cons] at hp
  have hn' := List.nodup_cons.mp (hp.nodup_iff.mpr hn)
  exact ⟨hn'.2, hn'.1⟩

/-- Bookkeeping between two scans brings in no ring. -/
theorem syncNext_known {phase : SyncPhase} {half : Bool} {r : Nat}
    (hpc : s.drain.pc = .sync phase half) (h : Known (syncNext s phase) r) : Known s r := by
  unfold Known at *
  rw [hpc]
  cases phase with
  | scanRegistry todo =>
    simp only [syncNext, drainTo_registry, drainTo_drain, mentions] at h
    tauto
  | scanLocal todo =>
    simp only [syncNext, drainTo_registry, drainTo_drain, mentions, List.not_mem_nil] at h
    tauto
  | reconcile i =>
    simp only [syncNext] at h
    split at h
    · simp only [mentions, List.not_mem_nil, or_false] at h
      rcases h with h | h | h
      · exact Or.inl h
      · obtain ⟨e, he, rfl⟩ := List.mem_map.mp h
        exact Or.inr (Or.inl (List.mem_map.mpr ⟨e, mem_swapRemove he, rfl⟩))
      · exact Or.inr (Or.inr (Or.inl h))
    · simp only [drainTo_registry, drainTo_drain, mentions] at h
      tauto
  | addNew todo =>
    simp only [syncNext, drainTo_registry, drainTo_drain, mentions, List.nil_append] at h
    tauto
  | retain todo kept =>
    simp only [syncNext, drainTo_registry, drainTo_drain, mentions, List.not_mem_nil] at h
    rw [mentions, List.mem_append]
    tauto

/-- A verdict of a scan moves the scanned ring between lists the drain has. -/
theorem syncDecide_known {phase : SyncPhase} {half keep : Bool} {r : Nat}
    (hpc : s.drain.pc = .sync phase half) (h : Known (syncDecide keep s phase) r) :
    Known s r := by
  unfold Known at *
  rw [hpc]
  unfold syncDecide at h
  split at h
  next r₀ rest =>
    simp only [mentions, List.mem_cons] at h ⊢
    split at h
    · tauto
    · rw [List.mem_append, List.mem_singleton] at h
      tauto
  next r₀ k₀ rest =>
    simp only [mentions, List.map_cons, List.mem_cons] at h ⊢
    split at h
    · rw [List.mem_append, List.mem_singleton] at h
      tauto
    · tauto
  next i =>
    split at h
    next r₀ k₀ he =>
      have hmem : r₀ ∈ s.drain.rings.map Prod.fst :=
        List.mem_map.mpr ⟨(r₀, k₀), List.mem_of_getElem? he, rfl⟩
      split at h
      · simp only [mentions, List.not_mem_nil, or_false, List.map_set] at h
        rcases h with h | h | h
        · exact Or.inl h
        · rcases List.mem_or_eq_of_mem_set h with h | rfl
          · exact Or.inr (Or.inl h)
          · exact Or.inr (Or.inl hmem)
        · exact Or.inr (Or.inr (Or.inl h))
      · simp only [mentions, List.not_mem_nil, or_false] at h
        rcases h with h | h | h
        · exact Or.inl h
        · obtain ⟨e, he', rfl⟩ := List.mem_map.mp h
          exact Or.inr (Or.inl (List.mem_map.mpr ⟨e, mem_swapRemove he', rfl⟩))
        · exact Or.inr (Or.inr (Or.inl h))
    next => rwa [hpc] at h
  next r₀ rest =>
    simp only [mentions, List.mem_cons] at h ⊢
    split at h
    · rw [List.map_append, List.mem_append] at h
      simp only [List.map_cons, List.map_nil, List.mem_singleton] at h
      tauto
    · tauto
  next r₀ rest kept =>
    simp only [drainTo_registry, drainTo_drain, mentions, List.mem_append, List.mem_cons] at h ⊢
    split at h
    · rw [List.mem_append, List.mem_singleton] at h
      tauto
    · tauto
  next => rwa [hpc] at h

/-- The drain only ever speaks of rings it found in the registry or already had. -/
theorem drain_known (hm : DrainMove cfg s s') {r : Nat} (h : Known s' r) : Known s r := by
  have hentry : ∀ {i r k : Nat}, s.drain.rings[i]? = some (r, k) →
      r ∈ s.drain.rings.map Prod.fst := fun he =>
    List.mem_map.mpr ⟨_, List.mem_of_getElem? he, rfl⟩
  cases hm with
  | syncNext hpc hsub => exact syncNext_known hpc h
  | syncLive hpc hsub hl => exact syncDecide_known hpc h
  | syncDead hpc hsub => exact syncDecide_known hpc h
  | enter hpc hsh hnext =>
    rcases hnext with rfl | ⟨-, rfl⟩
    all_goals
      simp only [Known, mentions, hpc] at h ⊢
      exact h
  | lock hpc hl =>
    simp only [Known, mentions, hpc, List.not_mem_nil] at h ⊢
    tauto
  | @syncHalf phase r₀ hpc hsub hl =>
    simp only [Known, hpc, drainTo_registry, drainTo_drain] at h ⊢
    cases phase <;> exact h
  | @finalRing r₀ rest hpc hf =>
    simp only [Known, hpc, hf, mentions, List.mem_cons, List.not_mem_nil] at h ⊢
    tauto
  | @entry i r₀ k hpc he hk =>
    have hmem := hentry he
    simp only [Known, hpc, mentions, drainTo_registry, drainTo_drain, List.mem_singleton] at h ⊢
    rcases h with h | h | h | rfl
    · exact Or.inl h
    · exact Or.inr (Or.inl h)
    · exact Or.inr (Or.inr (Or.inl h))
    · exact Or.inr (Or.inl hmem)
  | pollDone hpc he hnext =>
    rcases hnext with ⟨-, rfl⟩ | ⟨-, rfl⟩
    all_goals
      simp only [Known, mentions, hpc, drainTo_registry, drainTo_drain] at h ⊢
      exact h
  | @clear ctx r₀ hpc =>
    have hafter : mentions (afterPass cfg ctx r₀) ⊆ [r₀] := by
      cases ctx with
      | final =>
        unfold afterPass
        cases cfg.segmented with
        | true => exact fun _ hx => hx
        | false => exact List.nil_subset _
      | poll i k => exact fun _ hx => hx
    simp only [Known, hpc, drainTo_registry, drainTo_drain, setRing_registry, setRing_drain] at h ⊢
    rcases h with h | h | h | h
    · exact Or.inl h
    · exact Or.inr (Or.inl h)
    · exact Or.inr (Or.inr (Or.inl h))
    · exact Or.inr (Or.inr (Or.inr (hafter h)))
  | @retired i r₀ k hpc hl hk hr =>
    have hmem : ∀ {x : Nat}, x ∈ (swapRemove s.drain.rings i).map Prod.fst →
        x ∈ s.drain.rings.map Prod.fst := by
      intro x hx
      obtain ⟨e, he, rfl⟩ := List.mem_map.mp hx
      exact List.mem_map.mpr ⟨e, mem_swapRemove he, rfl⟩
    simp only [Known, hpc, mentions, List.mem_singleton] at h ⊢
    rcases h with h | h | h | h
    · exact Or.inl (List.mem_of_mem_filter h)
    · exact Or.inr (Or.inl (hmem h))
    · exact Or.inr (Or.inr (Or.inl h))
    · cases hseg : cfg.segmented with
      | true =>
        rw [hseg] at h
        exact Or.inr (Or.inr (Or.inr (List.mem_singleton.mp h)))
      | false =>
        rw [hseg] at h
        cases h
  | @notRecycled ctx r₀ hpc hr =>
    simp only [Known, hpc, mentions, drainTo_registry, drainTo_drain] at h ⊢
    cases ctx <;> simp only [afterRecycle, List.not_mem_nil] at h <;> tauto
  | @recycle ctx r₀ hpc =>
    simp only [Known, hpc, mentions, drainTo_registry, drainTo_drain, recycle_registry,
      recycle_drain] at h ⊢
    cases ctx <;> simp only [afterRecycle, List.not_mem_nil] at h <;> tauto
  | _ =>
    simp only [Known, mentions, acceptAll, drainTo, setRing, List.not_mem_nil, or_false,
      *] at h ⊢
    tauto

end Sys

end Ticklog
