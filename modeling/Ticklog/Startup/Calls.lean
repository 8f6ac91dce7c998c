import Ticklog.Startup.Moves

/-!
# One call owns the statics

The call whose `set` of the registry succeeds is the only one that writes the pool and the ring
capacity, and the only one that can start a drain; every other call returns an error. The
threads change neither, they only take segments out of the pool.
-/

namespace Ticklog

open Lib

namespace Startup

variable {ι : Type} {b : Build} {options : ι → Options}
  {names : Nat → Option String} {s s' : State ι}

/-! ## The owner -/

/-- The call has set the registry. -/
def owns : CallPc → Bool
  | .setSegments _ | .setRingCapacity _ | .spawn _ => true
  | .returned (.ok _) | .returned (.error .drainSpawnFailed) => true
  | _ => false

/-- It has set the pool, too, if there is to be one. -/
def ownsPool : CallPc → Bool
  | .setSegments _ => false
  | pc => owns pc

/-- And the ring capacity. -/
def ownsCapacity : CallPc → Bool
  | .setSegments _ | .setRingCapacity _ => false
  | pc => owns pc

/-- The pattern a call has parsed. -/
def parsed : CallPc → Option LinePattern
  | .setBackpressure p | .setRegistry p | .setSegments p | .setRingCapacity p | .spawn p => some p
  | .fresh | .returned _ => none

/-- A pool without its segments: what `Segments::init` copies from the options. -/
def Segments.settings (pool : Segments) : Segments := { pool with spares := [] }

def settingsOf (o : Options) (pattern : LinePattern) : Segments :=
  ⟨o.backpressure, o.ringCapacity, [], o.timezoneOffset, pattern, o.raw⟩

theorem ownsPool_owns {pc : CallPc} (h : ownsPool pc = true) : owns pc = true := by
  cases pc with
  | setSegments => cases h
  | fresh | setBackpressure | setRegistry | setRingCapacity | spawn | returned => exact h

/-- What a call's position says about the call and the statics. -/
structure CallOk (b : Build) (o : Options) (s : State ι) (i : ι) (pc : CallPc) : Prop where
  parsed : ∀ p, parsed pc = some p → validate b o = .ok p
  pooled : ∀ p, pc = .setSegments p → pools b o = true ∧ s.segments = none
  pool : ownsPool pc = true → pools b o = true → s.segments.isSome = true
  capacity : ownsCapacity pc = true → s.ringCapacity = some o.ringCapacity
  /-- Its drain is not there before its `Ok`. -/
  undrained : owns pc = true → pc ≠ .returned (.ok ()) → s.drains = []
  started : pc = .returned (.ok ()) → ∃ p, validate b o = .ok p ∧
    s.drains = [⟨i, o.timezoneOffset, p, pools b o⟩]

/-- The calls and the statics. -/
structure CallInv (b : Build) (options : ι → Options) (s : State ι) : Prop where
  calls : ∀ i, CallOk b (options i) s i (s.calls i)
  unique : ∀ i j, owns (s.calls i) = true → owns (s.calls j) = true → i = j
  claimed : ∀ i, owns (s.calls i) = true → s.registry.isSome = true
  valid : ∀ i, owns (s.calls i) = true → ∃ p, validate b (options i) = .ok p
  registry : s.registry.isSome = true → ∃ i, owns (s.calls i) = true
  segments : ∀ pool, s.segments = some pool → ∃ i p, ownsPool (s.calls i) = true ∧
    validate b (options i) = .ok p ∧ pools b (options i) = true ∧
      pool.settings = settingsOf (options i) p
  capacity : ∀ c, s.ringCapacity = some c → ∃ i, ownsCapacity (s.calls i) = true
  drains : s.drains ≠ [] → ∃ i, s.calls i = .returned (.ok ())
  failed : ∀ i e, s.calls i = .returned (.error e) →
    validate b (options i) = .error e ∨
      (e = .alreadyInitialized ∧ ∃ w, w ≠ i ∧ owns (s.calls w) = true) ∨ e = .drainSpawnFailed

/-- Before the registry is set nothing else is. -/
theorem CallInv.untouched (h : CallInv b options s) (hnone : s.registry = none) :
    s.segments = none ∧ s.drains = [] := by
  have hnobody : ∀ j, owns (s.calls j) = false := by
    intro j
    by_contra hj
    rw [Bool.not_eq_false] at hj
    have hsome := h.claimed j hj
    rw [hnone] at hsome
    cases hsome
  constructor
  · cases hseg : s.segments with
    | none => rfl
    | some pool =>
      obtain ⟨j, -, hj, -⟩ := h.segments pool hseg
      have hj' := ownsPool_owns hj
      rw [hnobody j] at hj'
      cases hj'
  · by_contra hne
    obtain ⟨j, hj⟩ := h.drains hne
    have hj' := hnobody j
    rw [hj] at hj'
    cases hj'

/-! ## Threads keep it -/

/-- The statics as the calls see them. -/
structure SameStatics (s s' : State ι) : Prop where
  calls : s'.calls = s.calls
  registry : s'.registry.isSome = s.registry.isSome
  segments : s'.segments.map Segments.settings = s.segments.map Segments.settings
  ringCapacity : s'.ringCapacity = s.ringCapacity
  drains : s'.drains = s.drains

theorem SameStatics.isSome (h : SameStatics s s') : s'.segments.isSome = s.segments.isSome := by
  have heq := congrArg Option.isSome h.segments
  rwa [Option.isSome_map, Option.isSome_map] at heq

theorem CallInv.same (h : CallInv b options s) (hs : SameStatics s s') :
    CallInv b options s' where
  calls i := by
    rw [hs.calls]
    refine ⟨(h.calls i).parsed, ?_, ?_, ?_, ?_, ?_⟩
    · intro p hpc
      obtain ⟨hpools, hnone⟩ := (h.calls i).pooled p hpc
      refine ⟨hpools, ?_⟩
      rw [← Option.not_isSome_iff_eq_none, hs.isSome, hnone]
      nofun
    · rw [hs.isSome]
      exact (h.calls i).pool
    · rw [hs.ringCapacity]
      exact (h.calls i).capacity
    · rw [hs.drains]
      exact (h.calls i).undrained
    · rw [hs.drains]
      exact (h.calls i).started
  unique := by
    rw [hs.calls]
    exact h.unique
  claimed := by
    rw [hs.calls, hs.registry]
    exact h.claimed
  valid := by
    rw [hs.calls]
    exact h.valid
  registry := by
    rw [hs.calls, hs.registry]
    exact h.registry
  segments := by
    intro pool hpool
    have heq : s.segments.map Segments.settings = some pool.settings := by
      rw [← hs.segments, hpool]
      rfl
    obtain ⟨pool₀, hpool₀, hset⟩ := Option.map_eq_some_iff.mp heq
    obtain ⟨i, p, hi, hv, hp, hsettings⟩ := h.segments pool₀ hpool₀
    rw [hs.calls]
    exact ⟨i, p, hi, hv, hp, hset ▸ hsettings⟩
  capacity := by
    rw [hs.calls, hs.ringCapacity]
    exact h.capacity
  drains := by
    rw [hs.calls, hs.drains]
    exact h.drains
  failed := by
    rw [hs.calls]
    exact h.failed

variable [DecidableEq ι]

/-! ## The calls keep it -/

end Startup

end Ticklog
