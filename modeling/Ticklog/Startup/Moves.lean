import Mathlib.Data.List.Nodup
import Ticklog.Startup.Machine

/-!
# What an access of the starting process does

One constructor for each access of a thread, with what it finds and what it leaves; the
invariants go by cases on it.
-/

namespace Ticklog

open Lib

namespace Startup

variable {ι : Type} {b : Build} {options : ι → Options} {names : Nat → Option String}
  {s s' : State ι}

/-- The accesses of a thread, with what each finds. -/
inductive SlotMove (b : Build) (name : Option String) (s : State ι) (t : Nat) :
    State ι → Prop where
  | refuse : (s.threads t).active = true →
      SlotMove b name s t (s.setThread t { s.threads t with
        entered := (s.threads t).entered + 1, refused := (s.threads t).refused + 1 })
  | again : (s.threads t).active = false → (s.threads t).buf.isSome = true →
      SlotMove b name s t (s.setThread t { s.threads t with
        entered := (s.threads t).entered + 1, active := true, pc := .running,
        ran := (s.threads t).ran + 1 })
  | first : (s.threads t).active = false → (s.threads t).buf = none →
      SlotMove b name s t (s.setThread t { s.threads t with
        entered := (s.threads t).entered + 1, active := true, pc := .ringCapacity })
  | unready : s.registry = none → mayCall (s.threads t).pc = true →
      SlotMove b name s t (s.setThread t { s.threads t with
        unready := (s.threads t).unready + 1 })
  | ringCapacity : (s.threads t).pc = .ringCapacity →
      SlotMove b name s t (s.setThread t { s.threads t with
        pc := .installed (s.ringCapacity.getD defaultRingSize) })
  | installed {capacity : Nat} : (s.threads t).pc = .installed capacity →
      SlotMove b name s t (s.setThread t { s.threads t with
        pc := .allocate capacity (!b.fifo && s.segments.isSome) })
  | spare {capacity r : Nat} {rest : List Nat} {pool : Segments} :
      (s.threads t).pc = .allocate capacity true → s.segments = some pool →
      pool.spares = r :: rest →
      SlotMove b name s t ({ s with segments := some { pool with spares := rest } }.setThread t
        { s.threads t with pc := .setThreadInfo ⟨r, pool.ringCapacity, .pool, 0, []⟩ })
  | carve {capacity : Nat} {pool : Segments} :
      (s.threads t).pc = .allocate capacity true → s.segments = some pool → pool.spares = [] →
      SlotMove b name s t ({ s with nextRing := s.nextRing + 1 }.setThread t
        { s.threads t with
          pc := .setThreadInfo ⟨s.nextRing, pool.ringCapacity, .arena, 0, []⟩ })
  | heap {capacity : Nat} : (s.threads t).pc = .allocate capacity false →
      SlotMove b name s t ({ s with nextRing := s.nextRing + 1 }.setThread t
        { s.threads t with pc := .setThreadInfo ⟨s.nextRing, capacity, .heap, 0, []⟩ })
  | setThreadInfo {ring : NewRing} : (s.threads t).pc = .setThreadInfo ring →
      SlotMove b name s t (s.setThread t { s.threads t with
        pc := .register { ring with threadId := t, threadName := threadName name } })
  | register {ring : NewRing} {rings : List NewRing} : (s.threads t).pc = .register ring →
      s.registry = some rings →
      SlotMove b name s t ({ s with registry := some (registerRing rings ring) }.setThread t
        { s.threads t with
          buf := some ring, pc := .running, ran := (s.threads t).ran + 1 })
  | panic {ring : NewRing} : (s.threads t).pc = .register ring → s.registry = none →
      SlotMove b name s t (s.setThread t { s.threads t with
        active := false, pc := .idle, panicked := (s.threads t).panicked + 1 })
  | leave : (s.threads t).pc = .running →
      SlotMove b name s t (s.setThread t { s.threads t with active := false, pc := .idle })

theorem initialRing_spare {pool : Segments} {r : Nat} {rest : List Nat}
    (h : pool.spares = r :: rest) :
    initialRing pool s = (⟨r, pool.ringCapacity, .pool, 0, []⟩,
      { s with segments := some { pool with spares := rest } }) := by
  unfold initialRing
  rw [h]

theorem initialRing_fresh {pool : Segments} (h : pool.spares = []) :
    initialRing pool s = (⟨s.nextRing, pool.ringCapacity, .arena, 0, []⟩,
      { s with nextRing := s.nextRing + 1 }) := by
  unfold initialRing
  rw [h]

theorem threadStep_move {name : Option String} {t : Nat}
    (h : threadStep b name s t (s.threads t).pc = some s') : SlotMove b name s t s' := by
  cases hpc : (s.threads t).pc with
  | idle | running =>
    rw [hpc] at h
    cases h
  | ringCapacity =>
    rw [hpc] at h
    cases h
    exact .ringCapacity hpc
  | installed capacity =>
    rw [hpc] at h
    cases h
    exact .installed hpc
  | setThreadInfo ring =>
    rw [hpc] at h
    cases h
    exact .setThreadInfo hpc
  | allocate capacity pooled =>
    rw [hpc] at h
    cases pooled with
    | false =>
      cases h
      exact .heap hpc
    | true =>
      simp only [threadStep] at h
      cases hpool : s.segments with
      | none =>
        rw [hpool] at h
        cases h
      | some pool =>
        rw [hpool] at h
        dsimp only at h
        cases hsp : pool.spares with
        | nil =>
          rw [initialRing_fresh hsp] at h
          cases h
          exact .carve hpc hpool hsp
        | cons r rest =>
          rw [initialRing_spare hsp] at h
          cases h
          exact .spare hpc hpool hsp
  | register ring =>
    rw [hpc] at h
    simp only [threadStep] at h
    cases hreg : s.registry with
    | none =>
      rw [hreg] at h
      cases h
      exact .panic hpc hreg
    | some rings =>
      rw [hreg] at h
      cases h
      exact .register hpc hreg

variable [DecidableEq ι]

end Startup

end Ticklog
