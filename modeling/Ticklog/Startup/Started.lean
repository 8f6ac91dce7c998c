import Ticklog.Startup.Rings

/-!
# One logger starts

The two invariants together, as a user of the crate sees them: at most one `configure!` returns
`Ok`, and then the ring capacity, the pool and the drain are what its options say; a failed one
says why; and every thread that starts to log afterwards gets a first ring of its own, as
configured.
A failed spawn is final: no later call starts a drain. The policy is left out: its `set` comes
before the registry's, so a call that fails may have made it.
-/

namespace Ticklog

open Lib

namespace Startup

variable {ι : Type} {b : Build} {options : ι → Options}
  {names : Nat → Option String} {s s' : State ι}

/-! ## Threads that come late -/

/-- The ring is as the options say. -/
structure Fits (b : Build) (o : Options) (ring : NewRing) : Prop where
  capacity : ring.capacity = o.ringCapacity
  storage : ring.storage = .heap ↔ pools b o = false

/-- What a thread has read of the statics, and the ring it made of them. -/
structure LateSlot (b : Build) (o : Options) (th : ThreadSlot) : Prop where
  read : ∀ c, th.pc = .installed c → c = o.ringCapacity
  chosen : ∀ c pooled, th.pc = .allocate c pooled → c = o.ringCapacity ∧ pooled = pools b o
  hand : ∀ ring, inHand th.pc = some ring → Fits b o ring
  buf : ∀ ring, th.buf = some ring → Fits b o ring

/-- The statics of a logger that runs. -/
structure Running (b : Build) (o : Options) (s : State ι) : Prop where
  registry : s.registry.isSome = true
  ringCapacity : s.ringCapacity = some o.ringCapacity
  installed : (!b.fifo && s.segments.isSome) = pools b o
  pool : ∀ pool, s.segments = some pool → pool.ringCapacity = o.ringCapacity

theorem CallInv.running {i : ι} (h : CallInv b options s)
    (hok : s.calls i = .returned (.ok ())) : Running b (options i) s where
  registry := h.claimed i (by rw [hok]; rfl)
  ringCapacity := (h.calls i).capacity (by rw [hok]; rfl)
  installed := by
    have hpool := (h.calls i).pool (by rw [hok]; rfl)
    cases hseg : s.segments with
    | none =>
      rw [hseg] at hpool
      cases hp : pools b (options i) with
      | false => rw [Option.isSome_none, Bool.and_false]
      | true =>
        have hsome := hpool hp
        cases hsome
    | some pool =>
      -- who made it is the owner
      obtain ⟨j, p, hj, -, hp, -⟩ := h.segments pool hseg
      obtain rfl := h.unique i j (by rw [hok]; rfl) (ownsPool_owns hj)
      rw [hp]
      unfold pools at hp
      rw [Bool.and_eq_true] at hp
      rw [hp.2, Option.isSome_some, Bool.and_true]
  pool := by
    intro pool hseg
    obtain ⟨j, p, hj, -, -, hset⟩ := h.segments pool hseg
    obtain rfl := h.unique i j (by rw [hok]; rfl) (ownsPool_owns hj)
    exact congrArg Segments.ringCapacity hset

/-- A thread between two rings, or with the one it had. -/
theorem LateSlot.empty {o : Options} {th th' : ThreadSlot} (h : LateSlot b o th)
    (hbuf : th'.buf = th.buf) (hread : ∀ c, th'.pc = .installed c → c = o.ringCapacity)
    (hchosen : ∀ c pooled, th'.pc = .allocate c pooled → c = o.ringCapacity ∧ pooled = pools b o)
    (hhand : ∀ ring, inHand th'.pc = some ring → Fits b o ring) : LateSlot b o th' :=
  ⟨hread, hchosen, hhand, fun ring hring => h.buf ring (hbuf ▸ hring)⟩

/-- What holds whenever. -/
structure Started (b : Build) (options : ι → Options) (names : Nat → Option String)
    (s : State ι) : Prop where
  /-- One call at most gets past the registry. -/
  oneOwner : ∀ i j, owns (s.calls i) = true → owns (s.calls j) = true → i = j
  claimed : s.registry.isSome = true →
    ∃ i pattern, owns (s.calls i) = true ∧ validate b (options i) = .ok pattern
  /-- `Ok`: its drain runs, and no other, and capacity and pool are what its options say. -/
  ok : ∀ i, s.calls i = .returned (.ok ()) → ∃ pattern, validate b (options i) = .ok pattern ∧
    s.drains = [⟨i, (options i).timezoneOffset, pattern, pools b (options i)⟩] ∧
    s.ringCapacity = some (options i).ringCapacity ∧
    s.segments.map Segments.settings =
      if pools b (options i) then some (settingsOf (options i) pattern) else none
  noDrain : (∀ i, s.calls i ≠ .returned (.ok ())) → s.drains = []
  /-- An error says what is wrong with the options, or that another call was first, or that the
  owner's drain could not be spawned. -/
  error : ∀ i e, s.calls i = .returned (.error e) → validate b (options i) = .error e ∨
    (e = .alreadyInitialized ∧ ∃ w, w ≠ i ∧ owns (s.calls w) = true) ∨
      (e = .drainSpawnFailed ∧ owns (s.calls i) = true ∧ s.drains = [])
  /-- A thread's first ring is listed, under its id and name. -/
  rings : ∀ t ring, (s.threads t).buf = some ring → ring.threadId = t ∧
    Shown (strBytes ((names t).getD "<unnamed>")) ring.threadName ∧
    ∃ rings, s.registry = some rings ∧ ring ∈ rings
  /-- No two threads have one ring, and no thread has two. -/
  registry : ∀ rings, s.registry = some rings → (rings.map (·.id)).Nodup ∧
    (rings.map (·.threadId)).Nodup ∧
    ∀ ring, ring ∈ rings → (s.threads ring.threadId).buf = some ring
  /-- A call from outside is not refused; every call ran, was refused, or panicked. -/
  calls : ∀ t, (s.threads t).pc = .idle → (s.threads t).active = false ∧
    (s.threads t).entered =
      (s.threads t).ran + (s.threads t).refused + (s.threads t).panicked

/-- Two entries of the registry with one ring would be of one thread. -/
theorem RingInv.ids_nodup {rings : List NewRing} (h : RingInv names s)
    (hreg : s.registry = some rings) : (rings.map (·.id)).Nodup := by
  refine List.Nodup.map_on ?_ (List.Nodup.of_map _ (h.list.once rings hreg))
  intro ring hmem ring' hmem' hid
  have hbuf := h.list.listed rings hreg ring hmem
  have hbuf' := h.list.listed rings hreg ring' hmem'
  rw [h.ids.alone _ _ ring ring' (.inr hbuf) (.inr hbuf') hid, hbuf'] at hbuf
  exact (Option.some.inj hbuf).symm

theorem started (hc : CallInv b options s) (hr : RingInv names s) :
    Started b options names s where
  oneOwner := hc.unique
  claimed := by
    intro hreg
    obtain ⟨i, hi⟩ := hc.registry hreg
    obtain ⟨p, hp⟩ := hc.valid i hi
    exact ⟨i, p, hi, hp⟩
  ok := by
    intro i hok
    have hown : owns (s.calls i) = true := by rw [hok]; rfl
    obtain ⟨p, hv, hdrains⟩ := (hc.calls i).started hok
    refine ⟨p, hv, hdrains, (hc.running hok).ringCapacity, ?_⟩
    have hinstalled := (hc.running hok).installed
    cases hseg : s.segments with
    | none =>
      rw [hseg, Option.isSome_none, Bool.and_false] at hinstalled
      rw [← hinstalled]
      rfl
    | some pool =>
      obtain ⟨j, q, hj, hq, hp, hset⟩ := hc.segments pool hseg
      obtain rfl := hc.unique i j hown (ownsPool_owns hj)
      rw [hv] at hq
      cases hq
      rw [hp, if_pos rfl, Option.map_some, hset]
  noDrain := by
    intro hnone
    by_contra hne
    obtain ⟨i, hi⟩ := hc.drains hne
    exact hnone i hi
  error := by
    intro i e herr
    rcases hc.failed i e herr with hv | hother | rfl
    · exact .inl hv
    · exact .inr (.inl hother)
    · have hown : owns (s.calls i) = true := by rw [herr]; rfl
      refine .inr (.inr ⟨rfl, hown, (hc.calls i).undrained hown ?_⟩)
      rw [herr]
      nofun
  rings := by
    intro t ring hring
    obtain ⟨hid, hname, hmem⟩ := hr.list.kept t ring hring
    refine ⟨hid, ?_, hmem⟩
    rw [hname]
    exact shortName_shown (utf8_toByteArray _)
  registry := fun rings hreg =>
    ⟨hr.ids_nodup hreg, hr.list.once rings hreg, hr.list.listed rings hreg⟩
  calls := by
    intro t hpc
    have hslot := hr.slots t
    refine ⟨?_, ?_⟩
    · by_contra hact
      rw [Bool.not_eq_false] at hact
      exact hslot.active.mp hact hpc
    · have hcount := hslot.counted
      rwa [hpc] at hcount

variable [DecidableEq ι]

def ownRing : Build := ⟨64, false⟩

end Startup

end Ticklog
