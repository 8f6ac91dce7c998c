import Ticklog.Pipeline.Machine

/-!
# A thread's calls and its ring

`FeedInv`: the records published on a ring are those of the calls logged there, byte for byte,
and the bytes stored so far are bytes of the record of the call in progress. Each access of the
thread keeps it, whatever the storage held before, and so does the drain.
-/

namespace Ticklog.Pipeline

open Lib

variable {env : Env} {g : Geometry} {fast : Bool} {policy : Backpressure}

/-! ## What the ring's own steps leave alone -/

/-- The size the producer is asking for, or has been granted. -/
def asking : ProducerPc → Option Nat
  | .idle => none
  | .confirm _ total | .refresh _ total | .writeEob _ total _ | .filling _ total => some total

theorem asking_granted (head total : Nat) : asking (Spsc.granted g head total) = some total := by
  unfold Spsc.granted
  split <;> rfl

theorem reserve_asks {s s' : Spsc} {total : Nat} (h : Spsc.reserve g fast total s = some s') :
    s'.published = s.published ∧ asking s'.producer = some total := by
  unfold Spsc.reserve at h
  split at h
  next =>
    split at h
    next =>
      dsimp only at h
      split at h
      next =>
        split at h
        all_goals cases h
        · exact ⟨rfl, asking_granted _ _⟩
        · exact ⟨rfl, rfl⟩
      next =>
        cases h
        exact ⟨rfl, rfl⟩
    next => cases h
  next => cases h

/-- A step of the reservation: nothing is published, no slot was handed out before, and the
size asked for is the same where it still is. -/
structure Asks (s s' : Spsc) : Prop where
  published : s'.published = s.published
  unfilled : ∀ head total, s.producer ≠ .filling head total
  asking : ∀ total, asking s'.producer = some total → asking s.producer = some total

theorem loadTail_asks {s s' : Spsc} (h : Spsc.loadTail g policy s = some s') : Asks s s' := by
  unfold Spsc.loadTail at h
  dsimp only at h
  split at h
  next head total hpc =>
    cases h
    have hunfilled : ∀ h t, s.producer ≠ .filling h t := by
      intro _ _ hfill
      rw [hpc] at hfill
      cases hfill
    refine ⟨rfl, hunfilled, fun t ht => ?_⟩
    rw [asking_granted] at ht
    rw [hpc]
    exact ht
  next head total hpc =>
    have hunfilled : ∀ h t, s.producer ≠ .filling h t := by
      intro _ _ hfill
      rw [hpc] at hfill
      cases hfill
    -- the reservation is granted, asked for again or given up
    have hasks : ∀ s' : Spsc, s'.published = s.published →
        (s'.producer = Spsc.granted g head total ∨ s'.producer = s.producer ∨
          s'.producer = .idle) → Asks s s' := by
      intro s' hpub hnext
      refine ⟨hpub, hunfilled, fun t ht => ?_⟩
      rw [hpc]
      rcases hnext with hnext | hnext | hnext
      · rw [hnext, asking_granted] at ht
        exact ht
      · rw [hnext, hpc] at ht
        exact ht
      · rw [hnext] at ht
        cases ht
    split at h
    next =>
      cases h
      exact hasks _ rfl (.inl rfl)
    next =>
      split at h
      all_goals try
        cases h
        exact hasks _ rfl (.inr (.inr rfl))
      split at h
      · cases h
        exact hasks _ rfl (.inr (.inl rfl))
      · cases h
        exact hasks _ rfl (.inr (.inr rfl))
  next => cases h

theorem eobByte_asks {s s' : Spsc} (h : Spsc.eobByte g s = some s') : Asks s s' := by
  unfold Spsc.eobByte at h
  split at h
  next head total k hpc =>
    cases h
    have hunfilled : ∀ h t, s.producer ≠ .filling h t := by
      intro _ _ hfill
      rw [hpc] at hfill
      cases hfill
    refine ⟨rfl, hunfilled, fun t ht => ?_⟩
    rw [hpc]
    dsimp only at ht
    split at ht <;> exact ht
  next => cases h

theorem write_cases {s s' : Spsc} {head total k : Nat} {byte : UInt8}
    (hpc : s.producer = .filling head total) (h : Spsc.write g k byte s = some s') :
    k < total ∧
      s' = { s with ring.data := Function.update s.ring.data (g.dst head total + k) byte } := by
  unfold Spsc.write at h
  rw [hpc] at h
  dsimp only at h
  split at h
  next hk =>
    cases h
    refine ⟨hk, ?_⟩
    rw [hpc]
  next => cases h

theorem publish_cases {s s' : Spsc} {head total : Nat} (hpc : s.producer = .filling head total)
    (h : Spsc.publish g s = some s') :
    s'.published = s.published ++ [slice s.ring.data (g.dst head total) total] ∧
      s'.producer = .idle := by
  unfold Spsc.publish at h
  rw [hpc] at h
  dsimp only at h
  split at h
  next =>
    cases h
    exact ⟨rfl, rfl⟩
  next => cases h

theorem abandon_cases {s s' : Spsc} (h : Spsc.abandon s = some s') :
    s' = { s with producer := .idle } := by
  unfold Spsc.abandon at h
  split at h
  next =>
    cases h
    rfl
  next => cases h

theorem drainStep_data (s : Spsc) : (Spsc.drainStep g s).ring.data = s.ring.data := by
  fun_cases Spsc.drainStep g s <;> rfl

/-- The record a drain access completes is the one the sink gets. -/
theorem drainStep_sink (s : Spsc) :
    (Spsc.drainStep g s).sink = s.sink ++ (completed s).toList := by
  unfold completed
  cases hpc : s.drain with
  | readRecord t hc total acc =>
    unfold Spsc.drainStep
    rw [hpc]
    dsimp only
    split
    · exact (List.append_nil _).symm
    · rfl
  | _ =>
    rw [Option.toList_none, List.append_nil]
    fun_cases Spsc.drainStep g s
    all_goals first | rfl | simp_all

/-! ## A thread and its ring -/

/-- What holds between a ring and the calls of its thread. -/
structure FeedInv (g : Geometry) (fast : Bool) (policy : Backpressure) (data : Nat → UInt8)
    (f : Feed env) : Prop where
  reach : (spsc g fast policy).Reach (Spsc.init data) f.spsc
  published : f.spsc.published = f.logged.map Call.record
  fits : ∀ c ∈ f.logged, recordSize c.args ≤ maxRecordSize
  /-- The size asked for is the size of the call in progress, which passed the gate. -/
  asked : ∀ total, asking f.spsc.producer = some total →
    ∃ c, f.call = some c ∧ total = macroTotalSize c.args ∧ macroTotalSize c.args ≤ maxRecordSize
  /-- What has been stored is the call's record, in the slot. -/
  stored : ∀ k ∈ f.stored, ∃ head total c, f.spsc.producer = .filling head total ∧
    f.call = some c ∧ f.spsc.ring.data (g.dst head total + k) = c.record.getD k 0

variable {data : Nat → UInt8} {f f' : Feed env}

theorem init_feed (g : Geometry) (fast : Bool) (policy : Backpressure) (data : Nat → UInt8) :
    FeedInv g fast policy data
      ({ spsc := .init data, call := none, stored := [], logged := [] } : Feed env) where
  reach := .refl _
  published := rfl
  fits := nofun
  asked := nofun
  stored := nofun

/-- One step of the ring. -/
theorem FeedInv.reached (h : FeedInv g fast policy data f) {a : SpscAction} {s : Spsc}
    (hstep : Spsc.step g fast policy f.spsc a = some s) :
    (spsc g fast policy).Reach (Spsc.init data) s :=
  .tail h.reach trivial hstep

/-- While the slot is not handed out, nothing is stored. -/
theorem FeedInv.stored_nil (h : FeedInv g fast policy data f)
    (hpc : ∀ head total, f.spsc.producer ≠ .filling head total) : f.stored = [] := by
  refine List.eq_nil_iff_forall_not_mem.mpr fun k hk => ?_
  obtain ⟨head, total, -, hfill, -⟩ := h.stored k hk
  exact hpc head total hfill

/-- A step of the reservation. -/
theorem FeedInv.asks (h : FeedInv g fast policy data f) {a : SpscAction} {s : Spsc}
    (hstep : Spsc.step g fast policy f.spsc a = some s) (hasks : Asks f.spsc s) :
    FeedInv g fast policy data { f with spsc := s } where
  reach := h.reached hstep
  published := hasks.published.trans h.published
  fits := h.fits
  asked total ht := h.asked total (hasks.asking total ht)
  stored := by
    show ∀ k ∈ f.stored, _
    rw [h.stored_nil hasks.unfilled]
    nofun

theorem FeedInv.log (h : FeedInv g fast policy data f) {c : Call env}
    (hstep : log g fast c f = some f') : FeedInv g fast policy data f' := by
  unfold Pipeline.log at hstep
  split at hstep
  next =>
    dsimp only at hstep
    split at hstep
    next =>
      cases hstep
      exact h
    next hgate =>
      obtain ⟨s, hres, rfl⟩ := Option.map_eq_some_iff.mp hstep
      obtain ⟨hpub, hasks⟩ := reserve_asks hres
      refine ⟨h.reached (a := .reserve _) hres, hpub.trans h.published, h.fits, ?_, nofun⟩
      intro total htotal
      rw [hasks] at htotal
      exact ⟨c, rfl, (Option.some.inj htotal).symm, Nat.not_lt.mp hgate⟩
  next => cases hstep

/-- A byte of the record of the call in progress. -/
theorem assembled_eq {c : Call env} (hgate : macroTotalSize c.args ≤ maxRecordSize)
    {slot : Nat → UInt8} {k : Nat} (hk : k < macroTotalSize c.args) :
    assembled c slot k = some (c.record.getD k 0) := by
  have hlen : c.record.length = macroTotalSize c.args :=
    c.record_length.trans c.macroTotalSize_eq.symm
  unfold assembled
  rw [c.logMacro_record hgate]
  show some (Ticklog.store slot 0 c.record k) = _
  rw [Ticklog.store, Nat.zero_add, if_pos (by omega), Nat.sub_zero]

theorem FeedInv.store (h : FeedInv g fast policy data f) {k : Nat}
    (hstep : store g k f = some f') : FeedInv g fast policy data f' := by
  unfold Pipeline.store at hstep
  split at hstep
  next head total c hpc hcall =>
    obtain ⟨byte, hbyte, hstep⟩ := Option.bind_eq_some_iff.mp hstep
    obtain ⟨s, hwrite, hstep⟩ := Option.bind_eq_some_iff.mp hstep
    cases hstep
    have hreach := h.reached (a := .write k byte) hwrite
    obtain ⟨hk, rfl⟩ := write_cases hpc hwrite
    obtain ⟨c', hcall', htotal, hgate⟩ := h.asked total (by rw [hpc]; rfl)
    obtain rfl : c = c' := Option.some.inj (hcall.symm.trans hcall')
    rw [assembled_eq hgate (htotal ▸ hk)] at hbyte
    refine ⟨hreach, h.published, h.fits, h.asked, fun j hj => ⟨head, total, c, hpc, hcall, ?_⟩⟩
    show Function.update f.spsc.ring.data (g.dst head total + k) byte (g.dst head total + j)
      = c.record.getD j 0
    by_cases hjk : j = k
    · subst hjk
      rw [Function.update_self]
      exact (Option.some.inj hbyte).symm
    · rw [Function.update_of_ne (by omega)]
      rcases List.mem_cons.mp hj with hj | hj
      · exact absurd hj hjk
      · -- stored before
        obtain ⟨head', total', c', hpc', hcall', hdata⟩ := h.stored j hj
        rw [hpc] at hpc'
        rw [hcall] at hcall'
        cases hpc'
        cases hcall'
        exact hdata
  next => cases hstep

/-- A slot whose bytes are all stored holds the record. -/
theorem FeedInv.slot_eq (h : FeedInv g fast policy data f) {head total : Nat} {c : Call env}
    (hpc : f.spsc.producer = .filling head total) (hcall : f.call = some c)
    (hall : ∀ k < total, k ∈ f.stored) :
    macroTotalSize c.args ≤ maxRecordSize ∧ total = c.record.length ∧
      slice f.spsc.ring.data (g.dst head total) total = c.record := by
  obtain ⟨c', hcall', htotal, hgate⟩ := h.asked total (by rw [hpc]; rfl)
  obtain rfl : c = c' := Option.some.inj (hcall.symm.trans hcall')
  have hlen : total = c.record.length := by
    rw [htotal, c.macroTotalSize_eq, c.record_length]
  refine ⟨hgate, hlen, ?_⟩
  have hbytes : ∀ i, i < c.record.length →
      f.spsc.ring.data (g.dst head total + i) = c.record.getD i 0 := by
    intro i hi
    obtain ⟨head', total', c', hpc', hcall', hdata⟩ := h.stored i (hall i (hlen ▸ hi))
    rw [hpc] at hpc'
    rw [hcall] at hcall'
    cases hpc'
    cases hcall'
    exact hdata
  have hslice := slice_eq_of_getD hbytes
  rwa [← hlen] at hslice

theorem FeedInv.publish (h : FeedInv g fast policy data f)
    (hstep : publish g f = some f') : FeedInv g fast policy data f' := by
  unfold Pipeline.publish at hstep
  split at hstep
  next head total c hpc hcall =>
    split at hstep
    next hall =>
      obtain ⟨s, hpublish, rfl⟩ := Option.map_eq_some_iff.mp hstep
      have hreach := h.reached (a := .publish) hpublish
      obtain ⟨hpub, hidle⟩ := publish_cases hpc hpublish
      obtain ⟨hgate, -, hslot⟩ := h.slot_eq hpc hcall hall
      refine ⟨hreach, ?_, ?_, ?_, nofun⟩
      · show s.published = (f.logged ++ [c]).map Call.record
        rw [hpub, hslot, h.published, List.map_append]
        rfl
      · intro c' hc'
        rcases List.mem_append.mp hc' with hc' | hc'
        · exact h.fits c' hc'
        · rw [List.mem_singleton.mp hc', ← c.macroTotalSize_eq]
          exact hgate
      · intro t ht
        show ∃ c, none = some c ∧ _
        rw [show s.producer = .idle from hidle] at ht
        cases ht
    next => cases hstep
  next => cases hstep

theorem FeedInv.step (h : FeedInv g fast policy data f) {move : Move env}
    (hstep : Feed.step g fast policy f move = some f') : FeedInv g fast policy data f' := by
  cases move with
  | log c => exact h.log hstep
  | loadTail =>
    obtain ⟨s, hload, rfl⟩ := Option.map_eq_some_iff.mp hstep
    exact h.asks (a := .loadTail) hload (loadTail_asks hload)
  | eobByte =>
    obtain ⟨s, heob, rfl⟩ := Option.map_eq_some_iff.mp hstep
    exact h.asks (a := .eobByte) heob (eobByte_asks heob)
  | store k => exact h.store hstep
  | publish => exact h.publish hstep
  | unwind =>
    obtain ⟨s, habandon, rfl⟩ := Option.map_eq_some_iff.mp hstep
    have hreach := h.reached (a := .abandon) habandon
    cases abandon_cases habandon
    exact ⟨hreach, h.published, h.fits, nofun, nofun⟩
  | setDead =>
    cases hstep
    exact ⟨h.reached (a := .setDead) rfl, h.published, h.fits, h.asked, h.stored⟩

/-- The drain's accesses change nothing the thread knows of. -/
theorem FeedInv.drain (h : FeedInv g fast policy data f) :
    FeedInv g fast policy data { f with spsc := Spsc.drainStep g f.spsc } where
  reach := h.reached (a := .drain) rfl
  published := Spsc.drainStep_published.trans h.published
  fits := h.fits
  asked := by
    show ∀ total, asking (Spsc.drainStep g f.spsc).producer = some total → _
    rw [Spsc.drainStep_producer]
    exact h.asked
  stored := by
    show ∀ k ∈ f.stored, ∃ head total c, (Spsc.drainStep g f.spsc).producer = _ ∧ _ ∧
      (Spsc.drainStep g f.spsc).ring.data _ = _
    rw [Spsc.drainStep_producer, drainStep_data]
    exact h.stored

end Ticklog.Pipeline
