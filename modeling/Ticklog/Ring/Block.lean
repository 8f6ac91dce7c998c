import Ticklog.Ring.SpscSafe

/-!
# A full check on an empty ring (`reserve` and `try_ensure_capacity` in `src/ring.rs`)

A ring the drain has caught up with is empty, but where it is empty matters: a record that
would straddle the physical end also pays for the filler in front of it. The check succeeds
exactly when the record fits in front of the end, or filler and record together stay below
the capacity (`FitsAt`). Nothing the drain does moves the offset, so a check that fails
there fails for as long as the ring is live.
-/

namespace Ticklog

open Lib

/-- The record fits in front of the physical end, or together with the filler it stays below
the capacity. -/
def Geometry.FitsAt (g : Geometry) (head total : Nat) : Prop :=
  g.aligned total ≤ g.remainingPhys head ∨ g.aligned total + g.remainingPhys head < g.capacity

namespace Spsc

variable {g : Geometry} {fast : Bool} {policy : Backpressure} {s s' : Spsc} {total : Nat}

/-- The producer has failed a check for `total` bytes and goes on trying. -/
def Spinning (s : Spsc) (total : Nat) : Prop := s.producer = .refresh s.ring.head total

/-- `s₁` is `s` inside the call `reserve(total)`: the producer makes it now, or is already
spinning in it. -/
def InCall (g : Geometry) (fast : Bool) (policy : Backpressure) (s : Spsc) (total : Nat)
    (s₁ : Spsc) : Prop :=
  step g fast policy s (.reserve total) = some s₁ ∨ Spinning s total ∧ s₁ = s

/-- The call has its space after at most one load of `tail`. -/
def ReservesAtOnce (g : Geometry) (fast : Bool) (policy : Backpressure) (s : Spsc)
    (total : Nat) : Prop :=
  ∃ s₁, InCall g fast policy s total s₁ ∧
    (s₁.producer = granted g s.ring.head total ∨
      ∃ s₂, step g fast policy s₁ .loadTail = some s₂ ∧
        s₂.producer = granted g s.ring.head total)

/-- On a caught-up ring the occupancy test only looks at the space the record needs. -/
theorem needed_le_mask (head total : Nat) :
    g.needed head total ≤ g.mask ↔ (g.aligned total < g.capacity ∧ g.FitsAt head total) := by
  have hcap := g.capacity_pos
  have hrem : g.remainingPhys head ≤ g.capacity := Nat.sub_le _ _
  unfold Geometry.mask Geometry.FitsAt
  rw [g.needed_eq]
  by_cases hwrap : g.wraps head total = true
  · have hlt := (g.wraps_iff head total).mp hwrap
    rw [if_pos hwrap]
    omega
  · have hle := mt (g.wraps_iff head total).mpr hwrap
    rw [if_neg hwrap]
    omega

/-- The occupancy test of a caught-up ring, on the tail itself. -/
theorem fits_caughtUp (h : SpscInv g s) (hw : s.written < wordSize)
    (htotal : total ≤ maxRecordSize) (hempty : s.ring.tail = s.ring.head) :
    g.fits s.ring.head (g.needed s.ring.head total) s.ring.tail = true
      ↔ g.needed s.ring.head total ≤ g.mask := by
  rw [h.fits_iff hw htotal h.cache_le (Nat.le_refl _), hempty]
  omega

/-- The cached tail never grants what the real one would not. -/
theorem fits_cached (h : SpscInv g s) (hw : s.written < wordSize)
    (htotal : total ≤ maxRecordSize)
    (hfits : g.fits s.ring.head (g.needed s.ring.head total) s.ring.tailCache = true) :
    g.fits s.ring.head (g.needed s.ring.head total) s.ring.tail = true := by
  have hcache := h.cache_le
  have hroom := (h.fits_iff hw htotal (Nat.le_refl _) hcache).mp hfits
  rw [h.fits_iff hw htotal hcache (Nat.le_refl _)]
  omega

theorem granted_ne_refresh {head head' total' : Nat} :
    granted g head total ≠ .refresh head' total' := by
  unfold granted
  split <;> nofun

theorem granted_ne_idle {head : Nat} : granted g head total ≠ .idle := by
  unfold granted
  split <;> nofun

/-- A load of `tail` that finds the space free. -/
theorem loadTail_grants {head : Nat} (hpc : s.producer = .refresh head total)
    (hfits : g.fits head (g.needed head total) s.ring.tail = true) :
    ∃ s', step g fast policy s .loadTail = some s' ∧ s'.producer = granted g head total := by
  simp only [step, loadTail, hpc]
  rw [if_pos hfits]
  exact ⟨_, rfl, rfl⟩

/-- A load of `tail` that does not: `Block` tests `live` and tries again, every other policy
returns. -/
theorem loadTail_full {head : Nat} (hpc : s.producer = .refresh head total)
    (hfull : ¬ g.fits head (g.needed head total) s.ring.tail = true)
    (hstep : step g fast policy s .loadTail = some s') :
    s'.producer = .idle ∧ (policy = .block → s.ring.live = false) ∨
      s'.producer = .refresh head total := by
  dsimp only [step, loadTail] at hstep
  simp only [hpc] at hstep
  rw [if_neg hfull] at hstep
  split at hstep
  all_goals first
    | (cases hstep; exact Or.inl ⟨rfl, by nofun⟩)
    | skip
  split at hstep
  next =>
    cases hstep
    exact Or.inr rfl
  next hdead =>
    cases hstep
    exact Or.inl ⟨rfl, fun _ => Bool.eq_false_iff.mpr hdead⟩

/-- A call on a ring whose check succeeds. -/
theorem reservesAtOnce_of_fits (hpc : s.producer = .idle ∨ Spinning s total)
    (hsize : headerSize ≤ total ∧ total ≤ maxRecordSize)
    (hfits : g.fits s.ring.head (g.needed s.ring.head total) s.ring.tail = true) :
    ReservesAtOnce g fast policy s total := by
  rcases hpc with hidle | hspin
  · by_cases hcached : g.fits s.ring.head (g.needed s.ring.head total) s.ring.tailCache = true
    · unfold ReservesAtOnce InCall
      simp only [step, reserve, hidle, if_pos hsize]
      rw [if_pos hcached]
      cases fast with
      | true => exact ⟨_, Or.inl rfl, Or.inl rfl⟩
      | false => exact ⟨_, Or.inl rfl, Or.inr ⟨_, rfl, rfl⟩⟩
    · have hcall : step g fast policy s (.reserve total)
          = some { s with producer := .refresh s.ring.head total } := by
        simp only [step, reserve, hidle, if_pos hsize]
        rw [if_neg hcached]
      have hload : ∃ s', step g fast policy { s with producer := .refresh s.ring.head total }
          .loadTail = some s' ∧ s'.producer = granted g s.ring.head total :=
        loadTail_grants rfl hfits
      exact ⟨_, Or.inl hcall, Or.inr hload⟩
  · exact ⟨s, Or.inr ⟨hspin, rfl⟩, Or.inr (loadTail_grants hspin hfits)⟩

/-- A call from `idle` on a ring whose check fails: the producer is left spinning. -/
theorem reserve_spins (h : SpscInv g s) (hw : s.written < wordSize)
    (hidle : s.producer = .idle) (hsize : headerSize ≤ total ∧ total ≤ maxRecordSize)
    (hfull : ¬ g.fits s.ring.head (g.needed s.ring.head total) s.ring.tail = true) :
    step g fast policy s (.reserve total)
      = some { s with producer := .refresh s.ring.head total } := by
  have hcached := mt (fits_cached h hw hsize.2) hfull
  simp only [step, reserve, hidle, if_pos hsize]
  rw [if_neg hcached]

/-! ## A failed check repeats -/

/-- An empty ring on which the check for `total` bytes fails, its producer between two tries
or in one. -/
structure Stuck (g : Geometry) (head total : Nat) (s : Spsc) : Prop where
  inv : SpscInv g s
  word : s.written < wordSize
  head_eq : s.ring.head = head
  empty : s.ring.tail = s.ring.head
  size : headerSize ≤ total ∧ total ≤ maxRecordSize
  full : ¬ g.needed head total ≤ g.mask
  producer : s.producer = .idle ∨ s.producer = .refresh head total

theorem Stuck.not_fits {head : Nat} (h : Stuck g head total s) :
    ¬ g.fits head (g.needed head total) s.ring.tail = true := by
  have hfits := fits_caughtUp h.inv h.word h.size.2 h.empty
  rw [h.head_eq] at hfits
  exact mt hfits.mp h.full

/-- What another try, or an access of the drain, does. -/
def tries (total : Nat) (a : SpscAction) : Prop :=
  a = .reserve total ∨ a = .loadTail ∨ a = .drain

/-- The drain never moves the tail back. -/
theorem tail_le_drainStep (h : SpscInv g s) : s.ring.tail ≤ (drainStep g s).ring.tail := by
  have hd := h.drain
  unfold DrainInv at hd
  fun_cases drainStep g s
  case case14 t hc hpc =>
    simp only [hpc] at hd
    exact hd.1
  all_goals exact Nat.le_refl _

/-- A try on a stuck ring fails and leaves it stuck. -/
theorem Stuck.step {head : Nat} {a : SpscAction} (h : Stuck g head total s) (ha : tries total a)
    (hstep : Spsc.step g fast policy s a = some s') : Stuck g head total s' := by
  have hpub : s'.written = s.written ∧ s'.ring.head = s.ring.head ∧
      s.ring.tail ≤ s'.ring.tail ∧
      (s'.producer = .idle ∨ s'.producer = .refresh head total) := by
    rcases ha with rfl | rfl | rfl
    · rcases h.producer with hpc | hpc
      · have hfull := h.not_fits
        rw [← h.head_eq] at hfull
        rw [reserve_spins h.inv h.word hpc h.size hfull] at hstep
        cases hstep
        refine ⟨rfl, rfl, Nat.le_refl _, Or.inr ?_⟩
        show ProducerPc.refresh s.ring.head total = _
        rw [h.head_eq]
      · simp only [Spsc.step, reserve, hpc] at hstep
        cases hstep
    · rcases h.producer with hpc | hpc
      · simp only [Spsc.step, loadTail, hpc] at hstep
        cases hstep
      · have hsame : s'.written = s.written ∧ s'.ring.head = s.ring.head ∧
            s'.ring.tail = s.ring.tail := by
          simp only [Spsc.step, loadTail, hpc] at hstep
          repeat' split at hstep
          all_goals cases hstep; exact ⟨rfl, rfl, rfl⟩
        exact ⟨hsame.1, hsame.2.1, Nat.le_of_eq hsame.2.2.symm,
          (loadTail_full hpc h.not_fits hstep).imp And.left id⟩
    · cases hstep
      have hhead : (drainStep g s).ring.head = s.ring.head := by
        fun_cases drainStep g s <;> rfl
      refine ⟨drainStep_written, hhead, tail_le_drainStep h.inv, ?_⟩
      rw [drainStep_producer]
      exact h.producer
  obtain ⟨hword, hhead, htail, hpc⟩ := hpub
  have hinv := step_inv h.inv h.word (by rw [hword]; exact h.word) hstep
  refine ⟨hinv, by rw [hword]; exact h.word, hhead.trans h.head_eq, ?_, h.size, h.full, hpc⟩
  have hle := hinv.tail_le
  have hempty := h.empty
  omega

/-- Under `Block`, on a live ring, the producer never leaves a failed check. -/
theorem Stuck.spins {head : Nat} {a : SpscAction} (h : Stuck g head total s)
    (hpc : s.producer = .refresh head total) (hlive : s.ring.live = true) (ha : a ≠ .setDead)
    (hstep : Spsc.step g fast .block s a = some s') :
    Stuck g head total s' ∧ s'.producer = .refresh head total ∧ s'.ring.live = true := by
  cases a with
  | setDead => exact absurd rfl ha
  | loadTail =>
    refine ⟨h.step (Or.inr (Or.inl rfl)) hstep, ?_, ?_⟩
    · rcases loadTail_full hpc h.not_fits hstep with ⟨-, hdead⟩ | hpc'
      · rw [hdead rfl] at hlive
        cases hlive
      · exact hpc'
    · simp only [Spsc.step, loadTail, hpc] at hstep
      repeat' split at hstep
      all_goals cases hstep; exact hlive
  | drain =>
    refine ⟨h.step (Or.inr (Or.inr rfl)) hstep, ?_, ?_⟩
    all_goals
      cases hstep
      fun_cases drainStep g s
      all_goals assumption
  | reserve total' =>
    simp only [Spsc.step, reserve, hpc] at hstep
    cases hstep
  | eobByte =>
    simp only [Spsc.step, eobByte, hpc] at hstep
    cases hstep
  | write i b =>
    simp only [Spsc.step, write, hpc] at hstep
    cases hstep
  | publish =>
    simp only [Spsc.step, publish, hpc] at hstep
    cases hstep
  | abandon =>
    simp only [Spsc.step, abandon, hpc] at hstep
    cases hstep

/-- A call on a stuck ring leaves the producer spinning. -/
theorem Stuck.inCall {s₁ : Spsc} (h : Stuck g s.ring.head total s)
    (hcall : InCall g fast policy s total s₁) :
    Stuck g s.ring.head total s₁ ∧ s₁.producer = .refresh s.ring.head total ∧
      s₁.ring.live = s.ring.live := by
  rcases hcall with hstep | ⟨hspin, rfl⟩
  · have hs₁ := h.step (Or.inl rfl) hstep
    have hidle : s.producer = .idle := by
      by_contra hne
      simp only [Spsc.step, reserve, h.producer.resolve_left hne] at hstep
      cases hstep
    rw [reserve_spins h.inv h.word hidle h.size h.not_fits] at hstep
    cases hstep
    exact ⟨hs₁, rfl, rfl⟩
  · exact ⟨h, hspin, rfl⟩

theorem Stuck.not_reservesAtOnce (h : Stuck g s.ring.head total s) :
    ¬ ReservesAtOnce g fast policy s total := by
  rintro ⟨s₁, hcall, hgrant⟩
  obtain ⟨hs₁, hpc₁, -⟩ := h.inCall hcall
  rcases hgrant with hgrant | ⟨s₂, hload, hgrant⟩
  · exact granted_ne_refresh (hgrant.symm.trans hpc₁)
  · rcases loadTail_full hpc₁ hs₁.not_fits hload with ⟨hpc₂, -⟩ | hpc₂
    · exact granted_ne_idle (hgrant.symm.trans hpc₂)
    · exact granted_ne_refresh (hgrant.symm.trans hpc₂)

/-- A caught-up ring whose offset leaves no room for the record is stuck. -/
theorem stuck_of_not_fitsAt {data : Nat → UInt8}
    (h : (spsc g fast policy).Reach (Spsc.init data) s) (hw : s.written < 2 ^ 64)
    (hempty : s.ring.tail = s.ring.head) (hpc : s.producer = .idle ∨ Spinning s total)
    (hsize : headerSize ≤ total ∧ total ≤ maxRecordSize) (hno : ¬ g.FitsAt s.ring.head total) :
    Stuck g s.ring.head total s :=
  ⟨reach_inv h hw, hw, rfl, hempty, hsize, fun hle => hno ((needed_le_mask _ _).mp hle).2, hpc⟩

/-- For a ring of any accepted capacity that its producer and the drain have brought, before
`2^64` bytes are written, to a state where the drain has caught up, and a size that fits a
ring empty at offset 0: `reserve` has its space at its next check exactly when the record
fits at the offset where the ring is empty. Where it does not, under every policy each later
try fails as well, and a `Block` producer of a live ring spins whatever the drain does. -/
theorem caughtUp_reserve_iff (g : Geometry) (fast : Bool) (policy : Backpressure)
    (data : Nat → UInt8) {s : Spsc} (h : (spsc g fast policy).Reach (Spsc.init data) s)
    (hw : s.written < 2 ^ 64) (hempty : s.ring.tail = s.ring.head) (hlive : s.ring.live = true)
    (total : Nat) (hpc : s.producer = .idle ∨ Spinning s total)
    (hsize : headerSize ≤ total ∧ total ≤ maxRecordSize)
    (hfit : g.aligned total ≤ g.capacity - g.slotSize) :
    (ReservesAtOnce g fast policy s total ↔ g.FitsAt s.ring.head total) ∧
    (¬ g.FitsAt s.ring.head total →
      (∀ s', (spsc g fast policy).Runs (fun _ a => tries total a) s s' →
        s'.producer = .idle ∨ Spinning s' total) ∧
      (policy = .block → ∀ s₁ s', InCall g fast policy s total s₁ →
        (spsc g fast policy).Runs (fun _ a => a ≠ .setDead) s₁ s' → Spinning s' total)) := by
  have hinv := reach_inv h hw
  have hfits := fits_caughtUp hinv hw hsize.2 hempty
  rw [needed_le_mask] at hfits
  have hlt : g.aligned total < g.capacity := by
    have := g.capacity_pos
    have := g.slot_pos
    omega
  have hstuck : ¬ g.FitsAt s.ring.head total → Stuck g s.ring.head total s :=
    stuck_of_not_fitsAt h hw hempty hpc hsize
  refine ⟨⟨fun hnow => ?_, fun hroom => ?_⟩, fun hno => ⟨fun s' hrun => ?_, ?_⟩⟩
  · by_contra hno
    exact (hstuck hno).not_reservesAtOnce hnow
  · exact reservesAtOnce_of_fits hpc hsize (hfits.mpr ⟨hlt, hroom⟩)
  · have hs' : Stuck g s.ring.head total s' := by
      refine hrun.invariant (I := Stuck g s.ring.head total) ?_ (hstuck hno)
      intro s₁ a s₂ hs₁ ha hstep
      exact hs₁.step ha hstep
    unfold Spinning
    rw [hs'.head_eq]
    exact hs'.producer
  · rintro rfl s₁ s' hcall hrun
    obtain ⟨hs₁, hpc₁, hlive₁⟩ := (hstuck hno).inCall hcall
    have hkept : Stuck g s.ring.head total s' ∧ s'.producer = .refresh s.ring.head total ∧
        s'.ring.live = true := by
      refine hrun.invariant (I := fun s' => Stuck g s.ring.head total s' ∧
        s'.producer = .refresh s.ring.head total ∧ s'.ring.live = true) ?_
        ⟨hs₁, hpc₁, hlive₁.trans hlive⟩
      intro s₂ a s₃ hI ha hstep
      exact hI.1.spins hI.2.1 hI.2.2 ha hstep
    unfold Spinning
    rw [hkept.1.head_eq]
    exact hkept.2.1

/-- Two one-slot records written, published and drained. -/
def twoRecords : List SpscAction := oneRecord ++ oneRecord

/-- After two one-slot records the ring of four slots is empty at offset 128. -/
theorem twoRecords_run :
    ∃ s, (spsc fourSlots false .block).run (Spsc.init fun _ => 7) twoRecords = some s ∧
      s.written = 128 ∧ s.ring.tail = 128 ∧ s.ring.head = 128 ∧ s.ring.live = true ∧
      s.producer = .idle := by
  obtain ⟨s, hs⟩ := Option.isSome_iff_exists.mp
    (show ((spsc fourSlots false .block).run (Spsc.init fun _ => 7) twoRecords).isSome = true by
      decide +kernel)
  have hread : ((spsc fourSlots false .block).run (Spsc.init fun _ => 7) twoRecords).map
      (fun s => (s.written, s.ring.tail, s.ring.head, s.ring.live, s.producer))
        = some (128, 128, 128, true, .idle) := by
    decide +kernel
  rw [hs] at hread
  simp only [Option.map_some, Option.some.injEq, Prod.mk.injEq] at hread
  exact ⟨s, hs, hread⟩

/-- There a record of 100 bytes fits in front of the end. -/
theorem caughtUp_reserve_twoRecords :
    ∃ s, (spsc fourSlots false .block).Reach (Spsc.init fun _ => 7) s ∧
      ReservesAtOnce fourSlots false .block s 100 := by
  obtain ⟨s, hs, hwritten, htail, hhead, hlive, hidle⟩ := twoRecords_run
  have h := caughtUp_reserve_iff fourSlots false .block (fun _ => 7) (Machine.run_runs hs)
    (by rw [hwritten]; decide) (htail.trans hhead.symm) hlive 100 (Or.inl hidle) (by decide)
    (by decide)
  refine ⟨s, Machine.run_runs hs, h.1.mpr (Or.inl ?_)⟩
  rw [hhead]
  decide

/-- A record of 150 bytes, 192 slot-aligned, would fit at offset 0 but not there. -/
theorem spins_on_empty_ring :
    ∃ s, (spsc fourSlots false .block).Reach (Spsc.init fun _ => 7) s ∧
      s.ring.tail = s.ring.head ∧ s.ring.live = true ∧
      fourSlots.aligned 150 ≤ fourSlots.capacity - fourSlots.slotSize ∧
      ¬ ReservesAtOnce fourSlots false .block s 150 := by
  obtain ⟨s, hs, hwritten, htail, hhead, hlive, hidle⟩ := twoRecords_run
  refine ⟨s, Machine.run_runs hs, htail.trans hhead.symm, hlive, by decide, ?_⟩
  have hno : ¬ fourSlots.FitsAt s.ring.head 150 := by
    rw [hhead]
    unfold Geometry.FitsAt
    decide
  exact (stuck_of_not_fitsAt (Machine.run_runs hs) (by rw [hwritten]; decide)
    (htail.trans hhead.symm) (Or.inl hidle) (by decide) hno).not_reservesAtOnce

end Spsc

end Ticklog
