import Ticklog.Ring.Layout

/-!
# The ring invariant, kept by every access of either side

`SpscInv` ties the two indices, the two cached copies and the bytes of the wrapping
buffer together:

* the producer's cached tail never runs ahead of the real one, and `head` never
  leads even the cached one by more than `capacity - SLOT_SIZE`;
* `[tail, head)` holds, frame by frame, the published records the sink has not been
  handed (`Pending`), split at the head value the drain's current pass works with;
* a half-written filler, and the bytes the drain has read of the current frame, are
  what the storage holds.

Two facts carry the induction. A producer store goes to an offset of a position in
`[head, tail + capacity)`, so it misses every byte of `[tail, head)`
(`SpscInv.store`). A drain access reads only bytes of `[tail, head)`, where `Layout`
says what they are (`drainStep_inv`). Indices are words; with fewer than `2^64` bytes
written, `head` is the true byte count and nothing wraps.
-/

namespace Ticklog

open Lib

namespace Spsc

variable {g : Geometry} {s : Spsc}

/-- The undelivered records: `recs` up to `mid`, the head the drain works with, and
`recs'` from there to the shared head. -/
def Pending (g : Geometry) (s : Spsc) (pos mid : Nat) : Prop :=
  ∃ recs recs', s.published = s.sink ++ recs ++ recs' ∧
    Layout g s.ring.data pos recs mid ∧ Layout g s.ring.data mid recs' s.ring.head ∧
    s.seen = (s.sink ++ recs).length

/-- As `Pending`, with the record the sink is reading in front. -/
def PendingRecord (g : Geometry) (s : Spsc) (pos mid : Nat) (rec : List UInt8) : Prop :=
  ∃ recs recs', s.published = s.sink ++ (rec :: recs) ++ recs' ∧
    RecordAt g s.ring.data pos rec ∧
    Layout g s.ring.data (pos + g.aligned rec.length) recs mid ∧
    Layout g s.ring.data mid recs' s.ring.head ∧
    s.seen = (s.sink ++ rec :: recs).length

/-- What the drain's position says about the region behind the head. -/
def DrainInv (g : Geometry) (s : Spsc) : Prop :=
  match s.drain with
  | .idle => s.ring.headCache = s.ring.tail ∧ Pending g s s.ring.tail s.ring.tail
  | .loadHead t =>
    t = s.ring.tail ∧ s.ring.headCache = s.ring.tail ∧ Pending g s s.ring.tail s.ring.tail
  | .scan t hc => s.ring.tail ≤ t ∧ g.slotSize ∣ t ∧ Pending g s t hc
  | .readPrefix t hc acc =>
    s.ring.tail ≤ t ∧ g.slotSize ∣ t ∧ t < hc ∧ Pending g s t hc ∧
      acc.length ≤ 4 ∧ acc = slice s.ring.data (g.offset t) acc.length
  | .readRecord t hc total acc =>
    s.ring.tail ≤ t ∧ g.slotSize ∣ t ∧ ∃ rec, PendingRecord g s t hc rec ∧
      total = rec.length ∧ acc.length ≤ total ∧
      acc = slice s.ring.data (g.offset t) acc.length
  | .storeTail t hc => s.ring.tail ≤ t ∧ g.slotSize ∣ t ∧ t = hc ∧ Pending g s t hc

/-- The space `[head, head + needed)` is free of undelivered bytes. -/
def Granted (g : Geometry) (s : Spsc) (head total : Nat) : Prop :=
  head = s.ring.head ∧ headerSize ≤ total ∧ total ≤ maxRecordSize ∧
    head + g.needed head total ≤ s.ring.tailCache + g.mask

/-- What the producer's position says about its reservation. -/
def ProducerInv (g : Geometry) (s : Spsc) : Prop :=
  match s.producer with
  | .idle => True
  | .confirm head total => Granted g s head total
  | .refresh head total =>
    head = s.ring.head ∧ headerSize ≤ total ∧ total ≤ maxRecordSize
  | .writeEob head total k =>
    Granted g s head total ∧ g.wraps head total = true ∧ k < 4 ∧
      ∀ j, j < k → s.ring.data (g.offset head + j)
        = (eobBytes (g.remainingPhys head)).getD j 0
  | .filling head total =>
    Granted g s head total ∧
      (g.wraps head total = true → FillerAt g s.ring.data head)

/-- The ring invariant. -/
structure SpscInv (g : Geometry) (s : Spsc) : Prop where
  head_eq : s.ring.head = s.written
  head_dvd : g.slotSize ∣ s.ring.head
  tail_dvd : g.slotSize ∣ s.ring.tail
  cache_le : s.ring.tailCache ≤ s.ring.tail
  cache_dvd : g.slotSize ∣ s.ring.tailCache
  room : s.ring.head + g.slotSize ≤ s.ring.tailCache + g.capacity
  tail_le : s.ring.tail ≤ s.ring.head
  producer : ProducerInv g s
  drain : DrainInv g s

theorem init_inv (g : Geometry) (data : Nat → UInt8) : SpscInv g (Spsc.init data) where
  head_eq := rfl
  head_dvd := Nat.dvd_zero _
  tail_dvd := Nat.dvd_zero _
  cache_le := Nat.le_refl _
  cache_dvd := Nat.dvd_zero _
  room := by
    have := g.slot_le
    show 0 + g.slotSize ≤ 0 + g.capacity
    omega
  tail_le := Nat.le_refl _
  producer := trivial
  drain := ⟨rfl, [], [], rfl, .nil 0, .nil 0, rfl⟩

/-! ## Reservation arithmetic under the invariant -/

theorem mask_lt (g : Geometry) : g.mask < g.capacity := by
  have := g.capacity_pos
  unfold Geometry.mask
  omega

/-- The occupancy test against any tail between the cached and the real one. -/
theorem SpscInv.fits_iff (h : SpscInv g s) (hw : s.written < wordSize) {total tail : Nat}
    (htotal : total ≤ maxRecordSize) (hlo : s.ring.tailCache ≤ tail) (hhi : tail ≤ s.ring.tail) :
    g.fits s.ring.head (g.needed s.ring.head total) tail = true
      ↔ s.ring.head + g.needed s.ring.head total ≤ tail + g.mask := by
  have hroom := h.room
  have htl := h.tail_le
  have hhead := h.head_eq
  exact g.fits_iff (by omega) (by omega) (by omega) (g.needed_lt htotal)

theorem needed_eq_of_wraps {head total : Nat} (h : g.wraps head total = true) :
    g.needed head total = g.remainingPhys head + g.aligned total := by
  rw [g.needed_eq, if_pos h]

theorem needed_eq_of_not_wraps {head total : Nat} (h : ¬ g.wraps head total = true) :
    g.needed head total = g.aligned total := by
  rw [g.needed_eq, if_neg h, Nat.zero_add]

/-- A wrap happens only when the filler's span fits the `u16` header field. -/
theorem span_lt_of_wraps {head total : Nat} (hdvd : g.slotSize ∣ head)
    (htotal : total ≤ maxRecordSize) (h : g.wraps head total = true) :
    g.remainingPhys head < 65536 := by
  have hlt := (g.wraps_iff head total).mp h
  have hrem := g.slot_dvd_remaining hdvd
  unfold maxRecordSize at htotal
  have ha : g.aligned total < total + g.slotSize := g.aligned_lt (by omega)
  have had : g.slotSize ∣ g.aligned total := g.slot_dvd_aligned (by omega)
  rcases g.slot_ok with hs | hs <;> rw [hs] at hrem ha had <;> omega

/-- The record's first byte, as an offset of a position past the filler. -/
theorem dst_eq (head total : Nat) :
    g.dst head total
      = g.offset (head + if g.wraps head total then g.remainingPhys head else 0) := by
  unfold Geometry.dst Geometry.next
  split
  · rw [wrappingAdd, g.offset_mod_word]
  · rfl

/-- The record region ends before the physical end. -/
theorem dst_add_le {head total : Nat} (hcap : g.aligned total ≤ g.capacity) :
    g.dst head total + g.aligned total ≤ g.capacity := by
  rw [dst_eq]
  by_cases hw : g.wraps head total = true
  · rw [if_pos hw, g.offset_add_remaining]
    omega
  · rw [if_neg hw, Nat.add_zero]
    have hoff := g.offset_lt head
    have hle : ¬ g.remainingPhys head < g.aligned total := fun hlt =>
      hw ((g.wraps_iff head total).mpr hlt)
    unfold Geometry.remainingPhys at hle
    omega

/-- Every byte of the reserved record is the offset of a position in the space that
was granted. -/
theorem dst_add_eq {head total i : Nat} (htotal : total ≤ maxRecordSize)
    (hcap : g.aligned total ≤ g.capacity) (hi : i < total) :
    ∃ q, g.dst head total + i = g.offset q ∧ head ≤ q ∧ q < head + g.needed head total ∧
      (g.wraps head total = true → head + g.remainingPhys head ≤ q) := by
  unfold maxRecordSize at htotal
  have hle : total ≤ g.aligned total := g.le_aligned (by omega)
  have hdst : g.dst head total + g.aligned total ≤ g.capacity := dst_add_le hcap
  rw [dst_eq] at hdst ⊢
  refine ⟨_, (g.offset_add (by omega)).symm, by omega, ?_, ?_⟩
  · rw [g.needed_eq]
    omega
  · intro hw
    rw [if_pos hw]
    omega

theorem Granted.aligned_le {head total : Nat} (hg : Granted g s head total)
    (h : SpscInv g s) : g.aligned total ≤ g.capacity := by
  obtain ⟨rfl, -, -, hroom⟩ := hg
  have hcache := h.cache_le
  have htail := h.tail_le
  have hm := mask_lt g
  rw [g.needed_eq] at hroom
  omega

/-! ## Producer stores miss the published region -/

/-- A store to the offset of a position in `[head, tail + capacity)` keeps every byte
of `[tail, head)`. -/
theorem store_agree {q : Nat} {b : UInt8} (hq : s.ring.head ≤ q)
    (hq' : q < s.ring.tail + g.capacity) :
    ∀ p, s.ring.tail ≤ p → p < s.ring.head →
      Function.update s.ring.data (g.offset q) b (g.offset p) = s.ring.data (g.offset p) := by
  intro p hp hp'
  rw [Function.update_of_ne]
  exact g.offset_ne (by omega) (by omega)

/-- Storage that agrees on `[tail, head)` serves the drain equally well. -/
theorem DrainInv.congr {data' : Nat → UInt8} (h : DrainInv g s)
    (heq : ∀ p, s.ring.tail ≤ p → p < s.ring.head →
      data' (g.offset p) = s.ring.data (g.offset p))
    (htail : g.slotSize ∣ s.ring.tail) (hhead : g.slotSize ∣ s.ring.head) :
    DrainInv g { s with ring.data := data' } := by
  -- the two layouts of `Pending`, from any position at or past the tail
  have hpend : ∀ {t hc : Nat}, s.ring.tail ≤ t → g.slotSize ∣ t → Pending g s t hc →
      Pending g { s with ring.data := data' } t hc := by
    intro t hc ht hdvd hp
    obtain ⟨recs, recs', hpub, h1, h2, hseen⟩ := hp
    have hmid := h2.le
    have hle := h1.le
    exact ⟨recs, recs', hpub, h1.congr hdvd fun p hp1 hp2 => heq p (by omega) (by omega),
      h2.congr (h1.slot_dvd hdvd) fun p hp1 hp2 => heq p (by omega) (by omega), hseen⟩
  -- the bytes read so far of the frame at `t`, all inside the region
  have hacc : ∀ {t n : Nat}, s.ring.tail ≤ t → t + n ≤ s.ring.head →
      g.offset t + n ≤ g.capacity →
      slice data' (g.offset t) n = slice s.ring.data (g.offset t) n := by
    intro t n ht hn hcap
    refine slice_congr fun i hi => ?_
    rw [← g.offset_add (by omega)]
    exact heq _ (by omega) (by omega)
  unfold DrainInv at h ⊢
  cases hpc : s.drain with
  | idle =>
    simp only [hpc] at h ⊢
    exact ⟨h.1, hpend (Nat.le_refl _) htail h.2⟩
  | loadHead t =>
    simp only [hpc] at h ⊢
    exact ⟨h.1, h.2.1, hpend (Nat.le_refl _) htail h.2.2⟩
  | scan t hc =>
    simp only [hpc] at h ⊢
    exact ⟨h.1, h.2.1, hpend h.1 h.2.1 h.2.2⟩
  | readPrefix t hc acc =>
    simp only [hpc] at h ⊢
    obtain ⟨ht, hdvd, hlt, hp, hlen, hslice⟩ := h
    refine ⟨ht, hdvd, hlt, hpend ht hdvd hp, hlen, ?_⟩
    obtain ⟨recs, recs', -, h1, h2, -⟩ := hp
    have hmid := h2.le
    have hrem := g.slot_le_remaining hdvd
    have hslot := g.slot_pos
    have hstep : t + g.slotSize ≤ s.ring.head := by
      have := Nat.le_of_dvd (by omega) (Nat.dvd_sub hhead hdvd)
      omega
    unfold Geometry.remainingPhys at hrem
    rw [hacc ht (by omega) (by omega)]
    exact hslice
  | readRecord t hc total acc =>
    simp only [hpc] at h ⊢
    obtain ⟨ht, hdvd, rec, ⟨recs, recs', hpub, hr, h1, h2, hseen⟩, htotal, hlen, hslice⟩ := h
    have hle1 := h1.le
    have hle2 := h2.le
    have hrl := le_aligned_rec (g := g) hr.size_ok.2
    have hrem := hr.le_remaining
    have hdvd' := Nat.dvd_add hdvd (slot_dvd_aligned_rec (g := g) hr.size_ok.2)
    have hoff := g.offset_lt t
    unfold Geometry.remainingPhys at hrem
    refine ⟨ht, hdvd, rec, ⟨recs, recs', hpub, ?_, ?_, ?_, hseen⟩, htotal, hlen, ?_⟩
    · exact hr.congr fun p hp1 hp2 => heq p (by omega) (by omega)
    · exact h1.congr hdvd' fun p hp1 hp2 => heq p (by omega) (by omega)
    · exact h2.congr (h1.slot_dvd hdvd') fun p hp1 hp2 => heq p (by omega) (by omega)
    · rw [hacc ht (by omega) (by omega)]
      exact hslice
  | storeTail t hc =>
    simp only [hpc] at h ⊢
    exact ⟨h.1, h.2.1, h.2.2.1, hpend h.1 h.2.1 h.2.2.2⟩

end Spsc

end Ticklog
