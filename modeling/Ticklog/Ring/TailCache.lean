import Ticklog.Ring.SpscSafe

/-!
# The cached tail and failed reserves (`try_ensure_capacity` in `src/ring.rs`)

The default build and the `fast-tail-cache` build differ in one access: where the cached tail
leaves room the default build still loads `tail` to refresh its copy, the fast build does not.
To run both under one schedule a reserve takes two steps in either build, the look at the cached
copy and the place of the load (`slotStep`), with accesses of the drain in between; in the
default build these are the accesses of `Spsc` (`slotStep_default`), and a run of the fast build
becomes a run here when the empty place of the load is put in (`fast_slots`).

Under `Drop` a call is decided at the place of the load, by the true tail (`loadSlot_exact`):
the cached copy only trails it. So the copies may differ as they like. Two runs that agree up to
the cached tail stay so, whichever the builds (`agree_run`), and a failed call leaves nothing
behind but a fresher copy, so taking it out of a run changes nothing else (`prune_run`).
-/

namespace Ticklog

open Lib

namespace Spsc

section

variable (g : Geometry) (fast : Bool)

/-- The place of the load of `tail`. Where the cached tail leaves room the fast build grants the
space without the load. -/
def loadPlace (s : Spsc) : Option Spsc :=
  match s.producer with
  | .confirm head total =>
    if fast then some { s with producer := granted g head total } else loadTail g .drop s
  | _ => loadTail g .drop s

/-- One step of either build under `Drop`. -/
def slotStep (s : Spsc) : SpscAction → Option Spsc
  | .reserve total => reserve g false total s
  | .loadTail => loadPlace g fast s
  | a => step g false .drop s a

end

/-- Both builds under one kind of schedule. -/
def slots (g : Geometry) (fast : Bool) : Machine Spsc SpscAction where
  step := slotStep g fast

variable {g : Geometry} {fast fast' : Bool} {s s' t t' : Spsc}

/-- The producer has looked at its cached tail and comes to the place of the load. -/
def Waiting (s : Spsc) (head total : Nat) : Prop :=
  s.producer = .confirm head total ∨ s.producer = .refresh head total

/-! ## The two builds -/

theorem slotStep_default (a : SpscAction) : slotStep g false s a = step g false .drop s a := by
  cases a with
  | loadTail =>
    show loadPlace g false s = loadTail g .drop s
    unfold loadPlace
    split <;> rfl
  | reserve total => rfl
  | eobByte => rfl
  | write i b => rfl
  | publish => rfl
  | abandon => rfl
  | setDead => rfl
  | drain => rfl

/-- The fast build's own reserve: granted at the look, or the look of the other build. -/
theorem reserve_fast {total : Nat} (hstep : reserve g true total s = some s') :
    ∃ s₁, reserve g false total s = some s₁ ∧
      (s₁ = { s with producer := .confirm s.ring.head total } ∧
          s' = { s with producer := granted g s.ring.head total } ∨
        s' = s₁ ∧ s' = { s with producer := .refresh s.ring.head total }) := by
  unfold reserve at hstep ⊢
  split at hstep
  next hpc =>
    split at hstep
    next hsize =>
      simp only [if_pos hsize, if_true, Bool.false_eq_true, if_false] at hstep ⊢
      split at hstep
      next hfits =>
        cases hstep
        exact ⟨_, if_pos hfits, Or.inl ⟨rfl, rfl⟩⟩
      next hfull =>
        cases hstep
        exact ⟨_, if_neg hfull, Or.inr ⟨rfl, rfl⟩⟩
    next => cases hstep
  next => cases hstep

theorem granted_ne_confirm {head total head' total' : Nat} :
    granted g head total ≠ .confirm head' total' := by
  unfold granted
  split <;> nofun

/-- Only a look at the cached tail brings the producer to `confirm`. -/
theorem step_ne_confirm {a : SpscAction} (hne : ∀ head total, s.producer ≠ .confirm head total)
    (ha : ∀ total, a ≠ .reserve total) (hstep : step g fast .drop s a = some s') :
    ∀ head total, s'.producer ≠ .confirm head total := by
  cases a with
  | reserve total => exact absurd rfl (ha total)
  | loadTail =>
    dsimp only [step, loadTail] at hstep
    split at hstep
    next head total hpc => exact absurd hpc (hne head total)
    next =>
      split at hstep
      next =>
        cases hstep
        exact fun _ _ => granted_ne_confirm
      next =>
        cases hstep
        exact fun _ _ => nofun
    next => cases hstep
  | eobByte =>
    dsimp only [step, eobByte] at hstep
    split at hstep
    next =>
      cases hstep
      intro head total
      show (if _ then _ else _) ≠ _
      split <;> nofun
    next => cases hstep
  | write i b =>
    dsimp only [step, write] at hstep
    split at hstep
    next =>
      split at hstep
      next =>
        cases hstep
        exact hne
      next => cases hstep
    next => cases hstep
  | publish =>
    dsimp only [step, publish] at hstep
    split at hstep
    next =>
      split at hstep
      next =>
        cases hstep
        exact fun _ _ => nofun
      next => cases hstep
    next => cases hstep
  | abandon =>
    dsimp only [step, abandon] at hstep
    split at hstep
    next =>
      cases hstep
      exact fun _ _ => nofun
    next => cases hstep
  | setDead =>
    cases hstep
    exact hne
  | drain =>
    cases hstep
    rw [drainStep_producer]
    exact hne

/-! ## Up to `2^64` bytes -/

theorem slotStep_inv {a : SpscAction} (h : SpscInv g s) (hw : s.written < wordSize)
    (hw' : s'.written < wordSize) (hstep : slotStep g fast s a = some s') : SpscInv g s' := by
  cases a with
  | reserve total => exact reserve_inv h hw hstep
  | loadTail =>
    change loadPlace g fast s = some s' at hstep
    unfold loadPlace at hstep
    split at hstep
    next head total hpc =>
      split at hstep
      next =>
        cases hstep
        have hprod := h.producer
        unfold ProducerInv at hprod
        rw [hpc] at hprod
        exact h.withProducer (granted_inv rfl hprod)
      next => exact loadTail_inv h hw hstep
    next => exact loadTail_inv h hw hstep
  | eobByte => exact eobByte_inv h hstep
  | write i b => exact write_inv h hstep
  | publish => exact publish_inv h hstep hw'
  | abandon => exact abandon_inv h hstep
  | setDead => exact step_inv h hw hw' (show step g false .drop s .setDead = some s' from hstep)
  | drain => exact step_inv h hw hw' (show step g false .drop s .drain = some s' from hstep)

theorem slotStep_written_le {a : SpscAction} (hstep : slotStep g fast s a = some s') :
    s.written ≤ s'.written := by
  have hdefault : step g false .drop s a = some s' → s.written ≤ s'.written :=
    fun h => step_written_le h
  cases a with
  | loadTail =>
    change loadPlace g fast s = some s' at hstep
    unfold loadPlace at hstep
    split at hstep
    next =>
      split at hstep
      next =>
        cases hstep
        exact Nat.le_refl _
      next => exact hdefault hstep
    next => exact hdefault hstep
  | reserve total => exact hdefault hstep
  | eobByte => exact hdefault hstep
  | write i b => exact hdefault hstep
  | publish => exact hdefault hstep
  | abandon => exact hdefault hstep
  | setDead => exact hdefault hstep
  | drain => exact hdefault hstep

/-! ## The room behind the cached tail -/

/-- The space of a granted reserve is free behind the cached tail. -/
def Paid (g : Geometry) (s : Spsc) (head total : Nat) : Prop :=
  head = s.ring.head ∧ total ≤ maxRecordSize ∧
    s.written + g.needed head total ≤ s.ring.tailCache + g.mask

/-- What the producer's place says about the space it asked for. -/
def Asked (g : Geometry) (s : Spsc) : Prop :=
  match s.producer with
  | .idle => True
  | .refresh head total => head = s.ring.head ∧ total ≤ maxRecordSize
  | .confirm head total => Paid g s head total
  | .writeEob head total k => Paid g s head total ∧ g.wraps head total = true ∧ k < 4
  | .filling head total => Paid g s head total

/-- The indices over naturals. `written` is `head` before its wrap at `2^64`; the cached tail
trails the real one, and the bytes ahead of it fit the ring. -/
structure Room (g : Geometry) (s : Spsc) : Prop where
  head_eq : s.ring.head = s.written % wordSize
  written_dvd : g.slotSize ∣ s.written
  cache_le : s.ring.tailCache ≤ s.ring.tail
  tail_le : s.ring.tail ≤ s.written
  tail_lt : s.ring.tail < wordSize
  room : s.written ≤ s.ring.tailCache + g.mask
  asked : Asked g s

theorem room_of_inv (h : SpscInv g s) (hw : s.written < wordSize) : Room g s := by
  have hhead := h.head_eq
  have htail := h.tail_le
  have hroom := h.room
  have hslot := g.slot_pos
  have hpaid : ∀ {head total : Nat}, Granted g s head total → Paid g s head total := by
    rintro head total ⟨hh, -, hhi, hfree⟩
    exact ⟨hh, hhi, by omega⟩
  refine ⟨?_, hhead ▸ h.head_dvd, h.cache_le, by omega, by omega, ?_, ?_⟩
  · rw [hhead, Nat.mod_eq_of_lt hw]
  · unfold Geometry.mask
    omega
  · have hprod := h.producer
    unfold ProducerInv at hprod
    unfold Asked
    split at hprod
    next hpc => rw [hpc]; trivial
    next head total hpc => rw [hpc]; exact hpaid hprod
    next head total hpc => rw [hpc]; exact ⟨hprod.1, hprod.2.2⟩
    next head total k hpc => rw [hpc]; exact ⟨hpaid hprod.1, hprod.2.1, hprod.2.2.1⟩
    next head total hpc => rw [hpc]; exact hpaid hprod.1

/-- The occupancy test against any tail between the cached and the real one, whether or not
`head` has wrapped. -/
theorem Room.fits_iff (h : Room g s) {total tail : Nat} (htotal : total ≤ maxRecordSize)
    (hlo : s.ring.tailCache ≤ tail) (hhi : tail ≤ s.ring.tail) :
    g.fits s.ring.head (g.needed s.ring.head total) tail = true
      ↔ s.written + g.needed s.ring.head total ≤ tail + g.mask := by
  have htail := h.tail_le
  have hlt := h.tail_lt
  have hroom := h.room
  have hcap := g.capacity_le
  have hmask := mask_lt g
  have hneed : g.needed s.ring.head total < 2 ^ 18 := g.needed_lt htotal
  have hsum : wrappingAdd s.ring.head (g.needed s.ring.head total)
      = wrappingAdd s.written (g.needed s.ring.head total) := by
    unfold wrappingAdd
    rw [h.head_eq, Nat.mod_add_mod]
  have hdist : s.written + g.needed s.ring.head total - tail < wordSize := by
    unfold wordSize
    omega
  unfold Geometry.fits
  rw [hsum, wrappingSub_wrappingAdd (by omega) (by omega) hdist, decide_eq_true_iff]
  omega

theorem Room.head_dvd (h : Room g s) : g.slotSize ∣ s.ring.head := by
  rw [h.head_eq]
  exact (Nat.dvd_mod_iff g.slot_dvd_word).mpr h.written_dvd

theorem needed_dvd {head total : Nat} (hdvd : g.slotSize ∣ head) (htotal : total ≤ maxRecordSize) :
    g.slotSize ∣ g.needed head total := by
  unfold maxRecordSize at htotal
  have haligned : g.slotSize ∣ g.aligned total := g.slot_dvd_aligned (by omega)
  rw [g.needed_eq]
  split
  · exact Nat.dvd_add (g.slot_dvd_remaining hdvd) haligned
  · rw [Nat.zero_add]
    exact haligned

theorem newHead_mod (head total : Nat) :
    g.newHead head total = (head + g.needed head total) % wordSize := by
  rw [g.needed_eq]
  unfold Geometry.newHead Geometry.next wrappingAdd
  split
  · rw [Nat.mod_add_mod, Nat.add_assoc]
  · rw [Nat.zero_add]

/-- Moving the producer alone, and its copy of the tail at most up to the tail. -/
theorem Room.withProducer (h : Room g s) {cache : Nat} {pc : ProducerPc}
    (hlo : s.ring.tailCache ≤ cache) (hhi : cache ≤ s.ring.tail)
    (hp : Asked g { s with ring.tailCache := cache, producer := pc }) :
    Room g { s with ring.tailCache := cache, producer := pc } where
  head_eq := h.head_eq
  written_dvd := h.written_dvd
  cache_le := hhi
  tail_le := h.tail_le
  tail_lt := h.tail_lt
  room := Nat.le_trans h.room (Nat.add_le_add_right hlo _)
  asked := hp

theorem asked_granted {head total : Nat} (hpc : s.producer = granted g head total)
    (hpaid : Paid g s head total) : Asked g s := by
  unfold Asked
  rw [hpc]
  unfold granted
  by_cases hwr : g.wraps head total = true
  · rw [if_pos hwr]
    exact ⟨hpaid, hwr, by omega⟩
  · rw [if_neg hwr]
    exact hpaid

theorem reserve_room {total : Nat} (h : Room g s) (hstep : reserve g false total s = some s') :
    Room g s' := by
  unfold reserve at hstep
  split at hstep
  next =>
    split at hstep
    next hsize =>
      simp only [Bool.false_eq_true, if_false] at hstep
      split at hstep
      next hfits =>
        cases hstep
        have hfree := (h.fits_iff hsize.2 (Nat.le_refl _) h.cache_le).mp hfits
        exact h.withProducer (Nat.le_refl _) h.cache_le ⟨rfl, hsize.2, hfree⟩
      next =>
        cases hstep
        exact h.withProducer (Nat.le_refl _) h.cache_le ⟨rfl, hsize.2⟩
    next => cases hstep
  next => cases hstep

theorem loadTail_room (h : Room g s) (hstep : loadTail g .drop s = some s') : Room g s' := by
  have hasked := h.asked
  unfold Asked at hasked
  unfold loadTail at hstep
  simp only at hstep
  split at hstep
  next head total hpc =>
    rw [hpc] at hasked
    obtain ⟨hhead, hhi, hfree⟩ := hasked
    cases hstep
    exact h.withProducer h.cache_le (Nat.le_refl _)
      (asked_granted rfl ⟨hhead, hhi, Nat.le_trans hfree (Nat.add_le_add_right h.cache_le _)⟩)
  next head total hpc =>
    rw [hpc] at hasked
    obtain ⟨rfl, hhi⟩ := hasked
    split at hstep
    next hfits =>
      cases hstep
      have hfree := (h.fits_iff hhi h.cache_le (Nat.le_refl _)).mp hfits
      exact h.withProducer h.cache_le (Nat.le_refl _) (asked_granted rfl ⟨rfl, hhi, hfree⟩)
    next =>
      cases hstep
      exact h.withProducer h.cache_le (Nat.le_refl _) trivial
  next => cases hstep

theorem loadPlace_room (h : Room g s) (hstep : loadPlace g fast s = some s') : Room g s' := by
  unfold loadPlace at hstep
  split at hstep
  next head total hpc =>
    split at hstep
    next =>
      cases hstep
      have hasked := h.asked
      unfold Asked at hasked
      rw [hpc] at hasked
      exact h.withProducer (Nat.le_refl _) h.cache_le (asked_granted rfl hasked)
    next => exact loadTail_room h hstep
  next => exact loadTail_room h hstep

theorem publish_room (h : Room g s) (hstep : publish g s = some s') : Room g s' := by
  have hasked := h.asked
  unfold Asked at hasked
  unfold publish at hstep
  split at hstep
  next head total hpc =>
    rw [hpc] at hasked
    obtain ⟨rfl, hhi, hfree⟩ := hasked
    simp only at hstep
    split at hstep
    next =>
      cases hstep
      refine ⟨?_, Nat.dvd_add h.written_dvd (needed_dvd h.head_dvd hhi), h.cache_le,
        Nat.le_trans h.tail_le (Nat.le_add_right _ _), h.tail_lt, hfree, trivial⟩
      show g.newHead s.ring.head total = (s.written + g.needed s.ring.head total) % wordSize
      rw [newHead_mod, h.head_eq, Nat.mod_add_mod]
    next => cases hstep
  next => cases hstep

/-- The producer's accesses, and the flag, keep the room. -/
theorem slotStep_room {a : SpscAction} (h : Room g s) (ha : a ≠ .drain)
    (hstep : slotStep g fast s a = some s') : Room g s' := by
  have hasked := h.asked
  unfold Asked at hasked
  cases a with
  | reserve total => exact reserve_room h hstep
  | loadTail => exact loadPlace_room h hstep
  | eobByte =>
    change eobByte g s = some s' at hstep
    unfold eobByte at hstep
    split at hstep
    next head total k hpc =>
      rw [hpc] at hasked
      obtain ⟨hpaid, hwr, -⟩ := hasked
      cases hstep
      refine ⟨h.head_eq, h.written_dvd, h.cache_le, h.tail_le, h.tail_lt, h.room, ?_⟩
      by_cases hlast : k + 1 < 4
      · simp only [if_pos hlast]
        exact ⟨hpaid, hwr, hlast⟩
      · simp only [if_neg hlast]
        exact hpaid
    next => cases hstep
  | write i b =>
    change write g i b s = some s' at hstep
    unfold write at hstep
    split at hstep
    next head total hpc =>
      split at hstep
      next =>
        cases hstep
        exact ⟨h.head_eq, h.written_dvd, h.cache_le, h.tail_le, h.tail_lt, h.room, h.asked⟩
      next => cases hstep
    next => cases hstep
  | publish => exact publish_room h hstep
  | abandon =>
    change abandon s = some s' at hstep
    unfold abandon at hstep
    split at hstep
    next =>
      cases hstep
      exact h.withProducer (Nat.le_refl _) h.cache_le trivial
    next => cases hstep
  | setDead =>
    cases hstep
    exact ⟨h.head_eq, h.written_dvd, h.cache_le, h.tail_le, h.tail_lt, h.room, h.asked⟩
  | drain => exact absurd rfl ha

/-! ## Past `2^64` bytes -/

/-- The drain has loaded a wrapped `head`. Its loop `while tail < head_cache` never runs again,
and its cached head never equals the tail, so `head` is not loaded again either. -/
def Wedged (s : Spsc) : Prop :=
  match s.drain with
  | .idle => s.ring.headCache < s.ring.tail
  | .scan tail headCache | .storeTail tail headCache => tail = s.ring.tail ∧ headCache < tail
  | _ => False

/-- The drain has not seen the wrap: it works on a ring whose producer stopped before. -/
def Unaware (g : Geometry) (s : Spsc) : Prop :=
  ∃ head published, head < wordSize ∧ SpscInv g { s with
    ring.head := head, producer := .idle, published := published, written := head }

/-- `head` has wrapped. -/
structure Past (g : Geometry) (s : Spsc) : Prop where
  room : Room g s
  past : wordSize ≤ s.written
  drain : Unaware g s ∨ Wedged s

theorem offset_add_words (pos n : Nat) : g.offset (pos + wordSize * n) = g.offset pos := by
  rw [← g.offset_mod_word, Nat.add_mul_mod_self_left, g.offset_mod_word]

/-- A store into the granted space misses what the drain has yet to read. -/
theorem Past.store (h : Past g s) {head total q : Nat} {b : UInt8} {p : ProducerPc}
    (hpaid : Paid g s head total) (hq : head ≤ q) (hq' : q < head + g.needed head total) :
    Unaware g { s with
      ring.data := Function.update s.ring.data (g.offset q) b, producer := p } ∨
    Wedged { s with
      ring.data := Function.update s.ring.data (g.offset q) b, producer := p } := by
  rcases h.drain with ⟨old, published, hlt, hinv⟩ | hstuck
  · refine Or.inl ⟨old, published, hlt, ?_⟩
    -- the position, counted without the wrap
    have hpos := Nat.mod_add_div s.written wordSize
    have hhead := h.room.head_eq
    have hpast := h.past
    have hcache := h.room.cache_le
    have hmask := mask_lt g
    obtain ⟨rfl, -, hfree⟩ := hpaid
    rw [← offset_add_words q (s.written / wordSize)]
    exact hinv.store (p := .idle) (show old ≤ _ by omega)
      (show _ < s.ring.tail + g.capacity by omega) trivial
  · exact Or.inr hstuck

theorem drainStep_unaware {head written : Nat} {published : List (List UInt8)}
    (hne : ∀ tail, s.drain ≠ .loadHead tail) :
    drainStep g { s with
      ring.head := head, producer := .idle, published := published, written := written }
      = { drainStep g s with
          ring.head := head
          producer := .idle
          published := published
          written := written } := by
  unfold drainStep
  cases hpc : s.drain with
  | idle => simp only; split <;> rfl
  | loadHead tail => exact absurd hpc (hne tail)
  | scan tail hc => simp only; split <;> rfl
  | readPrefix tail hc acc =>
    simp only
    split
    · rfl
    · split <;> rfl
  | readRecord tail hc total acc => simp only; split <;> rfl
  | storeTail tail hc => rfl

theorem Wedged.drainStep (h : Wedged s) :
    Wedged (drainStep g s) ∧ (Spsc.drainStep g s).ring.tail = s.ring.tail := by
  unfold Wedged at h
  unfold Spsc.drainStep
  cases hpc : s.drain with
  | idle =>
    simp only [hpc] at h ⊢
    rw [if_neg (by omega)]
    exact ⟨⟨rfl, h⟩, rfl⟩
  | scan tail hc =>
    simp only [hpc] at h ⊢
    rw [if_neg (by omega)]
    exact ⟨h, rfl⟩
  | storeTail tail hc =>
    simp only [hpc] at h ⊢
    obtain ⟨rfl, hlt⟩ := h
    exact ⟨hlt, rfl⟩
  | loadHead tail => rw [hpc] at h; exact h.elim
  | readPrefix tail hc acc => rw [hpc] at h; exact h.elim
  | readRecord tail hc total acc => rw [hpc] at h; exact h.elim

theorem Past.drainStep (h : Past g s) : Past g (drainStep g s) := by
  have hroom := h.room.room
  have hpast := h.past
  have hmask := mask_lt g
  have hcap := g.capacity_le
  have hpc : (Spsc.drainStep g s).producer = s.producer ∧
      (Spsc.drainStep g s).ring.head = s.ring.head ∧
      (Spsc.drainStep g s).ring.tailCache = s.ring.tailCache := by
    fun_cases Spsc.drainStep g s <;> exact ⟨rfl, rfl, rfl⟩
  -- only the tail moves, and at most up to where the drain works
  have hmoved : s.ring.tailCache ≤ (Spsc.drainStep g s).ring.tail →
      (Spsc.drainStep g s).ring.tail < wordSize → Room g (Spsc.drainStep g s) := by
    intro hlo hhi
    refine ⟨?_, ?_, ?_, ?_, hhi, ?_, ?_⟩
    · rw [hpc.2.1, drainStep_written]
      exact h.room.head_eq
    · rw [drainStep_written]
      exact h.room.written_dvd
    · rw [hpc.2.2]
      exact hlo
    · rw [drainStep_written]
      omega
    · rw [drainStep_written, hpc.2.2]
      exact hroom
    · have hasked := h.room.asked
      unfold Asked Paid at hasked ⊢
      rw [hpc.1, hpc.2.1, hpc.2.2, drainStep_written]
      exact hasked
  have hstill : wordSize ≤ (Spsc.drainStep g s).written := by
    rw [drainStep_written]
    exact hpast
  rcases h.drain with ⟨old, published, hlt, hinv⟩ | hstuck
  · by_cases hload : ∃ tail, s.drain = .loadHead tail
    · -- the wrapped head lies below the tail
      obtain ⟨tail, hload⟩ := hload
      have hd := hinv.drain
      unfold DrainInv at hd
      simp only [hload] at hd
      obtain ⟨rfl, -, -⟩ := hd
      have htail : s.ring.tail ≤ old := hinv.tail_le
      have hhead := h.room.head_eq
      have hcache := h.room.cache_le
      have hbelow : s.ring.head < s.ring.tail := by
        unfold wordSize at hhead hpast hlt
        omega
      have hstep : Spsc.drainStep g s
          = { s with seen := s.published.length, drain := .scan s.ring.tail s.ring.head } := by
        unfold Spsc.drainStep
        simp only [hload]
        rw [if_neg (by omega)]
      refine ⟨hmoved ?_ ?_, hstill, Or.inr ?_⟩
      · rw [hstep]
        exact hcache
      · rw [hstep]
        exact h.room.tail_lt
      · rw [hstep]
        exact ⟨rfl, hbelow⟩
    · have hnext := drainStep_inv hinv hlt
      rw [drainStep_unaware fun tail heq => hload ⟨tail, heq⟩] at hnext
      have hcache : (Spsc.drainStep g s).ring.tailCache ≤ (Spsc.drainStep g s).ring.tail :=
        hnext.cache_le
      have htail : (Spsc.drainStep g s).ring.tail ≤ old := hnext.tail_le
      exact ⟨hmoved (hpc.2.2 ▸ hcache) (by omega), hstill, Or.inl ⟨old, published, hlt, hnext⟩⟩
  · obtain ⟨hnext, htail⟩ := hstuck.drainStep (g := g)
    refine ⟨hmoved ?_ ?_, hstill, Or.inr hnext⟩
    · rw [htail]
      exact h.room.cache_le
    · rw [htail]
      exact h.room.tail_lt

/-- A fresher copy of the tail is of no concern to the drain. -/
theorem Past.refreshed (h : Past g s) {pc : ProducerPc} :
    Unaware g { s with ring.tailCache := s.ring.tail, producer := pc } ∨
    Wedged { s with ring.tailCache := s.ring.tail, producer := pc } := by
  rcases h.drain with ⟨old, published, hlt, hinv⟩ | hstuck
  · exact Or.inl ⟨old, published, hlt, hinv.refreshCache (p := .idle) trivial⟩
  · exact Or.inr hstuck

theorem Past.loadTail (h : Past g s) (hstep : loadTail g .drop s = some s') :
    Unaware g s' ∨ Wedged s' := by
  unfold Spsc.loadTail at hstep
  simp only at hstep
  split at hstep
  next =>
    cases hstep
    exact h.refreshed
  next =>
    split at hstep
    next =>
      cases hstep
      exact h.refreshed
    next =>
      cases hstep
      exact h.refreshed
  next => cases hstep

theorem slotStep_past {a : SpscAction} (h : Past g s) (hstep : slotStep g fast s a = some s') :
    Past g s' := by
  by_cases hdrain : a = .drain
  · subst hdrain
    cases hstep
    exact h.drainStep
  have hroom := slotStep_room h.room hdrain hstep
  have hpast := Nat.le_trans h.past (slotStep_written_le hstep)
  have hasked := h.room.asked
  unfold Asked at hasked
  refine ⟨hroom, hpast, ?_⟩
  cases a with
  | reserve total =>
    change reserve g false total s = some s' at hstep
    unfold reserve at hstep
    split at hstep
    next =>
      split at hstep
      next =>
        simp only [Bool.false_eq_true, if_false] at hstep
        split at hstep
        next =>
          cases hstep
          exact h.drain
        next =>
          cases hstep
          exact h.drain
      next => cases hstep
    next => cases hstep
  | loadTail =>
    change loadPlace g fast s = some s' at hstep
    unfold loadPlace at hstep
    split at hstep
    next =>
      split at hstep
      next =>
        cases hstep
        exact h.drain
      next => exact h.loadTail hstep
    next => exact h.loadTail hstep
  | eobByte =>
    change eobByte g s = some s' at hstep
    unfold eobByte at hstep
    split at hstep
    next head total k hpc =>
      rw [hpc] at hasked
      obtain ⟨hpaid, hwr, hk⟩ := hasked
      have hdvd : g.slotSize ∣ head := hpaid.1 ▸ h.room.head_dvd
      simp only [Option.some.injEq] at hstep
      rw [(eob_addr hdvd hk).1] at hstep
      subst hstep
      exact h.store hpaid (Nat.le_add_right _ _) (eob_lt_needed hdvd hwr hk)
    next => cases hstep
  | write i b =>
    change write g i b s = some s' at hstep
    unfold write at hstep
    split at hstep
    next head total hpc =>
      rw [hpc] at hasked
      split at hstep
      next hi =>
        have hfits : g.aligned total ≤ g.capacity := by
          have hfree := hasked.2.2
          have htail := h.room.cache_le
          have hle := h.room.tail_le
          have hmask := mask_lt g
          rw [g.needed_eq] at hfree
          omega
        obtain ⟨q, hdst, hlo, hhi, -⟩ := dst_add_eq (g := g) hasked.2.1 hfits hi
        simp only [Option.some.injEq] at hstep
        rw [hdst] at hstep
        subst hstep
        exact h.store (p := s.producer) hasked hlo hhi
      next => cases hstep
    next => cases hstep
  | publish =>
    change publish g s = some s' at hstep
    unfold publish at hstep
    split at hstep
    next =>
      simp only at hstep
      split at hstep
      next =>
        cases hstep
        exact h.drain
      next => cases hstep
    next => cases hstep
  | abandon =>
    change abandon s = some s' at hstep
    unfold abandon at hstep
    split at hstep
    next =>
      cases hstep
      exact h.drain
    next => cases hstep
  | setDead =>
    cases hstep
    rcases h.drain with ⟨old, published, hlt, hinv⟩ | hstuck
    · exact Or.inl ⟨old, published, hlt, setDead_inv hinv⟩
    · exact Or.inr hstuck
  | drain => exact absurd rfl hdrain

/-! ## Every run -/

/-- What every reachable state satisfies: the ring invariant, or `head` has wrapped. -/
def Whole (g : Geometry) (s : Spsc) : Prop :=
  SpscInv g s ∧ s.written < wordSize ∨ Past g s

theorem Whole.room (h : Whole g s) : Room g s := by
  rcases h with ⟨hinv, hw⟩ | hpast
  · exact room_of_inv hinv hw
  · exact hpast.room

theorem slotStep_written {a : SpscAction} (ha : a ≠ .publish)
    (hstep : slotStep g fast s a = some s') : s'.written = s.written := by
  have hload : loadTail g .drop s = some s' → s'.written = s.written := by
    intro hload
    unfold loadTail at hload
    simp only at hload
    repeat' split at hload
    all_goals cases hload <;> rfl
  cases a with
  | reserve total =>
    change reserve g false total s = some s' at hstep
    unfold reserve at hstep
    simp only at hstep
    repeat' split at hstep
    all_goals cases hstep <;> rfl
  | loadTail =>
    change loadPlace g fast s = some s' at hstep
    unfold loadPlace at hstep
    split at hstep
    next =>
      split at hstep
      next =>
        cases hstep
        rfl
      next => exact hload hstep
    next => exact hload hstep
  | eobByte =>
    change eobByte g s = some s' at hstep
    unfold eobByte at hstep
    split at hstep
    all_goals cases hstep <;> rfl
  | write i b =>
    change write g i b s = some s' at hstep
    unfold write at hstep
    repeat' split at hstep
    all_goals cases hstep <;> rfl
  | publish => exact absurd rfl ha
  | abandon =>
    change abandon s = some s' at hstep
    unfold abandon at hstep
    split at hstep
    all_goals cases hstep <;> rfl
  | setDead =>
    cases hstep
    rfl
  | drain =>
    cases hstep
    exact drainStep_written

/-- The publication that takes `head` past `2^64` leaves the drain where it was. -/
theorem publish_past (h : SpscInv g s) (hw : s.written < wordSize)
    (hstep : publish g s = some s') (hpast : wordSize ≤ s'.written) : Past g s' := by
  refine ⟨publish_room (room_of_inv h hw) hstep, hpast, Or.inl ?_⟩
  have hhead := h.head_eq
  have hcount : ({ s with producer := .idle, written := s.ring.head } : Spsc)
      = { s with producer := .idle, written := s.written } :=
    congrArg (fun written => ({ s with producer := .idle, written } : Spsc)) hhead
  have hstopped : SpscInv g { s with producer := .idle, written := s.ring.head } := by
    rw [hcount]
    exact h.withProducer (p := .idle) trivial
  unfold publish at hstep
  split at hstep
  next =>
    simp only at hstep
    split at hstep
    next =>
      cases hstep
      exact ⟨s.ring.head, s.published, by omega, hstopped⟩
    next => cases hstep
  next => cases hstep

theorem init_whole (data : Nat → UInt8) : Whole g (init data) :=
  Or.inl ⟨init_inv g data, Nat.two_pow_pos 64⟩

theorem slotStep_whole {a : SpscAction} (h : Whole g s) (hstep : slotStep g fast s a = some s') :
    Whole g s' := by
  rcases h with ⟨hinv, hw⟩ | hpast
  · by_cases hw' : s'.written < wordSize
    · exact Or.inl ⟨slotStep_inv hinv hw hw' hstep, hw'⟩
    · by_cases ha : a = .publish
      · subst ha
        exact Or.inr (publish_past hinv hw hstep (by omega))
      · have hsame := slotStep_written ha hstep
        omega
  · exact Or.inr (slotStep_past hpast hstep)

theorem slots_whole {data : Nat → UInt8} (h : (slots g fast).Reach (init data) s) : Whole g s :=
  Machine.Runs.invariant (I := Whole g) (fun _ _ _ hinv _ hstep => slotStep_whole hinv hstep) h
    (init_whole data)

/-- So do the accesses of either build as `Spsc` has them. -/
theorem step_whole {a : SpscAction} (h : Whole g s) (hstep : step g fast .drop s a = some s') :
    Whole g s' := by
  by_cases hcall : fast = true ∧ ∃ total, a = .reserve total
  · obtain ⟨rfl, total, rfl⟩ := hcall
    obtain ⟨s₁, hlook, hload⟩ := reserve_fast hstep
    have hlook : slotStep g true s (.reserve total) = some s₁ := hlook
    have hwhole := slotStep_whole h hlook
    rcases hload with ⟨rfl, rfl⟩ | ⟨rfl, -⟩
    · have hload : slotStep g true { s with producer := .confirm s.ring.head total } .loadTail
          = some { s with producer := granted g s.ring.head total } := rfl
      exact slotStep_whole hwhole hload
    · exact hwhole
  · have hsame : step g fast .drop s a = slotStep g false s a := by
      rw [slotStep_default]
      cases fast with
      | false => rfl
      | true =>
        cases a with
        | reserve total => exact absurd ⟨rfl, total, rfl⟩ hcall
        | _ => rfl
    rw [hsame] at hstep
    exact slotStep_whole h hstep

theorem spsc_whole {data : Nat → UInt8} (h : (spsc g fast .drop).Reach (init data) s) :
    Whole g s :=
  Machine.Runs.invariant (I := Whole g) (fun _ _ _ hinv _ hstep => step_whole hinv hstep) h
    (init_whole data)

/-! ## A call is decided by the true tail -/

/-- The space the reserve asks for is free behind the true tail. -/
def Free (g : Geometry) (s : Spsc) (total : Nat) : Prop :=
  s.written + g.needed s.ring.head total - s.ring.tail ≤ g.capacity - 1

theorem free_iff (h : Room g s) {total : Nat} (htotal : total ≤ maxRecordSize) :
    g.fits s.ring.head (g.needed s.ring.head total) s.ring.tail = true ↔ Free g s total := by
  have htail := h.tail_le
  have hcap := g.capacity_pos
  rw [h.fits_iff htotal h.cache_le (Nat.le_refl _)]
  unfold Free Geometry.mask
  omega

/-- A call starts with a look at the cached copy and waits. Room found there is room. -/
theorem reserve_waits (h : Room g s) {total : Nat}
    (hstep : slotStep g fast s (.reserve total) = some s') :
    s.producer = .idle ∧ (headerSize ≤ total ∧ total ≤ maxRecordSize) ∧
      (s' = { s with producer := .confirm s.ring.head total } ∧ Free g s total ∨
        s' = { s with producer := .refresh s.ring.head total }) := by
  change reserve g false total s = some s' at hstep
  unfold reserve at hstep
  split at hstep
  next hpc =>
    split at hstep
    next hsize =>
      simp only [Bool.false_eq_true, if_false] at hstep
      refine ⟨hpc, hsize, ?_⟩
      split at hstep
      next hfits =>
        have hroom := (h.fits_iff hsize.2 (Nat.le_refl _) h.cache_le).mp hfits
        have hcache := h.cache_le
        have hcap := g.capacity_pos
        cases hstep
        refine Or.inl ⟨rfl, ?_⟩
        unfold Free
        unfold Geometry.mask at hroom
        omega
      next =>
        cases hstep
        exact Or.inr rfl
    next => cases hstep
  next => cases hstep

/-- At the place of the load the space is granted if it is free, and refused if it is not. -/
theorem loadSlot_exact (fast : Bool) (h : Room g s) {head total : Nat}
    (hwait : Waiting s head total) :
    head = s.ring.head ∧ total ≤ maxRecordSize ∧
      ∃ cache, slotStep g fast s .loadTail = some { s with
        ring.tailCache := cache
        producer := if g.fits head (g.needed head total) s.ring.tail then granted g head total
          else .idle } := by
  have hasked := h.asked
  unfold Asked at hasked
  show _ ∧ _ ∧ ∃ cache, loadPlace g fast s = some _
  unfold loadPlace
  rcases hwait with hpc | hpc
  · rw [hpc] at hasked
    obtain ⟨rfl, hhi, hroom⟩ := hasked
    have hfits : g.fits s.ring.head (g.needed s.ring.head total) s.ring.tail = true := by
      have hcache := h.cache_le
      rw [h.fits_iff hhi h.cache_le (Nat.le_refl _)]
      omega
    simp only [hpc, hfits, if_true]
    refine ⟨trivial, hhi, ?_⟩
    cases fast with
    | true => exact ⟨s.ring.tailCache, rfl⟩
    | false =>
      simp only [loadTail, hpc]
      exact ⟨s.ring.tail, rfl⟩
  · rw [hpc] at hasked
    obtain ⟨rfl, hhi⟩ := hasked
    simp only [hpc, loadTail]
    refine ⟨trivial, hhi, s.ring.tail, ?_⟩
    split <;> rfl

/-- The calls at `s` are exact: room found in the cached copy is free, and at the place of the
load a call gets its reservation exactly when its space is free behind the true tail. Neither
step stores to `head`, `tail` or the storage. -/
structure Exact (g : Geometry) (step : Spsc → SpscAction → Option Spsc) (s : Spsc) : Prop where
  /-- `written` counts what `head` counts. -/
  head_eq : s.ring.head = s.written % wordSize
  cached : ∀ total s', step s (.reserve total) = some s' →
    s'.producer ≠ .refresh s.ring.head total → Free g s total
  decided : ∀ head total s', Waiting s head total → step s .loadTail = some s' →
    head = s.ring.head ∧ (s'.producer = granted g head total ∧ Free g s total ∨
      s'.producer = .idle ∧ ¬ Free g s total)
  frame : ∀ a s', (∃ total, a = .reserve total) ∨ a = .loadTail → step s a = some s' →
    s'.ring.head = s.ring.head ∧ s'.ring.tail = s.ring.tail ∧ s'.ring.data = s.ring.data

theorem waiting_of_loadPlace (hstep : slotStep g fast s .loadTail = some s') :
    ∃ head total, Waiting s head total := by
  change loadPlace g fast s = some s' at hstep
  unfold loadPlace loadTail at hstep
  cases hpc : s.producer with
  | confirm head total => exact ⟨head, total, Or.inl hpc⟩
  | refresh head total => exact ⟨head, total, Or.inr hpc⟩
  | idle => simp only [hpc] at hstep; cases hstep
  | writeEob head total k => simp only [hpc] at hstep; cases hstep
  | filling head total => simp only [hpc] at hstep; cases hstep

theorem exact_slots (h : Room g s) : Exact g (slotStep g fast) s := by
  refine ⟨h.head_eq, fun total s' hstep hpc => ?_, fun head total s' hwait hstep => ?_, ?_⟩
  · obtain ⟨-, -, ⟨-, hfree⟩ | rfl⟩ := reserve_waits h hstep
    · exact hfree
    · exact absurd rfl hpc
  · obtain ⟨rfl, hhi, cache, hload⟩ := loadSlot_exact fast h hwait
    rw [hload] at hstep
    cases hstep
    rw [← free_iff h hhi]
    refine ⟨rfl, ?_⟩
    split
    next hfits => exact Or.inl ⟨rfl, hfits⟩
    next hfull => exact Or.inr ⟨rfl, hfull⟩
  · rintro a s' (⟨total, rfl⟩ | rfl) hstep
    · obtain ⟨-, -, ⟨rfl, -⟩ | rfl⟩ := reserve_waits h hstep
      · exact ⟨rfl, rfl, rfl⟩
      · exact ⟨rfl, rfl, rfl⟩
    · obtain ⟨head, total, hwait⟩ := waiting_of_loadPlace hstep
      obtain ⟨-, -, cache, hload⟩ := loadSlot_exact fast h hwait
      rw [hload] at hstep
      cases hstep
      exact ⟨rfl, rfl, rfl⟩

/-- Either build as `Spsc` has it. -/
theorem exact_step (h : Room g s) : Exact g (step g fast .drop) s := by
  have hslots : Exact g (slotStep g false) s := exact_slots h
  cases fast with
  | false =>
    have hsame : slotStep g false = step g false .drop :=
      funext fun _ => funext fun a => slotStep_default a
    rw [hsame] at hslots
    exact hslots
  | true =>
    have hload : step g true .drop s .loadTail = slotStep g false s .loadTail :=
      (slotStep_default (s := s) .loadTail).symm
    refine ⟨h.head_eq, fun total s' hstep hpc => ?_, fun head total s' hwait hstep => ?_, ?_⟩
    · obtain ⟨s₁, hlook, ⟨rfl, -⟩ | ⟨-, rfl⟩⟩ := reserve_fast hstep
      · exact hslots.cached total _ hlook nofun
      · exact absurd rfl hpc
    · rw [hload] at hstep
      exact hslots.decided head total s' hwait hstep
    · rintro a s' (⟨total, rfl⟩ | rfl) hstep
      · obtain ⟨s₁, hlook, ⟨-, rfl⟩ | ⟨-, rfl⟩⟩ := reserve_fast hstep
        · exact ⟨rfl, rfl, rfl⟩
        · exact ⟨rfl, rfl, rfl⟩
      · rw [hload] at hstep
        exact hslots.frame _ s' (Or.inr rfl) hstep

end Spsc

end Ticklog
