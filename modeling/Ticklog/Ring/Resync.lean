import Ticklog.Ring.SpscSafe

/-!
# A pass over arbitrary bytes (`drain_ring_inner` in `src/drain.rs`)

Nothing is assumed of the storage here. A pass works from `tail` up to the head it loaded
or had cached, and trusts the size field of every frame that passes the framing check: the
check bounds a frame by the end of the buffer, not by the head, and a frame of size 0 ends
the pass before the check is made. So what the pass reads and where it ends depends on the
chain of frames that starts at `tail` (`FramesEnd`): it must come to the head exactly, or
to a frame that the check rejects.
-/

namespace Ticklog

open Lib

/-- The prefix of the frame at `pos`. -/
def prefixAt (g : Geometry) (data : Nat → UInt8) (pos : Nat) : Prefix :=
  readPrefix (slice data (g.offset pos) 4)

/-- The framing check of the frame at `pos`. -/
def verdictAt (g : Geometry) (data : Nat → UInt8) (pos : Nat) : Verdict :=
  verdict g.capacity (g.offset pos) (prefixAt g data pos)

/-- The frames from `pos` on, each ending at or before `stop`, come to `stop` or to one that
the framing check rejects. -/
inductive FramesEnd (g : Geometry) (data : Nat → UInt8) (stop : Nat) : Nat → Prop where
  | stop : FramesEnd g data stop stop
  | corrupt {pos : Nat} :
      pos < stop → verdictAt g data pos = .corrupt → FramesEnd g data stop pos
  | filler {pos : Nat} :
      verdictAt g data pos = .filler → pos + g.aligned (prefixAt g data pos).totalSize ≤ stop →
      FramesEnd g data stop (pos + g.aligned (prefixAt g data pos).totalSize) →
      FramesEnd g data stop pos
  | record {pos total : Nat} :
      verdictAt g data pos = .record total → pos + g.aligned total ≤ stop →
      FramesEnd g data stop (pos + g.aligned total) → FramesEnd g data stop pos

namespace Spsc

variable {g : Geometry} {s : Spsc} {lo stop : Nat}

/-- The head a pass works with: its cached copy, reloaded when that says caught up. -/
def workingHead (s : Spsc) : Nat :=
  if s.ring.tail = s.ring.headCache then s.ring.head else s.ring.headCache

/-- What the drain reads at its position lies in `[lo, stop)`. -/
def ReadsWithin (g : Geometry) (lo stop : Nat) (s : Spsc) : Prop :=
  match s.drain with
  | .readPrefix t _ _ => lo ≤ t ∧ t + prefixLen g (g.offset t) ≤ stop
  | .readRecord t _ total _ => lo ≤ t ∧ t + total ≤ stop
  | _ => True

/-- The pass under way ends, leaves `tail` at `stop`, and reads nothing outside `[lo, stop)`
until then. -/
inductive EndsAt (g : Geometry) (lo stop : Nat) : Spsc → Prop where
  | idle {s : Spsc} : s.drain = .idle → s.ring.tail = stop → EndsAt g lo stop s
  | access {s : Spsc} : s.drain ≠ .idle → ReadsWithin g lo stop s →
      EndsAt g lo stop (drainStep g s) → EndsAt g lo stop s

theorem endsAt_idle (hpc : s.drain = .idle) : EndsAt g lo stop s ↔ s.ring.tail = stop := by
  refine ⟨fun h => ?_, .idle hpc⟩
  cases h with
  | idle _ htail => exact htail
  | access hne => exact absurd hpc hne

theorem endsAt_access (hpc : s.drain ≠ .idle) :
    EndsAt g lo stop s ↔ ReadsWithin g lo stop s ∧ EndsAt g lo stop (drainStep g s) := by
  refine ⟨fun h => ?_, fun h => .access hpc h.1 h.2⟩
  cases h with
  | idle hidle => exact absurd hidle hpc
  | access _ hread hnext => exact ⟨hread, hnext⟩

/-! ## One frame -/

/-- Where the drain goes on once it has read the prefix of the frame at `t`. -/
def afterPrefix (g : Geometry) (data : Nat → UInt8) (t hc : Nat) : DrainPc :=
  match verdictAt g data t with
  | .empty => .storeTail t hc
  | .corrupt => .storeTail hc hc
  | .filler => .scan (wrappingAdd t (g.aligned (prefixAt g data t).totalSize)) hc
  | .record total => .readRecord t hc total []

theorem endsAt_storeTail {t hc : Nat} (hpc : s.drain = .storeTail t hc) :
    EndsAt g lo stop s ↔ t = stop := by
  have hstep : drainStep g s = { s with ring.tail := t, ring.headCache := hc, drain := .idle } := by
    unfold drainStep
    simp only [hpc]
  rw [endsAt_access (by rw [hpc]; nofun), hstep, endsAt_idle rfl]
  unfold ReadsWithin
  simp only [hpc, true_and]

/-- The prefix is read byte by byte; then the framing check decides. -/
theorem endsAt_readPrefix {t hc : Nat} {acc : List UInt8} (hdvd : g.slotSize ∣ t)
    (hpc : s.drain = .readPrefix t hc acc) (hlen : acc.length ≤ 4)
    (hacc : acc = slice s.ring.data (g.offset t) acc.length) :
    EndsAt g lo stop s ↔ (lo ≤ t ∧ t + 4 ≤ stop) ∧
      EndsAt g lo stop { s with drain := afterPrefix g s.ring.data t hc } := by
  have hfour := prefixLen_eq hdvd
  induction hn : 4 - acc.length generalizing s acc with
  | zero =>
    have hacc4 : acc = slice s.ring.data (g.offset t) 4 := by
      rw [hacc, show acc.length = 4 by omega]
    have hstep : drainStep g s = { s with drain := afterPrefix g s.ring.data t hc } := by
      unfold drainStep afterPrefix verdictAt prefixAt
      rw [hpc]
      dsimp only
      rw [if_neg (by omega), ← hacc4]
      cases verdict g.capacity (g.offset t) (readPrefix acc) <;> rfl
    rw [endsAt_access (by rw [hpc]; nofun), hstep]
    unfold ReadsWithin
    simp only [hpc, hfour]
  | succ n ih =>
    have hstep : drainStep g s = { s with
        drain := .readPrefix t hc (acc ++ [s.ring.data (g.offset t + acc.length)]) } := by
      unfold drainStep
      simp only [hpc]
      rw [if_pos (by omega)]
    have hnext := ih (s := { s with
        drain := .readPrefix t hc (acc ++ [s.ring.data (g.offset t + acc.length)]) }) rfl
      (by simp; omega) (by rw [List.length_append, List.length_singleton, slice_succ, ← hacc])
      (by simp; omega)
    rw [endsAt_access (by rw [hpc]; nofun), hstep]
    refine (and_congr_right fun _ => hnext).trans ?_
    unfold ReadsWithin
    simp only [hpc, hfour]
    exact ⟨fun h => h.2, fun h => ⟨h.1, h⟩⟩

/-- The record is read byte by byte and handed over; the walk goes on behind it. -/
theorem endsAt_readRecord {t hc total : Nat} {acc : List UInt8}
    (hpc : s.drain = .readRecord t hc total acc) (hlen : acc.length ≤ total) :
    ∃ rec, EndsAt g lo stop s ↔ (lo ≤ t ∧ t + total ≤ stop) ∧
      EndsAt g lo stop { s with
        sink := s.sink ++ [rec], drain := .scan (wrappingAdd t (g.aligned total)) hc } := by
  induction hn : total - acc.length generalizing s acc with
  | zero =>
    have hstep : drainStep g s = { s with
        sink := s.sink ++ [acc], drain := .scan (wrappingAdd t (g.aligned total)) hc } := by
      unfold drainStep
      simp only [hpc]
      rw [if_neg (by omega)]
    refine ⟨acc, ?_⟩
    rw [endsAt_access (by rw [hpc]; nofun), hstep]
    unfold ReadsWithin
    simp only [hpc]
  | succ n ih =>
    have hstep : drainStep g s = { s with
        drain := .readRecord t hc total (acc ++ [s.ring.data (g.offset t + acc.length)]) } := by
      unfold drainStep
      simp only [hpc]
      rw [if_pos (by omega)]
    obtain ⟨rec, hnext⟩ := ih (s := { s with
        drain := .readRecord t hc total (acc ++ [s.ring.data (g.offset t + acc.length)]) }) rfl
      (by simp; omega) (by simp; omega)
    refine ⟨rec, ?_⟩
    rw [endsAt_access (by rw [hpc]; nofun), hstep]
    refine (and_congr_right fun _ => hnext).trans ?_
    unfold ReadsWithin
    simp only [hpc]
    exact ⟨fun h => h.2, fun h => ⟨h.1, h⟩⟩

/-- At the top of the loop with the head reached. -/
theorem endsAt_scan_stop {t hc : Nat} (hpc : s.drain = .scan t hc) (hge : ¬ t < hc) :
    EndsAt g lo stop s ↔ t = stop := by
  have hstep : drainStep g s = { s with drain := .storeTail t hc } := by
    unfold drainStep
    simp only [hpc]
    rw [if_neg hge]
  rw [endsAt_access (by rw [hpc]; nofun), hstep, endsAt_storeTail rfl]
  unfold ReadsWithin
  simp only [hpc, true_and]

/-- At the top of the loop with a frame ahead. -/
theorem endsAt_scan {t hc : Nat} (hdvd : g.slotSize ∣ t) (hpc : s.drain = .scan t hc)
    (hlt : t < hc) :
    EndsAt g lo stop s ↔ (lo ≤ t ∧ t + 4 ≤ stop) ∧
      EndsAt g lo stop { s with drain := afterPrefix g s.ring.data t hc } := by
  have hstep : drainStep g s = { s with drain := .readPrefix t hc [] } := by
    unfold drainStep
    simp only [hpc]
    rw [if_pos hlt]
  have hread : EndsAt g lo stop { s with drain := .readPrefix t hc [] } ↔
      (lo ≤ t ∧ t + 4 ≤ stop) ∧
        EndsAt g lo stop { s with drain := afterPrefix g s.ring.data t hc } :=
    endsAt_readPrefix hdvd rfl (Nat.zero_le 4) rfl
  rw [endsAt_access (by rw [hpc]; nofun), hstep, hread]
  unfold ReadsWithin
  simp only [hpc, true_and]

/-! ## The whole pass -/

/-- The range a pass works on. -/
structure Range (g : Geometry) (lo stop : Nat) : Prop where
  lo_dvd : g.slotSize ∣ lo
  stop_dvd : g.slotSize ∣ stop
  le : lo ≤ stop
  span : stop ≤ lo + g.capacity
  word : stop < wordSize

/-- A frame's size is that of the `u16` in its prefix. -/
theorem totalSize_lt (data : Nat → UInt8) (pos : Nat) :
    (prefixAt g data pos).totalSize < 65536 := readPrefix_totalSize_lt _

/-- Behind a frame that overruns `stop` nothing can be mended: the running tail is past the
end, or, wrapped, before the start. -/
theorem overrun_not_endsAt {pos n : Nat} (hr : Range g lo stop) (hlo : lo ≤ pos)
    (hpos : pos < stop) (hdvd : g.slotSize ∣ pos) (hn : g.slotSize ∣ n) (hsmall : n < 2 ^ 18)
    (hover : ¬ pos + n ≤ stop) (hpc : s.drain = .scan (wrappingAdd pos n) stop) :
    ¬ EndsAt g lo stop s := by
  have hspan := hr.span
  have hcap := g.capacity_le
  have hword := hr.word
  by_cases hwrap : pos + n < wordSize
  · rw [wrappingAdd_of_lt hwrap] at hpc
    rw [endsAt_scan_stop hpc (by omega)]
    omega
  · have hback : wrappingAdd pos n = pos + n - wordSize := by
      unfold wrappingAdd
      rw [Nat.mod_eq_sub_mod (by omega), Nat.mod_eq_of_lt (by unfold wordSize at *; omega)]
    have hbefore : pos + n - wordSize < lo := by
      unfold wordSize at *
      omega
    rw [hback] at hpc
    have hdvd' : g.slotSize ∣ pos + n - wordSize :=
      Nat.dvd_sub (Nat.dvd_add hdvd hn) g.slot_dvd_word
    rw [endsAt_scan hdvd' hpc (by omega)]
    omega

theorem aligned_small {total : Nat} (h : total < 65536) :
    g.aligned total < 2 ^ 18 ∧ g.slotSize ∣ g.aligned total := by
  have ha : g.aligned total < total + g.slotSize := g.aligned_lt (by omega)
  have hs : g.slotSize ≤ 128 := by rcases g.slot_ok with h | h <;> omega
  exact ⟨by omega, g.slot_dvd_aligned (by omega)⟩

/-- A chain of frames that ends makes a pass that ends. -/
theorem endsAt_of_framesEnd {data : Nat → UInt8} {pos : Nat} (hr : Range g lo stop)
    (h : FramesEnd g data stop pos) (hlo : lo ≤ pos) (hdvd : g.slotSize ∣ pos)
    (hdata : s.ring.data = data) (hpc : s.drain = .scan pos stop) : EndsAt g lo stop s := by
  have hslot : ∀ {pos : Nat}, g.slotSize ∣ pos → pos < stop → pos + 4 ≤ stop := by
    intro pos hdvd hlt
    have hle := Nat.le_of_dvd (by omega) (Nat.dvd_sub hr.stop_dvd hdvd)
    have := g.slot_pos
    omega
  induction h generalizing s with
  | stop => exact (endsAt_scan_stop hpc (Nat.lt_irrefl _)).mpr rfl
  | @corrupt pos hlt hverdict =>
    refine (endsAt_scan hdvd hpc hlt).mpr ⟨⟨hlo, hslot hdvd hlt⟩, ?_⟩
    unfold afterPrefix
    rw [hdata, hverdict]
    exact (endsAt_storeTail rfl).mpr rfl
  | @filler pos hverdict hle _ ih =>
    have hsize := totalSize_lt (g := g) data pos
    have hmin := verdict_eq_filler hverdict
    have hge : (prefixAt g data pos).totalSize ≤ g.aligned _ := g.le_aligned (by omega)
    have hword := hr.word
    unfold headerSize at hmin
    refine (endsAt_scan hdvd hpc (by omega)).mpr ⟨⟨hlo, hslot hdvd (by omega)⟩, ?_⟩
    unfold afterPrefix
    rw [hdata, hverdict]
    refine ih (by omega) (Nat.dvd_add hdvd (aligned_small hsize).2) hdata ?_
    simp only
    rw [wrappingAdd_of_lt (by omega)]
  | @record pos total hverdict hle _ ih =>
    obtain ⟨htotal, hmin⟩ := verdict_eq_record hverdict
    have hsize : total < 65536 := htotal ▸ totalSize_lt data pos
    have hge : total ≤ g.aligned total := g.le_aligned (by omega)
    have hword := hr.word
    unfold headerSize at hmin
    refine (endsAt_scan hdvd hpc (by omega)).mpr ⟨⟨hlo, hslot hdvd (by omega)⟩, ?_⟩
    unfold afterPrefix
    rw [hdata, hverdict]
    obtain ⟨rec, hread⟩ : ∃ rec, EndsAt g lo stop { s with
          drain := .readRecord pos stop total [] } ↔ (lo ≤ pos ∧ pos + total ≤ stop) ∧
        EndsAt g lo stop { s with
          sink := s.sink ++ [rec], drain := .scan (wrappingAdd pos (g.aligned total)) stop } :=
      endsAt_readRecord rfl (Nat.zero_le total)
    refine hread.mpr ⟨⟨hlo, by omega⟩, ?_⟩
    refine ih (by omega) (Nat.dvd_add hdvd (aligned_small hsize).2) hdata ?_
    simp only
    rw [wrappingAdd_of_lt (by omega)]

/-- A pass that ends walked a chain of frames that ends. The induction is on the distance to
the head, which every frame inside the range shortens. -/
theorem framesEnd_of_endsAt {data : Nat → UInt8} {pos : Nat} (hr : Range g lo stop)
    (hlo : lo ≤ pos) (hpos : pos ≤ stop) (hdvd : g.slotSize ∣ pos) (hdata : s.ring.data = data)
    (hpc : s.drain = .scan pos stop) (h : EndsAt g lo stop s) : FramesEnd g data stop pos := by
  induction hn : stop - pos using Nat.strongRecOn generalizing pos s with
  | ind n ih =>
    by_cases hlt : pos < stop
    · have hnext := ((endsAt_scan hdvd hpc hlt).mp h).2
      unfold afterPrefix at hnext
      rw [hdata] at hnext
      cases hverdict : verdictAt g data pos with
      | empty =>
        rw [hverdict] at hnext
        exact absurd ((endsAt_storeTail rfl).mp hnext) (Nat.ne_of_lt hlt)
      | corrupt => exact .corrupt hlt hverdict
      | filler =>
        rw [hverdict] at hnext
        have hsize := totalSize_lt (g := g) data pos
        obtain ⟨hsmall, hdvd'⟩ := aligned_small (g := g) hsize
        have hmin := verdict_eq_filler hverdict
        have hge : (prefixAt g data pos).totalSize ≤ g.aligned _ := g.le_aligned (by omega)
        have hword := hr.word
        unfold headerSize at hmin
        have hle : pos + g.aligned (prefixAt g data pos).totalSize ≤ stop := by
          by_contra hover
          exact overrun_not_endsAt hr hlo hlt hdvd hdvd' hsmall hover rfl hnext
        rw [wrappingAdd_of_lt (by omega)] at hnext
        have hdata' : ∀ pc, ({ s with drain := pc } : Spsc).ring.data = data := fun _ => hdata
        exact .filler hverdict hle (ih _ (by omega) (by omega) hle (Nat.dvd_add hdvd hdvd')
          (hdata' _) rfl hnext rfl)
      | record total =>
        rw [hverdict] at hnext
        obtain ⟨htotal, hmin⟩ := verdict_eq_record hverdict
        have hsize : total < 65536 := htotal ▸ totalSize_lt data pos
        obtain ⟨hsmall, hdvd'⟩ := aligned_small (g := g) hsize
        have hge : total ≤ g.aligned total := g.le_aligned (by omega)
        have hword := hr.word
        unfold headerSize at hmin
        obtain ⟨rec, hread⟩ : ∃ rec, EndsAt g lo stop { s with
              drain := .readRecord pos stop total [] } ↔ (lo ≤ pos ∧ pos + total ≤ stop) ∧
            EndsAt g lo stop { s with
              sink := s.sink ++ [rec], drain := .scan (wrappingAdd pos (g.aligned total)) stop } :=
          endsAt_readRecord rfl (Nat.zero_le total)
        have hbehind := (hread.mp hnext).2
        have hle : pos + g.aligned total ≤ stop := by
          by_contra hover
          exact overrun_not_endsAt hr hlo hlt hdvd hdvd' hsmall hover rfl hbehind
        rw [wrappingAdd_of_lt (by omega)] at hbehind
        have hdata' : ∀ pc, ({ s with sink := s.sink ++ [rec], drain := pc } : Spsc).ring.data
            = data := fun _ => hdata
        exact .record hverdict hle (ih _ (by omega) (by omega) hle (Nat.dvd_add hdvd hdvd')
          (hdata' _) rfl hbehind rfl)
    · rw [show pos = stop by omega]
      exact .stop

/-- For every capacity, whatever the storage holds and wherever the slot-aligned indices
stand: the pass that starts now ends with `tail` at the head it worked with, having read
nothing outside `[tail, head)`, exactly when the frames from `tail` on come to that head or
to a frame the framing check rejects, none of them reaching past it. -/
theorem pass_endsAt_iff (g : Geometry) (s : Spsc) (hidle : s.drain = .idle)
    (hr : Range g s.ring.tail (workingHead s)) :
    EndsAt g s.ring.tail (workingHead s) (drainStep g s) ↔
      FramesEnd g s.ring.data (workingHead s) s.ring.tail := by
  -- at the top of the loop both sides say the same
  have hscan : ∀ {s₁ : Spsc}, s₁.ring.data = s.ring.data →
      s₁.drain = .scan s.ring.tail (workingHead s) →
      (EndsAt g s.ring.tail (workingHead s) s₁ ↔
        FramesEnd g s.ring.data (workingHead s) s.ring.tail) := by
    intro s₁ hdata hpc
    exact ⟨framesEnd_of_endsAt hr (Nat.le_refl _) hr.le hr.lo_dvd hdata hpc,
      fun h => endsAt_of_framesEnd hr h (Nat.le_refl _) hr.lo_dvd hdata hpc⟩
  by_cases hcache : s.ring.tail = s.ring.headCache
  · have hhead : workingHead s = s.ring.head := if_pos hcache
    have hstep : drainStep g s = { s with drain := .loadHead s.ring.tail } := by
      unfold drainStep
      simp only [hidle]
      rw [if_pos hcache]
    rw [hstep, endsAt_access (by nofun)]
    by_cases hempty : s.ring.tail = s.ring.head
    · have hload : drainStep g { s with drain := .loadHead s.ring.tail }
          = { s with seen := s.published.length, drain := .idle } := by
        unfold drainStep
        simp only
        rw [if_pos hempty]
      rw [hload, endsAt_idle rfl, hhead]
      simp only [← hempty]
      exact ⟨fun _ => .stop, fun _ => ⟨trivial, trivial⟩⟩
    · have hload : drainStep g { s with drain := .loadHead s.ring.tail }
          = { s with
              seen := s.published.length, drain := .scan s.ring.tail (workingHead s) } := by
        unfold drainStep
        simp only
        rw [if_neg hempty, hhead]
      have hrest : EndsAt g s.ring.tail (workingHead s) { s with
            seen := s.published.length, drain := .scan s.ring.tail (workingHead s) } ↔
          FramesEnd g s.ring.data (workingHead s) s.ring.tail := hscan rfl rfl
      rw [hload, hrest]
      exact ⟨fun h => h.2, fun h => ⟨trivial, h⟩⟩
  · have hhead : workingHead s = s.ring.headCache := if_neg hcache
    have hstep : drainStep g s = { s with drain := .scan s.ring.tail (workingHead s) } := by
      unfold drainStep
      simp only [hidle]
      rw [if_neg hcache, hhead]
    rw [hstep]
    exact hscan rfl rfl

/-- A ring with one slot published, its first bytes as given. -/
def oneSlotOf (bytes : List UInt8) : Spsc :=
  let s := Spsc.init fun i => bytes.getD i 0
  { s with ring.head := 64 }

theorem oneSlotOf_range (bytes : List UInt8) :
    Range twoSlots (oneSlotOf bytes).ring.tail (workingHead (oneSlotOf bytes)) where
  lo_dvd := Nat.dvd_zero _
  stop_dvd := Nat.dvd_refl 64
  le := Nat.zero_le _
  span := by
    show 64 ≤ 0 + 128
    decide
  word := by
    show 64 < wordSize
    decide

/-- A frame with a wrong version is skipped, up to the head. -/
theorem pass_endsAt_badVersion :
    EndsAt twoSlots 0 64 (drainStep twoSlots (oneSlotOf [9, 1, 32, 0])) :=
  (pass_endsAt_iff twoSlots (oneSlotOf [9, 1, 32, 0]) rfl (oneSlotOf_range _)).mpr
    (.corrupt (by decide) (by decide))

/-- A frame whose size field reads 128 in the published 64 bytes is taken for a record; one
whose size field reads 0 ends the pass where it stands. -/
theorem corrupt_size_trusted :
    ¬ EndsAt twoSlots 0 64 (drainStep twoSlots (oneSlotOf [2, 1, 128, 0])) ∧
    ¬ EndsAt twoSlots 0 64 (drainStep twoSlots (oneSlotOf [2, 1, 0, 0])) := by
  have hpass : ∀ bytes, EndsAt twoSlots 0 64 (drainStep twoSlots (oneSlotOf bytes)) →
      FramesEnd twoSlots (oneSlotOf bytes).ring.data 64 0 := by
    intro bytes h
    have hload := ((endsAt_access (by nofun)).mp h).2
    have hdata : (drainStep twoSlots (drainStep twoSlots (oneSlotOf bytes))).ring.data
        = (oneSlotOf bytes).ring.data := rfl
    exact framesEnd_of_endsAt (oneSlotOf_range bytes) (Nat.le_refl 0) (Nat.zero_le 64)
      (Nat.dvd_zero _) hdata rfl hload
  constructor
  · intro h
    cases hpass _ h with
    | corrupt _ hverdict => exact absurd hverdict (by decide)
    | filler hverdict => exact absurd hverdict (by decide)
    | @record _ total hverdict hle =>
      have htotal : verdictAt twoSlots (oneSlotOf [2, 1, 128, 0]).ring.data 0 = .record 128 := by
        decide
      rw [htotal] at hverdict
      cases hverdict
      exact absurd hle (by decide)
  · intro h
    cases hpass _ h with
    | corrupt _ hverdict => exact absurd hverdict (by decide)
    | filler hverdict => exact absurd hverdict (by decide)
    | @record _ total hverdict =>
      have hempty : verdictAt twoSlots (oneSlotOf [2, 1, 0, 0]).ring.data 0 = .empty := by decide
      rw [hempty] at hverdict
      cases hverdict

end Spsc

end Ticklog
