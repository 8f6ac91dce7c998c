import Ticklog.Lib.Bump
import Ticklog.Ring.Basic

/-!
# The arena's regions (`vendor/r3/src/typed_arena.rs`, `vendor/r3/src/lib.rs`)

`Arena::with_regions` maps one buffer and splits it into a region for each thread; a thread whose
region is full goes on in a spill region, mapped on demand. Here are the sizes, the split, and
`region_alloc`, which cuts the next block off a region. Addresses are natural numbers below
`2^64`, and `platform` is what the operating system says.
-/

namespace Ticklog

open Lib

/-- The page sizes of the system, powers of two. -/
structure Platform where
  pageSize : Nat
  hugePageSize : Nat
  page_pow2 : ∃ k, pageSize = 2 ^ k
  huge_pow2 : ∃ k, hugePageSize = 2 ^ k

/-- `usize::next_multiple_of`. -/
def nextMultipleOf (n m : Nat) : Nat := (n + (m - 1)) / m * m

/-- One contiguous range a thread bumps in. -/
structure ArenaRegion where
  ptr : Nat
  len : Nat
  used : Nat
deriving DecidableEq, Repr

namespace ArenaRegion

def span (r : ArenaRegion) : Span := ⟨r.ptr, r.len⟩

/-- `region_alloc` up to its exchange: the aligned address behind `cur` and the cursor behind
the block, or `none` if it does not fit. -/
def bump (r : ArenaRegion) (cur size align : Nat) : Option (Nat × Nat) :=
  let addr := alignUp (r.ptr + cur) align
  let newCur := addr - r.ptr + size
  if newCur < wordSize ∧ newCur ≤ r.len then some (addr, newCur) else none

end ArenaRegion

/-- The size `SharedArena::new` maps: a large arena is rounded up to whole huge pages. -/
def arenaSize (plat : Platform) (totalCapacity : Nat) : Nat :=
  if plat.hugePageSize ≤ totalCapacity then nextMultipleOf totalCapacity plat.hugePageSize
  else totalCapacity

/-- `SharedArena::split_with`: `numThreads` chunks, the last up to the end. -/
def splitWith (base total numThreads : Nat) : List ArenaRegion :=
  let chunkSize := nextMultipleOf (total / numThreads) 16
  (List.range numThreads).map fun i =>
    let start := i * chunkSize
    let stop := if i + 1 = numThreads then total else start + chunkSize
    ⟨base + start, wrappingSub stop start, 0⟩

/-- The width of a primary region, in `with_regions_bytes`. -/
def chunkBytes (perRegionBytes : Nat) : Nat := max (nextMultipleOf perRegionBytes 16) 16

/-- `total_bytes` of `with_regions(regions, elements)` over elements of `elemSize` bytes. -/
def totalBytes (regions elements elemSize : Nat) : Nat :=
  chunkBytes (elements * max elemSize 1) * max regions 1

/-- The primary regions of `with_regions`, the buffer mapped at `base`. -/
def primaryRegions (plat : Platform) (regions elements elemSize base : Nat) : List ArenaRegion :=
  splitWith base (arenaSize plat (totalBytes regions elements elemSize)) (max regions 1)

/-- `spill_size`: twice the average primary region, in whole pages. -/
def spillSize (plat : Platform) (totalBytes regions : Nat) : Nat :=
  nextMultipleOf (max (totalBytes / max regions 1 * 2) plat.pageSize) plat.pageSize

/-! ## Rounding -/

theorem nextMultipleOf_of_dvd {n m : Nat} (hm : 0 < m) (h : m ∣ n) : nextMultipleOf n m = n := by
  obtain ⟨k, rfl⟩ := h
  unfold nextMultipleOf
  rw [Nat.mul_add_div hm, Nat.div_eq_of_lt (by omega), Nat.add_zero, Nat.mul_comm]

/-- Rounding up to a power of two. -/
theorem alignUp_spec {x k : Nat} (hk : k ≤ 64) (hx : x + (2 ^ k - 1) < wordSize) :
    x ≤ alignUp x (2 ^ k) ∧ alignUp x (2 ^ k) ≤ x + (2 ^ k - 1) ∧ 2 ^ k ∣ alignUp x (2 ^ k) := by
  have hpos := Nat.two_pow_pos k
  have heq : alignUp x (2 ^ k) = (x + (2 ^ k - 1)) / 2 ^ k * 2 ^ k := by
    unfold alignUp
    rw [wrappingAdd_of_lt hx, and_wordNot_mask hx hk]
  have hdiv := Nat.div_add_mod (x + (2 ^ k - 1)) (2 ^ k)
  have hmod := Nat.mod_lt (x + (2 ^ k - 1)) hpos
  have hcomm := Nat.mul_comm (2 ^ k) ((x + (2 ^ k - 1)) / 2 ^ k)
  rw [heq]
  exact ⟨by omega, by omega, Nat.dvd_mul_left _ _⟩

/-! ## The split -/

/-- The chunks do not reach past the buffer. -/
def SplitFits (total n : Nat) : Prop := (n - 1) * nextMultipleOf (total / n) 16 ≤ total

theorem wrappingSub_of_le {a b : Nat} (hle : b ≤ a) (ha : a < wordSize) :
    wrappingSub a b = a - b := by
  unfold wrappingSub
  rw [Nat.mod_eq_of_lt (Nat.lt_of_le_of_lt hle ha),
    show a + (wordSize - b) = a - b + wordSize by omega, Nat.add_mod_right]
  exact Nat.mod_eq_of_lt (by omega)

/-- Chunk `i` of the split, when the chunks fit. -/
theorem splitWith_getElem (base : Nat) {total n i : Nat} (hfits : SplitFits total n)
    (htotal : total < wordSize) (hi : i < n) :
    ∃ r, (splitWith base total n)[i]? = some r ∧ r.used = 0 ∧
      r.ptr = base + i * nextMultipleOf (total / n) 16 ∧
      r.span.stop = base +
        (if i + 1 = n then total else (i + 1) * nextMultipleOf (total / n) 16) ∧
      r.span.stop ≤ base + total := by
  unfold SplitFits at hfits
  unfold splitWith
  generalize nextMultipleOf (total / n) 16 = chunk at hfits ⊢
  have hstart : i * chunk ≤ (n - 1) * chunk := Nat.mul_le_mul_right _ (by omega)
  have hsucc : (i + 1) * chunk = i * chunk + chunk := Nat.succ_mul i chunk
  simp only [List.getElem?_map, List.getElem?_range hi, Option.map_some]
  refine ⟨_, rfl, rfl, rfl, ?_⟩
  show base + i * chunk + wrappingSub _ (i * chunk) = _ ∧
    base + i * chunk + wrappingSub _ (i * chunk) ≤ _
  by_cases hlast : i + 1 = n
  · rw [if_pos hlast, if_pos hlast, wrappingSub_of_le (by omega) htotal]
    omega
  · have hle : (i + 1) * chunk ≤ (n - 1) * chunk := Nat.mul_le_mul_right _ (by omega)
    rw [if_neg hlast, if_neg hlast, wrappingSub_of_le (by omega) (by omega)]
    omega

/-- Chunks that fit lie in the buffer, one behind the other, nothing of them taken. -/
theorem splitWith_apart (base : Nat) {total n : Nat} (hfits : SplitFits total n)
    (htotal : total < wordSize) :
    ((splitWith base total n).map ArenaRegion.span).Pairwise Span.Apart ∧
      ∀ r ∈ splitWith base total n, r.used = 0 ∧ r.span.Within ⟨base, total⟩ := by
  have hlen : (splitWith base total n).length = n := by
    unfold splitWith
    rw [List.length_map, List.length_range]
  have hget : ∀ {i : Nat} {r : ArenaRegion}, (splitWith base total n)[i]? = some r → i < n := by
    intro i r hr
    have hlt := (List.getElem?_eq_some_iff.mp hr).1
    omega
  refine ⟨?_, ?_⟩
  · rw [List.pairwise_map, List.pairwise_iff_getElem]
    intro i j hi hj hij
    have hgi := List.getElem?_eq_getElem hi
    have hgj := List.getElem?_eq_getElem hj
    obtain ⟨a, ha, -, -, hstop, -⟩ := splitWith_getElem base hfits htotal (hget hgi)
    obtain ⟨b, hb, -, hptr, -⟩ := splitWith_getElem base hfits htotal (hget hgj)
    obtain rfl := Option.some.inj (hgi.symm.trans ha)
    obtain rfl := Option.some.inj (hgj.symm.trans hb)
    have hne : i + 1 ≠ n := by omega
    rw [if_neg hne] at hstop
    have hle : (i + 1) * nextMultipleOf (total / n) 16 ≤ j * nextMultipleOf (total / n) 16 :=
      Nat.mul_le_mul_right _ hij
    refine Or.inl ?_
    rw [hstop]
    show _ ≤ ArenaRegion.ptr _
    omega
  · intro r hr
    obtain ⟨i, hi, heq⟩ := List.getElem_of_mem hr
    have hgi := List.getElem?_eq_some_iff.mpr ⟨hi, heq⟩
    obtain ⟨a, ha, hused, hptr, -, hend⟩ := splitWith_getElem base hfits htotal (hget hgi)
    obtain rfl := Option.some.inj (hgi.symm.trans ha)
    refine ⟨hused, ?_, hend⟩
    show base ≤ r.ptr
    omega

end Ticklog
