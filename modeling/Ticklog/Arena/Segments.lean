import Ticklog.Arena.Carving

/-!
# Segments carved from the arena (`src/segments.rs`, `src/ring.rs`)

`Segments::init` makes the arena, and `with_capacity_arena` carves each segment out of it: a block
with a cache line to spare, of which the ring takes the `capacity` bytes from the first cache-line
boundary on. No two rings share a byte, and none leaves its region.

A primary region is as long as a segment, so with its cache line to spare no segment fits into
one: every segment comes from a spill region, cut off under the lock, and the buffer mapped at the
start stays untouched.
-/

namespace Ticklog

open Lib

/-- `NANOLOG_POOL_BUDGET`. -/
def nanologPoolBudget : Nat := 8 * 1024 * 1024

/-- `QUILL_PRIMARY_REGIONS`. -/
def quillPrimaryRegions : Nat := 8

/-- The pool size `Segments::init` derives from the budget. -/
def poolSize (ringCapacity : Nat) : Nat := max (nanologPoolBudget / ringCapacity) 1

/-- The primary regions `init_with_pool_size` asks for. -/
def arenaRegions (ringCapacity : Nat) : Backpressure → Nat
  | .nanoLog => poolSize ringCapacity
  | .quill => quillPrimaryRegions
  -- `unreachable!()`: no arena is made
  | .drop | .block => 1

/-- The `Arena<u8>` of a segmented policy. -/
def segmentArena (plat : Platform) (g : Geometry) (policy : Backpressure) : ArenaConfig where
  plat := plat
  regions := arenaRegions g.capacity policy
  elements := g.capacity
  elemSize := 1
  alignBits := 0
  align_le := Nat.zero_le _

/-- The bytes `with_capacity_arena` asks for. -/
def segmentBytes (g : Geometry) : Nat := g.capacity + g.slotSize - 1

/-- The storage of the ring made in a block. -/
def segmentWindow (g : Geometry) (block : Span) : Span :=
  ⟨alignUp block.base g.slotSize, g.capacity⟩

/-- The arena is asked for segments. -/
def CarvesSegments (g : Geometry) (_ : Arena) : ArenaAction → Prop
  | .alloc _ size => size = segmentBytes g
  | .thread _ | .spurious _ | .map _ _ => True

/-! ## The sizes -/

section Sizes

variable (plat : Platform) (g : Geometry) (policy : Backpressure)

theorem arenaRegions_pow2 : ∃ k, max (arenaRegions g.capacity policy) 1 = 2 ^ k := by
  obtain ⟨c, -, hc⟩ := g.pow2
  cases policy with
  | nanoLog =>
    show ∃ k, max (poolSize g.capacity) 1 = 2 ^ k
    unfold poolSize nanologPoolBudget
    rw [hc, show 8 * 1024 * 1024 = 2 ^ 23 from rfl]
    rcases Nat.lt_or_ge 23 c with hlt | hge
    · have hpow := Nat.pow_lt_pow_right (show 1 < 2 by decide) hlt
      rw [Nat.div_eq_of_lt hpow]
      exact ⟨0, rfl⟩
    · rw [Nat.pow_div hge (by decide)]
      have hpos := Nat.two_pow_pos (23 - c)
      exact ⟨23 - c, by omega⟩
  | quill => exact ⟨3, rfl⟩
  | drop => exact ⟨0, rfl⟩
  | block => exact ⟨0, rfl⟩

theorem chunkBytes_segment : chunkBytes (g.capacity * max 1 1) = g.capacity := by
  have hslot := g.slot_pos
  have hle := g.slot_le
  have hdvd : 16 ∣ g.capacity :=
    Nat.dvd_trans (by rcases g.slot_ok with h | h <;> rw [h] <;> decide) g.slot_dvd_capacity
  unfold chunkBytes
  rw [Nat.max_self, Nat.mul_one, nextMultipleOf_of_dvd (by decide) hdvd]
  omega

theorem segmentArena_total :
    (segmentArena plat g policy).total
      = g.capacity * max (arenaRegions g.capacity policy) 1 := by
  show chunkBytes (g.capacity * max 1 1) * _ = _
  rw [chunkBytes_segment]
  rfl

/-- The buffer is mapped as it is asked for: it is a power of two, like a huge page. -/
theorem segmentArena_mapped :
    (segmentArena plat g policy).mapped = (segmentArena plat g policy).total := by
  obtain ⟨c, -, hc⟩ := g.pow2
  obtain ⟨n, hn⟩ := arenaRegions_pow2 g policy
  obtain ⟨k, hk⟩ := plat.huge_pow2
  unfold ArenaConfig.mapped arenaSize
  rw [segmentArena_total, hc, ← hc, hn, hc, ← pow_add]
  show (if plat.hugePageSize ≤ _ then nextMultipleOf _ plat.hugePageSize else _) = _
  rw [hk]
  split
  next hle =>
    apply nextMultipleOf_of_dvd (Nat.two_pow_pos k)
    exact pow_dvd_pow 2 ((Nat.pow_le_pow_iff_right (by decide)).mp hle)
  next => rfl

/-- Each primary region is one capacity long, and they fill the buffer. -/
theorem segmentArena_split :
    nextMultipleOf ((segmentArena plat g policy).mapped / max (arenaRegions g.capacity policy) 1) 16
      = g.capacity := by
  have hdvd : 16 ∣ g.capacity :=
    Nat.dvd_trans (by rcases g.slot_ok with h | h <;> rw [h] <;> decide) g.slot_dvd_capacity
  rw [segmentArena_mapped, segmentArena_total,
    Nat.mul_div_cancel _ (Nat.lt_of_lt_of_le Nat.zero_lt_one (Nat.le_max_right _ _)),
    nextMultipleOf_of_dvd (by decide) hdvd]

theorem segmentArena_fits :
    SplitFits (segmentArena plat g policy).mapped (max (arenaRegions g.capacity policy) 1) := by
  unfold SplitFits
  rw [segmentArena_split, segmentArena_mapped, segmentArena_total, Nat.mul_comm]
  exact Nat.mul_le_mul_left _ (Nat.sub_le _ _)

/-- A spill region is two segments long, or a page. -/
theorem segmentArena_spillSize :
    (segmentArena plat g policy).spillSize = max (2 * g.capacity) plat.pageSize := by
  obtain ⟨p, hp⟩ := plat.page_pow2
  obtain ⟨c, -, hc⟩ := g.pow2
  have hpage : 0 < plat.pageSize := by
    rw [hp]
    exact Nat.two_pow_pos p
  show nextMultipleOf
    (max ((segmentArena plat g policy).total / max (arenaRegions g.capacity policy) 1 * 2)
      plat.pageSize) plat.pageSize = _
  rw [segmentArena_total,
    Nat.mul_div_cancel _ (Nat.lt_of_lt_of_le Nat.zero_lt_one (Nat.le_max_right _ _)),
    Nat.mul_comm g.capacity 2]
  apply nextMultipleOf_of_dvd hpage
  rcases Nat.le_total plat.pageSize (2 * g.capacity) with hle | hle
  · rw [Nat.max_eq_left hle]
    have htwo : 2 * g.capacity = 2 ^ (c + 1) := by rw [hc, pow_succ, Nat.mul_comm]
    rw [htwo, hp] at hle ⊢
    exact pow_dvd_pow 2 ((Nat.pow_le_pow_iff_right (by decide)).mp hle)
  · rw [Nat.max_eq_right hle]

/-- A spill region holds a segment with its cache line to spare. -/
theorem segmentBytes_le_spillSize : segmentBytes g ≤ (segmentArena plat g policy).spillSize := by
  have hle := g.slot_le
  rw [segmentArena_spillSize]
  unfold segmentBytes
  omega

theorem capacity_lt_segmentBytes : g.capacity < segmentBytes g := by
  have hslot := g.slot_pos
  unfold segmentBytes
  omega

end Sizes

namespace Arena

variable {plat : Platform} {g : Geometry} {policy : Backpressure} {base : Nat} {s s' : Arena}

/-- Where a thread that carves a segment may stand: never at the exchange of a primary region. -/
def Spilling (g : Geometry) : AllocPc → Prop
  | .idle | .unlock => True
  | .takeSlot size | .load _ size | .lockSpill size | .scanSpill _ size | .mapSpill size
  | .exchange (.spill _) size _ => size = segmentBytes g
  | .exchange (.primary _) _ _ | .panicked => False

/-- Segments only, and only from spill regions. -/
structure SegmentInv (plat : Platform) (g : Geometry) (policy : Backpressure) (base : Nat)
    (s : Arena) : Prop where
  spilling : ∀ t, Spilling g (s.threads t).pc
  untouched : s.primary = (init (segmentArena plat g policy) base).primary
  spills : ∀ r ∈ s.spill, r.len = (segmentArena plat g policy).spillSize
  whole : ∀ b ∈ s.given, b.len = segmentBytes g
  counted : s.spill.length ≤ s.given.length

/-- A primary region is one capacity long and has nothing taken. -/
theorem primary_len (hlow : base + (segmentArena plat g policy).mapped ≤ 2 ^ 63)
    {r : ArenaRegion} (hr : r ∈ (init (segmentArena plat g policy) base).primary) :
    r.len ≤ g.capacity ∧ r.used = 0 := by
  have hword : (segmentArena plat g policy).mapped < wordSize := by
    unfold wordSize
    omega
  have hfits := segmentArena_fits plat g policy
  obtain ⟨i, hi, hget⟩ := List.getElem_of_mem hr
  have hlen : (init (segmentArena plat g policy) base).primary.length
      = max (arenaRegions g.capacity policy) 1 := by
    show (splitWith base _ _).length = _
    unfold splitWith
    rw [List.length_map, List.length_range]
    rfl
  obtain ⟨q, hq, hused, hptr, hstop, hend⟩ := splitWith_getElem base hfits hword (hlen ▸ hi)
  obtain rfl : r = q :=
    Option.some.inj ((List.getElem?_eq_some_iff.mpr ⟨hi, hget⟩).symm.trans hq)
  refine ⟨?_, hused⟩
  rw [segmentArena_split] at hptr hstop
  have hsucc : (i + 1) * g.capacity = i * g.capacity + g.capacity := Nat.succ_mul i g.capacity
  have hspan : r.span.stop = r.ptr + r.len := rfl
  split at hstop
  next hlast =>
    -- the last region ends where the buffer does
    rw [segmentArena_mapped, segmentArena_total, ← hlast, Nat.mul_comm] at hstop
    omega
  next => omega

/-- No segment fits into a primary region. -/
theorem primary_full {r : ArenaRegion} (hlen : r.len ≤ g.capacity) (cur align : Nat) :
    r.bump cur (segmentBytes g) align = none := by
  have hlt := capacity_lt_segmentBytes g
  unfold ArenaRegion.bump
  dsimp only
  rw [if_neg]
  omega

/-- The rest of `region_alloc` never leads to the exchange of a primary region. -/
theorem tryBump_spilling {t : Nat} {place : Place} {cur : Nat} {r : ArenaRegion}
    (h : SegmentInv plat g policy base s)
    (hlow : base + (segmentArena plat g policy).mapped ≤ 2 ^ 63)
    (hr : s.region? place = some r) (u : Nat) :
    Spilling g
      ((tryBump (segmentArena plat g policy) t place (segmentBytes g) cur r s).threads u).pc := by
  have hset : ∀ pc, Spilling g pc → Spilling g ((s.goto t pc).threads u).pc := by
    intro pc hpc
    by_cases hu : u = t
    · subst hu
      show Spilling g (Function.update s.threads u _ u).pc
      rw [Function.update_self]
      exact hpc
    · show Spilling g (Function.update s.threads t _ u).pc
      rw [Function.update_of_ne hu]
      exact h.spilling u
  unfold tryBump
  split
  next hbump =>
    apply hset
    cases place with
    | primary i =>
      have hmem : r ∈ s.primary := List.mem_of_getElem? hr
      rw [h.untouched] at hmem
      rw [primary_full (primary_len hlow hmem).1] at hbump
      cases hbump
    | spill j => rfl
  next =>
    apply hset
    cases place <;> rfl

theorem step_spilling {a : ArenaAction} (h : SegmentInv plat g policy base s)
    (hlow : base + (segmentArena plat g policy).mapped ≤ 2 ^ 63) (hok : CarvesSegments g s a)
    (hstep : step (segmentArena plat g policy) s a = some s') (u : Nat) :
    Spilling g (s'.threads u).pc := by
  -- one thread's position changes
  have hset : ∀ {t : Nat} {th : AllocThread}, Spilling g th.pc →
      Spilling g (Function.update s.threads t th u).pc := by
    intro t th hpc
    by_cases hu : u = t
    · subst hu
      rw [Function.update_self]
      exact hpc
    · rw [Function.update_of_ne hu]
      exact h.spilling u
  cases a with
  | alloc t size =>
    unfold step alloc at hstep
    dsimp only at hstep
    obtain rfl : size = segmentBytes g := hok
    repeat' split at hstep
    all_goals cases hstep
    all_goals exact hset rfl
  | thread t =>
    have ht := h.spilling t
    unfold step threadStep at hstep
    dsimp only at hstep
    split at hstep
    next => cases hstep
    next => cases hstep
    next => cases hstep
    next size hpc =>
      rw [hpc] at ht
      cases hstep
      exact hset ht
    next place size hpc =>
      rw [hpc] at ht
      obtain rfl : size = segmentBytes g := ht
      split at hstep
      next r hr =>
        cases hstep
        exact tryBump_spilling h hlow hr u
      next => cases hstep
    next place size cur hpc =>
      rw [hpc] at ht
      split at hstep
      next r hr =>
        cases place with
        | primary i => exact ht.elim
        | spill j =>
          obtain rfl : size = segmentBytes g := ht
          unfold exchange at hstep
          split at hstep
          next =>
            split at hstep
            next =>
              cases hstep
              exact hset trivial
            next =>
              cases hstep
              exact tryBump_spilling h hlow hr u
          next =>
            cases hstep
            exact h.spilling u
      next => cases hstep
    next size hpc =>
      rw [hpc] at ht
      split at hstep
      next =>
        cases hstep
        exact hset ht
      next => cases hstep
    next j size hpc =>
      rw [hpc] at ht
      split at hstep
      all_goals
        cases hstep
        exact hset ht
    next =>
      cases hstep
      exact hset trivial
  | spurious t =>
    have ht := h.spilling t
    unfold step spurious at hstep
    dsimp only at hstep
    split at hstep
    next place size cur hpc =>
      rw [hpc] at ht
      split at hstep
      next r hr =>
        cases place with
        | primary i => exact ht.elim
        | spill j =>
          obtain rfl : size = segmentBytes g := ht
          cases hstep
          exact tryBump_spilling h hlow hr u
      next => cases hstep
    next => cases hstep
  | map t ptr =>
    have ht := h.spilling t
    unfold step mapSpill at hstep
    dsimp only at hstep
    split at hstep
    next size hpc =>
      rw [hpc] at ht
      obtain rfl : size = segmentBytes g := ht
      split at hstep
      next hfree =>
        split at hstep
        next =>
          cases hstep
          exact hset trivial
        next hbump =>
          -- a spill region has room for its first segment
          exfalso
          have hle := segmentBytes_le_spillSize plat g policy
          have hstop : ptr + (segmentArena plat g policy).spillSize ≤ 2 ^ 63 := hfree.1
          unfold ArenaRegion.bump at hbump
          dsimp only at hbump
          have halign : alignUp (ptr + 0) (segmentArena plat g policy).align = ptr := by
            have hspec := alignUp_spec (x := ptr + 0) (k := 0) (by decide)
              (by unfold wordSize; omega)
            show alignUp (ptr + 0) (2 ^ 0) = ptr
            omega
          rw [halign, if_pos] at hbump
          · cases hbump
          · unfold wordSize
            omega
      next => cases hstep
    next => cases hstep

theorem step_segments {a : ArenaAction} (h : SegmentInv plat g policy base s)
    (hlow : base + (segmentArena plat g policy).mapped ≤ 2 ^ 63) (hok : CarvesSegments g s a)
    (hstep : step (segmentArena plat g policy) s a = some s') :
    SegmentInv plat g policy base s' := by
  have hspilling := step_spilling h hlow hok hstep
  cases step_carves hstep with
  | quiet hprimary hspill hgiven =>
    exact ⟨hspilling, hprimary.trans h.untouched, hspill ▸ h.spills, hgiven ▸ h.whole,
      hspill ▸ hgiven ▸ h.counted⟩
  | block t size place r addr newCur hpc hr hbump hprimary hspill hgiven =>
    have ht := h.spilling t
    rw [hpc] at ht
    cases place with
    | primary i => exact ht.elim
    | spill j =>
      obtain rfl : size = segmentBytes g := ht
      refine ⟨hspilling, hprimary.trans h.untouched, ?_, ?_, ?_⟩
      · intro q hq
        rw [hspill] at hq
        rcases List.mem_or_eq_of_mem_set hq with hq | rfl
        · exact h.spills q hq
        · exact h.spills r (List.mem_of_getElem? hr)
      · intro b hb
        rw [hgiven] at hb
        rcases List.mem_append.mp hb with hb | hb
        · exact h.whole b hb
        · rw [List.mem_singleton.mp hb]
      · rw [hspill, hgiven, List.length_append]
        show (s.spill.set j _).length ≤ _
        rw [List.length_set]
        exact Nat.le_trans h.counted (Nat.le_add_right _ _)
  | mapped t ptr size addr newCur hpc hfree hbump hprimary hspill hgiven =>
    have ht := h.spilling t
    rw [hpc] at ht
    obtain rfl : size = segmentBytes g := ht
    refine ⟨hspilling, hprimary.trans h.untouched, ?_, ?_, ?_⟩
    · intro q hq
      rw [hspill] at hq
      rcases List.mem_append.mp hq with hq | hq
      · exact h.spills q hq
      · rw [List.mem_singleton.mp hq]
    · intro b hb
      rw [hgiven] at hb
      rcases List.mem_append.mp hb with hb | hb
      · exact h.whole b hb
      · rw [List.mem_singleton.mp hb]
    · rw [hspill, hgiven, List.length_append, List.length_append]
      exact Nat.add_le_add_right h.counted 1

theorem init_segments : SegmentInv plat g policy base (init (segmentArena plat g policy) base) :=
  ⟨fun _ => trivial, rfl, nofun, nofun, Nat.le_refl _⟩

theorem reach_segments (hlow : base + (segmentArena plat g policy).mapped ≤ 2 ^ 63)
    (h : (arena (segmentArena plat g policy)).Runs (CarvesSegments g)
      (init (segmentArena plat g policy) base) s) : SegmentInv plat g policy base s :=
  h.invariant (I := SegmentInv plat g policy base)
    (fun _ _ _ hinv hok hstep => step_segments hinv hlow hok hstep) init_segments

/-- The ring's storage lies in its block, from a cache-line boundary on. -/
theorem window_within {b : Span} (hlen : b.len = segmentBytes g) (hlow : b.stop ≤ 2 ^ 63) :
    g.slotSize ∣ (segmentWindow g b).base ∧ (segmentWindow g b).Within b := by
  obtain ⟨k, hk, hslot⟩ := g.slot_pow2
  have hpos := g.slot_pos
  have hpow : 2 ^ k ≤ 2 ^ 7 := Nat.pow_le_pow_right (by decide) hk
  have hstop : b.base + b.len = b.stop := rfl
  obtain ⟨hle, hge, hdvd⟩ := alignUp_spec (x := b.base) (k := k) (by omega)
    (by unfold wordSize; omega)
  unfold segmentBytes at hlen
  unfold segmentWindow
  rw [hslot] at hlen ⊢
  refine ⟨hdvd, hle, ?_⟩
  show alignUp b.base (2 ^ k) + g.capacity ≤ b.stop
  omega

/-! ## The arena's contract -/

instance (g : Geometry) (s : Arena) (a : ArenaAction) : Decidable (CarvesSegments g s a) :=
  match a with
  | .alloc _ _ => inferInstanceAs (Decidable (_ = _))
  | .thread _ | .spurious _ | .map _ _ => inferInstanceAs (Decidable True)

/-- **No two rings share storage.** In every interleaving of any number of threads that carve
segments, spurious and lost exchanges included, the rings' storages lie apart; each starts on a
cache line and lies inside one region that no other region overlaps. -/
theorem segments_apart (plat : Platform) (g : Geometry) (policy : Backpressure) (base : Nat)
    (hlow : base + (segmentArena plat g policy).mapped ≤ 2 ^ 63) {s : Arena}
    (h : (arena (segmentArena plat g policy)).Runs (CarvesSegments g)
      (init (segmentArena plat g policy) base) s) :
    (s.given.map (segmentWindow g)).Pairwise Span.Apart ∧
      (s.regions.map ArenaRegion.span).Pairwise Span.Apart ∧
      ∀ b ∈ s.given, g.slotSize ∣ (segmentWindow g b).base ∧
        ∃ r ∈ s.regions, (segmentWindow g b).Within r.span := by
  have hinv := reach_inv (segmentArena_fits plat g policy) hlow h
  have hseg := reach_segments hlow h
  have hwindow : ∀ b ∈ s.given,
      g.slotSize ∣ (segmentWindow g b).base ∧ (segmentWindow g b).Within b := by
    intro b hb
    obtain ⟨r, hr, hin⟩ := hinv.carved.within hb
    exact window_within (hseg.whole b hb) (Nat.le_trans hin.2 (hinv.low r hr))
  refine ⟨?_, hinv.carved.apart, ?_⟩
  · rw [List.pairwise_map]
    apply List.Pairwise.imp_of_mem _ hinv.carved.disjoint
    intro a b ha hb hab
    exact hab.mono (hwindow a ha).2 (hwindow b hb).2
  · intro b hb
    obtain ⟨r, hr, hin⟩ := hinv.carved.within hb
    exact ⟨(hwindow b hb).1, r, hr, (hwindow b hb).2.trans hin⟩

/-- Pages of 4 KiB and 2 MiB. -/
def linuxPages : Platform where
  pageSize := 4096
  hugePageSize := 2097152
  page_pow2 := ⟨12, rfl⟩
  huge_pow2 := ⟨21, rfl⟩

/-- Rings of one slot. -/
def carvedSlot : Geometry where
  slotSize := 64
  capacity := 64
  slot_ok := slot_ok_64
  pow2 := pow2_64
  slot_le := slot_le_64

/-- Thread 0 maps a spill region for its segment. Thread 1 carves the next one, its first exchange
failing for no reason. -/
def twoThreadsCarve : List ArenaAction :=
  [.alloc 0 127, .thread 0, .thread 0, .alloc 1 127, .thread 1, .thread 1, .thread 0, .thread 0,
    .map 0 1048576, .thread 0, .thread 1, .thread 1, .thread 1, .spurious 1, .thread 1, .thread 1]

theorem segments_apart_twoThreads :
    ∃ s, (arena (segmentArena linuxPages carvedSlot .quill)).runWhile (CarvesSegments carvedSlot)
        (init (segmentArena linuxPages carvedSlot .quill) 65536) twoThreadsCarve = some s ∧
      s.given.map (segmentWindow carvedSlot) = [⟨1048576, 64⟩, ⟨1048704, 64⟩] ∧
      (s.given.map (segmentWindow carvedSlot)).Pairwise Span.Apart := by
  have hrun : ((arena (segmentArena linuxPages carvedSlot .quill)).runWhile
      (CarvesSegments carvedSlot) (init (segmentArena linuxPages carvedSlot .quill) 65536)
      twoThreadsCarve).map (fun s => s.given.map (segmentWindow carvedSlot))
      = some [⟨1048576, 64⟩, ⟨1048704, 64⟩] := by decide +kernel
  obtain ⟨s, hs, hgiven⟩ := Option.map_eq_some_iff.mp hrun
  refine ⟨s, hs, hgiven, ?_⟩
  exact (segments_apart linuxPages carvedSlot .quill 65536 (by decide +kernel)
    (Machine.runWhile_runs hs)).1

/-- **Every segment is a spill.** In the same runs nothing is ever taken of the buffer mapped at
the start, the `expect` in `alloc_bytes` never fires, and what is mapped behind the buffer is at
most two segments, or a page, for each ring. -/
theorem segments_spill (plat : Platform) (g : Geometry) (policy : Backpressure) (base : Nat)
    (hlow : base + (segmentArena plat g policy).mapped ≤ 2 ^ 63) {s : Arena}
    (h : (arena (segmentArena plat g policy)).Runs (CarvesSegments g)
      (init (segmentArena plat g policy) base) s) :
    (∀ r ∈ s.primary, r.used = 0) ∧ (∀ t, (s.threads t).pc ≠ .panicked) ∧
      (s.spill.map ArenaRegion.len).sum
        ≤ s.given.length * max (2 * g.capacity) plat.pageSize := by
  have hseg := reach_segments hlow h
  refine ⟨?_, ?_, ?_⟩
  · intro r hr
    rw [hseg.untouched] at hr
    exact (primary_len hlow hr).2
  · intro t hpc
    have ht := hseg.spilling t
    rw [hpc] at ht
    exact ht
  · have hsum : (s.spill.map ArenaRegion.len).sum
        = s.spill.length * max (2 * g.capacity) plat.pageSize := by
      rw [← segmentArena_spillSize plat g policy]
      have hall := hseg.spills
      rw [List.map_congr_left hall, List.map_const', List.sum_replicate_nat]
    rw [hsum]
    exact Nat.mul_le_mul_right _ hseg.counted

theorem segments_spill_twoThreads :
    ∃ s, (arena (segmentArena linuxPages carvedSlot .quill)).runWhile (CarvesSegments carvedSlot)
        (init (segmentArena linuxPages carvedSlot .quill) 65536) twoThreadsCarve = some s ∧
      s.spill.length = 1 ∧ s.given.length = 2 ∧ ∀ r ∈ s.primary, r.used = 0 := by
  have hrun : ((arena (segmentArena linuxPages carvedSlot .quill)).runWhile
      (CarvesSegments carvedSlot) (init (segmentArena linuxPages carvedSlot .quill) 65536)
      twoThreadsCarve).map (fun s => (s.spill.length, s.given.length)) = some (1, 2) := by
    decide +kernel
  obtain ⟨s, hs, hlen⟩ := Option.map_eq_some_iff.mp hrun
  obtain ⟨hspill, hgiven⟩ := Prod.mk.inj hlen
  refine ⟨s, hs, hspill, hgiven, ?_⟩
  exact (segments_spill linuxPages carvedSlot .quill 65536 (by decide +kernel)
    (Machine.runWhile_runs hs)).1

end Arena

end Ticklog
