import Ticklog.Codec.Decode

/-!
# The staging scan (`drain_ring` under `fifo-backend`, `src/drain.rs`)

Under a byte-streaming backend the drain pops what is buffered into `staging` and walks the
frames there by their own size fields. Every read of `staging` is checked here; a read past it
is the outcome `index`. What the loop does with a record is a parameter, a panic in it the
outcome `render`.

The loop trusts the size of a filler as far as the comment at that branch says: it must not
lead past `staging`. A filler of size 0 does not, and the loop then stands still. That is the
only way it does not end (`fifo_scan_iff`).
-/

namespace Ticklog

open Lib

/-- `bytes[lo..hi]`. -/
def sliceOf (bytes : List UInt8) (lo hi : Nat) : Option (List UInt8) :=
  if lo ≤ hi ∧ hi ≤ bytes.length then some ((bytes.take hi).drop lo) else none

theorem sliceOf_some {bytes x : List UInt8} {lo hi : Nat} (h : sliceOf bytes lo hi = some x) :
    lo ≤ hi ∧ hi ≤ bytes.length := by
  unfold sliceOf at h
  split at h
  next hin => exact hin
  next => cases h

namespace Fifo

variable {σ : Type}

/-- The locals of the loop, and the sink with what else a delivery changes. -/
structure Scan (σ : Type) where
  pos : Nat
  hadWork : Bool
  sink : σ

/-- What an iteration comes to. -/
inductive Outcome (σ : Type) where
  | next (s : Scan σ)
  /-- The loop is left. -/
  | done (s : Scan σ)
  /-- A read past the end of `staging`. -/
  | index
  /-- Delivering a record panicked. -/
  | render

/-- Delivery to a raw sink, which copies the record. -/
def raw (acceptRaw : List UInt8 → Level → σ → σ) : List UInt8 → Level → σ → Option σ :=
  fun record level sink => some (acceptRaw record level sink)

/-- Delivery as a rendered line. -/
def rendered (env : Env) (template : List Segment) (threadId : Nat) (threadName : String)
    (accept : List UInt8 → Level → σ → σ) : List UInt8 → Level → σ → Option σ :=
  fun record level sink =>
    (decodeAndFormat env template threadId threadName record []).map fun r =>
      accept r.2 level sink

section

variable (deliver : List UInt8 → Level → σ → Option σ) (staging : List UInt8)

/-- One evaluation of the loop condition, and one iteration where it holds. -/
def step (s : Scan σ) : Outcome σ :=
  -- `staging.len() - pos` underflows
  if staging.length < s.pos then .index
  else if staging.length - s.pos < headerSize then .done s
  else
    match staging[s.pos]?, staging[s.pos + 1]?, staging[s.pos + 2]?, staging[s.pos + 3]? with
    | some ver, some rectype, some lo, some hi =>
      let totalSize := ofLe [lo, hi]
      if rectype.toNat = endOfBuffer then
        if staging.length < s.pos + totalSize then .done s
        else .next { s with pos := s.pos + totalSize }
      else if ver.toNat ≠ version ∨ rectype.toNat ≠ logRecord ∨ totalSize < headerSize then
        .next { s with pos := s.pos + 1 }
      else if staging.length < s.pos + totalSize then .done s
      else
        match sliceOf staging s.pos (s.pos + totalSize) with
        | none => .index
        | some record =>
          match deliver record (levelOf record) s.sink with
          | none => .render
          | some sink => .next ⟨s.pos + totalSize, true, sink⟩
    | _, _, _, _ => .index

/-- At most `n` iterations. -/
def scan : Nat → Scan σ → Outcome σ
  | 0, s => .next s
  | n + 1, s =>
    match step deliver staging s with
    | .next s' => scan n s'
    | out => out

/-- `drain_ring`: whether there was work, what `staging` keeps, and the sink. -/
def drainRing (fuel : Nat) (sink : σ) : Option (Bool × List UInt8 × σ) :=
  match scan deliver staging fuel ⟨0, false, sink⟩ with
  | .done s => some (s.hadWork, staging.drop s.pos, s.sink)
  | _ => none

end

/-- The frame at `pos` is a filler of size 0. -/
def ZeroFiller (staging : List UInt8) (pos : Nat) : Prop :=
  headerSize ≤ staging.length - pos ∧ (staging[pos + 1]?.map UInt8.toNat) = some endOfBuffer ∧
    staging[pos + 2]? = some 0 ∧ staging[pos + 3]? = some 0

/-- A whole header at `pos` with these fields. -/
structure HeaderAt (staging : List UInt8) (pos ver rectype totalSize : Nat) : Prop where
  room : headerSize ≤ staging.length - pos
  ver : staging[pos]?.map UInt8.toNat = some ver
  rectype : staging[pos + 1]?.map UInt8.toNat = some rectype
  size : ∃ lo hi, staging[pos + 2]? = some lo ∧ staging[pos + 3]? = some hi ∧
    ofLe [lo, hi] = totalSize

section

variable (deliver : List UInt8 → Level → σ → Option σ) (staging : List UInt8) (sink : σ)

/-- The positions of the frames that follow one another from the front of `staging` on, a byte
being skipped where a header is corrupt, each with what the records before it made of the sink. -/
inductive Reaches : Nat → σ → Prop where
  | start : Reaches 0 sink
  | filler {pos ver total : Nat} {k : σ} :
      Reaches pos k → HeaderAt staging pos ver endOfBuffer total → pos + total ≤ staging.length →
      Reaches (pos + total) k
  | corrupt {pos ver rectype total : Nat} {k : σ} :
      Reaches pos k → HeaderAt staging pos ver rectype total → rectype ≠ endOfBuffer →
      ver ≠ version ∨ rectype ≠ logRecord ∨ total < headerSize → Reaches (pos + 1) k
  | record {pos total : Nat} {record : List UInt8} {k k' : σ} :
      Reaches pos k → HeaderAt staging pos version logRecord total → headerSize ≤ total →
      sliceOf staging pos (pos + total) = some record →
      deliver record (levelOf record) k = some k' → Reaches (pos + total) k'

/-- The loop comes to evaluate its condition in `s`. -/
def Reached (s : Scan σ) : Prop := ∃ n, scan deliver staging n ⟨0, false, sink⟩ = .next s

/-- The loop reads nothing past `staging`, each iteration leaves it or moves on, and it ends. -/
structure Terminates : Prop where
  inside : ∀ n, scan deliver staging n ⟨0, false, sink⟩ ≠ .index
  moves : ∀ s s', Reached deliver staging sink s → step deliver staging s = .next s' →
    s.pos < s'.pos
  ends : ∃ n, ∀ s, scan deliver staging n ⟨0, false, sink⟩ ≠ .next s

end

/-! ## One iteration -/

section

variable {deliver : List UInt8 → Level → σ → Option σ} {staging : List UInt8} {s s' : Scan σ}

theorem getElem?_of_room {k : Nat} (h : headerSize ≤ staging.length - s.pos) (hk : k < 16) :
    ∃ b, staging[s.pos + k]? = some b := by
  unfold headerSize at h
  exact ⟨_, List.getElem?_eq_getElem (by omega)⟩

/-- What an iteration does, from a position that is not past `staging`. -/
theorem step_cases (deliver : List UInt8 → Level → σ → Option σ)
    (hpos : s.pos ≤ staging.length) :
    (step deliver staging s = .done s) ∨
    (step deliver staging s = .render ∧
      ∃ record, deliver record (levelOf record) s.sink = none) ∨
    (∃ s', step deliver staging s = .next s' ∧ s.pos < s'.pos ∧ s'.pos ≤ staging.length) ∨
    (ZeroFiller staging s.pos ∧ step deliver staging s = .next s) := by
  rcases Nat.lt_or_ge (staging.length - s.pos) headerSize with hshort | hroom
  · left
    unfold step
    rw [if_neg (by omega), if_pos hshort]
  obtain ⟨ver, hver⟩ := getElem?_of_room (k := 0) hroom (by decide)
  obtain ⟨rectype, hrectype⟩ := getElem?_of_room (k := 1) hroom (by decide)
  obtain ⟨lo, hlo⟩ := getElem?_of_room (k := 2) hroom (by decide)
  obtain ⟨hi, hhi⟩ := getElem?_of_room (k := 3) hroom (by decide)
  rw [Nat.add_zero] at hver
  unfold step
  rw [if_neg (by omega), if_neg (by omega), hver, hrectype, hlo, hhi]
  simp only
  generalize htotal : ofLe [lo, hi] = total
  split_ifs with hfiller hpast hcorrupt hpast
  · exact Or.inl rfl
  · rcases Nat.eq_zero_or_pos total with hzero | hposSize
    · -- both size bytes are zero
      have htype : (some rectype).map UInt8.toNat = some endOfBuffer := congrArg some hfiller
      refine Or.inr (Or.inr (Or.inr ⟨⟨hroom, hrectype ▸ htype, ?_⟩, ?_⟩))
      · have hsum : lo.toNat + 256 * (hi.toNat + 256 * 0) = 0 := htotal.trans hzero
        have hlo0 : lo = 0 := UInt8.toNat_inj.mp (by show lo.toNat = 0; omega)
        have hhi0 : hi = 0 := UInt8.toNat_inj.mp (by show hi.toNat = 0; omega)
        exact ⟨by rw [hlo, hlo0], by rw [hhi, hhi0]⟩
      · rw [hzero]
        rfl
    · exact Or.inr (Or.inr (Or.inl ⟨_, rfl, Nat.lt_add_of_pos_right hposSize, by
        show s.pos + total ≤ staging.length
        omega⟩))
  · refine Or.inr (Or.inr (Or.inl ⟨_, rfl, Nat.lt_succ_self _, ?_⟩))
    unfold headerSize at hroom
    show s.pos + 1 ≤ staging.length
    omega
  · exact Or.inl rfl
  · have hsize : headerSize ≤ total := by
      by_contra hlt
      exact hcorrupt (Or.inr (Or.inr (Nat.not_le.mp hlt)))
    have hslice : sliceOf staging s.pos (s.pos + total)
        = some ((staging.take (s.pos + total)).drop s.pos) := by
      unfold sliceOf
      rw [if_pos ⟨Nat.le_add_right _ _, by omega⟩]
    rw [hslice]
    simp only
    cases hdeliver : deliver ((staging.take (s.pos + total)).drop s.pos)
      (levelOf ((staging.take (s.pos + total)).drop s.pos)) s.sink with
    | none => exact Or.inr (Or.inl ⟨rfl, _, hdeliver⟩)
    | some sink =>
      refine Or.inr (Or.inr (Or.inl ⟨_, rfl, ?_, ?_⟩))
      · unfold headerSize at hsize
        show s.pos < s.pos + total
        omega
      · show s.pos + total ≤ staging.length
        omega

/-- The branches of an iteration, by the fields of the header. -/
theorem HeaderAt.step (deliver : List UInt8 → Level → σ → Option σ) {ver rectype total : Nat}
    (h : HeaderAt staging s.pos ver rectype total) :
    step deliver staging s =
      if rectype = endOfBuffer then
        if staging.length < s.pos + total then .done s else .next { s with pos := s.pos + total }
      else if ver ≠ version ∨ rectype ≠ logRecord ∨ total < headerSize then
        .next { s with pos := s.pos + 1 }
      else if staging.length < s.pos + total then .done s
      else
        match sliceOf staging s.pos (s.pos + total) with
        | none => .index
        | some record =>
          match deliver record (levelOf record) s.sink with
          | none => .render
          | some sink => .next ⟨s.pos + total, true, sink⟩ := by
  obtain ⟨hroom, hver, hrectype, lo, hi, hlo, hhi, rfl⟩ := h
  obtain ⟨v, hv, rfl⟩ := Option.map_eq_some_iff.mp hver
  obtain ⟨t, ht, rfl⟩ := Option.map_eq_some_iff.mp hrectype
  have hle : s.pos ≤ staging.length := by
    unfold headerSize at hroom
    omega
  unfold Fifo.step
  rw [if_neg (by omega), if_neg (by omega), hv, ht, hlo, hhi]

theorem step_zeroFiller (h : ZeroFiller staging s.pos) : step deliver staging s = .next s := by
  obtain ⟨hroom, hrectype, hlo, hhi⟩ := h
  obtain ⟨ver, hver⟩ := getElem?_of_room (k := 0) hroom (by decide)
  rw [Nat.add_zero] at hver
  have hhead : HeaderAt staging s.pos ver.toNat endOfBuffer 0 :=
    ⟨hroom, by rw [hver]; rfl, hrectype, 0, 0, hlo, hhi, rfl⟩
  have hle : s.pos ≤ staging.length := by
    unfold headerSize at hroom
    omega
  rw [hhead.step deliver, if_pos rfl, if_neg (by omega)]
  rfl

end

/-! ## The loop -/

section

variable {deliver : List UInt8 → Level → σ → Option σ} {staging : List UInt8} {s : Scan σ}

theorem scan_inside (n : Nat) (hpos : s.pos ≤ staging.length) :
    scan deliver staging n s ≠ .index ∧
      ∀ s', scan deliver staging n s = .next s' → s'.pos ≤ staging.length := by
  induction n generalizing s with
  | zero =>
    refine ⟨nofun, fun s' h => ?_⟩
    cases h
    exact hpos
  | succ n ih =>
    unfold scan
    rcases step_cases deliver hpos with h | ⟨h, -⟩ | ⟨s₁, h, -, hle⟩ | ⟨-, h⟩
    · rw [h]
      exact ⟨nofun, nofun⟩
    · rw [h]
      exact ⟨nofun, nofun⟩
    · rw [h]
      exact ih hle
    · rw [h]
      exact ih hpos

theorem scan_zeroFiller (h : ZeroFiller staging s.pos) (n : Nat) :
    scan deliver staging n s = .next s := by
  induction n with
  | zero => rfl
  | succ n ih =>
    unfold scan
    rw [step_zeroFiller h]
    exact ih

/-- `n` iterations and then `m` more. -/
theorem scan_add {n m : Nat} {s₁ : Scan σ} (h : scan deliver staging n s = .next s₁) :
    scan deliver staging (n + m) s = scan deliver staging m s₁ := by
  induction n generalizing s with
  | zero =>
    cases h
    rw [Nat.zero_add]
  | succ n ih =>
    rw [Nat.succ_add, scan]
    rw [scan] at h
    cases hstep : step deliver staging s with
    | next s' =>
      rw [hstep] at h
      exact ih h
    | done | index | render =>
      rw [hstep] at h
      cases h

/-- Where the loop goes on, the next position is reached. -/
theorem step_reaches {sink : σ} {s' : Scan σ}
    (hreach : Reaches deliver staging sink s.pos s.sink)
    (h : step deliver staging s = .next s') : Reaches deliver staging sink s'.pos s'.sink := by
  have hread := h
  unfold step at hread
  split_ifs at hread with hpast hshort
  split at hread
  next ver rectype lo hi hver hrectype hlo hhi =>
    have hhead : HeaderAt staging s.pos ver.toNat rectype.toNat (ofLe [lo, hi]) :=
      ⟨by omega, by rw [hver]; rfl, by rw [hrectype]; rfl, lo, hi, hlo, hhi, rfl⟩
    rw [hhead.step deliver] at h
    split_ifs at h with hfiller hlong hcorrupt hlong
    · cases h
      exact .filler hreach (hfiller ▸ hhead) (by omega)
    · cases h
      exact .corrupt hreach hhead hfiller hcorrupt
    · push Not at hcorrupt
      obtain ⟨hv, ht, hsize⟩ := hcorrupt
      split at h
      next => cases h
      next record hslice =>
        split at h
        next => cases h
        next k hdeliver =>
          cases h
          exact .record hreach (hv ▸ ht ▸ hhead) hsize hslice hdeliver
  next => cases hread

theorem scan_reaches {sink : σ} {n : Nat} {s' : Scan σ}
    (hreach : Reaches deliver staging sink s.pos s.sink)
    (h : scan deliver staging n s = .next s') :
    Reaches deliver staging sink s'.pos s'.sink := by
  induction n generalizing s with
  | zero =>
    cases h
    exact hreach
  | succ n ih =>
    unfold scan at h
    cases hstep : step deliver staging s with
    | next s₁ =>
      rw [hstep] at h
      exact ih (step_reaches hreach hstep) h
    | done | index | render =>
      rw [hstep] at h
      cases h

/-- The loop comes to every position that is reached. -/
theorem reaches_scan {sink : σ} {pos : Nat} {k : σ} (h : Reaches deliver staging sink pos k) :
    ∃ s, Reached deliver staging sink s ∧ s.pos = pos ∧ s.sink = k := by
  have hnext : ∀ {s s' : Scan σ}, Reached deliver staging sink s →
      step deliver staging s = .next s' → Reached deliver staging sink s' := by
    rintro s s' ⟨n, hn⟩ hstep
    refine ⟨n + 1, ?_⟩
    rw [scan_add hn]
    unfold scan
    rw [hstep]
    rfl
  induction h with
  | start => exact ⟨⟨0, false, sink⟩, ⟨0, rfl⟩, rfl, rfl⟩
  | filler _ hhead hle ih =>
    obtain ⟨s, hs, rfl, rfl⟩ := ih
    have hstep := hhead.step deliver (s := s)
    rw [if_pos rfl, if_neg (by omega)] at hstep
    exact ⟨_, hnext hs hstep, rfl, rfl⟩
  | corrupt _ hhead hfiller hcorrupt ih =>
    obtain ⟨s, hs, rfl, rfl⟩ := ih
    have hstep := hhead.step deliver (s := s)
    rw [if_neg hfiller, if_pos hcorrupt] at hstep
    exact ⟨_, hnext hs hstep, rfl, rfl⟩
  | record _ hhead hsize hslice hdeliver ih =>
    obtain ⟨s, hs, rfl, rfl⟩ := ih
    have hle : s.pos + _ ≤ staging.length := (sliceOf_some hslice).2
    have hstep := hhead.step deliver (s := s)
    rw [if_neg (by decide), if_neg (by omega), if_neg (by omega), hslice] at hstep
    simp only [hdeliver] at hstep
    exact ⟨_, hnext hs hstep, rfl, rfl⟩

/-- Where no zero-size filler is reached the rest of `staging` gets shorter at every step. -/
theorem scan_ends {room : Nat} (hpos : s.pos ≤ staging.length)
    (hroom : staging.length - s.pos < room)
    (hclean : ∀ n s', scan deliver staging n s = .next s' → ¬ZeroFiller staging s'.pos) :
    ∀ s', scan deliver staging room s ≠ .next s' := by
  induction room generalizing s with
  | zero => omega
  | succ room ih =>
    unfold scan
    rcases step_cases deliver hpos with h | ⟨h, -⟩ | ⟨s₁, h, hlt, hle⟩ | ⟨hzero, -⟩
    · rw [h]
      exact nofun
    · rw [h]
      exact nofun
    · rw [h]
      refine ih hle (by omega) fun n s' hs' => hclean (n + 1) s' ?_
      unfold scan
      rw [h]
      exact hs'
    · exact absurd hzero (hclean 0 s rfl)

/-- The scan is as claimed exactly when none of the frames it comes to is a filler of size 0. -/
theorem fifo_scan_iff (deliver : List UInt8 → Level → σ → Option σ) (staging : List UInt8)
    (sink : σ) : Terminates deliver staging sink ↔
      ∀ pos k, Reaches deliver staging sink pos k → ¬ZeroFiller staging pos := by
  constructor
  · rintro ⟨-, hmoves, -⟩ pos k hreach hzero
    obtain ⟨s, hreached, rfl, -⟩ := reaches_scan hreach
    exact absurd (hmoves s s hreached (step_zeroFiller hzero)) (Nat.lt_irrefl _)
  · intro hclean
    have hstart : (⟨0, false, sink⟩ : Scan σ).pos ≤ staging.length := Nat.zero_le _
    have hreach : ∀ {n : Nat} {s : Scan σ}, scan deliver staging n ⟨0, false, sink⟩ = .next s →
        ¬ZeroFiller staging s.pos := fun hs =>
      hclean _ _ (scan_reaches (s := ⟨0, false, sink⟩) .start hs)
    refine ⟨fun n => (scan_inside n hstart).1, fun s s' ⟨n, hn⟩ hstep => ?_,
      staging.length + 1, ?_⟩
    · have hle := (scan_inside n hstart).2 s hn
      rcases step_cases deliver hle with h | ⟨h, -⟩ | ⟨s₁, h, hlt, -⟩ | ⟨hzero, -⟩
      · rw [h] at hstep
        cases hstep
      · rw [h] at hstep
        cases hstep
      · rw [h] at hstep
        cases hstep
        exact hlt
      · exact absurd hzero (hreach hn)
    · exact scan_ends hstart (Nat.lt_succ_self _) fun n s' hs' => hreach hs'

/-- Under a raw sink the call returns where no zero-size filler is reached. -/
theorem drainRing_raw (acceptRaw : List UInt8 → Level → σ → σ) (sink : σ)
    (h : Terminates (raw acceptRaw) staging sink) :
    ∃ n r, drainRing (raw acceptRaw) staging n sink = some r := by
  have hrender : ∀ n s, s.pos ≤ staging.length →
      scan (raw acceptRaw) staging n s ≠ .render := by
    intro n
    induction n with
    | zero => exact fun _ _ => nofun
    | succ n ih =>
      intro s hpos
      unfold scan
      rcases step_cases (raw acceptRaw) hpos with
        h | ⟨-, record, hnone⟩ | ⟨s₁, h, -, hle⟩ | ⟨-, h⟩
      · rw [h]
        exact nofun
      · cases hnone
      · rw [h]
        exact ih s₁ hle
      · rw [h]
        exact ih s hpos
  obtain ⟨hinside, -, n, hends⟩ := h
  refine ⟨n, ?_⟩
  unfold drainRing
  cases hscan : scan (raw acceptRaw) staging n ⟨0, false, sink⟩ with
  | next s => exact absurd hscan (hends s)
  | done s => exact ⟨_, rfl⟩
  | index => exact absurd hscan (hinside n)
  | render => exact absurd hscan (hrender n _ (Nat.zero_le _))

/-- Sixteen bytes that start with a filler of size 0 hold the loop forever. -/
theorem fifo_scan_stuck :
    let staging : List UInt8 := [2, 2] ++ List.replicate 14 0
    (∀ n, scan (raw fun _ _ (k : Nat) => k + 1) staging n ⟨0, false, 0⟩ = .next ⟨0, false, 0⟩) ∧
      ¬Terminates (raw fun _ _ (k : Nat) => k + 1) staging 0 := by
  have hzero : ZeroFiller ([2, 2] ++ List.replicate 14 0) 0 := by
    unfold ZeroFiller
    decide
  refine ⟨scan_zeroFiller hzero, ?_⟩
  rintro ⟨-, -, n, hn⟩
  exact hn _ (scan_zeroFiller hzero n)

end

end Fifo

end Ticklog
