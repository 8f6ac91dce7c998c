import Mathlib.Data.List.Infix

/-!
# Byte writers

A `ByteWriter` takes bytes and keeps what it has taken; each `write` may take fewer than it is
given, or fail and take none. `writeAll` and `Buffered` are what the standard library builds on
it. Whatever the writer does, an operation takes a part of its bytes from the front, and all of
them if its answer is `Ok` (`Took`); a writer that works takes all of them (`Works`).
-/

namespace Ticklog.Lib

universe u v

/-- `io::Write`. An interrupted `write` is tried again, so its answer is the one after. -/
structure ByteWriter (σ : Type u) where
  /-- How many bytes are taken; `none` is an error. -/
  write : σ → List UInt8 → Option Nat × σ
  /-- Whether it is `Ok`. -/
  flush : σ → Bool × σ
  /-- What has been taken so far. -/
  written : σ → List UInt8
  taken : ∀ w bytes n, (write w bytes).1 = some n →
    n ≤ bytes.length ∧ written (write w bytes).2 = written w ++ bytes.take n
  failed : ∀ w bytes, (write w bytes).1 = none → written (write w bytes).2 = written w
  flushed : ∀ w, written (flush w).2 = written w

/-! ## Operations that take bytes -/

section

variable {τ : Type v}

/-- `r?`, and then `f`. -/
def andThen (r : Bool × τ) (f : τ → Bool × τ) : Bool × τ := if r.1 then f r.2 else r

/-- A part of `bytes` from the front was added to `before`, and all of it if the answer is
`Ok`. -/
def Took (before bytes : List UInt8) (ok : Bool) (after : List UInt8) : Prop :=
  ∃ part, part <+: bytes ∧ after = before ++ part ∧ (ok = true → part = bytes)

theorem Took.all (before bytes : List UInt8) (ok : Bool) :
    Took before bytes ok (before ++ bytes) :=
  ⟨bytes, List.prefix_rfl, rfl, fun _ => rfl⟩

theorem Took.failed (before bytes : List UInt8) : Took before bytes false before :=
  ⟨[], List.nil_prefix, (List.append_nil _).symm, nofun⟩

/-- After an `Ok` everything is there. -/
theorem Took.ok {before bytes after : List UInt8} (h : Took before bytes true after) :
    after = before ++ bytes := by
  obtain ⟨part, -, hafter, hall⟩ := h
  rw [hafter, hall rfl]

theorem Took.andThen (view : τ → List UInt8) {before x y : List UInt8} {r : Bool × τ}
    {f : τ → Bool × τ} (hr : Took before x r.1 (view r.2))
    (hf : ∀ t, Took (view t) y (f t).1 (view (f t).2)) :
    Took before (x ++ y) (andThen r f).1 (view (andThen r f).2) := by
  obtain ⟨ok, t⟩ := r
  cases ok with
  | false =>
    obtain ⟨part, hpart, hview, -⟩ := hr
    refine ⟨part, hpart.trans (List.prefix_append x y), hview, ?_⟩
    intro hok
    cases hok
  | true =>
    obtain ⟨part, hpart, hview, hall⟩ := hf t
    refine ⟨x ++ part, (List.prefix_append_right_inj x).mpr hpart, ?_, ?_⟩
    · show view (f t).2 = _
      rw [hview, Took.ok hr, List.append_assoc]
    · intro hok
      rw [hall hok]

/-- Two operations that succeed, and keep `Q`. -/
theorem andThen_works {Q : τ → Prop} {r : Bool × τ} {f : τ → Bool × τ}
    (hr : r.1 = true ∧ Q r.2) (hf : ∀ t, Q t → (f t).1 = true ∧ Q (f t).2) :
    (andThen r f).1 = true ∧ Q (andThen r f).2 := by
  unfold Lib.andThen
  rw [if_pos hr.1]
  exact hf r.2 hr.2

/-- An `Ok` of both is one of each. -/
theorem ok_of_andThen {r : Bool × τ} {f : τ → Bool × τ} (h : (andThen r f).1 = true) :
    r.1 = true ∧ (f r.2).1 = true ∧ andThen r f = f r.2 := by
  unfold Lib.andThen at h ⊢
  by_cases hr : r.1 = true
  · rw [if_pos hr] at h ⊢
    exact ⟨hr, h, rfl⟩
  · rw [if_neg hr] at h
    exact absurd h hr

end

namespace ByteWriter

variable {σ : Type u} (W : ByteWriter σ)

/-- Writes until everything is taken or a `write` takes nothing: whether all was taken, and what
is left. The bound is the number of bytes. -/
def pour : Nat → σ → List UInt8 → Bool × List UInt8 × σ
  | 0, w, bytes => (bytes.isEmpty, bytes, w)
  | fuel + 1, w, bytes =>
    if bytes.isEmpty then (true, [], w)
    else
      match W.write w bytes with
      | (some 0, w') => (false, bytes, w')
      | (some (n + 1), w') => pour fuel w' (bytes.drop (n + 1))
      | (none, w') => (false, bytes, w')

/-- `Write::write_all`. -/
def writeAll (w : σ) (bytes : List UInt8) : Bool × σ :=
  let (ok, _, w') := W.pour bytes.length w bytes
  (ok, w')

/-- From a state with `P` on the writer never fails, and takes something of anything. -/
structure Works (P : σ → Prop) : Prop where
  write : ∀ w bytes, P w → bytes ≠ [] →
    (∃ n, (W.write w bytes).1 = some (n + 1)) ∧ P (W.write w bytes).2
  flush : ∀ w, P w → (W.flush w).1 = true ∧ P (W.flush w).2

variable {W}

/-- What is poured is a part from the front, and the rest is left. -/
theorem pour_spec (fuel : Nat) (w : σ) (bytes : List UInt8) :
    ∃ part, part ++ (W.pour fuel w bytes).2.1 = bytes ∧
      W.written (W.pour fuel w bytes).2.2 = W.written w ++ part ∧
      ((W.pour fuel w bytes).1 = true → (W.pour fuel w bytes).2.1 = []) := by
  induction fuel generalizing w bytes with
  | zero =>
    refine ⟨[], rfl, (List.append_nil _).symm, ?_⟩
    intro hok
    exact List.isEmpty_iff.mp hok
  | succ fuel ih =>
    unfold pour
    by_cases hnil : bytes.isEmpty = true
    · rw [if_pos hnil]
      exact ⟨[], (List.isEmpty_iff.mp hnil).symm, (List.append_nil _).symm, fun _ => rfl⟩
    · rw [if_neg hnil]
      have htaken := W.taken w bytes
      have hfailed := W.failed w bytes
      generalize W.write w bytes = answer at htaken hfailed
      obtain ⟨n, w'⟩ := answer
      -- the writer stops here
      have hstop : W.written w' = W.written w →
          ∃ part, part ++ bytes = bytes ∧ W.written w' = W.written w ++ part ∧
            (false = true → bytes = []) := by
        intro hw
        refine ⟨[], rfl, hw.trans (List.append_nil _).symm, ?_⟩
        intro hok
        cases hok
      match n with
      | none => exact hstop (hfailed rfl)
      | some 0 =>
        apply hstop
        have hw := (htaken 0 rfl).2
        rwa [List.take_zero, List.append_nil] at hw
      | some (n + 1) =>
        have hw : W.written w' = W.written w ++ bytes.take (n + 1) := (htaken (n + 1) rfl).2
        obtain ⟨part, hrest, hwritten, hok⟩ := ih w' (bytes.drop (n + 1))
        refine ⟨bytes.take (n + 1) ++ part, ?_, ?_, hok⟩
        · rw [List.append_assoc]
          exact (congrArg _ hrest).trans (List.take_append_drop (n + 1) bytes)
        · rw [← List.append_assoc, ← hw]
          exact hwritten

/-- A working writer takes it all. -/
theorem pour_works {P : σ → Prop} (h : W.Works P) (fuel : Nat) (w : σ) (bytes : List UInt8)
    (hw : P w) (hfuel : bytes.length ≤ fuel) :
    (W.pour fuel w bytes).1 = true ∧ P (W.pour fuel w bytes).2.2 := by
  induction fuel generalizing w bytes with
  | zero =>
    have hnil : bytes = [] := List.eq_nil_of_length_eq_zero (Nat.le_zero.mp hfuel)
    subst hnil
    exact ⟨rfl, hw⟩
  | succ fuel ih =>
    unfold pour
    by_cases hnil : bytes.isEmpty = true
    · rw [if_pos hnil]
      exact ⟨rfl, hw⟩
    · rw [if_neg hnil]
      have hne : bytes ≠ [] := fun heq => hnil (List.isEmpty_iff.mpr heq)
      obtain ⟨⟨n, hn⟩, hw'⟩ := h.write w bytes hw hne
      generalize W.write w bytes = answer at hn hw'
      obtain ⟨m, w'⟩ := answer
      obtain rfl : m = some (n + 1) := hn
      apply ih
      · exact hw'
      · rw [List.length_drop]
        omega

theorem writeAll_took (w : σ) (bytes : List UInt8) :
    Took (W.written w) bytes (W.writeAll w bytes).1 (W.written (W.writeAll w bytes).2) := by
  obtain ⟨part, hrest, hwritten, hok⟩ := pour_spec (W := W) bytes.length w bytes
  refine ⟨part, ⟨_, hrest⟩, hwritten, ?_⟩
  intro htrue
  rw [hok htrue, List.append_nil] at hrest
  exact hrest

theorem writeAll_works {P : σ → Prop} (h : W.Works P) (w : σ) (bytes : List UInt8) (hw : P w) :
    (W.writeAll w bytes).1 = true ∧ P (W.writeAll w bytes).2 :=
  pour_works h bytes.length w bytes hw (Nat.le_refl _)

end ByteWriter

/-- `BufWriter`. -/
structure Buffered (σ : Type u) where
  buf : List UInt8
  inner : σ

namespace Buffered

variable {σ : Type u} (W : ByteWriter σ) (capacity : Nat)

/-- `flush_buf`: what is not taken stays. -/
def flushBuf (b : Buffered σ) : Bool × Buffered σ :=
  let (ok, rest, w) := W.pour b.buf.length b.inner b.buf
  (ok, ⟨rest, w⟩)

/-- The end of `write_all`: what would fill the buffer goes past it. -/
def push (bytes : List UInt8) (b : Buffered σ) : Bool × Buffered σ :=
  if capacity ≤ bytes.length then
    let (ok, w) := W.writeAll b.inner bytes
    (ok, { b with inner := w })
  else (true, { b with buf := b.buf ++ bytes })

/-- `write_all`: into the buffer if there is room; else the buffer is flushed first. -/
def writeAll (bytes : List UInt8) (b : Buffered σ) : Bool × Buffered σ :=
  if bytes.length < capacity - b.buf.length then (true, { b with buf := b.buf ++ bytes })
  else if capacity - b.buf.length < bytes.length then
    andThen (b.flushBuf W) (push W capacity bytes)
  else b.push W capacity bytes

/-- `flush`. -/
def flush (b : Buffered σ) : Bool × Buffered σ :=
  andThen (b.flushBuf W) fun b' =>
    let (ok, w) := W.flush b'.inner
    (ok, { b' with inner := w })

/-- Everything accepted, written out or not. -/
def total (b : Buffered σ) : List UInt8 := W.written b.inner ++ b.buf

variable {W capacity} {b : Buffered σ}

theorem flushBuf_total : (b.flushBuf W).2.total W = b.total W ∧
    ((b.flushBuf W).1 = true → (b.flushBuf W).2.buf = []) := by
  obtain ⟨part, hrest, hwritten, hok⟩ :=
    ByteWriter.pour_spec (W := W) b.buf.length b.inner b.buf
  refine ⟨?_, hok⟩
  show W.written (W.pour b.buf.length b.inner b.buf).2.2 ++
    (W.pour b.buf.length b.inner b.buf).2.1 = W.written b.inner ++ b.buf
  rw [hwritten, List.append_assoc, hrest]

/-- A flush moves bytes and adds none, and leaves none behind if it is `Ok`. -/
theorem flush_total : (b.flush W).2.total W = b.total W ∧
    ((b.flush W).1 = true → (b.flush W).2.buf = []) := by
  obtain ⟨htotal, hok⟩ := flushBuf_total (W := W) (b := b)
  unfold flush Lib.andThen
  by_cases hr : (b.flushBuf W).1 = true
  · rw [if_pos hr]
    refine ⟨?_, fun _ => hok hr⟩
    show W.written (W.flush (b.flushBuf W).2.inner).2 ++ (b.flushBuf W).2.buf = _
    rw [W.flushed]
    exact htotal
  · rw [if_neg hr]
    exact ⟨htotal, hok⟩

/-- Into the buffer. -/
theorem buffered_took (bytes : List UInt8) (ok : Bool) :
    Took (b.total W) bytes ok (({ b with buf := b.buf ++ bytes } : Buffered σ).total W) := by
  show Took _ bytes ok (W.written b.inner ++ (b.buf ++ bytes))
  rw [← List.append_assoc]
  exact Took.all _ bytes ok

theorem push_took (bytes : List UInt8) (hempty : capacity ≤ bytes.length → b.buf = []) :
    Took (b.total W) bytes (b.push W capacity bytes).1 ((b.push W capacity bytes).2.total W) := by
  unfold push
  by_cases hfill : capacity ≤ bytes.length
  · rw [if_pos hfill]
    have htook := ByteWriter.writeAll_took (W := W) b.inner bytes
    show Took (W.written b.inner ++ b.buf) bytes (W.writeAll b.inner bytes).1
      (W.written (W.writeAll b.inner bytes).2 ++ b.buf)
    rw [hempty hfill, List.append_nil, List.append_nil]
    exact htook
  · rw [if_neg hfill]
    exact buffered_took bytes true

theorem writeAll_took (hcap : 0 < capacity) (bytes : List UInt8) :
    Took (b.total W) bytes (b.writeAll W capacity bytes).1
      ((b.writeAll W capacity bytes).2.total W) := by
  unfold writeAll
  by_cases hroom : bytes.length < capacity - b.buf.length
  · rw [if_pos hroom]
    exact buffered_took bytes true
  · rw [if_neg hroom]
    by_cases hfull : capacity - b.buf.length < bytes.length
    · rw [if_pos hfull]
      obtain ⟨htotal, hempty⟩ := flushBuf_total (W := W) (b := b)
      unfold Lib.andThen
      by_cases hr : (b.flushBuf W).1 = true
      · rw [if_pos hr, ← htotal]
        exact push_took bytes fun _ => hempty hr
      · rw [if_neg hr, ← htotal, Bool.eq_false_iff.mpr hr]
        exact Took.failed _ bytes
    · rw [if_neg hfull]
      apply push_took
      intro hfill
      -- what would fill an empty buffer fits exactly into this one
      apply List.eq_nil_of_length_eq_zero
      omega

theorem push_held (bytes : List UInt8) :
    (b.push W capacity bytes).2.buf = b.buf ∨
      (b.push W capacity bytes).2.buf = b.buf ++ bytes := by
  unfold push
  by_cases hfill : capacity ≤ bytes.length
  · rw [if_pos hfill]
    exact .inl rfl
  · rw [if_neg hfill]
    exact .inr rfl

/-- After an `Ok` the buffer holds the end of what it held and what was added. -/
theorem writeAll_held (hcap : 0 < capacity) (bytes : List UInt8)
    (hok : (b.writeAll W capacity bytes).1 = true) :
    (b.writeAll W capacity bytes).2.buf <:+ b.buf ++ bytes := by
  unfold writeAll at hok ⊢
  by_cases hroom : bytes.length < capacity - b.buf.length
  · rw [if_pos hroom]
  · rw [if_neg hroom] at hok ⊢
    by_cases hfull : capacity - b.buf.length < bytes.length
    · rw [if_pos hfull] at hok ⊢
      obtain ⟨hflush, -, heq⟩ := ok_of_andThen hok
      have hempty := (flushBuf_total (W := W) (b := b)).2 hflush
      rw [heq]
      have hpush : ((b.flushBuf W).2.push W capacity bytes).2.buf = (b.flushBuf W).2.buf ∨
          ((b.flushBuf W).2.push W capacity bytes).2.buf = (b.flushBuf W).2.buf ++ bytes :=
        push_held bytes
      rcases hpush with h | h
      · rw [h, hempty]
        exact List.nil_suffix
      · rw [h, hempty, List.nil_append]
        exact List.suffix_append b.buf bytes
    · rw [if_neg hfull] at hok ⊢
      -- the bytes fill what room there is
      unfold push
      by_cases hfill : capacity ≤ bytes.length
      · rw [if_pos hfill]
        have hnil : b.buf = [] := by
          apply List.eq_nil_of_length_eq_zero
          omega
        show b.buf <:+ b.buf ++ bytes
        rw [hnil]
        exact List.nil_suffix
      · rw [if_neg hfill]

/-! ## A writer that works -/

theorem flushBuf_works {P : σ → Prop} (h : W.Works P) (hb : P b.inner) :
    (b.flushBuf W).1 = true ∧ P (b.flushBuf W).2.inner :=
  ByteWriter.pour_works h b.buf.length b.inner b.buf hb (Nat.le_refl _)

theorem flush_works {P : σ → Prop} (h : W.Works P) (hb : P b.inner) :
    (b.flush W).1 = true ∧ P (b.flush W).2.inner := by
  refine andThen_works (Q := fun b : Buffered σ => P b.inner) (flushBuf_works h hb) ?_
  intro b' hb'
  exact h.flush b'.inner hb'

theorem push_works {P : σ → Prop} (h : W.Works P) (hb : P b.inner) (bytes : List UInt8) :
    (b.push W capacity bytes).1 = true ∧ P (b.push W capacity bytes).2.inner := by
  unfold push
  by_cases hfill : capacity ≤ bytes.length
  · rw [if_pos hfill]
    exact ByteWriter.writeAll_works h b.inner bytes hb
  · rw [if_neg hfill]
    exact ⟨rfl, hb⟩

theorem writeAll_works {P : σ → Prop} (h : W.Works P) (hb : P b.inner) (bytes : List UInt8) :
    (b.writeAll W capacity bytes).1 = true ∧ P (b.writeAll W capacity bytes).2.inner := by
  unfold writeAll
  by_cases hroom : bytes.length < capacity - b.buf.length
  · rw [if_pos hroom]
    exact ⟨rfl, hb⟩
  · rw [if_neg hroom]
    by_cases hfull : capacity - b.buf.length < bytes.length
    · rw [if_pos hfull]
      refine andThen_works (Q := fun b : Buffered σ => P b.inner) (flushBuf_works h hb) ?_
      intro b' hb'
      exact push_works h hb' bytes
    · rw [if_neg hfull]
      exact push_works h hb bytes

end Buffered

end Ticklog.Lib
