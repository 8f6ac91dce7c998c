import Ticklog.Codec.RoundTrip
import Ticklog.Drain.Fifo
import Ticklog.Lib.Framing
import Ticklog.Lib.Machine

/-!
# Streams of records under `fifo-backend` (`src/drain.rs`)

Each ring is a byte stream; a pass pops as much of one as the FIFO hands out and walks it with
`drain_ring`. `poll_once` and the final drains of `sync_rings` share one `staging` and clear it
before each pass, so the part of a record that a pass leaves there is gone when the same ring is
next popped: the comment in `Drain::run` ("`staging` persists partial FIFO-backend records
between polls") and the one in front of `drain_ring` ("keeps the incomplete tail for the next
poll") are not kept.

A pass over whole records followed by the beginning of one delivers the whole ones
(`scan_records`). So everything arrives while no pop begins inside a record (`Resumes`).
-/

namespace Ticklog

open Lib

namespace Fifo

/-! ## Records in `staging` -/

/-- A record as `assemble` writes it: its header frames all of it. -/
def IsRecord (record : List UInt8) : Prop :=
  headerSize ≤ record.length ∧ readPrefix record = ⟨version, logRecord, record.length⟩

instance (record : List UInt8) : Decidable (IsRecord record) :=
  inferInstanceAs (Decidable (_ ∧ _))

theorem IsRecord.ne_nil {record : List UInt8} (h : IsRecord record) : record ≠ [] := by
  intro hnil
  have hlen := h.1
  rw [hnil] at hlen
  exact absurd hlen (by decide)

/-- What a log call assembles is one. -/
theorem recordBytes_isRecord (level : Level) (timestamp site : UInt64) {args : List Loggable}
    (h : recordSize args ≤ maxRecordSize) : IsRecord (recordBytes level timestamp site args) := by
  have hlen := recordBytes_length level timestamp site args
  refine ⟨?_, ?_⟩
  · rw [hlen]
    unfold recordSize baseRecordSize
    omega
  · have hsize : ofLe (leBytes 2 (recordSize args)) = recordSize args :=
      ofLe_leBytes_of_lt (by unfold maxRecordSize at h; omega)
    rw [hlen, recordBytes_eq]
    show readPrefix (_ :: _ :: _ :: _ :: _) = _
    rw [readPrefix_cons]
    congr 1

/-- The first four bytes of a record. -/
theorem IsRecord.cons {record : List UInt8} (h : IsRecord record) :
    ∃ ver rectype lo hi rest, record = ver :: rectype :: lo :: hi :: rest ∧
      ver.toNat = version ∧ rectype.toNat = logRecord ∧ ofLe [lo, hi] = record.length := by
  obtain ⟨hlen, hframe⟩ := h
  match record, hlen, hframe with
  | ver :: rectype :: lo :: hi :: rest, _, hframe =>
    rw [readPrefix_cons] at hframe
    injection hframe with hver hrectype hsize
    exact ⟨ver, rectype, lo, hi, rest, rfl, hver, hrectype, hsize⟩

variable {σ : Type} {deliver : List UInt8 → Level → σ → Option σ}

/-- The size bytes at the position, and the branch they choose. -/
theorem step_record {pre record rest : List UInt8} {hadWork : Bool} {sink : σ}
    (h : IsRecord record) (hroom : headerSize ≤ rest.length) (hcut : rest.take 4 = record.take 4) :
    step deliver (pre ++ rest) ⟨pre.length, hadWork, sink⟩
      = if rest.length < record.length then .done ⟨pre.length, hadWork, sink⟩
        else
          match sliceOf (pre ++ rest) pre.length (pre.length + record.length) with
          | none => .index
          | some x =>
            match deliver x (levelOf x) sink with
            | none => .render
            | some sink => .next ⟨pre.length + record.length, true, sink⟩ := by
  obtain ⟨ver, rectype, lo, hi, tail, hrec, hver, hrectype, hsize⟩ := h.cons
  have hlen := h.1
  have htotal : (pre ++ rest).length = pre.length + rest.length := List.length_append
  have hget : ∀ k, k < 4 → (pre ++ rest)[pre.length + k]? = record[k]? := by
    intro k hk
    rw [List.getElem?_append_right (by omega), Nat.add_sub_cancel_left,
      ← List.getElem?_take_of_lt hk, hcut, List.getElem?_take_of_lt hk]
  have hbytes : (pre ++ rest)[pre.length]? = some ver ∧
      (pre ++ rest)[pre.length + 1]? = some rectype ∧
      (pre ++ rest)[pre.length + 2]? = some lo ∧ (pre ++ rest)[pre.length + 3]? = some hi := by
    refine ⟨?_, ?_, ?_, ?_⟩
    · rw [← Nat.add_zero pre.length, hget 0 (by decide), hrec]
      rfl
    · rw [hget 1 (by decide), hrec]
      rfl
    · rw [hget 2 (by decide), hrec]
      rfl
    · rw [hget 3 (by decide), hrec]
      rfl
  have hfiller : ¬ rectype.toNat = endOfBuffer := by
    rw [hrectype]
    decide
  have hcorrupt : ¬ (ver.toNat ≠ version ∨ rectype.toNat ≠ logRecord ∨
      ofLe [lo, hi] < headerSize) := by
    rw [hver, hrectype, hsize]
    omega
  unfold step
  simp only [hbytes.1, hbytes.2.1, hbytes.2.2.1, hbytes.2.2.2]
  rw [if_neg (by omega), if_neg (by omega), if_neg hfiller, if_neg hcorrupt, hsize, htotal]
  by_cases hshort : rest.length < record.length
  · rw [if_pos hshort, if_pos (by omega)]
  · rw [if_neg hshort]
    exact if_neg (by omega)

/-- A whole record at the position is delivered. -/
theorem step_whole {pre record post : List UInt8} {hadWork : Bool} {sink sink' : σ}
    (h : IsRecord record) (hdeliver : deliver record (levelOf record) sink = some sink') :
    step deliver (pre ++ (record ++ post)) ⟨pre.length, hadWork, sink⟩
      = .next ⟨pre.length + record.length, true, sink'⟩ := by
  have hlen := h.1
  have hfour : 4 ≤ record.length := Nat.le_trans (by decide) hlen
  have hslice : sliceOf (pre ++ (record ++ post)) pre.length (pre.length + record.length)
      = some record := by
    unfold sliceOf
    rw [if_pos ⟨by omega, by rw [List.length_append, List.length_append]; omega⟩,
      List.take_length_add_append, List.take_left, List.drop_left]
  rw [step_record h (by rw [List.length_append]; omega) (List.take_append_of_le_length hfour),
    if_neg (by rw [List.length_append]; omega), hslice]
  simp only
  rw [hdeliver]

/-- The beginning of a record ends the loop. -/
theorem step_part {pre part record : List UInt8} {hadWork : Bool} {sink : σ}
    (hpart : part = [] ∨ IsRecord record ∧ part <+: record ∧ part.length < record.length) :
    step deliver (pre ++ part) ⟨pre.length, hadWork, sink⟩
      = .done ⟨pre.length, hadWork, sink⟩ := by
  have htotal : (pre ++ part).length = pre.length + part.length := List.length_append
  by_cases hshort : part.length < headerSize
  · have hleft : (pre ++ part).length - pre.length < headerSize := by omega
    unfold step
    rw [if_neg (by rw [htotal]; exact Nat.not_lt_of_le (Nat.le_add_right _ _))]
    exact if_pos hleft
  · rcases hpart with hnil | ⟨hrec, hbegins, hlt⟩
    · rw [hnil] at hshort
      exact absurd (by decide) hshort
    · have hfour : 4 ≤ part.length := Nat.le_trans (by decide) (Nat.le_of_not_lt hshort)
      have htake : part.take 4 = record.take 4 := by
        obtain ⟨more, rfl⟩ := hbegins
        exact (List.take_append_of_le_length hfour).symm
      rw [step_record hrec (Nat.le_of_not_lt hshort) htake, if_pos hlt]

/-- The sink after records have been handed to it in turn. -/
def deliverAll (deliver : List UInt8 → Level → σ → σ) (records : List (List UInt8)) (sink : σ) :
    σ :=
  records.foldl (fun sink record => deliver record (levelOf record) sink) sink

/-- The loop over records and the beginning of one more: each whole record is delivered, in
turn, and `staging` keeps the rest. -/
theorem scan_records (acceptRaw : List UInt8 → Level → σ → σ) {records : List (List UInt8)}
    (hrecords : ∀ record ∈ records, IsRecord record) {part last : List UInt8}
    (hpart : part = [] ∨ IsRecord last ∧ part <+: last ∧ part.length < last.length)
    (n : Nat) (hn : records.length < n) (pre : List UInt8) (hadWork : Bool) (sink : σ) :
    ∃ hadWork', scan (raw acceptRaw) (pre ++ (records.flatten ++ part)) n
        ⟨pre.length, hadWork, sink⟩
      = .done ⟨(pre ++ records.flatten).length, hadWork', deliverAll acceptRaw records sink⟩ := by
  induction records generalizing n pre hadWork sink with
  | nil =>
    obtain ⟨n, rfl⟩ : ∃ m, n = m + 1 := ⟨n - 1, by omega⟩
    refine ⟨hadWork, ?_⟩
    have hstep : step (raw acceptRaw) (pre ++ part) ⟨pre.length, hadWork, sink⟩
        = .done ⟨pre.length, hadWork, sink⟩ := step_part hpart
    unfold scan
    rw [List.flatten_nil, List.nil_append, List.append_nil, hstep]
    rfl
  | cons record records ih =>
    obtain ⟨n, rfl⟩ : ∃ m, n = m + 1 := ⟨n - 1, by omega⟩
    have hstep : step (raw acceptRaw) (pre ++ (record ++ (records.flatten ++ part)))
          ⟨pre.length, hadWork, sink⟩
        = .next ⟨pre.length + record.length, true, acceptRaw record (levelOf record) sink⟩ :=
      step_whole (hrecords record List.mem_cons_self) rfl
    obtain ⟨hadWork', hrest⟩ := ih (fun r hr => hrecords r (List.mem_cons_of_mem _ hr)) n
      (Nat.lt_of_succ_lt_succ hn) (pre ++ record) true (acceptRaw record (levelOf record) sink)
    rw [List.append_assoc, List.length_append, List.append_assoc] at hrest
    refine ⟨hadWork', ?_⟩
    unfold scan
    rw [List.flatten_cons, List.append_assoc record, hstep]
    exact hrest

/-- `drain_ring` over them. -/
theorem drainRing_records (acceptRaw : List UInt8 → Level → σ → σ) {records : List (List UInt8)}
    (hrecords : ∀ record ∈ records, IsRecord record) {part last : List UInt8}
    (hpart : part = [] ∨ IsRecord last ∧ part <+: last ∧ part.length < last.length) {n : Nat}
    (hn : records.length < n) (sink : σ) :
    ∃ hadWork, drainRing (raw acceptRaw) (records.flatten ++ part) n sink
      = some (hadWork, part, deliverAll acceptRaw records sink) := by
  obtain ⟨hadWork, hscan⟩ := scan_records acceptRaw hrecords hpart n hn [] false sink
  refine ⟨hadWork, ?_⟩
  unfold drainRing
  change scan (raw acceptRaw) (records.flatten ++ part) n ⟨0, false, sink⟩ = _ at hscan
  rw [hscan]
  show some (hadWork, (records.flatten ++ part).drop records.flatten.length, _) = _
  rw [List.drop_left]

/-- What the loop hands to the sink is cut out of `staging`. -/
theorem step_sink {acceptRaw : List UInt8 → Level → σ → σ} {staging : List UInt8} {s s' : Scan σ}
    (h : step (raw acceptRaw) staging s = .next s') :
    s'.sink = s.sink ∨ ∃ x, x <:+: staging ∧ s'.sink = acceptRaw x (levelOf x) s.sink := by
  unfold step raw at h
  dsimp only at h
  split_ifs at h
  split at h
  next =>
    split_ifs at h
    · injection h with h
      exact Or.inl (congrArg Scan.sink h).symm
    · injection h with h
      exact Or.inl (congrArg Scan.sink h).symm
    · split at h
      next => cases h
      next record hslice =>
        injection h with h
        unfold sliceOf at hslice
        split_ifs at hslice with hin
        injection hslice with hslice
        refine Or.inr ⟨record, ?_, (congrArg Scan.sink h).symm⟩
        rw [← hslice]
        exact (List.drop_suffix _ _).isInfix.trans (List.take_prefix _ _).isInfix
  next => cases h

theorem step_done {acceptRaw : List UInt8 → Level → σ → σ} {staging : List UInt8} {s s' : Scan σ}
    (h : step (raw acceptRaw) staging s = .done s') : s' = s := by
  unfold step raw at h
  dsimp only at h
  split_ifs at h
  · injection h with h
    exact h.symm
  · split at h
    next =>
      split_ifs at h
      · injection h with h
        exact h.symm
      · injection h with h
        exact h.symm
      · split at h <;> cases h
    next => cases h

/-- So a property of the sink that such deliveries keep is kept by a pass. -/
theorem drainRing_sink {P : σ → Prop} {acceptRaw : List UInt8 → Level → σ → σ}
    {staging staging' : List UInt8} {n : Nat} {hadWork : Bool} {sink sink' : σ}
    (hP : ∀ x sink, x <:+: staging → P sink → P (acceptRaw x (levelOf x) sink))
    (h : drainRing (raw acceptRaw) staging n sink = some (hadWork, staging', sink'))
    (hsink : P sink) : P sink' := by
  have hscan : ∀ (n : Nat) (s s' : Scan σ), scan (raw acceptRaw) staging n s = .done s' →
      P s.sink → P s'.sink := by
    intro n
    induction n with
    | zero =>
      intro s s' hs
      cases hs
    | succ n ih =>
      intro s s' hs hp
      unfold scan at hs
      split at hs
      next s₁ hstep =>
        refine ih s₁ s' hs ?_
        rcases step_sink hstep with hsame | ⟨x, hx, hnew⟩
        · rw [hsame]
          exact hp
        · rw [hnew]
          exact hP x s.sink hx hp
      next =>
        rw [step_done hs]
        exact hp
  unfold drainRing at h
  split at h
  next s' hs =>
    injection h with h
    have hend : s'.sink = sink' := congrArg (fun r => r.2.2) h
    rw [← hend]
    exact hscan n _ s' hs hsink
  next => cases h

end Fifo

/-! ## The streams of all rings -/

/-- What was pushed on each ring and how many bytes of it were popped, the drain's `staging`, and
what the sink was handed, each record with the ring whose pass delivered it. -/
structure Streams where
  pushed : Nat → List (List UInt8)
  popped : Nat → Nat
  staging : List UInt8
  delivered : List (Nat × List UInt8)

namespace Streams

def init : Streams where
  pushed := fun _ => []
  popped := fun _ => 0
  staging := []
  delivered := []

/-- The bytes in a ring's FIFO. -/
def buffered (s : Streams) (r : Nat) : List UInt8 := (s.pushed r).flatten.drop (s.popped r)

/-- The sink while ring `r` is drained. -/
def accept (r : Nat) (record : List UInt8) (_ : Level) (log : List (Nat × List UInt8)) :
    List (Nat × List UInt8) :=
  log ++ [(r, record)]

/-- `drain_ring` on ring `r`, whose `pop_available` hands out `n` bytes; `none` where it hangs. -/
def drainRing (s : Streams) (r n : Nat) : Option Streams :=
  let staging := s.staging ++ (s.buffered r).take n
  match Fifo.drainRing (Fifo.raw (accept r)) staging (staging.length + 1) s.delivered with
  | some (_, kept, delivered) =>
    some { s with
      popped := Function.update s.popped r (s.popped r + n), staging := kept,
      delivered := delivered }
  | none => none

inductive Action where
  /-- A producer pushes a record. -/
  | push (r : Nat) (record : List UInt8)
  /-- One ring of `poll_once`, or of the final drains in `sync_rings`; `n` bytes are popped. -/
  | pass (r n : Nat)
deriving DecidableEq, Repr

def step (s : Streams) : Action → Option Streams
  | .push r record =>
    if Fifo.IsRecord record then
      some { s with pushed := Function.update s.pushed r (s.pushed r ++ [record]) }
    else none
  | .pass r n =>
    if n ≤ (s.buffered r).length then
      -- `staging.clear()`
      drainRing { s with staging := [] } r n
    else none

/-- The records of a ring that were delivered. -/
def deliveredOf (s : Streams) (r : Nat) : List (List UInt8) :=
  (s.delivered.filter fun e => e.1 = r).map Prod.snd

/-- A pop takes up where a record begins, or takes nothing. -/
def Resumes (s : Streams) : Action → Prop
  | .push _ _ => True
  | .pass r n => n = 0 ∨ Clean (s.pushed r) (s.popped r)

instance (s : Streams) (a : Action) : Decidable (Resumes s a) := by
  cases a <;> unfold Resumes <;> infer_instance

end Streams

/-- The producers and the drain, in any order. -/
def streams : Machine Streams Streams.Action where
  step := Streams.step

namespace Streams

variable {s s' : Streams}

/-- What is popped was pushed, and pushed were records. -/
structure StreamsInv (s : Streams) : Prop where
  records : ∀ r, ∀ record ∈ s.pushed r, Fifo.IsRecord record
  popped_le : ∀ r, s.popped r ≤ (s.pushed r).flatten.length

theorem drainRing_inv {r n : Nat} (h : drainRing s r n = some s') :
    s'.pushed = s.pushed ∧ s'.popped = Function.update s.popped r (s.popped r + n) := by
  unfold drainRing at h
  dsimp only at h
  split at h
  next =>
    injection h with h
    rw [← h]
    exact ⟨rfl, rfl⟩
  next => cases h

theorem buffered_length (s : Streams) (r : Nat) :
    (s.buffered r).length = (s.pushed r).flatten.length - s.popped r :=
  List.length_drop

theorem step_inv {a : Action} (hi : StreamsInv s) (h : step s a = some s') : StreamsInv s' := by
  cases a with
  | push r record =>
    unfold step at h
    dsimp only at h
    split_ifs at h with hrec
    injection h with h
    rw [← h]
    refine ⟨fun q => ?_, fun q => ?_⟩
    · show ∀ x ∈ Function.update s.pushed r _ q, _
      by_cases hq : q = r
      · subst hq
        rw [Function.update_self]
        intro x hx
        rcases List.mem_append.mp hx with hx | hx
        · exact hi.records _ x hx
        · rw [List.mem_singleton.mp hx]
          exact hrec
      · rw [Function.update_of_ne hq]
        exact hi.records q
    · show s.popped q ≤ (Function.update s.pushed r _ q).flatten.length
      have hle := hi.popped_le q
      by_cases hq : q = r
      · subst hq
        rw [Function.update_self, List.flatten_append, List.length_append]
        omega
      · rw [Function.update_of_ne hq]
        exact hle
  | pass r n =>
    unfold step at h
    dsimp only at h
    split_ifs at h with hn
    obtain ⟨hpushed, hpopped⟩ := drainRing_inv h
    rw [buffered_length] at hn
    have hle := hi.popped_le r
    refine ⟨?_, fun q => ?_⟩
    · rw [hpushed]
      exact hi.records
    · rw [hpushed, hpopped]
      show Function.update s.popped r _ q ≤ (s.pushed q).flatten.length
      by_cases hq : q = r
      · subst hq
        rw [Function.update_self]
        show s.popped q + n ≤ _
        omega
      · rw [Function.update_of_ne hq]
        exact hi.popped_le q

theorem init_inv : StreamsInv init :=
  ⟨fun _ _ h => absurd h List.not_mem_nil, fun _ => Nat.le_refl 0⟩

/-! ## Bytes of one ring only -/

/-- Whatever the cuts, a delivered record is cut out of its own ring's stream. -/
def OwnBytes (s : Streams) : Prop := ∀ e ∈ s.delivered, e.2 <:+: (s.pushed e.1).flatten

theorem step_ownBytes {a : Action} (hown : OwnBytes s) (h : step s a = some s') : OwnBytes s' := by
  cases a with
  | push r record =>
    unfold step at h
    dsimp only at h
    split_ifs at h with hrec
    injection h with h
    rw [← h]
    intro e he
    show e.2 <:+: (Function.update s.pushed r _ e.1).flatten
    have hbytes := hown e he
    by_cases hq : e.1 = r
    · rw [hq, Function.update_self, List.flatten_append]
      rw [hq] at hbytes
      exact hbytes.trans (List.prefix_append _ _).isInfix
    · rw [Function.update_of_ne hq]
      exact hbytes
  | pass r n =>
    unfold step at h
    dsimp only at h
    split_ifs at h with hn
    have hpushed := (drainRing_inv h).1
    unfold drainRing at h
    dsimp only at h
    split at h
    next hadWork kept delivered hdrain =>
      injection h with h
      unfold OwnBytes
      rw [← h]
      refine Fifo.drainRing_sink (P := fun log : List (Nat × List UInt8) =>
        ∀ e ∈ log, e.2 <:+: (s.pushed e.1).flatten) ?_ hdrain hown
      intro x log hx hlog e he
      rcases List.mem_append.mp he with he | he
      · exact hlog e he
      · rw [List.mem_singleton.mp he]
        refine hx.trans ?_
        exact (List.take_prefix _ _).isInfix.trans (List.drop_suffix _ _).isInfix
    next => cases h

/-! ## Clean pops -/

theorem deliverAll_accept (r : Nat) (records : List (List UInt8))
    (log : List (Nat × List UInt8)) :
    Fifo.deliverAll (accept r) records log = log ++ records.map fun record => (r, record) := by
  unfold Fifo.deliverAll
  induction records generalizing log with
  | nil => exact (List.append_nil log).symm
  | cons record records ih =>
    rw [List.foldl_cons, ih, List.map_cons]
    exact List.append_assoc log [(r, record)] _

theorem drainRing_some {r n : Nat} {hadWork : Bool} {kept : List UInt8}
    {delivered : List (Nat × List UInt8)}
    (h : Fifo.drainRing (Fifo.raw (accept r)) ((s.buffered r).take n)
      (((s.buffered r).take n).length + 1) s.delivered = some (hadWork, kept, delivered)) :
    drainRing { s with staging := [] } r n
      = some { s with
          popped := Function.update s.popped r (s.popped r + n), staging := kept,
          delivered := delivered } := by
  unfold drainRing
  dsimp only
  rw [List.nil_append]
  change (match Fifo.drainRing (Fifo.raw (accept r)) ((s.buffered r).take n)
    (((s.buffered r).take n).length + 1) s.delivered with
      | some (_, kept, delivered) => _
      | none => _) = _
  rw [h]

/-- What a pop takes up where a record begins. -/
theorem resumes_take {r n : Nat} (hi : StreamsInv s) (hn : n ≤ (s.buffered r).length)
    (hres : n = 0 ∨ Clean (s.pushed r) (s.popped r)) :
    ∃ records part last, (s.buffered r).take n = records.flatten ++ part ∧
      (∀ record ∈ records, Fifo.IsRecord record) ∧
      (part = [] ∨ Fifo.IsRecord last ∧ part <+: last ∧ part.length < last.length) ∧
      wholes (s.pushed r) (s.popped r + n) = wholes (s.pushed r) (s.popped r) ++ records := by
  rcases hres with rfl | hclean
  · refine ⟨[], [], [], List.take_zero, ?_, Or.inl rfl, (List.append_nil _).symm⟩
    exact fun _ h => absurd h List.not_mem_nil
  · obtain ⟨rest, hsplit, hbuffered, hwhole⟩ := hclean.split
    change s.buffered r = rest.flatten at hbuffered
    rw [hbuffered] at hn ⊢
    have hrest : ∀ record ∈ rest, Fifo.IsRecord record := by
      intro record hrecord
      refine hi.records r record ?_
      rw [hsplit]
      exact List.mem_append_right _ hrecord
    obtain ⟨part, htake, hpart⟩ := take_flatten hn
    have hrecords : ∀ record ∈ wholes rest n, Fifo.IsRecord record := fun record hrecord =>
      hrest record ((wholes_begins rest n).subset hrecord)
    rcases hpart with rfl | ⟨last, hlast, hbegins, hlt⟩
    · exact ⟨wholes rest n, [], [], htake, hrecords, Or.inl rfl, hwhole n⟩
    · exact ⟨wholes rest n, part, last, htake, hrecords,
        Or.inr ⟨hrest last hlast, hbegins, hlt⟩, hwhole n⟩

/-- The pass then delivers the records it popped from end to end. -/
theorem pass_resumes {r n : Nat} (hi : StreamsInv s) (hn : n ≤ (s.buffered r).length)
    (hres : n = 0 ∨ Clean (s.pushed r) (s.popped r)) :
    ∃ records s', step s (.pass r n) = some s' ∧
      wholes (s.pushed r) (s.popped r + n) = wholes (s.pushed r) (s.popped r) ++ records ∧
      s'.delivered = s.delivered ++ records.map fun record => (r, record) := by
  obtain ⟨records, part, last, htake, hrecords, hpart, hwhole⟩ := resumes_take hi hn hres
  have hfuel : records.length < (records.flatten ++ part).length + 1 := by
    have hle := length_le_flatten fun record h => (hrecords record h).ne_nil
    rw [List.length_append]
    omega
  obtain ⟨hadWork, hdrain⟩ := Fifo.drainRing_records (accept r) hrecords hpart hfuel s.delivered
  refine ⟨records, { s with
    popped := Function.update s.popped r (s.popped r + n), staging := part,
    delivered := s.delivered ++ records.map fun record => (r, record) }, ?_, hwhole, rfl⟩
  rw [← htake, deliverAll_accept] at hdrain
  unfold step
  dsimp only
  rw [if_pos hn]
  exact drainRing_some hdrain

/-- Each ring's records have arrived as far as its stream was popped. -/
def Exact (s : Streams) : Prop := ∀ r, s.deliveredOf r = wholes (s.pushed r) (s.popped r)

theorem deliveredOf_append {records : List (List UInt8)} {r : Nat}
    (h : s'.delivered = s.delivered ++ records.map fun record => (r, record)) (q : Nat) :
    s'.deliveredOf q = if q = r then s.deliveredOf q ++ records else s.deliveredOf q := by
  unfold deliveredOf
  rw [h, List.filter_append, List.map_append, List.filter_map, List.map_map]
  by_cases hq : q = r
  · subst hq
    rw [if_pos rfl]
    congr 1
    have hall : records.filter ((fun e : Nat × List UInt8 => decide (e.1 = q)) ∘
        fun record => (q, record)) = records :=
      List.filter_eq_self.mpr fun _ _ => decide_eq_true rfl
    rw [hall]
    exact List.map_id records
  · rw [if_neg hq]
    have hnone : records.filter ((fun e : Nat × List UInt8 => decide (e.1 = q)) ∘
        fun record => (r, record)) = [] :=
      List.filter_eq_nil_iff.mpr fun _ _ => by
        simpa using fun h : r = q => hq h.symm
    rw [hnone]
    exact List.append_nil _

theorem step_exact {a : Action} (hi : StreamsInv s) (hexact : Exact s) (hres : Resumes s a)
    (h : step s a = some s') : Exact s' := by
  cases a with
  | push r record =>
    unfold step at h
    dsimp only at h
    split_ifs at h with hrec
    injection h with h
    rw [← h]
    intro q
    show s.deliveredOf q = wholes (Function.update s.pushed r _ q) (s.popped q)
    rw [hexact q]
    by_cases hq : q = r
    · subst hq
      rw [Function.update_self, wholes_concat hrec.ne_nil (hi.popped_le q)]
    · rw [Function.update_of_ne hq]
  | pass r n =>
    have hn : n ≤ (s.buffered r).length := by
      unfold step at h
      dsimp only at h
      split_ifs at h with hn
      exact hn
    obtain ⟨records, t, ht, hwhole, hdelivered⟩ := pass_resumes hi hn hres
    rw [h] at ht
    injection ht with ht
    subst ht
    obtain ⟨hpushed, hpopped⟩ : s'.pushed = s.pushed ∧
        s'.popped = Function.update s.popped r (s.popped r + n) := by
      unfold step at h
      dsimp only at h
      rw [if_pos hn] at h
      have hinv := drainRing_inv h
      exact hinv
    intro q
    rw [deliveredOf_append hdelivered, hpushed, hpopped, hexact q]
    by_cases hq : q = r
    · subst hq
      rw [if_pos rfl, Function.update_self, hwhole]
    · rw [if_neg hq, Function.update_of_ne hq]

/-- The streams of all rings under any pops: a delivered record is always cut out of its own
ring's stream; and where no pop took up inside a record, each ring's records have arrived
whole, in order and once, as far as its stream was popped, and the next such pass returns. -/
theorem fifo_streams (s : Streams) :
    (streams.Reach init s → OwnBytes s) ∧
    (streams.Runs Resumes init s → Exact s ∧
      ∀ r n, n ≤ (s.buffered r).length → Resumes s (.pass r n) →
        ∃ s', step s (.pass r n) = some s') := by
  refine ⟨?_, ?_⟩
  · intro h
    refine Machine.Runs.invariant (I := OwnBytes)
      (fun _ _ _ hown _ hst => step_ownBytes hown hst) h ?_
    intro e he
    cases he
  · intro h
    obtain ⟨hi, hexact⟩ := Machine.Runs.invariant (I := fun s => StreamsInv s ∧ Exact s)
      (fun _ _ _ ⟨hi, hexact⟩ hres hst => ⟨step_inv hi hst, step_exact hi hexact hres hst⟩) h
      ⟨init_inv, fun _ => rfl⟩
    refine ⟨hexact, ?_⟩
    intro r n hn hres
    obtain ⟨-, s', hst, -⟩ := pass_resumes hi hn hres
    exact ⟨s', hst⟩

/-- A record of a header only. -/
def headerRecord : List UInt8 := [2, 1, 16, 0, 3, 0, 0, 0, 1, 0, 0, 0, 0, 0, 0, 0]

/-- A record popped in two parts does not arrive. -/
theorem fifo_streams_cut :
    ¬ ∀ s, streams.Reach init s → Exact s := by
  intro h
  obtain ⟨s, hs⟩ := Option.isSome_iff_exists.mp
    (show (streams.run init [.push 0 headerRecord, .pass 0 10, .pass 0 6]).isSome = true by
      decide +kernel)
  have hend : (streams.run init [.push 0 headerRecord, .pass 0 10, .pass 0 6]).map
      (fun s => (s.deliveredOf 0, wholes (s.pushed 0) (s.popped 0)))
      = some ([], [headerRecord]) := by
    decide +kernel
  rw [hs, Option.map_some, Option.some.injEq, Prod.mk.injEq] at hend
  have hexact := h s (Machine.run_runs hs) 0
  rw [hend.1, hend.2] at hexact
  cases hexact

end Streams

end Ticklog
