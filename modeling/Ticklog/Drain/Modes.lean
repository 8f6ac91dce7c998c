import Mathlib.Data.List.Forall2
import Ticklog.Codec.Robust
import Ticklog.Ring.Spsc

/-!
# The four delivery modes (`drain_ring_inner` and `format_segment` in `src/drain.rs`)

One loop serves the drain and the producer-side helper, each rendering or, under a raw sink,
copying: whether there is a sink and `raw` are the two switches of a pass (`Mode`). "Validation,
corrupt-frame resync, and end-of-buffer skipping are identical on both paths; `raw` only skips
rendering", says the comment. Rendering can panic, though, and a pass that panics stores no
tail. The modes agree on exactly the rings where every record the loop comes to renders
(`modes_agree_iff`).

The storage holds arbitrary bytes; the memory a record points to is the decoder's `Env`: the
site and source pointers of the records the loop comes to are taken to be valid.
-/

namespace Ticklog

open Lib

/-- A line pattern `Template::parse` accepted. -/
structure LinePattern where
  text : String
  template : List Segment
  parsed : parseTemplate (strBytes text) = .ok template

theorem LinePattern.messages_le (p : LinePattern) : messages p.template ≤ 1 :=
  (parseTemplate_text p.parsed (utf8_toByteArray p.text)).2

/-! ## Which records render -/

section

variable (std : Std) (fmt tags : List UInt8)

/-- Behind a placeholder the walk goes on with `k`; what it reads before that is the next of the
payloads. -/
theorem renderArg_isSome {n argIdx : Nat} {ok : Bool} {bytes : List UInt8} (spec : FormatSpec)
    {k : Bool × Cursor × List UInt8 → Option (Cursor × List UInt8)}
    (hk : ∀ ok' bytes' text, (k (ok', ⟨bytes'⟩, text)).isSome
      = (!ok' || whole n (tags.drop (argIdx + 1)) bytes')) :
    ((renderArg std tags spec argIdx ok ⟨bytes⟩).bind k).isSome
      = (!ok || whole (n + 1) (tags.drop argIdx) bytes) := by
  rcases getElem?_of_drop tags argIdx with ⟨hnil, hnone, hnext⟩ | ⟨tag, hcons, hsome⟩
  · -- no argument left, here or later
    rw [renderArg, hnone, Option.bind_some, hk, hnext, hnil]
    cases n <;> simp [whole]
  · rw [hcons]
    cases ok with
    | false =>
      rw [renderArg, hsome]
      show (k (false, ⟨bytes⟩, _)).isSome = true
      rw [hk]
      rfl
    | true =>
      rw [renderArg, hsome, Bool.not_true, Bool.false_or, whole]
      simp only [if_true]
      by_cases htag : tag.toNat = tagStr
      · obtain ⟨text, htext⟩ := formatArg_str std htag spec bytes
        rw [if_pos htag, htext, Option.map_some, Option.bind_some, hk]
        rfl
      · rw [if_neg htag]
        cases hsize : fixedSizes[tag.toNat]? with
        | none =>
          rw [formatArg_unknown std htag hsize, Option.map_some, Option.bind_some, hk]
          rfl
        | some size =>
          rcases Nat.lt_or_ge bytes.length size with hshort | hroom
          · rw [formatArg_cut std htag hsize spec hshort]
            simp [Nat.not_le.mpr hshort]
          · obtain ⟨text, htext⟩ := formatArg_fixed std htag hsize spec hroom
            rw [htext, Option.map_some, Option.bind_some, hk]
            simp [hroom]

/-- Along any visits the walk returns exactly where no payload it reads is cut short. -/
theorem renderVisits_isSome (vs : List Visit) (argIdx : Nat) (ok : Bool) (bytes buf : List UInt8) :
    (renderVisits std fmt tags vs argIdx ok ⟨bytes⟩ buf).isSome
      = (!ok || whole (places vs) (tags.drop argIdx) bytes) := by
  induction vs generalizing argIdx ok bytes buf with
  | nil => simp [renderVisits, places, whole]
  | cons v vs ih =>
    cases v with
    | literal i => exact ih _ _ _ _
    | escape i => exact ih _ _ _ _
    | loneClose i => exact ih _ _ _ _
    | place start stop =>
      rw [renderVisits, places]
      exact renderArg_isSome std tags _ fun ok' bytes' text => ih (argIdx + 1) ok' bytes' _
    | unclosed start =>
      rw [renderVisits, places]
      exact renderArg_isSome std tags _ fun ok' bytes' text => ih (argIdx + 1) ok' bytes' _

theorem interleave_isSome (bytes buf : List UInt8) :
    (interleave std fmt tags ⟨bytes⟩ buf).isSome
      = whole (places (interleaveVisits fmt)) tags bytes := by
  rw [interleave_visits, renderVisits_isSome, List.drop_zero]
  rfl

end

section

variable (env : Env) (line : Line) (tags : List UInt8)

theorem renderPattern_plain {template : List Segment} (hplain : messages template = 0)
    (c : Cursor) (buf : List UInt8) :
    (renderPattern env line tags template c buf).isSome = true := by
  induction template generalizing buf with
  | nil => rfl
  | cons seg rest ih =>
    rw [messages_cons] at hplain
    cases seg with
    | lit s =>
      rw [renderPattern]
      exact ih (by omega) _
    | place field spec =>
      by_cases hfield : field = .message
      · subst hfield
        simp [Segment.isMessage] at hplain
      · rw [renderPattern_field env hfield]
        exact ih (by omega) _

theorem renderPattern_isSome {template : List Segment} (hone : messages template ≤ 1)
    (bytes buf : List UInt8) :
    (renderPattern env line tags template ⟨bytes⟩ buf).isSome
      = (decide (messages template = 0) ||
          whole (places (interleaveVisits line.fmt)) tags bytes) := by
  induction template generalizing buf with
  | nil => rfl
  | cons seg rest ih =>
    rw [messages_cons] at hone
    cases seg with
    | lit s =>
      rw [renderPattern]
      exact ih (by omega) _
    | place field spec =>
      by_cases hfield : field = .message
      · -- the only message: what comes behind it cannot fail
        subst hfield
        have hrest : messages rest = 0 := by
          simp only [Segment.isMessage, if_true] at hone
          omega
        have hmessages : messages (.place .message spec :: rest) = 1 := by
          rw [messages_cons, hrest]
          rfl
        rw [hmessages, ← interleave_isSome env.std line.fmt tags bytes buf, renderPattern]
        cases interleave env.std line.fmt tags ⟨bytes⟩ buf with
        | none => rfl
        | some r => exact renderPattern_plain env line tags hrest r.1 r.2
      · have hno : Segment.isMessage (.place field spec) = false := by
          cases field <;> first | rfl | exact absurd rfl hfield
        rw [renderPattern_field env hfield, messages_cons, hno]
        exact ih (by omega) _

end

/-- No fixed-width payload that the message of this record reads is cut short, if the pattern
has a message. -/
def renders (env : Env) (pattern : LinePattern) (ringThreadId : Nat) (ringThreadName : String)
    (record : List UInt8) : Bool :=
  let decoded := decodeRecord env ringThreadId ringThreadName record
  decide (messages pattern.template = 0) ||
    whole (places (interleaveVisits decoded.line.fmt)) decoded.tags decoded.payload.rest

/-- A record becomes a line exactly then. -/
theorem decodeAndFormat_isSome (env : Env) (pattern : LinePattern) (ringThreadId : Nat)
    (ringThreadName : String) (record buf : List UInt8) :
    (decodeAndFormat env pattern.template ringThreadId ringThreadName record buf).isSome
      = renders env pattern ringThreadId ringThreadName record := by
  rw [decodeAndFormat_eq]
  exact renderPattern_isSome env _ _ pattern.messages_le _ _

/-! ## The loop -/

/-- What the caller of a pass chooses. -/
structure Mode where
  /-- There is a sink; `format_segment` collects in `lines` instead. -/
  toSink : Bool
  raw : Bool
deriving DecidableEq, Repr

/-- `ring_thread_name`; a raw pass renders nothing, so it does not take the name. -/
def Mode.threadName (mode : Mode) (registered : String) : String :=
  if mode.raw then "" else registered

namespace Modes

/-- The locals of the loop, and what it has delivered. -/
structure Scan where
  tail : Nat
  hadWork : Bool
  buf : List UInt8
  /-- The calls of the sink's `accept` or `accept_raw`, or what `lines` holds. -/
  out : List (List UInt8 × Level)
  /-- How many of the calls returned an error, which is reported only. -/
  refused : Nat

/-- How far something has come within some iterations. -/
inductive Outcome (α : Type) where
  | running (s : Scan)
  | returned (a : α)
  | panicked

/-- Goes on with what was returned. -/
def Outcome.map {α β : Type} (f : α → β) : Outcome α → Outcome β
  | .running s => .running s
  | .returned a => .returned (f a)
  | .panicked => .panicked

/-- What a pass leaves behind. -/
structure Pass where
  ring : RingBuffer
  hadWork : Bool
  buf : List UInt8
  out : List (List UInt8 × Level)
  refused : Nat

section

variable (g : Geometry) (env : Env) (pattern : LinePattern) (ringThreadId : Nat)
  (ringThreadName : String) (mode : Mode) (answer : List (List UInt8 × Level) → Bool)

/-- The sink is called, or `lines` grows. `answer` is what the sink returns, given the calls so
far. -/
def handOver (item : List UInt8 × Level) (s : Scan) : Scan :=
  let out := s.out ++ [item]
  { s with
    out := out
    refused := if mode.toSink && !answer out then s.refused + 1 else s.refused }

@[simp] theorem handOver_tail (item : List UInt8 × Level) (s : Scan) :
    (handOver mode answer item s).tail = s.tail := rfl

@[simp] theorem handOver_out (item : List UInt8 × Level) (s : Scan) :
    (handOver mode answer item s).out = s.out ++ [item] := rfl

/-- One record, by mode. -/
def deliver (record : List UInt8) (s : Scan) : Option Scan :=
  let level := levelOf record
  if mode.raw then some (handOver mode answer (record, level) s)
  else
    -- `buf.clear()`
    let s := { s with buf := [] }
    match decodeAndFormat env pattern.template ringThreadId ringThreadName record s.buf with
    | none => none
    | some (_, buf) =>
      let s := handOver mode answer (buf, level) { s with buf := buf }
      -- `lines` takes the buffer out
      some (if mode.toSink then s else { s with buf := [] })

/-- The prefix of the frame at `pos`, as the loop reads it. -/
def frameAt (data : Nat → UInt8) (pos : Nat) : Prefix :=
  let offset := g.offset pos
  readPrefix (slice data offset (Spsc.prefixLen g offset))

/-- What the check says of it. -/
def checkAt (data : Nat → UInt8) (pos : Nat) : Verdict :=
  verdict g.capacity (g.offset pos) (frameAt g data pos)

/-- One evaluation of `while tail < head_cache`, and one iteration where it holds. -/
def step (data : Nat → UInt8) (headCache : Nat) (s : Scan) : Outcome Scan :=
  if s.tail < headCache then
    match checkAt g data s.tail with
    | .empty => .returned s
    | .corrupt => .returned { s with tail := headCache }
    | .filler =>
      .running { s with tail := wrappingAdd s.tail (g.aligned (frameAt g data s.tail).totalSize) }
    | .record total =>
      match deliver env pattern ringThreadId ringThreadName mode answer
          (slice data (g.offset s.tail) total) s with
      | none => .panicked
      | some s =>
        .running { s with hadWork := true, tail := wrappingAdd s.tail (g.aligned total) }
  else .returned s

/-- At most `n` iterations. -/
def scan (data : Nat → UInt8) (headCache : Nat) : Nat → Scan → Outcome Scan
  | 0, s => .running s
  | n + 1, s =>
    match step g env pattern ringThreadId ringThreadName mode answer data headCache s with
    | .running s' => scan data headCache n s'
    | out => out

/-- The head a pass works with. -/
def workingHead (ring : RingBuffer) : Nat :=
  if ring.tail = ring.headCache then ring.head else ring.headCache

/-- The loop is left: the consumed position is published. -/
def finish (ring : RingBuffer) (s : Scan) : Pass where
  ring := { ring with tail := s.tail, headCache := workingHead ring }
  hadWork := s.hadWork
  buf := s.buf
  out := s.out
  refused := s.refused

/-- `drain_ring_inner`, of at most `n` iterations; `buf` is the caller's. -/
def drainRingInner (n : Nat) (ring : RingBuffer) (buf : List UInt8) : Outcome Pass :=
  let headCache := workingHead ring
  if ring.tail = headCache then .returned ⟨ring, false, buf, [], 0⟩
  else
    let ringThreadName := mode.threadName ringThreadName
    let s : Scan := ⟨ring.tail, false, buf, [], 0⟩
    (scan g env pattern ringThreadId ringThreadName mode answer ring.data headCache n s).map
      (finish ring)

end

section

variable (g : Geometry) (env : Env) (pattern : LinePattern) (ringThreadId : Nat)
  (ringThreadName : String)

/-- `format_segment` once the drain is off the ring: no sink, and a fresh buffer. -/
def formatSegment (raw : Bool) (n : Nat) (ring : RingBuffer) : Outcome Pass :=
  drainRingInner g env pattern ringThreadId ringThreadName ⟨false, raw⟩ (fun _ => true) n ring []

/-! ## What the modes have in common -/

/-- What a mode hands over where a raw sink is handed `record`: the same bytes, or the line they
render to on an empty buffer, and the same level. -/
def Shows (raw : Bool) (record item : List UInt8 × Level) : Prop :=
  item.2 = record.2 ∧
    if raw then item.1 = record.1
    else ∃ left, decodeAndFormat env pattern.template ringThreadId ringThreadName record.1 []
      = some (left, item.1)

/-- Two loops are at the same place, by `R` in what they have delivered. -/
structure Near (R : List UInt8 × Level → List UInt8 × Level → Prop) (s s' : Scan) : Prop where
  tail : s'.tail = s.tail
  hadWork : s'.hadWork = s.hadWork
  out : List.Forall₂ R s.out s'.out

/-- Two passes left the ring alike, by `R` in what they delivered. -/
structure Left (R : List UInt8 × Level → List UInt8 × Level → Prop) (p p' : Pass) : Prop where
  ring : p'.ring = p.ring
  hadWork : p'.hadWork = p.hadWork
  out : List.Forall₂ R p.out p'.out

/-- Both are still running or both have returned, and neither panicked. -/
inductive Together {α : Type} (S : Scan → Scan → Prop) (Q : α → α → Prop) :
    Outcome α → Outcome α → Prop where
  | running {s s' : Scan} : S s s' → Together S Q (.running s) (.running s')
  | returned {a a' : α} : Q a a' → Together S Q (.returned a) (.returned a')

/-- After any number of iterations a pass in the mode is where one to a raw sink is. -/
def Follows (mode : Mode) (answer answer' : List (List UInt8 × Level) → Bool)
    (ring : RingBuffer) (buf buf' : List UInt8) : Prop :=
  let R := Shows env pattern ringThreadId ringThreadName mode.raw
  ∀ n, Together (Near R) (Left R)
    (drainRingInner g env pattern ringThreadId ringThreadName ⟨true, true⟩ answer n ring buf)
    (drainRingInner g env pattern ringThreadId ringThreadName mode answer' n ring buf')

/-- The four modes agree on a ring, whatever the sinks answer and the drain's buffer held. -/
def ModesAgree (ring : RingBuffer) : Prop :=
  ∀ mode answer answer' buf buf',
    Follows g env pattern ringThreadId ringThreadName mode answer answer' ring buf buf'

/-- The positions below `stop` with the frames that follow one another from `start` on, and
where the last of them ends. -/
inductive Reaches (data : Nat → UInt8) (start stop : Nat) : Nat → Prop where
  | start : Reaches data start stop start
  | filler {pos : Nat} : Reaches data start stop pos → pos < stop → checkAt g data pos = .filler →
      Reaches data start stop (wrappingAdd pos (g.aligned (frameAt g data pos).totalSize))
  | record {pos total : Nat} : Reaches data start stop pos → pos < stop →
      checkAt g data pos = .record total →
      Reaches data start stop (wrappingAdd pos (g.aligned total))

/-- Every record among these frames renders. -/
def AllRender (ring : RingBuffer) : Prop :=
  ∀ pos total, Reaches g ring.data ring.tail (workingHead ring) pos → pos < workingHead ring →
    checkAt g ring.data pos = .record total →
    renders env pattern ringThreadId ringThreadName (slice ring.data (g.offset pos) total) = true

end

/-! ## One record -/

section

variable {env : Env} {pattern : LinePattern} {ringThreadId : Nat} {ringThreadName : String}
  {mode : Mode} {answer : List (List UInt8 × Level) → Bool} {record : List UInt8} {s s' : Scan}

theorem deliver_tail
    (h : deliver env pattern ringThreadId ringThreadName mode answer record s = some s') :
    s'.tail = s.tail := by
  unfold deliver at h
  split at h
  next =>
    cases h
    rfl
  next =>
    simp only at h
    split at h
    next => cases h
    next =>
      cases h
      split <;> rfl

/-- A record that renders is delivered in every mode. -/
theorem deliver_shows (answer : List (List UInt8 × Level) → Bool) (s : Scan)
    (h : mode.raw = false → renders env pattern ringThreadId ringThreadName record = true) :
    ∃ s' item, deliver env pattern ringThreadId (mode.threadName ringThreadName) mode answer record
        s = some s' ∧
      s'.out = s.out ++ [item] ∧
      Shows env pattern ringThreadId ringThreadName mode.raw (record, levelOf record) item := by
  unfold deliver Mode.threadName
  cases hraw : mode.raw with
  | true => exact ⟨_, (record, levelOf record), rfl, rfl, rfl, rfl⟩
  | false =>
    have hsome := decodeAndFormat_isSome env pattern ringThreadId ringThreadName record []
    rw [h hraw] at hsome
    obtain ⟨⟨left, line⟩, hline⟩ := Option.isSome_iff_exists.mp hsome
    simp only [Bool.false_eq_true, if_false, hline]
    refine ⟨_, (line, levelOf record), rfl, ?_, rfl, left, hline⟩
    split <;> rfl

theorem deliver_panics (hraw : mode.raw = false)
    (h : renders env pattern ringThreadId ringThreadName record = false) :
    deliver env pattern ringThreadId ringThreadName mode answer record s = none := by
  have hnone := decodeAndFormat_isSome env pattern ringThreadId ringThreadName record []
  rw [h, Option.isSome_eq_false_iff, Option.isNone_iff_eq_none] at hnone
  unfold deliver
  simp only [hraw, hnone, Bool.false_eq_true, if_false]

end

/-! ## One iteration -/

section

variable {g : Geometry} {env : Env} {pattern : LinePattern} {ringThreadId : Nat}
  {ringThreadName : String} {mode : Mode} {answer answer' : List (List UInt8 × Level) → Bool}
  {data : Nat → UInt8} {start stop : Nat} {s s₁ s' : Scan}

theorem step_end (hge : stop ≤ s.tail) :
    step g env pattern ringThreadId ringThreadName mode answer data stop s = .returned s := by
  unfold step
  exact if_neg (Nat.not_lt.mpr hge)

theorem step_empty (hlt : s.tail < stop) (hcheck : checkAt g data s.tail = .empty) :
    step g env pattern ringThreadId ringThreadName mode answer data stop s = .returned s := by
  unfold step
  rw [if_pos hlt, hcheck]

theorem step_corrupt (hlt : s.tail < stop) (hcheck : checkAt g data s.tail = .corrupt) :
    step g env pattern ringThreadId ringThreadName mode answer data stop s
      = .returned { s with tail := stop } := by
  unfold step
  rw [if_pos hlt, hcheck]

theorem step_filler (hlt : s.tail < stop) (hcheck : checkAt g data s.tail = .filler) :
    step g env pattern ringThreadId ringThreadName mode answer data stop s
      = .running { s with
          tail := wrappingAdd s.tail (g.aligned (frameAt g data s.tail).totalSize) } := by
  unfold step
  rw [if_pos hlt, hcheck]

theorem step_record {total : Nat} (hlt : s.tail < stop)
    (hcheck : checkAt g data s.tail = .record total)
    (hrun : deliver env pattern ringThreadId ringThreadName mode answer
      (slice data (g.offset s.tail) total) s = some s₁) :
    step g env pattern ringThreadId ringThreadName mode answer data stop s
      = .running { s₁ with hadWork := true, tail := wrappingAdd s.tail (g.aligned total) } := by
  unfold step
  rw [if_pos hlt, hcheck]
  simp only [hrun, deliver_tail hrun]

/-- A record that does not render ends the loop in a panic. -/
theorem step_panics {total : Nat} (hraw : mode.raw = false) (hlt : s.tail < stop)
    (hcheck : checkAt g data s.tail = .record total)
    (hno : renders env pattern ringThreadId ringThreadName (slice data (g.offset s.tail) total)
      = false) :
    step g env pattern ringThreadId ringThreadName mode answer data stop s = .panicked := by
  unfold step
  rw [if_pos hlt, hcheck]
  simp only [deliver_panics hraw hno]

/-- An iteration keeps a mode with the raw sink's pass where the record at hand, if there is
one, renders. -/
theorem step_together (answer answer' : List (List UInt8 × Level) → Bool)
    (hnear : Near (Shows env pattern ringThreadId ringThreadName mode.raw) s s')
    (name : String) (h : mode.raw = false → ∀ total, s.tail < stop →
      checkAt g data s.tail = .record total →
      renders env pattern ringThreadId ringThreadName (slice data (g.offset s.tail) total) = true) :
    Together (Near (Shows env pattern ringThreadId ringThreadName mode.raw))
      (Near (Shows env pattern ringThreadId ringThreadName mode.raw))
      (step g env pattern ringThreadId name ⟨true, true⟩ answer data stop s)
      (step g env pattern ringThreadId (mode.threadName ringThreadName) mode answer' data stop
        s') := by
  obtain ⟨htail, hwork, hout⟩ := hnear
  rcases Nat.lt_or_ge s.tail stop with hlt | hge
  · have hlt' : s'.tail < stop := htail ▸ hlt
    cases hcheck : checkAt g data s.tail with
    | empty =>
      rw [step_empty hlt hcheck, step_empty hlt' (htail ▸ hcheck)]
      exact .returned ⟨htail, hwork, hout⟩
    | corrupt =>
      rw [step_corrupt hlt hcheck, step_corrupt hlt' (htail ▸ hcheck)]
      exact .returned ⟨rfl, hwork, hout⟩
    | filler =>
      rw [step_filler hlt hcheck, step_filler hlt' (htail ▸ hcheck), htail]
      exact .running ⟨rfl, hwork, hout⟩
    | record total =>
      obtain ⟨s₁, item, hrun, hitem, hshows⟩ := deliver_shows answer' s' fun hraw =>
        h hraw total hlt hcheck
      rw [step_record hlt hcheck rfl, step_record hlt' (htail ▸ hcheck) (htail ▸ hrun), htail]
      refine .running ⟨rfl, rfl, ?_⟩
      show List.Forall₂ _ (s.out ++ [_]) s₁.out
      rw [hitem]
      exact List.rel_append hout (.cons hshows .nil)
  · rw [step_end hge, step_end (htail ▸ hge)]
    exact .returned ⟨htail, hwork, hout⟩

/-- Where the loop goes on, the next position is reached. -/
theorem step_reaches (hreach : Reaches g data start stop s.tail)
    (h : step g env pattern ringThreadId ringThreadName mode answer data stop s = .running s') :
    Reaches g data start stop s'.tail := by
  rcases Nat.lt_or_ge s.tail stop with hlt | hge
  · cases hcheck : checkAt g data s.tail with
    | empty =>
      rw [step_empty hlt hcheck] at h
      cases h
    | corrupt =>
      rw [step_corrupt hlt hcheck] at h
      cases h
    | filler =>
      rw [step_filler hlt hcheck] at h
      cases h
      exact .filler hreach hlt hcheck
    | record total =>
      cases hrun : deliver env pattern ringThreadId ringThreadName mode answer
        (slice data (g.offset s.tail) total) s with
      | none =>
        unfold step at h
        rw [if_pos hlt, hcheck] at h
        simp only [hrun] at h
        cases h
      | some s₁ =>
        rw [step_record hlt hcheck hrun] at h
        cases h
        exact .record hreach hlt hcheck
  · rw [step_end hge] at h
    cases h

/-- What a raw pass does with a frame it steps over. -/
theorem step_raw (env : Env) (pattern : LinePattern) (ringThreadId : Nat) (ringThreadName : String)
    (answer : List (List UInt8 × Level) → Bool) {total : Nat} (hlt : s.tail < stop)
    (hcheck : checkAt g data s.tail = .filler ∧ total = (frameAt g data s.tail).totalSize ∨
      checkAt g data s.tail = .record total) (toSink : Bool) :
    ∃ s', step g env pattern ringThreadId ringThreadName ⟨toSink, true⟩ answer data stop s
      = .running s' ∧ s'.tail = wrappingAdd s.tail (g.aligned total) := by
  rcases hcheck with ⟨hfiller, htotal⟩ | hrecord
  · rw [htotal]
    exact ⟨_, step_filler hlt hfiller, rfl⟩
  · exact ⟨_, step_record hlt hrecord rfl, rfl⟩

end

/-! ## The loop -/

section

variable {g : Geometry} {env : Env} {pattern : LinePattern} {ringThreadId : Nat}
  {ringThreadName : String} {mode : Mode} {answer answer' : List (List UInt8 × Level) → Bool}
  {data : Nat → UInt8} {start stop : Nat} {s s' : Scan}

theorem scan_together (n : Nat) (name : String) (hreach : Reaches g data start stop s.tail)
    (hnear : Near (Shows env pattern ringThreadId ringThreadName mode.raw) s s')
    (h : mode.raw = false → ∀ pos total, Reaches g data start stop pos → pos < stop →
      checkAt g data pos = .record total →
      renders env pattern ringThreadId ringThreadName (slice data (g.offset pos) total) = true) :
    Together (Near (Shows env pattern ringThreadId ringThreadName mode.raw))
      (Near (Shows env pattern ringThreadId ringThreadName mode.raw))
      (scan g env pattern ringThreadId name ⟨true, true⟩ answer data stop n s)
      (scan g env pattern ringThreadId (mode.threadName ringThreadName) mode answer' data stop n
        s') := by
  induction n generalizing s s' with
  | zero => exact .running hnear
  | succ n ih =>
    have hstep := step_together answer answer' hnear name
      fun hraw total => h hraw s.tail total hreach
    unfold scan
    generalize hother : step g env pattern ringThreadId (mode.threadName ringThreadName) mode
      answer' data stop s' = other at hstep ⊢
    cases hraw : step g env pattern ringThreadId name ⟨true, true⟩ answer data stop s with
    | running s₁ =>
      rw [hraw] at hstep
      cases hstep with
      | running hnext => exact ih (step_reaches hreach hraw) hnext
    | returned s₁ =>
      rw [hraw] at hstep
      cases hstep with
      | returned hdone => exact .returned hdone
    | panicked =>
      rw [hraw] at hstep
      cases hstep

/-- The last of some iterations. -/
theorem scan_succ {n : Nat}
    (h : scan g env pattern ringThreadId ringThreadName mode answer data stop n s = .running s') :
    scan g env pattern ringThreadId ringThreadName mode answer data stop (n + 1) s
      = step g env pattern ringThreadId ringThreadName mode answer data stop s' := by
  induction n generalizing s with
  | zero =>
    cases h
    unfold scan
    cases step g env pattern ringThreadId ringThreadName mode answer data stop s' <;> rfl
  | succ n ih =>
    unfold scan at h ⊢
    cases hstep : step g env pattern ringThreadId ringThreadName mode answer data stop s with
    | running s₁ =>
      rw [hstep] at h
      exact ih h
    | returned s₁ =>
      rw [hstep] at h
      cases h
    | panicked =>
      rw [hstep] at h
      cases h

/-- A raw pass comes to every position that is reached. -/
theorem reaches_scan (env : Env) (pattern : LinePattern) (ringThreadId : Nat)
    (ringThreadName : String) (answer : List (List UInt8 × Level) → Bool) {pos : Nat}
    (h : Reaches g data start stop pos) (hs : s.tail = start) (toSink : Bool) :
    ∃ n s', scan g env pattern ringThreadId ringThreadName ⟨toSink, true⟩ answer data stop n s
      = .running s' ∧ s'.tail = pos := by
  have hnext : ∀ {n total : Nat} {s₁ : Scan},
      scan g env pattern ringThreadId ringThreadName ⟨toSink, true⟩ answer data stop n s
        = .running s₁ → s₁.tail < stop →
      (checkAt g data s₁.tail = .filler ∧ total = (frameAt g data s₁.tail).totalSize ∨
        checkAt g data s₁.tail = .record total) →
      ∃ n s', scan g env pattern ringThreadId ringThreadName ⟨toSink, true⟩ answer data stop n s
        = .running s' ∧ s'.tail = wrappingAdd s₁.tail (g.aligned total) := by
    intro n total s₁ hrun hlt hcheck
    obtain ⟨s₂, hstep, hnext⟩ := step_raw env pattern ringThreadId ringThreadName answer hlt
      hcheck toSink
    exact ⟨n + 1, s₂, (scan_succ hrun).trans hstep, hnext⟩
  induction h with
  | start => exact ⟨0, s, rfl, hs⟩
  | @filler pos hreach hlt hcheck ih =>
    obtain ⟨n, s₁, hrun, rfl⟩ := ih
    exact hnext hrun hlt (Or.inl ⟨hcheck, rfl⟩)
  | @record pos total hreach hlt hcheck ih =>
    obtain ⟨n, s₁, hrun, rfl⟩ := ih
    exact hnext hrun hlt (Or.inr hcheck)

/-- Below the end of the word a frame that is stepped over leads on. -/
theorem next_gt (hword : stop + 2 ^ 17 ≤ wordSize) {pos total : Nat} (hlt : pos < stop)
    (hlo : headerSize ≤ total) (htotal : total = (frameAt g data pos).totalSize) :
    pos < wrappingAdd pos (g.aligned total) := by
  have hsize : total < 65536 := htotal ▸ readPrefix_totalSize_lt _
  have hslot : g.slotSize ≤ 128 := by rcases g.slot_ok with hs | hs <;> omega
  have hle : total ≤ g.aligned total := g.le_aligned (by omega)
  have hlt' : g.aligned total < total + g.slotSize := g.aligned_lt (by omega)
  unfold headerSize at hlo
  rw [wrappingAdd_of_lt (by omega)]
  omega

/-- So a raw pass ends there. -/
theorem scan_ends (env : Env) (pattern : LinePattern) (ringThreadId : Nat)
    (ringThreadName : String) (answer : List (List UInt8 × Level) → Bool) (data : Nat → UInt8)
    {room : Nat} (hword : stop + 2 ^ 17 ≤ wordSize) (hroom : stop - s.tail < room)
    (toSink : Bool) :
    ∃ s', scan g env pattern ringThreadId ringThreadName ⟨toSink, true⟩ answer data stop room s
      = .returned s' := by
  induction room generalizing s with
  | zero => omega
  | succ room ih =>
    rcases Nat.lt_or_ge s.tail stop with hlt | hge
    · have hgo : ∀ {total : Nat}, headerSize ≤ total → total = (frameAt g data s.tail).totalSize →
          (checkAt g data s.tail = .filler ∧ total = (frameAt g data s.tail).totalSize ∨
            checkAt g data s.tail = .record total) →
          ∃ s', scan g env pattern ringThreadId ringThreadName ⟨toSink, true⟩ answer data stop
            (room + 1) s = .returned s' := by
        intro total hlo htotal hcheck
        obtain ⟨s₁, hstep, hnext⟩ := step_raw env pattern ringThreadId ringThreadName answer hlt
          hcheck toSink
        have hmove := next_gt hword hlt hlo htotal
        obtain ⟨s₂, hrun⟩ := ih (s := s₁) (by rw [hnext]; omega)
        refine ⟨s₂, ?_⟩
        unfold scan
        rw [hstep]
        exact hrun
      cases hcheck : checkAt g data s.tail with
      | empty =>
        unfold scan
        rw [step_empty hlt hcheck]
        exact ⟨_, rfl⟩
      | corrupt =>
        unfold scan
        rw [step_corrupt hlt hcheck]
        exact ⟨_, rfl⟩
      | filler => exact hgo (verdict_eq_filler hcheck) rfl (Or.inl ⟨hcheck, rfl⟩)
      | record total =>
        obtain ⟨htotal, hlo⟩ := verdict_eq_record hcheck
        exact hgo hlo htotal (Or.inr hcheck)
    · unfold scan
      rw [step_end hge]
      exact ⟨_, rfl⟩

end

/-! ## The pass -/

theorem Together.map {α β : Type} {S : Scan → Scan → Prop} {Q : α → α → Prop} {Q' : β → β → Prop}
    {f f' : α → β} {o o' : Outcome α} (h : Together S Q o o')
    (hf : ∀ a a', Q a a' → Q' (f a) (f' a')) : Together S Q' (o.map f) (o'.map f') := by
  cases h with
  | running hs => exact .running hs
  | returned hq => exact .returned (hf _ _ hq)

theorem Reaches.start_lt {g : Geometry} {data : Nat → UInt8} {start stop pos : Nat}
    (h : Reaches g data start stop pos) (hlt : pos < stop) : start < stop := by
  induction h with
  | start => exact hlt
  | filler _ hbefore _ ih => exact ih hbefore
  | record _ hbefore _ ih => exact ih hbefore

section

variable {g : Geometry} {env : Env} {pattern : LinePattern} {ringThreadId : Nat}
  {ringThreadName : String} {ring : RingBuffer}

theorem drainRingInner_caughtUp (hcaught : ring.tail = workingHead ring) (mode : Mode)
    (answer : List (List UInt8 × Level) → Bool) (n : Nat) (buf : List UInt8) :
    drainRingInner g env pattern ringThreadId ringThreadName mode answer n ring buf
      = .returned ⟨ring, false, buf, [], 0⟩ := if_pos hcaught

theorem drainRingInner_scan (hwork : ring.tail ≠ workingHead ring) (mode : Mode)
    (answer : List (List UInt8 × Level) → Bool) (n : Nat) (buf : List UInt8) :
    drainRingInner g env pattern ringThreadId ringThreadName mode answer n ring buf
      = (scan g env pattern ringThreadId (mode.threadName ringThreadName) mode answer
          ring.data (workingHead ring) n ⟨ring.tail, false, buf, [], 0⟩).map (finish ring) :=
  if_neg hwork

theorem finish_left {R : List UInt8 × Level → List UInt8 × Level → Prop} {s s' : Scan}
    (h : Near R s s') : Left R (finish ring s) (finish ring s') := by
  refine ⟨?_, h.hadWork, h.out⟩
  unfold finish
  rw [h.tail]

theorem modesAgree_of_allRender (h : AllRender g env pattern ringThreadId ringThreadName ring) :
    ModesAgree g env pattern ringThreadId ringThreadName ring := by
  intro mode answer answer' buf buf' n
  by_cases hcaught : ring.tail = workingHead ring
  · rw [drainRingInner_caughtUp hcaught, drainRingInner_caughtUp hcaught]
    exact .returned ⟨rfl, rfl, .nil⟩
  · rw [drainRingInner_scan hcaught, drainRingInner_scan hcaught]
    refine Together.map ?_ fun s s' => finish_left
    exact scan_together n "" .start ⟨rfl, rfl, .nil⟩ fun _ => h

/-- A record that does not render panics the pass to a plain sink where the raw one goes on. -/
theorem allRender_of_modesAgree (h : ModesAgree g env pattern ringThreadId ringThreadName ring) :
    AllRender g env pattern ringThreadId ringThreadName ring := by
  intro pos total hreach hlt hcheck
  by_contra hno
  have hno : renders env pattern ringThreadId ringThreadName
      (slice ring.data (g.offset pos) total) = false := by simpa using hno
  have hwork : ring.tail ≠ workingHead ring := Nat.ne_of_lt (hreach.start_lt hlt)
  let answer : List (List UInt8 × Level) → Bool := fun _ => true
  let start : Scan := ⟨ring.tail, false, [], [], 0⟩
  obtain ⟨n, s, hraw, hpos⟩ :=
    reaches_scan env pattern ringThreadId "" answer hreach (s := start) rfl true
  have hhere := h ⟨true, false⟩ answer answer [] [] n
  have hnext := h ⟨true, false⟩ answer answer [] [] (n + 1)
  rw [drainRingInner_scan hwork, drainRingInner_scan hwork] at hhere hnext
  change Together _ _ ((scan g env pattern ringThreadId "" ⟨true, true⟩ _ _ _ _ _).map _)
    ((scan g env pattern ringThreadId ringThreadName ⟨true, false⟩ _ _ _ _ _).map _) at hhere hnext
  rw [hraw] at hhere
  cases hplain : scan g env pattern ringThreadId ringThreadName ⟨true, false⟩ answer ring.data
      (workingHead ring) n ⟨ring.tail, false, [], [], 0⟩ with
  | returned s' =>
    rw [hplain] at hhere
    cases hhere
  | panicked =>
    rw [hplain] at hhere
    cases hhere
  | running s' =>
    rw [hplain] at hhere
    cases hhere with
    | running hnear =>
      have hpos' : s'.tail = pos := hnear.tail.trans hpos
      have hpanic : step g env pattern ringThreadId ringThreadName ⟨true, false⟩ answer ring.data
          (workingHead ring) s' = .panicked :=
        step_panics rfl (hpos' ▸ hlt) (hpos' ▸ hcheck) (hpos' ▸ hno)
      rw [scan_succ hplain, hpanic] at hnext
      cases hmore : scan g env pattern ringThreadId "" ⟨true, true⟩ answer ring.data
        (workingHead ring) (n + 1) ⟨ring.tail, false, [], [], 0⟩ <;> rw [hmore] at hnext <;>
        cases hnext

/-- For every ring, whatever its bytes and indices, where the pointers of the records the loop
comes to are valid: the modes agree exactly if every one of these records renders. And a raw pass
ends, unless its head is within a frame of the end of the word. -/
theorem modes_agree_iff (g : Geometry) (env : Env) (pattern : LinePattern) (ringThreadId : Nat)
    (ringThreadName : String) (ring : RingBuffer) :
    (ModesAgree g env pattern ringThreadId ringThreadName ring ↔
      AllRender g env pattern ringThreadId ringThreadName ring) ∧
    (workingHead ring + 2 ^ 17 ≤ wordSize → ∀ toSink answer buf, ∃ n p,
      drainRingInner g env pattern ringThreadId ringThreadName ⟨toSink, true⟩ answer n ring buf
        = .returned p) := by
  refine ⟨⟨allRender_of_modesAgree, modesAgree_of_allRender⟩, fun hword toSink answer buf => ?_⟩
  by_cases hcaught : ring.tail = workingHead ring
  · exact ⟨0, _, drainRingInner_caughtUp hcaught _ answer 0 buf⟩
  · let start : Scan := ⟨ring.tail, false, buf, [], 0⟩
    obtain ⟨s, hrun⟩ := scan_ends (g := g) env pattern ringThreadId "" answer ring.data hword
      (Nat.lt_succ_self (workingHead ring - start.tail)) toSink
    refine ⟨(workingHead ring - start.tail).succ, finish ring s, ?_⟩
    rw [drainRingInner_scan hcaught]
    exact congrArg (Outcome.map (finish ring)) hrun

/-- Records whose payloads are whole, as the producers write them, leave no difference. -/
theorem modesAgree_of_fullWidth (h : ∀ pos total,
    Reaches g ring.data ring.tail (workingHead ring) pos → checkAt g ring.data pos = .record total →
    let decoded := decodeRecord env ringThreadId ringThreadName
      (slice ring.data (g.offset pos) total)
    FullWidth decoded.tags decoded.payload.rest) :
    ModesAgree g env pattern ringThreadId ringThreadName ring := by
  refine modesAgree_of_allRender fun pos total hreach _ hcheck => ?_
  unfold renders
  rw [Bool.or_eq_true]
  exact Or.inr (intact_whole ((h pos total hreach hcheck).intact _))

end

/-! ## A cut payload -/

/-- A ring of one slot. -/
def oneSlot : Geometry := ⟨64, 64, slot_ok_64, pow2_64, slot_le_64⟩

def messageOnly : LinePattern := ⟨"\x7bmessage\x7d", [.place .message FormatSpec.default], rfl⟩

/-- The ring holds one record; its frame is in order, its payload is cut. -/
def cutRing : RingBuffer := ⟨fun i => shortPayload.getD i 0, 64, 0, 0, 0, true⟩

/-- A raw sink is handed the record and the tail is stored; the other two panic before that. -/
theorem cutRing_disagrees :
    (∃ p, drainRingInner oneSlot oneArgumentEnv messageOnly 1 "main" ⟨true, true⟩ (fun _ => true) 2
        cutRing [] = .returned p ∧ p.ring.tail = 64 ∧ p.out = [(shortPayload, .warn)]) ∧
    drainRingInner oneSlot oneArgumentEnv messageOnly 1 "main" ⟨true, false⟩ (fun _ => true) 2
        cutRing [] = .panicked ∧
    formatSegment oneSlot oneArgumentEnv messageOnly 1 "main" false 2 cutRing = .panicked ∧
    ¬ ∀ ring, ModesAgree oneSlot oneArgumentEnv messageOnly 1 "main" ring := by
  have hpanic : drainRingInner oneSlot oneArgumentEnv messageOnly 1 "main" ⟨true, false⟩
      (fun _ => true) 2 cutRing [] = .panicked := rfl
  refine ⟨⟨_, rfl, by decide, by decide⟩, hpanic, rfl, fun h => ?_⟩
  have hsame := h cutRing ⟨true, false⟩ (fun _ => true) (fun _ => true) [] [] 2
  rw [hpanic] at hsame
  generalize drainRingInner oneSlot oneArgumentEnv messageOnly 1 "main" ⟨true, true⟩
    (fun _ => true) 2 cutRing [] = raw at hsame
  cases hsame

end Modes

end Ticklog
