import Mathlib.Data.List.DropRight
import Ticklog.Level

/-!
# The capturing sink (`src/sink/fast.rs`)

An `InMemorySink` keeps raw records and rendered lines in two queues of their own, each with a
counter of what its `Overflow` policy threw away. The queue is one function of what was pushed
to it since it was last cleared (`held`): a push to a queue that holds `held overflow capacity
pushed` leaves `held overflow capacity (pushed ++ [item])`, and the counter moves with what is
missing. The counters are `u64`, and wrap.
-/

namespace Ticklog

/-! ## One bounded queue -/

inductive Overflow where
  | unbounded
  | dropNewest
  | dropOldest
deriving DecidableEq, Repr

section Queue

variable {α : Type}

/-- The body `push_record` and `push_line` share, on their own queue and counter. -/
def pushInto (capacity : Nat) (overflow : Overflow) (items : List α) (dropped : UInt64)
    (item : α) : List α × UInt64 :=
  match overflow with
  | .unbounded => (items ++ [item], dropped)
  | .dropNewest =>
    if capacity ≤ items.length then (items, dropped + 1) else (items ++ [item], dropped)
  | .dropOldest =>
    if capacity ≤ items.length then (items.tail ++ [item], dropped + 1)
    else (items ++ [item], dropped)

/-- What a queue holds of all that was pushed to it. -/
def held (capacity : Nat) (overflow : Overflow) (pushed : List α) : List α :=
  match overflow with
  | .unbounded => pushed
  | .dropNewest => pushed.take capacity
  | .dropOldest => pushed.drop (pushed.length - capacity)

/-- How many of them are missing. -/
def missing (capacity : Nat) (overflow : Overflow) (pushed : List α) : Nat :=
  pushed.length - (held capacity overflow pushed).length

theorem held_length {capacity : Nat} {overflow : Overflow} (h : overflow ≠ .unbounded)
    (pushed : List α) : (held capacity overflow pushed).length = min capacity pushed.length := by
  cases overflow with
  | unbounded => exact absurd rfl h
  | dropNewest => exact List.length_take
  | dropOldest =>
    show (pushed.drop _).length = _
    rw [List.length_drop]
    omega

/-- A bounded queue misses what goes beyond its capacity. -/
theorem missing_eq {capacity : Nat} {overflow : Overflow} (h : overflow ≠ .unbounded)
    (pushed : List α) : missing capacity overflow pushed = pushed.length - capacity := by
  unfold missing
  rw [held_length h]
  omega

/-- Below the capacity nothing is thrown away. -/
theorem held_all {capacity : Nat} {overflow : Overflow} {pushed : List α}
    (h : overflow ≠ .unbounded → pushed.length ≤ capacity) :
    held capacity overflow pushed = pushed := by
  cases overflow with
  | unbounded => rfl
  | dropNewest => exact List.take_of_length_le (h (by decide))
  | dropOldest =>
    have hle := h (by decide)
    show pushed.drop _ = _
    rw [Nat.sub_eq_zero_of_le hle, List.drop_zero]

theorem missing_none {capacity : Nat} {overflow : Overflow} {pushed : List α}
    (h : overflow ≠ .unbounded → pushed.length ≤ capacity) :
    missing capacity overflow pushed = 0 := by
  unfold missing
  rw [held_all h, Nat.sub_self]

theorem held_nil (capacity : Nat) (overflow : Overflow) :
    held capacity overflow ([] : List α) = [] :=
  held_all fun _ => Nat.zero_le _

theorem missing_nil (capacity : Nat) (overflow : Overflow) :
    missing capacity overflow ([] : List α) = 0 :=
  missing_none fun _ => Nat.zero_le _

/-- At the capacity the earliest stay. -/
theorem held_dropNewest {capacity : Nat} {pushed : List α} (h : capacity ≤ pushed.length)
    (item : α) :
    held capacity .dropNewest (pushed ++ [item]) = held capacity .dropNewest pushed :=
  List.take_append_of_le_length h

/-- At the capacity the window moves on by one. -/
theorem held_dropOldest {capacity : Nat} (hcap : 1 ≤ capacity) {pushed : List α}
    (h : capacity ≤ pushed.length) (item : α) :
    held capacity .dropOldest (pushed ++ [item])
      = (held capacity .dropOldest pushed).tail ++ [item] := by
  show (pushed ++ [item]).drop ((pushed ++ [item]).length - capacity)
    = (pushed.drop (pushed.length - capacity)).tail ++ [item]
  rw [List.length_append, List.length_singleton, List.tail_drop,
    List.drop_append_of_le_length (by omega), Nat.sub_add_comm h]

/-- A push to a queue that holds what it should leaves one that does. -/
theorem pushInto_held {capacity : Nat} (hcap : 1 ≤ capacity) (overflow : Overflow)
    (pushed : List α) (item : α) :
    pushInto capacity overflow (held capacity overflow pushed)
        (UInt64.ofNat (missing capacity overflow pushed)) item
      = (held capacity overflow (pushed ++ [item]),
          UInt64.ofNat (missing capacity overflow (pushed ++ [item]))) := by
  have hlen : (pushed ++ [item]).length = pushed.length + 1 := List.length_append
  -- an unbounded queue, or one with room, takes the item
  by_cases hroom : overflow ≠ .unbounded → pushed.length < capacity
  · have hbefore : overflow ≠ .unbounded → pushed.length ≤ capacity :=
      fun h => Nat.le_of_lt (hroom h)
    have hafter : overflow ≠ .unbounded → (pushed ++ [item]).length ≤ capacity := by
      intro h
      rw [hlen]
      exact hroom h
    rw [held_all hbefore, missing_none hbefore, held_all hafter, missing_none hafter]
    cases overflow with
    | unbounded => rfl
    | dropNewest => exact if_neg (Nat.not_le_of_lt (hroom (by decide)))
    | dropOldest => exact if_neg (Nat.not_le_of_lt (hroom (by decide)))
  · obtain ⟨hbounded, hnot⟩ := Classical.not_imp.mp hroom
    have hfull : capacity ≤ pushed.length := Nat.le_of_not_lt hnot
    have hheld : capacity ≤ (held capacity overflow pushed).length := by
      rw [held_length hbounded]
      exact Nat.le_min.mpr ⟨Nat.le_refl _, hfull⟩
    have hmissing : UInt64.ofNat (missing capacity overflow (pushed ++ [item]))
        = UInt64.ofNat (missing capacity overflow pushed) + 1 := by
      rw [missing_eq hbounded, missing_eq hbounded, hlen, Nat.sub_add_comm hfull,
        UInt64.ofNat_add]
      rfl
    rw [hmissing]
    cases overflow with
    | unbounded => exact absurd rfl hbounded
    | dropNewest =>
      rw [held_dropNewest hfull]
      exact if_pos hheld
    | dropOldest =>
      rw [held_dropOldest hcap hfull]
      exact if_pos hheld

end Queue

/-! ## The sink -/

structure CapturedRecord where
  level : Level
  bytes : List UInt8
deriving DecidableEq, Repr

/-- `State`, with `Shared`'s two settings. -/
structure InMemorySink where
  capacity : Nat
  overflow : Overflow
  records : List CapturedRecord
  lines : List (List UInt8 × Level)
  droppedRecords : UInt64
  droppedLines : UInt64
deriving DecidableEq, Repr

namespace InMemorySink

def withCapacity (capacity : Nat) (overflow : Overflow) : InMemorySink where
  capacity := capacity
  overflow := overflow
  records := []
  lines := []
  droppedRecords := 0
  droppedLines := 0

/-- `none` is the panic on capacity 0. -/
def bounded (capacity : Nat) (overflow : Overflow) : Option InMemorySink :=
  if 0 < capacity then some (withCapacity capacity overflow) else none

/-- `Shared::push_record`. -/
def pushRecord (s : InMemorySink) (record : List UInt8) (level : Level) : InMemorySink :=
  let pushed := pushInto s.capacity s.overflow s.records s.droppedRecords
    { level := level, bytes := record }
  { s with records := pushed.1, droppedRecords := pushed.2 }

/-- `Shared::push_line`. -/
def pushLine (s : InMemorySink) (line : List UInt8) (level : Level) : InMemorySink :=
  let pushed := pushInto s.capacity s.overflow s.lines s.droppedLines (line, level)
  { s with lines := pushed.1, droppedLines := pushed.2 }

/-- `InMemoryHandle::clear`. -/
def clear (s : InMemorySink) : InMemorySink :=
  { s with records := [], lines := [], droppedRecords := 0, droppedLines := 0 }

/-- The calls that change the sink. -/
inductive Call where
  | accept (line : List UInt8) (level : Level)
  | acceptRaw (record : List UInt8) (level : Level)
  | clear
deriving DecidableEq, Repr

/-- `accept` and `accept_raw` push and return `Ok`. -/
def step (s : InMemorySink) : Call → InMemorySink
  | .accept line level => s.pushLine line level
  | .acceptRaw record level => s.pushRecord record level
  | .clear => s.clear

def run (s : InMemorySink) (calls : List Call) : InMemorySink := calls.foldl step s

theorem run_append (s : InMemorySink) (calls : List Call) (c : Call) :
    s.run (calls ++ [c]) = (s.run calls).step c := List.foldl_concat ..

namespace Call

/-- The record a call pushes. -/
def record? : Call → Option CapturedRecord
  | .acceptRaw record level => some { level := level, bytes := record }
  | _ => none

/-- The line a call pushes. -/
def line? : Call → Option (List UInt8 × Level)
  | .accept line level => some (line, level)
  | _ => none

end Call

/-- The calls since the last `clear`. -/
def sinceClear (calls : List Call) : List Call := calls.rtakeWhile fun c => decide (c ≠ .clear)

/-- What was pushed to the two queues since then. -/
def recordsPushed (calls : List Call) : List CapturedRecord :=
  (sinceClear calls).filterMap Call.record?

def linesPushed (calls : List Call) : List (List UInt8 × Level) :=
  (sinceClear calls).filterMap Call.line?

theorem sinceClear_clear (calls : List Call) : sinceClear (calls ++ [.clear]) = [] :=
  List.rtakeWhile_concat_neg _ _ _ (by decide)

theorem sinceClear_push (calls : List Call) {c : Call} (h : c ≠ .clear) :
    sinceClear (calls ++ [c]) = sinceClear calls ++ [c] :=
  List.rtakeWhile_concat_pos _ _ _ (decide_eq_true h)

/-- Calls that a queue does not see may be left out. -/
theorem sinceClear_filter {β : Type} {seen : Call → Option β} {keep : Call → Bool}
    (hclear : keep .clear = true) (hseen : ∀ c, keep c = false → seen c = none)
    (calls : List Call) :
    (sinceClear (calls.filter keep)).filterMap seen = (sinceClear calls).filterMap seen := by
  induction calls using List.reverseRecOn with
  | nil => rfl
  | append_singleton calls c ih =>
    by_cases hc : c = .clear
    · subst hc
      rw [List.filter_append, List.filter_singleton, hclear]
      show List.filterMap seen (sinceClear (_ ++ [.clear])) = _
      rw [sinceClear_clear, sinceClear_clear]
    · rw [List.filter_append, List.filter_singleton, sinceClear_push _ hc, List.filterMap_append]
      cases hkeep : keep c with
      | true =>
        show List.filterMap seen (sinceClear (_ ++ [c])) = _
        rw [sinceClear_push _ hc, List.filterMap_append, ih]
      | false =>
        show List.filterMap seen (sinceClear (_ ++ [])) = _
        have hnone : [c].filterMap seen = [] := by
          rw [List.filterMap_cons_none (hseen c hkeep)]
          rfl
        rw [List.append_nil, hnone, List.append_nil, ih]

/-- The sink after `calls`: each queue holds its part of what was pushed to it. -/
def after (capacity : Nat) (overflow : Overflow) (calls : List Call) : InMemorySink where
  capacity := capacity
  overflow := overflow
  records := held capacity overflow (recordsPushed calls)
  lines := held capacity overflow (linesPushed calls)
  droppedRecords := UInt64.ofNat (missing capacity overflow (recordsPushed calls))
  droppedLines := UInt64.ofNat (missing capacity overflow (linesPushed calls))

theorem after_nil (capacity : Nat) (overflow : Overflow) :
    after capacity overflow [] = withCapacity capacity overflow := by
  have hrecords : recordsPushed [] = [] := rfl
  have hlines : linesPushed [] = [] := rfl
  unfold after
  rw [hrecords, hlines, held_nil, held_nil, missing_nil, missing_nil]
  rfl

/-- One call more. -/
theorem after_step {capacity : Nat} (hcap : 1 ≤ capacity) (overflow : Overflow)
    (calls : List Call) (c : Call) :
    (after capacity overflow calls).step c = after capacity overflow (calls ++ [c]) := by
  cases c with
  | accept line level =>
    have hsince := sinceClear_push calls (c := .accept line level) (by simp)
    have hrecords : recordsPushed (calls ++ [.accept line level]) = recordsPushed calls := by
      unfold recordsPushed
      rw [hsince, List.filterMap_append]
      exact List.append_nil _
    have hlines : linesPushed (calls ++ [.accept line level])
        = linesPushed calls ++ [(line, level)] := by
      unfold linesPushed
      rw [hsince, List.filterMap_append]
      rfl
    show pushLine _ line level = _
    unfold pushLine after
    rw [hrecords, hlines]
    show InMemorySink.mk _ _ _ _ _ _ = _
    rw [pushInto_held hcap]
  | acceptRaw record level =>
    have hsince := sinceClear_push calls (c := .acceptRaw record level) (by simp)
    have hrecords : recordsPushed (calls ++ [.acceptRaw record level])
        = recordsPushed calls ++ [{ level := level, bytes := record }] := by
      unfold recordsPushed
      rw [hsince, List.filterMap_append]
      rfl
    have hlines : linesPushed (calls ++ [.acceptRaw record level]) = linesPushed calls := by
      unfold linesPushed
      rw [hsince, List.filterMap_append]
      exact List.append_nil _
    show pushRecord _ record level = _
    unfold pushRecord after
    rw [hrecords, hlines]
    show InMemorySink.mk _ _ _ _ _ _ = _
    rw [pushInto_held hcap]
  | clear =>
    have hrecords : recordsPushed (calls ++ [.clear]) = [] := by
      unfold recordsPushed
      rw [sinceClear_clear]
      rfl
    have hlines : linesPushed (calls ++ [.clear]) = [] := by
      unfold linesPushed
      rw [sinceClear_clear]
      rfl
    show clear _ = _
    unfold after
    rw [hrecords, hlines, held_nil, held_nil, missing_nil, missing_nil]
    rfl

/-- A sink's state by its history. -/
theorem run_eq_after {capacity : Nat} (hcap : 1 ≤ capacity) (overflow : Overflow)
    (calls : List Call) :
    (withCapacity capacity overflow).run calls = after capacity overflow calls := by
  induction calls using List.reverseRecOn with
  | nil => exact (after_nil capacity overflow).symm
  | append_singleton calls c ih => rw [run_append, ih, after_step hcap]

/-- A bounded sink under any calls: each queue holds, in the order they came, the part of what
was pushed to it since the last `clear` that its policy keeps, and its counter is, as a `u64`,
the number of those that are missing; the calls of the other queue change neither. -/
theorem inMemory_holds (capacity : Nat) (hcap : 1 ≤ capacity) (overflow : Overflow) :
    ∃ s, bounded capacity overflow = some s ∧ ∀ calls,
      (s.run calls).records = held capacity overflow (recordsPushed calls) ∧
      (s.run calls).lines = held capacity overflow (linesPushed calls) ∧
      (s.run calls).droppedRecords.toNat
        = ((recordsPushed calls).length - (s.run calls).records.length) % 2 ^ 64 ∧
      (s.run calls).droppedLines.toNat
        = ((linesPushed calls).length - (s.run calls).lines.length) % 2 ^ 64 ∧
      (s.run (calls.filter fun c => c.line?.isNone)).records = (s.run calls).records ∧
      (s.run (calls.filter fun c => c.line?.isNone)).droppedRecords
        = (s.run calls).droppedRecords ∧
      (s.run (calls.filter fun c => c.record?.isNone)).lines = (s.run calls).lines ∧
      (s.run (calls.filter fun c => c.record?.isNone)).droppedLines
        = (s.run calls).droppedLines := by
  refine ⟨withCapacity capacity overflow, if_pos hcap, ?_⟩
  intro calls
  have hrecords : recordsPushed (calls.filter fun c => c.line?.isNone) = recordsPushed calls := by
    refine sinceClear_filter rfl ?_ calls
    intro c hc
    cases c with
    | accept line level => rfl
    | acceptRaw record level => exact absurd hc Bool.noConfusion
    | clear => rfl
  have hlines : linesPushed (calls.filter fun c => c.record?.isNone) = linesPushed calls := by
    refine sinceClear_filter rfl ?_ calls
    intro c hc
    cases c with
    | accept line level => exact absurd hc Bool.noConfusion
    | acceptRaw record level => rfl
    | clear => rfl
  rw [run_eq_after hcap, run_eq_after hcap, run_eq_after hcap]
  unfold after
  rw [hrecords, hlines]
  exact ⟨rfl, rfl, UInt64.toNat_ofNat', UInt64.toNat_ofNat', rfl, rfl, rfl, rfl⟩

/-- Three records into two places, after a `clear` and around a line. -/
theorem inMemory_holds_two : ∃ s, bounded 2 .dropOldest = some s ∧
    (s.run [.acceptRaw [1] .info, .clear, .acceptRaw [2] .info, .accept [9] .warn,
      .acceptRaw [3] .info, .acceptRaw [4] .info]).records
        = [⟨.info, [3]⟩, ⟨.info, [4]⟩] ∧
    (s.run [.acceptRaw [1] .info, .clear, .acceptRaw [2] .info, .accept [9] .warn,
      .acceptRaw [3] .info, .acceptRaw [4] .info]).droppedRecords.toNat = 1 := by
  obtain ⟨s, hs, hrun⟩ := inMemory_holds 2 (by decide) .dropOldest
  refine ⟨s, hs, ?_, ?_⟩
  · exact (hrun _).1
  · rw [(hrun _).2.2.1, (hrun _).1]
    rfl

/-- A queue of one place under `n` records. -/
theorem run_replicate (n : Nat) :
    (recordsPushed (List.replicate n (.acceptRaw [] .info))).length = n ∧
      ((withCapacity 1 .dropNewest).run
        (List.replicate n (.acceptRaw [] .info))).records.length = min 1 n ∧
      ((withCapacity 1 .dropNewest).run
        (List.replicate n (.acceptRaw [] .info))).droppedRecords.toNat = (n - 1) % 2 ^ 64 := by
  have hall : sinceClear (List.replicate n (.acceptRaw [] .info))
      = List.replicate n (.acceptRaw [] .info) := by
    refine List.rtakeWhile_eq_self_iff.mpr ?_
    intro c hc
    rw [List.eq_of_mem_replicate hc]
    rfl
  have hpushed : (recordsPushed (List.replicate n (.acceptRaw [] .info))).length = n := by
    have hsome : Call.record? (.acceptRaw [] .info) = some ⟨.info, []⟩ := rfl
    unfold recordsPushed
    rw [hall, List.filterMap_replicate_of_some hsome, List.length_replicate]
  refine ⟨hpushed, ?_, ?_⟩
  · rw [run_eq_after (Nat.le_refl 1)]
    show (held 1 .dropNewest _).length = _
    rw [held_length (by decide), hpushed]
  · rw [run_eq_after (Nat.le_refl 1)]
    show (UInt64.ofNat (missing 1 .dropNewest _)).toNat = _
    rw [missing_eq (by decide), hpushed, UInt64.toNat_ofNat']

/-- A counter that wraps: of 2^64 + 1 records one is held, and the counter is 0. -/
theorem inMemory_counter_wraps : ∃ s, bounded 1 .dropNewest = some s ∧
    (s.run (List.replicate (2 ^ 64 + 1) (.acceptRaw [] .info))).droppedRecords.toNat
      ≠ (recordsPushed (List.replicate (2 ^ 64 + 1) (.acceptRaw [] .info))).length
        - (s.run (List.replicate (2 ^ 64 + 1) (.acceptRaw [] .info))).records.length := by
  obtain ⟨hpushed, hheld, hdropped⟩ := run_replicate (2 ^ 64 + 1)
  refine ⟨withCapacity 1 .dropNewest, rfl, ?_⟩
  rw [hpushed, hheld, hdropped]
  decide

end InMemorySink

end Ticklog
