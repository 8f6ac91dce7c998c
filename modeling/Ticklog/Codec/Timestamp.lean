import Ticklog.Codec.Decode
import Ticklog.Lib.Utf8

/-!
# Timestamps (`src/timestamp.rs`)

`format_iso8601` shifts an instant by the timezone offset, splits it into days and time of
day, and writes the fields into a stack buffer, most of them zero-padded. Signed integers
are `Int` with the casts and the wrapping addition written out; fields are `Nat`. What
`ticks_to_ns` makes of a counter value is floating point and stays a parameter of the
drain.
-/

namespace Ticklog

open Lib

/-- `x as i64`, and what a wrapping addition on `i64` leaves. -/
def castI64 (x : Int) : Int := x.bmod (2 ^ 64)

/-- `x as i32`. -/
def castI32 (x : Int) : Int := x.bmod (2 ^ 32)

/-- `x as u32`. -/
def castU32 (x : Int) : Nat := (x % 2 ^ 32).toNat

/-- `DAYS_FROM_CIVIL_EPOCH_TO_UNIX`. -/
def daysFromCivilEpochToUnix : Int := 719468

/-- `civil_from_days`: year, month and day. -/
def civilFromDays (daysSinceEpoch : Int) : Int × Nat × Nat :=
  let z := daysSinceEpoch + daysFromCivilEpochToUnix
  -- 400-year cycles; the division truncates
  let era := if 0 ≤ z then z.tdiv 146097 else (z - 146096).tdiv 146097
  let doe := castU32 (z - era * 146097)
  let yoe := (doe - doe / 1460 + doe / 36524 - doe / 146096) / 365
  let y := (yoe : Int) + era * 400
  let doy := doe - (365 * yoe + yoe / 4 - yoe / 100)
  -- the month, from March on
  let mp := (5 * doy + 2) / 153
  let d := doy - (153 * mp + 2) / 5 + 1
  let m := if mp < 10 then mp + 3 else mp - 9
  let yAdj := y + if m ≤ 2 then 1 else 0
  (castI32 yAdj, m, d)

/-- `time_from_ns`: hours, minutes, seconds and nanoseconds. -/
def timeFromNs (nsSinceMidnight : Nat) : Nat × Nat × Nat × Nat :=
  let secs := castU32 (nsSinceMidnight / 1000000000 : Nat)
  let nanos := castU32 (nsSinceMidnight % 1000000000 : Nat)
  (secs / 3600, secs % 3600 / 60, secs % 60, nanos)

def nanosPerSec : Int := 1000000000
def secsPerDay : Int := 86400

/-- `push_u32!`: the last `digits` decimal digits of `v`. -/
def pushU32 : Nat → Nat → List UInt8
  | _, 0 => []
  | v, digits + 1 => pushU32 (v / 10) digits ++ [UInt8.ofNat (0x30 + v % 10)]

/-- The timezone suffix: `Z`, or the sign with hours and minutes. -/
def offsetSuffix (offset : Int) : List UInt8 :=
  if offset = 0 then [ascii 'Z']
  else
    let sign := if offset < 0 then ascii '-' else ascii '+'
    let absOffset := offset.natAbs
    [sign] ++ pushU32 (absOffset / 3600) 2 ++ [ascii ':'] ++ pushU32 (absOffset % 3600 / 60) 2

/-- `format_iso8601` on an empty buffer. -/
def formatIso8601 (nsSinceEpoch : Nat) (offset : Int) : List UInt8 :=
  let localNs := castI64 (castI64 nsSinceEpoch + offset * nanosPerSec)
  let nsPerDay := nanosPerSec * secsPerDay
  let days := localNs / nsPerDay
  let nsSinceMidnight := (localNs % nsPerDay).toNat
  let (year, month, day) := civilFromDays days
  let (hour, min, sec, nanos) := timeFromNs nsSinceMidnight
  pushU32 (castU32 year) 4 ++ [ascii '-'] ++ pushU32 month 2 ++ [ascii '-'] ++ pushU32 day 2 ++
    [ascii 'T'] ++ pushU32 hour 2 ++ [ascii ':'] ++ pushU32 min 2 ++ [ascii ':'] ++
    pushU32 sec 2 ++ [ascii '.'] ++ pushU32 nanos 9 ++ offsetSuffix offset

example : formatIso8601 1780000000123456789 (-19800)
    = [0x32, 0x30, 0x32, 0x36, 0x2D, 0x30, 0x35, 0x2D, 0x32, 0x38, 0x54, 0x31, 0x34, 0x3A, 0x35,
      0x36, 0x3A, 0x34, 0x30, 0x2E, 0x31, 0x32, 0x33, 0x34, 0x35, 0x36, 0x37, 0x38, 0x39, 0x2D,
      0x30, 0x35, 0x3A, 0x33, 0x30] := by
  decide

/-- What a running drain reads besides records: `ticks_to_ns` under its calibration is `toNs`,
and `offset` its timezone offset. -/
def drainEnv (std : Std) (site : Nat → Site) (sourceFile : Nat → Nat → List UInt8)
    (toNs : Nat → Nat) (offset : Int) : Env where
  std := std
  site := site
  sourceFile := sourceFile
  timestamp := fun ticks => formatIso8601 (toNs ticks) offset

/-! ## Its bytes -/

theorem pushU32_ascii (v digits : Nat) : ∀ b ∈ pushU32 v digits, b < 0x80 := by
  induction digits generalizing v with
  | zero => exact fun b hb => absurd hb List.not_mem_nil
  | succ digits ih =>
    intro b hb
    rcases List.mem_append.mp hb with hb | hb
    · exact ih (v / 10) b hb
    · rw [List.mem_singleton.mp hb, UInt8.lt_iff_toNat_lt, UInt8.toNat_ofNat']
      show (48 + v % 10) % 256 < 128
      omega

theorem pushU32_utf8 (v digits : Nat) : Utf8 (pushU32 v digits) :=
  .ascii (pushU32_ascii v digits)

theorem offsetSuffix_utf8 (offset : Int) : Utf8 (offsetSuffix offset) := by
  unfold offsetSuffix
  split
  next => exact .byte (by decide)
  next =>
    refine .append (.append (.append (.byte ?_) (pushU32_utf8 _ _)) (.byte (by decide)))
      (pushU32_utf8 _ _)
    split <;> decide

/-- A timestamp is ASCII, whatever the instant. -/
theorem formatIso8601_utf8 (ns : Nat) (offset : Int) : Utf8 (formatIso8601 ns offset) := by
  unfold formatIso8601
  have hsep : ∀ c : Char, c ∈ ['-', 'T', ':', '.'] → Utf8 [ascii c] := by
    intro c hc
    simp only [List.mem_cons, List.not_mem_nil, or_false] at hc
    rcases hc with rfl | rfl | rfl | rfl <;> exact .byte (by decide)
  refine .append (.append (.append (.append (.append (.append (.append (.append (.append (.append
    (.append (.append (.append ?_ ?_) ?_) ?_) ?_) ?_) ?_) ?_) ?_) ?_) ?_) ?_) ?_)
    (offsetSuffix_utf8 offset)
  all_goals first
    | exact pushU32_utf8 _ _
    | exact hsep _ (by simp)

end Ticklog
