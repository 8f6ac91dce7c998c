import Ticklog.Codec.Civil
import Ticklog.Lib.Digits

/-!
# What a timestamp says (`format_iso8601` in `src/timestamp.rs`)

The text is the stamp of a calendar date and a time of day, each field padded to its width, with
the offset behind. `readIso8601` reads such a text as the standard has it: the local time the
stamp names, less the offset. The suffix has no seconds, so an offset that is not whole minutes is
not written out in full and the instant read back is off by what is missing. Fields of fixed
width in falling order of weight make the text grow with the instant.
-/

namespace Ticklog

open Lib

/-! ## Fixed-width fields -/

/-- The digits `push_u32!` writes. -/
def pushDigits : Nat → Nat → List Nat
  | _, 0 => []
  | v, digits + 1 => pushDigits (v / 10) digits ++ [v % 10]

theorem pushDigits_length (v digits : Nat) : (pushDigits v digits).length = digits := by
  induction digits generalizing v with
  | zero => rfl
  | succ digits ih => rw [pushDigits, List.length_append, ih, List.length_singleton]

theorem pushDigits_lt (v digits : Nat) : ∀ d ∈ pushDigits v digits, d < 10 := by
  induction digits generalizing v with
  | zero => exact nofun
  | succ digits ih =>
    intro d hd
    rcases List.mem_append.mp hd with hd | hd
    · exact ih (v / 10) d hd
    · rw [List.mem_singleton.mp hd]
      omega

/-- The digits beyond the width are lost. -/
theorem ofDigits_pushDigits (v digits : Nat) :
    Nat.ofDigits 10 (pushDigits v digits).reverse = v % 10 ^ digits := by
  induction digits generalizing v with
  | zero => exact (Nat.mod_one v).symm
  | succ digits ih =>
    rw [pushDigits, List.reverse_append, List.reverse_singleton, List.singleton_append,
      Nat.ofDigits_cons, ih, Nat.pow_succ', Nat.mod_mul]

theorem pushU32_digits (v digits : Nat) :
    pushU32 v digits = (pushDigits v digits).map (digitByte false) := by
  induction digits generalizing v with
  | zero => rfl
  | succ digits ih =>
    have hdigit : UInt8.ofNat (0x30 + v % 10) = digitByte false (v % 10) := by
      unfold digitByte
      rw [if_pos (Nat.mod_lt v (by decide))]
    rw [pushU32, pushDigits, List.map_append, ← ih, hdigit]
    rfl

/-- A value that fits its field is written whole, with zeros in front. -/
theorem pushU32_padded {v digits : Nat} (hd : 0 < digits) (h : v < 10 ^ digits) :
    pushU32 v digits = padded digits v := by
  rw [pushU32_digits]
  refine padded_digits hd h (pushDigits_length v digits) (pushDigits_lt v digits) ?_
  rw [ofDigits_pushDigits, Nat.mod_eq_of_lt h]

/-! ## The stamp -/

/-- A date and a time of day. -/
structure Stamp where
  year : Nat
  month : Nat
  day : Nat
  hour : Nat
  min : Nat
  sec : Nat
  nanos : Nat

namespace Stamp

/-- Every field is in its range. -/
structure Valid (t : Stamp) : Prop where
  year : t.year < 10000
  date : ValidDate t.year t.month t.day
  hour : t.hour < 24
  min : t.min < 60
  sec : t.sec < 60
  nanos : t.nanos < 1000000000

/-- `YYYY-MM-DDTHH:MM:SS.nnnnnnnnn` -/
def text (t : Stamp) : List UInt8 :=
  padded 4 t.year ++ ([ascii '-'] ++ (padded 2 t.month ++ ([ascii '-'] ++ (padded 2 t.day ++
    ([ascii 'T'] ++ (padded 2 t.hour ++ ([ascii ':'] ++ (padded 2 t.min ++ ([ascii ':'] ++
      (padded 2 t.sec ++ ([ascii '.'] ++ padded 9 t.nanos)))))))))))

/-- The nanoseconds from the epoch to the stamp. -/
def instant (t : Stamp) : Int :=
  (daysFromCivil t.year t.month t.day * 86400 + (t.hour * 3600 + t.min * 60 + t.sec : Nat))
    * 1000000000 + t.nanos

end Stamp

/-! ## Reading -/

/-- A field of `n` digits, and the rest. -/
def readField (n : Nat) (text : List UInt8) : Option (Nat × List UInt8) :=
  if n ≤ text.length then (readDigits false 10 (text.take n)).map fun v => (v, text.drop n)
  else none

/-- The character `c`, and the rest. -/
def readChar (c : Char) : List UInt8 → Option (List UInt8)
  | [] => none
  | b :: rest => if b = ascii c then some rest else none

/-- A stamp, and the rest. -/
def readStamp (text : List UInt8) : Option (Stamp × List UInt8) := do
  let (year, text) ← readField 4 text
  let text ← readChar '-' text
  let (month, text) ← readField 2 text
  let text ← readChar '-' text
  let (day, text) ← readField 2 text
  let text ← readChar 'T' text
  let (hour, text) ← readField 2 text
  let text ← readChar ':' text
  let (min, text) ← readField 2 text
  let text ← readChar ':' text
  let (sec, text) ← readField 2 text
  let text ← readChar '.' text
  let (nanos, text) ← readField 9 text
  some (⟨year, month, day, hour, min, sec, nanos⟩, text)

/-- The offset, in seconds: `Z`, or a sign with hours and minutes. -/
def readOffset : List UInt8 → Option Int
  | [] => none
  | b :: text =>
    if b = ascii 'Z' then if text = [] then some 0 else none
    else do
      let (hours, text) ← readField 2 text
      let text ← readChar ':' text
      let (mins, text) ← readField 2 text
      if text ≠ [] then none
      else if b = ascii '+' then some (hours * 3600 + mins * 60 : Nat)
      else if b = ascii '-' then some (-(hours * 3600 + mins * 60 : Nat) : Int)
      else none

/-- The instant a text names: the local time less the offset. -/
def readIso8601 (text : List UInt8) : Option Int := do
  let (stamp, text) ← readStamp text
  let offset ← readOffset text
  some (stamp.instant - offset * 1000000000)

theorem readField_padded {k v : Nat} (hk : 0 < k) (h : v < 10 ^ k) (rest : List UInt8) :
    readField k (padded k v ++ rest) = some (v, rest) := by
  have hlen := length_padded hk h
  unfold readField
  rw [if_pos (by rw [List.length_append]; omega), List.take_left' hlen, List.drop_left' hlen,
    readDigits_padded]
  rfl

theorem readChar_cons (c : Char) (rest : List UInt8) :
    readChar c ([ascii c] ++ rest) = some rest := if_pos rfl

/-- A stamp is read where its fields and separators are. -/
theorem readStamp_some {t : Stamp} {x₀ x₁ x₂ x₃ x₄ x₅ x₆ x₇ x₈ x₉ y₁ y₂ y₃ rest : List UInt8}
    (hyear : readField 4 x₀ = some (t.year, x₁)) (hdash : readChar '-' x₁ = some x₂)
    (hmonth : readField 2 x₂ = some (t.month, x₃)) (hdash' : readChar '-' x₃ = some x₄)
    (hday : readField 2 x₄ = some (t.day, x₅)) (htime : readChar 'T' x₅ = some x₆)
    (hhour : readField 2 x₆ = some (t.hour, x₇)) (hcolon : readChar ':' x₇ = some x₈)
    (hmin : readField 2 x₈ = some (t.min, x₉)) (hcolon' : readChar ':' x₉ = some y₁)
    (hsec : readField 2 y₁ = some (t.sec, y₂)) (hdot : readChar '.' y₂ = some y₃)
    (hnanos : readField 9 y₃ = some (t.nanos, rest)) : readStamp x₀ = some (t, rest) := by
  refine Option.bind_eq_some_iff.mpr ⟨_, hyear, Option.bind_eq_some_iff.mpr ⟨_, hdash, ?_⟩⟩
  refine Option.bind_eq_some_iff.mpr ⟨_, hmonth, Option.bind_eq_some_iff.mpr ⟨_, hdash', ?_⟩⟩
  refine Option.bind_eq_some_iff.mpr ⟨_, hday, Option.bind_eq_some_iff.mpr ⟨_, htime, ?_⟩⟩
  refine Option.bind_eq_some_iff.mpr ⟨_, hhour, Option.bind_eq_some_iff.mpr ⟨_, hcolon, ?_⟩⟩
  refine Option.bind_eq_some_iff.mpr ⟨_, hmin, Option.bind_eq_some_iff.mpr ⟨_, hcolon', ?_⟩⟩
  refine Option.bind_eq_some_iff.mpr ⟨_, hsec, Option.bind_eq_some_iff.mpr ⟨_, hdot, ?_⟩⟩
  exact Option.bind_eq_some_iff.mpr ⟨_, hnanos, rfl⟩

theorem readStamp_text {t : Stamp} (h : t.Valid) (rest : List UInt8) :
    readStamp (t.text ++ rest) = some (t, rest) := by
  have hday := h.date.day_le
  have hmonth := h.date.month_le
  have hlength := monthLength_le t.year t.month
  have htwo : ∀ v, v < 100 → ∀ rest, readField 2 (padded 2 v ++ rest) = some (v, rest) :=
    fun v hv => readField_padded (by decide) hv
  unfold Stamp.text
  simp only [List.append_assoc]
  exact readStamp_some (readField_padded (by decide) h.year _) (readChar_cons _ _)
    (htwo t.month (by omega) _) (readChar_cons _ _) (htwo t.day (by omega) _) (readChar_cons _ _)
    (htwo t.hour (Nat.lt_trans h.hour (by decide)) _) (readChar_cons _ _)
    (htwo t.min (Nat.lt_trans h.min (by decide)) _) (readChar_cons _ _)
    (htwo t.sec (Nat.lt_trans h.sec (by decide)) _) (readChar_cons _ _)
    (readField_padded (by decide) h.nanos _)

/-- The suffix has the offset's whole minutes. -/
theorem readOffset_suffix {offset : Int} (h : offset.natAbs < 360000) :
    readOffset (offsetSuffix offset) = some (offset - offset.tmod 60) := by
  unfold offsetSuffix
  by_cases hzero : offset = 0
  · subst hzero
    rfl
  · rw [if_neg hzero]
    obtain ⟨sign, hsign⟩ : ∃ sign, sign = if offset < 0 then ascii '-' else ascii '+' := ⟨_, rfl⟩
    simp only [← hsign]
    rw [pushU32_padded (by decide) (show offset.natAbs / 3600 < 10 ^ 2 by omega),
      pushU32_padded (by decide) (show offset.natAbs % 3600 / 60 < 10 ^ 2 by omega)]
    have hne : sign ≠ ascii 'Z' := by
      rw [hsign]
      split <;> decide
    have hmins := readField_padded (k := 2) (by decide)
      (show offset.natAbs % 3600 / 60 < 10 ^ 2 by omega) []
    rw [List.append_nil] at hmins
    simp only [List.append_assoc, List.cons_append, List.nil_append]
    rw [readOffset, if_neg hne,
      readField_padded (by decide) (show offset.natAbs / 3600 < 10 ^ 2 by omega)]
    simp only [Option.bind_eq_bind, Option.bind_some, readChar, if_true, hmins, ne_eq,
      not_true_eq_false, if_false]
    by_cases hneg : offset < 0
    · have hrem : offset.tmod 60 = -(-offset % 60) := by
        rw [← Int.tmod_eq_emod_of_nonneg (by omega), Int.neg_tmod, Int.neg_neg]
      rw [if_pos hneg] at hsign
      rw [hsign, if_neg (by decide), if_pos rfl, hrem]
      congr 1
      omega
    · have hrem : offset.tmod 60 = offset % 60 := Int.tmod_eq_emod_of_nonneg (by omega)
      rw [if_neg hneg] at hsign
      rw [hsign, if_pos rfl, hrem]
      congr 1
      omega

/-! ## The text of an instant -/

theorem castI64_of_bounds {x : Int} (hlo : -2 ^ 63 ≤ x) (hhi : x < 2 ^ 63) : castI64 x = x := by
  unfold castI64
  rw [Int.bmod_def]
  omega

/-- The time of day. -/
theorem timeFromNs_eq {n : Nat} (h : n < 86400 * 1000000000) :
    timeFromNs n = (n / 1000000000 / 3600, n / 1000000000 % 3600 / 60, n / 1000000000 % 60,
      n % 1000000000) := by
  have hsecs : castU32 (n / 1000000000 : Nat) = n / 1000000000 := by
    unfold castU32
    omega
  have hnanos : castU32 (n % 1000000000 : Nat) = n % 1000000000 := by
    unfold castU32
    omega
  unfold timeFromNs
  simp only [hsecs, hnanos]

/-- The stamp of an instant that is neither before 1969 nor beyond an `i64`. -/
theorem formatIso8601_stamp {ns : Nat} {offset : Int} (hlo : -43200 ≤ offset)
    (hns : (ns : Int) < 2 ^ 63) (hlocal : (ns : Int) + offset * 1000000000 < 2 ^ 63) :
    ∃ t : Stamp, t.Valid ∧ t.instant = ns + offset * 1000000000 ∧
      formatIso8601 ns offset = t.text ++ offsetSuffix offset := by
  obtain ⟨x, hx⟩ : ∃ x : Int, x = ns + offset * 1000000000 := ⟨_, rfl⟩
  have hcast : castI64 (castI64 ns + offset * nanosPerSec) = x := by
    rw [castI64_of_bounds (x := ns) (by omega) hns, hx]
    exact castI64_of_bounds (by unfold nanosPerSec; omega) hlocal
  have hday : nanosPerSec * secsPerDay = 86400000000000 := rfl
  obtain ⟨y, m, d, hvalid, hdays, hcivil⟩ := civilFromDays_spec (x / 86400000000000)
  have hspan := hvalid.year_span
  rw [hdays] at hspan
  have hyear : 1969 ≤ y ∧ y ≤ 2262 := by
    unfold daysBeforeYear at hspan
    omega
  have hi32 : castI32 y = y := by
    unfold castI32
    rw [Int.bmod_def]
    omega
  have hu32 : castU32 y = y.toNat := by
    unfold castU32
    omega
  obtain ⟨n, hn⟩ : ∃ n, n = (x % 86400000000000).toNat := ⟨_, rfl⟩
  have hnlt : n < 86400 * 1000000000 := by omega
  have htime := timeFromNs_eq hnlt
  have hy : ((y.toNat : Nat) : Int) = y := Int.toNat_of_nonneg (by omega)
  have ht : Stamp.Valid ⟨y.toNat, m, d, n / 1000000000 / 3600, n / 1000000000 % 3600 / 60,
      n / 1000000000 % 60, n % 1000000000⟩ := by
    refine ⟨?_, ?_, ?_, ?_, ?_, ?_⟩
    · show y.toNat < 10000
      omega
    · show ValidDate (y.toNat : Nat) m d
      rw [hy]
      exact hvalid
    all_goals simp only; omega
  refine ⟨_, ht, ?_, ?_⟩
  · unfold Stamp.instant
    simp only
    rw [hy, hdays, ← hx]
    omega
  · have hmonth : m < 10 ^ 2 := Nat.lt_of_le_of_lt hvalid.month_le (by decide)
    have hday' : d < 10 ^ 2 :=
      Nat.lt_of_le_of_lt (Nat.le_trans hvalid.day_le (monthLength_le y m)) (by decide)
    unfold formatIso8601 Stamp.text
    simp only [hcast, hday, ← hn, hcivil, hi32, hu32, htime]
    rw [pushU32_padded (show 0 < 4 by decide) (show y.toNat < 10 ^ 4 from ht.year),
      pushU32_padded (by decide) hmonth, pushU32_padded (by decide) hday',
      pushU32_padded (by decide) (show n / 1000000000 / 3600 < 10 ^ 2 by omega),
      pushU32_padded (by decide) (show n / 1000000000 % 3600 / 60 < 10 ^ 2 by omega),
      pushU32_padded (by decide) (show n / 1000000000 % 60 < 10 ^ 2 by omega),
      pushU32_padded (by decide) (show n % 1000000000 < 10 ^ 9 by omega)]
    simp only [List.append_assoc]

/-! ## The order of texts -/

/-- At equal lengths the first difference decides. -/
theorem lt_append {xs ys : List UInt8} (h : xs < ys) (hlen : xs.length = ys.length)
    (x y : List UInt8) : xs ++ x < ys ++ y := by
  induction xs generalizing ys with
  | nil =>
    cases ys with
    | nil => exact absurd h (List.lt_irrefl _)
    | cons b ys => cases hlen
  | cons a xs ih =>
    cases ys with
    | nil => cases hlen
    | cons b ys =>
      rw [List.cons_append, List.cons_append, List.cons_lt_cons_iff]
      rcases List.cons_lt_cons_iff.mp h with hlt | ⟨rfl, hlt⟩
      · exact Or.inl hlt
      · exact Or.inr ⟨rfl, ih hlt (Nat.succ.inj hlen)⟩

theorem pushU32_length (v digits : Nat) : (pushU32 v digits).length = digits := by
  rw [pushU32_digits, List.length_map, pushDigits_length]

theorem pushU32_lt {v w digits : Nat} (h : v < w) (hw : w < 10 ^ digits) :
    pushU32 v digits < pushU32 w digits := by
  induction digits generalizing v w with
  | zero =>
    rw [Nat.pow_zero] at hw
    omega
  | succ digits ih =>
    rw [pushU32, pushU32]
    rw [Nat.pow_succ] at hw
    by_cases hlead : v / 10 < w / 10
    · have hlen : (pushU32 (v / 10) digits).length = (pushU32 (w / 10) digits).length := by
        rw [pushU32_length, pushU32_length]
      exact lt_append (ih hlead (by omega)) hlen _ _
    · rw [show v / 10 = w / 10 by omega]
      refine List.append_left_lt (List.cons_lt_cons_iff.mpr (Or.inl ?_))
      rw [UInt8.lt_iff_toNat_lt, UInt8.toNat_ofNat', UInt8.toNat_ofNat']
      omega

/-- Fields of one width are ordered as their values, then by what follows. -/
theorem field_lt {k v w : Nat} (hk : 0 < k) (hv : v < 10 ^ k) (hw : w < 10 ^ k)
    {x y : List UInt8} (h : v < w ∨ v = w ∧ x < y) : padded k v ++ x < padded k w ++ y := by
  rcases h with hlt | ⟨rfl, hlt⟩
  · refine lt_append ?_ ?_ x y
    · rw [← pushU32_padded hk hv, ← pushU32_padded hk hw]
      exact pushU32_lt hlt hw
    · rw [length_padded hk hv, length_padded hk hw]
  · exact List.append_left_lt hlt

/-- A later stamp has the larger text. -/
theorem stamp_text_lt {t t' : Stamp} (h : t.Valid) (h' : t'.Valid)
    (hlt : t.instant < t'.instant) (rest : List UInt8) : t.text ++ rest < t'.text ++ rest := by
  have hmin := h.min
  have hmin' := h'.min
  have hsec := h.sec
  have hsec' := h'.sec
  have hhour := h.hour
  have hhour' := h'.hour
  have hnanos := h.nanos
  have hnanos' := h'.nanos
  have hyear := h.year
  have hyear' := h'.year
  have hmonth := h.date.month_le
  have hmonth' := h'.date.month_le
  have hday := Nat.le_trans h.date.day_le (monthLength_le _ _)
  have hday' := Nat.le_trans h'.date.day_le (monthLength_le _ _)
  have horder : t.year < t'.year ∨ t.year = t'.year ∧ (t.month < t'.month ∨
      t.month = t'.month ∧ (t.day < t'.day ∨ t.day = t'.day ∧ (t.hour < t'.hour ∨
        t.hour = t'.hour ∧ (t.min < t'.min ∨ t.min = t'.min ∧ (t.sec < t'.sec ∨
          t.sec = t'.sec ∧ t.nanos < t'.nanos))))) := by
    unfold Stamp.instant at hlt
    -- the date decides, then the time of day
    rcases Int.lt_trichotomy (daysFromCivil t.year t.month t.day)
        (daysFromCivil t'.year t'.month t'.day) with hdays | hdays | hdays
    · have hdate := dateLt_of_days h.date h'.date hdays
      unfold DateLt at hdate
      omega
    · obtain ⟨hy, hm, hd⟩ := date_eq_of_days h.date h'.date hdays
      omega
    · omega
  unfold Stamp.text
  simp only [List.append_assoc]
  have hsep : ∀ {x y : List UInt8} (c : Char), x < y → [ascii c] ++ x < [ascii c] ++ y :=
    fun c hxy => List.append_left_lt hxy
  refine field_lt (by decide) hyear hyear' (horder.imp_right (And.imp_right fun hm => hsep _ ?_))
  refine field_lt (by decide) (by omega) (by omega)
    (hm.imp_right (And.imp_right fun hd => hsep _ ?_))
  refine field_lt (by decide) (by omega) (by omega)
    (hd.imp_right (And.imp_right fun hh => hsep _ ?_))
  refine field_lt (by decide) (by omega) (by omega)
    (hh.imp_right (And.imp_right fun hmi => hsep _ ?_))
  refine field_lt (by decide) (by omega) (by omega)
    (hmi.imp_right (And.imp_right fun hs => hsep _ ?_))
  refine field_lt (by decide) (by omega) (by omega)
    (hs.imp_right (And.imp_right fun hn => hsep _ ?_))
  exact field_lt (by decide) hnanos hnanos' (Or.inl hn)

/-! ## Timestamps -/

/-- `MIN_TZ_OFFSET` in `src/builder.rs`. -/
def minTzOffset : Int := -43200

/-- `MAX_TZ_OFFSET` in `src/builder.rs`. -/
def maxTzOffset : Int := 50400

/-- `__configure_rt` takes the offset, and the instant and its local time fit an `i64`. -/
def Representable (ns : Nat) (offset : Int) : Prop :=
  minTzOffset ≤ offset ∧ offset ≤ maxTzOffset ∧ (ns : Int) < 2 ^ 63 ∧
    (ns : Int) + offset * 1000000000 < 2 ^ 63

/-- A timestamp is the stamp of the local time with the offset behind, every field in its range
and written whole. It reads back as the instant, less the seconds that the suffix has no place
for. Under one offset a later instant has the larger text. -/
theorem iso8601_exact (offset : Int) :
    (∀ ns, Representable ns offset → ∃ t : Stamp, t.Valid ∧
      t.instant = ns + offset * 1000000000 ∧
      formatIso8601 ns offset = t.text ++ offsetSuffix offset) ∧
    (∀ ns, Representable ns offset →
      readIso8601 (formatIso8601 ns offset) = some (ns + offset.tmod 60 * 1000000000) ∧
      ((60 : Int) ∣ offset → readIso8601 (formatIso8601 ns offset) = some (ns : Int))) ∧
    (∀ ns ns', Representable ns offset → Representable ns' offset → ns < ns' →
      formatIso8601 ns offset < formatIso8601 ns' offset) := by
  have hstamp : ∀ ns, Representable ns offset → ∃ t : Stamp, t.Valid ∧
      t.instant = ns + offset * 1000000000 ∧
      formatIso8601 ns offset = t.text ++ offsetSuffix offset := by
    rintro ns ⟨hlo, -, hns, hlocal⟩
    exact formatIso8601_stamp hlo hns hlocal
  refine ⟨hstamp, ?_, ?_⟩
  · intro ns h
    obtain ⟨t, ht, hinstant, htext⟩ := hstamp ns h
    obtain ⟨hlo, hhi, -⟩ := h
    unfold minTzOffset at hlo
    unfold maxTzOffset at hhi
    have hread : readIso8601 (formatIso8601 ns offset)
        = some (ns + offset.tmod 60 * 1000000000) := by
      unfold readIso8601
      rw [htext, readStamp_text ht]
      simp only [Option.bind_eq_bind, Option.bind_some]
      rw [readOffset_suffix (by omega), hinstant]
      show some _ = some _
      refine congrArg some ?_
      ring
    refine ⟨hread, fun hminutes => ?_⟩
    rw [hread, Int.tmod_eq_zero_of_dvd hminutes, Int.zero_mul, Int.add_zero]
  · intro ns ns' h h' hlt
    obtain ⟨t, ht, hinstant, htext⟩ := hstamp ns h
    obtain ⟨t', ht', hinstant', htext'⟩ := hstamp ns' h'
    rw [htext, htext']
    exact stamp_text_lt ht ht' (by omega) _

/-- Two instants a nanosecond apart, one hour behind: their local times lie on both sides of a
new year. -/
theorem iso8601_exact_newYear :
    readIso8601 (formatIso8601 1672534799999999999 (-3600)) = some 1672534799999999999 ∧
      readIso8601 (formatIso8601 1672534800000000000 (-3600)) = some 1672534800000000000 ∧
      formatIso8601 1672534799999999999 (-3600) < formatIso8601 1672534800000000000 (-3600) := by
  have hbefore : Representable 1672534799999999999 (-3600) := by
    unfold Representable minTzOffset maxTzOffset
    omega
  have hafter : Representable 1672534800000000000 (-3600) := by
    unfold Representable minTzOffset maxTzOffset
    omega
  obtain ⟨-, hread, horder⟩ := iso8601_exact (-3600)
  exact ⟨(hread _ hbefore).2 (by decide), (hread _ hafter).2 (by decide),
    horder _ _ hbefore hafter (by omega)⟩

end Ticklog
