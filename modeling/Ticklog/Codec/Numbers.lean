import Ticklog.Codec.RoundTrip
import Ticklog.Codec.Text
import Ticklog.Lib.Digits

/-!
# Integers as text (`src/format.rs`)

`format_unsigned_impl` and `format_signed_impl` hand the padder one string: a sign or a radix
prefix, zeros up to the precision, then the digits (`formatUnsigned_eq`, `formatSigned_eq`).
The padder knows neither sign nor prefix, so the zeros of the `0` flag go in front of both;
`std::fmt`, whose syntax the pattern accepts, puts them behind. And the signed formatter does
not look at `x`, `X`, `o` and `b`, which its unsigned sibling honours: it writes a decimal.
-/

namespace Ticklog

open Lib

/-- What a type character makes of an integer. -/
structure Radix where
  base : Nat
  /-- Digits beyond 9 are upper-case letters. -/
  upper : Bool
  /-- The letter after the `0` of the prefix; decimals have no prefix. -/
  marker : Option UInt8

namespace Radix

def decimal : Radix := ⟨10, false, none⟩

/-- The radix of the type characters `x`, `X`, `o` and `b`. -/
def ofChar (c : UInt8) : Option Radix :=
  if c = ascii 'x' then some ⟨16, false, some (ascii 'x')⟩
  else if c = ascii 'X' then some ⟨16, true, some (ascii 'x')⟩
  else if c = ascii 'o' then some ⟨8, false, some (ascii 'o')⟩
  else if c = ascii 'b' then some ⟨2, false, some (ascii 'b')⟩
  else none

/-- The radix of a spec's type; any other type is decimal. -/
def ofSpec (spec : FormatSpec) : Radix := (spec.typeChar.bind ofChar).getD decimal

/-- The digits of a number. -/
def digits (r : Radix) (n : Nat) : List UInt8 := (numeral r.base n).map (digitByte r.upper)

/-- The prefix that `#` asks for. -/
def lead (r : Radix) (alternate : Bool) : List UInt8 :=
  if alternate then r.marker.elim [] fun m => [zeroDigit, m] else []

/-- A radix that occurs; its marker is no decimal digit and no sign. -/
structure Valid (r : Radix) : Prop where
  one_lt : 1 < r.base
  le : r.base ≤ 16
  marker : ∀ m ∈ r.marker, m ≠ ascii '-' ∧ ∀ d < 10, m ≠ digitByte false d

theorem decimal_valid : decimal.Valid := ⟨by decide, by decide, nofun⟩

theorem ofChar_cases {c : UInt8} {r : Radix} (h : ofChar c = some r) :
    r = ⟨16, false, some (ascii 'x')⟩ ∨ r = ⟨16, true, some (ascii 'x')⟩ ∨
      r = ⟨8, false, some (ascii 'o')⟩ ∨ r = ⟨2, false, some (ascii 'b')⟩ := by
  unfold ofChar at h
  split_ifs at h
  · exact Or.inl (Option.some.inj h).symm
  · exact Or.inr (Or.inl (Option.some.inj h).symm)
  · exact Or.inr (Or.inr (Or.inl (Option.some.inj h).symm))
  · exact Or.inr (Or.inr (Or.inr (Option.some.inj h).symm))

theorem ofChar_valid {c : UInt8} {r : Radix} (h : ofChar c = some r) : r.Valid := by
  rcases ofChar_cases h with rfl | rfl | rfl | rfl
  all_goals
    refine ⟨by decide, by decide, fun m hm => ?_⟩
    cases hm
    exact ⟨by decide, by decide⟩

theorem ofChar_marker {c : UInt8} {r : Radix} (h : ofChar c = some r) :
    ∃ m, r.marker = some m := by
  rcases ofChar_cases h with rfl | rfl | rfl | rfl <;> exact ⟨_, rfl⟩

theorem ofChar_base {c : UInt8} {r : Radix} (h : ofChar c = some r) : r.base ≠ 10 := by
  rcases ofChar_cases h with rfl | rfl | rfl | rfl <;> decide

theorem ofSpec_valid (spec : FormatSpec) : (ofSpec spec).Valid := by
  unfold ofSpec
  cases h : spec.typeChar.bind ofChar with
  | none => exact decimal_valid
  | some r =>
    obtain ⟨c, -, hc⟩ := Option.bind_eq_some_iff.mp h
    exact ofChar_valid hc

/-- What reads back the digits of a number behind any zeros. -/
theorem Valid.readDigits {r : Radix} (h : r.Valid) (k n : Nat) :
    readDigits r.upper r.base (List.replicate k zeroDigit ++ r.digits n) = some n := by
  have hzero : zeroDigit = digitByte r.upper 0 := rfl
  have hne : List.replicate k 0 ++ numeral r.base n ≠ [] :=
    List.append_ne_nil_of_right_ne_nil _ (numeral_ne_nil _ _)
  have hlt : ∀ d ∈ List.replicate k 0 ++ numeral r.base n, d < r.base := by
    intro d hd
    rcases List.mem_append.mp hd with hd | hd
    · rw [List.eq_of_mem_replicate hd]
      exact Nat.lt_trans Nat.zero_lt_one h.one_lt
    · exact numeral_lt h.one_lt d hd
  rw [digits, hzero, ← List.map_replicate, ← List.map_append,
    readDigits_map _ _ hne fun d hd => Nat.lt_of_lt_of_le (hlt d hd) h.le, if_pos hlt,
    ofDigits_zeros]

end Radix

/-! ## What the formatters hand to the padder -/

theorem digitChar_eq {d : Nat} (h : d < 16) : ascii (Nat.digitChar d) = digitByte false d := by
  have hall : ∀ d : Fin 16, ascii (Nat.digitChar d.val) = digitByte false d.val := by decide
  exact hall ⟨d, h⟩

theorem upper_digitByte {d : Nat} (h : d < 16) : upper (digitByte false d) = digitByte true d := by
  have hall : ∀ d : Fin 16, upper (digitByte false d.val) = digitByte true d.val := by decide
  exact hall ⟨d, h⟩

theorem digitsIn_eq {base : Nat} (hb : 1 < base) (hb' : base ≤ 16) (n : Nat) :
    digitsIn base n = (numeral base n).map (digitByte false) := by
  unfold digitsIn
  rw [toDigits_eq_numeral hb, List.map_map]
  apply List.map_congr_left
  intro d hd
  exact digitChar_eq (Nat.lt_of_lt_of_le (numeral_lt hb d hd) hb')

theorem digitsIn_upper {base : Nat} (hb : 1 < base) (hb' : base ≤ 16) (n : Nat) :
    (digitsIn base n).map upper = (numeral base n).map (digitByte true) := by
  rw [digitsIn_eq hb hb', List.map_map]
  apply List.map_congr_left
  intro d hd
  exact upper_digitByte (Nat.lt_of_lt_of_le (numeral_lt hb d hd) hb')

/-- The zeros of a precision go between what stands in front and the digits. -/
theorem padDigits_append (front ds : List UInt8) (precision : Option Nat) :
    padDigits (front ++ ds) front.length precision
      = front ++ (List.replicate (precision.getD 0 - ds.length) zeroDigit ++ ds) := by
  unfold padDigits
  cases precision with
  | none => rw [Option.getD_none, Nat.zero_sub]; rfl
  | some p =>
    show (front ++ ds).take front.length ++ _ ++ (front ++ ds).drop front.length = _
    rw [List.take_left, List.drop_left, List.length_append, Nat.add_sub_cancel_left,
      List.append_assoc]
    rfl

/-- Digits with the zeros a precision asks for. -/
def Radix.precise (r : Radix) (spec : FormatSpec) (n : Nat) : List UInt8 :=
  List.replicate (spec.precision.getD 0 - (r.digits n).length) zeroDigit ++ r.digits n

theorem formatUnsigned_eq (n : Nat) (spec : FormatSpec) :
    formatUnsigned n spec = formatWithSpec ((Radix.ofSpec spec).lead spec.alternate ++
      (Radix.ofSpec spec).precise spec n) spec := by
  have hradix : ∀ (marker : Char) (ds : List UInt8) (r : Radix), r.marker = some (ascii marker) →
      r.digits n = ds →
      padDigits (if spec.alternate then [zeroDigit, ascii marker] ++ ds else ds)
        (if spec.alternate then 2 else 0) spec.precision
      = r.lead spec.alternate ++ r.precise spec n := by
    rintro marker ds r hr rfl
    unfold Radix.lead
    rw [hr]
    cases spec.alternate with
    | true => exact padDigits_append [zeroDigit, ascii marker] _ _
    | false => exact padDigits_append [] _ _
  have hplain : padDigits (digitsIn 10 n) 0 spec.precision
      = Radix.decimal.lead spec.alternate ++ Radix.decimal.precise spec n := by
    have hlead : Radix.decimal.lead spec.alternate = [] := by
      unfold Radix.lead
      split <;> rfl
    rw [hlead, digitsIn_eq (by decide) (by decide)]
    exact padDigits_append [] _ _
  unfold formatUnsigned Radix.ofSpec
  cases htype : spec.typeChar with
  | none => exact congrArg (formatWithSpec · spec) hplain
  | some c =>
    simp only [Option.bind_some, Radix.ofChar]
    by_cases hx : c = ascii 'x'
    · rw [if_pos hx, if_pos hx]
      exact congrArg (formatWithSpec · spec)
        (hradix 'x' _ _ rfl (digitsIn_eq (by decide) (by decide) n).symm)
    · rw [if_neg hx, if_neg hx]
      by_cases hX : c = ascii 'X'
      · rw [if_pos hX, if_pos hX]
        exact congrArg (formatWithSpec · spec)
          (hradix 'x' _ _ rfl (digitsIn_upper (by decide) (by decide) n).symm)
      · rw [if_neg hX, if_neg hX]
        by_cases ho : c = ascii 'o'
        · rw [if_pos ho, if_pos ho]
          exact congrArg (formatWithSpec · spec)
            (hradix 'o' _ _ rfl (digitsIn_eq (by decide) (by decide) n).symm)
        · rw [if_neg ho, if_neg ho]
          by_cases hb : c = ascii 'b'
          · rw [if_pos hb, if_pos hb]
            exact congrArg (formatWithSpec · spec)
              (hradix 'b' _ _ rfl (digitsIn_eq (by decide) (by decide) n).symm)
          · rw [if_neg hb, if_neg hb]
            exact congrArg (formatWithSpec · spec) hplain

/-- The sign of a value. -/
def signOf (value : Int) : List UInt8 := if value < 0 then [ascii '-'] else []

/-- The signed formatter writes a decimal whatever the type. -/
theorem formatSigned_eq (value : Int) (spec : FormatSpec) :
    formatSigned value spec = formatWithSpec (signOf value ++
      Radix.decimal.precise spec value.natAbs) spec := by
  unfold formatSigned signOf
  simp only
  rw [digitsIn_eq (by decide) (by decide)]
  split
  · exact congrArg (formatWithSpec · spec) (padDigits_append [ascii '-'] _ _)
  · exact congrArg (formatWithSpec · spec) (padDigits_append [] _ _)

/-! ## The integer types -/

namespace Loggable

/-- The value of an argument of an integer type. -/
def integer : Loggable → Option Int
  | .u64 v => some v.toNat
  | .i64 v => some v.toInt
  | .u32 v => some v.toNat
  | .i32 v => some v.toInt
  | .u16 v => some v.toNat
  | .i16 v => some v.toInt
  | .u8 v => some v.toNat
  | .i8 v => some v.toInt
  | _ => none

def signed : Loggable → Bool
  | .i64 _ | .i32 _ | .i16 _ | .i8 _ => true
  | _ => false

/-- The width of an integer type. -/
def bits : Loggable → Nat
  | .u64 _ | .i64 _ => 64
  | .u32 _ | .i32 _ => 32
  | .u16 _ | .i16 _ => 16
  | _ => 8

variable {arg : Loggable} {value : Int}

theorem formatted_signed (std : Std) (spec : FormatSpec) (h : arg.integer = some value)
    (hs : arg.signed = true) : arg.formatted std spec = formatSigned value spec := by
  cases arg <;> cases h <;> first | rfl | cases hs

theorem formatted_unsigned (std : Std) (spec : FormatSpec) (h : arg.integer = some value)
    (hs : arg.signed = false) : arg.formatted std spec = formatUnsigned value.natAbs spec := by
  cases arg <;> cases h <;> first | rfl | cases hs

theorem integer_nonneg (h : arg.integer = some value) (hs : arg.signed = false) : 0 ≤ value := by
  cases arg <;> cases h <;> first | exact Int.natCast_nonneg _ | cases hs

/-- A value that is not negative is its own two's complement. -/
theorem integer_mod (h : arg.integer = some value) (hv : 0 ≤ value) :
    (value % 2 ^ arg.bits).toNat = value.natAbs := by
  have hlt : value < 2 ^ arg.bits := by
    cases arg with
    | u64 v => cases h; have := v.toNat_lt; simp only [bits]; omega
    | i64 v => cases h; have := v.toInt_lt; simp only [bits]; omega
    | u32 v => cases h; have := v.toNat_lt; simp only [bits]; omega
    | i32 v => cases h; have := v.toInt_lt; simp only [bits]; omega
    | u16 v => cases h; have := v.toNat_lt; simp only [bits]; omega
    | i16 v => cases h; have := v.toInt_lt; simp only [bits]; omega
    | u8 v => cases h; have := v.toNat_lt; simp only [bits]; omega
    | i8 v => cases h; have := v.toInt_lt; simp only [bits]; omega
    | f64 _ => cases h
    | f32 _ => cases h
    | bool _ => cases h
    | str _ => cases h
  rw [Int.emod_eq_of_lt hv hlt]
  omega

end Loggable

/-! ## The zero flag -/

/-- The type characters an integer type supports. -/
def Supports (arg : Loggable) (typeChar : Option UInt8) : Prop :=
  typeChar = none ∨ (arg.signed = false ∧ ∃ c r, typeChar = some c ∧ Radix.ofChar c = some r)

/-- The length of sign, prefix and digits. -/
def unpadded (spec : FormatSpec) (value : Int) : Nat :=
  (signOf value ++ (Radix.ofSpec spec).lead spec.alternate ++
    (Radix.ofSpec spec).digits value.natAbs).length

/-- What reads a number with its prefix. -/
def readMagnitude (r : Radix) (alternate : Bool) (bytes : List UInt8) : Option Nat :=
  if (r.lead alternate).isPrefixOf bytes then
    readDigits r.upper r.base (bytes.drop (r.lead alternate).length)
  else none

/-- What reads a signed number with its prefix behind the sign. -/
def readNumber (r : Radix) (alternate : Bool) (bytes : List UInt8) : Option Int :=
  if bytes.head? = some (ascii '-') then
    (readMagnitude r alternate bytes.tail).map fun n : Nat => -(n : Int)
  else (readMagnitude r alternate bytes).map fun n : Nat => (n : Int)

/-- A number as `std::fmt` writes it under the `0` flag: sign, prefix, zeros and digits fill the
width, and it reads back as the number. -/
structure ZeroPadded (spec : FormatSpec) (value : Int) (out : List UInt8) : Prop where
  shape : ∃ zeros, out = signOf value ++ (Radix.ofSpec spec).lead spec.alternate ++
    (List.replicate zeros zeroDigit ++ (Radix.ofSpec spec).digits value.natAbs)
  length : out.length = max (spec.width.getD 0) (unpadded spec value)
  reads : readNumber (Radix.ofSpec spec) spec.alternate out = some value

/-- With the `0` flag and no alignment the padding goes in front. -/
theorem formatWithSpec_zero (s : List UInt8) {spec : FormatSpec} (hzero : spec.zeroFill = true)
    (halign : spec.align = .none) : formatWithSpec s spec
      = List.replicate (spec.width.getD 0 - s.length) zeroDigit ++ s := by
  unfold formatWithSpec
  simp only [hzero, halign, if_true, and_self]
  split
  next hle =>
    rw [Nat.sub_eq_zero_of_le hle]
    rfl
  next => rfl

theorem Radix.lead_decimal (alternate : Bool) : Radix.decimal.lead alternate = [] := by
  cases alternate <;> rfl

theorem Radix.precise_none {r : Radix} {spec : FormatSpec} (h : spec.precision = none) (n : Nat) :
    r.precise spec n = r.digits n := by
  unfold Radix.precise
  rw [h, Option.getD_none, Nat.zero_sub]
  rfl

/-- The text handed to the padder, for the types an integer supports. -/
theorem formatted_front (std : Std) {arg : Loggable} {value : Int} {spec : FormatSpec}
    (harg : arg.integer = some value) (hprecision : spec.precision = none)
    (htype : Supports arg spec.typeChar) :
    arg.formatted std spec = formatWithSpec (signOf value ++
      (Radix.ofSpec spec).lead spec.alternate ++ (Radix.ofSpec spec).digits value.natAbs) spec := by
  cases hs : arg.signed with
  | true =>
    have hnone : spec.typeChar = none := by
      rcases htype with hnone | ⟨hunsigned, -⟩
      · exact hnone
      · rw [hs] at hunsigned
        cases hunsigned
    have hdecimal : Radix.ofSpec spec = .decimal := by
      unfold Radix.ofSpec
      rw [hnone]
      rfl
    rw [Loggable.formatted_signed std spec harg hs, formatSigned_eq, hdecimal,
      Radix.lead_decimal, List.append_nil, Radix.precise_none hprecision]
  | false =>
    have hsign : signOf value = [] :=
      if_neg (Int.not_lt.mpr (Loggable.integer_nonneg harg hs))
    rw [Loggable.formatted_unsigned std spec harg hs, formatUnsigned_eq, hsign, List.nil_append,
      Radix.precise_none hprecision]

theorem Radix.digits_ne_minus {r : Radix} (hr : r.Valid) (k n : Nat) :
    ascii '-' ∉ List.replicate k zeroDigit ++ r.digits n := by
  intro hmem
  have hnone : digitValue r.upper (ascii '-') = none := by cases r.upper <;> decide
  have hread := hr.readDigits k n
  rw [readDigits_eq_none hnone hmem] at hread
  cases hread

/-- A number written as sign, prefix, zeros and digits reads back. -/
theorem readNumber_text {r : Radix} (hr : r.Valid) (alternate : Bool) (k : Nat) (value : Int) :
    readNumber r alternate (signOf value ++ r.lead alternate ++
      (List.replicate k zeroDigit ++ r.digits value.natAbs)) = some value := by
  have hmagnitude : readMagnitude r alternate (r.lead alternate ++
      (List.replicate k zeroDigit ++ r.digits value.natAbs)) = some value.natAbs := by
    unfold readMagnitude
    rw [if_pos (List.isPrefixOf_iff_prefix.mpr (List.prefix_append _ _)), List.drop_left]
    exact hr.readDigits k value.natAbs
  unfold readNumber signOf
  split_ifs with hv hhead hhead
  · rw [List.append_assoc]
    show (readMagnitude r alternate (r.lead alternate ++ _)).map _ = _
    rw [hmagnitude]
    show some (-(value.natAbs : Int)) = some value
    congr 1
    omega
  · exact absurd rfl hhead
  · -- no prefix and no digit is a minus sign
    exfalso
    have hmem := List.mem_of_head? hhead
    rw [List.nil_append] at hmem
    rcases List.mem_append.mp hmem with hlead | hdigits
    · unfold Radix.lead at hlead
      split at hlead
      · cases hm : r.marker with
        | none =>
          rw [hm] at hlead
          cases hlead
        | some m =>
          rw [hm] at hlead
          rcases List.mem_cons.mp hlead with h0 | hlead
          · exact absurd h0 (by decide)
          · exact (hr.marker m hm).1 (List.mem_singleton.mp hlead).symm
      · cases hlead
    · exact r.digits_ne_minus hr _ _ hdigits
  · rw [List.nil_append, hmagnitude]
    show some (value.natAbs : Int) = some value
    congr 1
    omega

/-- Zeros in front of a sign or a prefix are not behind it. -/
theorem zeros_front {sign lead ds : List UInt8} {k zeros : Nat}
    (hsign : sign = [] ∨ sign = [ascii '-'])
    (hlead : lead = [] ∨ ∃ m, lead = [zeroDigit, m] ∧ m ≠ zeroDigit)
    (h : List.replicate k zeroDigit ++ (sign ++ lead ++ ds)
      = sign ++ lead ++ (List.replicate zeros zeroDigit ++ ds)) :
    k = 0 ∨ (sign = [] ∧ lead = []) := by
  cases k with
  | zero => exact Or.inl rfl
  | succ k =>
    refine Or.inr ?_
    rcases hsign with rfl | rfl
    · rcases hlead with rfl | ⟨m, rfl, hm⟩
      · exact ⟨rfl, rfl⟩
      · -- the second byte is a zero on one side and the marker on the other
        exfalso
        have hsecond : (List.replicate (k + 1) zeroDigit ++ ([] ++ [zeroDigit, m] ++ ds))[1]?
            = some zeroDigit := by
          cases k <;> rfl
        rw [h] at hsecond
        exact hm (Option.some.inj hsecond)
    · exact absurd (List.cons.inj h).1 (by decide)

theorem Radix.lead_cases {r : Radix} (hr : r.Valid) (alternate : Bool) :
    r.lead alternate = [] ∨ ∃ m, r.lead alternate = [zeroDigit, m] ∧ m ≠ zeroDigit := by
  unfold Radix.lead
  split
  · cases hm : r.marker with
    | none => exact Or.inl rfl
    | some m => exact Or.inr ⟨m, rfl, (hr.marker m hm).2 0 (by decide)⟩
  · exact Or.inl rfl

/-- A supported type has a prefix exactly when it is a radix type under `#`. -/
theorem Radix.lead_eq_nil_iff {arg : Loggable} {spec : FormatSpec}
    (htype : Supports arg spec.typeChar) : (Radix.ofSpec spec).lead spec.alternate = [] ↔
      ¬(spec.alternate = true ∧ spec.typeChar.isSome = true) := by
  rcases htype with hnone | ⟨-, c, r, hc, hr⟩
  · have hdecimal : Radix.ofSpec spec = .decimal := by
      unfold Radix.ofSpec
      rw [hnone]
      rfl
    rw [hdecimal, Radix.lead_decimal, hnone]
    simp
  · have hradix : Radix.ofSpec spec = r := by
      unfold Radix.ofSpec
      rw [hc, Option.bind_some, hr, Option.getD_some]
    obtain ⟨m, hm⟩ := Radix.ofChar_marker hr
    rw [hradix, hc, Radix.lead, hm]
    cases spec.alternate <;> simp

/-- Under the `0` flag without alignment and precision an integer comes out as `std::fmt` writes
it exactly when nothing is padded, or it has neither sign nor prefix. -/
theorem zero_flag_iff (std : Std) {arg : Loggable} {value : Int} {spec : FormatSpec}
    (harg : arg.integer = some value) (hzero : spec.zeroFill = true) (halign : spec.align = .none)
    (hprecision : spec.precision = none) (htype : Supports arg spec.typeChar) :
    ZeroPadded spec value (arg.formatted std spec) ↔
      spec.width.getD 0 ≤ unpadded spec value ∨
        (0 ≤ value ∧ ¬(spec.alternate = true ∧ spec.typeChar.isSome = true)) := by
  have hr := Radix.ofSpec_valid spec
  have hout := formatted_front std harg hprecision htype
  rw [formatWithSpec_zero _ hzero halign] at hout
  rw [hout, ← Radix.lead_eq_nil_iff htype]
  have hsign : 0 ≤ value ↔ signOf value = [] := by
    unfold signOf
    split
    next hv => exact ⟨fun h => absurd hv (Int.not_lt.mpr h), nofun⟩
    next hv => exact ⟨fun _ => rfl, fun _ => Int.not_lt.mp hv⟩
  rw [hsign]
  constructor
  · rintro ⟨⟨zeros, hshape⟩, -, -⟩
    have hsigns : signOf value = [] ∨ signOf value = [ascii '-'] := by
      unfold signOf
      split
      · exact Or.inr rfl
      · exact Or.inl rfl
    rcases zeros_front hsigns (Radix.lead_cases hr spec.alternate) hshape with hk | hfront
    · exact Or.inl (Nat.le_of_sub_eq_zero hk)
    · exact Or.inr hfront
  · intro hcond
    -- where nothing stands in front of the digits the zeros are in place
    have hshape : List.replicate (spec.width.getD 0 - unpadded spec value) zeroDigit ++
        (signOf value ++ (Radix.ofSpec spec).lead spec.alternate ++
          (Radix.ofSpec spec).digits value.natAbs)
        = signOf value ++ (Radix.ofSpec spec).lead spec.alternate ++
          (List.replicate (spec.width.getD 0 - unpadded spec value) zeroDigit ++
            (Radix.ofSpec spec).digits value.natAbs) := by
      rcases hcond with hwidth | ⟨hsign, hlead⟩
      · rw [Nat.sub_eq_zero_of_le hwidth]
        rfl
      · rw [hsign, hlead]
        rfl
    refine ⟨⟨_, hshape⟩, ?_, ?_⟩
    · rw [List.length_append, List.length_replicate]
      show spec.width.getD 0 - unpadded spec value + unpadded spec value = _
      omega
    · show readNumber _ _ (List.replicate (spec.width.getD 0 - unpadded spec value) zeroDigit ++ _)
        = _
      rw [hshape]
      exact readNumber_text hr spec.alternate _ value

/-- `{:03x}` of 31 has neither sign nor prefix. -/
theorem zero_flag_iff_hex :
    ZeroPadded (parseSpecBody (strBytes "03x")) 31
      ((Loggable.u8 31).formatted blankStd (parseSpecBody (strBytes "03x"))) :=
  (@zero_flag_iff blankStd (.u8 31) 31 _ rfl rfl rfl rfl
    (Or.inr ⟨rfl, ascii 'x', _, rfl, rfl⟩)).mpr (Or.inr ⟨by decide, by decide⟩)

/-- `{:05}` of `-5` is `000-5`. -/
theorem zero_flag_minus :
    validateSpecRt (strBytes "05") = .ok () ∧
      (Loggable.i64 (-5)).formatted blankStd (parseSpecBody (strBytes "05")) = strBytes "000-5" ∧
      ¬ZeroPadded (parseSpecBody (strBytes "05")) (-5)
        ((Loggable.i64 (-5)).formatted blankStd (parseSpecBody (strBytes "05"))) := by
  have hout : (Loggable.i64 (-5)).formatted blankStd (parseSpecBody (strBytes "05"))
      = strBytes "000-5" := by decide
  refine ⟨by decide, hout, ?_⟩
  rintro ⟨-, -, hreads⟩
  rw [hout] at hreads
  exact absurd hreads (by decide)

/-! ## The radix types -/

/-- A number as its radix type asks for it: the prefix, then digits of that radix, as many as
the precision asks for, that denote the value, or its two's complement if it is negative. -/
def RadixLaw (r : Radix) (spec : FormatSpec) (bits : Nat) (value : Int) (out : List UInt8) :
    Prop :=
  ∃ digits, out = r.lead spec.alternate ++ digits ∧ spec.precision.getD 0 ≤ digits.length ∧
    readDigits r.upper r.base digits = some (value % 2 ^ bits).toNat

theorem formatWithSpec_noWidth (s : List UInt8) {spec : FormatSpec} (h : spec.width = none) :
    formatWithSpec s spec = s := by
  unfold formatWithSpec
  rw [h]
  exact if_pos (Nat.zero_le _)

theorem Radix.precise_length (r : Radix) (spec : FormatSpec) (n : Nat) :
    spec.precision.getD 0 ≤ (r.precise spec n).length := by
  unfold precise
  rw [List.length_append, List.length_replicate]
  omega

/-- Decimal digits are the same bytes under either case. -/
theorem Radix.decimal_precise (upper : Bool) (spec : FormatSpec) (n : Nat) :
    decimal.precise spec n = (List.replicate (spec.precision.getD 0 - (decimal.digits n).length) 0
      ++ numeral 10 n).map (digitByte upper) := by
  have hcase : ∀ d ∈ numeral 10 n, digitByte false d = digitByte upper d := by
    intro d hd
    have hall : ∀ (upper : Bool) (d : Fin 10),
        digitByte false d.val = digitByte upper d.val := by decide
    exact hall upper ⟨d, numeral_lt (by decide) d hd⟩
  rw [List.map_append, List.map_replicate, ← List.map_congr_left hcase]
  rfl

/-- What a reader of another radix makes of decimal digits. -/
theorem Radix.readDigits_decimal (upper : Bool) (base : Nat) (spec : FormatSpec) (n : Nat) :
    Lib.readDigits upper base (decimal.precise spec n)
      = if ∀ d ∈ List.replicate (spec.precision.getD 0 - (decimal.digits n).length) 0 ++
          numeral 10 n, d < base then
        some (Nat.ofDigits base (List.replicate (spec.precision.getD 0 -
          (decimal.digits n).length) 0 ++ numeral 10 n).reverse)
      else none := by
  rw [decimal_precise upper]
  refine readDigits_map upper base ?_ fun d hd => ?_
  · exact List.append_ne_nil_of_right_ne_nil _ (numeral_ne_nil _ _)
  · rcases List.mem_append.mp hd with hd | hd
    · rw [List.eq_of_mem_replicate hd]
      decide
    · exact Nat.lt_trans (numeral_lt (by decide) d hd) (by decide)

/-- Under a radix type without width an integer obeys the type exactly when it is unsigned, or
there is no prefix and the number is a single digit of both radices. -/
theorem radix_law_iff (std : Std) {arg : Loggable} {value : Int} {spec : FormatSpec} {c : UInt8}
    {r : Radix} (harg : arg.integer = some value) (hwidth : spec.width = none)
    (htype : spec.typeChar = some c) (hradix : Radix.ofChar c = some r) :
    RadixLaw r spec arg.bits value (arg.formatted std spec) ↔
      arg.signed = false ∨ (spec.alternate = false ∧ 0 ≤ value ∧ value < min 10 r.base) := by
  have hr := Radix.ofChar_valid hradix
  cases hs : arg.signed with
  | false =>
    have hspec : Radix.ofSpec spec = r := by
      unfold Radix.ofSpec
      rw [htype, Option.bind_some, hradix, Option.getD_some]
    rw [Loggable.formatted_unsigned std spec harg hs, formatUnsigned_eq, hspec,
      formatWithSpec_noWidth _ hwidth]
    refine ⟨fun _ => Or.inl rfl, fun _ => ⟨_, rfl, r.precise_length spec _, ?_⟩⟩
    rw [Loggable.integer_mod harg (Loggable.integer_nonneg harg hs)]
    exact hr.readDigits _ _
  | true =>
    rw [Loggable.formatted_signed std spec harg hs, formatSigned_eq,
      formatWithSpec_noWidth _ hwidth]
    constructor
    · rintro ⟨digits, hout, -, hread⟩
      refine Or.inr ?_
      have halternate : spec.alternate = false := by
        rw [Bool.eq_false_iff]
        intro halt
        -- the marker of the prefix is neither a sign nor a decimal digit
        obtain ⟨m, hm⟩ := Radix.ofChar_marker hradix
        obtain ⟨hminus, hdigit⟩ := hr.marker m hm
        have hmem : m ∈ signOf value ++ Radix.decimal.precise spec value.natAbs := by
          rw [hout, Radix.lead, halt, hm]
          exact List.mem_cons_of_mem _ List.mem_cons_self
        rcases List.mem_append.mp hmem with hsign | hprecise
        · unfold signOf at hsign
          split at hsign
          · exact hminus (List.mem_singleton.mp hsign)
          · cases hsign
        · rw [Radix.decimal_precise false] at hprecise
          obtain ⟨d, hd, rfl⟩ := List.mem_map.mp hprecise
          refine hdigit d ?_ rfl
          rcases List.mem_append.mp hd with hd | hd
          · rw [List.eq_of_mem_replicate hd]
            decide
          · exact numeral_lt (by decide) d hd
      rw [Radix.lead, halternate, if_neg Bool.false_ne_true, List.nil_append] at hout
      subst hout
      have hvalue : 0 ≤ value := by
        by_contra hneg
        have hnone : digitValue r.upper (ascii '-') = none := by cases r.upper <;> decide
        have hmem : ascii '-' ∈ signOf value ++ Radix.decimal.precise spec value.natAbs := by
          rw [signOf, if_pos (Int.not_le.mp hneg)]
          exact List.mem_cons_self
        rw [readDigits_eq_none hnone hmem] at hread
        cases hread
      refine ⟨halternate, hvalue, ?_⟩
      rw [signOf, if_neg (Int.not_lt.mpr hvalue), List.nil_append, Radix.readDigits_decimal,
        Loggable.integer_mod harg hvalue] at hread
      split at hread
      · next hall =>
        have hn : value.natAbs < 10 := by
          by_contra hn
          exact ofDigits_other (Nat.not_lt.mp hn) (Radix.ofChar_base hradix) _
            (Option.some.inj hread)
        have hbase : value.natAbs < r.base := by
          apply hall
          rw [numeral_of_lt hn]
          exact List.mem_append_right _ List.mem_cons_self
        omega
      · cases hread
    · rintro (hfalse | ⟨halternate, hvalue, hlt⟩)
      · cases hfalse
      · have hn : value.natAbs < 10 := by omega
        refine ⟨Radix.decimal.precise spec value.natAbs, ?_, Radix.precise_length _ spec _, ?_⟩
        · rw [signOf, if_neg (Int.not_lt.mpr hvalue), Radix.lead, halternate]
          rfl
        · have hall : ∀ d ∈ List.replicate (spec.precision.getD 0 -
              (Radix.decimal.digits value.natAbs).length) 0 ++ numeral 10 value.natAbs,
              d < r.base := by
            intro d hd
            rcases List.mem_append.mp hd with hd | hd
            · rw [List.eq_of_mem_replicate hd]
              exact Nat.lt_trans Nat.zero_lt_one hr.one_lt
            · rw [numeral_of_lt hn] at hd
              rw [List.mem_singleton.mp hd]
              omega
          rw [Radix.readDigits_decimal, Loggable.integer_mod harg hvalue, if_pos hall,
            numeral_of_lt hn, ofDigits_lead_zeros]

/-- A byte above nine keeps its upper-case hexadecimal digits, padded to the precision. -/
theorem radix_law_iff_unsigned :
    RadixLaw ⟨16, true, some (ascii 'x')⟩ (parseSpecBody (strBytes ".4#X")) 8 171
      ((Loggable.u8 171).formatted blankStd (parseSpecBody (strBytes ".4#X"))) :=
  (@radix_law_iff blankStd (.u8 171) 171 _ (ascii 'X') _ rfl rfl rfl rfl).mpr (Or.inl rfl)

/-- `{:x}` of the `i8` `-1` is `-1`, not `ff`. -/
theorem radix_law_minus :
    validateSpecRt (strBytes "x") = .ok () ∧
      (Loggable.i8 (-1)).formatted blankStd (parseSpecBody (strBytes "x")) = strBytes "-1" ∧
      ¬RadixLaw ⟨16, false, some (ascii 'x')⟩ (parseSpecBody (strBytes "x")) 8 (-1)
        ((Loggable.i8 (-1)).formatted blankStd (parseSpecBody (strBytes "x"))) := by
  have hout : (Loggable.i8 (-1)).formatted blankStd (parseSpecBody (strBytes "x"))
      = strBytes "-1" := by decide
  refine ⟨by decide, hout, ?_⟩
  rintro ⟨digits, hdigits, -, hread⟩
  have hlead : (⟨16, false, some (ascii 'x')⟩ : Radix).lead
      (parseSpecBody (strBytes "x")).alternate = [] := by decide
  rw [hout, hlead, List.nil_append] at hdigits
  rw [← hdigits] at hread
  exact absurd hread (by decide)

end Ticklog
