import Ticklog.Codec.FormatSpec

/-!
# Formatting by type (`src/format.rs`)

Each type's formatter renders its value to a string under the spec's type character and
precision, and `format_with_spec` pads it. Integers are rendered here; what the standard
library does with floats and with the `Debug` form of a string is a parameter (`Std`), as
is the replacement `from_utf8_lossy` makes in bytes that are not UTF-8.
-/

namespace Ticklog

/-- The standard library's formatting of floats, given by their bits, and of strings. -/
structure Std where
  /-- The float as a decimal, to a precision if one is given. -/
  display : UInt64 → Option Nat → List UInt8
  /-- In scientific notation; `true` for the upper-case exponent. -/
  exp : Bool → UInt64 → Option Nat → List UInt8
  /-- `Debug` of a float; `true` for the alternate form. -/
  debug : Bool → UInt64 → List UInt8
  /-- The bits of an `f32` cast to `f64`. -/
  widen : UInt32 → UInt64
  /-- `Debug` of a string; `true` for the alternate form. -/
  debugStr : Bool → String → List UInt8
  /-- `String::from_utf8_lossy` where the bytes are not UTF-8. -/
  lossy : List UInt8 → String

/-- The bytes of a string. -/
def strBytes (s : String) : List UInt8 := s.toByteArray.data.toList

/-- `format_with_spec`: the value padded to the spec's width. -/
def formatWithSpec (value : List UInt8) (spec : FormatSpec) : List UInt8 :=
  let width := spec.width.getD 0
  let fill := if spec.zeroFill then zeroDigit else spec.fill
  let align := if spec.zeroFill ∧ spec.align = .none then .right else spec.align
  if width ≤ value.length then value
  else
    let padding := width - value.length
    match align with
    | .none | .left => value ++ List.replicate padding fill
    | .right => List.replicate padding fill ++ value
    | .center =>
      List.replicate (padding / 2) fill ++ value ++ List.replicate (padding - padding / 2) fill

/-- The digits of `n` in a base up to 16, lower case. -/
def digitsIn (base n : Nat) : List UInt8 := (Nat.toDigits base n).map ascii

/-- The upper-case form of a digit. -/
def upper (c : UInt8) : UInt8 := if 0x61 ≤ c ∧ c ≤ 0x7A then c - 0x20 else c

/-- Zeros up to precision `p` between the first `prefixLen` bytes and the digits. -/
def padDigits (s : List UInt8) (prefixLen : Nat) (precision : Option Nat) : List UInt8 :=
  match precision with
  | some p =>
    s.take prefixLen ++ List.replicate (p - (s.length - prefixLen)) zeroDigit ++ s.drop prefixLen
  | none => s

/-- `format_unsigned_impl`. -/
def formatUnsigned (value : Nat) (spec : FormatSpec) : List UInt8 :=
  let radix (marker : Char) (s : List UInt8) : List UInt8 :=
    if spec.alternate then [zeroDigit, ascii marker] ++ s else s
  let plain := (digitsIn 10 value, 0)
  let prefixLen := if spec.alternate then 2 else 0
  let (s, prefixLen) :=
    match spec.typeChar with
    | some c =>
      if c = ascii 'x' then (radix 'x' (digitsIn 16 value), prefixLen)
      else if c = ascii 'X' then (radix 'x' ((digitsIn 16 value).map upper), prefixLen)
      else if c = ascii 'o' then (radix 'o' (digitsIn 8 value), prefixLen)
      else if c = ascii 'b' then (radix 'b' (digitsIn 2 value), prefixLen)
      else plain
    | none => plain
  formatWithSpec (padDigits s prefixLen spec.precision) spec

/-- `format_signed_impl`. -/
def formatSigned (value : Int) (spec : FormatSpec) : List UInt8 :=
  let s :=
    if value < 0 then ascii '-' :: digitsIn 10 value.natAbs else digitsIn 10 value.natAbs
  formatWithSpec (padDigits s (if value < 0 then 1 else 0) spec.precision) spec

section

variable (std : Std)

/-- `format_float_impl` on the bits of an `f64`. -/
def formatFloat (bits : UInt64) (spec : FormatSpec) : List UInt8 :=
  let s :=
    match spec.typeChar with
    | some c =>
      if c = ascii '?' then std.debug spec.alternate bits
      else if c = ascii 'e' then std.exp false bits spec.precision
      else if c = ascii 'E' then std.exp true bits spec.precision
      else std.display bits spec.precision
    | none => std.display bits spec.precision
  formatWithSpec s spec

/-- `format_bool`; `Debug` of a `bool` is its `Display`. -/
def formatBool (value : Bool) (spec : FormatSpec) : List UInt8 :=
  formatWithSpec (strBytes (if value then "true" else "false")) spec

/-- `format_str`; precision counts characters. -/
def formatStr (value : String) (spec : FormatSpec) : List UInt8 :=
  let plain :=
    match spec.precision with
    | some p => strBytes (String.ofList (value.toList.take p))
    | none => strBytes value
  let s :=
    match spec.typeChar with
    | some c => if c = ascii '?' then std.debugStr spec.alternate value else plain
    | none => plain
  formatWithSpec s spec

end

end Ticklog
