import Ticklog.Record

/-!
# Format strings and specs (`src/format.rs`)

`validate_fmt` and `parse_spec_const`, which a format string passes at compile time, and
`parse_spec`, which the drain runs on each placeholder. A position in the string is the
list of the bytes from there on, so the two scanners and the drain's walk meet on
suffixes. The loop of `validate_fmt` is bounded by the length of the string.
-/

namespace Ticklog

open Lib

/-! ## Bytes -/

/-- The byte of an ASCII character. -/
def ascii (c : Char) : UInt8 := UInt8.ofNat c.toNat

def openBrace : UInt8 := 0x7B
def closeBrace : UInt8 := 0x7D
def colon : UInt8 := 0x3A
def zeroDigit : UInt8 := 0x30
def dot : UInt8 := 0x2E
def hash : UInt8 := 0x23

def isDigit (c : UInt8) : Bool := decide (0x30 ≤ c ∧ c ≤ 0x39)

/-- `is_align_char`. -/
def isAlignChar (c : UInt8) : Bool :=
  c == ascii '<' || c == ascii '>' || c == ascii '^'

/-- `is_valid_fill`. -/
def isValidFill (c : UInt8) : Bool :=
  c != ascii '+' && c != ascii '-' && c != zeroDigit && c != hash

/-- The type specifier characters. -/
def isTypeChar (c : UInt8) : Bool :=
  c == ascii '?' || c == ascii 'x' || c == ascii 'X' || c == ascii 'o' || c == ascii 'b' ||
    c == ascii 'e' || c == ascii 'E'

/-! ## Validation -/

/-- Why a format string is rejected. -/
inductive FmtError where
  | unclosed
  | unmatchedClose
  | positional
  | invalidFill
  | missingDigits
  | signFlag
  | unsupportedType
  | trailing
deriving DecidableEq, Repr

/-- The message the macros abort compilation with. -/
def FmtError.message : FmtError → String
  | .unclosed => "unclosed '\x7b': missing '\x7d'"
  | .unmatchedClose => "unmatched '\x7d': use '\x7d\x7d' to escape a literal brace"
  | .positional => "positional params not supported"
  | .invalidFill => "invalid fill character"
  | .missingDigits => "expected digits after '.'"
  | .signFlag => "sign flags not supported"
  | .unsupportedType => "unsupported type character in format spec"
  | .trailing => "trailing characters after format spec"

/-- The byte at this position is `c`. -/
def at? (c : UInt8) (rest : List UInt8) : Bool := rest.head? == some c

/-- `[fill] [align]`. -/
def skipFillAlign : List UInt8 → Except FmtError (List UInt8)
  | a :: b :: rest =>
    if isAlignChar b then
      if isValidFill a then .ok rest else .error .invalidFill
    else if isAlignChar a then .ok (b :: rest) else .ok (a :: b :: rest)
  | [a] => if isAlignChar a then .ok [] else .ok [a]
  | [] => .ok []

/-- `['.' precision]`. -/
def skipPrecision (rest : List UInt8) : Except FmtError (List UInt8) :=
  if at? dot rest then
    if rest.tail.head?.any isDigit then .ok (rest.tail.dropWhile isDigit)
    else .error .missingDigits
  else .ok rest

/-- `[type]`, the last part. -/
def skipType : List UInt8 → Except FmtError (List UInt8)
  | [] => .ok []
  | c :: rest =>
    if isTypeChar c then .ok rest
    else if c = closeBrace then .ok (c :: rest)
    else if c = ascii '+' ∨ c = ascii '-' then .error .signFlag
    else .error .unsupportedType

/-- Goes on with `k` unless the spec ends here. -/
def unlessClosed (rest : List UInt8)
    (k : List UInt8 → Except FmtError (List UInt8)) : Except FmtError (List UInt8) :=
  if at? closeBrace rest then .ok rest else k rest

/-- `parse_spec_const`: the position after the spec that starts here. -/
def parseSpecConst (rest : List UInt8) : Except FmtError (List UInt8) :=
  match rest with
  | [] => .error .unclosed
  | _ :: _ =>
    unlessClosed rest fun rest => do
      let rest ← skipFillAlign rest
      unlessClosed rest fun rest =>
        unlessClosed (if at? zeroDigit rest then rest.tail else rest) fun rest =>
          unlessClosed (rest.dropWhile isDigit) fun rest => do
            let rest ← skipPrecision rest
            unlessClosed rest fun rest =>
              unlessClosed (if at? hash rest then rest.tail else rest) skipType

/-- After the name of a placeholder: the spec, if a `:` starts one. -/
def validateSpec : List UInt8 → Except FmtError (List UInt8)
  | [] => .error .unclosed
  | c :: rest => if c = colon then parseSpecConst rest else .ok (c :: rest)

/-- The closing brace of a placeholder. -/
def expectClose : List UInt8 → Except FmtError (List UInt8)
  | [] => .error .unclosed
  | c :: rest => if c = closeBrace then .ok rest else .error .trailing

/-- The part of `validate_fmt` from after a placeholder's `{` to after its `}`. -/
def validatePlaceholder (rest : List UInt8) : Except FmtError (List UInt8) :=
  let name := rest.takeWhile fun c => c != colon && c != closeBrace
  let rest := rest.dropWhile fun c => c != colon && c != closeBrace
  if !name.isEmpty && name.all isDigit then .error .positional
  else do
    let rest ← validateSpec rest
    expectClose rest

/-- The loop of `validate_fmt`; `fuel` bounds its iterations. -/
def validateFrom : Nat → List UInt8 → Nat → Except FmtError Nat
  | _, [], count => .ok count
  | 0, _ :: _, _ => .error .trailing
  | fuel + 1, c :: rest, count =>
    if c = openBrace then
      if at? openBrace rest then validateFrom fuel rest.tail count
      else do
        let rest ← validatePlaceholder rest
        validateFrom fuel rest (count + 1)
    else if c = closeBrace then
      if at? closeBrace rest then validateFrom fuel rest.tail count
      else .error .unmatchedClose
    else validateFrom fuel rest count

/-- `validate_fmt`: the number of placeholders. -/
def validateFmt (fmt : List UInt8) : Except FmtError Nat := validateFrom fmt.length fmt 0

/-! ## Parsed specs -/

inductive Align where
  | none
  | left
  | right
  | center
deriving DecidableEq, Repr

structure FormatSpec where
  fill : UInt8
  align : Align
  zeroFill : Bool
  width : Option Nat
  precision : Option Nat
  alternate : Bool
  typeChar : Option UInt8
deriving DecidableEq, Repr

/-- `FormatSpec::default`. -/
def FormatSpec.default : FormatSpec where
  fill := 0x20
  align := .none
  zeroFill := false
  width := Option.none
  precision := Option.none
  alternate := false
  typeChar := Option.none

/-- The alignment an align character stands for. -/
def alignOf (c : UInt8) : Align :=
  if c = ascii '<' then .left
  else if c = ascii '>' then .right
  else if c = ascii '^' then .center
  else .none

/-- `w.saturating_mul(10).saturating_add(d)` on `u16`. -/
def saturatingDigit (w : Nat) (c : UInt8) : Nat :=
  min (min (w * 10) 65535 + (c - zeroDigit).toNat) 65535

/-- The decimal number that starts here, on saturating `u16`. -/
def digits (rest : List UInt8) : Nat := (rest.takeWhile isDigit).foldl saturatingDigit 0

/-- `parse_spec_body`, part by part. -/
def parseFillAlign (fs : FormatSpec) : List UInt8 → FormatSpec × List UInt8
  | a :: b :: rest =>
    if isAlignChar b then ({ fs with fill := a, align := alignOf b }, rest)
    else if isAlignChar a then ({ fs with align := alignOf a }, b :: rest)
    else (fs, a :: b :: rest)
  | [a] => if isAlignChar a then ({ fs with align := alignOf a }, []) else (fs, [a])
  | [] => (fs, [])

def parseZero (fs : FormatSpec) (rest : List UInt8) : FormatSpec × List UInt8 :=
  if at? zeroDigit rest then ({ fs with zeroFill := true }, rest.tail) else (fs, rest)

def parseWidth (fs : FormatSpec) (rest : List UInt8) : FormatSpec × List UInt8 :=
  if rest.head?.any isDigit then
    ({ fs with width := some (digits rest) }, rest.dropWhile isDigit)
  else (fs, rest)

def parsePrecision (fs : FormatSpec) (rest : List UInt8) : FormatSpec × List UInt8 :=
  if at? dot rest then
    ({ fs with precision := some (digits rest.tail) }, rest.tail.dropWhile isDigit)
  else (fs, rest)

def parseAlternate (fs : FormatSpec) (rest : List UInt8) : FormatSpec × List UInt8 :=
  if at? hash rest then ({ fs with alternate := true }, rest.tail) else (fs, rest)

def parseType (fs : FormatSpec) (rest : List UInt8) : FormatSpec :=
  if rest.head?.any isTypeChar then { fs with typeChar := rest.head? } else fs

/-- `parse_spec_body`. -/
def parseSpecBody (spec : List UInt8) : FormatSpec :=
  let (fs, rest) := parseFillAlign FormatSpec.default spec
  let (fs, rest) := parseZero fs rest
  let (fs, rest) := parseWidth fs rest
  let (fs, rest) := parsePrecision fs rest
  let (fs, rest) := parseAlternate fs rest
  parseType fs rest

/-- `parse_spec`: the spec after the first `:` of a placeholder's content. -/
def parseSpec (content : List UInt8) : FormatSpec :=
  match content.dropWhile (· != colon) with
  | [] => FormatSpec.default
  | _ :: spec => parseSpecBody spec

end Ticklog
