import Ticklog.Codec.Decode
import Ticklog.Codec.SpecParts
import Ticklog.Lib.Utf8

/-!
# Line patterns (`src/format.rs`)

`Template::parse` cuts a line pattern into literal spans and field placeholders when the
logger is configured, and `validate_spec_rt` checks each spec there as the compile-time
validator does for format strings. A position is the list of the bytes from there on; the
literal span that is open (`lit_start..i`) is carried as its bytes.
-/

namespace Ticklog

open Lib

/-- Why a pattern is rejected. The errors it shares with format strings keep their texts. -/
inductive PatternError where
  | fmt (e : FmtError)
  | unnamed
  | unknownField
  | duplicateMessage
  | messageSpec
  | timestampSpec
deriving DecidableEq, Repr

def PatternError.message : PatternError → String
  | .fmt e => e.message
  | .unnamed => "unnamed placeholders are not allowed in pattern"
  | .unknownField => "unknown field name in placeholder"
  | .duplicateMessage => "duplicate `\x7bmessage\x7d` in pattern"
  | .messageSpec => "format specs are not accepted on `\x7bmessage\x7d`"
  | .timestampSpec => "format specs are not accepted on `\x7btimestamp\x7d`"

/-- `Field::from_str`. -/
def Field.fromStr (name : List UInt8) : Except PatternError Field :=
  if name = strBytes "timestamp" then .ok .timestamp
  else if name = strBytes "level" then .ok .level
  else if name = strBytes "file" then .ok .file
  else if name = strBytes "line" then .ok .line
  else if name = strBytes "thread_name" then .ok .threadName
  else if name = strBytes "thread_id" then .ok .threadId
  else if name = strBytes "message" then .ok .message
  else .error .unknownField

/-! ## `validate_spec_rt` -/

/-- Goes on with `k` unless the spec ends here. -/
def unlessEnd (rest : List UInt8) (k : List UInt8 → Except FmtError Unit) :
    Except FmtError Unit :=
  if rest.isEmpty then .ok () else k rest

/-- The type, and nothing behind it. -/
def checkType : List UInt8 → Except FmtError Unit
  | [] => .ok ()
  | c :: rest =>
    if isTypeChar c then
      if rest.isEmpty then .ok () else .error .trailing
    else if c = ascii '+' ∨ c = ascii '-' then .error .signFlag
    else .error .unsupportedType

/-- `validate_spec_rt`. -/
def validateSpecRt (body : List UInt8) : Except FmtError Unit :=
  unlessEnd body fun rest => do
    let rest ← skipFillAlign rest
    unlessEnd rest fun rest =>
      unlessEnd (if at? zeroDigit rest then rest.tail else rest) fun rest =>
        unlessEnd (rest.dropWhile isDigit) fun rest => do
          let rest ← skipPrecision rest
          unlessEnd rest fun rest =>
            unlessEnd (if at? hash rest then rest.tail else rest) checkType

/-! ## `Template::parse` -/

/-- The segment of a literal span, if it is not empty. -/
def flushLit (lit : List UInt8) : List Segment := if lit.isEmpty then [] else [.lit lit]

/-- The spec of a placeholder: from its `:` or `}` on, the spec and the position after the
closing brace. -/
def parsePlaceSpec : List UInt8 → Except PatternError (FormatSpec × List UInt8)
  | [] => .error (.fmt .unclosed)
  | d :: tail =>
    if d = colon then
      let specBody := tail.takeWhile (· != closeBrace)
      match tail.dropWhile (· != closeBrace) with
      | [] => .error (.fmt .unclosed)
      | _ :: after => do
        (validateSpecRt specBody).mapError PatternError.fmt
        .ok (parseSpecBody specBody, after)
    else .ok (FormatSpec.default, tail)

/-- A placeholder, from after its `{`: the field, its spec and the position after its `}`. -/
def parsePlace (seenMessage : Bool) (rest : List UInt8) :
    Except PatternError (Field × FormatSpec × List UInt8) :=
  let name := rest.takeWhile fun c => c != colon && c != closeBrace
  let rest := rest.dropWhile fun c => c != colon && c != closeBrace
  if rest.isEmpty then .error (.fmt .unclosed)
  else if !name.isEmpty && name.all isDigit then .error (.fmt .positional)
  else if name.isEmpty then .error .unnamed
  else do
    let field ← Field.fromStr name
    if field = .message ∧ seenMessage then .error .duplicateMessage
    else if field = .message ∧ at? colon rest then .error .messageSpec
    else if field = .timestamp ∧ at? colon rest then .error .timestampSpec
    else do
      let (spec, after) ← parsePlaceSpec rest
      .ok (field, spec, after)

/-- The loop of `Template::parse`; `fuel` bounds its iterations. -/
def parseTemplateFrom :
    Nat → List UInt8 → List UInt8 → List Segment → Bool → Except PatternError (List Segment)
  | _, [], lit, segments, _ => .ok (segments ++ flushLit lit)
  | 0, _ :: _, _, _, _ => .error (.fmt .trailing)
  | fuel + 1, c :: rest, lit, segments, seenMessage =>
    if c = openBrace then
      if at? openBrace rest then
        parseTemplateFrom fuel rest.tail [] (segments ++ flushLit lit ++ [.lit [openBrace]])
          seenMessage
      else do
        let (field, spec, after) ← parsePlace seenMessage rest
        parseTemplateFrom fuel after [] (segments ++ flushLit lit ++ [.place field spec])
          (seenMessage || field = .message)
    else if c = closeBrace then
      if at? closeBrace rest then
        parseTemplateFrom fuel rest.tail [] (segments ++ flushLit lit ++ [.lit [closeBrace]])
          seenMessage
      else .error (.fmt .unmatchedClose)
    else parseTemplateFrom fuel rest (lit ++ [c]) segments seenMessage

/-- `Template::parse`. -/
def parseTemplate (pattern : List UInt8) : Except PatternError (List Segment) :=
  parseTemplateFrom pattern.length pattern [] [] false

/-! ## What an accepted pattern is made of -/

theorem isAlignChar_ascii {c : UInt8} (h : isAlignChar c = true) : c < 0x80 := by
  unfold isAlignChar at h
  simp only [Bool.or_eq_true, beq_iff_eq] at h
  rcases h with (rfl | rfl) | rfl <;> decide

@[simp] theorem parseZero_fill (fs : FormatSpec) (rest : List UInt8) :
    (parseZero fs rest).1.fill = fs.fill := by
  unfold parseZero
  split <;> rfl

@[simp] theorem parseWidth_fill (fs : FormatSpec) (rest : List UInt8) :
    (parseWidth fs rest).1.fill = fs.fill := by
  unfold parseWidth
  split <;> rfl

@[simp] theorem parsePrecision_fill (fs : FormatSpec) (rest : List UInt8) :
    (parsePrecision fs rest).1.fill = fs.fill := by
  unfold parsePrecision
  split <;> rfl

@[simp] theorem parseAlternate_fill (fs : FormatSpec) (rest : List UInt8) :
    (parseAlternate fs rest).1.fill = fs.fill := by
  unfold parseAlternate
  split <;> rfl

@[simp] theorem parseType_fill (fs : FormatSpec) (rest : List UInt8) :
    (parseType fs rest).fill = fs.fill := by
  unfold parseType
  split <;> rfl

/-- The byte before an align character in a text is a character. -/
theorem parseFillAlign_fill {body : List UInt8} (h : Utf8 body) {fs : FormatSpec}
    (hfs : fs.fill < 0x80) : (parseFillAlign fs body).1.fill < 0x80 := by
  unfold parseFillAlign
  split
  next a b rest =>
    split
    next hb =>
      have hcut : Utf8 ([a] ++ b :: rest) := h
      exact Utf8.of_byte (Utf8.cut (isAlignChar_ascii hb) hcut).1
    next =>
      split
      · exact hfs
      · exact hfs
  next a =>
    split
    · exact hfs
    · exact hfs
  next => exact hfs

/-- The fill of a spec in a text is ASCII. -/
theorem parseSpecBody_fill {body : List UInt8} (h : Utf8 body) :
    (parseSpecBody body).fill < 0x80 := by
  have hfill : (parseFillAlign FormatSpec.default body).1.fill < 0x80 :=
    parseFillAlign_fill h (by decide)
  simpa [parseSpecBody] using hfill

theorem parseSpec_fill {content : List UInt8} (h : Utf8 content) :
    (parseSpec content).fill < 0x80 := by
  unfold parseSpec
  split
  next => decide
  next d body hdrop =>
    have hspan := Utf8.span (p := (· != colon)) (fun b hb => by
      have : b = colon := by simpa using hb
      rw [this]
      decide) h hdrop
    exact parseSpecBody_fill hspan.2.2

/-- What the drain can render as text: a literal that is UTF-8, a field with an ASCII fill. -/
def Segment.IsText : Segment → Prop
  | .lit s => Utf8 s
  | .place _ spec => spec.fill < 0x80

def Segment.isMessage : Segment → Bool
  | .place .message _ => true
  | _ => false

/-- How often a pattern asks for the message. -/
def messages (segments : List Segment) : Nat := segments.countP Segment.isMessage

theorem parsePlaceSpec_text {rest after : List UInt8} {spec : FormatSpec}
    (h : parsePlaceSpec rest = .ok (spec, after)) {d : UInt8} {tail : List UInt8}
    (hrest : rest = d :: tail) (htail : Utf8 tail) : spec.fill < 0x80 ∧ Utf8 after := by
  subst hrest
  rw [parsePlaceSpec] at h
  split at h
  next =>
    simp only at h
    split at h
    next => cases h
    next e after' hdrop =>
      have hspan := Utf8.span (p := (· != closeBrace)) (fun b hb => by
        have : b = closeBrace := by simpa using hb
        rw [this]
        decide) htail hdrop
      cases hvalid : validateSpecRt (tail.takeWhile (· != closeBrace)) with
      | error e =>
        rw [hvalid] at h
        cases h
      | ok u =>
        rw [hvalid] at h
        cases h
        exact ⟨parseSpecBody_fill hspan.2.1, hspan.2.2⟩
  next =>
    cases h
    exact ⟨by decide, htail⟩

theorem parsePlace_text {seenMessage : Bool} {rest after : List UInt8} {field : Field}
    {spec : FormatSpec} (h : parsePlace seenMessage rest = .ok (field, spec, after))
    (hrest : Utf8 rest) :
    spec.fill < 0x80 ∧ Utf8 after ∧ (field = .message → seenMessage = false) := by
  unfold parsePlace at h
  simp only at h
  cases hdrop : rest.dropWhile (fun c => c != colon && c != closeBrace) with
  | nil =>
    rw [hdrop] at h
    cases h
  | cons d tail =>
    have hspan := Utf8.span (fun b hb => by
      have hor : b = colon ∨ b = closeBrace := by
        by_contra hne
        push Not at hne
        simp [hne.1, hne.2] at hb
      rcases hor with rfl | rfl <;> decide) hrest hdrop
    rw [hdrop] at h
    split at h
    next => cases h
    next =>
      split at h
      next => cases h
      next =>
        split at h
        next => cases h
        next =>
          cases hfield : Field.fromStr (rest.takeWhile fun c => c != colon && c != closeBrace) with
          | error e =>
            rw [hfield] at h
            cases h
          | ok f =>
            rw [hfield] at h
            change (if f = .message ∧ seenMessage = true then _ else _) = _ at h
            split at h
            next => cases h
            next hseen =>
              split at h
              next => cases h
              next =>
                split at h
                next => cases h
                next =>
                  cases hspec : parsePlaceSpec (d :: tail) with
                  | error e =>
                    rw [hspec] at h
                    cases h
                  | ok r =>
                    obtain ⟨spec', after'⟩ := r
                    rw [hspec] at h
                    cases h
                    obtain ⟨hfill, hafter⟩ := parsePlaceSpec_text hspec rfl hspan.2.2
                    refine ⟨hfill, hafter, fun hm => ?_⟩
                    by_contra hc
                    exact hseen ⟨hm, by simpa using hc⟩

theorem flushLit_text {lit : List UInt8} (h : Utf8 lit) : ∀ seg ∈ flushLit lit, seg.IsText := by
  unfold flushLit
  split
  next => simp
  next =>
    intro seg hseg
    rw [List.mem_singleton.mp hseg]
    exact h

theorem messages_flushLit (lit : List UInt8) : messages (flushLit lit) = 0 := by
  unfold flushLit
  split <;> rfl

/-- The loop keeps what it has cut off as text, and lets the message through once. -/
theorem parseTemplateFrom_text {fuel : Nat} {rest lit : List UInt8} {segments out : List Segment}
    {seenMessage : Bool} (hout : parseTemplateFrom fuel rest lit segments seenMessage = .ok out)
    (htext : Utf8 (lit ++ rest)) (hsegments : ∀ seg ∈ segments, seg.IsText)
    (hmessages : messages segments ≤ if seenMessage then 1 else 0) :
    (∀ seg ∈ out, seg.IsText) ∧ messages out ≤ 1 := by
  -- the segments so far, the literal span, and one more segment
  have hpush : ∀ {lit : List UInt8} {segments : List Segment} (seg : Segment), Utf8 lit →
      (∀ seg ∈ segments, seg.IsText) → seg.IsText →
      ∀ s ∈ segments ++ flushLit lit ++ [seg], s.IsText := by
    intro lit segments seg hlit hsegments hseg s hs
    rcases List.mem_append.mp hs with hs | hs
    · rcases List.mem_append.mp hs with hs | hs
      · exact hsegments s hs
      · exact flushLit_text hlit s hs
    · rw [List.mem_singleton.mp hs]
      exact hseg
  have hcount : ∀ (lit : List UInt8) (segments : List Segment) (seg : Segment),
      messages (segments ++ flushLit lit ++ [seg])
        = messages segments + if seg.isMessage then 1 else 0 := by
    intro lit segments seg
    have hlit := messages_flushLit lit
    unfold messages at hlit ⊢
    rw [List.countP_append, List.countP_append, hlit, List.countP_singleton, Nat.add_zero]
  induction fuel generalizing rest lit segments seenMessage with
  | zero =>
    cases rest with
    | nil =>
      cases hout
      rw [List.append_nil] at htext
      refine ⟨fun seg hseg => ?_, ?_⟩
      · rcases List.mem_append.mp hseg with hseg | hseg
        · exact hsegments seg hseg
        · exact flushLit_text htext seg hseg
      · have hlit := messages_flushLit lit
        unfold messages at hlit hmessages ⊢
        rw [List.countP_append, hlit]
        split at hmessages <;> omega
    | cons c rest => cases hout
  | succ fuel ih =>
    cases rest with
    | nil =>
      cases hout
      rw [List.append_nil] at htext
      refine ⟨fun seg hseg => ?_, ?_⟩
      · rcases List.mem_append.mp hseg with hseg | hseg
        · exact hsegments seg hseg
        · exact flushLit_text htext seg hseg
      · have hlit := messages_flushLit lit
        unfold messages at hlit hmessages ⊢
        rw [List.countP_append, hlit]
        split at hmessages <;> omega
    | cons c rest =>
      rw [parseTemplateFrom] at hout
      split at hout
      next hc =>
        subst hc
        have hcut := Utf8.cut (b := openBrace) (by decide) htext
        split at hout
        next hat =>
          obtain ⟨tail, rfl⟩ := at?_iff.mp hat
          have htail : Utf8 tail := Utf8.tail (by decide) hcut.2
          refine ih hout htail (hpush _ hcut.1 hsegments (Utf8.byte (by decide))) ?_
          rw [hcount]
          exact hmessages
        next =>
          cases hplace : parsePlace seenMessage rest with
          | error e =>
            rw [hplace] at hout
            cases hout
          | ok r =>
            obtain ⟨field, spec, after⟩ := r
            rw [hplace] at hout
            obtain ⟨hfill, hafter, hmessage⟩ := parsePlace_text hplace hcut.2
            refine ih hout hafter (hpush _ hcut.1 hsegments hfill) ?_
            rw [hcount]
            by_cases hf : field = .message
            · subst hf
              rw [hmessage rfl] at hmessages
              simp only [Bool.false_eq_true, if_false] at hmessages
              simp [Segment.isMessage]
              omega
            · have hno : Segment.isMessage (.place field spec) = false := by
                cases field <;> first | rfl | exact absurd rfl hf
              rw [hno]
              simp only [hf, decide_false, Bool.or_false]
              exact hmessages
      next =>
        split at hout
        next hc =>
          subst hc
          have hcut := Utf8.cut (b := closeBrace) (by decide) htext
          split at hout
          next hat =>
            obtain ⟨tail, rfl⟩ := at?_iff.mp hat
            have htail : Utf8 tail := Utf8.tail (by decide) hcut.2
            refine ih hout htail (hpush _ hcut.1 hsegments (Utf8.byte (by decide))) ?_
            rw [hcount]
            exact hmessages
          next => cases hout
        next =>
          refine ih hout ?_ hsegments hmessages
          rw [List.append_assoc]
          exact htext

/-- An accepted pattern is made of text, and asks for the message at most once. -/
theorem parseTemplate_text {pattern : List UInt8} {segments : List Segment}
    (h : parseTemplate pattern = .ok segments) (htext : Utf8 pattern) :
    (∀ seg ∈ segments, seg.IsText) ∧ messages segments ≤ 1 :=
  parseTemplateFrom_text h htext (by simp) (Nat.zero_le _)

end Ticklog
