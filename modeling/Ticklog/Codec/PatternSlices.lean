import Ticklog.Codec.Agree
import Ticklog.Codec.Template

/-!
# `Template::parse` index by index (`src/format.rs`)

The source walks the pattern with an index `i` and keeps the start of the open literal span in
`lit_start`; what it emits are slices of the string, and a slice that is not cut at character
boundaries panics. `parseSlices` is that loop, with a panic as `none`. Every cut it makes lies
next to an ASCII byte or at an end of the string, so it never panics, and what the indices
delimit is what `parseTemplate` carries: the bytes from `i` on and the bytes of the span
(`parseSlices_eq`).
-/

namespace Ticklog

open Lib

instance (s : String) (i : Nat) : Decidable (IsCharBoundary s i) :=
  inferInstanceAs (Decidable (String.Pos.Raw.IsValid s ⟨i⟩))

/-- `&s[start..stop]`. -/
def sliceStr (s : String) (start stop : Nat) : Option (List UInt8) :=
  if start ≤ stop ∧ IsCharBoundary s start ∧ IsCharBoundary s stop then
    some (substr (strBytes s) start stop)
  else none

/-- The literal span `lit_start..i`, if it is not empty. -/
def flushSlice (s : String) (litStart i : Nat) (segments : List Segment) :
    Option (List Segment) :=
  if litStart < i then (sliceStr s litStart i).map fun lit => segments ++ [.lit lit]
  else some segments

/-- `while i < bytes.len() && p(bytes[i]) { i += 1 }`. -/
def scanWhile (bytes : List UInt8) (p : UInt8 → Bool) (i : Nat) : Nat :=
  i + ((bytes.drop i).takeWhile p).length

/-- The spec of a placeholder whose name ends at `i`, and the index after its `}`. -/
def placeSpecAt (s : String) (i : Nat) : Except PatternError (FormatSpec × Nat) :=
  let bytes := strBytes s
  if bytes[i]? = some colon then
    let specStart := i + 1
    let i := scanWhile bytes (· != closeBrace) specStart
    if bytes.length ≤ i then .error (.fmt .unclosed)
    else do
      let specBody := substr bytes specStart i
      (validateSpecRt specBody).mapError PatternError.fmt
      .ok (parseSpecBody specBody, i + 1)
  else .ok (FormatSpec.default, i + 1)

/-- A placeholder whose name starts at `nameStart`: field, spec and the index after its `}`. -/
def placeAt (s : String) (seenMessage : Bool) (nameStart : Nat) :
    Option (Except PatternError (Field × FormatSpec × Nat)) :=
  let bytes := strBytes s
  let i := scanWhile bytes (fun c => c != colon && c != closeBrace) nameStart
  if bytes.length ≤ i then some (.error (.fmt .unclosed))
  else if nameStart < i ∧ (substr bytes nameStart i).all isDigit then
    some (.error (.fmt .positional))
  else if nameStart = i then some (.error .unnamed)
  else (sliceStr s nameStart i).map fun name => do
    let field ← Field.fromStr name
    if field = .message ∧ seenMessage then .error .duplicateMessage
    else if field = .message ∧ bytes[i]? = some colon then .error .messageSpec
    else if field = .timestamp ∧ bytes[i]? = some colon then .error .timestampSpec
    else do
      let (spec, i) ← placeSpecAt s i
      .ok (field, spec, i)

/-- The loop of `Template::parse`; `fuel` bounds its iterations. -/
def parseSlicesFrom (s : String) (fuel i litStart : Nat) (segments : List Segment)
    (seenMessage : Bool) : Option (Except PatternError (List Segment)) :=
  let bytes := strBytes s
  match bytes[i]? with
  | none => (flushSlice s litStart i segments).map .ok
  | some c =>
    match fuel with
    | 0 => some (.error (.fmt .trailing))
    | fuel + 1 =>
      if c = openBrace then
        if bytes[i + 1]? = some openBrace then do
          let segments ← flushSlice s litStart i segments
          parseSlicesFrom s fuel (i + 2) (i + 2) (segments ++ [.lit [openBrace]]) seenMessage
        else do
          let segments ← flushSlice s litStart i segments
          match ← placeAt s seenMessage (i + 1) with
          | .error e => some (.error e)
          | .ok (field, spec, i) =>
            parseSlicesFrom s fuel i i (segments ++ [.place field spec])
              (seenMessage || field = .message)
      else if c = closeBrace then
        if bytes[i + 1]? = some closeBrace then do
          let segments ← flushSlice s litStart i segments
          parseSlicesFrom s fuel (i + 2) (i + 2) (segments ++ [.lit [closeBrace]]) seenMessage
        else some (.error (.fmt .unmatchedClose))
      else parseSlicesFrom s fuel (i + 1) litStart segments seenMessage

/-- `Template::parse`. -/
def parseSlices (s : String) : Option (Except PatternError (List Segment)) :=
  parseSlicesFrom s (strBytes s).length 0 0 [] false

/-! ## Character boundaries -/

theorem boundary_start (s : String) : IsCharBoundary s 0 :=
  isValid_of_utf8 (List.nil_append _).symm Utf8.nil (utf8_toByteArray s)

theorem boundary_end (s : String) : IsCharBoundary s (strBytes s).length :=
  isValid_of_utf8 (List.append_nil _).symm (utf8_toByteArray s) Utf8.nil

theorem split_at {bytes : List UInt8} {i : Nat} {b : UInt8} (h : bytes[i]? = some b) :
    bytes = bytes.take i ++ b :: bytes.drop (i + 1) ∧ (bytes.take i).length = i := by
  obtain ⟨hi, hb⟩ := List.getElem?_eq_some_iff.mp h
  refine ⟨?_, by rw [List.length_take]; omega⟩
  rw [← hb, ← List.drop_eq_getElem_cons hi, List.take_append_drop]

/-- The string may be cut on either side of an ASCII byte. -/
theorem boundary_at {s : String} {i : Nat} {b : UInt8} (h : (strBytes s)[i]? = some b)
    (hb : b < 0x80) : IsCharBoundary s i ∧ IsCharBoundary s (i + 1) := by
  obtain ⟨hsplit, hlen⟩ := split_at h
  have hcut := boundary_after hb hsplit
  rw [hlen] at hcut
  exact hcut

theorem sliceStr_eq {s : String} {start stop : Nat} (hle : start ≤ stop)
    (hstart : IsCharBoundary s start) (hstop : IsCharBoundary s stop) :
    sliceStr s start stop = some (substr (strBytes s) start stop) :=
  if_pos ⟨hle, hstart, hstop⟩

theorem flushSlice_eq {s : String} {litStart i : Nat} (hle : litStart ≤ i)
    (hi : i ≤ (strBytes s).length) (hstart : IsCharBoundary s litStart)
    (hstop : IsCharBoundary s i) (segments : List Segment) :
    flushSlice s litStart i segments
      = some (segments ++ flushLit (substr (strBytes s) litStart i)) := by
  unfold flushSlice flushLit
  have hlen : (substr (strBytes s) litStart i).length = i - litStart := by
    unfold substr
    rw [List.length_take, List.length_drop]
    omega
  by_cases hlt : litStart < i
  · rw [if_pos hlt, sliceStr_eq hle hstart hstop, if_neg]
    · rfl
    · rw [List.isEmpty_iff_length_eq_zero]
      omega
  · rw [if_neg hlt, if_pos (List.isEmpty_iff_length_eq_zero.mpr (by omega)), List.append_nil]

/-! ## Indices and suffixes -/

theorem substr_succ {bytes : List UInt8} {start i : Nat} {b : UInt8} (hle : start ≤ i)
    (h : bytes[i]? = some b) : substr bytes start (i + 1) = substr bytes start i ++ [b] := by
  have hb : (bytes.drop start)[i - start]? = some b := by
    rw [List.getElem?_drop, Nat.add_sub_cancel' hle]
    exact h
  unfold substr
  rw [Nat.succ_sub hle, List.take_add_one, hb]
  rfl

theorem at?_drop (c : UInt8) (bytes : List UInt8) (i : Nat) :
    at? c (bytes.drop i) = true ↔ bytes[i]? = some c := by
  unfold at?
  rw [List.head?_drop, beq_iff_eq]

/-- A scan from `i` on delimits what `takeWhile` takes and leaves what `dropWhile` leaves. -/
theorem scanWhile_spec (bytes : List UInt8) (p : UInt8 → Bool) (i : Nat) :
    substr bytes i (scanWhile bytes p i) = (bytes.drop i).takeWhile p ∧
      bytes.drop (scanWhile bytes p i) = (bytes.drop i).dropWhile p ∧
      i ≤ scanWhile bytes p i := by
  have hcut : ∀ xs ys zs : List UInt8, xs = ys ++ zs →
      xs.take ys.length = ys ∧ xs.drop ys.length = zs := by
    rintro _ ys zs rfl
    exact ⟨List.take_left, List.drop_left⟩
  obtain ⟨htake, hdrop⟩ := hcut _ _ _ (List.takeWhile_append_dropWhile (p := p)).symm
  unfold scanWhile substr
  refine ⟨?_, ?_, Nat.le_add_right _ _⟩
  · rw [Nat.add_sub_cancel_left]
    exact htake
  · rw [← List.drop_drop]
    exact hdrop

theorem drop_eq_cons {bytes : List UInt8} {i : Nat} {d : UInt8} {tail : List UInt8}
    (h : bytes.drop i = d :: tail) :
    i < bytes.length ∧ bytes[i]? = some d ∧ bytes.drop (i + 1) = tail := by
  have hlt : i < bytes.length := by
    by_contra hge
    rw [List.drop_of_length_le (by omega)] at h
    cases h
  have hsplit := List.drop_eq_getElem_cons hlt
  rw [h] at hsplit
  obtain ⟨hd, htail⟩ := List.cons.inj hsplit
  exact ⟨hlt, by rw [hd]; exact List.getElem?_eq_getElem hlt, htail.symm⟩

/-! ## The two loops -/

/-- The index loop has gone on to `i` where the other goes on with the bytes from there. -/
def Reached (s : String) (i : Nat) : Prop := i ≤ (strBytes s).length ∧ IsCharBoundary s i

theorem reached_after {s : String} {i : Nat} {b : UInt8} (h : (strBytes s)[i]? = some b)
    (hb : b < 0x80) : Reached s (i + 1) := by
  obtain ⟨hi, -⟩ := List.getElem?_eq_some_iff.mp h
  exact ⟨hi, (boundary_at h hb).2⟩

theorem placeSpecAt_eq {s : String} {i : Nat} {d : UInt8} {tail : List UInt8}
    (hrest : (strBytes s).drop i = d :: tail) (hd : d < 0x80) :
    (∃ e, placeSpecAt s i = .error e ∧ parsePlaceSpec (d :: tail) = .error e) ∨
    ∃ spec j, placeSpecAt s i = .ok (spec, j) ∧ Reached s j ∧
      parsePlaceSpec (d :: tail) = .ok (spec, (strBytes s).drop j) := by
  obtain ⟨hlt, hget, htail⟩ := drop_eq_cons hrest
  unfold placeSpecAt
  simp only [hget, Option.some.injEq]
  rw [parsePlaceSpec]
  by_cases hcolon : d = colon
  · simp only [hcolon, if_true]
    obtain ⟨hbody, hafter, -⟩ := scanWhile_spec (strBytes s) (· != closeBrace) (i + 1)
    rw [htail] at hbody hafter
    rw [hbody]
    cases hdrop : tail.dropWhile (· != closeBrace) with
    | nil =>
      rw [hdrop, List.drop_eq_nil_iff] at hafter
      rw [if_pos hafter]
      exact Or.inl ⟨_, rfl, rfl⟩
    | cons e after =>
      rw [hdrop] at hafter
      obtain ⟨hend, hclose, hafter⟩ := drop_eq_cons hafter
      have hstop : e < 0x80 := by
        have hhead := List.head?_dropWhile_not (· != closeBrace) tail
        rw [hdrop] at hhead
        have he : e = closeBrace := by simpa using hhead
        rw [he]
        decide
      rw [if_neg (by omega)]
      cases hvalid : validateSpecRt (tail.takeWhile (· != closeBrace)) with
      | error err => exact Or.inl ⟨_, rfl, rfl⟩
      | ok _ =>
        refine Or.inr ⟨_, _, rfl, reached_after hclose hstop, ?_⟩
        rw [hafter]
        rfl
  · simp only [hcolon, if_false]
    exact Or.inr ⟨_, _, rfl, reached_after hget hd, by rw [htail]⟩

theorem placeAt_eq {s : String} {i : Nat} (hi : Reached s i) (seenMessage : Bool) :
    (∃ e, placeAt s seenMessage i = some (.error e) ∧
      parsePlace seenMessage ((strBytes s).drop i) = .error e) ∨
    ∃ field spec j, placeAt s seenMessage i = some (.ok (field, spec, j)) ∧ Reached s j ∧
      parsePlace seenMessage ((strBytes s).drop i) = .ok (field, spec, (strBytes s).drop j) := by
  obtain ⟨hname, hrest, hle⟩ :=
    scanWhile_spec (strBytes s) (fun c => c != colon && c != closeBrace) i
  unfold placeAt parsePlace
  simp only [hname]
  generalize hj : scanWhile (strBytes s) (fun c => c != colon && c != closeBrace) i = j at *
  rw [← hrest]
  cases hdrop : (strBytes s).drop j with
  | nil =>
    rw [if_pos (List.drop_eq_nil_iff.mp hdrop)]
    exact Or.inl ⟨_, rfl, rfl⟩
  | cons d tail =>
    obtain ⟨hlt, hget, -⟩ := drop_eq_cons hdrop
    have hd : d < 0x80 := by
      have hhead := List.head?_dropWhile_not (fun c => c != colon && c != closeBrace)
        ((strBytes s).drop i)
      rw [← hrest, hdrop] at hhead
      have hor : d = colon ∨ d = closeBrace := by
        by_contra hne
        push Not at hne
        simp [hne.1, hne.2] at hhead
      rcases hor with rfl | rfl <;> decide
    have hcolon : ((strBytes s)[j]? = some colon) = (at? colon (d :: tail) = true) := by
      rw [← hdrop]
      exact propext (at?_drop _ _ _).symm
    have hslice := sliceStr_eq hle hi.2 (boundary_at hget hd).1
    rw [hname] at hslice
    have hempty : ((strBytes s).drop i).takeWhile (fun c => c != colon && c != closeBrace) = [] ↔
        i = j := by
      rw [← hname, ← List.length_eq_zero_iff]
      unfold substr
      rw [List.length_take, List.length_drop]
      omega
    generalize ((strBytes s).drop i).takeWhile (fun c => c != colon && c != closeBrace) = name
      at *
    simp only [if_neg (show ¬ (strBytes s).length ≤ j by omega), List.isEmpty_cons,
      Bool.false_eq_true, if_false, hslice, Option.map_some, hcolon]
    by_cases hij : i = j
    · have hnil : name = [] := hempty.mpr hij
      subst hnil
      rw [if_neg (fun h => absurd h.1 (by omega)), if_pos hij]
      exact Or.inl ⟨_, rfl, rfl⟩
    · have hcons : name.isEmpty = false := by
        rw [← Bool.not_eq_true, List.isEmpty_iff, hempty]
        exact hij
      simp only [hcons, Bool.not_false, Bool.true_and, Bool.false_eq_true, if_false, if_neg hij,
        show i < j from by omega, true_and]
      by_cases hdigits : name.all isDigit = true
      · rw [if_pos hdigits, if_pos hdigits]
        exact Or.inl ⟨_, rfl, rfl⟩
      · rw [if_neg hdigits, if_neg hdigits]
        cases hfield : Field.fromStr name with
        | error e => exact Or.inl ⟨_, rfl, rfl⟩
        | ok field =>
          have hbind : ∀ {β : Type} (f : Field → Except PatternError β),
              (Except.ok field >>= f) = f field := fun _ => rfl
          rw [hbind, hbind]
          split
          next => exact Or.inl ⟨_, rfl, rfl⟩
          next =>
            split
            next => exact Or.inl ⟨_, rfl, rfl⟩
            next =>
              split
              next => exact Or.inl ⟨_, rfl, rfl⟩
              next =>
                rcases placeSpecAt_eq hdrop hd with ⟨e, hat, hparse⟩ | ⟨spec, k, hat, hk, hparse⟩
                · rw [hat, hparse]
                  exact Or.inl ⟨e, rfl, rfl⟩
                · rw [hat, hparse]
                  exact Or.inr ⟨field, spec, k, rfl, hk, rfl⟩

/-- At the end of the string the open span is the last segment. -/
theorem parseSlicesFrom_end {s : String} {fuel i litStart : Nat} {segments : List Segment}
    {seenMessage : Bool} (hi : i ≤ (strBytes s).length) (hend : (strBytes s).length ≤ i)
    (hle : litStart ≤ i) (hlit : IsCharBoundary s litStart) :
    parseSlicesFrom s fuel i litStart segments seenMessage
      = some (parseTemplateFrom fuel [] (substr (strBytes s) litStart i) segments seenMessage) := by
  have hstop : IsCharBoundary s i := by
    rw [show i = (strBytes s).length by omega]
    exact boundary_end s
  unfold parseSlicesFrom
  simp only [List.getElem?_eq_none hend, flushSlice_eq hle hi hlit hstop, Option.map_some]
  rw [parseTemplateFrom]

/-- The two loops make the same segments and the same errors. -/
theorem parseSlicesFrom_eq {s : String} {fuel i litStart : Nat} {segments : List Segment}
    {seenMessage : Bool} (hi : i ≤ (strBytes s).length) (hle : litStart ≤ i)
    (hlit : IsCharBoundary s litStart) :
    parseSlicesFrom s fuel i litStart segments seenMessage
      = some (parseTemplateFrom fuel ((strBytes s).drop i) (substr (strBytes s) litStart i)
          segments seenMessage) := by
  induction fuel generalizing i litStart segments seenMessage with
  | zero =>
    cases hrest : (strBytes s).drop i with
    | nil => exact parseSlicesFrom_end hi (List.drop_eq_nil_iff.mp hrest) hle hlit
    | cons c rest =>
      obtain ⟨-, hget, -⟩ := drop_eq_cons hrest
      unfold parseSlicesFrom
      simp only [hget]
      rw [parseTemplateFrom]
  | succ fuel ih =>
    cases hrest : (strBytes s).drop i with
    | nil => exact parseSlicesFrom_end hi (List.drop_eq_nil_iff.mp hrest) hle hlit
    | cons c rest =>
      obtain ⟨hlt, hget, hnext⟩ := drop_eq_cons hrest
      unfold parseSlicesFrom
      simp only [hget]
      rw [parseTemplateFrom]
      -- an escaped brace: the span is cut off and a new one starts behind both bytes
      have hescape : ∀ {b : UInt8}, b < 0x80 → c = b → (strBytes s)[i + 1]? = some b →
          flushSlice s litStart i segments
            = some (segments ++ flushLit (substr (strBytes s) litStart i)) ∧
          parseSlicesFrom s fuel (i + 2) (i + 2)
            (segments ++ flushLit (substr (strBytes s) litStart i) ++ [.lit [b]]) seenMessage
            = some (parseTemplateFrom fuel rest.tail []
              (segments ++ flushLit (substr (strBytes s) litStart i) ++ [.lit [b]])
              seenMessage) := by
        intro b hb hc hsecond
        subst hc
        have hafter := reached_after hsecond hb
        refine ⟨flushSlice_eq hle hi hlit (boundary_at hget hb).1 segments, ?_⟩
        rw [ih hafter.1 (Nat.le_refl _) hafter.2, ← hnext, List.tail_drop]
        unfold substr
        rw [Nat.sub_self, List.take_zero]
      by_cases hopen : c = openBrace
      · simp only [hopen, if_true]
        have hat : (at? openBrace rest = true) = ((strBytes s)[i + 1]? = some openBrace) := by
          rw [← hnext]
          exact propext (at?_drop _ _ _)
        simp only [hat]
        by_cases hsecond : (strBytes s)[i + 1]? = some openBrace
        · obtain ⟨hflush, hgo⟩ := hescape (by decide) hopen hsecond
          rw [if_pos hsecond, if_pos hsecond, hflush]
          exact hgo
        · rw [if_neg hsecond, if_neg hsecond]
          have hascii : c < 0x80 := by
            rw [hopen]
            decide
          rw [flushSlice_eq hle hi hlit (boundary_at hget hascii).1]
          have hplace := placeAt_eq (reached_after hget hascii) seenMessage
          rw [hnext] at hplace
          rcases hplace with ⟨e, hat, hparse⟩ | ⟨field, spec, j, hat, hj, hparse⟩
          · simp only [hat, hparse, Option.bind_eq_bind, Option.bind_some]
            rfl
          · simp only [hat, hparse, Option.bind_eq_bind, Option.bind_some]
            rw [ih hj.1 (Nat.le_refl _) hj.2]
            unfold substr
            rw [Nat.sub_self, List.take_zero]
            rfl
      · simp only [hopen, if_false]
        by_cases hclose : c = closeBrace
        · simp only [hclose, if_true]
          have hat : (at? closeBrace rest = true) = ((strBytes s)[i + 1]? = some closeBrace) := by
            rw [← hnext]
            exact propext (at?_drop _ _ _)
          simp only [hat]
          by_cases hsecond : (strBytes s)[i + 1]? = some closeBrace
          · obtain ⟨hflush, hgo⟩ := hescape (by decide) hclose hsecond
            rw [if_pos hsecond, if_pos hsecond, hflush]
            exact hgo
          · rw [if_neg hsecond, if_neg hsecond]
        · simp only [hclose, if_false]
          rw [ih hlt (by omega) hlit, substr_succ hle hget, hnext]

/-- `Template::parse` does not panic on any string, and is `parseTemplate` of its bytes. -/
theorem parseSlices_eq (s : String) : parseSlices s = some (parseTemplate (strBytes s)) := by
  unfold parseSlices parseTemplate
  rw [parseSlicesFrom_eq (Nat.zero_le _) (Nat.le_refl _) (boundary_start s), List.drop_zero]
  rfl

end Ticklog
