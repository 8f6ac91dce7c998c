import Ticklog.Codec.Grammar

/-!
# What a format spec says

`parse_spec_const` accepts a spec while it compiles, `parse_spec_body` reads it while it
runs, and neither tells the other where a part ends. `SpecParts` writes the parts of a
spec down: `text` puts them together and `spec` is what they mean. Every spec the validator
accepts is the text of some parts, whole (`parseSpecConst_parts`), and the drain reads the
same parts out of it (`parseSpecBody_text`).
-/

namespace Ticklog

open Lib

/-- A decimal number, saturating at `u16`. -/
def number (ds : List UInt8) : Nat := ds.foldl saturatingDigit 0

/-- `[fill] [align]` as written: the align character and the fill before it. -/
structure AlignPart where
  fill : Option UInt8
  align : UInt8
  align_ok : isAlignChar align = true

/-- The parts of a spec, each as it is written. -/
structure SpecParts where
  fillAlign : Option AlignPart
  zero : Bool
  width : List UInt8
  precision : Option (List UInt8)
  alternate : Bool
  typeChar : Option UInt8
  width_digits : ∀ d ∈ width, isDigit d = true
  /-- A `0` that could be the flag is the flag. -/
  width_zero : zero = false → width.head? ≠ some zeroDigit
  precision_digits : ∀ ds ∈ precision, ds ≠ [] ∧ ∀ d ∈ ds, isDigit d = true
  type_ok : ∀ c ∈ typeChar, isTypeChar c = true

namespace AlignPart

def text (p : AlignPart) : List UInt8 := p.fill.toList ++ [p.align]

end AlignPart

namespace SpecParts

variable (p : SpecParts)

/-- The spec from the type on. -/
def typeText : List UInt8 := p.typeChar.toList

/-- The spec from the alternate flag on. -/
def alternateText : List UInt8 := (if p.alternate then [hash] else []) ++ p.typeText

/-- The spec from the precision on. -/
def precisionText : List UInt8 := (p.precision.elim [] fun ds => dot :: ds) ++ p.alternateText

/-- The spec from the width on. -/
def widthText : List UInt8 := p.width ++ p.precisionText

/-- The spec from the zero flag on. -/
def zeroText : List UInt8 := (if p.zero then [zeroDigit] else []) ++ p.widthText

/-- The spec as it is written. -/
def text : List UInt8 := (p.fillAlign.elim [] AlignPart.text) ++ p.zeroText

/-- What the parts mean. -/
def spec : FormatSpec where
  fill := (p.fillAlign.bind AlignPart.fill).getD FormatSpec.default.fill
  align := p.fillAlign.elim .none fun a => alignOf a.align
  zeroFill := p.zero
  width := if p.width = [] then none else some (number p.width)
  precision := p.precision.map number
  alternate := p.alternate
  typeChar := p.typeChar

end SpecParts

/-! ## Where a part may start -/

/-- No byte that can start a later part continues an earlier one. -/
theorem isTypeChar_class {c : UInt8} (h : isTypeChar c = true) :
    isDigit c = false ∧ c ≠ dot ∧ c ≠ hash ∧ isAlignChar c = false := by
  unfold isTypeChar at h
  simp only [Bool.or_eq_true, beq_iff_eq] at h
  rcases h with (((((rfl | rfl) | rfl) | rfl) | rfl) | rfl) | rfl <;> decide

theorem isDigit_align {c : UInt8} (h : isDigit c = true) : isAlignChar c = false := by
  by_contra hc
  have hc : isAlignChar c = true := by simpa using hc
  unfold isAlignChar at hc
  simp only [Bool.or_eq_true, beq_iff_eq] at hc
  rcases hc with (rfl | rfl) | rfl <;> exact absurd h (by decide)

namespace SpecParts

variable (p : SpecParts)

theorem typeText_head {c : UInt8} (h : p.typeText.head? = some c) : isTypeChar c = true := by
  unfold typeText at h
  cases hp : p.typeChar with
  | none =>
    rw [hp] at h
    cases h
  | some d =>
    rw [hp] at h
    cases h
    exact p.type_ok c hp

theorem alternateText_head {c : UInt8} (h : p.alternateText.head? = some c) :
    c = hash ∨ isTypeChar c = true := by
  unfold alternateText at h
  split at h
  next =>
    cases h
    exact Or.inl rfl
  next => exact Or.inr (p.typeText_head h)

theorem precisionText_head {c : UInt8} (h : p.precisionText.head? = some c) :
    c = dot ∨ c = hash ∨ isTypeChar c = true := by
  unfold precisionText at h
  cases hp : p.precision with
  | none =>
    rw [hp] at h
    exact Or.inr (p.alternateText_head h)
  | some ds =>
    rw [hp] at h
    cases h
    exact Or.inl rfl

/-- What follows the alignment is made of digits, the dot, the flag and the type. -/
theorem zeroText_mem {c : UInt8} (h : c ∈ p.zeroText) :
    isDigit c = true ∨ c = dot ∨ c = hash ∨ isTypeChar c = true := by
  unfold zeroText widthText precisionText alternateText typeText at h
  simp only [List.mem_append] at h
  rcases h with h | h | h | h | h
  · split at h
    next => exact Or.inl (by rw [List.mem_singleton.mp h]; decide)
    next => exact absurd h List.not_mem_nil
  · exact Or.inl (p.width_digits c h)
  · cases hp : p.precision with
    | none =>
      rw [hp] at h
      exact absurd h List.not_mem_nil
    | some ds =>
      rw [hp] at h
      rcases List.mem_cons.mp h with h | h
      · exact Or.inr (Or.inl h)
      · exact Or.inl ((p.precision_digits ds hp).2 c h)
  · split at h
    next => exact Or.inr (Or.inr (Or.inl (List.mem_singleton.mp h)))
    next => exact absurd h List.not_mem_nil
  · exact Or.inr (Or.inr (Or.inr (p.type_ok c (Option.mem_toList.mp h))))

/-- No alignment starts after the alignment. -/
theorem zeroText_align {c : UInt8} (h : c ∈ p.zeroText) : isAlignChar c = false := by
  rcases p.zeroText_mem h with hd | rfl | rfl | ht
  · exact isDigit_align hd
  · decide
  · decide
  · exact (isTypeChar_class ht).2.2.2

/-- No digit follows the width. -/
theorem precisionText_digit {c : UInt8} (h : p.precisionText.head? = some c) :
    isDigit c = false := by
  rcases p.precisionText_head h with rfl | rfl | ht
  · decide
  · decide
  · exact (isTypeChar_class ht).1

theorem alternateText_digit {c : UInt8} (h : p.alternateText.head? = some c) :
    isDigit c = false := by
  rcases p.alternateText_head h with rfl | ht
  · decide
  · exact (isTypeChar_class ht).1

end SpecParts

/-! ## The drain reads the parts -/

/-- Digits end where something else starts. -/
theorem span_digits {ds rest : List UInt8} (hds : ∀ d ∈ ds, isDigit d = true)
    (hrest : ∀ c, rest.head? = some c → isDigit c = false) :
    (ds ++ rest).takeWhile isDigit = ds ∧ (ds ++ rest).dropWhile isDigit = rest := by
  rw [List.takeWhile_append_of_pos hds, List.dropWhile_append_of_pos hds]
  cases rest with
  | nil => simp
  | cons c rest =>
    have hc : isDigit c = false := hrest c rfl
    rw [List.takeWhile_cons_of_neg (by simp [hc]), List.dropWhile_cons_of_neg (by simp [hc])]
    simp

theorem at?_eq_false {c : UInt8} {rest : List UInt8} (h : rest.head? ≠ some c) :
    at? c rest = false := by
  unfold at?
  simpa using h

namespace SpecParts

variable (p : SpecParts) {fs : FormatSpec}

/-- Without an alignment at its front, a text has none. -/
theorem parseFillAlign_none {rest : List UInt8} (h : ∀ c ∈ rest, isAlignChar c = false) :
    parseFillAlign fs rest = (fs, rest) := by
  rcases rest with _ | ⟨a, _ | ⟨b, rest⟩⟩
  · rfl
  · have ha : isAlignChar a = false := h a (by simp)
    simp [parseFillAlign, ha]
  · have ha : isAlignChar a = false := h a (by simp)
    have hb : isAlignChar b = false := h b (by simp)
    simp [parseFillAlign, ha, hb]

theorem parseFillAlign_text (hfill : fs.fill = FormatSpec.default.fill)
    (halign : fs.align = .none) :
    parseFillAlign fs p.text
      = ({ fs with fill := p.spec.fill, align := p.spec.align }, p.zeroText) := by
  unfold text spec
  cases hp : p.fillAlign with
  | none =>
    have hfs : { fs with fill := FormatSpec.default.fill, align := .none } = fs := by
      rw [← hfill, ← halign]
    show parseFillAlign fs p.zeroText
      = ({ fs with fill := FormatSpec.default.fill, align := .none }, p.zeroText)
    rw [hfs]
    exact parseFillAlign_none fun c hc => p.zeroText_align hc
  | some a =>
    cases ha : a.fill with
    | none =>
      have htext : a.text = [a.align] := by rw [AlignPart.text, ha]; rfl
      show parseFillAlign fs (a.text ++ p.zeroText)
        = ({ fs with fill := a.fill.getD FormatSpec.default.fill, align := alignOf a.align },
          p.zeroText)
      rw [htext, ha, Option.getD_none, ← hfill]
      rcases hz : p.zeroText with _ | ⟨b, rest⟩
      · simp [parseFillAlign, a.align_ok]
      · have hb : isAlignChar b = false := p.zeroText_align (by rw [hz]; simp)
        simp [parseFillAlign, hb, a.align_ok]
    | some f =>
      have htext : a.text = [f, a.align] := by rw [AlignPart.text, ha]; rfl
      show parseFillAlign fs (a.text ++ p.zeroText)
        = ({ fs with fill := a.fill.getD FormatSpec.default.fill, align := alignOf a.align },
          p.zeroText)
      rw [htext, ha]
      simp [parseFillAlign, a.align_ok]

theorem parseZero_text (h : fs.zeroFill = false) :
    parseZero fs p.zeroText = ({ fs with zeroFill := p.zero }, p.widthText) := by
  unfold parseZero zeroText
  cases hz : p.zero with
  | true => simp
  | false =>
    have hhead : p.widthText.head? ≠ some zeroDigit := by
      unfold widthText
      cases hw : p.width with
      | nil =>
        intro hc
        exact absurd (p.precisionText_digit hc) (by decide)
      | cons d ds =>
        have := p.width_zero hz
        rw [hw] at this
        exact this
    have hat : at? zeroDigit p.widthText = false := at?_eq_false hhead
    have hfs : { fs with zeroFill := false } = fs := by rw [← h]
    show (if at? zeroDigit p.widthText = true then _ else (fs, p.widthText))
      = ({ fs with zeroFill := false }, p.widthText)
    rw [hfs, hat]
    rfl

theorem parseWidth_text (h : fs.width = none) :
    parseWidth fs p.widthText = ({ fs with width := p.spec.width }, p.precisionText) := by
  unfold parseWidth
  have hspan := span_digits p.width_digits fun c hc => p.precisionText_digit hc
  cases hw : p.width with
  | nil =>
    have hwidth : p.spec.width = none := by simp [spec, hw]
    have htext : p.widthText = p.precisionText := by rw [widthText, hw]; rfl
    have hany : p.precisionText.head?.any isDigit = false := by
      rw [Option.any_eq_false]
      intro c hc
      simpa using p.precisionText_digit hc
    rw [htext, hany, hwidth, ← h]
    rfl
  | cons d ds =>
    have hwidth : p.spec.width = some (number p.width) := by simp [spec, hw]
    have hany : p.widthText.head?.any isDigit = true := by
      have hd := p.width_digits d (by rw [hw]; exact List.mem_cons_self)
      rw [widthText, hw]
      simpa using hd
    rw [hany, if_pos rfl, hwidth, digits, widthText, hspan.1, hspan.2]
    rfl

theorem parsePrecision_text (h : fs.precision = none) :
    parsePrecision fs p.precisionText
      = ({ fs with precision := p.spec.precision }, p.alternateText) := by
  unfold parsePrecision precisionText
  cases hp : p.precision with
  | none =>
    have hprec : p.spec.precision = none := by simp [spec, hp]
    have hat : at? dot p.alternateText = false := by
      apply at?_eq_false
      intro hc
      rcases p.alternateText_head hc with hd | ht
      · exact absurd hd (by decide)
      · exact (isTypeChar_class ht).2.1 rfl
    rw [hprec, ← h]
    simp [hat]
  | some ds =>
    have hprec : p.spec.precision = some (number ds) := by simp [spec, hp]
    have hspan := span_digits (p.precision_digits ds hp).2 fun c hc => p.alternateText_digit hc
    show (if at? dot (dot :: (ds ++ p.alternateText)) = true then
        ({ fs with precision := some (digits (ds ++ p.alternateText)) },
          (ds ++ p.alternateText).dropWhile isDigit)
      else _) = _
    rw [at?_cons, if_pos (by decide), hprec, digits, hspan.1, hspan.2]
    rfl

theorem parseAlternate_text (h : fs.alternate = false) :
    parseAlternate fs p.alternateText = ({ fs with alternate := p.alternate }, p.typeText) := by
  unfold parseAlternate alternateText
  cases ha : p.alternate with
  | true => simp
  | false =>
    have hat : at? hash p.typeText = false := by
      apply at?_eq_false
      intro hc
      exact (isTypeChar_class (p.typeText_head hc)).2.2.1 rfl
    have hfs : { fs with alternate := false } = fs := by rw [← h]
    show (if at? hash p.typeText = true then _ else (fs, p.typeText))
      = ({ fs with alternate := false }, p.typeText)
    rw [hfs, hat]
    rfl

theorem parseType_text (h : fs.typeChar = none) :
    parseType fs p.typeText = { fs with typeChar := p.typeChar } := by
  unfold parseType typeText
  cases hp : p.typeChar with
  | none => simp [← h]
  | some c => simp [p.type_ok c hp]

/-- What the drain reads out of a spec is what its parts mean. -/
theorem parseSpecBody_text : parseSpecBody p.text = p.spec := by
  unfold parseSpecBody
  rw [p.parseFillAlign_text rfl rfl]
  simp only
  rw [p.parseZero_text rfl]
  simp only
  rw [p.parseWidth_text rfl]
  simp only
  rw [p.parsePrecision_text rfl]
  simp only
  rw [p.parseAlternate_text rfl]
  simp only
  rw [p.parseType_text rfl]
  rfl

end SpecParts

/-! ## The validator accepts whole specs -/

theorem closeBrace_align : isAlignChar closeBrace = false := by decide

@[simp] theorem unlessClosed_closed (t : List UInt8)
    (k : List UInt8 → Except FmtError (List UInt8)) :
    unlessClosed (closeBrace :: t) k = .ok (closeBrace :: t) := by
  simp [unlessClosed]

/-- Where the spec ends, the parts still to come are absent, so stopping early and going on
come to the same. -/
theorem unlessClosed_run {b t : List UInt8} {k : List UInt8 → Except FmtError (List UInt8)}
    (hb : closeBrace ∉ b) (hk : k (closeBrace :: t) = .ok (closeBrace :: t)) :
    unlessClosed (b ++ closeBrace :: t) k = k (b ++ closeBrace :: t) := by
  unfold unlessClosed
  cases b with
  | nil => simp [hk]
  | cons c b =>
    have hc : c ≠ closeBrace := fun heq => hb (heq ▸ List.mem_cons_self)
    simp [hc]

theorem skipFillAlign_parts {b t r : List UInt8} (hb : closeBrace ∉ b) (hne : b ≠ [])
    (h : skipFillAlign (b ++ closeBrace :: t) = .ok r) :
    ∃ (a : Option AlignPart) (b' : List UInt8),
      b = a.elim [] AlignPart.text ++ b' ∧ r = b' ++ closeBrace :: t := by
  rcases b with _ | ⟨c, _ | ⟨d, b⟩⟩
  · exact absurd rfl hne
  · -- a single byte: the next is the closing brace
    simp only [List.cons_append, List.nil_append, skipFillAlign, closeBrace_align] at h
    split at h
    next hd => cases hd
    next =>
      split at h
      next hc =>
        cases h
        exact ⟨some ⟨none, c, hc⟩, [], rfl, rfl⟩
      next =>
        cases h
        exact ⟨none, [c], rfl, rfl⟩
  · simp only [List.cons_append, skipFillAlign] at h
    split at h
    next hd =>
      split at h
      · cases h
        exact ⟨some ⟨some c, d, hd⟩, b, rfl, rfl⟩
      · cases h
    next =>
      split at h
      next hc =>
        cases h
        exact ⟨some ⟨none, c, hc⟩, d :: b, rfl, rfl⟩
      next =>
        cases h
        exact ⟨none, c :: d :: b, rfl, rfl⟩

/-- A flag before the closing brace. -/
theorem flag_parts {c : UInt8} (hc : c ≠ closeBrace) (b t : List UInt8) :
    ∃ (flag : Bool) (b' : List UInt8),
      b = (if flag then [c] else []) ++ b' ∧ (flag = false → b'.head? ≠ some c) ∧
      (if at? c (b ++ closeBrace :: t) then (b ++ closeBrace :: t).tail
        else b ++ closeBrace :: t) = b' ++ closeBrace :: t := by
  cases b with
  | nil =>
    refine ⟨false, [], rfl, fun _ => by simp, ?_⟩
    simp [Ne.symm hc]
  | cons d b =>
    by_cases hd : d = c
    · refine ⟨true, b, by simp [hd], fun hf => by simp at hf, ?_⟩
      simp [hd]
    · refine ⟨false, d :: b, rfl, fun _ => by simpa using hd, ?_⟩
      simp [hd]

/-- Digits before the closing brace. -/
theorem digits_parts (b t : List UInt8) :
    ∃ ds b' : List UInt8, b = ds ++ b' ∧ (∀ d ∈ ds, isDigit d = true) ∧
      ((b ++ closeBrace :: t).head?.any isDigit = true → ds ≠ []) ∧
      (b ++ closeBrace :: t).dropWhile isDigit = b' ++ closeBrace :: t := by
  refine ⟨b.takeWhile isDigit, b.dropWhile isDigit, List.takeWhile_append_dropWhile.symm,
    fun d hd => List.mem_takeWhile_imp hd, fun hany => ?_, ?_⟩
  · cases b with
    | nil =>
      have hc : isDigit closeBrace = true := hany
      exact absurd hc (by decide)
    | cons c b =>
      have hc : isDigit c = true := hany
      rw [List.takeWhile_cons_of_pos hc]
      exact List.cons_ne_nil _ _
  · rw [List.dropWhile_append]
    split
    next hnil =>
      have hnil : b.dropWhile isDigit = [] := by simpa using hnil
      rw [hnil, List.dropWhile_cons_of_neg (by decide)]
      rfl
    next => rfl

theorem skipPrecision_parts {b t r : List UInt8}
    (h : skipPrecision (b ++ closeBrace :: t) = .ok r) :
    ∃ (prec : Option (List UInt8)) (b' : List UInt8),
      b = (prec.elim [] fun ds => dot :: ds) ++ b' ∧
      (∀ ds ∈ prec, ds ≠ [] ∧ ∀ d ∈ ds, isDigit d = true) ∧ r = b' ++ closeBrace :: t := by
  unfold skipPrecision at h
  cases b with
  | nil =>
    rw [List.nil_append, at?_cons, if_neg (by decide)] at h
    cases h
    exact ⟨none, [], rfl, by simp, rfl⟩
  | cons c b =>
    rw [List.cons_append, at?_cons] at h
    by_cases hc : c = dot
    · subst hc
      rw [if_pos (by decide), List.tail_cons] at h
      obtain ⟨ds, b', hb, hds, hsome, hdrop⟩ := digits_parts b t
      split at h
      next hany =>
        cases h
        refine ⟨some ds, b', by rw [hb]; rfl, fun ds' hds' => ?_, hdrop⟩
        cases hds'
        exact ⟨hsome hany, hds⟩
      next => cases h
    · rw [if_neg (by simpa using hc)] at h
      cases h
      exact ⟨none, c :: b, rfl, by simp, rfl⟩

theorem skipType_parts {b t : List UInt8} (hb : closeBrace ∉ b)
    (h : skipType (b ++ closeBrace :: t) = .ok (closeBrace :: t)) :
    ∃ type : Option UInt8, b = type.toList ∧ ∀ c ∈ type, isTypeChar c = true := by
  cases b with
  | nil => exact ⟨none, rfl, fun _ hc => by cases hc⟩
  | cons c b =>
    have hne : c ≠ closeBrace := fun heq => hb (heq ▸ List.mem_cons_self)
    simp only [List.cons_append, skipType, if_neg hne] at h
    split at h
    next hc =>
      have hrest : b ++ closeBrace :: t = [] ++ closeBrace :: t := Except.ok.inj h
      have hnil : b = [] := List.append_cancel_right hrest
      subst hnil
      refine ⟨some c, rfl, fun d hd => ?_⟩
      cases hd
      exact hc
    next => split at h <;> cases h

/-- Every accepted spec is made of parts, and nothing else. -/
theorem parseSpecConst_parts {b t : List UInt8} (hb : closeBrace ∉ b)
    (h : parseSpecConst (b ++ closeBrace :: t) = .ok (closeBrace :: t)) :
    ∃ p : SpecParts, b = p.text := by
  by_cases hne : b = []
  · exact ⟨⟨none, false, [], none, false, none, by simp, by simp, by simp, by simp⟩, hne⟩
  obtain ⟨c, b₀, rfl⟩ := List.exists_cons_of_ne_nil hne
  have hc : c ≠ closeBrace := fun heq => hb (heq ▸ List.mem_cons_self)
  simp only [List.cons_append, parseSpecConst] at h
  rcases unlessClosed_ok h with heq | ⟨-, h⟩
  · exact absurd (List.cons.inj heq).1.symm hc
  obtain ⟨r, hfill, h⟩ := bind_ok h
  obtain ⟨a, b₁, ha, rfl⟩ := skipFillAlign_parts hb hne hfill
  have hb₁ : closeBrace ∉ b₁ := fun hm => hb (by rw [ha]; exact List.mem_append_right _ hm)
  have hflag : closeBrace ≠ zeroDigit ∧ closeBrace ≠ hash := by decide
  rw [unlessClosed_run hb₁ (by simp [hflag])] at h
  obtain ⟨zero, b₂, rfl, hzero, heq⟩ := flag_parts (c := zeroDigit) (by decide) b₁ t
  have hb₂ : closeBrace ∉ b₂ := fun hm => hb₁ (List.mem_append_right _ hm)
  simp only [heq] at h
  rw [unlessClosed_run hb₂ (by rw [List.dropWhile_cons_of_neg (by decide)]; simp)] at h
  obtain ⟨width, b₃, rfl, hwidth, -, heq⟩ := digits_parts b₂ t
  have hb₃ : closeBrace ∉ b₃ := fun hm => hb₂ (List.mem_append_right _ hm)
  simp only [heq] at h
  have hskip : skipPrecision (closeBrace :: t) = .ok (closeBrace :: t) := by
    rw [skipPrecision, at?_cons, if_neg (by decide)]
  rw [unlessClosed_run hb₃ (by simp [hskip, bind, Except.bind])] at h
  obtain ⟨r, hskip, h⟩ := bind_ok h
  obtain ⟨prec, b₄, rfl, hprec, rfl⟩ := skipPrecision_parts hskip
  have hb₄ : closeBrace ∉ b₄ := fun hm => hb₃ (List.mem_append_right _ hm)
  rw [unlessClosed_run hb₄ (by simp [hflag])] at h
  obtain ⟨alt, b₅, rfl, -, heq⟩ := flag_parts (c := hash) (by decide) b₄ t
  have hb₅ : closeBrace ∉ b₅ := fun hm => hb₄ (List.mem_append_right _ hm)
  simp only [heq] at h
  have htype : skipType (closeBrace :: t) = .ok (closeBrace :: t) := rfl
  rw [unlessClosed_run hb₅ htype] at h
  obtain ⟨type, rfl, htype⟩ := skipType_parts hb₅ h
  have hfirst : zero = false → width.head? ≠ some zeroDigit := by
    intro hz
    have hhead := hzero hz
    cases width with
    | nil => simp
    | cons d ds => exact hhead
  exact ⟨⟨a, zero, width, prec, alt, type, hwidth, hfirst, hprec, htype⟩, ha⟩

end Ticklog
