import Ticklog.Codec.Template

/-!
# The three spec parsers and their grammar (`src/format.rs`)

The module's documentation gives specs the grammar

    [[fill] align] ['0'] [width] ['.' precision] ['#'] [type]

and the source has three readers of it: `validate_spec_rt`, `parse_spec_const`, which looks
past the end of the spec into the string, and `parse_spec_body`. `Derivation` is the grammar
as documented; it leaves open whether a `0` is the flag or the first digit of the width.
What each scanner leaves of a derived text is the text of the parts to come, which gives
both that derived texts are accepted and that one derivation reads a leading `0` as the flag.
-/

namespace Ticklog

open Lib

/-- A derivation of the documented grammar: the parts of a spec as written. -/
structure Derivation where
  fillAlign : Option AlignPart
  zero : Bool
  width : List UInt8
  precision : Option (List UInt8)
  alternate : Bool
  typeChar : Option UInt8
  fill_ok : ∀ a ∈ fillAlign, ∀ f ∈ a.fill, isValidFill f = true
  width_digits : ∀ d ∈ width, isDigit d = true
  precision_digits : ∀ ds ∈ precision, ds ≠ [] ∧ ∀ d ∈ ds, isDigit d = true
  type_ok : ∀ c ∈ typeChar, isTypeChar c = true

/-- The number a digit string denotes. -/
def decimal (ds : List UInt8) : Nat := ds.foldl (fun n d => n * 10 + (d - zeroDigit).toNat) 0

namespace Derivation

variable (d : Derivation)

/-- The spec as it is written. -/
def text : List UInt8 :=
  d.fillAlign.elim [] AlignPart.text ++ ((if d.zero then [zeroDigit] else []) ++
    (d.width ++ ((d.precision.elim [] fun ds => dot :: ds) ++
      ((if d.alternate then [hash] else []) ++ d.typeChar.toList))))

/-- The fields the parts stand for. -/
def spec : FormatSpec where
  fill := (d.fillAlign.bind AlignPart.fill).getD FormatSpec.default.fill
  align := d.fillAlign.elim .none fun a => alignOf a.align
  zeroFill := d.zero
  width := if d.width = [] then none else some (min (decimal d.width) 65535)
  precision := d.precision.map fun ds => min (decimal ds) 65535
  alternate := d.alternate
  typeChar := d.typeChar

/-- A leading `0` is read as the flag. -/
def FlagFirst : Prop := d.zero = false → d.width.head? ≠ some zeroDigit

end Derivation

/-! ## Numbers -/

/-- A saturating step is the exact one, cut off at the bound. -/
theorem saturatingDigit_min (n : Nat) (c : UInt8) :
    saturatingDigit (min n 65535) c = min (n * 10 + (c - zeroDigit).toNat) 65535 := by
  unfold saturatingDigit
  omega

theorem number_eq (ds : List UInt8) : number ds = min (decimal ds) 65535 := by
  have hfold : ∀ (l : List UInt8) (n : Nat), l.foldl saturatingDigit (min n 65535)
      = min (l.foldl (fun n d => n * 10 + (d - zeroDigit).toNat) n) 65535 := by
    intro l
    induction l with
    | nil => exact fun _ => rfl
    | cons c l ih =>
      intro n
      rw [List.foldl_cons, List.foldl_cons, saturatingDigit_min]
      exact ih _
  exact hfold ds 0

/-! ## Derivations that read the flag first -/

namespace Derivation

/-- The parts of a derivation that reads the flag first. -/
def parts (d : Derivation) (h : d.FlagFirst) : SpecParts where
  fillAlign := d.fillAlign
  zero := d.zero
  width := d.width
  precision := d.precision
  alternate := d.alternate
  typeChar := d.typeChar
  width_digits := d.width_digits
  width_zero := h
  precision_digits := d.precision_digits
  type_ok := d.type_ok

theorem parts_text (d : Derivation) (h : d.FlagFirst) : (d.parts h).text = d.text := rfl

theorem parts_spec (d : Derivation) (h : d.FlagFirst) : (d.parts h).spec = d.spec := by
  unfold SpecParts.spec spec
  congr 1
  · show (if d.width = [] then none else some (number d.width)) = _
    rw [number_eq]
  · show d.precision.map number = _
    exact congrArg (Option.map · d.precision) (funext number_eq)

/-- A `0` at the front of the width may be taken for the flag. -/
theorem exists_flagFirst (d : Derivation) : ∃ d' : Derivation, d'.FlagFirst ∧ d'.text = d.text := by
  by_cases h : d.FlagFirst
  · exact ⟨d, h, rfl⟩
  · unfold FlagFirst at h
    push Not at h
    obtain ⟨hzero, hhead⟩ := h
    obtain ⟨ds, hds⟩ : ∃ ds, d.width = zeroDigit :: ds := by
      cases hw : d.width with
      | nil =>
        rw [hw] at hhead
        cases hhead
      | cons c ds =>
        rw [hw] at hhead
        cases hhead
        exact ⟨ds, rfl⟩
    refine ⟨{ d with zero := true, width := ds, width_digits := fun c hc => ?_ }, nofun, ?_⟩
    · exact d.width_digits c (by rw [hds]; exact List.mem_cons_of_mem _ hc)
    · simp [text, hds, hzero]

end Derivation

/-! ## What the scanners leave of a derived text -/

namespace SpecParts

variable (p : SpecParts)

theorem skipFillAlign_text (hfill : ∀ a ∈ p.fillAlign, ∀ f ∈ a.fill, isValidFill f = true) :
    skipFillAlign p.text = .ok p.zeroText := by
  unfold text
  cases hp : p.fillAlign with
  | none =>
    show skipFillAlign p.zeroText = .ok p.zeroText
    have hno : ∀ c ∈ p.zeroText, isAlignChar c = false := fun c hc => p.zeroText_align hc
    generalize p.zeroText = rest at hno
    rcases rest with _ | ⟨a, _ | ⟨b, rest⟩⟩
    · rfl
    · have ha := hno a (by simp)
      simp [skipFillAlign, ha]
    · have ha := hno a (by simp)
      have hb := hno b (by simp)
      simp [skipFillAlign, ha, hb]
  | some a =>
    cases ha : a.fill with
    | none =>
      have htext : a.text = [a.align] := by rw [AlignPart.text, ha]; rfl
      show skipFillAlign (a.text ++ p.zeroText) = .ok p.zeroText
      rw [htext]
      rcases hz : p.zeroText with _ | ⟨b, rest⟩
      · simp [skipFillAlign, a.align_ok]
      · have hb : isAlignChar b = false := p.zeroText_align (by rw [hz]; simp)
        simp [skipFillAlign, hb, a.align_ok]
    | some f =>
      have htext : a.text = [f, a.align] := by rw [AlignPart.text, ha]; rfl
      show skipFillAlign (a.text ++ p.zeroText) = .ok p.zeroText
      rw [htext]
      simp [skipFillAlign, a.align_ok, hfill a hp f ha]

theorem skipZero_text :
    (if at? zeroDigit p.zeroText then p.zeroText.tail else p.zeroText) = p.widthText := by
  unfold zeroText
  cases hz : p.zero with
  | true => simp
  | false =>
    have hhead : p.widthText.head? ≠ some zeroDigit := by
      unfold widthText
      cases hw : p.width with
      | nil =>
        intro hc
        exact absurd (p.precisionText_digit hc) (by decide)
      | cons d ds =>
        have := p.width_zero hz
        rw [hw] at this
        exact this
    have hat : at? zeroDigit p.widthText = false := at?_eq_false hhead
    simp [hat]

theorem skipWidth_text : p.widthText.dropWhile isDigit = p.precisionText :=
  (span_digits p.width_digits fun _ hc => p.precisionText_digit hc).2

theorem skipPrecision_text : skipPrecision p.precisionText = .ok p.alternateText := by
  unfold skipPrecision precisionText
  cases hp : p.precision with
  | none =>
    have hat : at? dot p.alternateText = false := by
      apply at?_eq_false
      intro hc
      rcases p.alternateText_head hc with hd | ht
      · exact absurd hd (by decide)
      · exact (isTypeChar_class ht).2.1 rfl
    simp [hat]
  | some ds =>
    obtain ⟨hne, hds⟩ := p.precision_digits ds hp
    have hspan := span_digits hds fun c hc => p.alternateText_digit hc
    obtain ⟨c, ds', rfl⟩ := List.exists_cons_of_ne_nil hne
    have hc : isDigit c = true := hds c List.mem_cons_self
    show (if at? dot (dot :: (c :: ds' ++ p.alternateText)) = true then
        if (c :: ds' ++ p.alternateText).head?.any isDigit = true then
          Except.ok ((c :: ds' ++ p.alternateText).dropWhile isDigit)
        else Except.error FmtError.missingDigits
      else _) = _
    rw [at?_cons, if_pos (by decide), if_pos (by simpa using hc), hspan.2]

theorem skipAlternate_text :
    (if at? hash p.alternateText then p.alternateText.tail else p.alternateText)
      = p.typeText := by
  unfold alternateText
  cases ha : p.alternate with
  | true => simp
  | false =>
    have hat : at? hash p.typeText = false := by
      apply at?_eq_false
      intro hc
      exact (isTypeChar_class (p.typeText_head hc)).2.2.1 rfl
    simp [hat]

theorem checkType_text : checkType p.typeText = .ok () := by
  unfold typeText
  cases hp : p.typeChar with
  | none => rfl
  | some c => simp [checkType, p.type_ok c hp]

end SpecParts

theorem ok_bind {α β : Type} (a : α) (f : α → Except FmtError β) :
    (Except.ok a >>= f) = f a := rfl

/-- Where the spec ends nothing more is asked for. -/
theorem unlessEnd_ok {rest : List UInt8} {k : List UInt8 → Except FmtError Unit}
    (h : k rest = .ok ()) : unlessEnd rest k = .ok () := by
  unfold unlessEnd
  split
  · rfl
  · exact h

/-- A derived text is accepted at run time. -/
theorem validateSpecRt_text (p : SpecParts)
    (hfill : ∀ a ∈ p.fillAlign, ∀ f ∈ a.fill, isValidFill f = true) :
    validateSpecRt p.text = .ok () := by
  unfold validateSpecRt
  refine unlessEnd_ok ?_
  rw [p.skipFillAlign_text hfill, ok_bind]
  refine unlessEnd_ok ?_
  rw [p.skipZero_text]
  refine unlessEnd_ok ?_
  rw [p.skipWidth_text]
  refine unlessEnd_ok ?_
  rw [p.skipPrecision_text, ok_bind]
  refine unlessEnd_ok ?_
  rw [p.skipAlternate_text]
  exact unlessEnd_ok p.checkType_text

/-! ## One derivation reads the flag first -/

theorem flag_inj {c : UInt8} {b b' : Bool}
    (h : (if b then [c] else []) = if b' then [c] else []) : b = b' := by
  cases b <;> cases b'
  · rfl
  · cases h
  · cases h
  · rfl

theorem AlignPart.text_inj {a a' : Option AlignPart}
    (h : a.elim [] AlignPart.text = a'.elim [] AlignPart.text) : a = a' := by
  have hne : ∀ x : AlignPart, x.text ≠ [] := fun x => List.append_ne_nil_of_right_ne_nil _ nofun
  rcases a with _ | ⟨fill, align, hok⟩ <;> rcases a' with _ | ⟨fill', align', hok'⟩
  · rfl
  · exact absurd h.symm (hne _)
  · exact absurd h (hne _)
  · have hfill := List.append_inj_left' h rfl
    have halign := List.append_inj_right' h rfl
    cases fill <;> cases fill' <;> cases hfill <;> cases halign <;> rfl

theorem precision_inj {x y : Option (List UInt8)}
    (h : (x.elim [] fun ds => dot :: ds) = y.elim [] fun ds => dot :: ds) : x = y := by
  cases x <;> cases y <;> cases h <;> rfl

theorem Derivation.unique {d d' : Derivation} (h : d.FlagFirst) (h' : d'.FlagFirst)
    (htext : d.text = d'.text) : d = d' := by
  have hp : (d.parts h).text = (d'.parts h').text := htext
  generalize hq : d.parts h = p at hp
  generalize hq' : d'.parts h' = p' at hp
  -- each scanner leaves the rest of the text, so the rests agree, then the parts before them
  have hzeroText : p.zeroText = p'.zeroText := by
    have hok := p.skipFillAlign_text (by rw [← hq]; exact d.fill_ok)
    have hok' := p'.skipFillAlign_text (by rw [← hq']; exact d'.fill_ok)
    rw [hp, hok'] at hok
    exact (Except.ok.inj hok).symm
  have hwidthText : p.widthText = p'.widthText := by
    rw [← p.skipZero_text, ← p'.skipZero_text, hzeroText]
  have hprecisionText : p.precisionText = p'.precisionText := by
    rw [← p.skipWidth_text, ← p'.skipWidth_text, hwidthText]
  have halternateText : p.alternateText = p'.alternateText := by
    have hok := p.skipPrecision_text
    rw [hprecisionText, p'.skipPrecision_text] at hok
    exact (Except.ok.inj hok).symm
  have htypeText : p.typeText = p'.typeText := by
    rw [← p.skipAlternate_text, ← p'.skipAlternate_text, halternateText]
  have hfillAlign : p.fillAlign = p'.fillAlign := by
    unfold SpecParts.text at hp
    rw [hzeroText] at hp
    exact AlignPart.text_inj (List.append_cancel_right hp)
  have hzero : p.zero = p'.zero := by
    unfold SpecParts.zeroText at hzeroText
    rw [hwidthText] at hzeroText
    exact flag_inj (List.append_cancel_right hzeroText)
  have hwidth : p.width = p'.width := by
    unfold SpecParts.widthText at hwidthText
    rw [hprecisionText] at hwidthText
    exact List.append_cancel_right hwidthText
  have hprecision : p.precision = p'.precision := by
    unfold SpecParts.precisionText at hprecisionText
    rw [halternateText] at hprecisionText
    exact precision_inj (List.append_cancel_right hprecisionText)
  have halternate : p.alternate = p'.alternate := by
    unfold SpecParts.alternateText at halternateText
    rw [htypeText] at halternateText
    exact flag_inj (List.append_cancel_right halternateText)
  have htype : p.typeChar = p'.typeChar := by
    unfold SpecParts.typeText at htypeText
    generalize p.typeChar = c at htypeText ⊢
    generalize p'.typeChar = c' at htypeText ⊢
    cases c <;> cases c' <;> cases htypeText <;> rfl
  subst hq hq'
  obtain ⟨_, _, _, _, _, _, _, _, _, _⟩ := d
  obtain ⟨_, _, _, _, _, _, _, _, _, _⟩ := d'
  simp only [Derivation.parts] at *
  subst hfillAlign hzero hwidth hprecision halternate htype
  rfl

/-! ## The compile-time parser looks past the end -/

/-- A spec with its closing brace and what follows. -/
def closed (t body : List UInt8) : List UInt8 := body ++ closeBrace :: t

/-- `parse_spec_const` stops at the closing brace where `validate_spec_rt` stops at the end of
its slice. -/
theorem unlessClosed_iff {b t : List UInt8} {k : List UInt8 → Except FmtError Unit}
    {k' : List UInt8 → Except FmtError (List UInt8)} (hb : closeBrace ∉ b)
    (hk : b ≠ [] → (k b = .ok () ↔ k' (closed t b) = .ok (closed t []))) :
    unlessEnd b k = .ok () ↔ unlessClosed (closed t b) k' = .ok (closed t []) := by
  cases b with
  | nil => simp [unlessEnd, closed]
  | cons c b =>
    have hc : c ≠ closeBrace := fun heq => hb (heq ▸ List.mem_cons_self)
    have hat : at? closeBrace (closed t (c :: b)) = false := by simp [closed, hc]
    unfold unlessEnd unlessClosed
    rw [hat]
    exact hk (List.cons_ne_nil _ _)

theorem closed_inj {t a b : List UInt8} (h : closed t a = closed t b) : a = b :=
  List.append_cancel_right h

theorem skipFillAlign_closed {b t : List UInt8} (hne : b ≠ []) :
    skipFillAlign (closed t b) = (skipFillAlign b).map (closed t) := by
  rcases b with _ | ⟨c, _ | ⟨d, b⟩⟩
  · exact absurd rfl hne
  · -- the byte after a lone one is the closing brace
    simp only [closed, List.cons_append, List.nil_append, skipFillAlign, closeBrace_align,
      Bool.false_eq_true, if_false]
    split <;> rfl
  · simp only [closed, List.cons_append, skipFillAlign]
    repeat' split
    all_goals rfl

theorem flag_closed {c : UInt8} (hc : c ≠ closeBrace) (b t : List UInt8) :
    (if at? c (closed t b) then (closed t b).tail else closed t b)
      = closed t (if at? c b then b.tail else b) := by
  cases b with
  | nil => simp [closed, Ne.symm hc]
  | cons d b =>
    by_cases hd : d = c
    · simp [closed, hd]
    · simp [closed, hd]

theorem dropWhile_closed (b t : List UInt8) :
    (closed t b).dropWhile isDigit = closed t (b.dropWhile isDigit) := by
  unfold closed
  rw [List.dropWhile_append]
  split
  next hnil =>
    have hnil : b.dropWhile isDigit = [] := by simpa using hnil
    rw [hnil, List.dropWhile_cons_of_neg (by decide)]
    rfl
  next => rfl

theorem skipPrecision_closed (b t : List UInt8) :
    skipPrecision (closed t b) = (skipPrecision b).map (closed t) := by
  cases b with
  | nil => rfl
  | cons c b =>
    unfold skipPrecision
    by_cases hc : c = dot
    · subst hc
      have hat : at? dot (closed t (dot :: b)) = true := by simp [closed]
      have htail : (closed t (dot :: b)).tail = closed t b := rfl
      have hhead : (closed t b).head?.any isDigit = b.head?.any isDigit := by
        cases b <;> rfl
      rw [hat, htail, hhead, at?_cons, List.tail_cons, dropWhile_closed]
      simp only [decide_true, if_true]
      split <;> rfl
    · have hat : at? dot (closed t (c :: b)) = false := by simp [closed, hc]
      rw [hat, at?_cons, decide_eq_false hc]
      rfl

theorem checkType_closed {b t : List UInt8} (hb : closeBrace ∉ b) :
    checkType b = .ok () ↔ skipType (closed t b) = .ok (closed t []) := by
  cases b with
  | nil => exact ⟨fun _ => rfl, fun _ => rfl⟩
  | cons c b =>
    have hc : c ≠ closeBrace := fun heq => hb (heq ▸ List.mem_cons_self)
    have hskip : skipType (closed t (c :: b)) = if isTypeChar c then .ok (closed t b)
        else if c = ascii '+' ∨ c = ascii '-' then .error .signFlag
        else .error .unsupportedType := by
      dsimp only [closed, List.cons_append, skipType]
      rw [if_neg hc]
    rw [hskip, checkType]
    split
    next =>
      cases b with
      | nil => simp
      | cons d b =>
        have hne : closed t (d :: b) ≠ closed t [] := fun heq => nomatch closed_inj heq
        simp [hne]
    next => split <;> simp

/-- A scanner that reads on, and what is asked of the rest. -/
theorem bind_iff {x : Except FmtError (List UInt8)} {t : List UInt8}
    {k : List UInt8 → Except FmtError Unit} {k' : List UInt8 → Except FmtError (List UInt8)}
    (h : ∀ r, x = .ok r → (k r = .ok () ↔ k' (closed t r) = .ok (closed t []))) :
    (x >>= k) = .ok () ↔ (x.map (closed t) >>= k') = .ok (closed t []) := by
  cases x with
  | error e => exact ⟨nofun, nofun⟩
  | ok r => exact h r rfl

/-- Past the bounds check, which a closing brace passes. -/
theorem parseSpecConst_closed (t body : List UInt8) :
    parseSpecConst (closed t body) = (unlessClosed (closed t body) fun rest => do
      let rest ← skipFillAlign rest
      unlessClosed rest fun rest =>
        unlessClosed (if at? zeroDigit rest then rest.tail else rest) fun rest =>
          unlessClosed (rest.dropWhile isDigit) fun rest => do
            let rest ← skipPrecision rest
            unlessClosed rest fun rest =>
              unlessClosed (if at? hash rest then rest.tail else rest) skipType) := by
  cases body <;> rfl

/-- Both validators accept the same specs, and the compile-time one ends at the brace. -/
theorem validateSpecRt_iff {body : List UInt8} (t : List UInt8) (hbody : closeBrace ∉ body) :
    validateSpecRt body = .ok () ↔ parseSpecConst (closed t body) = .ok (closed t []) := by
  have hmem : ∀ {a b : List UInt8}, Skips a b → closeBrace ∉ a → closeBrace ∉ b := by
    rintro a b ⟨skipped, rfl, -⟩ ha hb
    exact ha (List.mem_append_right _ hb)
  rw [parseSpecConst_closed]
  unfold validateSpecRt
  refine unlessClosed_iff hbody fun hne => ?_
  rw [skipFillAlign_closed hne]
  refine bind_iff fun r₁ hfill => ?_
  have hopen : at? closeBrace body = false := by
    apply at?_eq_false
    intro hhead
    exact hbody (List.mem_of_head? hhead)
  have hr₁ : closeBrace ∉ r₁ := hmem (skipFillAlign_skips hopen hfill) hbody
  refine unlessClosed_iff hr₁ fun _ => ?_
  rw [flag_closed (by decide)]
  have hr₂ := hmem (Skips.flag (c := zeroDigit) (by decide) r₁) hr₁
  refine unlessClosed_iff hr₂ fun _ => ?_
  rw [dropWhile_closed]
  have hr₃ := hmem (Skips.dropWhile (p := isDigit) (by decide) _) hr₂
  refine unlessClosed_iff hr₃ fun _ => ?_
  rw [skipPrecision_closed]
  refine bind_iff fun r₄ hprec => ?_
  have hr₄ := hmem (skipPrecision_skips hprec) hr₃
  refine unlessClosed_iff hr₄ fun _ => ?_
  rw [flag_closed (by decide)]
  have hr₅ := hmem (Skips.flag (c := hash) (by decide) r₄) hr₄
  exact unlessClosed_iff hr₅ fun _ => checkType_closed hr₅

/-! ## The grammar -/

/-- What `validate_spec_rt` accepts has a derivation. -/
theorem exists_derivation {body : List UInt8} (hbody : closeBrace ∉ body)
    (h : validateSpecRt body = .ok ()) : ∃ d : Derivation, d.FlagFirst ∧ d.text = body := by
  obtain ⟨p, hp⟩ := parseSpecConst_parts hbody ((validateSpecRt_iff [] hbody).mp h)
  have hfill : ∀ a ∈ p.fillAlign, ∀ f ∈ a.fill, isValidFill f = true := by
    intro a ha f hf
    by_contra hbad
    -- the fill stands before an align character, where both validators look at it
    have htext : body = f :: a.align :: p.zeroText := by
      rw [hp, SpecParts.text, Option.mem_def.mp ha, Option.elim_some, AlignPart.text,
        Option.mem_def.mp hf]
      rfl
    have hskip : skipFillAlign body = .error .invalidFill := by
      rw [htext]
      simp [skipFillAlign, a.align_ok, hbad]
    have hne : body.isEmpty = false := by
      rw [htext]
      rfl
    unfold validateSpecRt unlessEnd at h
    simp only [hne, hskip, Bool.false_eq_true, if_false] at h
    cases h
  exact ⟨⟨p.fillAlign, p.zero, p.width, p.precision, p.alternate, p.typeChar, hfill,
    p.width_digits, p.precision_digits, p.type_ok⟩, p.width_zero, hp.symm⟩

/-- `parse_spec_body` reads the fields of a derivation that takes a leading `0` for the flag. -/
theorem Derivation.parse {d : Derivation} (h : d.FlagFirst) : parseSpecBody d.text = d.spec := by
  rw [← d.parts_text h, SpecParts.parseSpecBody_text, d.parts_spec]

/-- What has a derivation is accepted. -/
theorem Derivation.validate (d : Derivation) : validateSpecRt d.text = .ok () := by
  obtain ⟨d', hfirst, htext⟩ := d.exists_flagFirst
  rw [← htext, ← d'.parts_text hfirst]
  exact validateSpecRt_text _ d'.fill_ok

/-- The fill of a spec cut out of a text is ASCII. -/
theorem Derivation.fill_ascii (d : Derivation) (h : Utf8 d.text) :
    ∀ a ∈ d.fillAlign, ∀ f ∈ a.fill, f < 0x80 := by
  intro a ha f hf
  have htext : ∃ rest, d.text = [f] ++ a.align :: rest := by
    unfold text
    rw [Option.mem_def.mp ha, Option.elim_some, AlignPart.text, Option.mem_def.mp hf]
    exact ⟨_, rfl⟩
  obtain ⟨rest, hrest⟩ := htext
  rw [hrest] at h
  exact Utf8.of_byte (Utf8.cut (isAlignChar_ascii a.align_ok) h).1

/-- The three parsers agree with the documented grammar. `validate_spec_rt` accepts a spec
exactly when `parse_spec_const` reads it up to its closing brace, whatever follows, and exactly
when the grammar derives it. One derivation then takes a leading `0` for the flag, and
`parse_spec_body` reads its fields. -/
theorem spec_parsers_agree (body rest : List UInt8) (hbody : closeBrace ∉ body) :
    (validateSpecRt body = .ok () ↔
      parseSpecConst (body ++ closeBrace :: rest) = .ok (closeBrace :: rest)) ∧
    (validateSpecRt body = .ok () ↔ ∃ d : Derivation, d.text = body) ∧
    (validateSpecRt body = .ok () →
      ∃ d : Derivation, (d.FlagFirst ∧ d.text = body) ∧
        (∀ d' : Derivation, d'.FlagFirst ∧ d'.text = body → d' = d) ∧
        parseSpecBody body = d.spec) ∧
    (Utf8 body → ∀ d : Derivation, d.text = body → ∀ a ∈ d.fillAlign, ∀ f ∈ a.fill, f < 0x80) := by
  refine ⟨validateSpecRt_iff rest hbody, ⟨fun h => ?_, ?_⟩, fun h => ?_, ?_⟩
  · obtain ⟨d, -, hd⟩ := exists_derivation hbody h
    exact ⟨d, hd⟩
  · rintro ⟨d, rfl⟩
    exact d.validate
  · obtain ⟨d, hfirst, hd⟩ := exists_derivation hbody h
    refine ⟨d, ⟨hfirst, hd⟩, fun d' h' => ?_, ?_⟩
    · exact Derivation.unique h'.1 hfirst (h'.2.trans hd.symm)
    · rw [← hd, d.parse hfirst]
  · rintro htext d rfl
    exact d.fill_ascii htext

/-- The fill `:`, a zero flag before a width that starts with another `0`, and a precision
beyond `u16`. -/
theorem spec_parsers_agree_saturates :
    ∃ d : Derivation, d.text = strBytes ":^007.99999#x" ∧
      parseSpecBody (strBytes ":^007.99999#x") = d.spec ∧ d.spec.precision = some 65535 := by
  have hbody : closeBrace ∉ strBytes ":^007.99999#x" := by decide
  obtain ⟨-, -, hread, -⟩ := spec_parsers_agree (strBytes ":^007.99999#x") [] hbody
  obtain ⟨d, ⟨-, htext⟩, -, hspec⟩ := hread (by decide)
  refine ⟨d, htext, hspec, ?_⟩
  rw [← hspec]
  decide

end Ticklog
