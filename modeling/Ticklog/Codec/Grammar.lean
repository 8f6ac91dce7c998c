import Mathlib.Data.List.Basic
import Mathlib.Data.List.TakeWhile
import Ticklog.Codec.FormatSpec

/-!
# What a format string says

`Reads fmt ps` is the grammar of format strings: `ps` is the sequence of literal bytes,
escapes undone, and placeholder contents that `fmt` denotes. A string denotes at most one
sequence (`Reads.unique`). The compile-time validator accepts only strings that denote
one, and counts its placeholders (`validateFmt_reads`); the drain's walk is proved against
the same relation, so the two scanners meet here.
-/

namespace Ticklog

/-- A part of a format string. -/
inductive Piece where
  /-- A literal byte. -/
  | text (c : UInt8)
  /-- A placeholder, with what stands between its braces. -/
  | place (content : List UInt8)
deriving DecidableEq, Repr

inductive Reads : List UInt8 → List Piece → Prop where
  | nil : Reads [] []
  | openEscape {rest : List UInt8} {ps : List Piece} :
      Reads rest ps → Reads (openBrace :: openBrace :: rest) (.text openBrace :: ps)
  | closeEscape {rest : List UInt8} {ps : List Piece} :
      Reads rest ps → Reads (closeBrace :: closeBrace :: rest) (.text closeBrace :: ps)
  | literal {c : UInt8} {rest : List UInt8} {ps : List Piece} :
      c ≠ openBrace → c ≠ closeBrace → Reads rest ps → Reads (c :: rest) (.text c :: ps)
  | placeholder {content rest : List UInt8} {ps : List Piece} :
      closeBrace ∉ content → at? openBrace (content ++ closeBrace :: rest) = false →
      Reads rest ps →
      Reads (openBrace :: (content ++ closeBrace :: rest)) (.place content :: ps)

/-- The number of placeholders. -/
def placeholders : List Piece → Nat
  | [] => 0
  | .text _ :: ps => placeholders ps
  | .place _ :: ps => placeholders ps + 1

theorem openBrace_ne : openBrace ≠ closeBrace := by decide

@[simp] theorem at?_cons (c d : UInt8) (rest : List UInt8) :
    at? c (d :: rest) = decide (d = c) := by
  unfold at?
  rw [List.head?_cons]
  by_cases h : d = c <;> simp [h]

@[simp] theorem at?_nil (c : UInt8) : at? c [] = false := rfl

theorem at?_iff {c : UInt8} {rest : List UInt8} :
    at? c rest = true ↔ ∃ tail, rest = c :: tail := by
  cases rest with
  | nil => simp
  | cons d tail => simp

/-! ## One reading -/

/-- The content of a placeholder ends at the first closing brace. -/
theorem content_unique {a b rest rest' : List UInt8} (ha : closeBrace ∉ a) (hb : closeBrace ∉ b)
    (h : a ++ closeBrace :: rest = b ++ closeBrace :: rest') : a = b ∧ rest = rest' := by
  induction a generalizing b with
  | nil =>
    cases b with
    | nil => exact ⟨rfl, (List.cons.inj h).2⟩
    | cons d b =>
      exact absurd (List.mem_cons.mpr (Or.inl (List.cons.inj h).1)) hb
  | cons c a ih =>
    cases b with
    | nil => exact absurd (List.mem_cons.mpr (Or.inl (List.cons.inj h).1.symm)) ha
    | cons d b =>
      obtain ⟨rfl, htail⟩ := List.cons.inj h
      obtain ⟨rfl, hrest⟩ := ih (fun hm => ha (List.mem_cons_of_mem _ hm))
        (fun hm => hb (List.mem_cons_of_mem _ hm)) htail
      exact ⟨rfl, hrest⟩

/-- Scanning for the closing brace finds where the content ends. -/
theorem takeWhile_content {content : List UInt8} (h : closeBrace ∉ content)
    (rest : List UInt8) :
    (content ++ closeBrace :: rest).takeWhile (· != closeBrace) = content
      ∧ ((content ++ closeBrace :: rest).dropWhile (· != closeBrace)).tail = rest := by
  have hall : ∀ c ∈ content, (c != closeBrace) = true := by
    intro c hc
    exact bne_iff_ne.mpr fun heq => h (heq ▸ hc)
  constructor
  · rw [List.takeWhile_append_of_pos hall]
    simp
  · rw [List.dropWhile_append_of_pos hall]
    simp

theorem Reads.unique {fmt : List UInt8} {ps ps' : List Piece} (h : Reads fmt ps)
    (h' : Reads fmt ps') : ps = ps' := by
  induction h generalizing ps' with
  | nil =>
    cases h'
    rfl
  | @openEscape rest ps _ ih =>
    generalize hfmt : openBrace :: openBrace :: rest = fmt at h'
    cases h' with
    | nil => cases hfmt
    | openEscape h' =>
      cases hfmt
      rw [ih h']
    | closeEscape h' => exact absurd (List.cons.inj hfmt).1 openBrace_ne
    | literal hne => exact absurd (List.cons.inj hfmt).1.symm hne
    | placeholder _ hat h' =>
      rw [← (List.cons.inj hfmt).2, at?_cons] at hat
      simp at hat
  | closeEscape _ ih =>
    cases h' with
    | closeEscape h' => rw [ih h']
    | literal _ hne => exact absurd rfl hne
  | literal ho hc _ ih =>
    cases h' with
    | openEscape => exact absurd rfl ho
    | closeEscape => exact absurd rfl hc
    | literal _ _ h' => rw [ih h']
    | placeholder => exact absurd rfl ho
  | @placeholder content rest ps hcontent hat _ ih =>
    generalize hfmt : openBrace :: (content ++ closeBrace :: rest) = fmt at h'
    cases h' with
    | nil => cases hfmt
    | openEscape h' =>
      rw [(List.cons.inj hfmt).2, at?_cons] at hat
      simp at hat
    | closeEscape h' => exact absurd (List.cons.inj hfmt).1 openBrace_ne
    | literal hne => exact absurd (List.cons.inj hfmt).1.symm hne
    | placeholder hcontent' _ h' =>
      obtain ⟨rfl, rfl⟩ := content_unique hcontent hcontent' (List.cons.inj hfmt).2
      rw [ih h']

/-! ## The validator's scan -/

/-- `rest'` is a later position, and no closing brace lies between. -/
def Skips (rest rest' : List UInt8) : Prop :=
  ∃ skipped, rest = skipped ++ rest' ∧ closeBrace ∉ skipped

namespace Skips

theorem refl (rest : List UInt8) : Skips rest rest := ⟨[], rfl, List.not_mem_nil⟩

theorem trans {a b c : List UInt8} (h : Skips a b) (h' : Skips b c) : Skips a c := by
  obtain ⟨p, rfl, hp⟩ := h
  obtain ⟨q, rfl, hq⟩ := h'
  refine ⟨p ++ q, (List.append_assoc _ _ _).symm, fun hm => ?_⟩
  rcases List.mem_append.mp hm with hm | hm
  · exact hp hm
  · exact hq hm

theorem cons {c : UInt8} {rest : List UInt8} (h : c ≠ closeBrace) : Skips (c :: rest) rest :=
  ⟨[c], rfl, fun hm => h (List.mem_singleton.mp hm).symm⟩

theorem dropWhile {p : UInt8 → Bool} (hp : p closeBrace = false) (rest : List UInt8) :
    Skips rest (rest.dropWhile p) := by
  refine ⟨rest.takeWhile p, (List.takeWhile_append_dropWhile).symm, fun hm => ?_⟩
  have := List.mem_takeWhile_imp hm
  rw [hp] at this
  cases this

/-- A flag that may be present. -/
theorem flag {c : UInt8} (h : c ≠ closeBrace) (rest : List UInt8) :
    Skips rest (if at? c rest then rest.tail else rest) := by
  split
  next hat =>
    obtain ⟨tail, rfl⟩ := at?_iff.mp hat
    exact .cons h
  next => exact .refl rest

end Skips

theorem isAlignChar_ne {c : UInt8} (h : isAlignChar c = true) : c ≠ closeBrace := by
  rintro rfl
  exact absurd h (by decide)

theorem isTypeChar_ne {c : UInt8} (h : isTypeChar c = true) : c ≠ closeBrace := by
  rintro rfl
  exact absurd h (by decide)

theorem skipFillAlign_skips {rest rest' : List UInt8} (hopen : at? closeBrace rest = false)
    (h : skipFillAlign rest = .ok rest') : Skips rest rest' := by
  unfold skipFillAlign at h
  split at h
  next a b tail =>
    have ha : a ≠ closeBrace := by simpa using hopen
    split at h
    next hb =>
      split at h
      · cases h
        exact (Skips.cons ha).trans (.cons (isAlignChar_ne hb))
      · cases h
    next =>
      split at h
      · cases h
        exact .cons ha
      · cases h
        exact .refl _
  next a =>
    have ha : a ≠ closeBrace := by simpa using hopen
    split at h
    · cases h
      exact .cons ha
    · cases h
      exact .refl _
  next =>
    cases h
    exact .refl _

theorem skipPrecision_skips {rest rest' : List UInt8} (h : skipPrecision rest = .ok rest') :
    Skips rest rest' := by
  unfold skipPrecision at h
  split at h
  next hat =>
    obtain ⟨tail, rfl⟩ := at?_iff.mp hat
    split at h
    · cases h
      exact (Skips.cons (by decide)).trans (.dropWhile (by decide) tail)
    · cases h
  next =>
    cases h
    exact .refl _

theorem skipType_skips {rest rest' : List UInt8} (h : skipType rest = .ok rest') :
    Skips rest rest' := by
  unfold skipType at h
  split at h
  next =>
    cases h
    exact .refl _
  next c tail =>
    split at h
    next hc =>
      cases h
      exact .cons (isTypeChar_ne hc)
    next =>
      split at h
      · cases h
        exact .refl _
      · split at h <;> cases h

/-- Either the spec ends here, or the scan goes on from a position that is open. -/
theorem unlessClosed_ok {rest rest' : List UInt8}
    {k : List UInt8 → Except FmtError (List UInt8)} (h : unlessClosed rest k = .ok rest') :
    rest' = rest ∨ at? closeBrace rest = false ∧ k rest = .ok rest' := by
  unfold unlessClosed at h
  split at h
  next =>
    cases h
    exact Or.inl rfl
  next hopen => exact Or.inr ⟨Bool.eq_false_iff.mpr hopen, h⟩

theorem bind_ok {α β : Type} {x : Except FmtError α} {f : α → Except FmtError β} {b : β}
    (h : x >>= f = .ok b) : ∃ a, x = .ok a ∧ f a = .ok b := by
  cases x with
  | error e => cases h
  | ok a => exact ⟨a, rfl, h⟩

/-- `parse_spec_const` skips no closing brace. -/
theorem parseSpecConst_skips {rest rest' : List UInt8} (h : parseSpecConst rest = .ok rest') :
    Skips rest rest' := by
  unfold parseSpecConst at h
  split at h
  next => cases h
  next a tail =>
    rcases unlessClosed_ok h with rfl | ⟨hopen, h⟩
    · exact .refl _
    obtain ⟨r₁, hfill, h⟩ := bind_ok h
    refine (skipFillAlign_skips hopen hfill).trans ?_
    rcases unlessClosed_ok h with rfl | ⟨-, h⟩
    · exact .refl _
    refine (Skips.flag (c := zeroDigit) (by decide) r₁).trans ?_
    rcases unlessClosed_ok h with rfl | ⟨-, h⟩
    · exact .refl _
    refine (Skips.dropWhile (p := isDigit) (by decide) _).trans ?_
    rcases unlessClosed_ok h with rfl | ⟨-, h⟩
    · exact .refl _
    obtain ⟨r₂, hprec, h⟩ := bind_ok h
    refine (skipPrecision_skips hprec).trans ?_
    rcases unlessClosed_ok h with rfl | ⟨-, h⟩
    · exact .refl _
    refine (Skips.flag (c := hash) (by decide) r₂).trans ?_
    rcases unlessClosed_ok h with rfl | ⟨-, h⟩
    · exact .refl _
    exact skipType_skips h

theorem validateSpec_skips {rest rest' : List UInt8} (h : validateSpec rest = .ok rest') :
    Skips rest rest' := by
  unfold validateSpec at h
  split at h
  next => cases h
  next c tail =>
    split at h
    next hc => exact (Skips.cons (by rw [hc]; decide)).trans (parseSpecConst_skips h)
    next =>
      cases h
      exact .refl _

/-- An accepted placeholder ends at its first closing brace. -/
theorem validatePlaceholder_reads {rest rest' : List UInt8}
    (h : validatePlaceholder rest = .ok rest') :
    ∃ content, rest = content ++ closeBrace :: rest' ∧ closeBrace ∉ content := by
  unfold validatePlaceholder at h
  simp only at h
  split at h
  next => cases h
  next =>
    obtain ⟨r, hspec, hclose⟩ := bind_ok h
    have hname : Skips rest (rest.dropWhile fun c => c != colon && c != closeBrace) :=
      .dropWhile (by decide) rest
    obtain ⟨content, hrest, hcontent⟩ := hname.trans (validateSpec_skips hspec)
    unfold expectClose at hclose
    split at hclose
    next => cases hclose
    next c tail =>
      split at hclose
      next hc =>
        cases hclose
        exact ⟨content, hc ▸ hrest, hcontent⟩
      next => cases hclose

theorem validateFrom_reads {fuel : Nat} {rest : List UInt8} {count n : Nat}
    (h : validateFrom fuel rest count = .ok n) :
    ∃ ps, Reads rest ps ∧ n = count + placeholders ps := by
  induction fuel generalizing rest count with
  | zero =>
    cases rest with
    | nil =>
      cases h
      exact ⟨[], .nil, rfl⟩
    | cons c rest => cases h
  | succ fuel ih =>
    cases rest with
    | nil =>
      cases h
      exact ⟨[], .nil, rfl⟩
    | cons c rest =>
      rw [validateFrom] at h
      split at h
      next hc =>
        subst hc
        split at h
        next hat =>
          obtain ⟨tail, rfl⟩ := at?_iff.mp hat
          obtain ⟨ps, hps, hn⟩ := ih h
          exact ⟨_, .openEscape hps, hn⟩
        next hat =>
          obtain ⟨rest', hplace, hnext⟩ := bind_ok h
          obtain ⟨content, rfl, hcontent⟩ := validatePlaceholder_reads hplace
          obtain ⟨ps, hps, hn⟩ := ih hnext
          refine ⟨_, .placeholder hcontent (Bool.eq_false_iff.mpr hat) hps, ?_⟩
          rw [placeholders]
          omega
      next hne =>
        split at h
        next hc =>
          subst hc
          split at h
          next hat =>
            obtain ⟨tail, rfl⟩ := at?_iff.mp hat
            obtain ⟨ps, hps, hn⟩ := ih h
            exact ⟨_, .closeEscape hps, hn⟩
          next => cases h
        next hne' =>
          obtain ⟨ps, hps, hn⟩ := ih h
          exact ⟨_, .literal hne hne' hps, hn⟩

/-- What the validator accepts denotes a sequence with as many placeholders. -/
theorem validateFmt_reads {fmt : List UInt8} {n : Nat} (h : validateFmt fmt = .ok n) :
    ∃ ps, Reads fmt ps ∧ placeholders ps = n := by
  obtain ⟨ps, hps, hn⟩ := validateFrom_reads h
  exact ⟨ps, hps, by omega⟩

end Ticklog
