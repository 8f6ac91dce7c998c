import Mathlib.Data.Nat.Digits.Lemmas

/-!
# Numerals as bytes

A numeral is the list of its digits, most significant first, each written as an ASCII byte.
`readDigits` reads one in a given base; `readDigits_map` says what it makes of any list of
digits, in that base or not.
-/

namespace Ticklog.Lib

/-- The digit `d`, below 16, as a byte. -/
def digitByte (upper : Bool) (d : Nat) : UInt8 :=
  UInt8.ofNat (if d < 10 then 0x30 + d else (if upper then 0x41 else 0x61) + (d - 10))

/-- The digit a byte stands for. -/
def digitValue (upper : Bool) (c : UInt8) : Option Nat :=
  if 0x30 ≤ c ∧ c ≤ 0x39 then some (c.toNat - 0x30)
  else
    let a : UInt8 := if upper then 0x41 else 0x61
    if a ≤ c ∧ c < a + 6 then some (c.toNat - a.toNat + 10) else none

theorem digitValue_digitByte (upper : Bool) {d : Nat} (h : d < 16) :
    digitValue upper (digitByte upper d) = some d := by
  have hall : ∀ (upper : Bool) (d : Fin 16),
      digitValue upper (digitByte upper d.val) = some d.val := by decide
  exact hall upper ⟨d, h⟩

/-- The digits of each byte, all of them below `base`. -/
def digitValues (upper : Bool) (base : Nat) : List UInt8 → Option (List Nat)
  | [] => some []
  | c :: cs => do
    let d ← digitValue upper c
    if d < base then (digitValues upper base cs).map (d :: ·) else none

/-- The number a numeral denotes; it has at least one digit. -/
def readDigits (upper : Bool) (base : Nat) (bytes : List UInt8) : Option Nat :=
  if bytes = [] then none
  else (digitValues upper base bytes).map fun ds => Nat.ofDigits base ds.reverse

theorem digitValues_map (upper : Bool) (base : Nat) {ds : List Nat} (h : ∀ d ∈ ds, d < 16) :
    digitValues upper base (ds.map (digitByte upper))
      = if ∀ d ∈ ds, d < base then some ds else none := by
  induction ds with
  | nil => rfl
  | cons d ds ih =>
    have ih := ih fun e he => h e (List.mem_cons_of_mem _ he)
    rw [List.map_cons, digitValues, digitValue_digitByte upper (h d List.mem_cons_self)]
    show (if d < base then _ else none) = _
    rw [ih]
    simp only [List.forall_mem_cons]
    by_cases hd : d < base
    · rw [if_pos hd]
      by_cases hds : ∀ e ∈ ds, e < base
      · rw [if_pos hds, if_pos ⟨hd, hds⟩]
        rfl
      · rw [if_neg hds, if_neg fun hall => hds hall.2]
        rfl
    · rw [if_neg hd, if_neg fun hall => hd hall.1]

/-- Reading a list of digits in any base. -/
theorem readDigits_map (upper : Bool) (base : Nat) {ds : List Nat} (hne : ds ≠ [])
    (h : ∀ d ∈ ds, d < 16) : readDigits upper base (ds.map (digitByte upper))
      = if ∀ d ∈ ds, d < base then some (Nat.ofDigits base ds.reverse) else none := by
  unfold readDigits
  rw [if_neg (by simpa using hne), digitValues_map upper base h]
  split <;> rfl

/-- A byte that is no digit makes a text no numeral. -/
theorem digitValues_eq_none {upper : Bool} {base : Nat} {bytes : List UInt8} {c : UInt8}
    (hc : digitValue upper c = none) (hmem : c ∈ bytes) : digitValues upper base bytes = none := by
  induction bytes with
  | nil => exact absurd hmem List.not_mem_nil
  | cons e bytes ih =>
    rw [digitValues]
    rcases List.mem_cons.mp hmem with rfl | hmem
    · rw [hc]
      rfl
    · rw [ih hmem]
      cases digitValue upper e with
      | none => rfl
      | some d =>
        show (if d < base then none else none) = none
        split <;> rfl

theorem readDigits_eq_none {upper : Bool} {base : Nat} {bytes : List UInt8} {c : UInt8}
    (hc : digitValue upper c = none) (hmem : c ∈ bytes) : readDigits upper base bytes = none := by
  unfold readDigits
  rw [digitValues_eq_none hc hmem]
  split <;> rfl

/-! ## The numeral of a number -/

/-- The digits of `n`, most significant first; a single `0` for zero. -/
def numeral (base n : Nat) : List Nat := if n = 0 then [0] else (Nat.digits base n).reverse

theorem numeral_ne_nil (base n : Nat) : numeral base n ≠ [] := by
  unfold numeral
  split
  next => exact List.cons_ne_nil _ _
  next hn => simpa using Nat.digits_ne_nil_iff_ne_zero.mpr hn

theorem numeral_lt {base n : Nat} (hb : 1 < base) : ∀ d ∈ numeral base n, d < base := by
  intro d hd
  unfold numeral at hd
  split at hd
  · rw [List.mem_singleton.mp hd]
    omega
  · exact Nat.digits_lt_base hb (List.mem_reverse.mp hd)

theorem ofDigits_numeral (base n : Nat) : Nat.ofDigits base (numeral base n).reverse = n := by
  unfold numeral
  split
  next hn => simp [hn]
  next => rw [List.reverse_reverse, Nat.ofDigits_digits]

/-- `Nat.toDigits` writes the numeral. -/
theorem toDigits_eq_numeral {base : Nat} (hb : 1 < base) (n : Nat) :
    Nat.toDigits base n = (numeral base n).map Nat.digitChar := by
  induction n using Nat.strong_induction_on with
  | h n ih =>
    rw [Nat.toDigits_eq_if hb]
    split
    next hlt =>
      unfold numeral
      split
      next hn => rw [hn]; rfl
      next hn => rw [Nat.digits_of_lt base n hn hlt]; rfl
    next hle =>
      have hn : n ≠ 0 := by omega
      have hquot : n / base ≠ 0 := by
        have := Nat.div_pos (show base ≤ n by omega) (by omega)
        omega
      rw [ih (n / base) (Nat.div_lt_self (by omega) hb)]
      unfold numeral
      rw [if_neg hn, if_neg hquot, Nat.digits_eq_cons_digits_div hb hn, List.reverse_cons,
        List.map_append]
      rfl

/-- Zeros in front change nothing. -/
theorem ofDigits_zeros (base k n : Nat) :
    Nat.ofDigits base (List.replicate k 0 ++ numeral base n).reverse = n := by
  rw [List.reverse_append, List.reverse_replicate, Nat.ofDigits_append_replicate_zero,
    ofDigits_numeral]

theorem numeral_of_lt {base n : Nat} (h : n < base) : numeral base n = [n] := by
  unfold numeral
  split
  next hn => rw [hn]
  next hn => rw [Nat.digits_of_lt base n hn h]; rfl

/-- A single digit behind zeros. -/
theorem ofDigits_lead_zeros (base k n : Nat) :
    Nat.ofDigits base (List.replicate k 0 ++ [n]).reverse = n := by
  rw [List.reverse_append, List.reverse_replicate, Nat.ofDigits_append_replicate_zero]
  exact Nat.ofDigits_singleton

/-- A decimal numeral of two or more digits means something else in any other base. -/
theorem ofDigits_other {base n : Nat} (hn : 10 ≤ n) (hbase : base ≠ 10) (k : Nat) :
    Nat.ofDigits base (List.replicate k 0 ++ numeral 10 n).reverse ≠ n := by
  rw [List.reverse_append, List.reverse_replicate, Nat.ofDigits_append_replicate_zero, numeral,
    if_neg (by omega), List.reverse_reverse, Nat.digits_eq_cons_digits_div (by decide) (by omega),
    Nat.ofDigits_cons]
  have hquot : Nat.ofDigits 10 (Nat.digits 10 (n / 10)) = n / 10 := Nat.ofDigits_digits _ _
  rcases Nat.lt_or_gt_of_ne hbase with hlt | hgt
  · have hle := Nat.ofDigits_monotone (Nat.digits 10 (n / 10)) hlt.le
    rw [hquot] at hle
    have hmul : base * Nat.ofDigits base (Nat.digits 10 (n / 10)) ≤ 9 * (n / 10) :=
      Nat.mul_le_mul (by omega) hle
    omega
  · have hle := Nat.ofDigits_monotone (Nat.digits 10 (n / 10)) hgt.le
    rw [hquot] at hle
    have hmul : 11 * (n / 10) ≤ base * Nat.ofDigits base (Nat.digits 10 (n / 10)) :=
      Nat.mul_le_mul (by omega) hle
    omega

/-! ## Decimal numerals of a fixed width -/

/-- `n` in decimal, with zeros in front up to `k` digits. -/
def padded (k n : Nat) : List UInt8 :=
  (List.replicate (k - (numeral 10 n).length) 0 ++ numeral 10 n).map (digitByte false)

theorem readDigits_padded (k n : Nat) : readDigits false 10 (padded k n) = some n := by
  have hlt : ∀ d ∈ List.replicate (k - (numeral 10 n).length) 0 ++ numeral 10 n, d < 10 := by
    intro d hd
    rcases List.mem_append.mp hd with hd | hd
    · rw [(List.mem_replicate.mp hd).2]
      decide
    · exact numeral_lt (by decide) d hd
  have hne : List.replicate (k - (numeral 10 n).length) 0 ++ numeral 10 n ≠ [] := by
    intro h
    exact numeral_ne_nil 10 n (List.append_eq_nil_iff.mp h).2
  unfold padded
  rw [readDigits_map _ _ hne fun d hd => Nat.lt_trans (hlt d hd) (by decide), if_pos hlt,
    ofDigits_zeros]

theorem length_padded {k n : Nat} (hk : 0 < k) (h : n < 10 ^ k) : (padded k n).length = k := by
  have hle : (numeral 10 n).length ≤ k := by
    unfold numeral
    split
    next => exact hk
    next => rwa [List.length_reverse, Nat.digits_length_le_iff (by decide)]
  unfold padded
  rw [List.length_map, List.length_append, List.length_replicate]
  omega

/-- Fixed-width numerals are the last `k` digits of a number, if they read back as it. -/
theorem padded_digits {k n : Nat} (hk : 0 < k) (h : n < 10 ^ k) {ds : List Nat}
    (hlen : ds.length = k) (hds : ∀ d ∈ ds, d < 10) (hvalue : Nat.ofDigits 10 ds.reverse = n) :
    ds.map (digitByte false) = padded k n := by
  have hlen' : (List.replicate (k - (numeral 10 n).length) 0 ++ numeral 10 n).length = k := by
    have := length_padded hk h
    unfold padded at this
    rwa [List.length_map] at this
  unfold padded
  congr 1
  rw [← List.reverse_inj]
  refine Nat.ofDigits_inj_of_len_eq (b := 10) (by decide) ?_ ?_ ?_ ?_
  · rw [List.length_reverse, List.length_reverse, hlen, hlen']
  · exact fun d hd => hds d (List.mem_reverse.mp hd)
  · intro d hd
    rcases List.mem_append.mp (List.mem_reverse.mp hd) with hd | hd
    · rw [(List.mem_replicate.mp hd).2]
      decide
    · exact numeral_lt (by decide) d hd
  · rw [hvalue, ofDigits_zeros]

end Ticklog.Lib
