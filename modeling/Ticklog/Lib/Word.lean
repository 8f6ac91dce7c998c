import Mathlib.Data.Nat.Bitwise
import Mathlib.Tactic.Ring

/-!
# 64-bit words as natural numbers

`u64`/`usize` values are naturals below `2^64`; the wrapping operations carry the
`% 2^64` explicitly. Power-of-two masks are turned into `%` and `/` once, here,
so that ring code written with `&` is reasoned about with linear arithmetic.
-/

namespace Ticklog.Lib

/-- One past `u64::MAX`. -/
def wordSize : Nat := 2 ^ 64

/-- `a.wrapping_add(b)` on `u64`. -/
def wrappingAdd (a b : Nat) : Nat := (a + b) % wordSize

/-- `a.wrapping_sub(b)` on `u64`. -/
def wrappingSub (a b : Nat) : Nat := (a + (wordSize - b % wordSize)) % wordSize

/-- `!a` on `u64`. -/
def wordNot (a : Nat) : Nat := wordSize - 1 - a

theorem wrappingAdd_of_lt {a b : Nat} (h : a + b < wordSize) : wrappingAdd a b = a + b :=
  Nat.mod_eq_of_lt h

/-- The wrapping difference of a wrapping sum is the true difference, as long as
that difference is a word: `(head + needed) - tail` survives the wrap of `head`. -/
theorem wrappingSub_wrappingAdd {a b c : Nat} (hc : c ≤ a + b) (hc' : c < wordSize)
    (hd : a + b - c < wordSize) : wrappingSub (wrappingAdd a b) c = a + b - c := by
  unfold wrappingSub wrappingAdd
  rw [Nat.mod_eq_of_lt hc', Nat.mod_add_mod,
    show a + b + (wordSize - c) = a + b - c + wordSize by omega, Nat.add_mod_right,
    Nat.mod_eq_of_lt hd]

/-- Masking with `2^k - 1` is the remainder. -/
theorem and_mask (x k : Nat) : x &&& (2 ^ k - 1) = x % 2 ^ k :=
  Nat.and_two_pow_sub_one_eq_mod x k

/-- Masking with `!(2^k - 1)` rounds down to a multiple of `2^k`. -/
theorem and_wordNot_mask {x k : Nat} (hx : x < wordSize) (hk : k ≤ 64) :
    x &&& wordNot (2 ^ k - 1) = x / 2 ^ k * 2 ^ k := by
  have hpow : 2 ^ k - 1 < 2 ^ 64 :=
    Nat.lt_of_lt_of_le (Nat.sub_lt (Nat.two_pow_pos k) Nat.one_pos)
      (Nat.pow_le_pow_right (by decide) hk)
  have hx' : x < 2 ^ 64 := hx
  have hnot : wordNot (2 ^ k - 1) = 2 ^ 64 - (2 ^ k - 1 + 1) := by
    unfold wordNot wordSize
    omega
  rw [hnot, ← Nat.shiftRight_eq_div_pow, ← Nat.shiftLeft_eq]
  apply Nat.eq_of_testBit_eq
  intro i
  rw [Nat.testBit_and, Nat.testBit_two_pow_sub_succ hpow, Nat.testBit_two_pow_sub_one,
    Nat.testBit_shiftLeft, Nat.testBit_shiftRight]
  by_cases hik : i < k
  · simp [hik, Nat.not_le.mpr hik]
  · have hki : k ≤ i := Nat.le_of_not_lt hik
    by_cases hi : i < 64
    · simp [hik, hki, hi]
    · have hbit : x.testBit i = false :=
        Nat.testBit_lt_two_pow
          (Nat.lt_of_lt_of_le hx' (Nat.pow_le_pow_right (by decide) (by omega)))
      simp [hi, hki, hbit]

/-- A field put in above the low `k` bits is added. -/
theorem or_shiftLeft {a k : Nat} (ha : a < 2 ^ k) (b : Nat) : a ||| (b <<< k) = a + 2 ^ k * b := by
  rw [Nat.lor_comm, ← Nat.shiftLeft_add_eq_or_of_lt ha, Nat.shiftLeft_eq, Nat.mul_comm,
    Nat.add_comm]

/-- A power of two below the word size divides it, so `% 2^64` is invisible
through a ring mask. -/
theorem mod_wordSize_mod {x k : Nat} (hk : k ≤ 64) : x % wordSize % 2 ^ k = x % 2 ^ k :=
  Nat.mod_mod_of_dvd x (pow_dvd_pow 2 hk)

end Ticklog.Lib
