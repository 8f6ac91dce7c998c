import Mathlib.Data.Nat.Basic
import Mathlib.Tactic.Ring

/-!
# Little-endian bytes

`to_le_bytes`/`from_le_bytes` at an arbitrary width: `leBytes w n` writes the low
`w` bytes of `n`, `ofLe` reads them back.
-/

namespace Ticklog.Lib

/-- `n.to_le_bytes()` for a `w`-byte integer type. -/
def leBytes : Nat → Nat → List UInt8
  | 0, _ => []
  | w + 1, n => UInt8.ofNat n :: leBytes w (n / 256)

/-- `from_le_bytes` over however many bytes are given. -/
def ofLe : List UInt8 → Nat
  | [] => 0
  | b :: bs => b.toNat + 256 * ofLe bs

@[simp] theorem leBytes_length (w n : Nat) : (leBytes w n).length = w := by
  induction w generalizing n with
  | zero => rfl
  | succ w ih => simp [leBytes, ih]

theorem ofLe_leBytes (w n : Nat) : ofLe (leBytes w n) = n % 256 ^ w := by
  induction w generalizing n with
  | zero => simp [leBytes, ofLe, Nat.mod_one]
  | succ w ih =>
    have hb : (UInt8.ofNat n).toNat = n % 256 := by simp
    rw [leBytes, ofLe, ih, hb, pow_succ, Nat.mul_comm (256 ^ w) 256, Nat.mod_mul]

theorem ofLe_lt (bs : List UInt8) : ofLe bs < 256 ^ bs.length := by
  induction bs with
  | nil => simp [ofLe]
  | cons b bs ih =>
    have hb : b.toNat < 256 := b.toNat_lt
    rw [ofLe, List.length_cons, pow_succ]
    omega

/-- Reading back an integer that fits its width. -/
theorem ofLe_leBytes_of_lt {w n : Nat} (h : n < 256 ^ w) : ofLe (leBytes w n) = n := by
  rw [ofLe_leBytes, Nat.mod_eq_of_lt h]

/-- The bytes of a packed number are those of its parts. -/
theorem leBytes_add (w k a b : Nat) (ha : a < 256 ^ w) :
    leBytes (w + k) (a + 256 ^ w * b) = leBytes w a ++ leBytes k b := by
  induction w generalizing a with
  | zero =>
    rw [pow_zero, Nat.lt_one_iff] at ha
    subst ha
    rw [Nat.zero_add, Nat.zero_add, pow_zero, Nat.one_mul]
    rfl
  | succ w ih =>
    rw [pow_succ] at ha ⊢
    have hsplit : a + 256 ^ w * 256 * b = a + 256 * (256 ^ w * b) := by ring
    have hlow : UInt8.ofNat (a + 256 * (256 ^ w * b)) = UInt8.ofNat a := by
      apply UInt8.toNat_inj.mp
      simp
    have hdiv : (a + 256 * (256 ^ w * b)) / 256 = a / 256 + 256 ^ w * b := by omega
    rw [hsplit, Nat.add_right_comm w 1 k, leBytes, hlow, hdiv, ih (a / 256) (by omega)]
    rfl

end Ticklog.Lib
