import Mathlib.Order.Basic
import Ticklog.Record

/-!
# Levels (`src/level.rs`)

`Error` is the most severe and the least; the derived order of the enumeration is that
of the discriminants, which are the header's level byte.
-/

namespace Ticklog

inductive Level where
  | error
  | warn
  | info
  | debug
  | trace
deriving DecidableEq, Repr

namespace Level

def toU8 : Level → Nat
  | .error => 1
  | .warn => 2
  | .info => 3
  | .debug => 4
  | .trace => 5

/-- `none` for values outside `1..=5`. -/
def fromU8 : Nat → Option Level
  | 1 => some .error
  | 2 => some .warn
  | 3 => some .info
  | 4 => some .debug
  | 5 => some .trace
  | _ => none

instance : LE Level := ⟨fun a b => a.toU8 ≤ b.toU8⟩

instance (a b : Level) : Decidable (a ≤ b) := inferInstanceAs (Decidable (a.toU8 ≤ b.toU8))

end Level

/-- The level `drain_ring_inner` reads from byte 4 of a record. -/
def levelOf (record : List UInt8) : Level :=
  (record[4]?.bind fun b => Level.fromU8 b.toNat).getD .error

end Ticklog
