/-!
# Double-precision numbers by their bits

A component of a constant is kept as the 64 bits of a double-precision number, so that constants
can be compared and hashed. The lower 63 bits are the magnitude. Magnitudes of finite numbers are
ordered as the numbers are, and `units` gives the number itself, counted in steps of the smallest
positive one.
-/

namespace Shading

/-- A double-precision number, given by its bits. -/
structure Binary64 where
  /-- Sign, exponent and fraction, from the highest bit to the lowest. -/
  bits : UInt64
  deriving DecidableEq, Repr, Inhabited

namespace Binary64

/-- The place of the sign bit, `2⁶³`. -/
def signPlace : Nat :=
  0x8000000000000000

/-- The place of the lowest bit of the exponent, `2⁵²`. -/
def exponentPlace : Nat :=
  0x10000000000000

/-- The bits of a floating-point value. -/
def ofFloat (value : Float) : Binary64 :=
  ⟨value.toBits⟩

/-- The floating-point value of the bits. -/
def toFloat (number : Binary64) : Float :=
  .ofBits number.bits

/-- Whether the sign bit is set. -/
def isNegative (number : Binary64) : Bool :=
  signPlace ≤ number.bits.toNat

/-- The bits below the sign. -/
def magnitude (number : Binary64) : Nat :=
  number.bits.toNat % signPlace

/-- The magnitude of the infinities, which is the least one of no finite number. -/
def infinityMagnitude : Nat :=
  0x7FF0000000000000

/-- Whether the number is neither infinite nor undefined. -/
def isFinite (number : Binary64) : Bool :=
  number.magnitude < infinityMagnitude

/-- Whether the number is undefined. -/
def isNaN (number : Binary64) : Bool :=
  infinityMagnitude < number.magnitude

/-- Positive zero. -/
def zero : Binary64 :=
  ⟨0⟩

/-- Negative zero. -/
def negativeZero : Binary64 :=
  ⟨0x8000000000000000⟩

/-- Gives both zeros the bits of the positive one and keeps every other number. -/
def normalize (number : Binary64) : Binary64 :=
  if number.magnitude = 0 then zero else number

/-- The number of a finite magnitude, counted in steps of the smallest positive number `2⁻¹⁰⁷⁴`. -/
def units (magnitude : Nat) : Nat :=
  let exponent := magnitude / exponentPlace
  let fraction := magnitude % exponentPlace
  if exponent = 0 then fraction else (exponentPlace + fraction) * Nat.pow 2 (exponent - 1)

/-- Whether a finite magnitude is a whole number. -/
def isIntegral (magnitude : Nat) : Bool :=
  units magnitude % Nat.pow 2 1074 = 0

/-- Normalizing twice is normalizing once. -/
@[simp]
theorem normalize_normalize (number : Binary64) :
    number.normalize.normalize = number.normalize := by
  by_cases zeroMagnitude : number.magnitude = 0
  · have normal : number.normalize = zero := if_pos zeroMagnitude
    rw [normal]
    rfl
  · have normal : number.normalize = number := if_neg zeroMagnitude
    rw [normal, normal]

end Binary64

end Shading
