/-
**Double-precision numbers as bit patterns.**

A number is its 64-bit pattern in the IEEE 754 binary64 format, so that every pattern, the NaNs
with their payloads included, is kept as it is.  Equality of numbers is another matter than
equality of patterns: the two zeros are equal, and a NaN equals nothing.

Main definitions:

* `Double` — a number, by its bit pattern;
* `Double.isNaN`, `Double.isFinite` — the class of a pattern;
* `Double.equal` — equality of the numbers;
* `Double.ofDecimal`, `Double.ofRatio` — the number nearest to a decimal or to a quotient.
-/

set_option relaxedAutoImplicit false
set_option autoImplicit false

namespace TransactionalTree

/-- A double-precision number, by its bit pattern. -/
structure Double where
  /-- Sign, exponent and fraction, from the highest bit down. -/
  bits : UInt64
deriving DecidableEq, Repr, Inhabited

namespace Double

/-- The pattern without its sign bit. -/
def magnitude (x : Double) : UInt64 := x.bits &&& 0x7fffffffffffffff

/-- The pattern of a NaN: the exponent is all ones and the fraction is not zero. -/
def isNaN (x : Double) : Bool := 0x7ff0000000000000 < x.magnitude

/-- Neither infinite nor a NaN. -/
def isFinite (x : Double) : Bool := x.magnitude < 0x7ff0000000000000

/-- One of the two zeros. -/
def isZero (x : Double) : Bool := x.magnitude = 0

/-- **Equality of numbers**: a NaN equals nothing, and the two zeros are equal. -/
def equal (x y : Double) : Bool :=
  !x.isNaN && !y.isNaN && (x.bits = y.bits || (x.isZero && y.isZero))

/-- The number nearest to `± digits · 10 ^ exponent`. -/
def ofDecimal (negative : Bool) (digits : Nat) (exponent : Int) : Double :=
  let size := (Float.ofScientific digits (exponent < 0) exponent.natAbs).toBits
  ⟨if negative then size ||| 0x8000000000000000 else size⟩

/-- The number nearest to the whole number `n`. -/
def ofInt (n : Int) : Double := ofDecimal (n < 0) n.natAbs 0

/-- The number nearest to the quotient of two counts, or zero when there is nothing to divide by. -/
def ofRatio (part whole : Nat) : Double :=
  if whole = 0 then ⟨0⟩ else ⟨(Float.ofNat part / Float.ofNat whole).toBits⟩

end Double

end TransactionalTree
