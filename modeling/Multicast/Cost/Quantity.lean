/-!
# `Multicast.Cost.Quantity`: the numbers costs are made of

The cost-weighted router is written for any kind of number with these
operations. It runs on floating-point numbers, where a comparison with
something that is not a number is false; read over the rationals the same
definitions compute exactly.
-/

set_option autoImplicit false

namespace Multicast

/-- The operations link costs need. `tolerance` is the distance below which two costs count as
equal when a path is traced back. -/
class Quantity (ν : Type) where
  ofNat : Nat → ν
  add : ν → ν → ν
  sub : ν → ν → ν
  mul : ν → ν → ν
  div : ν → ν → ν
  abs : ν → ν
  lt : ν → ν → Bool
  le : ν → ν → Bool
  eq : ν → ν → Bool
  tolerance : ν

/-- Floating-point numbers. -/
instance : Quantity Float where
  ofNat := Float.ofNat
  add := Float.add
  sub := Float.sub
  mul := Float.mul
  div := Float.div
  abs := Float.abs
  lt := fun a b => decide (a < b)
  le := fun a b => decide (a ≤ b)
  eq := fun a b => a == b
  tolerance := 1e-9

/-- Exact numbers. -/
instance : Quantity Rat where
  ofNat := fun n => (n : Rat)
  add := fun a b => a + b
  sub := fun a b => a - b
  mul := fun a b => a * b
  div := fun a b => a / b
  abs := Rat.abs
  lt := fun a b => decide (a < b)
  le := fun a b => decide (a ≤ b)
  eq := fun a b => decide (a = b)
  tolerance := 1 / 1000000000

namespace Quantity

variable {ν : Type} [Quantity ν]

/-- Nothing. -/
def zero : ν := ofNat 0

/-- The inverse of a quantity. -/
def inverse (a : ν) : ν := div (ofNat 1) a

/-- The larger of two quantities; the first one where they do not compare. -/
def larger (a b : ν) : ν := if lt a b then b else a

end Quantity

end Multicast
