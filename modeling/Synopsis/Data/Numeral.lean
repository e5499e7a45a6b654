/-! # Decimal numerals

Digits and the range of doubles, as far as both data formats need them.
-/

namespace Synopsis.Numeral

/-- The least number of 64 bits with a sign. -/
def least : Int := -9223372036854775808

/-- The greatest number of 64 bits with a sign. -/
def greatest : Int := 9223372036854775807

/-- The greatest number of 64 bits without a sign. -/
def greatestUnsigned : Int := 18446744073709551615

/-- The number that decimal digits stand for, first digit first. -/
def natOfDigits (digits : List Char) : Nat :=
  digits.foldl (fun n c => 10 * n + (c.toNat - '0'.toNat)) 0

/-- `significand * 10 ^ scale` rounds to a finite double. -/
def isFinite (significand : Nat) (scale : Int) : Bool :=
  let magnitude := scale + (toString significand).length
  if significand = 0 || magnitude < 309 then true
  else if magnitude > 309 then false
  else
    let limit := (1 <<< 1024) - (1 <<< 970)
    if scale < 0 then significand < limit * Nat.pow 10 (-scale).toNat
    else significand * Nat.pow 10 scale.toNat < limit

end Synopsis.Numeral
