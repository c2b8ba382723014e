/-!
# Words of 64 bits

How many there are, which integers a signed one can hold, and powers of natural numbers.
-/
namespace Wiring

abbrev power (base exponent : Nat) : Nat := Nat.pow base exponent

/-- The number of words. -/
def wordCount : Nat := 18446744073709551616

/-- The number of words that stand for negative integers. -/
def negativeCount : Nat := 9223372036854775808

/-- The signed word of an integer in range. -/
def int64? (i : Int) : Option Int64 :=
  if -9223372036854775808 ≤ i ∧ i ≤ 9223372036854775807 then some (Int64.ofInt i) else none

end Wiring
