/-!
Integers that fit in words of 64 bits, with or without sign.
-/

namespace FieldQuery.Word

/-- The first integer beyond the signed words. -/
abbrev signedEnd : Nat := 9223372036854775808

/-- The first integer beyond the words without sign. -/
abbrev unsignedEnd : Nat := 18446744073709551616

/-- The signed word equal to an integer, if there is one. -/
def int64? (n : Int) : Option Int64 :=
  if -signedEnd ≤ n ∧ n < signedEnd then some (Int64.ofInt n) else none

end FieldQuery.Word
