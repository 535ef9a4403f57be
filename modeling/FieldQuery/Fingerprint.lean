/-!
Fingerprints of schema texts: a rolling hash over UTF-16 code units in signed
32-bit arithmetic, written in decimal. A fingerprint is a cache key and no
proof of identity.
-/

namespace FieldQuery.Fingerprint

/-- UTF-16 code units of a character. -/
def units (c : Char) : List Nat :=
  let code := c.toNat
  if code < 0x10000 then [code]
  else [0xd800 + (code - 0x10000) / 0x400, 0xdc00 + (code - 0x10000) % 0x400]

def units16 (text : List Char) : List Nat := text.flatMap units

/-- Thirty-one times the hash so far, plus the unit, modulo `2 ^ 32`. -/
def step (hash : Int32) (unit : Nat) : Int32 := (hash <<< 5) - hash + Int32.ofNat unit

def hash (text : String) : Int32 := (units16 text.toList).foldl step 0

end FieldQuery.Fingerprint

namespace FieldQuery

/-- Fingerprint under which a schema text is stored. -/
def fingerprint (text : String) : String := toString (Fingerprint.hash text).toInt

end FieldQuery
