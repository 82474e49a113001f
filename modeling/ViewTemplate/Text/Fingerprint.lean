/-! # Fingerprints

A 32-bit number that stands for a text: each UTF-16 unit, from the last to the first, is folded in
by a multiplication by 33 and an exclusive or. Arithmetic is modulo 2 ^ 32.
-/

namespace ViewTemplate.Text

/-- The UTF-16 units of a character. -/
def utf16Units (c : Char) : List UInt32 :=
  if c.val < 0x10000 then [c.val]
  else
    let v := c.val - 0x10000
    [0xD800 + v / 0x400, 0xDC00 + v % 0x400]

/-- One step of the fold. -/
def mixUnit (unit : UInt32) (h : UInt32) : UInt32 :=
  (h * 33) ^^^ unit

/-- Fingerprint of a sequence of units. -/
def fingerprintUnits (units : List UInt32) : UInt32 :=
  units.foldr mixUnit 5381

def fingerprint (s : String) : UInt32 :=
  fingerprintUnits (s.toList.flatMap utf16Units)

end ViewTemplate.Text
