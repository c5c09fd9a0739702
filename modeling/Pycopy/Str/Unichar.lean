import Mathlib.Data.Nat.Basic

/-!
# Characters

The classes of characters of `unicode.c`, which are defined for ASCII only, and the way in which
characters are added to a `vstr_t`.
-/

namespace Pycopy

/-- `unichar_isspace` -/
def unicharIsspace (c : UInt8) : Bool := (9 ≤ c && c ≤ 13) || c == 32

/-- `unichar_isalpha` -/
def unicharIsalpha (c : UInt8) : Bool := (65 ≤ c && c ≤ 90) || (97 ≤ c && c ≤ 122)

/-- `unichar_isdigit` -/
def unicharIsdigit (c : UInt8) : Bool := 48 ≤ c && c ≤ 57

/-- `unichar_isxdigit` -/
def unicharIsxdigit (c : UInt8) : Bool :=
  unicharIsdigit c || (65 ≤ c && c ≤ 70) || (97 ≤ c && c ≤ 102)

/-- `unichar_xdigit_value` -/
def unicharXdigitValue (c : UInt8) : ℕ :=
  let n := c.toNat - 48
  -- the case of a letter is the bit 32
  if 9 < n then n - (n &&& 32) - (65 - (57 + 1)) else n

/-- What `vstr_add_char` adds for a character, if strings are UTF-8 -/
def vstrAddChar (c : ℕ) : List UInt8 :=
  if c < 0x80 then [UInt8.ofNat c]
  else if c < 0x800 then [UInt8.ofNat (c >>> 6 ||| 0xC0), UInt8.ofNat (c &&& 0x3F ||| 0x80)]
  else if c < 0x10000 then
    [UInt8.ofNat (c >>> 12 ||| 0xE0), UInt8.ofNat (c >>> 6 &&& 0x3F ||| 0x80),
      UInt8.ofNat (c &&& 0x3F ||| 0x80)]
  else
    [UInt8.ofNat (c >>> 18 ||| 0xF0), UInt8.ofNat (c >>> 12 &&& 0x3F ||| 0x80),
      UInt8.ofNat (c >>> 6 &&& 0x3F ||| 0x80), UInt8.ofNat (c &&& 0x3F ||| 0x80)]

end Pycopy
