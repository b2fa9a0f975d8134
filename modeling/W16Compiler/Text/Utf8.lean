/-!
# Bytes and characters

UTF-8, read leniently: the longest start of a character that cannot be completed becomes one
replacement character, and so does a byte that starts no character.
-/

namespace W16Compiler.Text

def encodeUtf8 (c : Char) : List UInt8 := (String.singleton c).toUTF8.toList

def replacement : Char := Char.ofNat 0xFFFD

/-- What may follow a lead byte: the range of the next byte, how many more follow, and the bits of
the lead byte. -/
def utf8Lead (b : Nat) : Option (Nat × Nat × Nat × Nat) :=
  if 0xC2 ≤ b && b ≤ 0xDF then some (0x80, 0xBF, 0, b - 0xC0)
  else if b == 0xE0 then some (0xA0, 0xBF, 1, 0)
  else if b == 0xED then some (0x80, 0x9F, 1, 0xD)
  else if 0xE1 ≤ b && b ≤ 0xEF then some (0x80, 0xBF, 1, b - 0xE0)
  else if b == 0xF0 then some (0x90, 0xBF, 2, 0)
  else if 0xF1 ≤ b && b ≤ 0xF3 then some (0x80, 0xBF, 2, b - 0xF0)
  else if b == 0xF4 then some (0x80, 0x8F, 2, 4)
  else none

/-- A character being read: the range of its next byte, the bytes after that one, its bits so far. -/
structure PartialChar where
  low : Nat
  high : Nat
  more : Nat
  bits : Nat

def decodeUtf8From : Option PartialChar → List UInt8 → List Char
  | none, [] => []
  | some _, [] => [replacement]
  | none, b :: rest =>
    if b.toNat < 0x80 then Char.ofNat b.toNat :: decodeUtf8From none rest
    else match utf8Lead b.toNat with
      | some (low, high, more, bits) => decodeUtf8From (some ⟨low, high, more, bits⟩) rest
      | none => replacement :: decodeUtf8From none rest
  | some p, b :: rest =>
    if p.low ≤ b.toNat && b.toNat ≤ p.high then
      let bits := p.bits * 64 + (b.toNat - 0x80)
      match p.more with
      | 0 => Char.ofNat bits :: decodeUtf8From none rest
      | more + 1 => decodeUtf8From (some ⟨0x80, 0xBF, more, bits⟩) rest
    else if b.toNat < 0x80 then replacement :: Char.ofNat b.toNat :: decodeUtf8From none rest
    else match utf8Lead b.toNat with
      | some (low, high, more, bits) =>
        replacement :: decodeUtf8From (some ⟨low, high, more, bits⟩) rest
      | none => replacement :: replacement :: decodeUtf8From none rest

def decodeUtf8 (bytes : List UInt8) : String := String.ofList (decodeUtf8From none bytes)

end W16Compiler.Text
