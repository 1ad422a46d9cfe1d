import CodeGroom.Text.Symbol

/-!
# Bytes and symbols

Files hold bytes, and formatting works on symbols. Reading takes the longest valid UTF-8 sequence at each place as a character
and every other byte as itself; writing does the reverse, so what could not be decoded goes back to the file unchanged.
-/

namespace CodeGroom.Text

/-- The six low bits of a continuation byte. -/
def continuation? (b : UInt8) : Option Nat :=
  if 0x80 ≤ b.toNat ∧ b.toNat < 0xc0 then some (b.toNat - 0x80) else none

/-- The code point that `bits` and the next `count` continuation bytes spell. -/
def codePoint? : Nat → Nat → List UInt8 → Option Nat
  | 0, bits, _ => some bits
  | _ + 1, _, [] => none
  | count + 1, bits, b :: rest => (continuation? b).bind fun low => codePoint? count (bits * 64 + low) rest

/-- For a byte that can start a character: how many bytes follow it, its share of the bits, and the least code point that
needs so many bytes. -/
def leadByte? (b : UInt8) : Option (Nat × Nat × Nat) :=
  let n := b.toNat
  if n < 0x80 then some (0, n, 0)
  else if n < 0xc0 then none
  else if n < 0xe0 then some (1, n - 0xc0, 0x80)
  else if n < 0xf0 then some (2, n - 0xe0, 0x800)
  else if n < 0xf8 then some (3, n - 0xf0, 0x10000)
  else none

/-- The character at the start of some bytes, with the number of bytes it takes after the first. -/
def character? (b : UInt8) (rest : List UInt8) : Option (Char × Nat) := do
  let (count, bits, least) ← leadByte? b
  let n ← codePoint? count bits rest
  if least ≤ n ∧ n.isValidChar then some (Char.ofNat n, count) else none

/-- The symbols of some bytes, when the first `taken` bytes belong to a character already read. -/
def decodeFrom : Nat → List UInt8 → Text
  | _, [] => []
  | taken + 1, _ :: rest => decodeFrom taken rest
  | 0, b :: rest =>
    match character? b rest with
    | some (c, count) => .char c :: decodeFrom count rest
    | none => .byte b :: decodeFrom 0 rest

/-- The symbols of some bytes. -/
def decode (bytes : List UInt8) : Text := decodeFrom 0 bytes

/-- The bytes of some symbols. -/
def encode (t : Text) : List UInt8 :=
  t.flatMap fun
    | .char c => String.utf8EncodeChar c
    | .byte b => [b]

end CodeGroom.Text
