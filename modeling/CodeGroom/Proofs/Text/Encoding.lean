import CodeGroom.Text.Encoding
import Mathlib.Tactic.SplitIfs

/-!
# Reading bytes and writing them back

Whatever the bytes of a file are, writing the symbols read from them gives the same bytes: a character is written as the very
sequence it was read from, and a byte that belongs to no character as itself.
-/

namespace CodeGroom.Text

@[simp] theorem encode_nil : encode [] = [] := rfl

theorem encode_append (t u : Text) : encode (t ++ u) = encode t ++ encode u := by
  simp [encode]

namespace EncodingAux

/-- The low bits of a continuation byte give the byte back. -/
theorem continuation?_eq_some {b : UInt8} {low : Nat} (h : continuation? b = some low) :
    low < 64 ∧ b = UInt8.ofNat (low + 0x80) := by
  unfold continuation? at h
  split_ifs at h with hb
  injection h with h
  refine ⟨by omega, ?_⟩
  rw [← h, Nat.sub_add_cancel hb.1, UInt8.ofNat_toNat]

/-- The code point that one more continuation byte spells. -/
theorem codePoint?_succ {count bits n : Nat} {rest : List UInt8} (h : codePoint? (count + 1) bits rest = some n) :
    ∃ low tail, low < 64 ∧ rest = UInt8.ofNat (low + 0x80) :: tail ∧ codePoint? count (bits * 64 + low) tail = some n := by
  cases rest with
  | nil => cases h
  | cons b tail =>
    obtain ⟨low, hlow, htail⟩ := Option.bind_eq_some_iff.1 h
    obtain ⟨hlt, rfl⟩ := continuation?_eq_some hlow
    exact ⟨low, tail, hlt, rfl, htail⟩

/-- A byte is the byte of its number. -/
theorem eq_ofNat_toNat (b : UInt8) : b = UInt8.ofNat b.toNat := UInt8.ofNat_toNat.symm

/-- The code point of a character made from a valid code point. -/
theorem toNat_val_ofNat {n : Nat} (h : n.isValidChar) : (Char.ofNat n).val.toNat = n := by
  rw [Char.ofNat, dif_pos h]
  rfl

end EncodingAux

open EncodingAux

/-- A character is written as the bytes it was read from. -/
theorem utf8EncodeChar_of_character? {b : UInt8} {rest : List UInt8} {c : Char} {count : Nat}
    (h : character? b rest = some (c, count)) : String.utf8EncodeChar c = b :: rest.take count := by
  obtain ⟨⟨k, bits, least⟩, hlead, hspell⟩ := Option.bind_eq_some_iff.1 h
  obtain ⟨n, hn, hvalid⟩ := Option.bind_eq_some_iff.1 hspell
  simp only [Option.ite_none_right_eq_some, Option.some.injEq, Prod.mk.injEq] at hvalid
  obtain ⟨⟨hle, hv⟩, rfl, rfl⟩ := hvalid
  clear h hspell
  have hb := eq_ofNat_toNat b
  have hb' := b.toNat_lt
  unfold leadByte? at hlead
  simp only at hlead
  -- One case for each length of a sequence; the bounds say which branch of the encoder writes it.
  split_ifs at hlead with h1 h2 h3 h4 h5
  · simp only [Option.some.injEq, Prod.mk.injEq] at hlead
    obtain ⟨rfl, rfl, rfl⟩ := hlead
    obtain rfl : b.toNat = n := Option.some.inj hn
    simp only [String.utf8EncodeChar, toNat_val_ofNat hv, if_pos (show b.toNat ≤ 0x7f by omega), List.take_zero, ← hb]
  · simp only [Option.some.injEq, Prod.mk.injEq] at hlead
    obtain ⟨rfl, rfl, rfl⟩ := hlead
    obtain ⟨l1, t1, hl1, rfl, hn1⟩ := codePoint?_succ hn
    obtain rfl : (b.toNat - 0xc0) * 64 + l1 = n := Option.some.inj hn1
    simp only [String.utf8EncodeChar, toNat_val_ofNat hv, List.take_succ_cons, List.take_zero]
    rw [if_neg (by omega), if_pos (by omega), hb]
    congr 2
    · rw [UInt8.toNat_ofNat_of_lt' hb']; omega
    · congr 1; omega
  · simp only [Option.some.injEq, Prod.mk.injEq] at hlead
    obtain ⟨rfl, rfl, rfl⟩ := hlead
    obtain ⟨l1, t1, hl1, rfl, hn1⟩ := codePoint?_succ hn
    obtain ⟨l2, t2, hl2, rfl, hn2⟩ := codePoint?_succ hn1
    obtain rfl : ((b.toNat - 0xe0) * 64 + l1) * 64 + l2 = n := Option.some.inj hn2
    simp only [String.utf8EncodeChar, toNat_val_ofNat hv, List.take_succ_cons, List.take_zero]
    rw [if_neg (by omega), if_neg (by omega), if_pos (by omega), hb]
    congr 2
    · rw [UInt8.toNat_ofNat_of_lt' hb']; omega
    · congr 1; omega
    · congr 2; omega
  · simp only [Option.some.injEq, Prod.mk.injEq] at hlead
    obtain ⟨rfl, rfl, rfl⟩ := hlead
    obtain ⟨l1, t1, hl1, rfl, hn1⟩ := codePoint?_succ hn
    obtain ⟨l2, t2, hl2, rfl, hn2⟩ := codePoint?_succ hn1
    obtain ⟨l3, t3, hl3, rfl, hn3⟩ := codePoint?_succ hn2
    obtain rfl : (((b.toNat - 0xf0) * 64 + l1) * 64 + l2) * 64 + l3 = n := Option.some.inj hn3
    simp only [String.utf8EncodeChar, toNat_val_ofNat hv, List.take_succ_cons, List.take_zero]
    rw [if_neg (by omega), if_neg (by omega), if_neg (by omega), hb]
    congr 2
    · rw [UInt8.toNat_ofNat_of_lt' hb']; omega
    · congr 1; omega
    · congr 2
      · omega
      · congr 1; omega

theorem encode_decodeFrom (taken : Nat) (bytes : List UInt8) : encode (decodeFrom taken bytes) = bytes.drop taken := by
  induction bytes generalizing taken with
  | nil => simp [decodeFrom]
  | cons b rest ih =>
    cases taken with
    | succ k => simpa [decodeFrom] using ih k
    | zero =>
      simp only [decodeFrom, List.drop_zero]
      cases hc : character? b rest with
      | none =>
        have hrest := ih 0
        simp only [encode, List.flatMap_cons, List.singleton_append, List.drop_zero] at hrest ⊢
        rw [hrest]
      | some p =>
        obtain ⟨c, count⟩ := p
        have hrest := ih count
        have hchar := utf8EncodeChar_of_character? hc
        simp only [encode, List.flatMap_cons] at hrest ⊢
        rw [hrest, hchar, List.cons_append, List.take_append_drop]

/-- Bytes read and written back are the same bytes. -/
theorem encode_decode (bytes : List UInt8) : encode (decode bytes) = bytes := by
  simpa [decode] using encode_decodeFrom 0 bytes

end CodeGroom.Text
