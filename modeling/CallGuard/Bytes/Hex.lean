import CallGuard.Bytes
import CallGuard.Text.HexDigit
import CallGuard.Text.Quoted

/-!
# Hexadecimal text

A byte string is written as two lowercase digits per byte, after `0x`. Reading accepts
digits of either case, with or without a prefix, and gives the place and the byte of the
first character that is no digit. Places count bytes of the text, so that a character
beyond ASCII is refused at its first byte.

`decode_encode` says that what is written is read back.
-/

namespace CallGuard

namespace Hex

/-- How a text can fail to be hexadecimal. -/
inductive Fault where
  /-- The digits do not come in pairs. -/
  | oddLength
  /-- A byte of the text that is no digit, at its place after the prefix. -/
  | invalidDigit (byte : UInt8) (position : Nat)
  deriving DecidableEq

/-- A fault in words. A byte is shown as the character of that code point. -/
def Fault.message : Fault → String
  | .oddLength => "Odd number of digits"
  | .invalidDigit byte position =>
    s!"Invalid character {Text.quotedChar (Char.ofUInt8 byte)} at position {position}"

/-- The digit for a number below `16`. -/
def digit (n : Nat) : Char :=
  Nat.digitChar n

/-- The two digits of a byte. -/
def byteDigits (b : UInt8) : List Char :=
  [digit (b.toNat / 16), digit (b.toNat % 16)]

/-- The digits of a byte string. -/
def digits (bytes : Bytes) : List Char :=
  bytes.flatMap byteDigits

/-- A byte string as hexadecimal text with its prefix. -/
def encode (bytes : Bytes) : String :=
  String.ofList ('0' :: 'x' :: digits bytes)

/-- The value of a byte of text as a digit of either case. -/
def digitValue? (b : UInt8) : Option Nat :=
  Text.hexValue? (Char.ofUInt8 b)

/-- The bytes that pairs of digits write, the first digit standing at `position`. -/
def decodePairs (position : Nat) : Bytes → Except Fault Bytes
  | [] => .ok []
  | [_] => .error .oddLength
  | high :: low :: rest =>
    match digitValue? high, digitValue? low with
    | none, _ => .error (.invalidDigit high position)
    | some _, none => .error (.invalidDigit low (position + 1))
    | some h, some l => (decodePairs (position + 2) rest).map (UInt8.ofNat (16 * h + l) :: ·)

/-- A text without a leading `0x` or `0X`. -/
def stripMark : List Char → List Char
  | '0' :: 'x' :: rest => rest
  | '0' :: 'X' :: rest => rest
  | text => text

/-- The bytes that a hexadecimal text writes. The count of digits is checked first. -/
def decode (text : String) : Except Fault Bytes :=
  let digits := (stripMark text.toList).flatMap String.utf8EncodeChar
  if digits.length % 2 = 1 then .error .oddLength else decodePairs 0 digits

/-! ### What is written is read back -/

theorem utf8EncodeChar_digit {n : Nat} (h : n < 16) :
    ∃ b, String.utf8EncodeChar (digit n) = [b] ∧ digitValue? b = some n := by
  have digits : ∀ n : Fin 16,
      String.utf8EncodeChar (digit n) = [UInt8.ofNat (digit n).toNat] ∧
        digitValue? (UInt8.ofNat (digit n).toNat) = some n := by decide
  exact ⟨_, digits ⟨n, h⟩⟩

theorem decodePairs_digits (bytes : Bytes) (position : Nat) :
    decodePairs position ((digits bytes).flatMap String.utf8EncodeChar) = .ok bytes := by
  induction bytes generalizing position with
  | nil => rfl
  | cons b bytes ih =>
    obtain ⟨h, hh, hv⟩ := utf8EncodeChar_digit (n := b.toNat / 16) (by have := b.toNat_lt; omega)
    obtain ⟨l, hl, lv⟩ := utf8EncodeChar_digit (n := b.toNat % 16) (by omega)
    have ih' := ih (position + 2)
    simp only [digits, List.flatMap_cons, byteDigits, List.cons_append, List.nil_append, hh, hl,
      decodePairs, hv, lv] at ih' ⊢
    rw [ih']
    simp [Except.map, Nat.div_add_mod]

theorem length_digits_utf8 (bytes : Bytes) :
    ((digits bytes).flatMap String.utf8EncodeChar).length = 2 * bytes.length := by
  induction bytes with
  | nil => rfl
  | cons b bytes ih =>
    obtain ⟨h, hh, -⟩ := utf8EncodeChar_digit (n := b.toNat / 16) (by have := b.toNat_lt; omega)
    obtain ⟨l, hl, -⟩ := utf8EncodeChar_digit (n := b.toNat % 16) (by omega)
    simp only [digits, List.flatMap_cons, byteDigits, List.cons_append, List.nil_append, hh, hl,
      List.length_cons] at ih ⊢
    omega

theorem decode_encode (bytes : Bytes) : decode (encode bytes) = .ok bytes := by
  have h := length_digits_utf8 bytes
  simp only [decode, encode, String.toList_ofList, stripMark]
  rw [if_neg (by omega), decodePairs_digits]

end Hex

end CallGuard
