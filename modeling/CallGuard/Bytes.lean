/-!
# Byte strings

Byte strings are lists of bytes. A number is written in a fixed count of bytes, most
significant first (`bigEndian`) or least significant first (`littleEndian`); digits that
do not fit are dropped. `ofBigEndian_bigEndian` reads such a number back.
-/

namespace CallGuard

/-- A byte string. -/
abbrev Bytes := List UInt8

/-- The lowest `width` bytes of a number, least significant first. -/
def littleEndian : (width : Nat) → Nat → Bytes
  | 0, _ => []
  | width + 1, n => UInt8.ofNat n :: littleEndian width (n / 256)

/-- The lowest `width` bytes of a number, most significant first. -/
def bigEndian (width n : Nat) : Bytes :=
  (littleEndian width n).reverse

/-- The number that a byte string writes, most significant byte first. -/
def ofBigEndian (bytes : Bytes) : Nat :=
  bytes.foldl (fun n b => 256 * n + b.toNat) 0

@[simp] theorem length_littleEndian (width n : Nat) : (littleEndian width n).length = width := by
  induction width generalizing n with
  | zero => rfl
  | succ width ih => simp [littleEndian, ih]

@[simp] theorem length_bigEndian (width n : Nat) : (bigEndian width n).length = width := by
  simp [bigEndian]

theorem ofBigEndian_bigEndian (width n : Nat) :
    ofBigEndian (bigEndian width n) = n % Nat.pow 256 width := by
  induction width generalizing n with
  | zero => simp [bigEndian, littleEndian, ofBigEndian, Nat.mod_one]
  | succ width ih =>
    have h := ih (n / 256)
    simp only [ofBigEndian, bigEndian, littleEndian, List.reverse_cons, List.foldl_append,
      List.foldl_cons, List.foldl_nil] at h ⊢
    have split : n % Nat.pow 256 (width + 1) = n % 256 + 256 * (n / 256 % Nat.pow 256 width) := by
      rw [← Nat.mod_mul, Nat.mul_comm]
      rfl
    rw [h, split]
    simp [Nat.add_comm]

end CallGuard
