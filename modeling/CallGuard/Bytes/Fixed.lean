import CallGuard.Bytes

/-!
# Byte strings of a fixed length

Digests, ids and salts are byte strings of 32 bytes, accounts of 20. `FixedBytes n` is a
byte string of `n` bytes. The order is that of the numbers that the strings write, most
significant byte first.
-/

namespace CallGuard

/-- A byte string of `n` bytes. -/
structure FixedBytes (n : Nat) where
  /-- The bytes. -/
  bytes : Bytes
  /-- There are `n` of them. -/
  length_bytes : bytes.length = n
  deriving DecidableEq

/-- A byte string of one word of the machine that evaluates calls. -/
abbrev Bytes32 := FixedBytes 32

namespace FixedBytes

/-- A byte string as one of fixed length, if it has that length. -/
def ofBytes? {n : Nat} (bytes : Bytes) : Option (FixedBytes n) :=
  if h : bytes.length = n then some ⟨bytes, h⟩ else none

/-- The string of `n` zero bytes. -/
def zero (n : Nat) : FixedBytes n :=
  ⟨List.replicate n 0, by simp⟩

instance {n : Nat} : Inhabited (FixedBytes n) :=
  ⟨zero n⟩

/-- Strings of one length are ordered by their first differing byte. -/
instance {n : Nat} : Ord (FixedBytes n) :=
  ⟨fun a b => compare a.bytes b.bytes⟩

theorem ext_bytes {n : Nat} {a b : FixedBytes n} (h : a.bytes = b.bytes) : a = b := by
  cases a
  cases b
  simp_all

@[simp] theorem ofBytes?_bytes {n : Nat} (a : FixedBytes n) : ofBytes? a.bytes = some a := by
  simp [ofBytes?, a.length_bytes]

theorem ofBytes?_eq_some_iff {n : Nat} {bytes : Bytes} {a : FixedBytes n} :
    ofBytes? bytes = some a ↔ bytes = a.bytes := by
  constructor
  · intro h
    obtain ⟨_, made⟩ := Option.dite_none_right_eq_some.mp h
    cases made
    rfl
  · rintro rfl
    exact ofBytes?_bytes a

end FixedBytes

end CallGuard
