import CallGuard.Bytes.Hex
import CallGuard.Proofs.Results
import Mathlib.Data.List.Basic

/-!
# What hexadecimal text writes

A text writes a byte string if it has two digits of either case for each byte, and nothing else but
possibly a prefix. `decode_eq_ok_iff` says that exactly such texts are read, as what they write.
Reading looks at the bytes of a text and writing is said of its characters: beyond ASCII no byte of
a character is taken for a digit.
-/

namespace CallGuard

namespace Hex

/-- What may stand before the digits. -/
def marks : List (List Char) :=
  [[], ['0', 'x'], ['0', 'X']]

/-- That a text writes a byte string: behind a prefix, which may be missing, it has the two digits
of each byte, in lowercase or not. -/
def Writes (text : String) (bytes : Bytes) : Prop :=
  ∃ mark ∈ marks, ∃ ds, text.toList = mark ++ ds ∧ ds.map Char.toLower = digits bytes

/-- The values of the digits of a byte string. -/
def nibbles (bytes : Bytes) : List Nat :=
  bytes.flatMap fun b => [b.toNat / 16, b.toNat % 16]

theorem nibbles_cons (b : UInt8) (bytes : Bytes) :
    nibbles (b :: bytes) = b.toNat / 16 :: b.toNat % 16 :: nibbles bytes :=
  rfl

theorem nibbles_lt {bytes : Bytes} {n : Nat} (mem : n ∈ nibbles bytes) : n < 16 := by
  obtain ⟨b, -, here⟩ := List.mem_flatMap.mp mem
  have := b.toNat_lt
  simp at here
  omega

theorem length_nibbles (bytes : Bytes) : (nibbles bytes).length = 2 * bytes.length := by
  induction bytes with
  | nil => rfl
  | cons b bytes ih =>
    simp [nibbles_cons, ih]
    omega

theorem digits_eq (bytes : Bytes) : digits bytes = (nibbles bytes).map digit := by
  simp only [digits, nibbles, List.map_flatMap]
  rfl

/-! ### Digits -/

theorem hexValue?_of_not_ascii {c : Char} (beyond : 128 ≤ c.toNat) : Text.hexValue? c = none := by
  unfold Text.hexValue?
  dsimp only
  rw [if_neg (by omega), if_neg (by omega), if_neg (by omega)]

/-- **A digit** in lowercase is the digit of its value. -/
theorem hexValue?_eq_some_iff {c : Char} {n : Nat} (small : n < 16) :
    Text.hexValue? c = some n ↔ c.toLower = digit n := by
  by_cases ascii : c.toNat < 128
  · have all : ∀ k : Fin 128, ∀ n : Fin 16,
        Text.hexValue? (Char.ofNat k) = some n.val ↔ (Char.ofNat k).toLower = digit n := by
      decide +kernel
    have here := all ⟨c.toNat, ascii⟩ ⟨n, small⟩
    rwa [Char.ofNat_toNat] at here
  · have same : c.toLower = c := by
      apply dif_neg
      rintro ⟨-, capital⟩
      rw [UInt32.le_iff_toNat_le] at capital
      exact ascii (Nat.lt_of_le_of_lt capital (by decide))
    have digits : ∀ n : Fin 16, (digit n).toNat < 128 := by decide
    rw [same, hexValue?_of_not_ascii (Nat.le_of_not_lt ascii)]
    constructor
    · intro h
      cases h
    · rintro rfl
      exact absurd (digits ⟨n, small⟩) ascii

/-- The digits that values have, in lowercase or not. -/
theorem map_hexValue?_eq_iff {cs : List Char} {ns : List Nat} (small : ∀ n ∈ ns, n < 16) :
    cs.map Text.hexValue? = ns.map some ↔ cs.map Char.toLower = ns.map digit := by
  induction cs generalizing ns with
  | nil => cases ns <;> simp
  | cons c cs ih =>
    cases ns with
    | nil => simp
    | cons n ns =>
      obtain ⟨here, later⟩ := List.forall_mem_cons.mp small
      simp [hexValue?_eq_some_iff here, ih later]

/-! ### Bytes of text -/

theorem digitValue?_of_not_ascii {b : UInt8} (beyond : 128 ≤ b.toNat) : digitValue? b = none := by
  apply hexValue?_of_not_ascii
  show 128 ≤ b.toUInt32.toNat
  rwa [UInt8.toNat_toUInt32]

/-- A character is one byte, or it starts with a byte that is no digit. -/
theorem utf8EncodeChar_cases (c : Char) :
    (∃ b, String.utf8EncodeChar c = [b] ∧ digitValue? b = Text.hexValue? c) ∨
      ∃ b rest, String.utf8EncodeChar c = b :: rest ∧ digitValue? b = none ∧
        Text.hexValue? c = none := by
  by_cases ascii : c.toNat < 128
  · have all : ∀ k : Fin 128, digitValue? (UInt8.ofNat k) = Text.hexValue? (Char.ofNat k) := by
      decide +kernel
    have here := all ⟨c.toNat, ascii⟩
    rw [Char.ofNat_toNat] at here
    refine .inl ⟨_, ?_, here⟩
    rw [String.utf8EncodeChar]
    exact if_pos (Nat.le_of_lt_succ ascii)
  · have beyond := Nat.le_of_not_lt ascii
    have first : ∃ b rest, String.utf8EncodeChar c = b :: rest ∧ 128 ≤ b.toNat := by
      unfold String.utf8EncodeChar
      dsimp only
      rw [if_neg (by exact Nat.not_le_of_gt beyond)]
      split
      · exact ⟨_, _, rfl, by simp; omega⟩
      · split
        · exact ⟨_, _, rfl, by simp; omega⟩
        · exact ⟨_, _, rfl, by simp; omega⟩
    obtain ⟨b, rest, encoded, high⟩ := first
    exact .inr ⟨b, rest, encoded, digitValue?_of_not_ascii high, hexValue?_of_not_ascii beyond⟩

/-- The bytes of a text are digits if and only if its characters are. -/
theorem map_digitValue?_eq_iff {cs : List Char} {ns : List Nat} :
    (cs.flatMap String.utf8EncodeChar).map digitValue? = ns.map some ↔
      cs.map Text.hexValue? = ns.map some := by
  induction cs generalizing ns with
  | nil => simp
  | cons c cs ih =>
    rcases utf8EncodeChar_cases c with ⟨b, encoded, value⟩ | ⟨b, rest, encoded, none, none'⟩
    · cases ns with
      | nil => simp [encoded]
      | cons n ns => simp [encoded, value, ih]
    · cases ns with
      | nil => simp [encoded]
      | cons n ns => simp [encoded, none, none']

/-- Pairs of digits are read as the bytes that have these digits. -/
theorem decodePairs_eq_ok_iff {position : Nat} {raw bytes : Bytes} :
    decodePairs position raw = .ok bytes ↔ raw.map digitValue? = (nibbles bytes).map some := by
  fun_induction decodePairs position raw generalizing bytes with
  | case1 => cases bytes <;> simp [nibbles]
  | case2 position b => cases bytes <;> simp [nibbles]
  | case3 position high low rest none => cases bytes <;> simp [nibbles, none]
  | case4 position high low rest h none value => cases bytes <;> simp [nibbles, none]
  | case5 position high low rest h l first second ih =>
    simp only [map_eq_ok_iff, ih]
    cases bytes with
    | nil => simp [nibbles]
    | cons b bytes =>
      have split : UInt8.ofNat (16 * h + l) = b ↔ h = b.toNat / 16 ∧ l = b.toNat % 16 := by
        have := Text.hexValue?_lt first
        have := Text.hexValue?_lt second
        have := b.toNat_lt
        rw [← UInt8.toNat_inj, UInt8.toNat_ofNat']
        omega
      simp only [List.cons.injEq, exists_eq_right_right, split, nibbles_cons, List.map_cons, first,
        second, Option.some.injEq]
      rw [and_comm, and_assoc]

/-! ### Text -/

/-- What is written is made of digits. -/
theorem exists_hexValue? {ds : List Char} {bytes : Bytes}
    (written : ds.map Char.toLower = digits bytes) : ∀ d ∈ ds, ∃ n, Text.hexValue? d = some n := by
  intro d mem
  rw [digits_eq, ← map_hexValue?_eq_iff fun n => nibbles_lt] at written
  have value : Text.hexValue? d ∈ (nibbles bytes).map some := by
    rw [← written]
    exact List.mem_map_of_mem mem
  obtain ⟨n, -, found⟩ := List.mem_map.mp value
  exact ⟨n, found.symm⟩

/-- A digit is not the second character of a prefix. -/
theorem stripMark_of_digits {ds : List Char} {bytes : Bytes}
    (written : ds.map Char.toLower = digits bytes) : stripMark ds = ds := by
  have values := exists_hexValue? written
  unfold stripMark
  split
  · obtain ⟨n, found⟩ := values 'x' (by simp)
    cases found
  · obtain ⟨n, found⟩ := values 'X' (by simp)
    cases found
  · rfl

theorem exists_mark (text : List Char) : ∃ mark ∈ marks, text = mark ++ stripMark text := by
  unfold stripMark
  split
  · exact ⟨['0', 'x'], by decide, rfl⟩
  · exact ⟨['0', 'X'], by decide, rfl⟩
  · exact ⟨[], by decide, rfl⟩

theorem writes_iff {text : String} {bytes : Bytes} :
    Writes text bytes ↔ (stripMark text.toList).map Char.toLower = digits bytes := by
  constructor
  · rintro ⟨mark, known, ds, split, written⟩
    have stripped : stripMark (mark ++ ds) = ds := by
      simp only [marks, List.mem_cons, List.not_mem_nil, or_false] at known
      rcases known with rfl | rfl | rfl
      · exact stripMark_of_digits written
      · rfl
      · rfl
    rwa [split, stripped]
  · intro written
    obtain ⟨mark, known, split⟩ := exists_mark text.toList
    exact ⟨mark, known, _, split, written⟩

/-- **The texts that are read** are those that write a byte string, and they are read as it. -/
theorem decode_eq_ok_iff {text : String} {bytes : Bytes} :
    decode text = .ok bytes ↔ Writes text bytes := by
  let raw := (stripMark text.toList).flatMap String.utf8EncodeChar
  have read : decodePairs 0 raw = .ok bytes ↔ Writes text bytes := by
    rw [decodePairs_eq_ok_iff, map_digitValue?_eq_iff, map_hexValue?_eq_iff fun n => nibbles_lt,
      writes_iff, digits_eq]
  rw [← read]
  show (if raw.length % 2 = 1 then _ else _) = _ ↔ _
  split
  · rename_i odd
    constructor
    · intro h
      cases h
    · intro h
      have length := congrArg List.length (decodePairs_eq_ok_iff.mp h)
      rw [List.length_map, List.length_map, length_nibbles] at length
      omega
  · rfl

theorem writes_encode (bytes : Bytes) : Writes (encode bytes) bytes :=
  decode_eq_ok_iff.mp (decode_encode bytes)

/-- Such text is made of digits and of the characters of prefixes. -/
theorem Writes.forall_mem {text : String} {bytes : Bytes} (h : Writes text bytes) :
    ∀ c ∈ text.toList, c = 'x' ∨ c = 'X' ∨ ∃ n, Text.hexValue? c = some n := by
  obtain ⟨mark, known, ds, split, written⟩ := h
  have ofMark : ∀ mark ∈ marks, ∀ c ∈ mark, c = 'x' ∨ c = 'X' ∨ Text.hexValue? c = some 0 := by
    simp [marks]
    decide
  intro c mem
  rw [split] at mem
  rcases List.mem_append.mp mem with inMark | inDigits
  · rcases ofMark mark known c inMark with x | x | zero
    · exact .inl x
    · exact .inr (.inl x)
    · exact .inr (.inr ⟨0, zero⟩)
  · exact .inr (.inr (exists_hexValue? written c inDigits))

end Hex

end CallGuard
