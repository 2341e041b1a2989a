import CallGuard.Packed.Reader
import CallGuard.Proofs.BreadthFirst
import CallGuard.Proofs.Results
import Mathlib.Data.List.Induction

/-!
# What bytes lay out

`Laid` says of bytes that they write the headers of some nodes and, behind them, an operand for each
node that no other names as its parent, and nothing else. Every step of reading takes away what a
step of writing puts there. So bytes that lay out nodes are read to the end, and what becomes of
them is decided when the nodes are put together (`Laid.unpack_eq`); and bytes that lay out
nothing are refused while they are read (`exists_laid_or_encoding`).
-/

namespace CallGuard

open Condition

/-! ### Numbers -/

theorem ofBigEndian_append (bytes : Bytes) (b : UInt8) :
    ofBigEndian (bytes ++ [b]) = 256 * ofBigEndian bytes + b.toNat := by
  simp [ofBigEndian]

theorem bigEndian_succ (width n : Nat) :
    bigEndian (width + 1) n = bigEndian width (n / 256) ++ [UInt8.ofNat n] := by
  simp [bigEndian, littleEndian]

/-- A number that was read is written as the bytes it was read from. -/
theorem bigEndian_ofBigEndian (bytes : Bytes) :
    bigEndian bytes.length (ofBigEndian bytes) = bytes := by
  induction bytes using List.reverseRecOn with
  | nil => rfl
  | append_singleton bytes b ih =>
    have quotient : (256 * ofBigEndian bytes + b.toNat) / 256 = ofBigEndian bytes := by
      have := b.toNat_lt
      omega
    have digit : UInt8.ofNat (256 * ofBigEndian bytes + b.toNat) = b := by
      rw [← UInt8.toNat_inj, UInt8.toNat_ofNat']
      have := b.toNat_lt
      omega
    rw [List.length_append, List.length_singleton, bigEndian_succ, ofBigEndian_append, quotient,
      digit, ih]

theorem ofBigEndian_lt (bytes : Bytes) : ofBigEndian bytes < Nat.pow 256 bytes.length := by
  have same := ofBigEndian_bigEndian bytes.length (ofBigEndian bytes)
  rw [bigEndian_ofBigEndian] at same
  rw [same]
  exact Nat.mod_lt _ (Nat.pow_pos (by decide))

namespace Packed

/-! ### Steps of reading -/

section Steps

variable {cursor cursor' : Cursor}

theorem take_eq_ok {n : Nat} {front : Bytes} (h : take n cursor = .ok (front, cursor')) :
    front.length = n ∧ cursor.rest = front ++ cursor'.rest := by
  unfold take at h
  split at h
  · rename_i enough
    cases h
    exact ⟨List.length_take_of_le enough, (List.take_append_drop n cursor.rest).symm⟩
  · cases h

theorem number_eq_ok {n value : Nat} (h : number n cursor = .ok (value, cursor')) :
    value < Nat.pow 256 n ∧ cursor.rest = bigEndian n value ++ cursor'.rest := by
  obtain ⟨⟨front, _⟩, taken, h⟩ := bind_eq_ok_iff.mp h
  cases h
  obtain ⟨rfl, split⟩ := take_eq_ok taken
  rw [bigEndian_ofBigEndian]
  exact ⟨ofBigEndian_lt front, split⟩

/-- The byte that is read as a number. -/
theorem number_one_eq_ok {value : Nat} (h : number 1 cursor = .ok (value, cursor')) :
    value < 256 ∧ cursor.rest = UInt8.ofNat value :: cursor'.rest :=
  number_eq_ok h

/-- The bytes of a header. -/
def Header.bytes (h : Header) : Bytes :=
  [UInt8.ofNat h.parent, h.paramType.code <<< 5 ||| h.operator.code]

theorem code_of_paramType {code : UInt8} {p : ParamType} (h : ParamType.ofCode? code = some p) :
    p.code = code :=
  eq_of_beq (List.find?_some (p := fun q : ParamType => q.code == code) h)

theorem code_of_operator {code : UInt8} {op : Operator} (h : Operator.ofCode? code = some op) :
    op.code = code :=
  eq_of_beq (List.find?_some (p := fun q : Operator => q.code == code) h)

/-- A byte is put together from its upper three and its lower five bits. -/
theorem codes_joined (b : UInt8) : (b >>> 5) <<< 5 ||| (b &&& 0x1f) = b := by
  have all : ∀ n : Fin 256, (UInt8.ofFin n >>> 5) <<< 5 ||| (UInt8.ofFin n &&& 0x1f) =
      UInt8.ofFin n := by
    decide +kernel
  exact all b.toFin

theorem headerOf_eq_ok {index parent : Nat} {code : UInt8} {header : Header}
    (h : headerOf index parent code = .ok header) :
    (parent < index ∨ index = 0 ∧ parent = 0) ∧ header.parent = parent ∧
      header.bytes = [UInt8.ofNat parent, code] := by
  unfold headerOf at h
  split at h
  · rename_i valid
    split at h
    · cases h
    · cases h
    · rename_i type operator foundType foundOperator
      cases h
      rw [Header.bytes, code_of_paramType foundType, code_of_operator foundOperator, codes_joined]
      exact ⟨valid, rfl, rfl⟩
  · cases h

/-- A header that the node with an index can have: its parent comes before it, unless it is the root,
which is its own. -/
def HeaderAt (index : Nat) (h : Header) : Prop :=
  h.parent < index ∨ index = 0 ∧ h.parent = 0

/-- Headers that are read are those that the bytes write. -/
theorem headers_eq_ok {n index : Nat} {hs : List Header}
    (h : headers n index cursor = .ok (hs, cursor')) :
    hs.length = n ∧ EachFrom HeaderAt index hs ∧
      cursor.rest = hs.flatMap Header.bytes ++ cursor'.rest := by
  induction n generalizing index cursor hs with
  | zero =>
    cases h
    exact ⟨rfl, eachFrom_nil, rfl⟩
  | succ n ih =>
    obtain ⟨⟨parent, _⟩, readParent, h⟩ := bind_eq_ok_iff.mp h
    obtain ⟨⟨code, _⟩, readCode, h⟩ := bind_eq_ok_iff.mp h
    obtain ⟨first, readFirst, h⟩ := bind_eq_ok_iff.mp h
    obtain ⟨⟨others, _⟩, readOthers, h⟩ := bind_eq_ok_iff.mp h
    cases h
    obtain ⟨length, valid, rest⟩ := ih readOthers
    obtain ⟨validFirst, rfl, bytes⟩ := headerOf_eq_ok readFirst
    refine ⟨congrArg Nat.succ length, eachFrom_cons.mpr ⟨validFirst, valid⟩, ?_⟩
    rw [(number_one_eq_ok readParent).2, (number_one_eq_ok readCode).2, rest, List.flatMap_cons,
      bytes]
    rfl

theorem length_operands {parents : List Nat} {n index : Nat} {os : List Bytes}
    (h : operands parents n index cursor = .ok (os, cursor')) : os.length = n := by
  induction n generalizing index cursor os with
  | zero =>
    cases h
    rfl
  | succ n ih =>
    rw [operands] at h
    split at h
    · obtain ⟨⟨others, _⟩, readOthers, h⟩ := bind_eq_ok_iff.mp h
      cases h
      exact congrArg Nat.succ (ih readOthers)
    · obtain ⟨⟨length, _⟩, -, h⟩ := bind_eq_ok_iff.mp h
      obtain ⟨⟨operand, _⟩, -, h⟩ := bind_eq_ok_iff.mp h
      obtain ⟨⟨others, _⟩, readOthers, h⟩ := bind_eq_ok_iff.mp h
      cases h
      exact congrArg Nat.succ (ih readOthers)

end Steps

/-! ### Layouts -/

/-- The parents that the headers behind the root name. -/
def namedParents (hs : List Header) : List Nat :=
  hs.tail.map Header.parent

/-- The number of nodes that name the node with an index as their parent. -/
def childCount (hs : List Header) (i : Nat) : Nat :=
  (namedParents hs).count i

/-- What is written of the operands from that of the node with an index on: those of nodes that are
no parent, each behind its length. -/
def operandBytes (ps : List Nat) : (index : Nat) → List Bytes → Bytes
  | _, [] => []
  | index, operand :: later =>
    (if ps.contains index then [] else bigEndian 2 operand.length ++ operand) ++
      operandBytes ps (index + 1) later

/-- An operand that the node with an index can have: none if it is a parent, and else one whose
length fits. -/
def OperandAt (ps : List Nat) (index : Nat) (operand : Bytes) : Prop :=
  if ps.contains index then operand = [] else operand.length ≤ maxOperand

/-- Bytes that write the headers and operands of nodes, and nothing else. -/
structure Laid (bytes : Bytes) (hs : List Header) (os : List Bytes) : Prop where
  /-- There is a root. -/
  some : hs ≠ []
  /-- The number of nodes fits. -/
  few : hs.length ≤ maxNodes
  /-- The parent of every node comes before it; the root is its own. -/
  parents : EachFrom HeaderAt 0 hs
  /-- Every node has an operand, be it empty. -/
  each : os.length = hs.length
  /-- The operands go with the places of the nodes. -/
  operands : EachFrom (OperandAt (namedParents hs)) 0 os
  /-- The bytes are the number of nodes, the headers and the operands that are written. -/
  bytes_eq : bytes = UInt8.ofNat hs.length ::
    (hs.flatMap Header.bytes ++ operandBytes (namedParents hs) 0 os)

/-! ### Reading what is laid out -/

/-- A byte is read as the number it writes. -/
theorem number_one (b : UInt8) (rest : Bytes) (offset : Nat) :
    number 1 ⟨b :: rest, offset⟩ = .ok (b.toNat, ⟨rest, offset + 1⟩) := by
  have taken : take 1 ⟨b :: rest, offset⟩ = .ok ([b], ⟨rest, offset + 1⟩) :=
    take_append [b] rest offset
  have value : ofBigEndian [b] = b.toNat := by simp [ofBigEndian]
  simp only [number, taken, ok_bind, value]

/-- A type and an operator are read back from the byte that holds both. -/
theorem codes_apart (p : ParamType) (op : Operator) :
    (p.code <<< 5 ||| op.code) >>> 5 = p.code ∧ (p.code <<< 5 ||| op.code) &&& 0x1f = op.code := by
  cases p <;> cases op <;> decide

theorem headerOf_bytes {index : Nat} {h : Header} (valid : HeaderAt index h) :
    headerOf index h.parent (h.paramType.code <<< 5 ||| h.operator.code) = .ok h := by
  obtain ⟨type, operator⟩ := codes_apart h.paramType h.operator
  unfold HeaderAt at valid
  rw [headerOf, if_pos valid, type, operator, ParamType.ofCode?_code, Operator.ofCode?_code]

/-- Headers are read back, up to what follows them. -/
theorem headers_flatMap_bytes {index : Nat} {hs : List Header}
    (valid : EachFrom HeaderAt index hs)
    (small : ∀ h ∈ hs, h.parent < 256) (rest : Bytes) (offset : Nat) :
    ∃ end_, headers hs.length index ⟨hs.flatMap Header.bytes ++ rest, offset⟩ =
      .ok (hs, ⟨rest, end_⟩) := by
  induction hs generalizing index offset with
  | nil => exact ⟨offset, rfl⟩
  | cons h hs ih =>
    obtain ⟨here, later⟩ := eachFrom_cons.mp valid
    obtain ⟨smallHere, smallLater⟩ := List.forall_mem_cons.mp small
    obtain ⟨end_, others⟩ := ih later smallLater (offset + 1 + 1)
    have parent : (UInt8.ofNat h.parent).toNat = h.parent := UInt8.toNat_ofNat_of_lt' smallHere
    refine ⟨end_, ?_⟩
    rw [List.flatMap_cons, Header.bytes, List.length_cons, headers]
    simp only [List.cons_append, List.nil_append, number_one, ok_bind, parent, UInt8.ofNat_toNat,
      headerOf_bytes here, others]

/-- The length of an operand that fits is read back. -/
theorem number_length {operand : Bytes} (fits : operand.length ≤ maxOperand) (rest : Bytes)
    (offset : Nat) : number 2 ⟨bigEndian 2 operand.length ++ operand ++ rest, offset⟩ =
      .ok (operand.length, ⟨operand ++ rest, offset + 2⟩) := by
  have small : operand.length < Nat.pow 256 2 := Nat.lt_of_le_of_lt fits (by decide)
  rw [List.append_assoc, number_bigEndian 2 _ _ _ small]

/-- Operands are read back, up to what follows them. -/
theorem operands_operandBytes {ps : List Nat} {index : Nat} {os : List Bytes}
    (fit : EachFrom (OperandAt ps) index os) (rest : Bytes) (offset : Nat) :
    ∃ end_, operands ps os.length index ⟨operandBytes ps index os ++ rest, offset⟩ =
      .ok (os, ⟨rest, end_⟩) := by
  induction os generalizing index offset with
  | nil => exact ⟨offset, rfl⟩
  | cons o os ih =>
    obtain ⟨here, later⟩ := eachFrom_cons.mp fit
    rw [OperandAt] at here
    rw [List.length_cons, operands, operandBytes]
    by_cases parent : ps.contains index
    · rw [if_pos parent] at here
      obtain ⟨end_, others⟩ := ih later offset
      refine ⟨end_, ?_⟩
      rw [if_pos parent, if_pos parent, List.nil_append, others, here]
      rfl
    · rw [if_neg parent] at here
      obtain ⟨end_, others⟩ := ih later (offset + 2 + o.length)
      refine ⟨end_, ?_⟩
      rw [if_neg parent, if_neg parent, List.append_assoc, number_length here]
      simp only [ok_bind, take_append, others]

/-- Operands that are read are those that the bytes write. -/
theorem operandBytes_of_operands {ps : List Nat} {n index : Nat} {os : List Bytes}
    {cursor cursor' : Cursor} (h : operands ps n index cursor = .ok (os, cursor')) :
    EachFrom (OperandAt ps) index os ∧ cursor.rest = operandBytes ps index os ++ cursor'.rest := by
  induction n generalizing index cursor os with
  | zero =>
    cases h
    exact ⟨eachFrom_nil, rfl⟩
  | succ n ih =>
    rw [operands] at h
    split at h
    · rename_i parent
      obtain ⟨⟨others, _⟩, readOthers, h⟩ := bind_eq_ok_iff.mp h
      cases h
      obtain ⟨fit, rest⟩ := ih readOthers
      refine ⟨eachFrom_cons.mpr ⟨by rw [OperandAt, if_pos parent], fit⟩, ?_⟩
      rw [operandBytes, if_pos parent, List.nil_append, rest]
    · rename_i single
      obtain ⟨⟨length, _⟩, readLength, h⟩ := bind_eq_ok_iff.mp h
      obtain ⟨⟨operand, _⟩, readOperand, h⟩ := bind_eq_ok_iff.mp h
      obtain ⟨⟨others, _⟩, readOthers, h⟩ := bind_eq_ok_iff.mp h
      cases h
      obtain ⟨small, lengthBytes⟩ := number_eq_ok readLength
      obtain ⟨rfl, operandRest⟩ := take_eq_ok readOperand
      obtain ⟨fit, rest⟩ := ih readOthers
      refine ⟨eachFrom_cons.mpr ⟨?_, fit⟩, ?_⟩
      · rw [OperandAt, if_neg single]
        exact Nat.le_of_lt_succ small
      · rw [operandBytes, if_neg single, lengthBytes, operandRest, rest, List.append_assoc,
          List.append_assoc]

/-! ### Entries -/

/-- Headers that each have an operand make entries. -/
theorem exists_entries {hs : List Header} {os : List Bytes} (some : hs ≠ [])
    (each : os.length = hs.length) : ∃ first later, hs.zip os = first :: later ∧
      hs = (first :: later).map Prod.fst ∧ os = (first :: later).map Prod.snd := by
  cases entries : hs.zip os with
  | nil =>
    rcases List.zip_eq_nil_iff.mp entries with none | none
    · exact absurd none some
    · rw [none] at each
      exact absurd (List.length_eq_zero_iff.mp each.symm) some
  | cons first later =>
    refine ⟨first, later, rfl, ?_⟩
    rw [← entries, List.map_fst_zip (by rw [each]), List.map_snd_zip (by rw [each])]
    exact ⟨rfl, rfl⟩

/-- The parent of every node but the root comes before it. -/
theorem parents_of_entries {first : Header × Bytes} {later : List (Header × Bytes)}
    (valid : EachFrom HeaderAt 0 ((first :: later).map Prod.fst)) :
    first.1.parent = 0 ∧ EachFrom (fun i e => e.1.parent < i) 1 later := by
  obtain ⟨here, behind⟩ := eachFrom_cons.mp (eachFrom_map.mp valid)
  unfold HeaderAt at here behind
  refine ⟨by omega, fun i e found => ?_⟩
  have := behind i e found
  omega

/-- What is made of headers and operands that were read, with some bytes left over. -/
def finish : (entries : List (Header × Bytes)) → (left : Nat) → Except Error Condition
  | [], _ => .error (.encoding .noNodes)
  | first :: later, 0 => root first later
  | _ :: _, n => .error (.encoding (.trailingBytes n))

/-- **Reading**, step by step: the number of nodes, the headers, the operands, and the rest. -/
theorem unpack_eq (bytes : Bytes) : unpack bytes =
    number 1 ⟨bytes, 0⟩ >>= fun counted => headers counted.1 0 counted.2 >>= fun headed =>
      operands (namedParents headed.1) counted.1 0 headed.2 >>= fun filled =>
        finish (headed.1.zip filled.1) filled.2.rest.length := by
  rfl

/-- **Bytes that lay out nodes** are read to the end, and the nodes are put together. -/
theorem Laid.unpack_eq {bytes : Bytes} {hs : List Header} {os : List Bytes}
    (laid : Laid bytes hs os) {first : Header × Bytes} {later : List (Header × Bytes)}
    (entries : hs.zip os = first :: later) : unpack bytes = root first later := by
  have small : ∀ h ∈ hs, h.parent < 256 := by
    intro h mem
    obtain ⟨i, inside, rfl⟩ := List.getElem_of_mem mem
    have valid := laid.parents i _ (List.getElem?_eq_getElem inside)
    have few : hs.length ≤ 255 := laid.few
    unfold HeaderAt at valid
    omega
  have count : (UInt8.ofNat hs.length).toNat = hs.length :=
    UInt8.toNat_ofNat_of_lt' (Nat.lt_of_le_of_lt laid.few (by decide))
  obtain ⟨mid, headersRead⟩ := headers_flatMap_bytes laid.parents small
    (operandBytes (namedParents hs) 0 os) 1
  obtain ⟨end_, operandsRead⟩ := operands_operandBytes laid.operands [] mid
  rw [List.append_nil, laid.each] at operandsRead
  rw [Packed.unpack_eq, laid.bytes_eq]
  simp only [number_one, ok_bind, count, headersRead, operandsRead, entries, List.length_nil,
    finish]

/-! ### Bytes that lay out nothing -/

/-- A result that is no refusal, or a refusal of the encoding. -/
def OkOrEncoding {α : Type} (x : Except Error α) : Prop :=
  ∀ e, x = .error e → ∃ fault, e = .encoding fault

theorem okOrEncoding_ok {α : Type} (a : α) : OkOrEncoding (.ok a) :=
  nofun

theorem OkOrEncoding.bind {α β : Type} {x : Except Error α} {next : α → Except Error β}
    (h : OkOrEncoding x) (then_ : ∀ a, OkOrEncoding (next a)) : OkOrEncoding (x >>= next) := by
  intro e failed
  rcases bind_eq_error_iff.mp failed with here | ⟨a, -, later⟩
  · exact h e here
  · exact then_ a e later

theorem okOrEncoding_take (n : Nat) (cursor : Cursor) : OkOrEncoding (take n cursor) := by
  unfold take
  split
  · exact okOrEncoding_ok _
  · rintro e ⟨⟩
    exact ⟨_, rfl⟩

theorem okOrEncoding_number (n : Nat) (cursor : Cursor) : OkOrEncoding (number n cursor) :=
  (okOrEncoding_take n cursor).bind fun _ => okOrEncoding_ok _

theorem okOrEncoding_headerOf (index parent : Nat) (code : UInt8) :
    OkOrEncoding (headerOf index parent code) := by
  unfold headerOf
  split
  · split
    · rintro e ⟨⟩
      exact ⟨_, rfl⟩
    · rintro e ⟨⟩
      exact ⟨_, rfl⟩
    · exact okOrEncoding_ok _
  · rintro e ⟨⟩
    exact ⟨_, rfl⟩

theorem okOrEncoding_headers (n index : Nat) (cursor : Cursor) :
    OkOrEncoding (headers n index cursor) := by
  induction n generalizing index cursor with
  | zero => exact okOrEncoding_ok _
  | succ n ih =>
    refine (okOrEncoding_number 1 cursor).bind fun _ => ?_
    refine (okOrEncoding_number 1 _).bind fun _ => ?_
    refine (okOrEncoding_headerOf index _ _).bind fun _ => ?_
    exact (ih (index + 1) _).bind fun _ => okOrEncoding_ok _

theorem okOrEncoding_operands (ps : List Nat) (n index : Nat) (cursor : Cursor) :
    OkOrEncoding (operands ps n index cursor) := by
  induction n generalizing index cursor with
  | zero => exact okOrEncoding_ok _
  | succ n ih =>
    rw [operands]
    split
    · exact (ih (index + 1) cursor).bind fun _ => okOrEncoding_ok _
    · refine (okOrEncoding_number 2 cursor).bind fun _ => ?_
      refine (okOrEncoding_take _ _).bind fun _ => ?_
      exact (ih (index + 1) _).bind fun _ => okOrEncoding_ok _

/-- Bytes that are read to the end lay out what is read of them. -/
theorem laid_of_read {bytes : Bytes} {count : Nat} {hs : List Header} {os : List Bytes}
    {afterCount afterHeaders end_ : Cursor}
    (readCount : number 1 ⟨bytes, 0⟩ = .ok (count, afterCount))
    (readHeaders : headers count 0 afterCount = .ok (hs, afterHeaders))
    (readOperands : operands (namedParents hs) count 0 afterHeaders = .ok (os, end_))
    (some : hs ≠ []) (nothing : end_.rest = []) : Laid bytes hs os := by
  obtain ⟨small, countBytes⟩ := number_one_eq_ok readCount
  obtain ⟨rfl, valid, headerBytes⟩ := headers_eq_ok readHeaders
  obtain ⟨fit, operandBytes_⟩ := operandBytes_of_operands readOperands
  refine ⟨some, Nat.le_of_lt_succ small, valid, length_operands readOperands, fit, ?_⟩
  rw [nothing, List.append_nil] at operandBytes_
  exact countBytes.trans (by rw [headerBytes, operandBytes_])

/-- **Bytes that lay out nothing** are refused while they are read. -/
theorem exists_laid_or_encoding (bytes : Bytes) :
    (∃ hs os, Laid bytes hs os) ∨ ∃ fault, unpack bytes = .error (.encoding fault) := by
  rw [unpack_eq]
  cases readCount : number 1 ⟨bytes, 0⟩ with
  | error e =>
    obtain ⟨fault, rfl⟩ := okOrEncoding_number 1 _ e readCount
    exact .inr ⟨fault, rfl⟩
  | ok counted =>
  rw [ok_bind]
  cases readHeaders : headers counted.1 0 counted.2 with
  | error e =>
    obtain ⟨fault, rfl⟩ := okOrEncoding_headers _ _ _ e readHeaders
    exact .inr ⟨fault, rfl⟩
  | ok headed =>
  rw [ok_bind]
  cases readOperands : operands (namedParents headed.1) counted.1 0 headed.2 with
  | error e =>
    obtain ⟨fault, rfl⟩ := okOrEncoding_operands _ _ _ _ e readOperands
    exact .inr ⟨fault, rfl⟩
  | ok filled =>
  rw [ok_bind]
  cases entries : headed.1.zip filled.1 with
  | nil => exact .inr ⟨_, rfl⟩
  | cons first later =>
  cases left : filled.2.rest with
  | cons b rest => exact .inr ⟨_, rfl⟩
  | nil =>
    refine .inl ⟨_, _, laid_of_read readCount readHeaders readOperands ?_ left⟩
    intro none
    rw [none] at entries
    cases entries

end Packed

end CallGuard
