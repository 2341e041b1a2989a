import CallGuard.Proofs.Shrinking

/-!
# Addresses and content

An address says which tree is stored and how its contract was placed, up to collisions of the hash.
Each string on the way determines what it is made of: the packed form determines the tree, the code
that creates the contract determines the packed form, which is what it ends with, and the 85 bytes
that the address hashes determine the placement and the digest of the code, each of which has its
place in them. Of the last digest only twenty bytes are kept.
-/

namespace CallGuard

/-! ### Code -/

theorem initCode_eq_ok_iff {packed code : Bytes} : initCode packed = .ok code ↔
    packed.length ≤ 65534 ∧
      0x61 :: (bigEndian 2 (packed.length + 1) ++ loader ++ 0x00 :: packed) = code := by
  unfold initCode
  dsimp only
  by_cases fits : packed.length + 1 ≤ 65535
  · rw [if_pos fits, Except.ok.injEq]
    exact (and_iff_right (Nat.le_of_succ_le_succ fits)).symm
  · rw [if_neg fits]
    exact ⟨nofun, fun h => absurd (Nat.succ_le_succ h.1) fits⟩

/-- What the code copies is the packed tree, which starts at its twelfth byte. -/
theorem drop_initCode {packed code : Bytes} (h : initCode packed = .ok code) :
    code.drop 11 = packed := by
  obtain ⟨-, rfl⟩ := initCode_eq_ok_iff.mp h
  have head : (0x61 :: (bigEndian 2 (packed.length + 1) ++ loader ++ [0x00])).length = 11 := by
    rw [List.length_cons, List.length_append, List.length_append, length_bigEndian]
    rfl
  have whole : (_ ++ packed).drop 11 = packed := List.drop_left' head
  rwa [List.cons_append, List.append_assoc, List.cons_append, List.nil_append] at whole

theorem initCode_inj {packed packed' code : Bytes} (h : initCode packed = .ok code)
    (h' : initCode packed' = .ok code) : packed = packed' :=
  (drop_initCode h).symm.trans (drop_initCode h')

/-! ### Placements -/

@[simp] theorem length_placementPreimage (p : Placement) (code : Bytes) :
    (placementPreimage p code).length = 85 := by
  simp only [placementPreimage, Address.bytes, List.length_cons, List.length_append,
    p.deployer.account.length_bytes, p.salt.length_bytes, (Keccak256.digest code).length_bytes]

/-- The bytes that an address hashes say how the contract is placed, and the digest of its code. -/
theorem placementPreimage_inj {p q : Placement} {code code' : Bytes}
    (h : placementPreimage p code = placementPreimage q code') :
    p = q ∧ Keccak256.digest code = Keccak256.digest code' := by
  obtain ⟨⟨deployer⟩, salt⟩ := p
  obtain ⟨⟨deployer'⟩, salt'⟩ := q
  obtain ⟨placed, digests⟩ := List.append_inj (List.cons.inj h).2
    (by simp only [Address.bytes, List.length_append, FixedBytes.length_bytes])
  obtain ⟨deployers, salts⟩ := List.append_inj placed
    (by simp only [Address.bytes, FixedBytes.length_bytes])
  cases (FixedBytes.ext_bytes deployers : deployer = deployer')
  cases (FixedBytes.ext_bytes salts : salt = salt')
  exact ⟨rfl, FixedBytes.ext_bytes digests⟩

theorem contractAddress_inj {p q : Placement} {code code' : Bytes}
    (h : contractAddress p code = contractAddress q code') :
    (Keccak256.digest (placementPreimage p code)).bytes.drop 12 =
      (Keccak256.digest (placementPreimage q code')).bytes.drop 12 :=
  congrArg (fun a => a.account.bytes) h

namespace Condition

/-! ### Trees -/

/-- The code that creates the contract of a tree. -/
def creationCode (c : Condition) : Except Error Bytes := do
  let packed ← c.pack
  initCode packed

theorem creationCode_eq_ok_iff {c : Condition} {code : Bytes} : c.creationCode = .ok code ↔
    ∃ packed, c.pack = .ok packed ∧ initCode packed = .ok code := by
  rw [creationCode]
  cases c.pack with
  | error fault => simp [error_bind]
  | ok packed => simp [ok_bind]

theorem address_eq_ok_iff {c : Condition} {p : Placement} {a : Address} : c.address p = .ok a ↔
    ∃ code, c.creationCode = .ok code ∧ contractAddress p code = a := by
  have steps : c.address p = (c.creationCode >>= fun code => .ok (contractAddress p code)) := by
    rw [address, creationCode]
    cases c.pack <;> rfl
  rw [steps]
  cases c.creationCode with
  | error fault => simp [error_bind]
  | ok code => simp [ok_bind]

/-- The code that creates its contract identifies a tree. -/
theorem eq_of_creationCode_eq {a b : Condition} (wfA : WellFormed a) (wfB : WellFormed b)
    {code : Bytes} (hA : a.creationCode = .ok code) (hB : b.creationCode = .ok code) : a = b := by
  obtain ⟨packed, packs, creates⟩ := creationCode_eq_ok_iff.mp hA
  obtain ⟨packed', packs', creates'⟩ := creationCode_eq_ok_iff.mp hB
  cases initCode_inj creates creates'
  have read := unpack_of_pack wfA packs
  rw [unpack_of_pack wfB packs'] at read
  exact (Except.ok.inj read).symm

/-- A tree has an address exactly if its nodes, its operands and its packed form fit. -/
theorem exists_address_iff_fits {c : Condition} (wf : WellFormed c) {p : Placement} :
    (∃ a, c.address p = .ok a) ↔ c.nodeCount ≤ 255 ∧
      Everywhere (fun d => d.operand.length ≤ 65535) c ∧
      ∀ packed, c.pack = .ok packed → packed.length ≤ 65534 := by
  rw [exists_address_iff]
  constructor
  · rintro ⟨packed, packs, short⟩
    obtain ⟨⟨few, fit⟩, -⟩ := pack_eq_ok_iff.mp packs
    refine ⟨few, wf.everywhere_operandFits_iff.mp fit, fun packed' packs' => ?_⟩
    cases packs.symm.trans packs'
    omega
  · rintro ⟨few, fit, short⟩
    have packs := pack_of_fits few (wf.everywhere_operandFits_iff.mpr fit)
    have := short _ packs
    exact ⟨_, packs, by omega⟩

/-- How two contracts can come to one address although a tree or a placement differs: their codes
are different and have one digest, or the 85 bytes that are hashed for the addresses are different
and their digests agree in the last twenty bytes. -/
inductive AddressCollision (a b : Condition) (p q : Placement) : Prop where
  /-- Different codes have one digest. -/
  | code {x y : Bytes} (createsA : a.creationCode = .ok x) (createsB : b.creationCode = .ok y)
    (differ : x ≠ y) (digests : Keccak256.digest x = Keccak256.digest y)
  /-- Digests of different strings of 85 bytes agree in what is kept of them. -/
  | preimage {x y : Bytes} (createsA : a.creationCode = .ok x) (createsB : b.creationCode = .ok y)
    (lengthA : (placementPreimage p x).length = 85) (lengthB : (placementPreimage q y).length = 85)
    (differ : placementPreimage p x ≠ placementPreimage q y)
    (digests : (Keccak256.digest (placementPreimage p x)).bytes.drop 12 =
      (Keccak256.digest (placementPreimage q y)).bytes.drop 12)

/-- **An address identifies a tree and its placement** up to collisions of the hash. A well-formed
tree has an address if and only if it has at most 255 nodes, no operand is longer than 65535 bytes
and its packed form is at most 65534 bytes long. Trees with the same address are the same tree in
the same place, or the address shows a collision. -/
theorem address_identifies {a b : Condition} (wfA : WellFormed a) (wfB : WellFormed b)
    (p q : Placement) :
    ((∃ here, a.address p = .ok here) ↔ a.nodeCount ≤ 255 ∧
      Everywhere (fun d => d.operand.length ≤ 65535) a ∧
      ∀ packed, a.pack = .ok packed → packed.length ≤ 65534) ∧
    ∀ here, a.address p = .ok here → b.address q = .ok here →
      (a = b ∧ p = q) ∨ AddressCollision a b p q := by
  refine ⟨exists_address_iff_fits wfA, fun here addressA addressB => ?_⟩
  obtain ⟨x, createsA, placedA⟩ := address_eq_ok_iff.mp addressA
  obtain ⟨y, createsB, placedB⟩ := address_eq_ok_iff.mp addressB
  have kept := contractAddress_inj (placedA.trans placedB.symm)
  by_cases preimages : placementPreimage p x = placementPreimage q y
  · obtain ⟨places, digests⟩ := placementPreimage_inj preimages
    by_cases codes : x = y
    · exact .inl ⟨eq_of_creationCode_eq wfA wfB createsA (codes ▸ createsB), places⟩
    · exact .inr (.code createsA createsB codes digests)
  · exact .inr (.preimage createsA createsB (length_placementPreimage p x)
      (length_placementPreimage q y) preimages kept)

theorem address_identifies_sampleCall :
    WellFormed sampleCall ∧ ∃ here, sampleCall.address .standard = .ok here ∧
      ((sampleCall = sampleCall ∧ Placement.standard = .standard) ∨
        AddressCollision sampleCall sampleCall .standard .standard) := by
  have wf : WellFormed sampleCall := by decide +kernel
  obtain ⟨defined, identifies⟩ := address_identifies wf wf .standard .standard
  have fits : ∀ packed, sampleCall.pack = .ok packed → packed.length ≤ 65534 := by
    intro packed packs
    obtain ⟨-, rfl⟩ := pack_eq_ok_iff.mp packs
    decide +kernel
  obtain ⟨here, deployed⟩ := defined.mpr ⟨by decide +kernel, by decide +kernel, fits⟩
  exact ⟨wf, here, deployed, identifies here deployed deployed⟩

end Condition

end CallGuard
