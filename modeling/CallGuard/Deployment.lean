import CallGuard.Packed
import CallGuard.Hash.Keccak256

/-!
# Deployment

A packed tree is stored as the code of a contract of its own. The code that creates the
contract copies the packed tree, after a byte `0x00` that keeps it from being executed:

    0x61, length of what is copied in two bytes, 0x80600a3d393df3, 0x00, packed tree

The contract's address depends on the account that creates it, on a salt and on that code
alone. So trees with the same normal form are stored once, at the same address.

Addresses are written in mixed case: a letter is a capital where the hash of the lowercase
text has a digit of `8` or more (EIP-55).
-/

namespace CallGuard

/-- The address of an account. -/
structure Address where
  /-- The twenty bytes of the address. -/
  account : FixedBytes 20
  deriving DecidableEq

namespace Address

/-- The bytes of an address. -/
def bytes (a : Address) : Bytes :=
  a.account.bytes

/-- The address that a hexadecimal text writes. The case of letters is not looked at. -/
def parse (text : String) : Except Error Address :=
  match Hex.decode text with
  | .error fault => .error (.invalidHex fault)
  | .ok bytes =>
    match FixedBytes.ofBytes? bytes with
    | some account => .ok ⟨account⟩
    | none => .error (.encoding (.addressLength bytes.length))

/-- The byte of an ASCII character. -/
def asciiByte (c : Char) : UInt8 :=
  UInt8.ofNat c.toNat

/-- An address with its checksum in the case of its letters. -/
def text (a : Address) : String :=
  let digits := Hex.digits a.bytes
  let hash := Hex.digits (Keccak256.digest (digits.map asciiByte)).bytes
  let cased := List.zipWith (fun d h => if '8' ≤ h then d.toUpper else d) digits hash
  String.ofList ('0' :: 'x' :: cased)

end Address

/-- What an address depends on besides the tree. -/
structure Placement where
  /-- The account that creates the contract. -/
  deployer : Address
  /-- A number that keeps contracts of the same code apart. -/
  salt : Bytes32
  deriving DecidableEq

/-- The account of the common factory for such contracts. -/
def commonFactory : Address :=
  ⟨⟨[0xce, 0x00, 0x42, 0xb8, 0x68, 0x30, 0x00, 0x00, 0xd4, 0x4a, 0x59, 0x00, 0x4d, 0xa5, 0x4a,
    0x00, 0x5f, 0xfd, 0xcf, 0x9f], rfl⟩⟩

/-- The common factory with a salt of zeros. -/
def Placement.standard : Placement :=
  ⟨commonFactory, .zero 32⟩

/-- The instructions that copy what follows them and return it as the code of a contract. -/
def loader : Bytes :=
  [0x80, 0x60, 0x0a, 0x3d, 0x39, 0x3d, 0xf3]

/-- The code that creates the contract of a packed tree. -/
def initCode (packed : Bytes) : Except Error Bytes :=
  let size := packed.length + 1
  if size ≤ 65535 then .ok (0x61 :: (bigEndian 2 size ++ loader ++ 0x00 :: packed))
  else .error (.encoding (.tooLargeToDeploy packed.length))

/-- The bytes that an address hashes. -/
def placementPreimage (p : Placement) (code : Bytes) : Bytes :=
  0xff :: (p.deployer.bytes ++ p.salt.bytes ++ (Keccak256.digest code).bytes)

/-- The address of the contract that some code creates. -/
def contractAddress (p : Placement) (code : Bytes) : Address :=
  let digest := Keccak256.digest (placementPreimage p code)
  ⟨⟨digest.bytes.drop 12, by rw [List.length_drop, digest.length_bytes]⟩⟩

/-- The address of the contract that stores a tree. -/
def Condition.address (p : Placement) (c : Condition) : Except Error Address := do
  let packed ← c.pack
  let code ← initCode packed
  .ok (contractAddress p code)

end CallGuard
