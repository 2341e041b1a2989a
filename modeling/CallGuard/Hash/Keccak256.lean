import CallGuard.Bytes.Fixed

/-!
# Keccak-256

The sponge hash over the permutation Keccak-f[1600], with a rate of 136 bytes, a digest of
32 bytes and the padding of the first submission (a `0x01` byte, not the later `0x06`). The
state is a square of five by five 64-bit lanes; lane `(x, y)` stands at `x + 5 * y`.

`digest` is the hash of a message.
-/

namespace CallGuard

namespace Keccak256

/-- The 25 lanes. -/
abbrev State := Vector UInt64 25

/-- The place of lane `(x, y)`; coordinates wrap around. -/
def place (x y : Nat) : Fin 25 :=
  ⟨x % 5 + 5 * (y % 5), by omega⟩

/-- Lane `(x, y)` of a state. -/
def lane (s : State) (x y : Nat) : UInt64 :=
  s.get (place x y)

/-- The state whose lane `(x, y)` is `f x y`. -/
def ofLanes (f : Nat → Nat → UInt64) : State :=
  Vector.ofFn fun i => f (i.val % 5) (i.val / 5)

/-- A lane turned left by `n` bits. -/
def rotateLeft (x n : UInt64) : UInt64 :=
  if n = 0 then x else x <<< n ||| x >>> (64 - n)

/-- The turn of each lane, by place. -/
def turns : Vector UInt64 25 :=
  #v[0, 1, 62, 28, 27,
    36, 44, 6, 55, 20,
    3, 10, 43, 25, 39,
    41, 45, 15, 21, 8,
    18, 2, 61, 56, 14]

/-- The constant of each round. -/
def roundConstants : List UInt64 :=
  [0x0000000000000001, 0x0000000000008082, 0x800000000000808a, 0x8000000080008000,
    0x000000000000808b, 0x0000000080000001, 0x8000000080008081, 0x8000000000008009,
    0x000000000000008a, 0x0000000000000088, 0x0000000080008009, 0x000000008000000a,
    0x000000008000808b, 0x800000000000008b, 0x8000000000008089, 0x8000000000008003,
    0x8000000000008002, 0x8000000000000080, 0x000000000000800a, 0x800000008000000a,
    0x8000000080008081, 0x8000000000008080, 0x0000000080000001, 0x8000000080008008]

/-- Adds to each lane the parities of the column before it and of the column after it. -/
def mixColumns (s : State) : State :=
  let parity : Vector UInt64 5 := Vector.ofFn fun x =>
    lane s x 0 ^^^ lane s x 1 ^^^ lane s x 2 ^^^ lane s x 3 ^^^ lane s x 4
  let column (x : Nat) : UInt64 := parity.get ⟨x % 5, by omega⟩
  ofLanes fun x y => lane s x y ^^^ (column (x + 4) ^^^ rotateLeft (column (x + 1)) 1)

/-- Turns each lane and moves lane `(y, x + 3y)` to `(x, y)`. -/
def moveLanes (s : State) : State :=
  ofLanes fun x y => rotateLeft (lane s (x + 3 * y) x) (lane turns (x + 3 * y) x)

/-- Combines each lane with the two that follow it in its row. -/
def mixRows (s : State) : State :=
  ofLanes fun x y => lane s x y ^^^ (~~~lane s (x + 1) y &&& lane s (x + 2) y)

/-- One round of the permutation. -/
def round (s : State) (constant : UInt64) : State :=
  let t := mixRows (moveLanes (mixColumns s))
  t.set 0 (lane t 0 0 ^^^ constant)

/-- The permutation of the state. -/
def permute (s : State) : State :=
  roundConstants.foldl round s

/-- The bytes that one block takes. -/
def rate : Nat := 136

/-- The padding of `n` bytes: a `0x01` byte, zeros, and a set top bit at the end. -/
def padding : (n : Nat) → Bytes
  | 0 => []
  | 1 => [0x81]
  | n + 2 => 0x01 :: (List.replicate n 0 ++ [0x80])

/-- A message padded to whole blocks. At least one byte is added. -/
def padded (message : Bytes) : Bytes :=
  message ++ padding (rate - message.length % rate)

/-- The lane that eight bytes write, least significant first. -/
def laneOfBytes (bytes : Bytes) : UInt64 :=
  bytes.foldr (fun b lane => lane <<< 8 ||| b.toUInt64) 0

/-- The bytes of a lane, least significant first. -/
def laneBytes (lane : UInt64) : Bytes :=
  [lane.toUInt8, (lane >>> 8).toUInt8, (lane >>> 16).toUInt8, (lane >>> 24).toUInt8,
    (lane >>> 32).toUInt8, (lane >>> 40).toUInt8, (lane >>> 48).toUInt8, (lane >>> 56).toUInt8]

/-- The lanes of a block, in order of place. -/
def lanesOfBlock : (n : Nat) → Bytes → List UInt64
  | 0, _ => []
  | n + 1, block => laneOfBytes (block.take 8) :: lanesOfBlock n (block.drop 8)

/-- The state after one more block. -/
def absorbBlock (s : State) (block : Bytes) : State :=
  let lanes := (lanesOfBlock 17 block).toArray
  permute (Vector.ofFn fun i => s.get i ^^^ lanes.getD i.val 0)

/-- The state after `n` blocks. -/
def absorb : (n : Nat) → State → Bytes → State
  | 0, s, _ => s
  | n + 1, s, bytes => absorb n (absorbBlock s (bytes.take rate)) (bytes.drop rate)

/-- The hash of a message. -/
def digest (message : Bytes) : Bytes32 :=
  let bytes := padded message
  let s := absorb (bytes.length / rate) (Vector.replicate 25 0) bytes
  ⟨[lane s 0 0, lane s 1 0, lane s 2 0, lane s 3 0].flatMap laneBytes, rfl⟩

@[simp] theorem length_padding (n : Nat) : (padding n).length = n := by
  match n with
  | 0 => rfl
  | 1 => rfl
  | n + 2 => simp [padding]

/-- The padding fills the last block. -/
theorem length_padded (message : Bytes) : (padded message).length % rate = 0 := by
  simp only [padded, rate, List.length_append, length_padding]
  omega

end Keccak256

end CallGuard
