import CallGuard.Proofs.Addresses

/-!
# Creating a contract

The code that creates a contract is run by a machine with a stack of words of 256 bits and a memory
of bytes. `step` gives the rules of the instructions that occur in such code and of others of the
same kinds; there is no jump among them, and what a run costs is left out.

The instructions of `loader` copy what stands behind them into the memory and return it, whatever it
is, as long as its length stands before them in two bytes (`run_loader`). In the code of a packed
tree it is the byte `0x00` and then the packed tree, and `initCode_deploys` says that this is what a
run of the code returns.
-/

namespace CallGuard

namespace Machine

/-! ### The machine -/

/-- A word on the stack. -/
abbrev Word := BitVec 256

/-- What a byte of code asks for. -/
inductive Instruction where
  /-- To end the run. -/
  | stop
  /-- To copy a part of the code into the memory. The words on the stack are, from its top, the
  place in the memory, the place in the code and the number of bytes. -/
  | copyCode
  /-- To push the number of bytes that the last call returned. -/
  | pushReturnSize
  /-- To push the number that as many of the following bytes write. -/
  | push (width : Nat)
  /-- To push again the word that stands below as many others. -/
  | duplicate (depth : Nat)
  /-- To end the run with a part of the memory. The words on the stack are, from its top, the place
  in the memory and the number of bytes. -/
  | returnMemory
  deriving DecidableEq

/-- The instruction that a byte stands for, if it is one of these. -/
def Instruction.ofByte? (b : UInt8) : Option Instruction :=
  if b = 0x00 then some .stop
  else if b = 0x39 then some .copyCode
  else if b = 0x3d then some .pushReturnSize
  else if 0x60 ≤ b ∧ b ≤ 0x7f then some (.push (b.toNat - 0x5f))
  else if 0x80 ≤ b ∧ b ≤ 0x8f then some (.duplicate (b.toNat - 0x80))
  else if b = 0xf3 then some .returnMemory
  else none

/-- A machine between two instructions. -/
structure State where
  /-- The place of the next instruction in the code. -/
  counter : Nat
  /-- The stack, from its top. -/
  stack : List Word
  /-- The byte at each place of the memory. -/
  memory : Nat → UInt8
  /-- What the last call returned. -/
  returned : Bytes

/-- A machine at the start of its code. Its stack is empty, its memory is all zeros, and no call was
made yet that could have returned anything. -/
def State.initial : State :=
  ⟨0, [], fun _ => 0, []⟩

/-- How a run ends. -/
inductive Outcome where
  /-- It stops without returning anything. -/
  | stopped
  /-- It returns a byte string. -/
  | returned (data : Bytes)
  /-- It breaks a rule: there is no such instruction, or too little or too much on the stack. -/
  | failed
  deriving DecidableEq

/-- The byte at a place of some code; behind its end there are only zeros. -/
def byteAt (code : Bytes) (i : Nat) : UInt8 :=
  code.getD i 0

/-- As many bytes from a place on. -/
def slice (read : Nat → UInt8) (start count : Nat) : Bytes :=
  (List.range count).map fun i => read (start + i)

/-- A memory with a byte string written from a place on. -/
def written (memory : Nat → UInt8) (start : Nat) (data : Bytes) (i : Nat) : UInt8 :=
  if start ≤ i ∧ i < start + data.length then byteAt data (i - start) else memory i

/-- How many words the stack holds. -/
def stackLimit : Nat := 1024

/-- The end of a run, or the machine before the next instruction, if a word is pushed by an
instruction of so many bytes. -/
def State.pushed (s : State) (size : Nat) (w : Word) : Outcome ⊕ State :=
  if s.stack.length < stackLimit then
    .inr { s with counter := s.counter + size, stack := w :: s.stack }
  else .inl .failed

/-- The end of a run, or the machine before the next instruction. -/
def step (code : Bytes) (s : State) : Outcome ⊕ State :=
  match Instruction.ofByte? (byteAt code s.counter), s.stack with
  | some .stop, _ => .inl .stopped
  | some .copyCode, target :: source :: count :: rest =>
    let data := slice (byteAt code) source.toNat count.toNat
    .inr { s with
      counter := s.counter + 1, stack := rest, memory := written s.memory target.toNat data }
  | some .pushReturnSize, _ => s.pushed 1 (BitVec.ofNat 256 s.returned.length)
  | some (.push width), _ =>
    s.pushed (1 + width)
      (BitVec.ofNat 256 (ofBigEndian (slice (byteAt code) (s.counter + 1) width)))
  | some (.duplicate depth), stack =>
    match stack[depth]? with
    | some w => s.pushed 1 w
    | none => .inl .failed
  | some .returnMemory, start :: count :: _ =>
    .inl (.returned (slice s.memory start.toNat count.toNat))
  | _, _ => .inl .failed

/-- The end of a run of at most so many steps; none if it has not ended by then. -/
def run (code : Bytes) : (steps : Nat) → State → Option Outcome
  | 0, _ => none
  | steps + 1, s =>
    match step code s with
    | .inl outcome => some outcome
    | .inr s => run code steps s

/-! ### Runs -/

theorem run_of_inr {code : Bytes} {s t : State} (h : step code s = .inr t) (steps : Nat) :
    run code (steps + 1) s = run code steps t := by
  simp [run, h]

theorem run_of_inl {code : Bytes} {s : State} {outcome : Outcome} (h : step code s = .inl outcome)
    (steps : Nat) : run code (steps + 1) s = some outcome := by
  simp [run, h]

/-- **A run that has ended** does not go on. -/
theorem run_mono {code : Bytes} {steps more : Nat} {s : State} {outcome : Outcome}
    (h : run code steps s = some outcome) (le : steps ≤ more) : run code more s = some outcome := by
  induction steps generalizing more s with
  | zero => simp [run] at h
  | succ steps ih =>
    obtain ⟨more, rfl⟩ := Nat.exists_eq_add_of_le' (Nat.lt_of_lt_of_le (Nat.succ_pos steps) le)
    cases next : step code s with
    | inl ends =>
      rw [run_of_inl next] at h ⊢
      exact h
    | inr t =>
      rw [run_of_inr next] at h ⊢
      exact ih h (by omega)

/-! ### Slices -/

@[simp] theorem length_slice (read : Nat → UInt8) (start count : Nat) :
    (slice read start count).length = count := by
  simp [slice]

/-- The bytes of some code from a place on. -/
theorem slice_byteAt (before data : Bytes) :
    slice (byteAt (before ++ data)) before.length data.length = data := by
  apply List.ext_getElem
  · simp
  · intro i _ inside
    simp [slice, byteAt, List.getElem?_append_right, inside]

/-- What is written into the memory can be read there. -/
theorem slice_written (memory : Nat → UInt8) (start : Nat) (data : Bytes) :
    slice (written memory start data) start data.length = data := by
  apply List.ext_getElem
  · simp
  · intro i _ inside
    simp [slice, written, byteAt, inside]

/-! ### Instructions -/

section Instructions

variable {code : Bytes} {s : State} {b : UInt8} (here : byteAt code s.counter = b)

theorem pushed_of_lt (room : s.stack.length < stackLimit) (size : Nat) (w : Word) :
    s.pushed size w = .inr { s with counter := s.counter + size, stack := w :: s.stack } :=
  if_pos room

include here

theorem step_push {width : Nat} (op : Instruction.ofByte? b = some (.push width))
    (room : s.stack.length < stackLimit) : step code s = .inr { s with
      counter := s.counter + (1 + width)
      stack := BitVec.ofNat 256 (ofBigEndian (slice (byteAt code) (s.counter + 1) width)) ::
        s.stack } := by
  rw [step, here, op]
  exact pushed_of_lt room _ _

theorem step_pushReturnSize (op : Instruction.ofByte? b = some .pushReturnSize)
    (room : s.stack.length < stackLimit) : step code s = .inr { s with
      counter := s.counter + 1, stack := BitVec.ofNat 256 s.returned.length :: s.stack } := by
  rw [step, here, op]
  exact pushed_of_lt room _ _

theorem step_duplicate {depth : Nat} {w : Word}
    (op : Instruction.ofByte? b = some (.duplicate depth)) (word : s.stack[depth]? = some w)
    (room : s.stack.length < stackLimit) :
    step code s = .inr { s with counter := s.counter + 1, stack := w :: s.stack } := by
  rw [step, here, op]
  dsimp only
  rw [word]
  exact pushed_of_lt room _ _

theorem step_copyCode {target source count : Word} {rest : List Word}
    (op : Instruction.ofByte? b = some .copyCode)
    (stack : s.stack = target :: source :: count :: rest) : step code s = .inr { s with
      counter := s.counter + 1
      stack := rest
      memory := written s.memory target.toNat
        (slice (byteAt code) source.toNat count.toNat) } := by
  rw [step, here, op, stack]

theorem step_returnMemory {start count : Word} {rest : List Word}
    (op : Instruction.ofByte? b = some .returnMemory)
    (stack : s.stack = start :: count :: rest) :
    step code s = .inl (.returned (slice s.memory start.toNat count.toNat)) := by
  rw [step, here, op, stack]

end Instructions

/-! ### The loader -/

/-- **The loader returns what stands behind it**, if its length is written before it in two
bytes. -/
theorem run_loader {high low : UInt8} {data : Bytes}
    (size : ofBigEndian [high, low] = data.length) :
    run (0x61 :: high :: low :: (loader ++ data)) 7 .initial = some (.returned data) := by
  let code := 0x61 :: high :: low :: (loader ++ data)
  let w : Word := BitVec.ofNat 256 data.length
  have count : w.toNat = data.length := by
    have := high.toNat_lt
    have := low.toNat_lt
    simp only [ofBigEndian, List.foldl_cons, List.foldl_nil] at size
    rw [BitVec.toNat_ofNat]
    apply Nat.mod_eq_of_lt
    omega
  let empty : Nat → UInt8 := fun _ => 0
  have pushesCount : step code .initial = .inr ⟨3, [w], empty, []⟩ := by
    have digits : slice (byteAt code) 1 2 = [high, low] := rfl
    rw [step_push (b := 0x61) rfl rfl (by simp [State.initial, stackLimit])]
    simp [State.initial, digits, size, w, empty]
  have duplicates : step code ⟨3, [w], empty, []⟩ = .inr ⟨4, [w, w], empty, []⟩ := by
    have op : Instruction.ofByte? 0x80 = some (.duplicate 0) := rfl
    exact step_duplicate rfl op rfl (by simp [stackLimit])
  have pushesSource : step code ⟨4, [w, w], empty, []⟩ = .inr ⟨6, [10, w, w], empty, []⟩ := by
    have digits : slice (byteAt code) 5 1 = [0x0a] := rfl
    rw [step_push (b := 0x60) rfl rfl (by simp [stackLimit])]
    simp [digits, ofBigEndian]
  have pushesTarget : step code ⟨6, [10, w, w], empty, []⟩ = .inr ⟨7, [0, 10, w, w], empty, []⟩ :=
    step_pushReturnSize (b := 0x3d) rfl rfl (by simp [stackLimit])
  have copies : step code ⟨7, [0, 10, w, w], empty, []⟩ =
      .inr ⟨8, [w], written empty 0 data, []⟩ := by
    have copied : slice (byteAt code) 10 data.length = data :=
      slice_byteAt (0x61 :: high :: low :: loader) data
    rw [step_copyCode (b := 0x39) rfl rfl rfl, count]
    simp [copied]
  have pushesStart : step code ⟨8, [w], written empty 0 data, []⟩ =
      .inr ⟨9, [0, w], written empty 0 data, []⟩ :=
    step_pushReturnSize (b := 0x3d) rfl rfl (by simp [stackLimit])
  have returns : step code ⟨9, [0, w], written empty 0 data, []⟩ = .inl (.returned data) := by
    rw [step_returnMemory (b := 0xf3) rfl rfl rfl, count]
    simp [slice_written]
  rw [run_of_inr pushesCount, run_of_inr duplicates, run_of_inr pushesSource,
    run_of_inr pushesTarget, run_of_inr copies, run_of_inr pushesStart, run_of_inl returns]

/-- What the code of a packed tree is made of: the length of what is returned in two bytes before
the loader, and what is returned behind it. -/
theorem initCode_eq_loader {packed code : Bytes} (h : initCode packed = .ok code) :
    ∃ high low, ofBigEndian [high, low] = (0x00 :: packed).length ∧
      code = 0x61 :: high :: low :: (loader ++ 0x00 :: packed) := by
  obtain ⟨short, rfl⟩ := initCode_eq_ok_iff.mp h
  obtain ⟨high, low, digits⟩ := List.length_eq_two.mp (length_bigEndian 2 (packed.length + 1))
  refine ⟨high, low, ?_, by rw [digits]; rfl⟩
  rw [← digits, ofBigEndian_bigEndian, List.length_cons]
  apply Nat.mod_eq_of_lt
  show packed.length + 1 < 65536
  omega

/-- **The code that creates a contract** is made of every packed form of at most 65534 bytes and of
no other. Run from its start on an empty stack, it ends within seven steps by returning the byte
`0x00` and then the packed form. -/
theorem initCode_deploys (packed : Bytes) :
    ((∃ code, initCode packed = .ok code) ↔ packed.length ≤ 65534) ∧
      ∀ code, initCode packed = .ok code → ∀ steps, 7 ≤ steps →
        run code steps .initial = some (.returned (0x00 :: packed)) := by
  constructor
  · simp [initCode_eq_ok_iff]
  · intro code creates steps enough
    obtain ⟨high, low, size, rfl⟩ := initCode_eq_loader creates
    exact run_mono (run_loader size) enough

/-- The longest packed form that is deployed. -/
theorem initCode_deploys_longest : ∃ code,
    initCode (List.replicate 65534 0xff) = .ok code ∧
      run code 7 .initial = some (.returned (0x00 :: List.replicate 65534 0xff)) := by
  obtain ⟨fits, deploys⟩ := initCode_deploys (List.replicate 65534 0xff)
  have short : (List.replicate 65534 (0xff : UInt8)).length ≤ 65534 := by
    rw [List.length_replicate]
  obtain ⟨code, creates⟩ := fits.mpr short
  exact ⟨code, creates, deploys code creates 7 (Nat.le_refl 7)⟩

end Machine

end CallGuard
