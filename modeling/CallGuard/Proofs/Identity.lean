import CallGuard.Proofs.Collision
import CallGuard.Proofs.Compared

/-!
# Ids and content

The bytes that the id of a node hashes determine the node, apart from what the ids of its children
leave open: a first byte keeps leaves and inner nodes apart, what follows the two codes and the
length is the operand or the ids of the children, and all ids are of one length (`hashed_inj`).
So two trees with one id are the same tree, unless the hash of two different strings that were
hashed for subtrees of them is the same (`eq_or_collision_of_id_eq`).
-/

namespace CallGuard

theorem ParamType.code_injective : Function.Injective ParamType.code := by
  intro p q h
  have read := congrArg ParamType.ofCode? h
  rw [ParamType.ofCode?_code, ParamType.ofCode?_code] at read
  exact Option.some.inj read

theorem Operator.code_injective : Function.Injective Operator.code := by
  intro op op' h
  have read := congrArg Operator.ofCode? h
  rw [Operator.ofCode?_code, Operator.ofCode?_code] at read
  exact Option.some.inj read

namespace Condition

/-! ### What is hashed -/

/-- The bytes that the id of a tree hashes. -/
def hashed (c : Condition) : Bytes :=
  preimage c.paramType c.operator c.operand (c.children.map id)

theorem id_eq_digest (c : Condition) : c.id = ⟨Sha256.digest c.hashed⟩ :=
  id_eq c

theorem hashed_of_leaf {c : Condition} (leaf : c.children = []) :
    c.hashed = leafPreimage c.paramType c.operator c.operand := by
  rw [hashed, leaf]
  rfl

theorem hashed_of_branch {c : Condition} (some : c.children ≠ []) :
    c.hashed = branchPreimage c.paramType c.operator (c.children.map id) := by
  rw [hashed, preimage, if_neg]
  simpa using some

/-! ### Reading what was hashed -/

/-- What follows the codes and the length is the operand. -/
theorem leafPreimage_inj {p q : ParamType} {op op' : Operator} {v w : Bytes}
    (h : leafPreimage p op v = leafPreimage q op' w) : p = q ∧ op = op' ∧ v = w := by
  simp only [leafPreimage, List.cons.injEq, true_and] at h
  obtain ⟨types, operators, rest⟩ := h
  refine ⟨ParamType.code_injective types, Operator.code_injective operators, ?_⟩
  exact (List.append_inj rest (by simp only [length_bigEndian])).2

/-- Strings of one length can be told apart when they are written one after the other. -/
theorem flatMap_bytes_inj {ids ids' : List ConditionId}
    (h : (ids.flatMap fun id => id.digest.bytes) = ids'.flatMap fun id => id.digest.bytes) :
    ids = ids' := by
  have length (id : ConditionId) : id.digest.bytes.length = 32 := id.digest.length_bytes
  induction ids generalizing ids' with
  | nil =>
    cases ids' with
    | nil => rfl
    | cons id' ids' =>
      have counts := congrArg List.length h
      simp only [List.flatMap_nil, List.flatMap_cons, List.length_nil, List.length_append,
        length] at counts
      omega
  | cons id ids ih =>
    cases ids' with
    | nil =>
      have counts := congrArg List.length h
      simp only [List.flatMap_nil, List.flatMap_cons, List.length_nil, List.length_append,
        length] at counts
      omega
    | cons id' ids' =>
      rw [List.flatMap_cons, List.flatMap_cons] at h
      obtain ⟨first, rest⟩ := List.append_inj h (by rw [length, length])
      rw [ih rest, show id = id' from congrArg ConditionId.mk (FixedBytes.ext_bytes first)]

/-- What follows the codes and the length is the ids of the children, all of one length. -/
theorem branchPreimage_inj {p q : ParamType} {op op' : Operator} {ids ids' : List ConditionId}
    (h : branchPreimage p op ids = branchPreimage q op' ids') :
    p = q ∧ op = op' ∧ ids = ids' := by
  simp only [branchPreimage, List.cons.injEq, true_and] at h
  obtain ⟨types, operators, rest⟩ := h
  refine ⟨ParamType.code_injective types, Operator.code_injective operators, ?_⟩
  exact flatMap_bytes_inj (List.append_inj rest (by simp only [length_bigEndian])).2

/-- The first byte says whether a node has children. -/
theorem leafPreimage_ne_branchPreimage (p q : ParamType) (op op' : Operator) (v : Bytes)
    (ids : List ConditionId) : leafPreimage p op v ≠ branchPreimage q op' ids := by
  intro h
  have first : (0x00 : UInt8) = 0x01 := (List.cons.inj h).1
  exact absurd first (by decide)

/-- The bytes that are hashed of a well-formed node say all of it but what the ids of its children
leave open. -/
theorem hashed_inj {a b : Condition} (wfA : WellFormed a) (wfB : WellFormed b)
    (h : a.hashed = b.hashed) :
    a.paramType = b.paramType ∧ a.operator = b.operator ∧ a.operand = b.operand ∧
      a.children.map id = b.children.map id := by
  by_cases leafA : a.children = []
  · by_cases leafB : b.children = []
    · rw [hashed_of_leaf leafA, hashed_of_leaf leafB] at h
      obtain ⟨types, operators, operands⟩ := leafPreimage_inj h
      exact ⟨types, operators, operands, by rw [leafA, leafB]⟩
    · rw [hashed_of_leaf leafA, hashed_of_branch leafB] at h
      exact absurd h (leafPreimage_ne_branchPreimage _ _ _ _ _ _)
  · by_cases leafB : b.children = []
    · rw [hashed_of_branch leafA, hashed_of_leaf leafB] at h
      exact absurd h.symm (leafPreimage_ne_branchPreimage _ _ _ _ _ _)
    · rw [hashed_of_branch leafA, hashed_of_branch leafB] at h
      obtain ⟨types, operators, ids⟩ := branchPreimage_inj h
      -- neither node has an operand, so none was hashed
      have operands := (wfA.operand_eq_nil leafA).trans (wfB.operand_eq_nil leafB).symm
      exact ⟨types, operators, operands, ids⟩

/-! ### Subtrees -/

mutual

/-- The subtrees of a tree, the tree itself first. -/
def subtrees : Condition → List Condition
  | ⟨type, op, v, cs⟩ => ⟨type, op, v, cs⟩ :: allSubtrees cs

/-- The subtrees of the trees of a list. -/
def allSubtrees : List Condition → List Condition
  | [] => []
  | c :: cs => subtrees c ++ allSubtrees cs

end

theorem allSubtrees_eq_flatMap (cs : List Condition) : allSubtrees cs = cs.flatMap subtrees := by
  induction cs with
  | nil => rfl
  | cons c cs ih => rw [allSubtrees, ih, List.flatMap_cons]

theorem subtrees_eq (c : Condition) : c.subtrees = c :: c.children.flatMap subtrees := by
  cases c
  rw [subtrees, allSubtrees_eq_flatMap]

theorem self_mem_subtrees (c : Condition) : c ∈ c.subtrees := by
  rw [subtrees_eq]
  exact List.mem_cons_self

/-- A subtree of a child is a subtree of the node. -/
theorem mem_subtrees_of_mem_children {c d e : Condition} (child : d ∈ c.children)
    (below : e ∈ d.subtrees) : e ∈ c.subtrees := by
  rw [subtrees_eq]
  exact List.mem_cons_of_mem c (List.mem_flatMap.mpr ⟨d, child, below⟩)

/-! ### Trees with one id -/

/-- The hash keeps apart the strings that are hashed for subtrees of two trees. -/
def KeptApart (a b : Condition) : Prop :=
  ∀ x ∈ a.subtrees, ∀ y ∈ b.subtrees, Sha256.digest x.hashed = Sha256.digest y.hashed →
    x.hashed = y.hashed

theorem KeptApart.child {a b c d : Condition} (h : KeptApart a b) (memC : c ∈ a.children)
    (memD : d ∈ b.children) : KeptApart c d :=
  fun x memX y memY =>
    h x (mem_subtrees_of_mem_children memC memX) y (mem_subtrees_of_mem_children memD memY)

theorem KeptApart.hashed_eq {a b : Condition} (h : KeptApart a b) (same : a.id = b.id) :
    a.hashed = b.hashed := by
  rw [id_eq_digest, id_eq_digest] at same
  exact h a a.self_mem_subtrees b b.self_mem_subtrees (ConditionId.mk.inj same)

/-- Trees with one id are the same as long as the hash keeps apart what was hashed for them. -/
theorem eq_of_id_eq {a b : Condition} (wfA : WellFormed a) (wfB : WellFormed b)
    (apart : KeptApart a b) (same : a.id = b.id) : a = b := by
  -- induction on the first tree; the second is whatever has the same id
  induction a using induct generalizing b with
  | node a ih =>
    obtain ⟨types, operators, operands, ids⟩ := hashed_inj wfA wfB (apart.hashed_eq same)
    have children : a.children = b.children :=
      eq_of_map_id_eq (fun c memC d memD sameChild =>
        ih c memC (wfA.children c memC) (wfB.children d memD) (apart.child memC memD) sameChild) ids
    rw [← a.mk_eta, ← b.mk_eta, types, operators, operands, children]

/-- **An id identifies its tree** up to collisions of the hash: well-formed trees with the same id
are the same tree, or two different strings that are hashed for subtrees of the one and of the
other have the same digest. -/
theorem eq_or_collision_of_id_eq {a b : Condition} (wfA : WellFormed a) (wfB : WellFormed b)
    (same : a.id = b.id) :
    a = b ∨ ∃ x ∈ a.subtrees, ∃ y ∈ b.subtrees,
      x.hashed ≠ y.hashed ∧ Sha256.digest x.hashed = Sha256.digest y.hashed := by
  by_cases apart : KeptApart a b
  · exact .inl (eq_of_id_eq wfA wfB apart same)
  · simp only [KeptApart, not_forall] at apart
    obtain ⟨x, memX, y, memY, digests, differ⟩ := apart
    exact .inr ⟨x, memX, y, memY, differ, digests⟩

theorem eq_or_collision_pruned :
    (allowedCall [byteIs 1, pass .static]).prune.id = (allowedCall [byteIs 1]).id ∧
      ((allowedCall [byteIs 1, pass .static]).prune = allowedCall [byteIs 1] ∨
        ∃ x ∈ (allowedCall [byteIs 1, pass .static]).prune.subtrees,
          ∃ y ∈ (allowedCall [byteIs 1]).subtrees,
            x.hashed ≠ y.hashed ∧ Sha256.digest x.hashed = Sha256.digest y.hashed) := by
  have same : (allowedCall [byteIs 1, pass .static]).prune.id = (allowedCall [byteIs 1]).id := by
    decide +kernel
  exact ⟨same, eq_or_collision_of_id_eq (by decide +kernel) (by decide +kernel) same⟩

end Condition

end CallGuard
