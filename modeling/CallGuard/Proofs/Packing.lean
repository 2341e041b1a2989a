import CallGuard.Proofs.Layout
import CallGuard.Proofs.Runs
import CallGuard.Proofs.Compared

/-!
# Packing loses nothing

A tree has a packed form exactly when the number of its nodes and the lengths of its operands fit,
and reading the packed form gives the tree back (`unpack_pack`). The bytes lay out the headers and
the operands of a listing (`Listing.laid`); and putting the nodes together from the last to the
first undoes a listing step by step: what has been put together from the nodes that are listed from
a queue is the queue (`assemble_listing`). The order need not be the one in which nodes are written.
-/

namespace CallGuard

open Packed

namespace Condition

/-! ### Writing -/

/-- What is written of the operand of a leaf. -/
def packedOperand (c : Condition) : Bytes :=
  bigEndian 2 c.operand.length ++ c.operand

/-- The leaves among some nodes. -/
def leaves (nodes : List Numbered) : List Condition :=
  (nodes.map Numbered.node).filter isLeaf

/-- A node whose operand fits, if it has to be written. -/
def OperandFits (c : Condition) : Prop :=
  c.isLeaf → c.operand.length ≤ maxOperand

theorem packOperand_of_le {c : Condition} (h : c.operand.length ≤ maxOperand) :
    packOperand c = .ok c.packedOperand :=
  if_pos h

theorem packOperand_of_not_le {c : Condition} (h : ¬ c.operand.length ≤ maxOperand) :
    packOperand c = .error (.encoding (.operandTooLong c.operand.length)) :=
  if_neg h

theorem mapM_packOperand {cs : List Condition} (fit : ∀ c ∈ cs, c.operand.length ≤ maxOperand) :
    cs.mapM packOperand = .ok (cs.map packedOperand) :=
  mapM_eq_pure fun c mem => packOperand_of_le (fit c mem)

/-- Operands are only written if all of them fit. -/
theorem operands_fit_of_mapM_packOperand {cs : List Condition} {written : List Bytes}
    (h : cs.mapM packOperand = .ok written) : ∀ c ∈ cs, c.operand.length ≤ maxOperand := by
  induction cs generalizing written with
  | nil => exact List.forall_mem_nil _
  | cons c cs ih =>
    rw [List.mapM_cons] at h
    by_cases fits : c.operand.length ≤ maxOperand
    · cases rest : cs.mapM packOperand with
      | ok others => exact List.forall_mem_cons.mpr ⟨fits, ih rest⟩
      | error fault =>
        rw [packOperand_of_le fits, ok_bind, rest, error_bind] at h
        cases h
    · rw [packOperand_of_not_le fits, error_bind] at h
      cases h

theorem forall_mem_leaves_iff {nodes : List Numbered} :
    (∀ c ∈ leaves nodes, c.operand.length ≤ maxOperand) ↔ ∀ n ∈ nodes, OperandFits n.node := by
  simp only [leaves, List.mem_filter, List.mem_map, OperandFits, and_imp, forall_exists_index,
    forall_apply_eq_imp_iff₂]

/-- The bytes of a tree whose packed form exists. -/
def packedBytes (c : Condition) : Bytes :=
  UInt8.ofNat c.breadthFirst.length ::
    (c.breadthFirst.flatMap header ++ (leaves c.breadthFirst).flatMap packedOperand)

/-- The bytes that some nodes are written as. -/
def written (nodes : List Numbered) : Bytes :=
  UInt8.ofNat nodes.length :: (nodes.flatMap header ++ (leaves nodes).flatMap packedOperand)

theorem packedBytes_eq (c : Condition) : c.packedBytes = written c.breadthFirst :=
  rfl

/-- A tree whose nodes and operands fit has a packed form. -/
theorem pack_of_fits {c : Condition} (few : c.nodeCount ≤ maxNodes)
    (fit : Everywhere OperandFits c) : c.pack = .ok c.packedBytes := by
  have operands := mapM_packOperand
    (forall_mem_leaves_iff.mpr (c.listing_breadthFirst.everywhere_iff.mpr fit))
  rw [leaves] at operands
  unfold pack
  dsimp only
  rw [if_neg (by rw [c.listing_breadthFirst.length_eq_nodeCount]; omega), operands, ok_bind,
    packedBytes, leaves, List.flatMap_def (f := packedOperand)]

/-- **A tree has a packed form** if and only if its nodes and the operands of its leaves fit. -/
theorem pack_eq_ok_iff {c : Condition} {bytes : Bytes} : c.pack = .ok bytes ↔
    (c.nodeCount ≤ maxNodes ∧ Everywhere OperandFits c) ∧ bytes = c.packedBytes := by
  constructor
  · intro h
    have fits : c.nodeCount ≤ maxNodes ∧ Everywhere OperandFits c := by
      unfold pack at h
      dsimp only at h
      split at h
      · cases h
      · rename_i few
        rw [c.listing_breadthFirst.length_eq_nodeCount] at few
        cases written : (leaves c.breadthFirst).mapM packOperand with
        | ok operands =>
          have fit := operands_fit_of_mapM_packOperand written
          exact ⟨by omega, c.listing_breadthFirst.everywhere_iff.mp (forall_mem_leaves_iff.mp fit)⟩
        | error fault =>
          rw [leaves] at written
          rw [written, error_bind] at h
          cases h
    rw [pack_of_fits fits.1 fits.2] at h
    exact ⟨fits, (Except.ok.inj h).symm⟩
  · rintro ⟨⟨few, fit⟩, rfl⟩
    exact pack_of_fits few fit

/-! ### Listings as layouts -/

/-- A parent index that comes before the index of a node, or that of a root. -/
def ValidParent (index : Nat) (n : Numbered) : Prop :=
  n.parent < index ∨ index = 0 ∧ n.parent = 0

/-- The header that is read of a node. -/
def headerRead (n : Numbered) : Header :=
  ⟨n.parent, n.node.paramType, n.node.operator⟩

theorem flatMap_bytes_headerRead (nodes : List Numbered) :
    (nodes.map headerRead).flatMap Header.bytes = nodes.flatMap header := by
  rw [List.flatMap_map]
  rfl

theorem namedParents_headerRead (nodes : List Numbered) :
    namedParents (nodes.map headerRead) = nodes.tail.map Numbered.parent := by
  rw [namedParents, ← List.map_tail, List.map_map]
  rfl

/-- The operands that are written are those of the leaves, if the parents are the other nodes. -/
theorem operandBytes_leaves {ps : List Nat} {index : Nat} {nodes : List Numbered}
    (inner : EachFrom (fun i n => ps.contains i = !n.node.isLeaf) index nodes) :
    operandBytes ps index (nodes.map fun n => n.node.operand) =
      (leaves nodes).flatMap packedOperand := by
  induction nodes generalizing index with
  | nil => rfl
  | cons n nodes ih =>
    obtain ⟨here, later⟩ := eachFrom_cons.mp inner
    rw [List.map_cons, operandBytes, here, ih later]
    cases leaf : n.node.isLeaf with
    | false =>
      have others : leaves (n :: nodes) = leaves nodes :=
        List.filter_cons_of_neg (by rw [leaf]; exact Bool.false_ne_true)
      rw [others, Bool.not_false, if_pos rfl, List.nil_append]
    | true =>
      have others : leaves (n :: nodes) = n.node :: leaves nodes := List.filter_cons_of_pos leaf
      rw [others, Bool.not_true, if_neg Bool.false_ne_true, List.flatMap_cons, packedOperand]

/-- The operand of a node goes with its place if a leaf has one that fits, and a branch none. -/
theorem operandAt_iff {ps : List Nat} {index : Nat} {c : Condition}
    (inner : ps.contains index = !c.isLeaf) : OperandAt ps index c.operand ↔
      (c.isLeaf = false → c.operand = []) ∧ OperandFits c := by
  rw [OperandAt, inner, OperandFits]
  cases c.isLeaf <;> simp

/-! ### Putting together -/

/-- A node with what is read of it. -/
def entry (n : Numbered) : Header × Bytes :=
  (headerRead n, n.node.operand)

/-- A node as it waits for its parent. -/
def waiting (n : Numbered) : Waiting :=
  (n.parent, n.node)

theorem make_node {c : Condition} (wf : WellFormed c) :
    make c.paramType c.operator c.operand c.children = .ok c :=
  wf.remade

theorem filter_waiting (q : Nat → Bool) (queue : List Numbered) :
    (queue.map waiting).filter (fun w => q w.1) =
      (queue.filter fun n => q n.parent).map waiting := by
  rw [List.filter_map]
  rfl

/-- **Putting together undoes a listing**: the nodes that are listed from a queue are put together
to the trees of the queue, each waiting for its parent. -/
theorem assemble_listing {next : Nat} {queue nodes : List Numbered} (h : Listing next queue nodes)
    (wf : ∀ n ∈ queue, WellFormed n.node) :
    assemble next (nodes.map entry) = .ok (queue.map waiting) := by
  induction h with
  | nil => rfl
  | @cons next first queue later nodes children others rest ih =>
    obtain ⟨wfFirst, wfQueue⟩ := List.forall_mem_cons.mp wf
    have wfLater : ∀ n ∈ later, WellFormed n.node := by
      intro n mem
      have inside := (map_node_later_perm children others).mem_iff.mp (List.mem_map_of_mem mem)
      rcases List.mem_append.mp inside with new | old
      · exact wfFirst.children _ new
      · obtain ⟨m, memQ, same⟩ := List.mem_map.mp old
        exact same ▸ wfQueue m memQ
    have nodes_ : ((joining next first.node).map waiting).map Prod.snd = first.node.children := by
      rw [List.map_map]
      exact map_node_joining next first.node
    rw [List.map_cons, entry, assemble, ih wfLater]
    simp only [ok_bind, filter_waiting (· == next), filter_waiting (· != next), children, others,
      nodes_, headerRead, make_node wfFirst, List.map_cons, waiting]

theorem root_listing {c : Condition} {below : List Numbered} (h : Listing 1 (joining 0 c) below)
    (wf : WellFormed c) : root (entry ⟨0, c⟩) (below.map entry) = .ok c := by
  have wfBelow : ∀ n ∈ joining 0 c, WellFormed n.node := fun n mem =>
    wf.children _ (node_mem_of_mem_joining mem)
  have nodes_ : ((joining 0 c).map waiting).map Prod.snd = c.children := by
    rw [List.map_map]
    exact map_node_joining 0 c
  rw [root, assemble_listing h wfBelow]
  simp only [ok_bind, nodes_, entry, headerRead, make_node wf]

/-! ### Reading back -/

/-- A node is named as a parent if and only if it has children. -/
theorem contains_parents {nodes : List Numbered} {i : Nat} {c : Condition}
    (children : nodes.filter (·.parent == i) = joining i c) :
    (nodes.map Numbered.parent).contains i = !c.isLeaf := by
  cases inner : c.children with
  | nil =>
    have none : (nodes.map Numbered.parent).contains i = false := by
      rw [joining, inner, List.map_nil, List.filter_eq_nil_iff] at children
      rw [List.contains_eq_mem, decide_eq_false_iff_not]
      intro mem
      obtain ⟨n, found, rfl⟩ := List.mem_map.mp mem
      exact children n found (beq_self_eq_true _)
    rw [none, isLeaf, inner]
    rfl
  | cons d ds =>
    have first : Numbered.mk i d ∈ nodes.filter (·.parent == i) := by
      rw [children, joining, inner]
      exact List.mem_cons_self
    have named : i ∈ nodes.map Numbered.parent :=
      List.mem_map.mpr ⟨_, (List.mem_filter.mp first).1, rfl⟩
    rw [List.contains_iff_mem.mpr named, isLeaf, inner]
    rfl

namespace Listing

variable {c : Condition} {nodes : List Numbered}

/-- The parents that the headers name are the nodes with children. -/
theorem contains_parents (h : Listing 0 [⟨0, c⟩] nodes) :
    EachFrom (fun i n => (nodes.tail.map Numbered.parent).contains i = !n.node.isLeaf) 0 nodes := by
  obtain ⟨below, rfl, rest⟩ := listing_root_iff.mp h
  have root : below.filter (·.parent == 0) = joining 0 c := by
    rw [rest.filter_parent Nat.zero_lt_one]
    exact List.filter_eq_self.mpr fun n mem => beq_iff_eq.mpr (parent_of_mem_joining mem)
  exact eachFrom_cons.mpr ⟨Condition.contains_parents root,
    (rest.children parent_of_mem_joining_root).imp fun _ _ => Condition.contains_parents⟩

theorem validParent (h : Listing 0 [⟨0, c⟩] nodes) : EachFrom ValidParent 0 nodes := by
  obtain ⟨below, rfl, rest⟩ := listing_root_iff.mp h
  exact eachFrom_cons.mpr ⟨.inr ⟨rfl, rfl⟩,
    (rest.parents_iff.mpr parent_of_mem_joining_root).imp fun _ _ => .inl⟩

/-- The index of a parent is below the number of nodes. -/
theorem parent_lt (h : Listing 0 [⟨0, c⟩] nodes) {n : Numbered} (mem : n ∈ nodes) :
    n.parent < c.nodeCount := by
  obtain ⟨i, inside, rfl⟩ := List.getElem_of_mem mem
  have valid := h.validParent i _ (List.getElem?_eq_getElem inside)
  rw [h.length_eq_nodeCount] at inside
  unfold ValidParent at valid
  omega

end Listing

/-- A node with children has no operand to write. -/
theorem WellFormed.bare {c : Condition} (wf : WellFormed c) :
    Everywhere (fun d => d.isLeaf = false → d.operand = []) c := by
  induction c using induct with
  | _ c ih =>
    refine .mk (fun inner => wf.operand_eq_nil fun none => ?_) fun d mem =>
      ih d mem (wf.children d mem)
    rw [isLeaf, none] at inner
    cases inner

/-- What is written are the headers and the operands of a listing. -/
theorem Listing.written_eq {c : Condition} {nodes : List Numbered} (h : Listing 0 [⟨0, c⟩] nodes) :
    written nodes = UInt8.ofNat (nodes.map headerRead).length ::
      ((nodes.map headerRead).flatMap Header.bytes ++
        operandBytes (namedParents (nodes.map headerRead)) 0
          (nodes.map fun n => n.node.operand)) := by
  rw [written, List.length_map, flatMap_bytes_headerRead, namedParents_headerRead,
    operandBytes_leaves h.contains_parents]

/-- A listing of a tree that fits is laid out by the bytes that write it. -/
theorem Listing.laid {c : Condition} {nodes : List Numbered} (h : Listing 0 [⟨0, c⟩] nodes)
    (wf : WellFormed c) (few : c.nodeCount ≤ maxNodes) (fit : Everywhere OperandFits c) :
    Laid (written nodes) (nodes.map headerRead) (nodes.map fun n => n.node.operand) where
  some := by
    obtain ⟨below, rfl, -⟩ := listing_root_iff.mp h
    exact List.cons_ne_nil _ _
  few := by rwa [List.length_map, h.length_eq_nodeCount]
  parents := eachFrom_map.mpr h.validParent
  each := by rw [List.length_map, List.length_map]
  operands := by
    rw [namedParents_headerRead, eachFrom_map]
    intro i n found
    have mem := List.mem_of_getElem? found
    exact (operandAt_iff (h.contains_parents i n found)).mpr
      ⟨h.everywhere_iff.mpr wf.bare n mem, h.everywhere_iff.mpr fit n mem⟩
  bytes_eq := h.written_eq

/-- **Reading the bytes of a tree gives the tree back**, in whichever order its nodes are listed. -/
theorem unpack_written {c : Condition} {nodes : List Numbered} (h : Listing 0 [⟨0, c⟩] nodes)
    (wf : WellFormed c) (few : c.nodeCount ≤ maxNodes) (fit : Everywhere OperandFits c) :
    unpack (written nodes) = .ok c := by
  have laid := h.laid wf few fit
  obtain ⟨below, rfl, rest⟩ := listing_root_iff.mp h
  have entries : ((⟨0, c⟩ :: below).map headerRead).zip
      ((⟨0, c⟩ :: below).map fun n => n.node.operand) = entry ⟨0, c⟩ :: below.map entry := by
    rw [List.zip_map']
    rfl
  rw [laid.unpack_eq entries, root_listing rest wf]

/-- What is read from a packed form is the tree that was packed. -/
theorem unpack_of_pack {c : Condition} (wf : WellFormed c) {bytes : Bytes}
    (h : c.pack = .ok bytes) : unpack bytes = .ok c := by
  obtain ⟨⟨few, fit⟩, rfl⟩ := pack_eq_ok_iff.mp h
  exact unpack_written c.listing_breadthFirst wf few fit

/-! ### The whole -/

/-- The numbers that are written as bytes are written whole: the number of nodes, the index of
each parent, and the length of each operand of a leaf. -/
structure WrittenWhole (c : Condition) : Prop where
  count : (UInt8.ofNat c.breadthFirst.length).toNat = c.breadthFirst.length
  parents : ∀ n ∈ c.breadthFirst, (UInt8.ofNat n.parent).toNat = n.parent
  lengths : ∀ n ∈ c.breadthFirst, n.node.isLeaf →
    ofBigEndian (bigEndian 2 n.node.operand.length) = n.node.operand.length

theorem writtenWhole_of_fits {c : Condition} (few : c.nodeCount ≤ maxNodes)
    (fit : Everywhere OperandFits c) : WrittenWhole c where
  count := UInt8.toNat_ofNat_of_lt' (by
    rw [c.listing_breadthFirst.length_eq_nodeCount]
    exact Nat.lt_of_le_of_lt few (by decide))
  parents n mem := UInt8.toNat_ofNat_of_lt'
    (Nat.lt_of_lt_of_le (c.listing_breadthFirst.parent_lt mem) (few.trans (by decide)))
  lengths n mem leaf := by
    have short := c.listing_breadthFirst.everywhere_iff.mpr fit n mem leaf
    rw [ofBigEndian_bigEndian]
    exact Nat.mod_eq_of_lt (Nat.lt_of_le_of_lt short (by decide))

/-- **Packing loses nothing**: a well-formed tree can be packed if and only if it has at most 255
nodes and no operand of a leaf is longer than 65535 bytes. Then every number is written whole, the
packed form is read back as the same tree, and no other well-formed tree has it. -/
theorem unpack_pack {t : Condition} (wf : WellFormed t) :
    ((∃ bytes, t.pack = .ok bytes) ↔
      t.nodeCount ≤ 255 ∧ Everywhere (fun n => n.isLeaf → n.operand.length ≤ 65535) t) ∧
    ∀ bytes, t.pack = .ok bytes →
      unpack bytes = .ok t ∧ WrittenWhole t ∧
        ∀ u, WellFormed u → u.pack = .ok bytes → u = t := by
  refine ⟨⟨?_, ?_⟩, ?_⟩
  · rintro ⟨bytes, packed⟩
    exact (pack_eq_ok_iff.mp packed).1
  · rintro ⟨few, fit⟩
    exact ⟨_, pack_of_fits few fit⟩
  · intro bytes packed
    have read := unpack_of_pack wf packed
    obtain ⟨⟨few, fit⟩, -⟩ := pack_eq_ok_iff.mp packed
    refine ⟨read, writtenWhole_of_fits few fit, fun u wfU packedU => ?_⟩
    have readU := unpack_of_pack wfU packedU
    rw [read] at readU
    exact (Except.ok.inj readU).symm

theorem unpack_pack_sampleCall :
    WellFormed sampleCall ∧ ∃ bytes, sampleCall.pack = .ok bytes ∧ unpack bytes = .ok sampleCall := by
  have wf : WellFormed sampleCall := by decide +kernel
  have fits : sampleCall.nodeCount ≤ 255 ∧
      Everywhere (fun n => n.isLeaf → n.operand.length ≤ 65535) sampleCall := by
    decide +kernel
  obtain ⟨packs, reads⟩ := unpack_pack wf
  obtain ⟨bytes, packed⟩ := packs.mpr fits
  exact ⟨wf, bytes, packed, (reads bytes packed).1⟩

end Condition

end CallGuard
