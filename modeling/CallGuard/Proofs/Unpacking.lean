import CallGuard.Proofs.Shrinking

/-!
# What is unpacked

A byte string is read as a tree exactly if it writes the nodes of the tree in the order of a listing
(`unpack_eq_ok_iff`), since it lays out nodes if it is read to the end, and what waits for its
parent while nodes are put together is the queue of a listing. Packing writes the listing in which
the parents do not decrease, and all listings have as many bytes.
-/

namespace CallGuard

open Packed

namespace Condition

/-! ### Putting together -/

/-- What is put together are the trees of a listing, each waiting for its parent. -/
theorem listing_of_assemble {next : Nat} {entries : List (Header × Bytes)} {trees : List Waiting}
    (h : assemble next entries = .ok trees) : ∃ queue nodes, nodes.map entry = entries ∧
      queue.map waiting = trees ∧ Listing next queue nodes ∧ ∀ n ∈ nodes, WellFormed n.node := by
  induction entries generalizing next trees with
  | nil =>
    cases h
    exact ⟨[], [], rfl, rfl, .nil next, List.forall_mem_nil _⟩
  | cons first entries ih =>
    obtain ⟨⟨parent, type, operator⟩, operand⟩ := first
    obtain ⟨_, put, h⟩ := bind_eq_ok_iff.mp h
    obtain ⟨node, made, h⟩ := bind_eq_ok_iff.mp h
    cases h
    obtain ⟨later, nodes, rfl, rfl, rest, wf⟩ := ih put
    rw [filter_waiting (· == next), List.map_map] at made
    have wfNode : WellFormed node := by
      refine wellFormed_of_make made fun d mem => ?_
      obtain ⟨n, inside, rfl⟩ := List.mem_map.mp mem
      exact wf n (rest.sublist.subset (List.mem_filter.mp inside).1)
    obtain ⟨-, rfl⟩ := make_eq_ok_iff.mp made
    refine ⟨⟨parent, _⟩ :: later.filter (·.parent != next), ⟨parent, _⟩ :: nodes, rfl, ?_,
      .cons ?_ rfl rest, List.forall_mem_cons.mpr ⟨wfNode, wf⟩⟩
    · rw [filter_waiting (· != next)]
      rfl
    · exact eq_joining_iff.mpr ⟨rfl, fun n mem => by simpa using (List.mem_filter.mp mem).2⟩

/-- What is put together to a tree is a listing of it. -/
theorem listing_of_root {first : Header × Bytes} {later : List (Header × Bytes)} {c : Condition}
    (h : root first later = .ok c) (rooted : first.1.parent = 0)
    (valid : EachFrom (fun i e => e.1.parent < i) 1 later) :
    WellFormed c ∧ ∃ nodes, Listing 0 [⟨0, c⟩] nodes ∧ nodes.map entry = first :: later := by
  obtain ⟨trees, put, made⟩ := bind_eq_ok_iff.mp h
  obtain ⟨queue, below, rfl, rfl, rest, wf⟩ := listing_of_assemble put
  have known := rest.parents_iff.mp (eachFrom_map.mp valid)
  have wfC : WellFormed c := by
    refine wellFormed_of_make made fun d mem => ?_
    rw [List.map_map] at mem
    obtain ⟨n, inside, rfl⟩ := List.mem_map.mp mem
    exact wf n (rest.sublist.subset inside)
  obtain ⟨-, node⟩ := make_eq_ok_iff.mp made
  have children : queue = joining 0 c := by
    refine eq_joining_iff.mpr ⟨?_, fun n mem => Nat.lt_one_iff.mp (known n mem)⟩
    rw [node, List.map_map]
    rfl
  refine ⟨wfC, _, listing_root_iff.mpr ⟨below, rfl, children ▸ rest⟩, ?_⟩
  obtain ⟨⟨parent, type, operator⟩, operand⟩ := first
  obtain rfl : parent = 0 := rooted
  rw [node]
  rfl

/-- A tree that is read has a listing that the bytes lay out. -/
theorem listing_of_unpack {bytes : Bytes} {c : Condition} (h : unpack bytes = .ok c) :
    WellFormed c ∧ ∃ nodes, Listing 0 [⟨0, c⟩] nodes ∧ nodes.length ≤ maxNodes ∧
      (∀ n ∈ nodes, OperandFits n.node) ∧ bytes = written nodes := by
  rcases exists_laid_or_encoding bytes with ⟨hs, os, laid⟩ | ⟨_, refused⟩
  · obtain ⟨first, later, entries, headers, operands⟩ := exists_entries laid.some laid.each
    obtain ⟨rooted, valid⟩ := parents_of_entries (headers ▸ laid.parents)
    rw [laid.unpack_eq entries] at h
    obtain ⟨wf, nodes, listing, same⟩ := listing_of_root h rooted valid
    rw [← same, List.map_map] at headers operands
    obtain ⟨rfl, rfl⟩ : hs = nodes.map headerRead ∧ os = nodes.map fun n => n.node.operand :=
      ⟨headers, operands⟩
    have few := laid.few
    have fit := laid.operands
    rw [List.length_map] at few
    rw [namedParents_headerRead, eachFrom_map] at fit
    refine ⟨wf, nodes, listing, few, fun n mem => ?_, laid.bytes_eq.trans listing.written_eq.symm⟩
    obtain ⟨i, inside, rfl⟩ := List.getElem_of_mem mem
    have found := List.getElem?_eq_getElem inside
    exact ((operandAt_iff (listing.contains_parents i _ found)).mp (fit i _ found)).2
  · rw [refused] at h
    cases h

/-- **What is unpacked as a tree** are the byte strings that write a listing of it, if the nodes and
the operands fit. -/
theorem unpack_eq_ok_iff {bytes : Bytes} {c : Condition} : unpack bytes = .ok c ↔
    (WellFormed c ∧ c.nodeCount ≤ maxNodes ∧ Everywhere OperandFits c) ∧
      ∃ nodes, Listing 0 [⟨0, c⟩] nodes ∧ bytes = written nodes := by
  constructor
  · intro h
    obtain ⟨wf, nodes, listing, few, fit, same⟩ := listing_of_unpack h
    rw [listing.length_eq_nodeCount] at few
    exact ⟨⟨wf, few, listing.everywhere_iff.mp fit⟩, nodes, listing, same⟩
  · rintro ⟨⟨wf, few, fit⟩, nodes, listing, rfl⟩
    exact unpack_written listing wf few fit

/-! ### Packing again -/

/-- The bytes in which the headers of a packed form name parents: after the number of nodes, the
first of two for each of them. -/
def parentBytes (bytes : Bytes) : Bytes :=
  (List.range (bytes.headD 0).toNat).map fun i => bytes.getD (1 + 2 * i) 0

/-- The first of two bytes for each header. -/
theorem getD_flatMap_header {nodes : List Numbered} {i : Nat} (inside : i < nodes.length)
    (rest : Bytes) :
    (nodes.flatMap header ++ rest).getD (2 * i) 0 = UInt8.ofNat nodes[i].parent := by
  induction nodes generalizing i with
  | nil => cases inside
  | cons n nodes ih =>
    cases i with
    | zero => rfl
    | succ i => exact ih (Nat.lt_of_succ_lt_succ inside)

theorem parentBytes_written {nodes : List Numbered} (few : nodes.length ≤ maxNodes) :
    parentBytes (written nodes) = nodes.map fun n => UInt8.ofNat n.parent := by
  have count : (UInt8.ofNat nodes.length).toNat = nodes.length :=
    UInt8.toNat_ofNat_of_lt' (Nat.lt_of_le_of_lt few (by decide))
  rw [parentBytes, written, List.headD_cons, count]
  refine List.ext_getElem (by simp) fun i inRange inside => ?_
  rw [List.length_map] at inside
  rw [List.getElem_map, List.getElem_range, List.getElem_map, Nat.add_comm]
  exact getD_flatMap_header inside _

/-- A listing has as many bytes as the tree. -/
theorem Listing.length_written {c : Condition} {nodes : List Numbered}
    (h : Listing 0 [⟨0, c⟩] nodes) (wf : WellFormed c) :
    (written nodes).length = 1 + weight packedWeight c := by
  have lengths := Condition.length_written (h.everywhere_iff.mpr wf.everywhere)
  rw [h.sum_eq_weight] at lengths
  rw [written, List.length_cons, List.length_append, lengths, Nat.add_comm]

theorem Listing.parentBytes_sorted_iff {c : Condition} {nodes : List Numbered}
    (h : Listing 0 [⟨0, c⟩] nodes) (few : c.nodeCount ≤ maxNodes) :
    (parentBytes (written nodes)).Pairwise (· ≤ ·) ↔ ByParent nodes := by
  have whole {n : Numbered} (mem : n ∈ nodes) : (UInt8.ofNat n.parent).toNat = n.parent :=
    UInt8.toNat_ofNat_of_lt'
      (Nat.lt_of_lt_of_le (h.parent_lt mem) (few.trans (by decide)))
  rw [parentBytes_written (by rwa [h.length_eq_nodeCount]), List.pairwise_map]
  refine List.Pairwise.iff_of_mem fun memA memB => ?_
  rw [UInt8.le_iff_toNat_le, whole memA, whole memB]

/-- **Decoding and encoding again** gives back the bytes exactly if these list the nodes breadth
first. A byte string that is read as a tree has the number of its nodes in the first byte; the tree
can be packed, into as many bytes, and into the same bytes if and only if the bytes that name the
parents do not decrease. -/
theorem pack_unpack {bytes : Bytes} {t : Condition} (read : unpack bytes = .ok t) :
    bytes.head?.map UInt8.toNat = some t.nodeCount ∧
      ∃ packed, t.pack = .ok packed ∧ packed.length = bytes.length ∧
        (packed = bytes ↔ (parentBytes bytes).Pairwise (· ≤ ·)) := by
  obtain ⟨⟨wf, few, fit⟩, nodes, listing, rfl⟩ := unpack_eq_ok_iff.mp read
  have first : (UInt8.ofNat nodes.length).toNat = t.nodeCount := by
    rw [listing.length_eq_nodeCount]
    exact UInt8.toNat_ofNat_of_lt' (Nat.lt_of_le_of_lt few (by decide))
  refine ⟨congrArg some first, t.packedBytes, pack_of_fits few fit, ?_, ?_⟩
  · rw [packedBytes_eq, t.listing_breadthFirst.length_written wf, listing.length_written wf]
  · rw [packedBytes_eq, listing.parentBytes_sorted_iff few]
    constructor
    · intro same
      rw [← listing.parentBytes_sorted_iff few, ← same,
        t.listing_breadthFirst.parentBytes_sorted_iff few]
      exact t.listing_breadthFirst.eq_breadthFirst_iff.mp rfl
    · intro sorted
      rw [listing.eq_breadthFirst_iff.mpr sorted]

/-- Bytes that write the branches of an alternation before the condition that stands beside it. -/
def depthFirst : Bytes :=
  [5, 0, 1, 0, 2, 1, 48, 1, 48, 0, 48, 0, 1, 2, 0, 1, 3, 0, 1, 1]

/-- The branches are written after the condition when the tree is packed again. -/
theorem pack_unpack_depthFirst :
    ∃ t packed, unpack depthFirst = .ok t ∧ t.nodeCount = 5 ∧ t.pack = .ok packed ∧
      packed.length = depthFirst.length ∧ packed ≠ depthFirst := by
  have read : unpack depthFirst =
      .ok ⟨.none, .and, [], [anyOf [byteIs 2, byteIs 3], byteIs 1]⟩ := rfl
  obtain ⟨count, packed, packs, length, again⟩ := pack_unpack read
  exact ⟨_, packed, read, (Option.some.inj count).symm, packs, length,
    fun same => absurd (again.mp same) (by decide)⟩

end Condition

end CallGuard
