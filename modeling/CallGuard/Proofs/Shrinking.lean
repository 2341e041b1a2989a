import CallGuard.Deployment
import CallGuard.Proofs.Inherited
import CallGuard.Proofs.Packing

/-!
# Normal forms are no larger

Normalizing a well-formed tree ends with a well-formed tree that has no more nodes, no more levels
and no more packed bytes, and that can be packed and deployed if the tree can
(`normalize_ends_no_larger`). Nodes and bytes are weights of trees, of which free leaves are the
lightest: what padding adds to one branch is outweighed by the branch that served as the model,
which is merged away. Levels are counted along the recursion of the normal form.
-/

namespace CallGuard

namespace Condition

/-! ### Levels -/

theorem foldr_max_le_iff {xs : List Nat} {n : Nat} : xs.foldr max 0 ≤ n ↔ ∀ x ∈ xs, x ≤ n := by
  induction xs with
  | nil => simp
  | cons x xs ih => rw [List.foldr_cons, Nat.max_le, ih, List.forall_mem_cons]

theorem depth_le_succ_iff {c : Condition} {n : Nat} :
    c.depth ≤ n + 1 ↔ ∀ d ∈ c.children, d.depth ≤ n := by
  rw [depth_eq, Nat.add_comm, Nat.add_le_add_iff_right, foldr_max_le_iff, List.forall_mem_map]

theorem exists_depth_eq_succ (c : Condition) : ∃ n, c.depth = n + 1 :=
  ⟨_, (depth_eq c).trans (Nat.add_comm _ _)⟩

theorem depth_lt_of_mem {c d : Condition} (mem : d ∈ c.children) : d.depth < c.depth := by
  obtain ⟨n, levels⟩ := exists_depth_eq_succ c
  have := depth_le_succ_iff.mp levels.le d mem
  omega

/-- A node whose children have fewer levels than another has no more. -/
theorem depth_le_of_children {c e : Condition} (below : ∀ d ∈ e.children, d.depth < c.depth) :
    e.depth ≤ c.depth := by
  obtain ⟨n, levels⟩ := exists_depth_eq_succ c
  rw [levels, depth_le_succ_iff]
  intro d mem
  have := below d mem
  omega

theorem depth_gathered_le (c : Condition) : c.gathered.depth ≤ c.depth := by
  refine depth_le_of_children fun x mem => ?_
  rcases mem_gathered_children mem with ⟨own, -⟩ | ⟨d, memD, -, -, memX⟩
  · exact depth_lt_of_mem own
  · exact (depth_lt_of_mem memX).trans (depth_lt_of_mem memD)

theorem depth_prepared_le {c : Condition} (wf : WellFormed c) : c.prepared.depth ≤ c.depth := by
  rcases wf.prepared_cases with ⟨-, d, only, eq⟩ | ⟨-, eq⟩
  · have inner := depth_lt_of_mem (c := c.gathered) (only ▸ List.mem_singleton_self d)
    rw [eq]
    exact inner.le.trans (depth_gathered_le c)
  · rw [eq]
    exact depth_gathered_le c

theorem depth_sort_le (c : Condition) : c.sort.depth ≤ c.depth :=
  depth_le_of_children fun _ mem => depth_lt_of_mem ((sort_children_perm c).mem_iff.mp mem)

theorem depth_assembled_le {pushDown : Bool} {c : Condition}
    (below : ∀ d ∈ c.children, (normalForm pushDown d).depth ≤ d.depth) :
    (assembled pushDown c).depth ≤ c.depth := by
  refine depth_le_of_children (List.forall_mem_map.mpr fun d mem => ?_)
  exact (below d mem).trans_lt (depth_lt_of_mem mem)

/-- Padding adds no level to a node that has children. -/
theorem depth_padTo_le {c : Condition} (some : c.children ≠ []) (model : List Condition) :
    (padTo model c).depth ≤ c.depth := by
  refine depth_le_of_children fun d mem => ?_
  rcases mem_children_padTo mem with own | ⟨type, rfl⟩
  · exact depth_lt_of_mem own
  · obtain ⟨e, memE⟩ := List.exists_mem_of_ne_nil _ some
    obtain ⟨n, levels⟩ := exists_depth_eq_succ e
    have inner := depth_lt_of_mem memE
    have single : (pass type).depth = 1 := rfl
    omega

theorem depth_leveled_le {bs : List Condition} (wf : ∀ b ∈ bs, WellFormed b) {n : Nat}
    (levels : ∀ b ∈ bs, b.depth ≤ n) : ∀ b ∈ leveled bs, b.depth ≤ n := by
  unfold leveled
  split
  · rename_i common
    intro b mem
    obtain ⟨model, c, memC, rfl⟩ := exists_padTo_of_mem_padded mem
    have some := children_ne_nil_of_commonOperator? wf common rfl c memC
    exact (depth_padTo_le some model).trans (levels c memC)
  · exact levels

/-- The alternation moves down by one level, and the branches are one level below it. -/
theorem depth_factor?_le {bs : List Condition} (wf : ∀ b ∈ bs, WellFormed b) {d : Condition}
    (found : factor? bs = some d) : d.depth ≤ (anyOf bs).depth := by
  obtain ⟨op, first, rest, -, eq, -, -, rfl⟩ := (factor?_eq_some_iff wf).mp found
  obtain ⟨n, levels⟩ := exists_depth_eq_succ (anyOf bs)
  have branch {p : Frame × Condition} (mem : p ∈ first :: rest) : (filled p).depth ≤ n :=
    depth_leveled_le wf (depth_le_succ_iff.mp levels.le) _ (eq ▸ List.mem_map_of_mem mem)
  have child {p : Frame × Condition} (mem : p ∈ first :: rest) {x : Condition}
      (memX : x ∈ (filled p).children) : x.depth < n :=
    (depth_lt_of_mem memX).trans_le (branch mem)
  have alternatives : (anyOf ((first :: rest).map Prod.snd)).depth ≤ n := by
    obtain ⟨m, rfl⟩ : ∃ m, n = m + 1 := by
      have := child List.mem_cons_self (Frame.mem_fill_children.mpr (.inl rfl))
      exact Nat.exists_eq_succ_of_ne_zero (by omega)
    refine depth_le_succ_iff.mpr fun x memX => ?_
    obtain ⟨p, memP, rfl⟩ := List.mem_map.mp memX
    exact Nat.le_of_lt_succ (child memP (Frame.mem_fill_children.mpr (.inl rfl)))
  rw [levels, depth_le_succ_iff]
  intro x memX
  rcases Frame.mem_fill_children.mp memX with rfl | other
  · exact alternatives
  · exact (child List.mem_cons_self (Frame.mem_fill_children.mpr (.inr other))).le

theorem depth_replaced?_le {pushDown : Bool} {c d : Condition} (wf : WellFormed c)
    (found : replaced? pushDown c = some d) : d.depth ≤ c.depth := by
  have smaller := depth_factor?_le wf.children (replaced?_eq_some_iff.mp found).2.2
  exact smaller.trans (depth_le_of_children fun x mem => depth_lt_of_mem mem)

/-- **Normal forms have no more levels.** -/
theorem depth_normalForm_le {pushDown : Bool} {c : Condition} (wf : WellFormed c) :
    (normalForm pushDown c).depth ≤ c.depth := by
  refine normalForm_induct (motive := fun c n => n.depth ≤ c.depth)
    (fun c d wf below found _ again => ?_) (fun c wf below _ => ?_) wf
  · have wfE := wf.assembled pushDown
    exact again.trans ((depth_replaced?_le wfE.prepared found).trans
      ((depth_prepared_le wfE).trans (depth_assembled_le below)))
  · exact (depth_sort_le _).trans
      ((depth_prepared_le (wf.assembled pushDown)).trans (depth_assembled_le below))

/-! ### Bytes -/

/-- How many bytes are written for a node: its header, and the operand of a leaf with its
length. -/
def packedWeight (op : Operator) (operand : Bytes) : Nat :=
  if op.requiresChildren then 2 else 4 + operand.length

theorem passLightest_packedWeight : PassLightest packedWeight := by
  intro c wf
  induction c using induct with
  | node c ih =>
    show 4 ≤ _
    rw [weight_eq, packedWeight]
    split
    · rename_i needs
      obtain ⟨d, mem⟩ := List.exists_mem_of_ne_nil _ (wf.children_ne_nil needs)
      have light : 4 ≤ weight packedWeight d := ih d mem (wf.children d mem)
      have := weight_le_totalWeight (w := packedWeight) mem
      omega
    · omega

/-- Of well-formed nodes, those without children are those whose operator requires none. -/
theorem WellFormed.isLeaf_eq {c : Condition} (wf : WellFormed c) :
    c.isLeaf = !c.operator.requiresChildren := by
  have shape := shapeFault?_eq_none_iff.mp wf.shape
  cases needs : c.operator.requiresChildren with
  | true =>
    rw [if_pos needs] at shape
    simpa [isLeaf] using shape.1
  | false =>
    rw [if_neg (by rw [needs]; exact Bool.false_ne_true)] at shape
    simpa [isLeaf] using shape

/-- The headers of some nodes and the operands of the leaves among them have the bytes that are
written for each. -/
theorem length_written {nodes : List Numbered} (wf : ∀ n ∈ nodes, WellFormed n.node) :
    (nodes.flatMap header).length + ((leaves nodes).flatMap packedOperand).length =
      (nodes.map fun n => packedWeight n.node.operator n.node.operand).sum := by
  induction nodes with
  | nil => rfl
  | cons n nodes ih =>
    have rest := ih fun m mem => wf m (List.mem_cons_of_mem n mem)
    have leaf := (wf n List.mem_cons_self).isLeaf_eq
    have operand : n.node.packedOperand.length = 2 + n.node.operand.length := by
      rw [packedOperand, List.length_append, length_bigEndian]
    have head : (header n).length = 2 := rfl
    rw [leaves] at rest ⊢
    rw [List.flatMap_cons, List.length_append, List.map_cons, List.map_cons, List.filter_cons, leaf,
      List.sum_cons, ← rest, packedWeight]
    cases n.node.operator.requiresChildren with
    | true =>
      simp only [Bool.not_true, Bool.false_eq_true, if_false, if_true]
      omega
    | false =>
      simp only [Bool.not_false, Bool.false_eq_true, if_true, if_false, List.flatMap_cons,
        List.length_append]
      omega

theorem WellFormed.everywhere {c : Condition} (wf : WellFormed c) : Everywhere WellFormed c := by
  induction c using induct with
  | node c ih => exact .mk wf fun d mem => ih d mem (wf.children d mem)

/-- A packed form has a byte for the number of nodes and what is written for each of them. -/
theorem length_packedBytes {c : Condition} (wf : WellFormed c) :
    c.packedBytes.length = 1 + weight packedWeight c := by
  have written := length_written (c.listing_breadthFirst.everywhere_iff.mpr wf.everywhere)
  rw [c.listing_breadthFirst.sum_eq_weight] at written
  rw [packedBytes, List.length_cons, List.length_append, written, Nat.add_comm]

/-- Normal forms inherit that operands are short. -/
theorem inherited_operand_length : Inherited fun c => c.operand.length ≤ maxOperand where
  with_children short _ := short
  pass _ := Nat.zero_le _
  anyOf _ := Nat.zero_le _

/-- The operands of inner nodes fit because there are none. -/
theorem WellFormed.everywhere_operandFits_iff {c : Condition} (wf : WellFormed c) :
    Everywhere OperandFits c ↔ Everywhere (fun d => d.operand.length ≤ maxOperand) c := by
  refine ⟨fun fits => ?_, fun short => short.imp fun d fits _ => fits⟩
  refine (fits.and wf.everywhere).imp fun d ⟨fits, wfD⟩ => ?_
  by_cases leaf : d.isLeaf
  · exact fits leaf
  · rw [wfD.operand_eq_nil fun none => leaf (List.isEmpty_iff.mpr none)]
    exact Nat.zero_le _

/-- **A normal form can be packed** if the tree can, with no more bytes. -/
theorem pack_normalForm (pushDown : Bool) {c : Condition} (wf : WellFormed c) {bytes : Bytes}
    (packed : c.pack = .ok bytes) :
    ∃ fewer, (normalForm pushDown c).pack = .ok fewer ∧ fewer.length ≤ bytes.length := by
  obtain ⟨⟨few, fit⟩, rfl⟩ := pack_eq_ok_iff.mp packed
  have wfN := wf.normalForm pushDown
  have fitN := wfN.everywhere_operandFits_iff.mpr
    (inherited_operand_length.everywhere_normalForm wf (wf.everywhere_operandFits_iff.mp fit))
  refine ⟨_, pack_eq_ok_iff.mpr ⟨⟨(nodeCount_normalForm_le wf pushDown).trans few, fitN⟩, rfl⟩, ?_⟩
  have := weight_normalForm_le passLightest_packedWeight pushDown wf
  rw [length_packedBytes wf, length_packedBytes wfN]
  omega

/-! ### Addresses -/

/-- A tree has an address if its packed form fits into a contract. -/
theorem exists_address_iff {p : Placement} {c : Condition} :
    (∃ a, c.address p = .ok a) ↔ ∃ bytes, c.pack = .ok bytes ∧ bytes.length + 1 ≤ 65535 := by
  rw [address]
  cases c.pack with
  | error fault => simp [error_bind]
  | ok bytes =>
    rw [ok_bind, initCode]
    by_cases fits : bytes.length + 1 ≤ 65535
    · rw [if_pos fits, ok_bind]
      exact ⟨fun _ => ⟨bytes, rfl, fits⟩, fun _ => ⟨_, rfl⟩⟩
    · rw [if_neg fits, error_bind]
      constructor
      · rintro ⟨a, deployed⟩
        cases deployed
      · rintro ⟨_, ⟨⟩, fits'⟩
        exact absurd fits' fits

/-- **A normal form has an address** if the tree has. -/
theorem address_normalForm {pushDown : Bool} {c : Condition} (wf : WellFormed c) {p : Placement}
    {a : Address} (deployed : c.address p = .ok a) :
    ∃ a', (normalForm pushDown c).address p = .ok a' := by
  obtain ⟨bytes, packed, fits⟩ := exists_address_iff.mp ⟨a, deployed⟩
  obtain ⟨fewer, packed', less⟩ := pack_normalForm pushDown wf packed
  exact exists_address_iff.mpr ⟨fewer, packed', by omega⟩

/-! ### The whole -/

/-- A tree that is no larger than another: in nodes, in levels and in packed bytes. -/
structure NoLarger (n t : Condition) : Prop where
  /-- It has no more nodes. -/
  nodes : n.nodeCount ≤ t.nodeCount
  /-- It has no more levels. -/
  levels : n.depth ≤ t.depth
  /-- It can be packed if the other can, with no more bytes. -/
  packed : ∀ bytes, t.pack = .ok bytes → ∃ fewer, n.pack = .ok fewer ∧ fewer.length ≤ bytes.length
  /-- It has an address if the other has. -/
  deployed : ∀ p a, t.address p = .ok a → ∃ a', n.address p = .ok a'

theorem noLarger_normalForm (pushDown : Bool) {t : Condition} (wf : WellFormed t) :
    NoLarger (normalForm pushDown t) t where
  nodes := nodeCount_normalForm_le wf pushDown
  levels := depth_normalForm_le wf
  packed _ := pack_normalForm pushDown wf
  deployed _ _ := address_normalForm wf

/-- **Normalizing ends, does not fail and does not make trees larger.** On a well-formed tree the
recursion ends within any bound that the number of nodes does not exceed, with a well-formed tree
that is no larger than the tree. So merging some well-formed alternatives, at least one, never
fails either. -/
theorem normalize_ends_no_larger (pushDown : Bool) :
    (∀ t, WellFormed t → ∃ n,
      (∀ bound, t.nodeCount ≤ bound → normalizeWithin pushDown bound t = pure n) ∧
        normalize pushDown t = pure n ∧ WellFormed n ∧ NoLarger n t) ∧
    ∀ variants, variants ≠ [] → (∀ v ∈ variants, WellFormed v) →
      ∃ m, merge pushDown variants = pure m ∧ WellFormed m := by
  refine ⟨fun t wf => ?_, fun variants some wf => ?_⟩
  · exact ⟨normalForm pushDown t, normalizeWithin_eq wf, normalize_eq wf, wf.normalForm pushDown,
      noLarger_normalForm pushDown wf⟩
  · exact ⟨_, merge_eq some wf, (wellFormed_anyOf some wf).normalForm pushDown⟩

theorem normalize_sampleCalls_no_larger :
    (∃ n, normalize true sampleCalls = pure n ∧ WellFormed n ∧ NoLarger n sampleCalls) ∧
      ∃ m, merge true [sampleCalls, sampleCall] = pure m ∧ WellFormed m := by
  obtain ⟨ends, merges⟩ := normalize_ends_no_larger true
  obtain ⟨n, -, run, wf, smaller⟩ := ends sampleCalls (by decide +kernel)
  exact ⟨⟨n, run, wf, smaller⟩,
    merges [sampleCalls, sampleCall] (List.cons_ne_nil _ _) (by decide +kernel)⟩

end Condition

end CallGuard
