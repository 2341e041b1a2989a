import CallGuard.Proofs.BreadthFirst

/-!
# The worklist

The nodes of a tree are numbered by a loop over a list that grows while the loop goes along it. A
cursor points at a node; the children of that node join the end of the list, with the place of the
node as their parent, and the cursor moves on. What stands before the cursor is numbered for good,
and what stands behind it is a queue: `advance_append` says that the loop makes one round for every
node in and below the queue and then has no node left, and that the list is what the walk from the
queue makes of it.

Started with the root, the loop ends with the breadth-first order. `breadthFirst_numbers` says how
the nodes are numbered there.
-/

namespace CallGuard

namespace Condition

/-- The list that the loop goes along, and the place that it has come to. -/
structure Worklist where
  /-- The nodes that were found so far. -/
  nodes : List Numbered
  /-- The place of the next node whose children are found. -/
  cursor : Nat

namespace Worklist

/-- The loop starts with the root alone, which is its own parent. -/
def start (c : Condition) : Worklist :=
  ⟨[⟨0, c⟩], 0⟩

/-- One round of the loop; none if the cursor has come to the end of the list. -/
def step? (w : Worklist) : Option Worklist :=
  w.nodes[w.cursor]?.map fun n =>
    ⟨w.nodes ++ n.node.children.map (Numbered.mk w.cursor), w.cursor + 1⟩

/-- What as many rounds lead to; none if the loop ends before. -/
def advance : (rounds : Nat) → Worklist → Option Worklist
  | 0, w => some w
  | rounds + 1, w => w.step?.bind (advance rounds)

/-! ### Rounds -/

/-- **A round** takes the first node from behind the cursor and puts its children at the end. -/
theorem step?_append_cons (done queue : List Numbered) (first : Numbered) :
    step? ⟨done ++ first :: queue, done.length⟩ =
      some ⟨(done ++ [first]) ++ (queue ++ joining done.length first.node),
        (done ++ [first]).length⟩ := by
  simp [step?, joining]

theorem step?_eq_none (nodes : List Numbered) : step? ⟨nodes, nodes.length⟩ = none := by
  simp [step?]

/-- **The loop goes on** for as many rounds as there are nodes in and below what stands behind the
cursor. -/
theorem advance_append {rounds : Nat} {done queue : List Numbered} (size : queued queue = rounds) :
    advance rounds ⟨done ++ queue, done.length⟩ =
      some ⟨done ++ visit rounds done.length queue, done.length + rounds⟩ := by
  induction rounds generalizing done queue with
  | zero =>
    cases queue with
    | nil => simp [advance]
    | cons first queue =>
      have := queued_step 0 first queue
      omega
  | succ rounds ih =>
    cases queue with
    | nil => cases size
    | cons first queue =>
      have left : queued (queue ++ joining done.length first.node) = rounds := by
        have := queued_step done.length first queue
        omega
      rw [advance, step?_append_cons, Option.bind_some, ih left, visit_cons]
      simp [Nat.add_assoc, Nat.add_comm 1]

/-- **The loop ends** with the breadth-first order, after one round for every node. -/
theorem advance_start (c : Condition) :
    (start c).advance c.nodeCount = some ⟨c.breadthFirst, c.nodeCount⟩ := by
  have run := @advance_append _ [] _ c.queued_root
  simpa [start, breadthFirst] using run

end Worklist

/-! ### Places -/

variable (c : Condition)

theorem listing_belowRoot : Listing 1 (joining 0 c) c.belowRoot :=
  listing_visit c.queued_joining_le parent_of_mem_joining_root

theorem byParent_breadthFirst : ByParent c.breadthFirst :=
  c.listing_breadthFirst.eq_breadthFirst_iff.mp rfl

theorem byParent_belowRoot : ByParent c.belowRoot := by
  have sorted := c.byParent_breadthFirst
  rw [breadthFirst_eq] at sorted
  exact (List.pairwise_cons.mp sorted).2

variable {c}

/-- Below the root every node stands behind its parent. -/
theorem parent_lt_of_breadthFirst {i : Nat} {n : Numbered} (below : 0 < i)
    (found : c.breadthFirst[i]? = some n) : n.parent < i := by
  have behind := c.listing_belowRoot.parents_iff.mpr parent_of_mem_joining_root
  obtain ⟨i, rfl⟩ := Nat.exists_eq_add_of_lt below
  rw [breadthFirst_eq] at found
  have := behind i n (by simpa using found)
  omega

/-- Below the root, the nodes with the place of a node as their parent are its children. -/
theorem filter_belowRoot {p : Nat} {n : Numbered} (found : c.breadthFirst[p]? = some n) :
    c.belowRoot.filter (·.parent == p) = joining p n.node := by
  rw [breadthFirst_eq] at found
  cases p with
  | zero =>
    obtain rfl : ⟨0, c⟩ = n := by simpa using found
    rw [c.listing_belowRoot.filter_parent Nat.zero_lt_one, List.filter_eq_self]
    intro m mem
    simpa using parent_of_mem_joining mem
  | succ p =>
    have children := c.listing_belowRoot.children parent_of_mem_joining_root p n found
    rwa [Nat.add_comm 1 p] at children

/-- **The children of a node** stand together in the breadth-first order. -/
theorem exists_children_breadthFirst {p : Nat} {n : Numbered}
    (found : c.breadthFirst[p]? = some n) : ∃ before after,
      c.breadthFirst = ⟨0, c⟩ :: (before ++ joining p n.node ++ after) ∧
        (∀ m ∈ before, m.parent < p) ∧ ∀ m ∈ after, p < m.parent := by
  have whole : c.belowRoot = c.belowRoot.filter (·.parent < p) ++ joining p n.node ++
      c.belowRoot.filter (p < ·.parent) := by
    rw [← filter_belowRoot found]
    exact c.byParent_belowRoot.eq_append p
  refine ⟨c.belowRoot.filter (·.parent < p), c.belowRoot.filter (p < ·.parent), ?_, ?_, ?_⟩
  · rw [breadthFirst_eq, ← whole]
  · simp
  · simp

variable (c) in
/-- **The breadth-first order numbers the nodes** of a tree. The loop that finds it makes one round
for every node and then ends; it has an entry for every node, and the root comes first and is its
own parent. Parents do not decrease along it, and every other node stands behind its parent. Where a
node stands at a place, the entries after the root whose parent is that place are its children, in
order and with nothing between them. -/
theorem breadthFirst_numbers :
    (Worklist.start c).advance c.nodeCount = some ⟨c.breadthFirst, c.nodeCount⟩ ∧
    Worklist.step? ⟨c.breadthFirst, c.nodeCount⟩ = none ∧
    c.breadthFirst.length = c.nodeCount ∧
    c.breadthFirst[0]? = some ⟨0, c⟩ ∧
    c.breadthFirst.Pairwise (fun a b => a.parent ≤ b.parent) ∧
    (∀ i n, 0 < i → c.breadthFirst[i]? = some n → n.parent < i) ∧
    ∀ p n, c.breadthFirst[p]? = some n → ∃ before after,
      c.breadthFirst = ⟨0, c⟩ :: (before ++ n.node.children.map (Numbered.mk p) ++ after) ∧
        (∀ m ∈ before, m.parent < p) ∧ ∀ m ∈ after, p < m.parent := by
  have length := c.listing_breadthFirst.length_eq_nodeCount
  refine ⟨Worklist.advance_start c, ?_, length, ?_, c.byParent_breadthFirst, ?_, ?_⟩
  · rw [← length]
    exact Worklist.step?_eq_none c.breadthFirst
  · simp [breadthFirst_eq]
  · intro i n below found
    exact parent_lt_of_breadthFirst below found
  · intro p n found
    exact exists_children_breadthFirst found

/-- The children of a tuple stand behind the other component of the call. -/
example : (Condition.mk .calldata .matches [] [⟨.tuple, .matches, [], [pass .static, pass .static]⟩,
    pass .dynamic]).breadthFirst.map Numbered.parent = [0, 0, 0, 1, 1] := by
  decide

end Condition

end CallGuard
