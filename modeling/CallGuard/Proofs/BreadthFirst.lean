import CallGuard.Packed
import CallGuard.Proofs.Shape
import Mathlib.Algebra.Ring.Nat

/-!
# Listings of a tree

`Listing` says that nodes stand in an order in which they can be put together again: each behind
its parent, and the children of a node in order. The laws below say what a listing holds: every node
of the tree, and the children of a node where its index is named as the parent. The breadth-first
order is the listing in which the parents do not decrease (`Listing.eq_breadthFirst_iff`): `visit`
takes the nodes of a queue in order and puts the children of each at the end of the queue.
-/

namespace CallGuard

/-- What holds of each element and its index, for elements that are numbered from `start` on. -/
def EachFrom {α : Type} (P : Nat → α → Prop) (start : Nat) (xs : List α) : Prop :=
  ∀ i x, xs[i]? = some x → P (start + i) x

section EachFrom

variable {α β : Type} {P Q : Nat → α → Prop} {start : Nat} {xs : List α}

theorem eachFrom_nil : EachFrom P start [] :=
  fun _ _ h => by cases h

theorem eachFrom_cons {x : α} :
    EachFrom P start (x :: xs) ↔ P start x ∧ EachFrom P (start + 1) xs := by
  constructor
  · intro h
    refine ⟨h 0 x rfl, fun i y found => ?_⟩
    have := h (i + 1) y found
    rwa [← Nat.add_assoc, Nat.add_right_comm] at this
  · rintro ⟨here, rest⟩ i y found
    cases i with
    | zero =>
      obtain rfl : x = y := Option.some.inj found
      exact here
    | succ i =>
      have := rest i y found
      rwa [Nat.add_right_comm, Nat.add_assoc] at this

theorem EachFrom.imp (h : EachFrom P start xs) (imp : ∀ i x, P i x → Q i x) : EachFrom Q start xs :=
  fun i x found => imp (start + i) x (h i x found)

theorem eachFrom_map {P : Nat → β → Prop} {f : α → β} :
    EachFrom P start (xs.map f) ↔ EachFrom (fun i x => P i (f x)) start xs := by
  induction xs generalizing start with
  | nil => exact iff_of_true eachFrom_nil eachFrom_nil
  | cons x xs ih => rw [List.map_cons, eachFrom_cons, eachFrom_cons, ih]

end EachFrom

namespace Condition

/-- The number of nodes in and below a queue. -/
def queued (queue : List Numbered) : Nat :=
  totalWeight unitWeight (queue.map Numbered.node)

/-- The children of a node with an index, as they join the queue. -/
def joining (index : Nat) (c : Condition) : List Numbered :=
  c.children.map (Numbered.mk index)

theorem map_node_joining (index : Nat) (c : Condition) :
    (joining index c).map Numbered.node = c.children := by
  rw [joining, List.map_map]
  exact List.map_id _

theorem parent_of_mem_joining {index : Nat} {c : Condition} {n : Numbered}
    (h : n ∈ joining index c) : n.parent = index := by
  obtain ⟨d, -, rfl⟩ := List.mem_map.mp h
  rfl

theorem node_mem_of_mem_joining {index : Nat} {c : Condition} {n : Numbered}
    (h : n ∈ joining index c) : n.node ∈ c.children := by
  obtain ⟨d, mem, rfl⟩ := List.mem_map.mp h
  exact mem

/-- The nodes with one parent are its children if the trees are. -/
theorem eq_joining_iff {index : Nat} {c : Condition} {ns : List Numbered} :
    ns = joining index c ↔ ns.map Numbered.node = c.children ∧ ∀ n ∈ ns, n.parent = index := by
  constructor
  · rintro rfl
    exact ⟨map_node_joining index c, fun n => parent_of_mem_joining⟩
  · rintro ⟨nodes, parents⟩
    rw [joining, ← nodes, List.map_map]
    refine (List.map_id ns).symm.trans (List.map_congr_left fun n mem => ?_)
    rw [Function.comp, ← parents n mem]
    rfl

/-! ### Listings -/

/-- That nodes, the first of which has the index `next`, are those in and below a queue, each behind
its parent: where a node is listed, its children stand in order among the nodes that are still to
come. -/
inductive Listing : (next : Nat) → (queue nodes : List Numbered) → Prop where
  /-- Nothing is listed of an empty queue. -/
  | nil (next : Nat) : Listing next [] []
  /-- The first of a queue is listed; its children and the others of the queue are still to come. -/
  | cons {next : Nat} {first : Numbered} {queue later nodes : List Numbered}
      (children : later.filter (·.parent == next) = joining next first.node)
      (others : later.filter (·.parent != next) = queue) (rest : Listing (next + 1) later nodes) :
      Listing next (first :: queue) (first :: nodes)

/-- What is still to come when a node is listed are its children and the others of the queue. -/
theorem map_node_later_perm {next : Nat} {first : Numbered} {queue later : List Numbered}
    (children : later.filter (·.parent == next) = joining next first.node)
    (others : later.filter (·.parent != next) = queue) :
    (later.map Numbered.node).Perm (first.node.children ++ queue.map Numbered.node) := by
  have split := List.filter_append_perm (fun n : Numbered => n.parent == next) later
  have others' : later.filter (fun n => !(n.parent == next)) = queue := others
  rw [children, others'] at split
  rw [← map_node_joining next first.node, ← List.map_append]
  exact (split.map Numbered.node).symm

/-- Parents that come before a queue also come before what is still to come. -/
theorem known_later {next : Nat} {first : Numbered} {queue later : List Numbered}
    (others : later.filter (·.parent != next) = queue)
    (known : ∀ n ∈ first :: queue, n.parent < next) : ∀ n ∈ later, n.parent < next + 1 := by
  intro n mem
  by_cases here : n.parent = next
  · omega
  · have old : n ∈ queue := others ▸ List.mem_filter.mpr ⟨mem, by simpa using here⟩
    exact Nat.lt_succ_of_lt (known n (List.mem_cons_of_mem first old))

namespace Listing

variable {next : Nat} {queue nodes : List Numbered}

/-- What is listed weighs as much as the trees of the queue. -/
theorem sum_eq {w : Operator → Bytes → Nat} (h : Listing next queue nodes) :
    (nodes.map fun n => w n.node.operator n.node.operand).sum =
      totalWeight w (queue.map Numbered.node) := by
  induction h with
  | nil => rfl
  | @cons next first queue later nodes children others rest ih =>
    rw [List.map_cons, List.sum_cons, ih, totalWeight_perm (map_node_later_perm children others),
      totalWeight_append, List.map_cons, totalWeight_cons, weight_eq first.node, Nat.add_assoc]

/-- As many nodes are listed as there are in and below the queue. -/
theorem length_eq (h : Listing next queue nodes) : nodes.length = queued queue := by
  rw [queued, ← h.sum_eq]
  simp [unitWeight]

/-- A listing has every node below the queue. -/
theorem forall_mem_iff {P : Condition → Prop} (h : Listing next queue nodes) :
    (∀ n ∈ nodes, P n.node) ↔ ∀ n ∈ queue, Everywhere P n.node := by
  induction h with
  | nil => simp
  | @cons next first queue later nodes children others rest ih =>
    have split : (∀ d ∈ later.map Numbered.node, Everywhere P d) ↔
        ∀ d ∈ first.node.children ++ queue.map Numbered.node, Everywhere P d :=
      forall_congr' fun d => imp_congr_left (map_node_later_perm children others).mem_iff
    rw [List.forall_mem_append, List.forall_mem_map, List.forall_mem_map] at split
    rw [List.forall_mem_cons, List.forall_mem_cons, ih, split]
    constructor
    · rintro ⟨here, below, later⟩
      exact ⟨.mk here below, later⟩
    · rintro ⟨whole, later⟩
      exact ⟨whole.here, whole.children, later⟩

/-- The queue is listed in order. -/
theorem sublist (h : Listing next queue nodes) : queue.Sublist nodes := by
  induction h with
  | nil => exact .refl []
  | cons children others rest ih => exact (others ▸ List.filter_sublist.trans ih).cons_cons _

/-- Each node is listed behind its parent if the parents of the queue come before. -/
theorem parents_iff (h : Listing next queue nodes) :
    EachFrom (fun i n => n.parent < i) next nodes ↔ ∀ n ∈ queue, n.parent < next := by
  induction h with
  | nil => exact iff_of_true eachFrom_nil (List.forall_mem_nil _)
  | @cons next first queue later nodes children others rest ih =>
    rw [eachFrom_cons, ih, List.forall_mem_cons]
    refine and_congr_right fun here => ⟨fun known n mem => ?_, fun known => ?_⟩
    · obtain ⟨inside, other⟩ := List.mem_filter.mp (others ▸ mem)
      have := known n inside
      rw [bne_iff_ne] at other
      omega
    · exact known_later others (List.forall_mem_cons.mpr ⟨here, known⟩)

/-- Of the nodes that are listed, the children of an earlier node are those in the queue. -/
theorem filter_parent {p : Nat} (h : Listing next queue nodes) (earlier : p < next) :
    nodes.filter (·.parent == p) = queue.filter (·.parent == p) := by
  induction h with
  | nil => rfl
  | @cons next first queue later nodes children others rest ih =>
    have kept : later.filter (·.parent == p) = queue.filter (·.parent == p) := by
      rw [← others, List.filter_filter]
      refine List.filter_congr fun n _ => ?_
      by_cases here : n.parent = p
      · simp [here, Nat.ne_of_lt earlier]
      · simp [here]
    rw [List.filter_cons, List.filter_cons, ih (by omega), kept]

/-- **The children of a node** are the nodes whose parent is its index, in order. -/
theorem children (h : Listing next queue nodes) (known : ∀ n ∈ queue, n.parent < next) :
    EachFrom (fun i n => nodes.filter (·.parent == i) = joining i n.node) next nodes := by
  induction h with
  | nil => exact eachFrom_nil
  | @cons next first queue later nodes children others rest ih =>
    have before := known first List.mem_cons_self
    refine eachFrom_cons.mpr ⟨?_, fun i n found => ?_⟩
    · rw [List.filter_cons_of_neg (by rw [beq_iff_eq]; omega),
        rest.filter_parent (Nat.lt_succ_self next), children]
    · show (first :: _).filter (·.parent == next + 1 + i) = joining (next + 1 + i) n.node
      rw [List.filter_cons_of_neg (by rw [beq_iff_eq]; omega)]
      exact ih (known_later others known) i n found

end Listing

/-! ### The breadth-first walk -/

@[simp] theorem visit_nil (bound next : Nat) : visit bound next [] = [] := by
  cases bound <;> rfl

theorem visit_cons (bound next : Nat) (first : Numbered) (queue : List Numbered) :
    visit (bound + 1) next (first :: queue) =
      first :: visit bound (next + 1) (queue ++ joining next first.node) :=
  rfl

/-- One node leaves the queue and its children join it. -/
theorem queued_step (next : Nat) (first : Numbered) (queue : List Numbered) :
    queued (queue ++ joining next first.node) + 1 = queued (first :: queue) := by
  simp only [queued, List.map_append, map_node_joining, totalWeight_append, List.map_cons,
    totalWeight_cons]
  rw [← nodeCount_eq_weight, nodeCount_eq_totalWeight first.node]
  omega

/-- A bound on the nodes that are still to come lets a walk go on. -/
theorem exists_succ_of_queued_le {bound : Nat} {first : Numbered} {queue : List Numbered}
    (next : Nat) (enough : queued (first :: queue) ≤ bound) :
    ∃ b, bound = b + 1 ∧ queued (queue ++ joining next first.node) ≤ b := by
  have := queued_step next first queue
  exact ⟨bound - 1, by omega, by omega⟩

/-- What joins the queue is told from what was in it by the parent. -/
theorem filter_joined (first : Numbered) {next : Nat} {queue : List Numbered}
    (known : ∀ n ∈ queue, n.parent < next) :
    (queue ++ joining next first.node).filter (·.parent == next) = joining next first.node ∧
      (queue ++ joining next first.node).filter (·.parent != next) = queue := by
  have old : ∀ n ∈ queue, n.parent ≠ next := fun n mem => Nat.ne_of_lt (known n mem)
  have new : ∀ n ∈ joining next first.node, n.parent = next := fun n => parent_of_mem_joining
  constructor
  · rw [List.filter_append, List.filter_eq_nil_iff.mpr fun n mem => by simpa using old n mem,
      List.filter_eq_self.mpr fun n mem => by simpa using new n mem, List.nil_append]
  · rw [List.filter_append, List.filter_eq_self.mpr fun n mem => by simpa using old n mem,
      List.filter_eq_nil_iff.mpr fun n mem => by simpa using new n mem, List.append_nil]

/-- **A walk lists the nodes** in and below the queue. -/
theorem listing_visit {bound next : Nat} {queue : List Numbered} (enough : queued queue ≤ bound)
    (known : ∀ n ∈ queue, n.parent < next) : Listing next queue (visit bound next queue) := by
  induction bound generalizing next queue with
  | zero =>
    cases queue with
    | nil => exact .nil next
    | cons first queue =>
      obtain ⟨b, bad, -⟩ := exists_succ_of_queued_le next enough
      cases bad
  | succ bound ih =>
    cases queue with
    | nil => exact .nil next
    | cons first queue =>
      obtain ⟨b, same, enough⟩ := exists_succ_of_queued_le next enough
      obtain rfl := Nat.succ.inj same
      obtain ⟨children, others⟩ := filter_joined first (List.forall_mem_cons.mp known).2
      rw [visit_cons]
      exact .cons children others (ih enough (known_later others known))

/-! ### Parents in order -/

/-- That the parents of some nodes do not decrease. -/
def ByParent (nodes : List Numbered) : Prop :=
  nodes.Pairwise fun a b => a.parent ≤ b.parent

/-- Nodes by parent stand in three parts: those with an earlier parent, those with that parent, and
those with a later one. -/
theorem ByParent.eq_append {nodes : List Numbered} (h : ByParent nodes) (p : Nat) :
    nodes = nodes.filter (·.parent < p) ++ nodes.filter (·.parent == p) ++
      nodes.filter (p < ·.parent) := by
  induction nodes with
  | nil => rfl
  | cons n nodes ih =>
    obtain ⟨least, sorted⟩ := List.pairwise_cons.mp h
    have whole := ih sorted
    -- no part before that of the first node has any other
    rcases Nat.lt_trichotomy n.parent p with less | here | more
    · simpa [less, Nat.ne_of_lt less, Nat.not_lt_of_gt less] using whole
    · have earlier : nodes.filter (·.parent < p) = [] := by
        simpa [here] using least
      simpa [here, earlier] using whole
    · have others : ∀ m ∈ nodes, p < m.parent := by
        intro m mem
        exact Nat.lt_of_lt_of_le more (least m mem)
      have earlier : nodes.filter (·.parent < p) = [] := by
        simpa using fun m mem => Nat.le_of_lt (others m mem)
      have same : nodes.filter (·.parent == p) = [] := by
        simpa using fun m mem => Nat.ne_of_gt (others m mem)
      rw [earlier, same] at whole
      simpa [more, Nat.ne_of_gt more, Nat.not_lt_of_gt more, earlier, same] using whole

/-- Nodes by parent have those with the last parent at the end. -/
theorem ByParent.append_filter {last : Nat} {nodes : List Numbered} (h : ByParent nodes)
    (bounded : ∀ n ∈ nodes, n.parent < last + 1) :
    nodes.filter (·.parent != last) ++ nodes.filter (·.parent == last) = nodes := by
  have whole := h.eq_append last
  have later : nodes.filter (last < ·.parent) = [] := by
    simpa using fun m mem => Nat.le_of_lt_succ (bounded m mem)
  have others : nodes.filter (·.parent != last) = nodes.filter (·.parent < last) := by
    apply List.filter_congr
    intro m mem
    have := bounded m mem
    rw [Bool.eq_iff_iff, bne_iff_ne, decide_eq_true_iff]
    omega
  rw [later, List.append_nil] at whole
  rw [others, ← whole]

/-- A listing by parent is the walk. -/
theorem Listing.eq_visit {bound next : Nat} {queue nodes : List Numbered}
    (h : Listing next queue nodes) (known : ∀ n ∈ queue, n.parent < next) (sorted : ByParent nodes)
    (enough : queued queue ≤ bound) : nodes = visit bound next queue := by
  induction h generalizing bound with
  | nil => exact (visit_nil bound _).symm
  | @cons next first queue later nodes children others rest ih =>
    have knownLater := known_later others known
    have sortedNodes := (List.pairwise_cons.mp sorted).2
    have split := ByParent.append_filter (List.Pairwise.sublist rest.sublist sortedNodes) knownLater
    rw [children, others] at split
    obtain ⟨b, rfl, within⟩ := exists_succ_of_queued_le next enough
    rw [split] at within
    rw [visit_cons, split, ← ih knownLater sortedNodes within]

/-- From a queue by parent the walk goes by parent. -/
theorem byParent_visit {bound next : Nat} {queue : List Numbered} (enough : queued queue ≤ bound)
    (known : ∀ n ∈ queue, n.parent < next) (sorted : ByParent queue) :
    ByParent (visit bound next queue) := by
  induction bound generalizing next queue with
  | zero => exact .nil
  | succ bound ih =>
    cases queue with
    | nil => exact .nil
    | cons first queue =>
      obtain ⟨b, same, enough⟩ := exists_succ_of_queued_le next enough
      obtain rfl := Nat.succ.inj same
      obtain ⟨here, later⟩ := List.forall_mem_cons.mp known
      obtain ⟨least, sortedQueue⟩ := List.pairwise_cons.mp sorted
      obtain ⟨-, others⟩ := filter_joined first later
      have knownLater := known_later others known
      have sortedLater : ByParent (queue ++ joining next first.node) := by
        refine List.pairwise_append.mpr ⟨sortedQueue, ?_, fun n old m new => ?_⟩
        · exact List.pairwise_of_forall_mem_list fun n memN m memM => by
            rw [parent_of_mem_joining memN, parent_of_mem_joining memM]
        · rw [parent_of_mem_joining new]
          exact Nat.le_of_lt (later n old)
      rw [visit_cons]
      refine List.pairwise_cons.mpr ⟨fun n mem => ?_, ih enough knownLater sortedLater⟩
      -- a node with a parent as early as that was in the queue
      by_contra less
      have early : n.parent < next + 1 := by omega
      have inside : n ∈ (visit bound (next + 1) (queue ++ joining next first.node)).filter
          (·.parent == n.parent) := List.mem_filter.mpr ⟨mem, beq_self_eq_true _⟩
      rw [(listing_visit enough knownLater).filter_parent early] at inside
      rcases List.mem_append.mp (List.mem_filter.mp inside).1 with old | new
      · exact less (least n old)
      · rw [parent_of_mem_joining new] at less
        omega

/-! ### The order of a tree -/

/-- The nodes below a root, in breadth-first order; the first of them has the index `1`. -/
def belowRoot (c : Condition) : List Numbered :=
  visit (c.nodeCount - 1) 1 (joining 0 c)

theorem queued_joining_le (c : Condition) : queued (joining 0 c) ≤ c.nodeCount - 1 := by
  rw [queued, map_node_joining, nodeCount_eq_totalWeight]
  omega

/-- The root comes first. -/
theorem breadthFirst_eq (c : Condition) : c.breadthFirst = ⟨0, c⟩ :: c.belowRoot := by
  obtain ⟨n, size⟩ := exists_succ_of_nodeCount_le (Nat.le_refl c.nodeCount)
  rw [breadthFirst, belowRoot, size, visit_cons]
  rfl

theorem parent_of_mem_joining_root {c : Condition} : ∀ n ∈ joining 0 c, n.parent < 1 :=
  fun _ mem => by rw [parent_of_mem_joining mem]; exact Nat.zero_lt_one

theorem queued_root (c : Condition) : queued [⟨0, c⟩] = c.nodeCount := by
  simp [queued, nodeCount_eq_weight]

/-- **A listing of a tree** has the root first, which is its own parent, and then the nodes
below. -/
theorem listing_root_iff {c : Condition} {nodes : List Numbered} :
    Listing 0 [⟨0, c⟩] nodes ↔
      ∃ below, nodes = ⟨0, c⟩ :: below ∧ Listing 1 (joining 0 c) below := by
  constructor
  · intro h
    cases h with
    | @cons _ _ _ later below children others rest =>
      have all : ∀ n ∈ later, n.parent = 0 := by simpa [List.filter_eq_nil_iff] using others
      rw [List.filter_eq_self.mpr fun n mem => by simpa using all n mem] at children
      exact ⟨below, rfl, children ▸ rest⟩
  · rintro ⟨below, rfl, rest⟩
    obtain ⟨children, others⟩ := filter_joined ⟨0, c⟩ (List.forall_mem_nil _)
    exact .cons children others rest

theorem listing_breadthFirst (c : Condition) : Listing 0 [⟨0, c⟩] c.breadthFirst :=
  listing_root_iff.mpr
    ⟨_, c.breadthFirst_eq, listing_visit c.queued_joining_le parent_of_mem_joining_root⟩

namespace Listing

variable {c : Condition} {nodes : List Numbered}

/-- A listing has as many nodes as the tree. -/
theorem length_eq_nodeCount (h : Listing 0 [⟨0, c⟩] nodes) : nodes.length = c.nodeCount :=
  h.length_eq.trans c.queued_root

theorem everywhere_iff {P : Condition → Prop} (h : Listing 0 [⟨0, c⟩] nodes) :
    (∀ n ∈ nodes, P n.node) ↔ Everywhere P c := by
  rw [h.forall_mem_iff, List.forall_mem_singleton]

/-- The nodes of a listing weigh as much as the tree. -/
theorem sum_eq_weight {w : Operator → Bytes → Nat} (h : Listing 0 [⟨0, c⟩] nodes) :
    (nodes.map fun n => w n.node.operator n.node.operand).sum = weight w c := by
  rw [h.sum_eq]
  exact Nat.add_zero _

/-- **The breadth-first order** is the listing by parent. -/
theorem eq_breadthFirst_iff (h : Listing 0 [⟨0, c⟩] nodes) :
    nodes = c.breadthFirst ↔ ByParent nodes := by
  obtain ⟨below, rfl, rest⟩ := listing_root_iff.mp h
  have root : ByParent (⟨0, c⟩ :: below) ↔ ByParent below :=
    List.pairwise_cons.trans (and_iff_right fun n _ => Nat.zero_le n.parent)
  rw [breadthFirst_eq, List.cons_inj_right, root]
  constructor
  · rintro rfl
    refine byParent_visit c.queued_joining_le parent_of_mem_joining_root ?_
    exact List.pairwise_of_forall_mem_list fun n memN m memM => by
      rw [parent_of_mem_joining memN, parent_of_mem_joining memM]
  · exact fun sorted => rest.eq_visit parent_of_mem_joining_root sorted c.queued_joining_le

end Listing

end Condition

end CallGuard
