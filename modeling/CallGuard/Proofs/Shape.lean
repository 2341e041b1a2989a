import CallGuard.Condition
import Mathlib.Data.List.Perm.Basic
import Mathlib.Data.List.Forall2

/-!
# The shape of well-formed trees

What well-formedness says of a node, read off its operator, and how the number of nodes of a
tree comes from its children. A well-formed node keeps its shape when its children are
exchanged for others, as long as there are some.
-/

namespace CallGuard

namespace Condition

theorem mk_eta (c : Condition) : Condition.mk c.paramType c.operator c.operand c.children = c := by
  cases c
  rfl

/-! ### Nodes -/

theorem shapeFault?_eq_none_iff {op : Operator} {v : Bytes} {cs : List Condition} :
    shapeFault? op v cs = none ↔
      if op.requiresChildren then cs ≠ [] ∧ v = [] else cs = [] := by
  unfold shapeFault?
  by_cases needs : op.requiresChildren
  · cases cs <;> cases v <;> simp [needs]
  · cases cs <;> simp [needs]

theorem WellFormed.children_ne_nil {c : Condition} (h : WellFormed c)
    (needs : c.operator.requiresChildren) : c.children ≠ [] := by
  have shape := shapeFault?_eq_none_iff.mp h.shape
  rw [if_pos needs] at shape
  exact shape.1

theorem WellFormed.requiresChildren {c : Condition} (h : WellFormed c) (some : c.children ≠ []) :
    c.operator.requiresChildren := by
  by_contra leaf
  have shape := shapeFault?_eq_none_iff.mp h.shape
  rw [if_neg leaf] at shape
  exact some shape

/-- Only leaves carry an operand. -/
theorem WellFormed.operand_eq_nil {c : Condition} (h : WellFormed c) (some : c.children ≠ []) :
    c.operand = [] := by
  have shape := shapeFault?_eq_none_iff.mp h.shape
  rw [if_pos (h.requiresChildren some)] at shape
  exact shape.2

/-- Allowances are leaves. -/
theorem WellFormed.isGlobalAllowance_eq_false {c : Condition} (h : WellFormed c)
    (some : c.children ≠ []) : c.isGlobalAllowance = false := by
  have needs := h.requiresChildren some
  unfold isGlobalAllowance
  revert needs
  cases c.operator <;> decide

/-- Free conditions are leaves. -/
theorem WellFormed.isPass_eq_false {c : Condition} (h : WellFormed c) (some : c.children ≠ []) :
    c.isPass = false := by
  have needs := h.requiresChildren some
  unfold isPass
  revert needs
  cases c.operator <;> decide

/-- A node with children stays well-formed with others. -/
theorem WellFormed.with_children {c : Condition} (h : WellFormed c) {cs : List Condition}
    (before : c.children ≠ []) (after : cs ≠ []) (below : ∀ d ∈ cs, WellFormed d) :
    WellFormed { c with children := cs } := by
  refine .mk (shapeFault?_eq_none_iff.mpr ?_) below
  rw [if_pos (h.requiresChildren before)]
  exact ⟨after, h.operand_eq_nil before⟩

/-- A node stays well-formed when its children are exchanged one for one. -/
theorem WellFormed.map_children {c : Condition} (h : WellFormed c) {f : Condition → Condition}
    (below : ∀ d ∈ c.children, WellFormed (f d)) :
    WellFormed { c with children := c.children.map f } := by
  refine .mk ?_ ?_
  · have shape := h.shape
    rw [shapeFault?_eq_none_iff] at shape ⊢
    simpa using shape
  · intro d mem
    obtain ⟨e, memE, rfl⟩ := List.mem_map.mp mem
    exact below e memE

theorem wellFormed_anyOf {cs : List Condition} (some : cs ≠ []) (below : ∀ d ∈ cs, WellFormed d) :
    WellFormed (anyOf cs) := by
  refine .mk (shapeFault?_eq_none_iff.mpr ?_) below
  simpa [anyOf, Operator.requiresChildren, Operator.kind] using some

mutual

/-- Whether a tree is well-formed. -/
def decideWellFormed : (c : Condition) → Decidable (WellFormed c)
  | ⟨_, op, v, cs⟩ =>
    match decideAllWellFormed cs with
    | isTrue below =>
      if shape : shapeFault? op v cs = none then isTrue (.mk shape below)
      else isFalse fun h => shape h.shape
    | isFalse below => isFalse fun h => below h.children

/-- Whether the trees of a list are well-formed. -/
def decideAllWellFormed : (cs : List Condition) → Decidable (∀ c ∈ cs, WellFormed c)
  | [] => isTrue nofun
  | c :: cs =>
    match decideWellFormed c, decideAllWellFormed cs with
    | isTrue first, isTrue rest => isTrue (List.forall_mem_cons.mpr ⟨first, rest⟩)
    | isFalse first, _ => isFalse fun h => first (h c List.mem_cons_self)
    | _, isFalse rest => isFalse fun h => rest fun d mem => h d (List.mem_cons_of_mem c mem)

end

instance (c : Condition) : Decidable (WellFormed c) :=
  decideWellFormed c

/-! ### All nodes of a tree -/

/-- A property of a node that all nodes of a tree have. -/
inductive Everywhere (P : Condition → Prop) : Condition → Prop where
  /-- A node with the property above children that have it everywhere. -/
  | mk {c : Condition} (here : P c) (children : ∀ d ∈ c.children, Everywhere P d) :
      Everywhere P c

section Decidable

variable {P : Condition → Prop} [DecidablePred P]

mutual

/-- Whether all nodes of a tree have a property that can be decided for each. -/
def decideEverywhere : (c : Condition) → Decidable (Everywhere P c)
  | ⟨type, op, v, cs⟩ =>
    match decideAllEverywhere cs with
    | isTrue below =>
      if here : P ⟨type, op, v, cs⟩ then isTrue (.mk here below)
      else isFalse fun | .mk holds _ => here holds
    | isFalse below => isFalse fun | .mk _ holds => below holds

/-- Whether all nodes of the trees of a list have a property. -/
def decideAllEverywhere : (cs : List Condition) → Decidable (∀ c ∈ cs, Everywhere P c)
  | [] => isTrue nofun
  | c :: cs =>
    match decideEverywhere c, decideAllEverywhere cs with
    | isTrue first, isTrue rest => isTrue (List.forall_mem_cons.mpr ⟨first, rest⟩)
    | isFalse first, _ => isFalse fun h => first (h c List.mem_cons_self)
    | _, isFalse rest => isFalse fun h => rest fun d mem => h d (List.mem_cons_of_mem c mem)

end

instance (c : Condition) : Decidable (Everywhere P c) :=
  decideEverywhere c

end Decidable

section Everywhere

variable {P Q : Condition → Prop} {c : Condition}

theorem Everywhere.here (h : Everywhere P c) : P c := by
  cases h
  assumption

theorem Everywhere.children (h : Everywhere P c) : ∀ d ∈ c.children, Everywhere P d := by
  cases h
  assumption

theorem Everywhere.and (left : Everywhere P c) (right : Everywhere Q c) :
    Everywhere (fun d => P d ∧ Q d) c := by
  induction c using induct with
  | node c ih =>
    exact .mk ⟨left.here, right.here⟩ fun d mem =>
      ih d mem (left.children d mem) (right.children d mem)

theorem Everywhere.imp (h : Everywhere P c) (imp : ∀ d, P d → Q d) : Everywhere Q c := by
  induction h with
  | mk here _ ih => exact .mk (imp _ here) ih

end Everywhere

/-! ### Weight -/

section Weight

variable {w : Operator → Bytes → Nat}

/-- The weight of a tree: of all its nodes together, if their operators and operands tell how much
they weigh. -/
def weight (w : Operator → Bytes → Nat) : Condition → Nat :=
  fold fun _ op v weights => w op v + weights.foldr (· + ·) 0

/-- The weight of the trees of a list. -/
def totalWeight (w : Operator → Bytes → Nat) (cs : List Condition) : Nat :=
  (cs.map (weight w)).foldr (· + ·) 0

theorem weight_eq (c : Condition) :
    weight w c = w c.operator c.operand + totalWeight w c.children :=
  fold_eq _ c

theorem weight_mk (p : ParamType) (op : Operator) (v : Bytes) (cs : List Condition) :
    weight w ⟨p, op, v, cs⟩ = w op v + totalWeight w cs :=
  weight_eq _

@[simp] theorem totalWeight_nil : totalWeight w [] = 0 :=
  rfl

@[simp] theorem totalWeight_cons (c : Condition) (cs : List Condition) :
    totalWeight w (c :: cs) = weight w c + totalWeight w cs :=
  rfl

@[simp] theorem totalWeight_append (cs ds : List Condition) :
    totalWeight w (cs ++ ds) = totalWeight w cs + totalWeight w ds := by
  induction cs with
  | nil => simp
  | cons c cs ih =>
    rw [List.cons_append, totalWeight_cons, totalWeight_cons, ih, Nat.add_assoc]

theorem totalWeight_perm {cs ds : List Condition} (h : cs.Perm ds) :
    totalWeight w cs = totalWeight w ds := by
  induction h with
  | nil => rfl
  | cons c _ ih => rw [totalWeight_cons, totalWeight_cons, ih]
  | swap c d cs => exact Nat.add_left_comm _ _ _
  | trans _ _ first second => exact first.trans second

theorem totalWeight_sublist {cs ds : List Condition} (h : cs.Sublist ds) :
    totalWeight w cs ≤ totalWeight w ds := by
  induction h with
  | slnil => exact Nat.le_refl _
  | cons d _ ih => rw [totalWeight_cons]; omega
  | cons_cons d _ ih => simp only [totalWeight_cons]; omega

theorem weight_le_totalWeight {c : Condition} {cs : List Condition} (h : c ∈ cs) :
    weight w c ≤ totalWeight w cs := by
  have := totalWeight_sublist (w := w) (List.singleton_sublist.mpr h)
  simpa using this

/-- A child and its parent together weigh no more than the tree. -/
theorem weight_add_le_of_mem {c d : Condition} (h : d ∈ c.children) :
    weight w d + w c.operator c.operand ≤ weight w c := by
  have := weight_le_totalWeight (w := w) h
  rw [weight_eq c]
  omega

theorem totalWeight_map_le {f : Condition → Condition} {cs : List Condition}
    (h : ∀ d ∈ cs, weight w (f d) ≤ weight w d) :
    totalWeight w (cs.map f) ≤ totalWeight w cs := by
  induction cs with
  | nil => exact Nat.le_refl _
  | cons c cs ih =>
    have here := h c List.mem_cons_self
    have rest := ih fun d mem => h d (List.mem_cons_of_mem c mem)
    simp only [List.map_cons, totalWeight_cons]
    omega

/-- A node with other children weighs no more if they do not. -/
theorem weight_with_children_le {c : Condition} {cs : List Condition}
    (h : totalWeight w cs ≤ totalWeight w c.children) :
    weight w { c with children := cs } ≤ weight w c := by
  rw [weight_mk, weight_eq c]
  omega

/-- Trees that each weigh at least as much as something. -/
theorem length_mul_le_totalWeight {least : Nat} {cs : List Condition}
    (h : ∀ c ∈ cs, least ≤ weight w c) : least * cs.length ≤ totalWeight w cs := by
  induction cs with
  | nil => exact Nat.le_refl _
  | cons c cs ih =>
    have here := h c List.mem_cons_self
    have rest := ih fun d mem => h d (List.mem_cons_of_mem c mem)
    rw [List.length_cons, Nat.mul_succ, totalWeight_cons]
    omega

/-- Free leaves are the lightest of all well-formed trees. -/
def PassLightest (w : Operator → Bytes → Nat) : Prop :=
  ∀ c, WellFormed c → w .pass [] ≤ weight w c

end Weight

/-! ### Size -/

/-- Every node weighs the same. -/
def unitWeight (_ : Operator) (_ : Bytes) : Nat :=
  1

theorem nodeCount_eq_weight (c : Condition) : c.nodeCount = weight unitWeight c :=
  rfl

theorem nodeCount_eq_totalWeight (c : Condition) :
    c.nodeCount = 1 + totalWeight unitWeight c.children :=
  nodeCount_eq c

theorem nodeCount_pos (c : Condition) : 0 < c.nodeCount := by
  rw [nodeCount_eq]
  omega

theorem passLightest_unitWeight : PassLightest unitWeight :=
  fun c _ => c.nodeCount_pos

/-- A bound that is no less than the number of nodes admits a step. -/
theorem exists_succ_of_nodeCount_le {c : Condition} {bound : Nat} (enough : c.nodeCount ≤ bound) :
    ∃ n, bound = n + 1 :=
  Nat.exists_eq_succ_of_ne_zero (Nat.ne_of_gt (Nat.lt_of_lt_of_le c.nodeCount_pos enough))

theorem nodeCount_lt_of_mem {c d : Condition} (h : d ∈ c.children) : d.nodeCount < c.nodeCount :=
  weight_add_le_of_mem (w := unitWeight) h

end Condition

end CallGuard
