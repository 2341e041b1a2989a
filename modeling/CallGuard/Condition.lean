import CallGuard.Error

/-!
# Condition trees

A condition is a tree that scopes the data of a call: each node has the type of the region
in its scope, an operator, an operand and children. `WellFormed` says that the parts of
every node go together: exactly the nodes whose operator requires children have some, and
only leaves carry an operand. `make` is the checked constructor.

Functions on trees are folds: `fold` combines, at each node, the parts of the node with the
results for its children, and `fold_eq` is its equation.
-/

namespace CallGuard

/-- A condition tree. -/
structure Condition where
  /-- The type of the region in scope. -/
  paramType : ParamType
  /-- What is asked of the region. -/
  operator : Operator
  /-- The value to compare with; the empty string if there is none. -/
  operand : Bytes
  /-- The conditions on the parts of the region. -/
  children : List Condition
  deriving Inhabited

namespace Condition

/-! ### Folds -/

mutual

/-- Combines the parts of each node with the results for its children. -/
def fold {α : Type} (f : ParamType → Operator → Bytes → List α → α) : Condition → α
  | ⟨paramType, operator, operand, children⟩ => f paramType operator operand (foldAll f children)

/-- The results of `fold` on each tree of a list. -/
def foldAll {α : Type} (f : ParamType → Operator → Bytes → List α → α) : List Condition → List α
  | [] => []
  | c :: cs => fold f c :: foldAll f cs

end

theorem foldAll_eq_map {α : Type} (f : ParamType → Operator → Bytes → List α → α)
    (cs : List Condition) : foldAll f cs = cs.map (fold f) := by
  induction cs with
  | nil => rfl
  | cons c cs ih => rw [foldAll, ih, List.map_cons]

/-- A fold at a node. -/
theorem fold_eq {α : Type} (f : ParamType → Operator → Bytes → List α → α) (c : Condition) :
    fold f c = f c.paramType c.operator c.operand (c.children.map (fold f)) := by
  cases c
  rw [fold, foldAll_eq_map]

/-- Induction on trees: what holds of a node when it holds of its children holds of all. -/
theorem induct {motive : Condition → Prop}
    (node : ∀ c : Condition, (∀ d ∈ c.children, motive d) → motive c) (c : Condition) : motive c :=
  Condition.rec (motive_1 := motive) (motive_2 := fun cs => ∀ d ∈ cs, motive d)
    (fun p op v cs ih => node ⟨p, op, v, cs⟩ ih)
    (fun _ h => absurd h List.not_mem_nil)
    (fun _ _ hc hcs _ h => (List.mem_cons.mp h).elim (fun e => e ▸ hc) (hcs _)) c

mutual

/-- Whether two trees are the same, part by part. -/
def decideEq : (a b : Condition) → Decidable (a = b)
  | ⟨p, op, v, cs⟩, ⟨q, op', w, ds⟩ =>
    if here : p = q ∧ op = op' ∧ v = w then
      match decideAllEq cs ds with
      | isTrue below => isTrue (by rw [here.1, here.2.1, here.2.2, below])
      | isFalse below => isFalse fun h => by cases h; exact below rfl
    else isFalse fun h => by cases h; exact here ⟨rfl, rfl, rfl⟩

/-- Whether two lists of trees are the same. -/
def decideAllEq : (cs ds : List Condition) → Decidable (cs = ds)
  | [], [] => isTrue rfl
  | [], _ :: _ => isFalse nofun
  | _ :: _, [] => isFalse nofun
  | c :: cs, d :: ds =>
    match decideEq c d, decideAllEq cs ds with
    | isTrue first, isTrue rest => isTrue (by rw [first, rest])
    | isFalse first, _ => isFalse fun h => by cases h; exact first rfl
    | _, isFalse rest => isFalse fun h => by cases h; exact rest rfl

end

instance : DecidableEq Condition :=
  decideEq

/-! ### Size -/

/-- The number of nodes of a tree. -/
def nodeCount : Condition → Nat :=
  fold fun _ _ _ counts => 1 + counts.foldr (· + ·) 0

theorem nodeCount_eq (c : Condition) :
    c.nodeCount = 1 + (c.children.map nodeCount).foldr (· + ·) 0 :=
  fold_eq _ c

/-- The number of levels of a tree. -/
def depth : Condition → Nat :=
  fold fun _ _ _ depths => 1 + depths.foldr max 0

theorem depth_eq (c : Condition) : c.depth = 1 + (c.children.map depth).foldr max 0 :=
  fold_eq _ c

/-! ### Nodes -/

/-- Whether a node has no children. -/
def isLeaf (c : Condition) : Bool :=
  c.children.isEmpty

/-- Whether a node accepts everything in its scope. -/
def isPass (c : Condition) : Bool :=
  c.operator == .pass

/-- Whether a node is an allowance of the whole call. -/
def isGlobalAllowance (c : Condition) : Bool :=
  c.operator.isGlobalAllowance

/-- Whether a node scopes a whole call. -/
def isWholeCall (c : Condition) : Bool :=
  c.paramType.isWholeCall

/-- A leaf that accepts everything. -/
def pass (paramType : ParamType) : Condition :=
  ⟨paramType, .pass, [], []⟩

/-- An alternation of conditions on the same data. -/
def anyOf (alternatives : List Condition) : Condition :=
  ⟨.none, .or, [], alternatives⟩

/-! ### Well-formed trees -/

/-- Why parts do not make a node; children are looked at before the operand. -/
def shapeFault? (op : Operator) (operand : Bytes) (children : List Condition) :
    Option ShapeFault :=
  if op.requiresChildren then
    if children.isEmpty then some .noChildren
    else if operand.isEmpty then none
    else some .operandOnBranch
  else if children.isEmpty then none
  else some (.childrenOnLeaf children.length)

/-- A tree in which the parts of every node go together. -/
inductive WellFormed : Condition → Prop where
  /-- A node without a fault of shape above well-formed children. -/
  | mk {c : Condition} (shape : shapeFault? c.operator c.operand c.children = none)
      (children : ∀ d ∈ c.children, WellFormed d) : WellFormed c

/-- The node with the given parts, if they go together. -/
def make (paramType : ParamType) (operator : Operator) (operand : Bytes)
    (children : List Condition) : Except Error Condition :=
  match shapeFault? operator operand children with
  | some fault => .error (.malformed operator fault)
  | none => .ok ⟨paramType, operator, operand, children⟩

/-- The node with other children, if they go with its operator. -/
def withChildren (c : Condition) (children : List Condition) : Except Error Condition :=
  make c.paramType c.operator c.operand children

/-- A node that was put together freely, as the checked constructor makes it. -/
def remade (c : Condition) : Except Error Condition :=
  c.withChildren c.children

theorem wellFormed_iff (c : Condition) :
    WellFormed c ↔
      shapeFault? c.operator c.operand c.children = none ∧ ∀ d ∈ c.children, WellFormed d := by
  constructor
  · rintro ⟨shape, children⟩
    exact ⟨shape, children⟩
  · rintro ⟨shape, children⟩
    exact .mk shape children

theorem make_eq_ok_iff {p : ParamType} {op : Operator} {v : Bytes} {cs : List Condition}
    {c : Condition} : make p op v cs = .ok c ↔ shapeFault? op v cs = none ∧ c = ⟨p, op, v, cs⟩ := by
  unfold make
  cases shapeFault? op v cs with
  | none => simp [eq_comm]
  | some fault => simp

/-- The checked constructor makes well-formed trees of well-formed trees. -/
theorem wellFormed_of_make {p : ParamType} {op : Operator} {v : Bytes} {cs : List Condition}
    {c : Condition} (h : make p op v cs = .ok c) (children : ∀ d ∈ cs, WellFormed d) :
    WellFormed c := by
  obtain ⟨shape, rfl⟩ := make_eq_ok_iff.mp h
  exact .mk shape children

theorem WellFormed.shape {c : Condition} (h : WellFormed c) :
    shapeFault? c.operator c.operand c.children = none :=
  ((wellFormed_iff c).mp h).1

theorem WellFormed.children {c : Condition} (h : WellFormed c) : ∀ d ∈ c.children, WellFormed d :=
  ((wellFormed_iff c).mp h).2

/-- Making a well-formed node anew changes nothing. -/
theorem WellFormed.remade {c : Condition} (h : WellFormed c) : c.remade = .ok c := by
  rw [Condition.remade, withChildren, make_eq_ok_iff]
  refine ⟨h.shape, ?_⟩
  cases c
  rfl

theorem wellFormed_pass (p : ParamType) : WellFormed (pass p) := by
  refine .mk rfl ?_
  intro d h
  exact absurd h List.not_mem_nil

end Condition

end CallGuard
