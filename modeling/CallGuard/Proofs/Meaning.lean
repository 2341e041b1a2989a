import CallGuard.Proofs.Grouping
import CallGuard.Proofs.Pruning

/-!
# What trees mean

An `Interpretation` reads a tree as a predicate on a datum. It is free in what leaves ask, but for
those that accept everything, in what the components of a datum are, and in how the operators
combine what their children ask that are neither And, Or, Nor nor a match. Normalizing and
subtraction are right under all interpretations.

A match asks its components by position: the child that is the `i`-th one not an allowance of the
whole call asks the `i`-th component. Its allowances ask the datum itself.
-/

namespace CallGuard

/-- What a child of a node asks of a datum, and whether the child is an allowance of the whole
call. -/
structure Part (D : Type) where
  /-- Whether the child is an allowance of the whole call. -/
  allowance : Bool
  /-- What the child asks. -/
  asks : D → Prop

/-- A reading of condition trees as predicates on data. -/
structure Interpretation (D : Type) where
  /-- What a leaf asks, from its type, operator and operand. -/
  leaf : ParamType → Operator → Bytes → D → Prop
  /-- The component of a datum of a type at a position. -/
  component : ParamType → Nat → D → D
  /-- What a node asks that is of an operator read no further, from its type and from what its
  children ask. -/
  combined : Operator → ParamType → List (D → Prop) → D → Prop

namespace Interpretation

variable {D : Type} (I : Interpretation D)

/-- Whether each component of a datum from a position on is as asked. -/
def ComponentsHold (type : ParamType) (start : Nat) (asked : List (D → Prop)) (x : D) : Prop :=
  ∀ (i : Nat) (asks : D → Prop), asked[i]? = some asks → asks (I.component type (start + i) x)

/-- What a node asks, from its parts and what its children ask. -/
def node (type : ParamType) (op : Operator) (v : Bytes) (below : List (Part D)) : D → Prop :=
  match op with
  | .pass => fun _ => True
  | .and => fun x => ∀ part ∈ below, part.asks x
  | .or => fun x => ∃ part ∈ below, part.asks x
  | .nor => fun x => ∀ part ∈ below, ¬ part.asks x
  | .matches => fun x =>
    I.ComponentsHold type 0 ((below.filter fun part => !part.allowance).map Part.asks) x ∧
      ∀ part ∈ below, part.allowance → part.asks x
  | .xor | .arraySome | .arrayEvery | .arraySubset => I.combined op type (below.map Part.asks)
  | _ => I.leaf type op v

/-- A tree as a child of a node. -/
def part : Condition → Part D :=
  Condition.fold fun type op v below => ⟨op.isGlobalAllowance, I.node type op v below⟩

/-- What a tree asks of a datum. -/
def meaning (c : Condition) : D → Prop :=
  (I.part c).asks

open Condition

variable {c : Condition} {x : D}

theorem part_eq (c : Condition) : I.part c = ⟨c.isGlobalAllowance, I.meaning c⟩ := by
  unfold meaning part
  rw [fold_eq]
  rfl

/-- The meaning of a node. -/
theorem meaning_eq (c : Condition) :
    I.meaning c = I.node c.paramType c.operator c.operand (c.children.map I.part) := by
  unfold meaning part
  rw [fold_eq]

/-! ### Operators -/

theorem meaning_of_pass (h : c.isPass) : I.meaning c x := by
  rw [meaning_eq, eq_of_beq h]
  trivial

theorem meaning_and (h : c.operator = .and) :
    I.meaning c x ↔ ∀ d ∈ c.children, I.meaning d x := by
  rw [meaning_eq, h]
  exact List.forall_mem_map

theorem meaning_or (h : c.operator = .or) :
    I.meaning c x ↔ ∃ d ∈ c.children, I.meaning d x := by
  rw [meaning_eq, h]
  simp [node, part_eq]

theorem meaning_nor (h : c.operator = .nor) :
    I.meaning c x ↔ ∀ d ∈ c.children, ¬ I.meaning d x := by
  rw [meaning_eq, h]
  exact List.forall_mem_map

theorem meaning_anyOf (cs : List Condition) : I.meaning (anyOf cs) x ↔ ∃ d ∈ cs, I.meaning d x :=
  I.meaning_or rfl

/-- What a match asks of the components and of the datum. -/
theorem meaning_matches (h : c.operator = .matches) :
    I.meaning c x ↔ I.ComponentsHold c.paramType 0 (c.positional.map I.meaning) x ∧
      ∀ d ∈ c.allowances, I.meaning d x := by
  have components : ((c.children.map I.part).filter fun part => !part.allowance).map Part.asks =
      c.positional.map I.meaning := by
    rw [List.filter_map, List.map_map, positional]
    congr 1
    refine List.filter_congr fun d _ => ?_
    simp [part_eq]
  rw [meaning_eq, h]
  show I.ComponentsHold c.paramType 0 _ x ∧ _ ↔ _
  rw [components]
  refine and_congr_right fun _ => ?_
  simp only [List.forall_mem_map, part_eq, mem_allowances]
  exact ⟨fun all d mem => all d mem.1 mem.2, fun all d mem allowance => all d ⟨mem, allowance⟩⟩

/-! ### Components -/

section Components

variable {type : ParamType} {start : Nat} {asks : D → Prop} {asked others : List (D → Prop)}

theorem componentsHold_nil : I.ComponentsHold type start [] x := by
  intro i asks mem
  cases mem

theorem componentsHold_cons : I.ComponentsHold type start (asks :: asked) x ↔
    asks (I.component type start x) ∧ I.ComponentsHold type (start + 1) asked x := by
  constructor
  · intro all
    refine ⟨all 0 asks rfl, fun i later mem => ?_⟩
    rw [Nat.add_assoc, Nat.add_comm 1 i]
    exact all (i + 1) later mem
  · rintro ⟨first, rest⟩ i later mem
    cases i with
    | zero =>
      obtain rfl := Option.some.inj mem
      exact first
    | succ i =>
      rw [Nat.add_comm i 1, ← Nat.add_assoc]
      exact rest i later mem

theorem componentsHold_append : I.ComponentsHold type start (asked ++ others) x ↔
    I.ComponentsHold type start asked x ∧
      I.ComponentsHold type (start + asked.length) others x := by
  induction asked generalizing start with
  | nil => simp [componentsHold_nil]
  | cons asks asked ih =>
    rw [List.cons_append, componentsHold_cons, componentsHold_cons, ih, and_assoc,
      List.length_cons, Nat.add_assoc start 1, Nat.add_comm 1]

/-- Components that may be anything ask nothing. -/
theorem componentsHold_of_pass {cs : List Condition} (h : ∀ d ∈ cs, d.isPass) :
    I.ComponentsHold type start (cs.map I.meaning) x := by
  intro i asks mem
  obtain ⟨d, memD, rfl⟩ := List.mem_map.mp (List.mem_of_getElem? mem)
  exact I.meaning_of_pass (h d memD)

end Components

/-! ### Exchanging children -/

/-- Children may be exchanged for others that mean the same, one for one. -/
theorem meaning_map_children {f : Condition → Condition}
    (same : ∀ d ∈ c.children,
      I.meaning (f d) = I.meaning d ∧ (f d).isGlobalAllowance = d.isGlobalAllowance) :
    I.meaning { c with children := c.children.map f } = I.meaning c := by
  have parts : (c.children.map f).map I.part = c.children.map I.part := by
    rw [List.map_map]
    refine List.map_congr_left fun d mem => ?_
    rw [Function.comp, part_eq, part_eq, (same d mem).1, (same d mem).2]
  rw [meaning_eq, meaning_eq I c]
  exact congrArg _ parts

/-- A group of And, Or or Nor means the same with the same children otherwise arranged. -/
theorem meaning_of_isSetLike (group : c.operator.isSetLike) {cs : List Condition}
    (same : ∀ d, d ∈ cs ↔ d ∈ c.children) : I.meaning { c with children := cs } = I.meaning c := by
  funext x
  refine propext ?_
  obtain ⟨type, op, v, ds⟩ := c
  dsimp only at same group
  cases op <;> try cases group
  · rw [I.meaning_and rfl, I.meaning_and rfl]
    simp only [same]
  · rw [I.meaning_or rfl, I.meaning_or rfl]
    simp only [same]
  · rw [I.meaning_nor rfl, I.meaning_nor rfl]
    simp only [same]

/-- The reading of trees on bytes by which each byte is a component, and of all leaves only
comparisons with an operand ask something. -/
def bytewise : Interpretation Bytes where
  leaf _ op v x := op = .equalTo → x = v
  component _ i x := (x.drop i).take 1
  combined _ _ _ _ := False

end Interpretation

end CallGuard
