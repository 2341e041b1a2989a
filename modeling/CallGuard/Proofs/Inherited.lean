import CallGuard.Condition.Integrity
import CallGuard.Proofs.NormalForm

/-!
# Properties that normal forms inherit

A property that a node keeps when its children are exchanged, and that invented nodes have, holds
everywhere in a normal form if it holds everywhere in the tree (`Inherited.normalForm`). The
invented nodes are the free components that padding adds and the alternations that factoring
makes; all others are nodes of the tree with other children. An operator that takes one child
still has one, so that a property may count it.
-/

namespace CallGuard

namespace Condition

/-! ### Nodes with other children -/

theorem takesOneChild_of_isSetLike {op : Operator} (h : op.isSetLike) : ¬ op.takesOneChild := by
  cases op <;> first | exact Bool.false_ne_true | cases h

theorem takesOneChild_of_matches {op : Operator} (h : op = .matches) : ¬ op.takesOneChild := by
  rw [h]
  exact Bool.false_ne_true

/-- The rules of a node only ask for the number of its children. -/
theorem ruleFault?_with_children {c : Condition} {cs : List Condition}
    (count : c.operator.takesOneChild → cs.length = c.children.length) :
    ruleFault? { c with children := cs } = c.ruleFault? := by
  unfold ruleFault? operandFault?
  cases one : c.operator.takesOneChild with
  | false => simp
  | true => simp [count one]

/-- Gathering leaves a node with other children, one if its operator takes one. -/
theorem gathered_cases (c : Condition) : ∃ cs, c.gathered = { c with children := cs } ∧
    (c.operator.takesOneChild → cs.length = c.children.length) := by
  by_cases group : c.operator.isSetLike
  · exact ⟨_, gathered_of_isSetLike group,
      fun one => absurd one (takesOneChild_of_isSetLike group)⟩
  · rw [gathered_of_not_isSetLike group]
    by_cases open_ : c.operator = .matches ∧ c.isOpenEnded
    · exact ⟨_, prune_of_isOpenEnded open_.1 open_.2,
        fun one => absurd one (takesOneChild_of_matches open_.1)⟩
    · exact ⟨c.children, by rw [prune_of_not open_, mk_eta], fun _ => rfl⟩

theorem sort_cases (c : Condition) : ∃ cs, c.sort = { c with children := cs } ∧
    cs.length = c.children.length := by
  by_cases group : c.operator.isSetLike
  · exact ⟨_, sort_of_isSetLike group, (sorted_perm c.children).length_eq⟩
  · exact ⟨c.children, by rw [sort_of_not_isSetLike group, mk_eta], rfl⟩

theorem padTo_cases (model : List Condition) (c : Condition) :
    ∃ cs, padTo model c = { c with children := cs } := by
  by_cases wide : model.length ≤ c.positional.length
  · exact ⟨c.children, by rw [padTo_of_le wide, mk_eta]⟩
  · exact ⟨_, padTo_of_lt (by omega)⟩

/-! ### Inherited properties -/

/-- A property of nodes that does not depend on the children, other than on the number of those of
an operator that takes one, and that invented nodes have. -/
structure Inherited (P : Condition → Prop) : Prop where
  /-- A node keeps the property with other children. -/
  with_children : ∀ {c : Condition} {cs : List Condition}, P c →
    (c.operator.takesOneChild → cs.length = c.children.length) → P { c with children := cs }
  /-- Free components have it. -/
  pass : ∀ type, P (Condition.pass type)
  /-- Alternations have it. -/
  anyOf : ∀ cs, P (Condition.anyOf cs)

namespace Inherited

variable {P : Condition → Prop}

theorem everywhere_pass (h : Inherited P) (type : ParamType) :
    Everywhere P (Condition.pass type) :=
  .mk (h.pass type) fun _ mem => absurd mem List.not_mem_nil

theorem everywhere_anyOf (h : Inherited P) {cs : List Condition}
    (below : ∀ c ∈ cs, Everywhere P c) : Everywhere P (Condition.anyOf cs) :=
  .mk (h.anyOf cs) below

theorem everywhere_padTo (h : Inherited P) {c : Condition} (op : c.operator = .matches)
    (holds : Everywhere P c) (model : List Condition) : Everywhere P (padTo model c) := by
  refine .mk ?_ fun d mem => ?_
  · obtain ⟨cs, eq⟩ := padTo_cases model c
    rw [eq]
    exact h.with_children holds.here fun one => absurd one (takesOneChild_of_matches op)
  · rcases mem_children_padTo mem with own | ⟨type, rfl⟩
    · exact holds.children d own
    · exact h.everywhere_pass type

theorem everywhere_leveled (h : Inherited P) {bs : List Condition}
    (holds : ∀ b ∈ bs, Everywhere P b) : ∀ b ∈ leveled bs, Everywhere P b := by
  unfold leveled
  split
  · rename_i common
    obtain ⟨-, type, -, all⟩ := commonOperator?_eq_some_iff.mp common
    intro b mem
    obtain ⟨model, c, memC, rfl⟩ := exists_padTo_of_mem_padded mem
    exact h.everywhere_padTo (all c memC).2 (holds c memC) model
  · exact holds

/-- A frame takes in what has the property everywhere. -/
theorem everywhere_fill (h : Inherited P) {f : Frame} {x y : Condition}
    (around : Everywhere P (f.fill x)) (inside : Everywhere P y) : Everywhere P (f.fill y) := by
  refine .mk (h.with_children around.here fun _ => by simp) fun d mem => ?_
  rcases Frame.mem_fill_children.mp mem with rfl | other
  · exact inside
  · exact around.children d (Frame.mem_fill_children.mpr (.inr other))

/-- What branches factor into inherits what they have. -/
theorem everywhere_factor? (h : Inherited P) {bs : List Condition} (wf : ∀ b ∈ bs, WellFormed b)
    (holds : ∀ b ∈ bs, Everywhere P b) {d : Condition} (found : factor? bs = some d) :
    Everywhere P d := by
  obtain ⟨op, first, rest, -, eq, -, -, rfl⟩ := (factor?_eq_some_iff wf).mp found
  have branch {p : Frame × Condition} (mem : p ∈ first :: rest) : Everywhere P (filled p) :=
    h.everywhere_leveled holds _ (eq ▸ List.mem_map_of_mem mem)
  refine h.everywhere_fill (branch List.mem_cons_self) (h.everywhere_anyOf fun x memX => ?_)
  obtain ⟨p, memP, rfl⟩ := List.mem_map.mp memX
  exact (branch memP).children _ (Frame.mem_fill_children.mpr (.inl rfl))

theorem everywhere_prepared (h : Inherited P) {c : Condition} (wf : WellFormed c)
    (holds : Everywhere P c) : Everywhere P c.prepared := by
  have gathered : Everywhere P c.gathered := by
    refine .mk ?_ fun x mem => everywhere_of_mem_gathered holds.children mem
    obtain ⟨cs, eq, count⟩ := gathered_cases c
    rw [eq]
    exact h.with_children holds.here count
  rcases wf.prepared_cases with ⟨-, d, only, eq⟩ | ⟨-, eq⟩
  · rw [eq]
    exact gathered.children d (only ▸ List.mem_singleton_self d)
  · rwa [eq]

theorem everywhere_sort (h : Inherited P) {c : Condition} (holds : Everywhere P c) :
    Everywhere P c.sort := by
  refine .mk ?_ fun d mem => holds.children d ((sort_children_perm c).mem_iff.mp mem)
  obtain ⟨cs, eq, count⟩ := sort_cases c
  rw [eq]
  exact h.with_children holds.here fun _ => count

theorem everywhere_assembled (h : Inherited P) {pushDown : Bool} {c : Condition}
    (holds : Everywhere P c)
    (below : ∀ d ∈ c.children, Everywhere P d → Everywhere P (normalForm pushDown d)) :
    Everywhere P (assembled pushDown c) :=
  .mk (h.with_children holds.here fun _ => List.length_map _)
    (List.forall_mem_map.mpr fun d mem => below d mem (holds.children d mem))

/-- **Normal forms inherit** what holds everywhere in the tree. -/
theorem everywhere_normalForm (h : Inherited P) {pushDown : Bool} {c : Condition}
    (wf : WellFormed c) (holds : Everywhere P c) : Everywhere P (normalForm pushDown c) := by
  refine normalForm_induct (motive := fun c n => Everywhere P c → Everywhere P n)
    (fun c d wf below found _ again holds => again ?_) (fun c wf below _ holds => ?_) wf holds
  · have wfE := wf.assembled pushDown
    exact h.everywhere_factor? wfE.prepared.children
      (h.everywhere_prepared wfE (h.everywhere_assembled holds below)).children
      (replaced?_eq_some_iff.mp found).2.2
  · exact h.everywhere_sort
      (h.everywhere_prepared (wf.assembled pushDown) (h.everywhere_assembled holds below))

end Inherited

/-- Normal forms inherit that nodes keep the rules of their operators. -/
theorem inherited_ruleFault? : Inherited fun c => c.ruleFault? = none where
  with_children rules count := (ruleFault?_with_children count).trans rules
  pass type := by cases type <;> rfl
  anyOf _ := rfl

end Condition

end CallGuard
