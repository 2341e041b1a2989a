import CallGuard.Proofs.Content
import CallGuard.Proofs.Inherited
import CallGuard.Proofs.Placement

/-!
# Regular trees

What the check of integrity makes sure of, as far as normal forms depend on it: groups of And and
Or have no type of their own, and allowances stand where they are admitted. Both is true of all
subtrees, and of normal forms. It is what lets a step look at a group before it is settled: what a
group of one becomes is what its child becomes (`normalForm_of_only`).
-/

namespace CallGuard

namespace Condition

/-! ### Integrity -/

/-- A well-formed tree that passes the check of integrity. -/
structure Intact (c : Condition) : Prop where
  wellFormed : WellFormed c
  checked : c.checkIntegrity = .ok ()

/-- Whether a tree is intact. -/
instance (c : Condition) : Decidable (Intact c) :=
  decidable_of_iff (WellFormed c ∧ c.checkIntegrity = .ok ())
    ⟨fun ⟨wf, checked⟩ => ⟨wf, checked⟩, fun h => ⟨h.wellFormed, h.checked⟩⟩

/-! ### Regular trees -/

/-- A group of And or Or that has no type of its own. -/
def Untyped (c : Condition) : Prop :=
  c.operator.isAssociative → c.paramType = .none

theorem untyped_anyOf {cs : List Condition} (h : ∀ c ∈ cs, Everywhere Untyped c) :
    Everywhere Untyped (anyOf cs) :=
  .mk (fun _ => rfl) h

/-- What is true of all subtrees of intact trees. -/
structure Regular (c : Condition) : Prop where
  wellFormed : WellFormed c
  untyped : Everywhere Untyped c
  placed : Everywhere PlacesAllowances c

theorem Regular.child {c d : Condition} (h : Regular c) (mem : d ∈ c.children) : Regular d :=
  ⟨h.wellFormed.children d mem, h.untyped.children d mem, h.placed.children d mem⟩

theorem paramType_mem_scopes {c : Condition} (h : c.ruleFault? = none) :
    c.paramType ∈ c.operator.scopes := by
  by_contra other
  rw [ruleFault?, if_pos other] at h
  cases h

theorem Sound.untyped {c : Condition} (h : Sound c) : Untyped c := by
  intro assoc
  have scope := paramType_mem_scopes h.rules
  revert assoc scope
  cases c.operator <;> simp [Operator.isAssociative, Operator.scopes]

theorem Intact.sound {c : Condition} (h : Intact c) : Everywhere Sound c :=
  checkIntegrity_eq_ok_iff_sound.mp h.checked

theorem Intact.regular {c : Condition} (h : Intact c) : Regular c where
  wellFormed := h.wellFormed
  untyped := h.sound.imp fun _ => Sound.untyped
  placed := everywhere_placesAllowances h.checked

/-! ### Untyped groups -/

theorem Untyped.congr {c d : Condition} (h : Untyped c) (op : d.operator = c.operator)
    (type : d.paramType = c.paramType) : Untyped d := by
  intro assoc
  rw [op] at assoc
  exact type.trans (h assoc)

/-- Normal forms inherit that groups have no type of their own. -/
theorem inherited_untyped : Inherited Untyped where
  with_children untyped _ := untyped
  pass _ := nofun
  anyOf _ _ := rfl

/-! ### Groups of one -/

/-- What a child brings into a group is without repetitions. -/
theorem nodup_ids_taken {pushDown : Bool} {d : Condition} (wf : WellFormed d) (op : Operator) :
    ((taken pushDown op d).map id).Nodup := by
  unfold taken spliced
  split
  · rename_i assoc
    split
    · rename_i same
      exact (everywhere_tidy_normalForm wf).here.distinct (same ▸ isSetLike_of_isAssociative assoc)
    · exact List.nodup_singleton _
  · exact List.nodup_singleton _

/-- A group whose content is that of its only child is prepared as the child's normal form. -/
theorem prepared_assembled_of_only {pushDown : Bool} {c d : Condition} (wf : WellFormed c)
    (untyped : Everywhere Untyped c) (assoc : c.operator.isAssociative) (only : c.children = [d]) :
    (assembled pushDown c).prepared = normalForm pushDown d := by
  have group := isSetLike_of_isAssociative assoc
  have mem : d ∈ c.children := only ▸ List.mem_singleton_self d
  have wfD := wf.children d mem
  have tidy : Tidy (normalForm pushDown d) := (everywhere_tidy_normalForm wfD).here
  have whole : distinct (content pushDown c) = taken pushDown c.operator d := by
    rw [content, only, List.flatMap_singleton]
    exact distinct_of_nodup_ids (nodup_ids_taken wfD c.operator)
  rw [prepared_eq, gathered_assembled group, whole, taken_of_isAssociative assoc]
  by_cases same : (normalForm pushDown d).operator = c.operator
  · -- the group takes in what its child has become, and so has become the same
    have inner : Untyped (normalForm pushDown d) :=
      (inherited_untyped.everywhere_normalForm wfD (untyped.children d mem)).here
    have wfN := wfD.normalForm pushDown
    have type : c.paramType = (normalForm pushDown d).paramType :=
      (untyped.here assoc).trans (inner (same ▸ assoc)).symm
    have bare : c.operand = (normalForm pushDown d).operand := by
      rw [wf.operand_eq_nil (by simp [only]), wfN.operand_eq_nil]
      exact wfN.children_ne_nil (same ▸ requiresChildren_of_isSetLike group)
    rw [spliced_of_eq same, type, ← same, bare, mk_eta]
    rcases unwrap_cases (normalForm pushDown d) with ⟨many, x, single, -⟩ | ⟨-, eq⟩
    · have := tidy.many many
      rw [single] at this
      exact absurd this (by simp)
    · exact eq
  · rw [spliced_of_ne same]
    rcases unwrap_cases { c with children := [normalForm pushDown d] } with
      ⟨-, x, single, eq⟩ | ⟨many, -⟩
    · rw [eq, List.singleton_inj.mp single]
    · exact absurd rfl (many assoc)

theorem normalForm_of_only {pushDown : Bool} {c d : Condition} (wf : WellFormed c)
    (untyped : Everywhere Untyped c) (assoc : c.operator.isAssociative) (only : c.children = [d])
    (refused : replaced? pushDown (normalForm pushDown d) = none) :
    normalForm pushDown c = normalForm pushDown d := by
  have prepared : (assembled pushDown c).prepared = normalForm pushDown d :=
    prepared_assembled_of_only wf untyped assoc only
  rw [normalForm_of_not_replaced? wf (prepared ▸ refused), prepared]
  exact sort_normalForm (wf.children d (only ▸ List.mem_singleton_self d))

/-! ### Leaves -/

/-- Nothing becomes of a leaf. -/
theorem everywhere_canonical_of_leaf {pushDown : Bool} {c : Condition} (wf : WellFormed c)
    (leaf : c.children = []) : Everywhere (Canonical pushDown) c := by
  have other {op : Operator} (needs : op.requiresChildren) : c.operator ≠ op := fun same =>
    wf.children_ne_nil (same ▸ needs) leaf
  have single : ¬ c.operator.isSetLike := fun group =>
    wf.children_ne_nil (requiresChildren_of_isSetLike group) leaf
  refine .mk ⟨tidy_of_pruned single (prune_of_not fun both => other rfl both.1),
    replaced?_of_ne_or (other rfl) pushDown⟩ fun d mem => ?_
  rw [leaf] at mem
  cases mem

theorem operator_ne_or_of_isPass {c : Condition} (free : c.isPass) : c.operator ≠ .or := by
  rw [eq_of_beq free]
  exact nofun

theorem normalForm_of_isPass {pushDown : Bool} {c : Condition} (wf : WellFormed c)
    (free : c.isPass) : normalForm pushDown c = c := by
  refine normalForm_of_canonical wf (everywhere_canonical_of_leaf wf ?_)
  by_contra some
  have needs := wf.requiresChildren some
  rw [show c.operator = .pass from eq_of_beq free] at needs
  cases needs

end Condition

end CallGuard
