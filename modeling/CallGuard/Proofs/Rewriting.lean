import CallGuard.Proofs.VariableSize
import Mathlib.Logic.Relation

/-!
# Structural rewriting

A tree may be rewritten at any node by one of the steps towards the normal form, taken on its own
and in any order, or by permuting the children of a group. Such rewriting keeps trees intact
(`Rewrites.intact`), and a tree can be rewritten to its normal form without factoring
(`rewrites_normalForm`), as long as ids tell apart what the groups compare.
-/

namespace CallGuard

namespace Condition

/-! ### Rewriting -/

/-- A step at the root of a tree. Repetitions are only left out among children that ids tell
apart. -/
inductive Step : Condition → Condition → Prop where
  /-- Inner groups of the same operator are taken in. -/
  | flatten (s : Condition) : Step s s.flatten
  /-- Repeated children are left out. -/
  | dedupe (s : Condition) (free : s.operator.isSetLike → CollisionFree s.children) :
      Step s s.dedupe
  /-- A group of one gives way to its child. -/
  | unwrap (s : Condition) : Step s s.unwrap
  /-- Free components at the end are left out. -/
  | prune (s : Condition) : Step s s.prune
  /-- The children of a group change places. -/
  | permute (s : Condition) {cs : List Condition} (group : s.operator.isSetLike)
      (perm : s.children.Perm cs) : Step s { s with children := cs }

/-- A step at any node of a tree. -/
inductive Rewrites : Condition → Condition → Prop where
  /-- A step at the root. -/
  | here {s t : Condition} (step : Step s t) : Rewrites s t
  /-- A step in one of the children. -/
  | inside {s t : Condition} (c : Condition) (before after : List Condition)
      (rewrites : Rewrites s t) :
      Rewrites { c with children := before ++ s :: after }
        { c with children := before ++ t :: after }

/-- Intact trees that rewriting, forth and back, turns into each other. -/
def StructurallyEqual : Condition → Condition → Prop :=
  Relation.EqvGen fun s t => Intact s ∧ Intact t ∧ Rewrites s t

/-! ### Integrity -/

/-- Whether a node is out of place depends on whether its parent admits allowances. -/
theorem placeFault?_congr {p q : Condition} (same : p.admitsAllowances = q.admitsAllowances)
    (c : Condition) : placeFault? (some p) c = placeFault? (some q) c := by
  simp only [placeFault?, Option.all_some, same]

theorem firstFault?_congr {p q : Condition} (same : p.admitsAllowances = q.admitsAllowances)
    {c : Condition} (h : firstFault? (some p) c = none) : firstFault? (some q) c = none := by
  rw [firstFault?_eq_none_iff] at h ⊢
  rwa [← placeFault?_congr same]

/-- What is no allowance is nowhere out of place. -/
theorem firstFault?_of_not_allowance {p q : Option Condition} {c : Condition}
    (other : c.isGlobalAllowance = false) (h : firstFault? p c = none) :
    firstFault? q c = none := by
  rw [firstFault?_eq_none_iff] at h ⊢
  refine ⟨⟨h.1.1, ?_⟩, h.2⟩
  simp only [placeFault?, other, Bool.false_and, Bool.false_eq_true, if_false]

/-- The children of a node that admits no allowances are none. -/
theorem isGlobalAllowance_eq_false_of_firstFault? {p c : Condition}
    (single : p.operator ≠ .matches) (h : firstFault? (some p) c = none) :
    c.isGlobalAllowance = false := by
  by_contra allowance
  rw [Bool.not_eq_false] at allowance
  have placed := (firstFault?_eq_none_iff.mp h).1.2
  have admits : p.admitsAllowances := by simpa [placeFault?, allowance] using placed
  exact single (operator_of_admitsAllowances admits)

/-- A node without faults is left without faults by other children without faults. -/
theorem firstFault?_with_children {parent : Option Condition} {c : Condition}
    {cs : List Condition} (h : firstFault? parent c = none)
    (count : c.operator.takesOneChild → cs.length = c.children.length)
    (below : ∀ d ∈ cs, firstFault? (some c) d = none) :
    firstFault? parent { c with children := cs } = none := by
  obtain ⟨⟨rule, place⟩, -⟩ := firstFault?_eq_none_iff.mp h
  refine firstFault?_eq_none_iff.mpr ⟨⟨?_, place⟩, fun d mem => ?_⟩
  · rwa [ruleFault?_with_children count]
  · have same : c.admitsAllowances = admitsAllowances { c with children := cs } := rfl
    exact firstFault?_congr same (below d mem)

theorem firstFault?_flatten {parent : Option Condition} {c : Condition}
    (h : firstFault? parent c = none) : firstFault? parent c.flatten = none := by
  by_cases assoc : c.operator.isAssociative
  · have below := (firstFault?_eq_none_iff.mp h).2
    rw [flatten_of_isAssociative assoc]
    refine firstFault?_with_children h (fun one => ?_) fun x mem => ?_
    · exact absurd one (takesOneChild_of_isSetLike (isSetLike_of_isAssociative assoc))
    · obtain ⟨d, memD, memX⟩ := List.mem_flatMap.mp mem
      unfold spliced at memX
      split at memX
      · rename_i same
        have inner := (firstFault?_eq_none_iff.mp (below d memD)).2 x memX
        have single : d.operator ≠ .matches := matches_ne_of_isAssociative (same ▸ assoc)
        exact firstFault?_of_not_allowance
          (isGlobalAllowance_eq_false_of_firstFault? single inner) inner
      · exact List.mem_singleton.mp memX ▸ below d memD
  · rwa [flatten_of_not_isAssociative assoc]

theorem firstFault?_dedupe {parent : Option Condition} {c : Condition}
    (h : firstFault? parent c = none) : firstFault? parent c.dedupe = none := by
  by_cases group : c.operator.isSetLike
  · rw [dedupe_of_isSetLike group]
    refine firstFault?_with_children h (fun one => ?_) fun x mem => ?_
    · exact absurd one (takesOneChild_of_isSetLike group)
    · exact (firstFault?_eq_none_iff.mp h).2 x ((distinct_sublist c.children).subset mem)
  · rwa [dedupe_of_not_isSetLike group]

theorem firstFault?_unwrap {parent : Option Condition} {c : Condition}
    (h : firstFault? parent c = none) : firstFault? parent c.unwrap = none := by
  rcases unwrap_cases c with ⟨assoc, d, only, eq⟩ | ⟨-, eq⟩
  · have inner := (firstFault?_eq_none_iff.mp h).2 d (only ▸ List.mem_singleton_self d)
    rw [eq]
    exact firstFault?_of_not_allowance
      (isGlobalAllowance_eq_false_of_firstFault? (matches_ne_of_isAssociative assoc) inner) inner
  · rwa [eq]

theorem firstFault?_prune {parent : Option Condition} {c : Condition}
    (h : firstFault? parent c = none) : firstFault? parent c.prune = none := by
  by_cases open_ : c.operator = .matches ∧ c.isOpenEnded
  · have children := (prune_children_subperm c).subset
    rw [prune_of_isOpenEnded open_.1 open_.2] at children ⊢
    refine firstFault?_with_children h (fun one => ?_) fun x mem => ?_
    · rw [open_.1] at one
      cases one
    · exact (firstFault?_eq_none_iff.mp h).2 x (children mem)
  · rwa [prune_of_not open_]

theorem Step.firstFault? {s t : Condition} (step : Step s t) {parent : Option Condition}
    (h : firstFault? parent s = none) : Condition.firstFault? parent t = none := by
  cases step with
  | flatten => exact firstFault?_flatten h
  | dedupe => exact firstFault?_dedupe h
  | unwrap => exact firstFault?_unwrap h
  | prune => exact firstFault?_prune h
  | permute group perm =>
    refine firstFault?_with_children h (fun _ => perm.length_eq.symm) fun x mem => ?_
    exact (firstFault?_eq_none_iff.mp h).2 x (perm.mem_iff.mpr mem)

theorem Rewrites.firstFault? {s t : Condition} (h : Rewrites s t) {parent : Option Condition}
    (sound : firstFault? parent s = none) : Condition.firstFault? parent t = none := by
  induction h generalizing parent with
  | here step => exact step.firstFault? sound
  | @inside s t c before after _ ih =>
    have children := (firstFault?_eq_none_iff.mp sound).2
    refine firstFault?_with_children (c := { c with children := before ++ s :: after }) sound
      (fun _ => by simp) fun x mem => ?_
    rcases List.mem_append.mp mem with early | late
    · exact children x (List.mem_append_left _ early)
    · rcases List.mem_cons.mp late with rfl | later
      · exact ih (children s (List.mem_append_right _ List.mem_cons_self))
      · exact children x (List.mem_append_right _ (List.mem_cons_of_mem s later))

theorem Step.wellFormed {s t : Condition} (step : Step s t) (wf : WellFormed s) :
    WellFormed t := by
  cases step with
  | flatten => exact wf.flatten
  | dedupe => exact wf.dedupe
  | unwrap => exact wf.unwrap
  | prune => exact wf.prune
  | permute group perm =>
    refine wf.with_group group (fun empty => ?_) fun x mem => wf.children x (perm.mem_iff.mpr mem)
    exact wf.children_ne_nil (requiresChildren_of_isSetLike group) (List.perm_nil.mp (empty ▸ perm))

theorem Rewrites.wellFormed {s t : Condition} (h : Rewrites s t) (wf : WellFormed s) :
    WellFormed t := by
  induction h with
  | here step => exact step.wellFormed wf
  | @inside s t c before after _ ih =>
    have some : before ++ t :: after ≠ [] := by simp
    refine wf.with_children (by simp) some fun x mem => ?_
    rcases List.mem_append.mp mem with early | late
    · exact wf.children x (List.mem_append_left _ early)
    · rcases List.mem_cons.mp late with rfl | later
      · exact ih (wf.children s (List.mem_append_right _ List.mem_cons_self))
      · exact wf.children x (List.mem_append_right _ (List.mem_cons_of_mem s later))

/-- **Rewriting keeps trees intact.** -/
theorem Rewrites.intact {s t : Condition} (h : Rewrites s t) (intact : Intact s) : Intact t where
  wellFormed := h.wellFormed intact.wellFormed
  checked := (checkIntegrity_eq_ok_iff t).mpr
    (h.firstFault? ((checkIntegrity_eq_ok_iff s).mp intact.checked))

/-- Intact trees are structurally equal to what they are rewritten to. -/
theorem structurallyEqual_of_rewrites {s t : Condition} (intact : Intact s)
    (h : Relation.ReflTransGen Rewrites s t) : StructurallyEqual s t := by
  have both : Intact t ∧ StructurallyEqual s t := by
    induction h with
    | refl => exact ⟨intact, .refl s⟩
    | @tail t u _ last ih =>
      have next := last.intact ih.1
      exact ⟨next, .trans s t u ih.2 (.rel t u ⟨ih.1, next, last⟩)⟩
  exact both.2

/-! ### Rewriting to the normal form -/

/-- A group whose content ids tell apart. -/
def Apart (c : Condition) : Prop :=
  c.operator.isSetLike → CollisionFree (content false c)

/-- Ids tell apart the contents of all groups of a tree if they tell apart what its run compares. -/
theorem everywhere_apart {c : Condition} (wf : WellFormed c)
    (free : CollisionFree (compared false c)) : Everywhere Apart c := by
  induction c using induct with
  | node c ih =>
    exact .mk (free.at wf).content fun d mem => ih d mem (wf.children d mem) (free.child wf mem)

theorem replaced?_false (c : Condition) : replaced? false c = none := by
  simp [replaced?]

/-- The normal form without factoring. -/
theorem normalForm_false {c : Condition} (wf : WellFormed c) :
    normalForm false c = (assembled false c).prepared.sort :=
  normalForm_of_not_replaced? wf (replaced?_false _)

/-- The children of a node can be rewritten one after the other. -/
theorem rewrites_children {f : Condition → Condition} (c : Condition) (before : List Condition)
    {cs : List Condition} (each : ∀ d ∈ cs, Relation.ReflTransGen Rewrites d (f d)) :
    Relation.ReflTransGen Rewrites { c with children := before ++ cs }
      { c with children := before ++ cs.map f } := by
  induction cs generalizing before with
  | nil => exact .refl
  | cons d ds ih =>
    obtain ⟨first, rest⟩ := List.forall_mem_cons.mp each
    have here : Relation.ReflTransGen Rewrites { c with children := before ++ d :: ds }
        { c with children := before ++ f d :: ds } :=
      first.lift (fun x => { c with children := before ++ x :: ds })
        fun _ _ step => .inside c before ds step
    have later := ih (before ++ [f d]) rest
    rw [List.append_assoc, List.append_assoc] at later
    exact here.trans later

/-- A node is rewritten to what is prepared of it and sorted. -/
theorem rewrites_prepared_sort {c : Condition}
    (free : c.operator.isSetLike → CollisionFree c.flatten.children) :
    Relation.ReflTransGen Rewrites c c.prepared.sort := by
  have repeated : c.prune.flatten.operator.isSetLike →
      CollisionFree c.prune.flatten.children := by
    intro group
    rw [flatten_operator, prune_operator] at group
    rw [prune_of_isSetLike group]
    exact free group
  have sorted : Relation.ReflTransGen Rewrites c.prepared c.prepared.sort := by
    by_cases group : c.prepared.operator.isSetLike
    · rw [sort_of_isSetLike group]
      exact .single (.here (.permute _ group (sorted_perm _).symm))
    · rw [sort_of_not_isSetLike group]
  calc
    Relation.ReflTransGen Rewrites c c.prune := .single (.here (.prune c))
    Relation.ReflTransGen Rewrites _ c.prune.flatten := .single (.here (.flatten _))
    Relation.ReflTransGen Rewrites _ c.gathered := .single (.here (.dedupe _ repeated))
    Relation.ReflTransGen Rewrites _ c.prepared := .single (.here (.unwrap _))
    Relation.ReflTransGen Rewrites _ c.prepared.sort := sorted

/-- **A tree can be rewritten to its normal form** without factoring. -/
theorem rewrites_normalForm {c : Condition} (wf : WellFormed c) (apart : Everywhere Apart c) :
    Relation.ReflTransGen Rewrites c (normalForm false c) := by
  induction c using induct with
  | node c ih =>
    have below := rewrites_children c [] fun d mem =>
      ih d mem (wf.children d mem) (apart.children d mem)
    have children : Relation.ReflTransGen Rewrites c (assembled false c) := by
      rwa [List.nil_append, mk_eta] at below
    rw [normalForm_false wf]
    refine children.trans (rewrites_prepared_sort fun group => ?_)
    rw [flatten_assembled_children]
    exact apart.here group

end Condition

end CallGuard
