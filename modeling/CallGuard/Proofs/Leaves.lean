import CallGuard.Proofs.Difference
import CallGuard.Proofs.VariableSize

/-!
# Alternations of leaves

Leaves have no hinge, so that an alternation of different leaves is in normal form once they stand
in canonical order. Subtracting one of them leaves the normal form of the alternation of the others,
which is the last leaf itself if there is no other (`LeafValues.difference_anyOf`).
-/

namespace CallGuard

namespace Condition

/-! ### Leaves -/

theorem normal_of_leaf {v : Condition} (wf : WellFormed v) (leaf : v.children = []) : Normal v :=
  ⟨wf, everywhere_canonical_of_leaf wf leaf⟩

theorem slotType_of_leaf {v : Condition} (leaf : v.children = []) : v.slotType = v.paramType := by
  rw [slotType_eq, leaf]
  cases v.paramType <;> rfl

theorem isDynamic_of_leaf {v w : Condition} (leaf : v.children = []) (leafW : w.children = [])
    (type : v.paramType = w.paramType) : v.isDynamic = w.isDynamic := by
  rw [isDynamic_eq, isDynamic_eq w, leaf, leafW, type]

theorem slotType_anyOf {vs : List Condition} (some : vs ≠ []) {type : ParamType}
    (all : ∀ v ∈ vs, v.slotType = type) : (anyOf vs).slotType = type := by
  obtain ⟨v, vs, rfl⟩ := List.exists_cons_of_ne_nil some
  rw [slotType_eq]
  exact all v List.mem_cons_self

/-- Alternatives that are no alternations are the content of their alternation. -/
theorem content_anyOf {xs : List Condition}
    (other : ∀ x ∈ xs, (normalForm true x).operator ≠ .or) :
    content true (anyOf xs) = xs.map (normalForm true) := by
  rw [content, List.map_eq_flatMap]
  refine List.flatMap_congr fun x mem => ?_
  rw [taken_of_isAssociative rfl]
  exact if_neg (other x mem)

/-- The alternation of one alternative in normal form is the alternative. -/
theorem Normal.normalForm_anyOf {c : Condition} (h : Normal c) (other : c.operator ≠ .or) :
    normalForm true (anyOf [c]) = c := by
  have wf : WellFormed (anyOf [c]) :=
    wellFormed_anyOf (by simp) (List.forall_mem_singleton.mpr h.wellFormed)
  have prepared : (assembled true (anyOf [c])).prepared = c := by
    rw [prepared_eq, gathered_assembled rfl,
      content_anyOf (List.forall_mem_singleton.mpr (h.normalForm_eq.symm ▸ other)),
      List.map_singleton, h.normalForm_eq]
    rfl
  rw [normalForm_of_not_replaced? wf, prepared, h.tidy.sort_eq]
  rw [prepared]
  exact h.canonical.here.refused

/-- Leaves that are told apart by their ids. -/
structure LeafValues (vs : List Condition) : Prop where
  wellFormed : ∀ v ∈ vs, WellFormed v
  leaf : ∀ v ∈ vs, v.children = []
  apart : (vs.map id).Nodup

namespace LeafValues

variable {vs ws : List Condition} {v : Condition}

theorem perm (h : LeafValues vs) (perm : vs.Perm ws) : LeafValues ws where
  wellFormed w mem := h.wellFormed w (perm.mem_iff.mpr mem)
  leaf w mem := h.leaf w (perm.mem_iff.mpr mem)
  apart := (perm.map id).nodup_iff.mp h.apart

theorem sublist (h : LeafValues vs) (sub : ws.Sublist vs) : LeafValues ws where
  wellFormed w mem := h.wellFormed w (sub.subset mem)
  leaf w mem := h.leaf w (sub.subset mem)
  apart := h.apart.sublist (sub.map id)

theorem sorted (h : LeafValues vs) : LeafValues (sorted vs) :=
  h.perm (sorted_perm vs).symm

theorem normal (h : LeafValues vs) (mem : v ∈ vs) : Normal v :=
  normal_of_leaf (h.wellFormed v mem) (h.leaf v mem)

theorem operator_ne (h : LeafValues vs) (mem : v ∈ vs) {op : Operator}
    (needs : op.requiresChildren) : v.operator ≠ op :=
  fun same => (h.wellFormed v mem).children_ne_nil (same ▸ needs) (h.leaf v mem)

theorem wellFormed_anyOf (h : LeafValues vs) (some : vs ≠ []) : WellFormed (anyOf vs) :=
  Condition.wellFormed_anyOf some h.wellFormed

theorem anyOf_ne (h : LeafValues vs) (some : ws ≠ []) (mem : v ∈ vs) : anyOf ws ≠ v := by
  rintro rfl
  exact some (h.leaf _ mem)

end LeafValues

/-- Different leaves are told apart by their ids if the run on their alternation does so. -/
theorem leafValues_of_free {vs : List Condition} (wf : ∀ v ∈ vs, WellFormed v)
    (leaf : ∀ v ∈ vs, v.children = []) (different : vs.Nodup) (many : 2 ≤ vs.length)
    (free : CollisionFree (compared true (anyOf vs))) : LeafValues vs where
  wellFormed := wf
  leaf := leaf
  apart := by
    have whole : WellFormed (anyOf vs) :=
      wellFormed_anyOf (List.ne_nil_of_length_pos (by omega)) wf
    have children : assembled true (anyOf vs) = anyOf vs := assembled_eq_self fun v mem =>
      (normal_of_leaf (wf v mem) (leaf v mem)).normalForm_eq
    have flat : ∀ v ∈ vs, v.operator ≠ .or := fun v mem or =>
      (wf v mem).children_ne_nil (by rw [or]; rfl) (leaf v mem)
    exact (prepared_assembled_of_flat whole rfl children flat different many free).2

/-! ### Normal forms -/

namespace LeafValues

variable {vs : List Condition}

/-- Leaves have no hinge. -/
theorem replaced?_anyOf (h : LeafValues vs) : replaced? true (anyOf vs) = none := by
  cases found : replaced? true (anyOf vs) with
  | none => rfl
  | some d =>
    obtain ⟨op, _, _, common, -, -, agree, -⟩ :=
      (factor?_eq_some_iff h.wellFormed).mp (replaced?_eq_some_iff.mp found).2.2
    obtain ⟨some, _, -, all⟩ := commonOperator?_eq_some_iff.mp common
    obtain ⟨v, mem⟩ := List.exists_mem_of_ne_nil vs some
    have needs : op.requiresChildren := by
      rcases agree with ⟨rfl, -⟩ | ⟨rfl, -⟩ <;> rfl
    exact absurd (all v mem).2 (h.operator_ne mem needs)

theorem normal_anyOf_sorted (h : LeafValues vs) (many : 2 ≤ vs.length) :
    Normal (anyOf (Condition.sorted vs)) := by
  have several : 2 ≤ (Condition.sorted vs).length := by rwa [(sorted_perm vs).length_eq]
  refine ⟨h.sorted.wellFormed_anyOf (List.ne_nil_of_length_pos (by omega)),
    .mk ⟨?_, h.sorted.replaced?_anyOf⟩ fun v mem => (h.sorted.normal mem).canonical⟩
  exact ⟨fun _ => several, fun _ _ mem => h.sorted.operator_ne mem rfl, fun _ => h.sorted.apart,
    fun _ => pairwise_sorted vs, prune_of_isSetLike rfl⟩

/-- **An alternation of different leaves** is in normal form up to their order. -/
theorem normalForm_anyOf (h : LeafValues vs) (many : 2 ≤ vs.length) :
    normalForm true (anyOf vs) = anyOf (Condition.sorted vs) := by
  have wf := h.wellFormed_anyOf (List.ne_nil_of_length_pos (by omega))
  have children : assembled true (anyOf vs) = anyOf vs :=
    assembled_eq_self fun v mem => (h.normal mem).normalForm_eq
  have prepared : (assembled true (anyOf vs)).prepared = anyOf vs := by
    rw [children]
    exact prepared_of_flat rfl many (fun v mem => h.operator_ne mem rfl) h.apart
  rw [normalForm_of_not_replaced? wf, prepared, sort_of_isSetLike rfl]
  · rfl
  · rw [prepared]
    exact h.replaced?_anyOf

/-- A leaf that is the only alternative stands for the alternation. -/
theorem normalForm_anyOf_one {v : Condition} (h : LeafValues [v]) :
    normalForm true (anyOf [v]) = v :=
  have mem : v ∈ [v] := List.mem_singleton_self v
  (h.normal mem).normalForm_anyOf (h.operator_ne mem rfl)

/-- The normal form of an alternation of different leaves is one of leaves in canonical order, or
the only leaf. -/
theorem normal_normalForm (h : LeafValues vs) (some : vs ≠ []) :
    Normal (normalForm true (anyOf vs)) := by
  by_cases many : 2 ≤ vs.length
  · rw [h.normalForm_anyOf many]
    exact h.normal_anyOf_sorted many
  · obtain ⟨v, rfl⟩ := exists_eq_singleton some many
    rw [h.normalForm_anyOf_one]
    exact h.normal (List.mem_singleton_self v)

end LeafValues

/-! ### Subtracting a leaf -/

theorem meeting?_of_leaf {d v : Condition} (wf : WellFormed d) (leaf : d.children = []) :
    meeting? d v = none := by
  unfold meeting?
  split
  · rename_i op _
    exact absurd leaf (wf.children_ne_nil (by rw [op]; rfl))
  · rename_i op _
    exact absurd leaf (wf.children_ne_nil (by rw [op]; rfl))
  · rfl

/-- Free leaves are not met. -/
theorem meeting?_pass (c : Condition) (type : ParamType) : meeting? c (pass type) = none := by
  unfold meeting?
  cases c.operator <;> rfl

/-- From a leaf nothing but itself is subtracted. -/
theorem difference_of_leaf {d v : Condition} (wf : WellFormed d) (wfV : WellFormed v)
    (leaf : d.children = []) :
    difference d v = if d.id = v.id then .empty else .unchanged := by
  have other : d.operator ≠ .or := fun or => wf.children_ne_nil (by rw [or]; rfl) leaf
  rw [difference_eq wf wfV, subtractAt, meeting?_of_leaf wf leaf, if_neg other]

/-- Nothing is left of a leaf that something is subtracted from. -/
theorem children_ne_nil_of_difference {d v r : Condition} (wf : WellFormed d) (wfV : WellFormed v)
    (left : difference d v = .remainder r) : d.children ≠ [] := by
  intro leaf
  rw [difference_of_leaf wf wfV leaf] at left
  split at left <;> cases left

namespace LeafValues

/-- Of several leaves one is subtracted from itself only. -/
theorem difference_eq {vs : List Condition} (h : LeafValues vs) {d v : Condition}
    (memD : d ∈ vs) (memV : v ∈ vs) :
    difference d v = if d.id = v.id then .empty else .unchanged :=
  difference_of_leaf (h.wellFormed d memD) (h.wellFormed v memV) (h.leaf d memD)

/-- All leaves but one, in canonical order. -/
theorem filter_sorted {before after : List Condition} {v : Condition}
    (h : LeafValues (before ++ v :: after)) :
    (Condition.sorted (before ++ v :: after)).filter (·.id != v.id) =
      Condition.sorted (before ++ after) := by
  have others : (before ++ v :: after).filter (·.id != v.id) = before ++ after := by
    have apart := h.apart
    rw [List.map_append, List.map_cons, List.nodup_middle, List.nodup_cons,
      ← List.map_append] at apart
    have differ : ∀ d ∈ before ++ after, d.id != v.id := fun d mem =>
      bne_iff_ne.mpr fun same => apart.1 (same ▸ List.mem_map_of_mem mem)
    obtain ⟨early, late⟩ := List.forall_mem_append.mp differ
    simp [List.filter_append, List.filter_eq_self.mpr early, List.filter_eq_self.mpr late]
  have kept : ((Condition.sorted (before ++ v :: after)).filter (·.id != v.id)).Perm
      (before ++ after) := others ▸ (sorted_perm (before ++ v :: after)).filter _
  have apart : ((before ++ after).map id).Nodup :=
    h.apart.sublist (((List.sublist_cons_self v after).append_left before).map id)
  rw [← sorted_of_pairwise ((pairwise_sorted (before ++ v :: after)).sublist List.filter_sublist)]
  exact sorted_eq_of_perm ((kept.map id).nodup_iff.mpr apart) kept

/-- **Subtracting a leaf** from an alternation of leaves leaves the normal form of the alternation
of the others. -/
theorem difference_anyOf {before after : List Condition} {v : Condition}
    (h : LeafValues (before ++ v :: after)) (some : before ++ after ≠ [])
    (ids : (anyOf (Condition.sorted (before ++ v :: after))).id ≠ v.id) :
    difference (anyOf (Condition.sorted (before ++ v :: after))) v =
      .remainder (normalForm true (anyOf (before ++ after))) := by
  have rest : LeafValues (before ++ after) :=
    h.sublist ((List.sublist_cons_self v after).append_left before)
  have kept := h.filter_sorted
  have memV : v ∈ Condition.sorted (before ++ v :: after) :=
    (sorted_perm _).mem_iff.mpr (List.mem_append_right _ List.mem_cons_self)
  have leaves := h.sorted
  generalize Condition.sorted (before ++ v :: after) = ws at ids kept memV leaves ⊢
  have outcomes : (ws.map fun d => (d, difference d v)).filterMap (fun o => o.2.resolve o.1) =
      Condition.sorted (before ++ after) := by
    rw [← kept, List.filterMap_map, ← List.filterMap_eq_filter]
    refine List.filterMap_congr fun d mem => ?_
    rw [Function.comp, leaves.difference_eq mem memV]
    by_cases same : d.id = v.id <;> simp [same, Subtraction.resolve, Option.guard]
  have changed : ¬ (ws.map fun d => (d, difference d v)).all (·.2.isUnchanged) := by
    intro all
    have here := List.all_eq_true.mp all _ (List.mem_map_of_mem memV)
    rw [leaves.difference_eq memV memV, if_pos rfl] at here
    cases here
  rw [Condition.difference_eq (leaves.wellFormed_anyOf (List.ne_nil_of_mem memV))
    (leaves.wellFormed v memV), subtractAt, if_neg ids,
    if_pos (show (anyOf ws).operator = .or from rfl), if_neg (leaves.operator_ne memV rfl)]
  show (anyOf ws).collected (ws.map _) = _
  rw [collected, if_neg changed, outcomes]
  by_cases many : 2 ≤ (before ++ after).length
  · obtain ⟨a, b, cs, eq⟩ :=
      exists_eq_cons_cons (many.trans_eq (sorted_perm (before ++ after)).length_eq.symm)
    rw [rest.normalForm_anyOf many, eq]
    rfl
  · obtain ⟨w, only⟩ := exists_eq_singleton some many
    rw [only] at rest ⊢
    rw [rest.normalForm_anyOf_one]
    rfl

end LeafValues

end Condition

end CallGuard
