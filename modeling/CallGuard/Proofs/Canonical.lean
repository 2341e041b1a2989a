import CallGuard.Proofs.Reordering

/-!
# Canonical trees

A tree is canonical if every node is tidy and no alternation has a hinge that could still be
factored. Normal forms are canonical, since an alternation that is refused a hinge is refused it
after sorting too; and a canonical tree is its own normal form. So normalizing twice is
normalizing once.
-/

namespace CallGuard

namespace Condition

/-- A node that no step towards the normal form changes. -/
structure Canonical (pushDown : Bool) (c : Condition) : Prop where
  /-- No step but factoring changes the node. -/
  tidy : Tidy c
  /-- Nothing replaces the node. -/
  refused : replaced? pushDown c = none

theorem rearranged_sort (c : Condition) : Rearranged c c.sort := by
  unfold Rearranged
  split
  · rename_i group
    exact ⟨sorted c.children, (sorted_perm c.children).symm, sort_of_isSetLike group⟩
  · rename_i single
    exact sort_of_not_isSetLike single

/-- A prepared node that nothing replaces is not replaced once it is sorted. -/
theorem replaced?_sort_eq_none {pushDown : Bool} {c : Condition} (wf : WellFormed c)
    (below : ∀ d ∈ c.children, Everywhere Tidy d) (free : CollisionFree (comparedAt pushDown c))
    (refused : replaced? pushDown c.prepared = none) :
    replaced? pushDown c.prepared.sort = none := by
  have related := (rearranged_sort c.prepared).replaced? wf.prepared
    (fun x mem => (everywhere_of_mem_prepared wf below mem).here) (nodup_childIds_prepared wf below)
    free.branches
  rw [refused] at related
  cases found : replaced? pushDown c.prepared.sort with
  | none => rfl
  | some d =>
    rw [found] at related
    cases related

/-- **Trees in normal form are canonical.** -/
theorem everywhere_canonical_normalForm {pushDown : Bool} {c : Condition} (wf : WellFormed c)
    (free : CollisionFree (compared pushDown c)) :
    Everywhere (Canonical pushDown) (normalForm pushDown c) := by
  have refused : Everywhere (fun d => replaced? pushDown d = none) (normalForm pushDown c) := by
    refine normalForm_induct_free
      (motive := fun _ n => Everywhere (fun d => replaced? pushDown d = none) n)
      (fun _ _ _ _ _ _ _ again => again) (fun c wf free below found => ?_) wf free
    have wfE := wf.assembled pushDown
    have tidy := everywhere_tidy_assembled pushDown wf
    refine .mk (replaced?_sort_eq_none wfE tidy (free.at wf) found) fun x mem => ?_
    exact everywhere_of_mem_prepared wfE (List.forall_mem_map.mpr below)
      ((sort_children_perm _).mem_iff.mp mem)
  exact ((everywhere_tidy_normalForm wf).and refused).imp fun d both => ⟨both.1, both.2⟩

/-- **A canonical tree is its own normal form.** -/
theorem normalForm_of_canonical {pushDown : Bool} {c : Condition} (wf : WellFormed c)
    (h : Everywhere (Canonical pushDown) c) : normalForm pushDown c = c := by
  induction c using induct with
  | node c ih =>
    have same : assembled pushDown c = c := assembled_eq_self fun d mem =>
      ih d mem (wf.children d mem) (h.children d mem)
    have prepared : (assembled pushDown c).prepared = c := by rw [same, h.here.tidy.prepared_eq]
    rw [normalForm_of_not_replaced? wf (by rw [prepared, h.here.refused]), prepared,
      h.here.tidy.sort_eq]

/-- A well-formed tree in normal form. -/
structure Normal (c : Condition) : Prop where
  wellFormed : WellFormed c
  canonical : Everywhere (Canonical true) c

namespace Normal

variable {c : Condition}

theorem normalForm_eq (h : Normal c) : normalForm true c = c :=
  normalForm_of_canonical h.wellFormed h.canonical

theorem child (h : Normal c) {d : Condition} (mem : d ∈ c.children) : Normal d :=
  ⟨h.wellFormed.children d mem, h.canonical.children d mem⟩

theorem tidy (h : Normal c) : Tidy c :=
  h.canonical.here.tidy

end Normal

/-- A tree that is normalized to itself is in normal form. -/
theorem normal_of_fixed {c : Condition} (wf : WellFormed c)
    (free : CollisionFree (compared true c)) (fixed : normalize true c = pure c) : Normal c := by
  have same : normalForm true c = c := Run.pure_inj.mp (normalize_eq wf ▸ fixed)
  exact ⟨wf, same ▸ everywhere_canonical_normalForm wf free⟩

/-- **Normalizing is idempotent**: normalizing any well-formed tree ends with a tree that
normalizing with the same options ends with again, as long as the first run compares no two
different trees with the same id. -/
theorem normalize_idempotent (pushDown : Bool) {t : Condition} (wf : WellFormed t)
    (free : CollisionFree (compared pushDown t)) :
    ∃ n, normalize pushDown t = pure n ∧ normalize pushDown n = pure n := by
  refine ⟨normalForm pushDown t, normalize_eq wf, ?_⟩
  rw [normalize_eq (wf.normalForm pushDown),
    normalForm_of_canonical (wf.normalForm pushDown) (everywhere_canonical_normalForm wf free)]

/-- Two calls that differ in one component are normalized once and for all. -/
theorem normalize_sampleCalls_twice :
    ∃ n, normalize true sampleCalls = pure n ∧ normalize true n = pure n :=
  normalize_idempotent true (by decide +kernel) (by decide +kernel)

end Condition

end CallGuard
