import CallGuard.Proofs.Canonical

/-!
# What a second run compares

The normal form of a tree is its own normal form, but the run that finds this out compares trees
too. It compares none that the first run has not compared (`compared_normalForm_subset`): whatever a
node in normal form holds was gathered by a node of the first run. So a run on what has become of
trees may rely on ids as far as the run on the trees did.
-/

namespace CallGuard

namespace Condition

variable {pushDown : Bool} {c : Condition}

/-- A group compares what it gathers. -/
theorem gathered_children_subset_comparedAt (group : c.operator.isSetLike) :
    c.gathered.children ⊆ comparedAt pushDown c := by
  intro x mem
  rw [gathered_of_isSetLike group] at mem
  rw [comparedAt, if_pos group]
  exact List.mem_append_left _ ((distinct_sublist _).subset mem)

/-- To settle a tidy node, its children are compared and, if it is an alternation, what is compared
to find a hinge. -/
theorem comparedAt_of_tidy (h : Tidy c) : comparedAt pushDown c =
    (if c.operator.isSetLike then c.children else []) ++
      (if pushDown ∧ c.operator = .or then comparedBranches c.children else []) := by
  have flat : c.flatten = c := by
    by_cases assoc : c.operator.isAssociative
    · exact flatten_eq_self assoc (h.flat assoc)
    · exact flatten_of_not_isAssociative assoc
  rw [comparedAt, flat, h.prepared_eq]

/-- To settle what a node has gathered, once it is sorted, nothing new is compared. -/
theorem comparedAt_sort_gathered_subset (tidy : Tidy c.gathered.sort)
    (kept : c.prepared = c.gathered) :
    comparedAt pushDown c.gathered.sort ⊆ comparedAt pushDown c := by
  have perm := sort_children_perm c.gathered
  rw [comparedAt_of_tidy tidy, sort_operator, gathered_operator]
  refine List.append_subset.mpr ⟨?_, ?_⟩
  · split
    · exact fun x mem => gathered_children_subset_comparedAt ‹_› (perm.subset mem)
    · exact List.nil_subset _
  · split
    · rename_i both
      have distinct := (perm.map id).nodup_iff.mp
        (tidy.distinct (by rw [sort_operator, gathered_operator, both.2]; rfl))
      intro x mem
      rw [comparedAt, kept, gathered_operator, if_pos both]
      exact List.mem_append_right _ (comparedBranches_subset_of_perm distinct perm.symm mem)
    · exact List.nil_subset _

/-- **Normalizing again compares nothing new.** -/
theorem compared_normalForm_subset (wf : WellFormed c)
    (free : CollisionFree (compared pushDown c)) :
    compared pushDown (normalForm pushDown c) ⊆ compared pushDown c := by
  refine normalForm_induct_free
    (motive := fun c n => compared pushDown n ⊆ compared pushDown c)
    (fun c d wf _ _ found _ again => List.Subset.trans again (compared_replacement_subset wf found))
    (fun c wf free below found => ?_) wf free
  have same := normalForm_of_not_replaced? wf found
  have wfE := wf.assembled pushDown
  have tidy := everywhere_tidy_assembled pushDown wf
  -- what is gathered has become of a child, or is a child of what has become of one
  have inside : ∀ x ∈ (assembled pushDown c).gathered.children,
      compared pushDown x ⊆ compared pushDown c := by
    intro x mem
    rcases mem_gathered_children mem with ⟨memX, -⟩ | ⟨e, memE, -, -, memX⟩
    · obtain ⟨d, memD, rfl⟩ := List.mem_map.mp memX
      exact List.Subset.trans (below d memD) (compared_child_subset wf memD)
    · obtain ⟨d, memD, rfl⟩ := List.mem_map.mp memE
      have wfD := (wf.children d memD).normalForm pushDown
      exact List.Subset.trans (compared_child_subset wfD memX)
        (List.Subset.trans (below d memD) (compared_child_subset wf memD))
  rcases wfE.prepared_cases with ⟨-, d, only, eq⟩ | ⟨-, eq⟩
  · have mem : d ∈ (assembled pushDown c).gathered.children := only ▸ List.mem_singleton_self d
    rw [eq, (everywhere_of_mem_gathered tidy mem).here.sort_eq]
    exact inside d mem
  · rw [eq] at same ⊢
    have canonical := same ▸ everywhere_canonical_normalForm wf free
    have wfN := wfE.gathered.sort
    have children : assembled pushDown (assembled pushDown c).gathered.sort =
        (assembled pushDown c).gathered.sort :=
      assembled_eq_self fun d mem =>
        normalForm_of_canonical (wfN.children d mem) (canonical.children d mem)
    rw [compared_eq wfN, children, canonical.here.tidy.prepared_eq, canonical.here.refused,
      Option.elim_none, List.append_nil]
    refine List.append_subset.mpr ⟨fun x mem => ?_, ?_⟩
    · obtain ⟨d, memD, memX⟩ := List.mem_flatMap.mp mem
      exact inside d ((sort_children_perm _).subset memD) memX
    · exact List.Subset.trans (comparedAt_sort_gathered_subset canonical.here.tidy eq)
        (comparedAt_subset wf)

end Condition

end CallGuard
