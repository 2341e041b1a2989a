import CallGuard.Proofs.Canonical

/-!
# The content of groups

What becomes of a group of And, Or or Nor depends on what its children, in normal form, bring into
it. `content` lists that, and without collisions it only matters which trees are in it: groups of
the same content have the same normal form (`normalForm_eq_of_content`). A group that nothing
replaces brings into a group of its own operator what it holds itself (`mem_taken_iff`), so that
grouping some of the children first makes no difference.
-/

namespace CallGuard

namespace Condition

/-! ### Content -/

/-- What a child brings, in normal form, into a group with an operator. -/
def taken (pushDown : Bool) (op : Operator) (d : Condition) : List Condition :=
  if op.isAssociative then spliced op (normalForm pushDown d) else [normalForm pushDown d]

/-- What the children of a group bring into it, with repetitions. -/
def content (pushDown : Bool) (c : Condition) : List Condition :=
  c.children.flatMap (taken pushDown c.operator)

theorem taken_of_isAssociative {pushDown : Bool} {op : Operator} (h : op.isAssociative)
    (d : Condition) : taken pushDown op d = spliced op (normalForm pushDown d) :=
  if_pos h

theorem taken_of_not_isAssociative {pushDown : Bool} {op : Operator} (h : ¬ op.isAssociative)
    (d : Condition) : taken pushDown op d = [normalForm pushDown d] :=
  if_neg h

theorem flatten_assembled_children (pushDown : Bool) (c : Condition) :
    (assembled pushDown c).flatten.children = content pushDown c := by
  unfold content
  by_cases assoc : c.operator.isAssociative
  · rw [flatten_of_isAssociative (by exact assoc)]
    show (c.children.map _).flatMap _ = _
    rw [List.flatMap_map]
    exact List.flatMap_congr fun d _ => (taken_of_isAssociative assoc d).symm
  · rw [flatten_of_not_isAssociative (by exact assoc), assembled, List.map_eq_flatMap]
    exact List.flatMap_congr fun d _ => (taken_of_not_isAssociative assoc d).symm

/-- A group gathers its content, without repetitions. -/
theorem gathered_assembled {pushDown : Bool} {c : Condition} (group : c.operator.isSetLike) :
    (assembled pushDown c).gathered = { c with children := distinct (content pushDown c) } := by
  rw [gathered_of_isSetLike (by exact group), flatten_assembled_children]
  rfl

theorem CollisionFree.content {pushDown : Bool} {c : Condition}
    (free : CollisionFree (comparedAt pushDown (assembled pushDown c)))
    (group : c.operator.isSetLike) : CollisionFree (content pushDown c) :=
  flatten_assembled_children pushDown c ▸ free.group group

/-- A group of different children of other kinds is prepared as it is, and ids tell the children
apart. -/
theorem prepared_assembled_of_flat {pushDown : Bool} {c e : Condition} (wf : WellFormed c)
    (assoc : c.operator.isAssociative) (eq : assembled pushDown c = e)
    (flat : ∀ d ∈ e.children, d.operator ≠ c.operator) (different : e.children.Nodup)
    (many : 2 ≤ e.children.length) (free : CollisionFree (compared pushDown c)) :
    (assembled pushDown c).prepared = e ∧ e.childIds.Nodup := by
  subst eq
  have gathered := (free.at wf).group (isSetLike_of_isAssociative assoc)
  rw [flatten_eq_self (by exact assoc) flat] at gathered
  have apart : (assembled pushDown c).childIds.Nodup := different.map_on gathered
  exact ⟨prepared_of_flat assoc many flat apart, apart⟩

/-! ### Groups of the same content -/

/-- Nodes that are rearranged once they are prepared have the same normal form. -/
theorem normalForm_eq_of_rearranged {pushDown : Bool} {c d : Condition} (wf : WellFormed c)
    (wfD : WellFormed d) (free : CollisionFree (comparedAt pushDown (assembled pushDown c)))
    (again : ∀ e, replaced? pushDown (assembled pushDown c).prepared = some e →
      CollisionFree (compared pushDown e))
    (h : Rearranged (assembled pushDown c).prepared (assembled pushDown d).prepared) :
    normalForm pushDown d = normalForm pushDown c := by
  have wfE := wf.assembled pushDown
  have tidy := everywhere_tidy_assembled pushDown wf
  have distinct := nodup_childIds_prepared wfE tidy
  have related := h.replaced? wfE.prepared
    (fun x mem => (everywhere_of_mem_prepared wfE tidy mem).here) distinct free.branches
  cases found : replaced? pushDown (assembled pushDown c).prepared with rw [found] at related
  | none =>
    cases found' : replaced? pushDown (assembled pushDown d).prepared with rw [found'] at related
    | none =>
      rw [normalForm_of_not_replaced? wf found, normalForm_of_not_replaced? wfD found',
        h.sort_eq distinct]
    | some e' => cases related
  | some e =>
    cases found' : replaced? pushDown (assembled pushDown d).prepared with rw [found'] at related
    | none => cases related
    | some e' =>
      cases related with
      | some reordered =>
        rw [normalForm_of_replaced? wf found, normalForm_of_replaced? wfD found']
        exact normalForm_eq_of_reordered (wfE.prepared.replaced? found) (again e found) reordered

/-- **Groups of the same content have the same normal form.** -/
theorem normalForm_eq_of_content {pushDown : Bool} {c : Condition} {ds : List Condition}
    (group : c.operator.isSetLike) (wf : WellFormed c)
    (wfD : WellFormed { c with children := ds })
    (free : CollisionFree (comparedAt pushDown (assembled pushDown c)))
    (again : ∀ e, replaced? pushDown (assembled pushDown c).prepared = some e →
      CollisionFree (compared pushDown e))
    (same : ∀ x, x ∈ content pushDown c ↔ x ∈ content pushDown { c with children := ds }) :
    normalForm pushDown { c with children := ds } = normalForm pushDown c := by
  refine normalForm_eq_of_rearranged wf wfD free again ?_
  rw [prepared_eq, prepared_eq, gathered_assembled group, gathered_assembled (by exact group)]
  refine Rearranged.unwrap ?_
  rw [Rearranged, if_pos (by exact group)]
  exact ⟨_, (free.content group).distinct_perm_of_mem_iff same, rfl⟩

/-- Groups of children with the same normal forms have the same normal form. -/
theorem normalForm_group_congr {pushDown : Bool} {c : Condition} {ds : List Condition}
    (group : c.operator.isSetLike) (wf : WellFormed c) (wfD : WellFormed { c with children := ds })
    (free : CollisionFree (compared pushDown c))
    (same : ∀ n, n ∈ c.children.map (normalForm pushDown) ↔ n ∈ ds.map (normalForm pushDown)) :
    normalForm pushDown { c with children := ds } = normalForm pushDown c := by
  have read (cs : List Condition) (x : Condition) :
      x ∈ cs.flatMap (taken pushDown c.operator) ↔ ∃ n ∈ cs.map (normalForm pushDown),
        x ∈ if c.operator.isAssociative then spliced c.operator n else [n] := by
    simp only [List.mem_flatMap, List.mem_map, taken, exists_exists_and_eq_and]
  refine normalForm_eq_of_content group wf wfD (free.at wf) (fun e => free.replacement wf)
    fun x => ?_
  rw [content, content, read, read]
  simp only [same]

/-- Alternatives in normal form become what they factor into. -/
theorem normalForm_anyOf_of_factor? {bs : List Condition} {d : Condition}
    (normal : ∀ b ∈ bs, Normal b) (other : ∀ b ∈ bs, b.operator ≠ .or) (different : bs.Nodup)
    (many : 2 ≤ bs.length) (free : CollisionFree (compared true (anyOf bs)))
    (found : CollisionFree (comparedBranches bs) → factor? bs = some d) :
    WellFormed d ∧ CollisionFree (compared true d) ∧
      normalForm true (anyOf bs) = normalForm true d := by
  have whole : WellFormed (anyOf bs) :=
    wellFormed_anyOf (List.ne_nil_of_length_pos (by omega)) fun b mem => (normal b mem).wellFormed
  have children : assembled true (anyOf bs) = anyOf bs :=
    assembled_eq_self fun b mem => (normal b mem).normalForm_eq
  obtain ⟨prepared, -⟩ := prepared_assembled_of_flat whole rfl children other different many free
  have branches := (free.at whole).branches rfl (by rw [prepared]; rfl)
  rw [prepared] at branches
  have replaced : replaced? true (assembled true (anyOf bs)).prepared = some d := by
    rw [prepared, replaced?, if_pos ⟨rfl, rfl⟩]
    exact found branches
  exact ⟨(whole.assembled true).prepared.replaced? replaced, free.replacement whole replaced,
    normalForm_of_replaced? whole replaced⟩

/-- **A group that nothing replaces** brings into a group of its operator what it holds itself. -/
theorem mem_taken_iff {pushDown : Bool} {c : Condition} (assoc : c.operator.isAssociative)
    (wf : WellFormed c) (free : CollisionFree (content pushDown c))
    (settled : replaced? pushDown (assembled pushDown c).prepared = none) (x : Condition) :
    x ∈ taken pushDown c.operator c ↔ x ∈ content pushDown c := by
  have group := isSetLike_of_isAssociative assoc
  have wfE := wf.assembled pushDown
  have tidy := everywhere_tidy_assembled pushDown wf
  have gathered : (assembled pushDown c).gathered.children = distinct (content pushDown c) :=
    congrArg Condition.children (gathered_assembled group)
  rw [taken_of_isAssociative assoc, normalForm_of_not_replaced? wf settled,
    ← free.mem_distinct_iff, ← gathered]
  rcases wfE.prepared_cases with ⟨-, d, only, eq⟩ | ⟨-, eq⟩
  · -- the only thing that is left is of another kind, since the children are flat
    have mem : d ∈ (assembled pushDown c).gathered.children := only ▸ List.mem_singleton_self d
    have other : d.operator ≠ c.operator := by
      rcases mem_gathered_children mem with ⟨-, other⟩ | ⟨e, memE, -, same, memD⟩
      · exact other assoc
      · have same : e.operator = c.operator := same
        exact same ▸ (tidy e memE).here.flat (same ▸ assoc) d memD
    rw [eq, (everywhere_of_mem_gathered tidy mem).here.sort_eq, spliced_of_ne other, only]
  · have same : (assembled pushDown c).gathered.sort.operator = c.operator := by
      rw [sort_operator, gathered_operator]
      rfl
    rw [eq, spliced_of_eq same]
    exact (sort_children_perm _).mem_iff

end Condition

end CallGuard
