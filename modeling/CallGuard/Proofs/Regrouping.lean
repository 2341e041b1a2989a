import CallGuard.Proofs.Coarsening

/-!
# Grouping alternatives

An inner group of And or Or brings into an outer one of the same operator what it holds itself, so
that grouping some of the conditions first makes no difference, unless the inner group has been
factored by then. For alternatives this can happen: a hinge that some of them have may be refused
to all of them. `Regroups` says when it makes no difference after all: the branches that are left
to compare have to be alike with and without the group.
-/

namespace CallGuard

namespace Condition

/-- The branches that are left to compare once alternatives are in normal form: those of an
alternation stand for it, and none is repeated. -/
def branches (xs : List Condition) : List Condition :=
  alternatives (xs.map (normalForm true))

/-- Alternatives of which the first may be grouped on their own: there are no others, or the
branches of all are alike whether or not the first are grouped. -/
def Regroups (xs ys : List Condition) : Prop :=
  ys = [] ∨ MergedAlike (branches (anyOf xs :: ys)) (branches (xs ++ ys))

/-! ### Groups that nothing replaces -/

/-- The children of an inner group that nothing replaces may stand in its place. -/
theorem normalForm_of_inner {pushDown : Bool} {c d : Condition} {ys : List Condition}
    (assoc : c.operator.isAssociative) (same : d.operator = c.operator)
    (wf : WellFormed { c with children := d :: ys })
    (wfFlat : WellFormed { c with children := d.children ++ ys })
    (free : CollisionFree (compared pushDown { c with children := d.children ++ ys }))
    (settled : replaced? pushDown (assembled pushDown d).prepared = none) :
    normalForm pushDown { c with children := d :: ys } =
      normalForm pushDown { c with children := d.children ++ ys } := by
  have group := isSetLike_of_isAssociative assoc
  have freeAt := free.at wfFlat
  have inner : CollisionFree (content pushDown d) := by
    refine (freeAt.content group).mono fun x mem => ?_
    rw [content, same] at mem
    rw [content, List.flatMap_append]
    exact List.mem_append_left _ mem
  have brought (x : Condition) : x ∈ taken pushDown c.operator d ↔
      x ∈ d.children.flatMap (taken pushDown c.operator) := by
    have own := mem_taken_iff (same ▸ assoc) (wf.children d List.mem_cons_self) inner settled x
    rwa [content, same] at own
  refine normalForm_eq_of_content (c := { c with children := d.children ++ ys }) group wfFlat wf
    freeAt (fun e => free.replacement wfFlat) fun x => ?_
  rw [content, content, List.flatMap_append, List.flatMap_cons, List.mem_append, List.mem_append,
    brought x]

/-! ### Alternatives -/

theorem wellFormed_grouped {xs ys : List Condition} (some : xs ≠ [])
    (wf : ∀ x ∈ xs ++ ys, WellFormed x) :
    WellFormed (anyOf (anyOf xs :: ys)) ∧ WellFormed (anyOf (xs ++ ys)) := by
  obtain ⟨wfX, wfY⟩ := List.forall_mem_append.mp wf
  refine ⟨wellFormed_anyOf (by simp) ?_, wellFormed_anyOf (by simp [some]) wf⟩
  exact List.forall_mem_cons.mpr ⟨wellFormed_anyOf some wfX, wfY⟩

/-- The normal forms of alternatives can be gathered and merged into what becomes of the
alternatives. -/
theorem gatherable_normalForms {xs : List Condition} (some : xs ≠ [])
    (wf : ∀ x ∈ xs, WellFormed x) (free : CollisionFree (compared true (anyOf xs))) :
    Gatherable (xs.map (normalForm true)) ∧
      merged (xs.map (normalForm true)) = normalForm true (anyOf xs) := by
  have whole : WellFormed (anyOf xs) := wellFormed_anyOf some wf
  have normal : ∀ v ∈ xs.map (normalForm true), Normal v := List.forall_mem_map.mpr fun x mem =>
    ⟨(wf x mem).normalForm true, everywhere_canonical_normalForm (wf x mem) (free.child whole mem)⟩
  have wfN : WellFormed (anyOf (xs.map (normalForm true))) := whole.assembled true
  have again : assembled true (anyOf (xs.map (normalForm true))) = assembled true (anyOf xs) :=
    assembled_eq_self fun v mem => (normal v mem).normalForm_eq
  refine ⟨⟨by simpa using some, normal, free.mono ?_⟩, ?_⟩
  · rw [compared_eq wfN, compared_eq whole, again]
    refine List.append_subset.mpr ⟨List.append_subset.mpr ⟨fun c mem => ?_, ?_⟩, ?_⟩
    · -- what is compared in the normal form of an alternative was compared on the way to it
      obtain ⟨v, memV, inside⟩ := List.mem_flatMap.mp mem
      obtain ⟨x, memX, rfl⟩ := List.mem_map.mp memV
      refine List.mem_append_left _ (List.mem_append_left _ (List.mem_flatMap.mpr ⟨x, memX, ?_⟩))
      exact compared_normalForm_subset (wf x memX) (free.child whole memX) inside
    · exact fun c mem => List.mem_append_left _ (List.mem_append_right _ mem)
    · exact fun c mem => List.mem_append_right _ mem
  · rw [merged, normalForm_eq wfN, normalForm_eq whole, again]

/-- The branches are those of the normal forms. -/
theorem mem_branches {xs : List Condition} (some : xs ≠ []) (wf : ∀ x ∈ xs, WellFormed x)
    (free : CollisionFree (compared true (anyOf xs))) {c : Condition} :
    c ∈ branches xs ↔ ∃ x ∈ xs, c ∈ spliced .or (normalForm true x) := by
  rw [branches, (gatherable_normalForms some wf free).1.mem_alternatives, ← List.mem_flatMap,
    List.flatMap_map, List.mem_flatMap]

/-- Alternatives are merged as alternatives in normal form that have the same branches. -/
theorem exists_joinable {xs : List Condition} (some : xs ≠ []) (wf : ∀ x ∈ xs, WellFormed x)
    (untyped : ∀ x ∈ xs, Everywhere Untyped x) (free : CollisionFree (compared true (anyOf xs))) :
    ∃ vs, Joinable vs ∧ alternatives vs = branches xs ∧
      merged vs = normalForm true (anyOf xs) := by
  obtain ⟨gatherable, same⟩ := gatherable_normalForms some wf free
  rw [← same]
  exact gatherable.exists_joinable (List.forall_mem_map.mpr fun x mem =>
    inherited_untyped.everywhere_normalForm (wf x mem) (untyped x mem))

section Branches

variable {xs ys : List Condition} (some : xs ≠ []) (wf : ∀ x ∈ xs ++ ys, WellFormed x)
  (untyped : ∀ x ∈ xs ++ ys, Everywhere Untyped x)
  (free : CollisionFree (compared true (anyOf (anyOf xs :: ys))))
  (freeFlat : CollisionFree (compared true (anyOf (xs ++ ys))))

include some wf untyped free freeFlat in
/-- The branches of grouped alternatives are those of all alternatives, but for the group. -/
theorem exists_grouped (others : ys ≠ []) : ∃ group rest us vs, Grouped group rest us vs ∧
    alternatives group = branches xs ∧ alternatives us = branches (anyOf xs :: ys) ∧
    alternatives vs = branches (xs ++ ys) ∧
    merged us = normalForm true (anyOf (anyOf xs :: ys)) ∧
    merged vs = normalForm true (anyOf (xs ++ ys)) := by
  obtain ⟨wfX, wfY⟩ := List.forall_mem_append.mp wf
  obtain ⟨untypedX, untypedY⟩ := List.forall_mem_append.mp untyped
  have someFlat : xs ++ ys ≠ [] := by simp [some]
  have wfGrouped : ∀ x ∈ anyOf xs :: ys, WellFormed x :=
    List.forall_mem_cons.mpr ⟨wellFormed_anyOf some wfX, wfY⟩
  have freeX : CollisionFree (compared true (anyOf xs)) :=
    free.child (wellFormed_grouped some wf).1 List.mem_cons_self
  obtain ⟨group, joinX, branchesX, eqX⟩ := exists_joinable some wfX untypedX freeX
  obtain ⟨us, joinU, branchesU, eqU⟩ := exists_joinable (List.cons_ne_nil _ _) wfGrouped
    (List.forall_mem_cons.mpr ⟨untyped_anyOf untypedX, untypedY⟩) free
  obtain ⟨vs, joinV, branchesV, eqV⟩ := exists_joinable someFlat wf untyped freeFlat
  refine ⟨group, ys.flatMap fun y => spliced .or (normalForm true y), us, vs,
    ⟨joinX, joinU, joinV, ?_, fun c => ?_, fun c => ?_⟩, branchesX, branchesU, branchesV, eqU, eqV⟩
  · obtain ⟨y, mem⟩ := List.exists_mem_of_ne_nil ys others
    obtain ⟨c, inside⟩ := ((wfY y mem).normalForm true).exists_branch
    exact List.ne_nil_of_mem (List.mem_flatMap.mpr ⟨y, mem, inside⟩)
  · rw [branchesV, branchesX, mem_branches someFlat wf freeFlat, mem_branches some wfX freeX,
      List.mem_flatMap]
    simp only [List.mem_append, or_and_right, exists_or]
  · rw [branchesU, mem_branches (List.cons_ne_nil _ _) wfGrouped free, eqX, List.mem_flatMap]
    simp only [List.mem_cons, or_and_right, exists_or, exists_eq_left]

include some wf untyped free freeFlat in
/-- **Grouping the first alternatives** makes no difference if and only if they may be
regrouped. -/
theorem normalForm_anyOf_eq_iff :
    normalForm true (anyOf (anyOf xs :: ys)) = normalForm true (anyOf (xs ++ ys)) ↔
      Regroups xs ys := by
  by_cases none : ys = []
  · subst none
    rw [List.append_nil] at wf untyped freeFlat ⊢
    have whole : WellFormed (anyOf xs) := wellFormed_anyOf some wf
    refine iff_of_true (normalForm_of_only (wellFormed_anyOf (by simp)
      (List.forall_mem_singleton.mpr whole)) (untyped_anyOf (List.forall_mem_singleton.mpr
        (untyped_anyOf untyped))) rfl rfl ?_) (.inl rfl)
    exact (everywhere_canonical_normalForm whole freeFlat).here.refused
  · obtain ⟨_, _, us, vs, grouped, -, branchesU, branchesV, eqU, eqV⟩ :=
      exists_grouped some wf untyped free freeFlat none
    rw [← eqU, ← eqV, Regroups, or_iff_right none, ← branchesU, ← branchesV]
    exact ⟨grouped.alike, fun alike => alike.merged_eq grouped.whole grouped.flat rfl rfl⟩

include some wf untyped free freeFlat in
/-- Alternatives that have no hinge may be grouped on their own. -/
theorem regroups_of_apart (apart : factor? (branches xs) = none) : Regroups xs ys := by
  by_cases none : ys = []
  · exact .inl none
  obtain ⟨group, _, us, vs, grouped, branchesX, branchesU, branchesV, -⟩ :=
    exists_grouped some wf untyped free freeFlat none
  rw [Regroups, ← branchesU, ← branchesV]
  rw [← branchesX] at apart
  rcases grouped.group.cases with same | ⟨m, ⟨f, values, split⟩ | ⟨_, _, parts, split⟩⟩
  · exact .inr (grouped.alike_of_apart same)
  · exact nomatch apart.symm.trans (split.factor?_eq m)
  · obtain ⟨_, -, found⟩ := split.factor?_eq m
    exact nomatch apart.symm.trans found

end Branches

/-- Grouping alternatives makes no difference if alternations are not factored. -/
theorem normalForm_anyOf_grouped {xs ys : List Condition} (some : xs ≠ [])
    (wf : ∀ x ∈ xs ++ ys, WellFormed x)
    (freeFlat : CollisionFree (compared false (anyOf (xs ++ ys)))) :
    normalForm false (anyOf (anyOf xs :: ys)) = normalForm false (anyOf (xs ++ ys)) := by
  obtain ⟨wfGrouped, wfFlat⟩ := wellFormed_grouped some wf
  refine normalForm_of_inner (c := anyOf xs) (d := anyOf xs) rfl rfl wfGrouped wfFlat freeFlat ?_
  exact if_neg fun both => nomatch both.1

/-! ### Conjunctions -/

/-- Grouping the first conditions of a conjunction makes no difference. -/
theorem normalForm_allOf_regrouped {pushDown : Bool} {xs ys : List Condition} (some : xs ≠ [])
    (wf : ∀ x ∈ xs ++ ys, WellFormed x)
    (free : CollisionFree (compared pushDown (allOf (allOf xs :: ys))))
    (freeFlat : CollisionFree (compared pushDown (allOf (xs ++ ys)))) :
    normalForm pushDown (allOf (allOf xs :: ys)) = normalForm pushDown (allOf (xs ++ ys)) := by
  obtain ⟨wfX, wfY⟩ := List.forall_mem_append.mp wf
  have whole : WellFormed (allOf xs) := wellFormed_allOf some wfX
  have wfGrouped : WellFormed (allOf (allOf xs :: ys)) :=
    wellFormed_allOf (by simp) (List.forall_mem_cons.mpr ⟨whole, wfY⟩)
  have wfFlat : WellFormed (allOf (xs ++ ys)) := wellFormed_allOf (by simp [some]) wf
  have inner : CollisionFree (compared pushDown (allOf xs)) :=
    free.child wfGrouped List.mem_cons_self
  exact normalForm_of_inner (c := allOf xs) (d := allOf xs) rfl rfl wfGrouped wfFlat freeFlat
    (replaced?_prepared_of_and whole rfl fun x mem =>
      everywhere_canonical_normalForm (wfX x mem) (inner.child whole mem))

/-! ### Merging -/

/-- What alternatives are merged into may be merged with others in their place. -/
theorem normalForm_anyOf_merged {pushDown : Bool} {xs ys : List Condition} (some : xs ≠ [])
    (wf : ∀ x ∈ xs ++ ys, WellFormed x)
    (free : CollisionFree (compared pushDown (anyOf (anyOf xs :: ys)))) :
    normalForm pushDown (anyOf (normalForm pushDown (anyOf xs) :: ys)) =
      normalForm pushDown (anyOf (anyOf xs :: ys)) := by
  obtain ⟨wfX, wfY⟩ := List.forall_mem_append.mp wf
  have whole : WellFormed (anyOf xs) := wellFormed_anyOf some wfX
  obtain ⟨wfGrouped, -⟩ := wellFormed_grouped some wf
  have wfMerged : WellFormed (anyOf (normalForm pushDown (anyOf xs) :: ys)) :=
    wellFormed_anyOf (by simp) (List.forall_mem_cons.mpr ⟨whole.normalForm pushDown, wfY⟩)
  have again : normalForm pushDown (normalForm pushDown (anyOf xs)) =
      normalForm pushDown (anyOf xs) :=
    normalForm_of_canonical (whole.normalForm pushDown)
      (everywhere_canonical_normalForm whole (free.child wfGrouped List.mem_cons_self))
  refine normalForm_group_congr (c := anyOf (anyOf xs :: ys)) rfl wfGrouped wfMerged free
    fun n => ?_
  rw [List.map_cons, again]
  rfl

/-! ### Regrouping -/

/-- **Grouping** intact conditions. The first conditions of a conjunction may be grouped without a
difference to its normal form. The first of several alternatives may be if and only if alternations
are not factored, or the alternatives may be regrouped; and what the first ones are merged into,
merged with the others, is the normal form of the grouped alternatives. No run may compare two
different trees with the same id. -/
theorem normalize_regrouped (push : Bool) {xs ys : List Condition} (some : xs ≠ [])
    (intact : ∀ x ∈ xs ++ ys, Intact x) :
    (CollisionFree (compared push (anyOf (anyOf xs :: ys))) →
      CollisionFree (compared push (anyOf (xs ++ ys))) →
      ∃ grouped flat first, normalize push (anyOf (anyOf xs :: ys)) = pure grouped ∧
        normalize push (anyOf (xs ++ ys)) = pure flat ∧ merge push (xs ++ ys) = pure flat ∧
        merge push xs = pure first ∧ merge push (first :: ys) = pure grouped ∧
        (grouped = flat ↔ (push → Regroups xs ys))) ∧
    (CollisionFree (compared push (allOf (allOf xs :: ys))) →
      CollisionFree (compared push (allOf (xs ++ ys))) →
      ∃ n, normalize push (allOf (allOf xs :: ys)) = pure n ∧
        normalize push (allOf (xs ++ ys)) = pure n) := by
  have wf : ∀ x ∈ xs ++ ys, WellFormed x := fun x mem => (intact x mem).wellFormed
  have untyped : ∀ x ∈ xs ++ ys, Everywhere Untyped x := fun x mem =>
    (intact x mem).regular.untyped
  obtain ⟨wfX, wfY⟩ := List.forall_mem_append.mp wf
  refine ⟨fun free freeFlat => ?_, fun free freeFlat => ?_⟩
  · obtain ⟨wfGrouped, wfFlat⟩ := wellFormed_grouped some wf
    refine ⟨normalForm push (anyOf (anyOf xs :: ys)), normalForm push (anyOf (xs ++ ys)),
      normalForm push (anyOf xs), normalize_eq wfGrouped, normalize_eq wfFlat,
      merge_eq (by simp [some]) wf, merge_eq some wfX, ?_, ?_⟩
    · rw [merge_eq (by simp), normalForm_anyOf_merged some wf free]
      exact List.forall_mem_cons.mpr ⟨(wellFormed_anyOf some wfX).normalForm push, wfY⟩
    · cases push with
      | false => exact iff_of_true (normalForm_anyOf_grouped some wf freeFlat) nofun
      | true =>
        rw [normalForm_anyOf_eq_iff some wf untyped free freeFlat]
        exact ⟨fun regroups _ => regroups, fun regroups => regroups rfl⟩
  · have whole := wellFormed_allOf some wfX
    have wfGrouped : WellFormed (allOf (allOf xs :: ys)) :=
      wellFormed_allOf (by simp) (List.forall_mem_cons.mpr ⟨whole, wfY⟩)
    refine ⟨normalForm push (allOf (xs ++ ys)), ?_, ?_⟩
    · rw [normalize_eq wfGrouped, normalForm_allOf_regrouped some wf free freeFlat]
    · exact normalize_eq (wellFormed_allOf (by simp [some]) wf)

/-! ### A sample -/

/-- A call of components that are asked for. -/
def callOf (components : List Condition) : Condition :=
  ⟨.calldata, .matches, [], components⟩

/-- Two calls that ask for different bytes. -/
def alikeCalls : List Condition :=
  [callOf [byteIs 3], callOf [byteIs 4]]

/-- The two calls as one. -/
def alikeCall : Condition :=
  callOf [anyOf [byteIs 3, byteIs 4]]

theorem normalForm_alikeCalls : normalForm true (anyOf alikeCalls) = alikeCall := by
  have found : replaced? true (assembled true (anyOf alikeCalls)).prepared = some alikeCall := by
    decide +kernel
  rw [normalForm_of_replaced? (by decide +kernel) found]
  exact normalForm_of_shape (by decide +kernel) (by decide +kernel) (by decide +kernel)

theorem assembled_alikeCalls {c : Condition} (same : normalForm true c = c) :
    assembled true (anyOf (anyOf alikeCalls :: [c])) = anyOf [alikeCall, c] := by
  show anyOf [normalForm true (anyOf alikeCalls), normalForm true c] = _
  rw [normalForm_alikeCalls, same]

/-- A third call of two components has no hinge with the two calls. If they are grouped they are
one call before it comes to that, and otherwise all three calls are kept. -/
theorem normalize_grouped_alikeCalls :
    (∀ x ∈ alikeCalls ++ [callOf [byteIs 5, byteIs 6]], Intact x ∧ x.isGlobalAllowance = false) ∧
      CollisionFree (compared true (anyOf (anyOf alikeCalls :: [callOf [byteIs 5, byteIs 6]]))) ∧
      CollisionFree (compared true (anyOf (alikeCalls ++ [callOf [byteIs 5, byteIs 6]]))) ∧
      normalize true (anyOf (anyOf alikeCalls :: [callOf [byteIs 5, byteIs 6]])) ≠
        normalize true (anyOf (alikeCalls ++ [callOf [byteIs 5, byteIs 6]])) := by
  have children := assembled_alikeCalls (c := callOf [byteIs 5, byteIs 6]) (by decide +kernel)
  refine ⟨by decide +kernel, ?_, by decide +kernel, ?_⟩
  · rw [compared_eq (by decide +kernel), children]
    decide +kernel
  · rw [normalize_eq (by decide +kernel), normalize_eq (by decide +kernel), Ne, Run.pure_inj,
      normalForm_of_not_replaced? (by decide +kernel) (by rw [children]; decide +kernel),
      normalForm_of_not_replaced? (by decide +kernel) (by decide +kernel), children]
    -- two alternatives are not three
    intro same
    have lengths := congrArg (fun c => c.children.length) same
    simp only [(sort_children_perm _).length_eq] at lengths
    exact absurd lengths (by decide +kernel)

/-- Two calls that ask for the same byte first and for different bytes then. -/
def wideCalls : List Condition :=
  [callOf [byteIs 1, byteIs 3], callOf [byteIs 1, byteIs 4]]

/-- A call that asks for the first byte only. -/
def narrowCall : Condition :=
  callOf [byteIs 1]

/-- The bytes that the two calls ask for last, and those of the narrow call if it is padded after
the two calls are merged. -/
def lastBytes : List Condition :=
  [anyOf [byteIs 3, byteIs 4], pass .static]

theorem normalForm_wideCalls :
    normalForm true (anyOf wideCalls) = callOf [byteIs 1, anyOf [byteIs 3, byteIs 4]] := by
  have found : replaced? true (assembled true (anyOf wideCalls)).prepared =
      some (callOf [byteIs 1, anyOf [byteIs 3, byteIs 4]]) := by
    decide +kernel
  rw [normalForm_of_replaced? (by decide +kernel) found]
  exact normalForm_of_shape (by decide +kernel) (by decide +kernel) (by decide +kernel)

theorem assembled_wideCalls : assembled true (anyOf (anyOf wideCalls :: [narrowCall])) =
    anyOf [callOf [byteIs 1, anyOf [byteIs 3, byteIs 4]], narrowCall] := by
  show anyOf [normalForm true (anyOf wideCalls), normalForm true narrowCall] = _
  rw [normalForm_wideCalls]
  decide +kernel

theorem assembled_lastBytes : assembled true (anyOf lastBytes) = anyOf lastBytes := by
  have inner : normalForm true (anyOf [byteIs 3, byteIs 4]) = anyOf [byteIs 3, byteIs 4] :=
    normalForm_of_shape (by decide +kernel) (by decide +kernel) (by decide +kernel)
  show anyOf [normalForm true (anyOf [byteIs 3, byteIs 4]), normalForm true (pass .static)] = _
  rw [inner]
  decide +kernel

theorem merged_lastBytes : merged lastBytes = merged [byteIs 3, byteIs 4, pass .static] := by
  rw [merged, merged,
    normalForm_of_not_replaced? (by decide +kernel) (by rw [assembled_lastBytes]; decide +kernel),
    normalForm_of_not_replaced? (by decide +kernel) (by decide +kernel), assembled_lastBytes]
  exact congrArg sort (by decide +kernel)

theorem collisionFree_wideCalls :
    CollisionFree (compared true (anyOf (anyOf wideCalls :: [narrowCall]))) := by
  have found : replaced? true
      (anyOf [callOf [byteIs 1, anyOf [byteIs 3, byteIs 4]], narrowCall]).prepared =
      some (callOf [byteIs 1, anyOf lastBytes]) := by
    decide +kernel
  have values : compared true (anyOf lastBytes) =
      [byteIs 3, byteIs 4, byteIs 3, byteIs 4, pass .static] := by
    rw [compared_eq (by decide +kernel), assembled_lastBytes]
    decide +kernel
  have again : compared true (callOf [byteIs 1, anyOf lastBytes]) =
      [byteIs 3, byteIs 4, byteIs 3, byteIs 4, pass .static] := by
    rw [compared_of_not_isSetLike (by decide +kernel) (by decide), ← values]
    exact List.append_nil _
  rw [compared_eq (by decide +kernel), assembled_wideCalls, found, Option.elim, again]
  decide +kernel

/-- The calls ask for the same last bytes, whether the narrow call is padded before or after the
others are merged. -/
theorem regroups_wideCalls : Regroups wideCalls [narrowCall] := by
  have grouped : branches (anyOf wideCalls :: [narrowCall]) =
      [callOf [byteIs 1, anyOf [byteIs 3, byteIs 4]], narrowCall] := by
    show alternatives (assembled true (anyOf (anyOf wideCalls :: [narrowCall]))).children = _
    rw [assembled_wideCalls]
    decide +kernel
  have same : alternatives lastBytes = alternatives [byteIs 3, byteIs 4, pass .static] := by
    decide +kernel
  let f : Frame := ⟨.calldata, .matches, [byteIs 1], []⟩
  rw [Regroups, grouped]
  refine .inr (@MergedAlike.framed _ _ lastBytes [byteIs 3, byteIs 4, pass .static] f f ?_ ?_
    (by rw [merged_lastBytes]) (.same fun c => by rw [same]))
  · exact ⟨rfl, nofun, by decide +kernel, by decide +kernel, by decide +kernel⟩
  · exact ⟨rfl, nofun, by decide +kernel, by decide +kernel, by decide +kernel⟩

/-- The narrow call may come with the two calls or after them. -/
theorem normalize_regrouped_wideCalls :
    (∃ n m, normalize true (anyOf (anyOf wideCalls :: [narrowCall])) = pure n ∧
      normalize true (anyOf (wideCalls ++ [narrowCall])) = pure n ∧
      merge true (wideCalls ++ [narrowCall]) = pure n ∧
      merge true wideCalls = pure m ∧ merge true (m :: [narrowCall]) = pure n) ∧
    ∃ n, normalize true (allOf (allOf wideCalls :: [narrowCall])) = pure n ∧
      normalize true (allOf (wideCalls ++ [narrowCall])) = pure n := by
  have ⟨alternatives, conjunction⟩ :=
    @normalize_regrouped true wideCalls [narrowCall] (by decide) (by decide +kernel)
  constructor
  · obtain ⟨n, _, m, grouped, flat, merged, first, second, same⟩ :=
      alternatives collisionFree_wideCalls (by decide +kernel)
    obtain rfl := same.mpr fun _ => regroups_wideCalls
    exact ⟨n, m, grouped, flat, merged, first, second⟩
  · refine conjunction ?_ (by decide +kernel)
    have inner : normalForm true (allOf wideCalls) = allOf wideCalls :=
      normalForm_of_shape (by decide +kernel) (by decide +kernel) (by decide +kernel)
    have children : assembled true (allOf (allOf wideCalls :: [narrowCall])) =
        allOf (allOf wideCalls :: [narrowCall]) := by
      show allOf [normalForm true (allOf wideCalls), normalForm true narrowCall] = _
      rw [inner]
      decide +kernel
    rw [compared_eq (by decide +kernel), children]
    decide +kernel

end Condition

end CallGuard
