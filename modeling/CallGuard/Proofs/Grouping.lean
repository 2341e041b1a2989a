import CallGuard.Canonical.Groups
import CallGuard.Proofs.Collision
import CallGuard.Proofs.Shape

/-!
# Laws of the steps on groups

`distinct` keeps one tree of each id, and `sorted` is the one arrangement in canonical order of
trees with different ids. On lists without collisions both depend on the order of the list as
little as they should: `distinct_perm` says that equal collections stay equal, and
`sorted_eq_of_perm` that they are sorted alike.
-/

namespace CallGuard

/-! ### The order of ids -/

namespace FixedBytes

variable {n : Nat}

instance : Std.OrientedOrd (FixedBytes n) where
  eq_swap := Std.OrientedOrd.eq_swap (α := Bytes)

instance : Std.TransOrd (FixedBytes n) where
  isLE_trans := Std.TransOrd.isLE_trans (α := Bytes)

instance : Std.LawfulEqOrd (FixedBytes n) where
  eq_of_compare h := ext_bytes (Std.LawfulEqOrd.eq_of_compare h)

end FixedBytes

namespace ConditionId

instance : Std.OrientedOrd ConditionId where
  eq_swap := Std.OrientedOrd.eq_swap (α := Bytes32)

instance : Std.TransOrd ConditionId where
  isLE_trans := Std.TransOrd.isLE_trans (α := Bytes32)

instance : Std.LawfulEqOrd ConditionId where
  eq_of_compare {a b} h := by
    cases a
    cases b
    exact congrArg ConditionId.mk (Std.LawfulEqOrd.eq_of_compare h)

theorem le_total (a b : ConditionId) : (compare a b).isLE ∨ (compare b a).isLE := by
  rw [Std.OrientedOrd.eq_swap (a := b)]
  cases compare a b <;> simp

theorem le_antisymm {a b : ConditionId} (ab : (compare a b).isLE) (ba : (compare b a).isLE) :
    a = b := by
  rw [Std.OrientedOrd.eq_swap (a := b)] at ba
  apply Std.LawfulEqOrd.eq_of_compare
  revert ab ba
  cases compare a b <;> simp

end ConditionId

namespace Condition

/-! ### Flattening -/

/-- What a child brings into a group that takes it in. -/
def spliced (op : Operator) (d : Condition) : List Condition :=
  if d.operator = op then d.children else [d]

theorem spliced_of_eq {op : Operator} {d : Condition} (h : d.operator = op) :
    spliced op d = d.children :=
  if_pos h

theorem spliced_of_ne {op : Operator} {d : Condition} (h : d.operator ≠ op) : spliced op d = [d] :=
  if_neg h

theorem flatten_of_isAssociative {c : Condition} (h : c.operator.isAssociative) :
    c.flatten = { c with children := c.children.flatMap (spliced c.operator) } := by
  rw [flatten, if_pos h]
  rfl

theorem flatten_of_not_isAssociative {c : Condition} (h : ¬ c.operator.isAssociative) :
    c.flatten = c :=
  if_neg h

@[simp] theorem flatten_operator (c : Condition) : c.flatten.operator = c.operator := by
  unfold flatten
  split <;> rfl

@[simp] theorem flatten_paramType (c : Condition) : c.flatten.paramType = c.paramType := by
  unfold flatten
  split <;> rfl

/-- A group without children of its own operator is flat. -/
theorem flatMap_spliced_of_ne {op : Operator} {cs : List Condition}
    (h : ∀ d ∈ cs, d.operator ≠ op) : cs.flatMap (spliced op) = cs := by
  induction cs with
  | nil => rfl
  | cons c cs ih =>
    have rest := ih fun d mem => h d (List.mem_cons_of_mem c mem)
    rw [List.flatMap_cons, rest, spliced_of_ne (h c List.mem_cons_self), List.singleton_append]

theorem flatten_eq_self {c : Condition} (assoc : c.operator.isAssociative)
    (flat : ∀ d ∈ c.children, d.operator ≠ c.operator) : c.flatten = c := by
  rw [flatten_of_isAssociative assoc, flatMap_spliced_of_ne flat, mk_eta]

/-! ### Repeated children -/

theorem firstByKey_sublist (seen : List ConditionId) (cs : List Condition) :
    (firstByKey seen (keyed cs)).Sublist cs := by
  induction cs generalizing seen with
  | nil => exact .slnil
  | cons c cs ih =>
    rw [keyed, List.map_cons, firstByKey]
    split
    · exact (ih seen).cons c
    · exact (ih (c.id :: seen)).cons_cons c

theorem firstByKey_ids (seen : List ConditionId) (cs : List Condition) :
    ((firstByKey seen (keyed cs)).map id).Nodup ∧
      ∀ d ∈ firstByKey seen (keyed cs), d.id ∉ seen := by
  induction cs generalizing seen with
  | nil => exact ⟨.nil, nofun⟩
  | cons c cs ih =>
    rw [keyed, List.map_cons, firstByKey]
    split
    · exact ih seen
    · rename_i new
      obtain ⟨nodup, unseen⟩ := ih (c.id :: seen)
      refine ⟨?_, ?_⟩
      · rw [List.map_cons, List.nodup_cons]
        refine ⟨fun again => ?_, nodup⟩
        obtain ⟨d, mem, same⟩ := List.mem_map.mp again
        exact unseen d mem (same ▸ List.mem_cons_self)
      · intro d mem
        rcases List.mem_cons.mp mem with rfl | later
        · exact new
        · exact fun old => unseen d later (List.mem_cons_of_mem c.id old)

theorem exists_mem_firstByKey (seen : List ConditionId) (cs : List Condition) :
    ∀ d ∈ cs, d.id ∈ seen ∨ ∃ e ∈ firstByKey seen (keyed cs), e.id = d.id := by
  induction cs generalizing seen with
  | nil => exact List.forall_mem_nil _
  | cons c cs ih =>
    intro d mem
    rw [keyed, List.map_cons, firstByKey]
    split
    · rename_i old
      rcases List.mem_cons.mp mem with rfl | later
      · exact .inl old
      · exact ih seen d later
    · rcases List.mem_cons.mp mem with rfl | later
      · exact .inr ⟨d, List.mem_cons_self, rfl⟩
      · rcases ih (c.id :: seen) d later with old | ⟨e, memE, same⟩
        · rcases List.mem_cons.mp old with here | old
          · exact .inr ⟨c, List.mem_cons_self, here.symm⟩
          · exact .inl old
        · exact .inr ⟨e, List.mem_cons_of_mem c memE, same⟩

theorem distinct_sublist (cs : List Condition) : (distinct cs).Sublist cs := by
  rw [distinct_eq]
  exact firstByKey_sublist [] cs

theorem nodup_ids_distinct (cs : List Condition) : ((distinct cs).map id).Nodup := by
  rw [distinct_eq]
  exact (firstByKey_ids [] cs).1

theorem exists_mem_distinct {cs : List Condition} {d : Condition} (h : d ∈ cs) :
    ∃ e ∈ distinct cs, e.id = d.id := by
  rw [distinct_eq]
  exact (exists_mem_firstByKey [] cs d h).resolve_left List.not_mem_nil

theorem distinct_ne_nil {cs : List Condition} (h : cs ≠ []) : distinct cs ≠ [] := by
  obtain ⟨d, cs, rfl⟩ := List.exists_cons_of_ne_nil h
  obtain ⟨e, mem, -⟩ := exists_mem_distinct (List.mem_cons_self : d ∈ d :: cs)
  exact List.ne_nil_of_mem mem

/-- Without collisions nothing goes but repetitions. -/
theorem CollisionFree.mem_distinct_iff {cs : List Condition} (free : CollisionFree cs)
    {d : Condition} : d ∈ distinct cs ↔ d ∈ cs := by
  constructor
  · exact fun mem => (distinct_sublist cs).subset mem
  · intro mem
    obtain ⟨e, memE, same⟩ := exists_mem_distinct mem
    rwa [free d mem e ((distinct_sublist cs).subset memE) same.symm]

theorem distinct_of_nodup_ids {cs : List Condition} (h : (cs.map id).Nodup) : distinct cs = cs := by
  refine (distinct_sublist cs).eq_of_length_le ?_
  have sub : cs.map id ⊆ (distinct cs).map id := by
    intro key mem
    obtain ⟨d, memD, rfl⟩ := List.mem_map.mp mem
    obtain ⟨e, memE, same⟩ := exists_mem_distinct memD
    exact same ▸ List.mem_map_of_mem memE
  simpa using (List.subperm_of_subset h sub).length_le

theorem nodup_of_nodup_ids {cs : List Condition} (h : (cs.map id).Nodup) : cs.Nodup :=
  h.of_map

/-- Without collisions, what is left of two lists of the same trees is the same up to order. -/
theorem CollisionFree.distinct_perm_of_mem_iff {cs ds : List Condition} (free : CollisionFree cs)
    (same : ∀ d, d ∈ cs ↔ d ∈ ds) : (distinct cs).Perm (distinct ds) := by
  have free' : CollisionFree ds := free.mono fun d mem => (same d).mpr mem
  refine (List.perm_ext_iff_of_nodup (nodup_of_nodup_ids (nodup_ids_distinct cs))
    (nodup_of_nodup_ids (nodup_ids_distinct ds))).mpr fun d => ?_
  rw [free.mem_distinct_iff, free'.mem_distinct_iff, same d]

theorem CollisionFree.distinct_perm {cs ds : List Condition} (free : CollisionFree cs)
    (h : cs.Perm ds) : (distinct cs).Perm (distinct ds) :=
  free.distinct_perm_of_mem_iff fun _ => h.mem_iff

@[simp] theorem dedupe_operator (c : Condition) : c.dedupe.operator = c.operator := by
  unfold dedupe
  split <;> rfl

@[simp] theorem dedupe_paramType (c : Condition) : c.dedupe.paramType = c.paramType := by
  unfold dedupe
  split <;> rfl

theorem dedupe_of_isSetLike {c : Condition} (h : c.operator.isSetLike) :
    c.dedupe = { c with children := distinct c.children } :=
  if_pos h

theorem dedupe_of_not_isSetLike {c : Condition} (h : ¬ c.operator.isSetLike) : c.dedupe = c :=
  if_neg h

/-! ### Groups of one -/

/-- A node is unwrapped to its only child if it has one and its operator allows it. -/
theorem unwrap_cases (c : Condition) :
    (c.operator.isAssociative ∧ ∃ d, c.children = [d] ∧ c.unwrap = d) ∨
      (c.operator.isAssociative → c.children.length ≠ 1) ∧ c.unwrap = c := by
  unfold unwrap
  split
  · rename_i d assoc only
    exact .inl ⟨assoc, d, only, rfl⟩
  · rename_i other
    refine .inr ⟨fun assoc one => ?_, rfl⟩
    obtain ⟨d, only⟩ := List.length_eq_one_iff.mp one
    exact other d assoc only

/-! ### Sorting -/

/-- Whether a tree may stand before another in canonical order. -/
def precedes (a b : Condition) : Bool :=
  inOrder (a.id, a) (b.id, b)

theorem sorted_eq_mergeSort (cs : List Condition) : sorted cs = cs.mergeSort precedes := by
  have h : (cs.mergeSort precedes).map (fun d => (d.id, d)) = (keyed cs).mergeSort inOrder :=
    List.map_mergeSort fun _ _ _ _ => rfl
  rw [sorted_eq, ← h, List.map_map]
  exact List.map_id _

theorem precedes_trans (a b c : Condition) (ab : precedes a b) (bc : precedes b c) :
    precedes a c := by
  unfold precedes inOrder at *
  revert ab bc
  cases a.isWholeCall <;> cases b.isWholeCall <;> cases c.isWholeCall <;> simp
  all_goals exact Std.TransOrd.isLE_trans

theorem precedes_total (a b : Condition) : precedes a b || precedes b a := by
  unfold precedes inOrder
  cases a.isWholeCall <;> cases b.isWholeCall <;> simp
  all_goals exact ConditionId.le_total a.id b.id

theorem precedes_antisymm {a b : Condition} (ab : precedes a b) (ba : precedes b a) :
    a.id = b.id := by
  unfold precedes inOrder at *
  revert ab ba
  cases a.isWholeCall <;> cases b.isWholeCall <;> simp
  all_goals exact ConditionId.le_antisymm

theorem sorted_perm (cs : List Condition) : (sorted cs).Perm cs := by
  rw [sorted_eq_mergeSort]
  exact List.mergeSort_perm cs precedes

theorem pairwise_sorted (cs : List Condition) : (sorted cs).Pairwise (precedes · ·) := by
  rw [sorted_eq_mergeSort]
  exact List.pairwise_mergeSort precedes_trans precedes_total cs

theorem sorted_of_pairwise {cs : List Condition} (h : cs.Pairwise (precedes · ·)) :
    sorted cs = cs := by
  rw [sorted_eq_mergeSort]
  exact List.mergeSort_of_pairwise h

/-- Trees with different ids have one arrangement in canonical order. -/
theorem sorted_eq_of_perm {cs ds : List Condition} (distinct : (cs.map id).Nodup)
    (h : cs.Perm ds) : sorted cs = sorted ds := by
  refine List.Perm.eq_of_pairwise ?_ (pairwise_sorted cs) (pairwise_sorted ds)
    ((sorted_perm cs).trans (h.trans (sorted_perm ds).symm))
  intro a b memA memB ab ba
  exact List.inj_on_of_nodup_map distinct ((sorted_perm cs).mem_iff.mp memA)
    (h.mem_iff.mpr ((sorted_perm ds).mem_iff.mp memB)) (precedes_antisymm ab ba)

theorem sort_of_isSetLike {c : Condition} (h : c.operator.isSetLike) :
    c.sort = { c with children := sorted c.children } :=
  if_pos h

theorem sort_of_not_isSetLike {c : Condition} (h : ¬ c.operator.isSetLike) : c.sort = c :=
  if_neg h

@[simp] theorem sort_operator (c : Condition) : c.sort.operator = c.operator := by
  unfold sort
  split <;> rfl

@[simp] theorem sort_paramType (c : Condition) : c.sort.paramType = c.paramType := by
  unfold sort
  split <;> rfl

theorem sort_children_perm (c : Condition) : c.sort.children.Perm c.children := by
  by_cases h : c.operator.isSetLike
  · rw [sort_of_isSetLike h]
    exact sorted_perm c.children
  · rw [sort_of_not_isSetLike h]

theorem sort_sort (c : Condition) : c.sort.sort = c.sort := by
  by_cases h : c.operator.isSetLike
  · rw [sort_of_isSetLike h, sort_of_isSetLike (by exact h)]
    simp only [sorted_of_pairwise (pairwise_sorted c.children)]
  · rw [sort_of_not_isSetLike h, sort_of_not_isSetLike h]

/-! ### Shape -/

theorem requiresChildren_of_isSetLike {op : Operator} (h : op.isSetLike) : op.requiresChildren := by
  cases op <;> first | rfl | cases h

theorem isSetLike_of_isAssociative {op : Operator} (h : op.isAssociative) : op.isSetLike := by
  cases op <;> first | rfl | cases h

/-- A set-like group stays well-formed with other children. -/
theorem WellFormed.with_group {c : Condition} (h : WellFormed c) (group : c.operator.isSetLike)
    {cs : List Condition} (after : cs ≠ []) (below : ∀ d ∈ cs, WellFormed d) :
    WellFormed { c with children := cs } :=
  h.with_children (h.children_ne_nil (requiresChildren_of_isSetLike group)) after below

theorem WellFormed.spliced {op : Operator} (group : op.isAssociative) {d : Condition}
    (h : WellFormed d) : spliced op d ≠ [] ∧ ∀ x ∈ spliced op d, WellFormed x := by
  unfold Condition.spliced
  split
  · rename_i same
    refine ⟨h.children_ne_nil ?_, h.children⟩
    rw [same]
    exact requiresChildren_of_isSetLike (isSetLike_of_isAssociative group)
  · exact ⟨List.cons_ne_nil d [], by simpa using h⟩

theorem WellFormed.flatten {c : Condition} (h : WellFormed c) : WellFormed c.flatten := by
  by_cases group : c.operator.isAssociative
  · have setLike := isSetLike_of_isAssociative group
    rw [flatten_of_isAssociative group]
    obtain ⟨d, ds, split⟩ :=
      List.exists_cons_of_ne_nil (h.children_ne_nil (requiresChildren_of_isSetLike setLike))
    refine h.with_group setLike ?_ fun x mem => ?_
    · rw [split, List.flatMap_cons]
      exact List.append_ne_nil_of_left_ne_nil
        ((h.children d (split ▸ List.mem_cons_self)).spliced group).1 _
    · obtain ⟨e, memE, memX⟩ := List.mem_flatMap.mp mem
      exact ((h.children e memE).spliced group).2 x memX
  · rwa [flatten_of_not_isAssociative group]

theorem WellFormed.dedupe {c : Condition} (h : WellFormed c) : WellFormed c.dedupe := by
  by_cases group : c.operator.isSetLike
  · rw [dedupe_of_isSetLike group]
    have some := h.children_ne_nil (requiresChildren_of_isSetLike group)
    exact h.with_group group (distinct_ne_nil some) fun x mem =>
      h.children x ((distinct_sublist c.children).subset mem)
  · rwa [dedupe_of_not_isSetLike group]

theorem WellFormed.unwrap {c : Condition} (h : WellFormed c) : WellFormed c.unwrap := by
  rcases unwrap_cases c with ⟨-, d, only, eq⟩ | ⟨-, eq⟩
  · rw [eq]
    exact h.children d (only ▸ List.mem_singleton_self d)
  · rwa [eq]

theorem WellFormed.sort {c : Condition} (h : WellFormed c) : WellFormed c.sort := by
  by_cases group : c.operator.isSetLike
  · rw [sort_of_isSetLike group]
    have some := h.children_ne_nil (requiresChildren_of_isSetLike group)
    refine h.with_group group (fun empty => some ?_) fun x mem =>
      h.children x ((sorted_perm c.children).mem_iff.mp mem)
    exact List.nil_perm.mp (empty ▸ sorted_perm c.children)
  · rwa [sort_of_not_isSetLike group]

/-! ### Weight -/

section Weight

variable {w : Operator → Bytes → Nat}

theorem totalWeight_spliced_le (op : Operator) (d : Condition) :
    totalWeight w (spliced op d) ≤ weight w d := by
  unfold spliced
  split
  · rw [weight_eq d]
    omega
  · simp

theorem weight_flatten_le (c : Condition) : weight w c.flatten ≤ weight w c := by
  by_cases group : c.operator.isAssociative
  · rw [flatten_of_isAssociative group]
    refine weight_with_children_le ?_
    generalize c.operator = op
    induction c.children with
    | nil => exact Nat.le_refl _
    | cons d ds ih =>
      have := totalWeight_spliced_le (w := w) op d
      simp only [List.flatMap_cons, totalWeight_append, totalWeight_cons]
      omega
  · exact Nat.le_of_eq (congrArg (weight w) (flatten_of_not_isAssociative group))

theorem weight_dedupe_le (c : Condition) : weight w c.dedupe ≤ weight w c := by
  by_cases group : c.operator.isSetLike
  · rw [dedupe_of_isSetLike group]
    exact weight_with_children_le (totalWeight_sublist (distinct_sublist c.children))
  · exact Nat.le_of_eq (congrArg (weight w) (dedupe_of_not_isSetLike group))

theorem weight_unwrap_le (c : Condition) : weight w c.unwrap ≤ weight w c := by
  rcases unwrap_cases c with ⟨-, d, only, eq⟩ | ⟨-, eq⟩
  · rw [eq]
    have := weight_add_le_of_mem (w := w) (c := c) (only ▸ List.mem_singleton_self d)
    omega
  · exact Nat.le_of_eq (congrArg (weight w) eq)

theorem weight_sort_le (c : Condition) : weight w c.sort ≤ weight w c := by
  by_cases group : c.operator.isSetLike
  · rw [sort_of_isSetLike group]
    exact weight_with_children_le (Nat.le_of_eq (totalWeight_perm (sorted_perm c.children)))
  · exact Nat.le_of_eq (congrArg (weight w) (sort_of_not_isSetLike group))

end Weight

end Condition

end CallGuard
