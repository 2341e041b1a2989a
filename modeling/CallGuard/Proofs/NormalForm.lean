import CallGuard.Canonical.NormalForm
import CallGuard.Proofs.Hinge

/-!
# Laws of the normal form

A node is settled once its children are: it is prepared, and then either what it factors into is
brought into normal form in its place, or its children are sorted. `normalForm_induct` is
induction along this recursion, which ends because every step makes trees smaller.

Every node of a tree in normal form is tidy: no step but factoring would change it
(`everywhere_tidy_normalForm`).
-/

namespace CallGuard

namespace Condition

/-! ### Prepared nodes -/

/-- A node as it is before it may be unwrapped. -/
def gathered (c : Condition) : Condition :=
  c.prune.flatten.dedupe

theorem prepared_eq (c : Condition) : c.prepared = c.gathered.unwrap :=
  rfl

@[simp] theorem gathered_operator (c : Condition) : c.gathered.operator = c.operator := by
  simp [gathered]

@[simp] theorem gathered_paramType (c : Condition) : c.gathered.paramType = c.paramType := by
  simp [gathered]

theorem WellFormed.gathered {c : Condition} (h : WellFormed c) : WellFormed c.gathered :=
  h.prune.flatten.dedupe

theorem WellFormed.prepared {c : Condition} (h : WellFormed c) : WellFormed c.prepared :=
  h.gathered.unwrap

theorem weight_prepared_le {w : Operator → Bytes → Nat} (c : Condition) :
    weight w c.prepared ≤ weight w c :=
  calc weight w c.prepared
    _ ≤ weight w c.gathered := weight_unwrap_le c.gathered
    _ ≤ weight w c.prune.flatten := weight_dedupe_le c.prune.flatten
    _ ≤ weight w c.prune := weight_flatten_le c.prune
    _ ≤ weight w c := weight_prune_le c

theorem nodeCount_prepared_le (c : Condition) : c.prepared.nodeCount ≤ c.nodeCount :=
  weight_prepared_le c

theorem prune_of_isSetLike {c : Condition} (h : c.operator.isSetLike) : c.prune = c := by
  refine prune_of_not fun both => ?_
  rw [both.1] at h
  cases h

/-- What a group gathers. -/
theorem gathered_of_isSetLike {c : Condition} (h : c.operator.isSetLike) :
    c.gathered = { c with children := distinct c.flatten.children } := by
  rw [gathered, prune_of_isSetLike h, dedupe_of_isSetLike (by rwa [flatten_operator])]
  unfold flatten
  split <;> rfl

/-- A node that is no group is pruned and nothing else. -/
theorem gathered_of_not_isSetLike {c : Condition} (h : ¬ c.operator.isSetLike) :
    c.gathered = c.prune := by
  have single : ¬ c.prune.operator.isAssociative := by
    rw [prune_operator]
    exact fun group => h (isSetLike_of_isAssociative group)
  rw [gathered, flatten_of_not_isAssociative single,
    dedupe_of_not_isSetLike (by rwa [prune_operator])]

theorem mem_flatten_children {c x : Condition} (h : x ∈ c.flatten.children) :
    x ∈ c.children ∧ (c.operator.isAssociative → x.operator ≠ c.operator) ∨
      ∃ d ∈ c.children, c.operator.isAssociative ∧ d.operator = c.operator ∧ x ∈ d.children := by
  by_cases group : c.operator.isAssociative
  · rw [flatten_of_isAssociative group] at h
    obtain ⟨d, memD, memX⟩ := List.mem_flatMap.mp h
    unfold spliced at memX
    split at memX
    · exact .inr ⟨d, memD, group, ‹_›, memX⟩
    · rw [List.mem_singleton.mp memX]
      exact .inl ⟨memD, fun _ => ‹_›⟩
  · rw [flatten_of_not_isAssociative group] at h
    exact .inl ⟨h, fun assoc => absurd assoc group⟩

/-- What a node gathers are children and the children of groups in it. -/
theorem mem_gathered_children {c x : Condition} (h : x ∈ c.gathered.children) :
    x ∈ c.children ∧ (c.operator.isAssociative → x.operator ≠ c.operator) ∨
      ∃ d ∈ c.children, c.operator.isAssociative ∧ d.operator = c.operator ∧ x ∈ d.children := by
  by_cases group : c.operator.isSetLike
  · rw [gathered_of_isSetLike group] at h
    exact mem_flatten_children ((distinct_sublist c.flatten.children).subset h)
  · rw [gathered_of_not_isSetLike group] at h
    refine .inl ⟨(prune_children_subperm c).subset h, fun assoc => ?_⟩
    exact absurd (isSetLike_of_isAssociative assoc) group

theorem everywhere_of_mem_gathered {P : Condition → Prop} {c x : Condition}
    (below : ∀ d ∈ c.children, Everywhere P d) (h : x ∈ c.gathered.children) : Everywhere P x := by
  rcases mem_gathered_children h with ⟨mem, -⟩ | ⟨d, memD, -, -, mem⟩
  · exact below x mem
  · exact (below d memD).children x mem

/-- A prepared node is the only thing it gathers, or gathers more if it is a group of And or
Or. -/
theorem WellFormed.prepared_cases {c : Condition} (h : WellFormed c) :
    (c.operator.isAssociative ∧ ∃ d, c.gathered.children = [d] ∧ c.prepared = d) ∨
      (c.operator.isAssociative → 2 ≤ c.gathered.children.length) ∧ c.prepared = c.gathered := by
  rw [prepared_eq]
  rcases unwrap_cases c.gathered with ⟨group, single⟩ | ⟨many, eq⟩
  · rw [gathered_operator] at group
    exact .inl ⟨group, single⟩
  · rw [gathered_operator] at many
    refine .inr ⟨fun group => ?_, eq⟩
    have some : c.gathered.children ≠ [] := by
      refine h.gathered.children_ne_nil ?_
      rw [gathered_operator]
      exact requiresChildren_of_isSetLike (isSetLike_of_isAssociative group)
    have := List.length_pos_of_ne_nil some
    have := many group
    omega

theorem everywhere_of_mem_prepared {P : Condition → Prop} {c x : Condition} (wf : WellFormed c)
    (below : ∀ d ∈ c.children, Everywhere P d) (h : x ∈ c.prepared.children) : Everywhere P x := by
  rcases wf.prepared_cases with ⟨-, d, only, eq⟩ | ⟨-, eq⟩
  · rw [eq] at h
    exact (everywhere_of_mem_gathered below (only ▸ List.mem_singleton_self d)).children x h
  · rw [eq] at h
    exact everywhere_of_mem_gathered below h

/-- A group of several children of other kinds, none repeated, is prepared as it is. -/
theorem prepared_of_flat {c : Condition} (assoc : c.operator.isAssociative)
    (many : 2 ≤ c.children.length) (flat : ∀ d ∈ c.children, d.operator ≠ c.operator)
    (apart : c.childIds.Nodup) : c.prepared = c := by
  have gathered : c.gathered = c := by
    rw [gathered_of_isSetLike (isSetLike_of_isAssociative assoc), flatten_eq_self assoc flat,
      distinct_of_nodup_ids apart, mk_eta]
  rw [prepared_eq, gathered]
  rcases unwrap_cases c with ⟨-, d, only, -⟩ | ⟨-, eq⟩
  · rw [only] at many
    exact absurd many (by simp)
  · exact eq

/-! ### Replaced alternations -/

/-- What is brought into normal form in place of a prepared node, if anything is. -/
def replaced? (pushDown : Bool) (c : Condition) : Option Condition :=
  if pushDown ∧ c.operator = .or then factor? c.children else none

theorem replaced?_eq_some_iff {pushDown : Bool} {c d : Condition} :
    replaced? pushDown c = some d ↔ pushDown ∧ c.operator = .or ∧ factor? c.children = some d := by
  unfold replaced?
  split
  · rename_i h
    simp [h]
  · rename_i h
    simp_all

/-- Nothing but alternations is replaced. -/
theorem replaced?_of_ne_or {c : Condition} (h : c.operator ≠ .or) (pushDown : Bool) :
    replaced? pushDown c = none :=
  if_neg fun both => h both.2

theorem WellFormed.replaced? {pushDown : Bool} {c d : Condition} (h : WellFormed c)
    (found : replaced? pushDown c = some d) : WellFormed d :=
  wellFormed_of_factor? h.children (replaced?_eq_some_iff.mp found).2.2

theorem nodeCount_lt_of_replaced? {pushDown : Bool} {c d : Condition} (h : WellFormed c)
    (found : Condition.replaced? pushDown c = some d) : d.nodeCount < c.nodeCount := by
  have size : (anyOf c.children).nodeCount = c.nodeCount :=
    (nodeCount_eq_totalWeight (anyOf c.children)).trans (nodeCount_eq_totalWeight c).symm
  rw [← size]
  exact nodeCount_lt_of_factor? h.children (replaced?_eq_some_iff.mp found).2.2

/-- What replaces a node is no heavier. -/
theorem weight_le_of_replaced? {w : Operator → Bytes → Nat} (light : PassLightest w)
    {pushDown : Bool} {c d : Condition} (h : WellFormed c)
    (found : Condition.replaced? pushDown c = some d) : weight w d ≤ weight w c := by
  obtain ⟨-, or, factored⟩ := replaced?_eq_some_iff.mp found
  obtain ⟨op, -, lighter⟩ := weight_factor?_add_le light h.children factored
  have bare := h.operand_eq_nil (h.children_ne_nil (by rw [or]; rfl))
  rw [anyOf, weight_mk] at lighter
  rw [weight_eq c, or, bare]
  omega

theorem settle_eq (pushDown : Bool) (again : Condition → Condition) (c : Condition) :
    settle pushDown again c = ((replaced? pushDown c.prepared).elim c.prepared again).sort := by
  unfold settle factored replaced?
  by_cases on : pushDown = true
  · by_cases or : c.prepared.operator = .or
    · simp only [on, or, if_true, and_self]
      cases factor? c.prepared.children <;> rfl
    · simp [on, or]
  · simp [on]

/-! ### The recursion -/

/-- A node with its children in normal form. -/
def assembled (pushDown : Bool) (c : Condition) : Condition :=
  { c with children := c.children.map (normalForm pushDown) }

theorem normalFormWithin_spec (pushDown : Bool) (bound : Nat) {c : Condition} (wf : WellFormed c) :
    WellFormed (normalFormWithin pushDown bound c) ∧
      ∀ w, PassLightest w → weight w (normalFormWithin pushDown bound c) ≤ weight w c := by
  induction bound generalizing c with
  | zero => exact ⟨wf, fun _ _ => Nat.le_refl _⟩
  | succ bound ih =>
    let e : Condition := { c with children := c.children.map (normalFormWithin pushDown bound) }
    have wfE : WellFormed e := wf.map_children fun d mem => (ih (wf.children d mem)).1
    have lighterE : ∀ w, PassLightest w → weight w e ≤ weight w c := fun w light =>
      weight_with_children_le (totalWeight_map_le fun d mem => (ih (wf.children d mem)).2 w light)
    show WellFormed (settle _ _ e) ∧ ∀ w, PassLightest w → weight w (settle _ _ e) ≤ weight w c
    rw [settle_eq]
    cases found : replaced? pushDown e.prepared with
    | none =>
      refine ⟨wfE.prepared.sort, fun w light => ?_⟩
      calc weight w e.prepared.sort
        _ ≤ weight w e.prepared := weight_sort_le e.prepared
        _ ≤ weight w e := weight_prepared_le e
        _ ≤ weight w c := lighterE w light
    | some d =>
      obtain ⟨wfD, lighterD⟩ := ih (wfE.prepared.replaced? found)
      refine ⟨wfD.sort, fun w light => ?_⟩
      calc weight w (normalFormWithin pushDown bound d).sort
        _ ≤ weight w (normalFormWithin pushDown bound d) := weight_sort_le _
        _ ≤ weight w d := lighterD w light
        _ ≤ weight w e.prepared := weight_le_of_replaced? light wfE.prepared found
        _ ≤ weight w e := weight_prepared_le e
        _ ≤ weight w c := lighterE w light

theorem WellFormed.normalForm {c : Condition} (h : WellFormed c) (pushDown : Bool) :
    WellFormed (normalForm pushDown c) :=
  (normalFormWithin_spec pushDown c.nodeCount h).1

/-- **Normal forms are no heavier**, as long as free leaves are the lightest trees. -/
theorem weight_normalForm_le {w : Operator → Bytes → Nat} (light : PassLightest w)
    (pushDown : Bool) {c : Condition} (h : WellFormed c) :
    weight w (normalForm pushDown c) ≤ weight w c :=
  (normalFormWithin_spec pushDown c.nodeCount h).2 w light

theorem nodeCount_normalForm_le {c : Condition} (h : WellFormed c) (pushDown : Bool) :
    (normalForm pushDown c).nodeCount ≤ c.nodeCount :=
  weight_normalForm_le passLightest_unitWeight pushDown h

theorem WellFormed.assembled {c : Condition} (h : WellFormed c) (pushDown : Bool) :
    WellFormed (assembled pushDown c) :=
  h.map_children fun d mem => (h.children d mem).normalForm pushDown

theorem assembled_eq_self {pushDown : Bool} {c : Condition}
    (below : ∀ d ∈ c.children, normalForm pushDown d = d) : assembled pushDown c = c := by
  have children : c.children.map (normalForm pushDown) = c.children :=
    (List.map_congr_left below).trans (List.map_id _)
  rw [assembled, children, mk_eta]

theorem assembled_fill {pushDown : Bool} {f : Frame}
    (around : ∀ d ∈ f.others, normalForm pushDown d = d) (x : Condition) :
    assembled pushDown (f.fill x) = f.fill (normalForm pushDown x) := by
  obtain ⟨before, after⟩ := List.forall_mem_append.mp around
  rw [assembled, Frame.fill_children, List.map_append, List.map_cons,
    (List.map_congr_left before).trans (List.map_id _),
    (List.map_congr_left after).trans (List.map_id _)]
  rfl

theorem nodeCount_assembled_le {c : Condition} (h : WellFormed c) (pushDown : Bool) :
    (Condition.assembled pushDown c).nodeCount ≤ c.nodeCount :=
  weight_with_children_le
    (totalWeight_map_le fun d mem => nodeCount_normalForm_le (h.children d mem) pushDown)

/-- What is brought into normal form in place of a node is smaller than the node. -/
theorem nodeCount_replaced?_lt {pushDown : Bool} {c d : Condition} (h : WellFormed c)
    (found : replaced? pushDown (Condition.assembled pushDown c).prepared = some d) :
    d.nodeCount < c.nodeCount :=
  calc d.nodeCount
    _ < (Condition.assembled pushDown c).prepared.nodeCount :=
      nodeCount_lt_of_replaced? (h.assembled pushDown).prepared found
    _ ≤ (Condition.assembled pushDown c).nodeCount := nodeCount_prepared_le _
    _ ≤ c.nodeCount := nodeCount_assembled_le h pushDown

/-- A large enough bound gives what any other large enough bound gives. -/
theorem normalFormWithin_eq {pushDown : Bool} {m n : Nat} {c : Condition} (wf : WellFormed c)
    (enough : c.nodeCount ≤ m) (enough' : c.nodeCount ≤ n) :
    normalFormWithin pushDown m c = normalFormWithin pushDown n c := by
  induction m generalizing n c with
  | zero =>
    have := c.nodeCount_pos
    omega
  | succ m ih =>
    obtain ⟨n, rfl⟩ := exists_succ_of_nodeCount_le enough'
    have children : c.children.map (normalFormWithin pushDown m) =
        c.children.map (normalFormWithin pushDown n) := by
      refine List.map_congr_left fun d mem => ?_
      have := nodeCount_lt_of_mem mem
      exact ih (wf.children d mem) (by omega) (by omega)
    let e : Condition := { c with children := c.children.map (normalFormWithin pushDown n) }
    have wfE : WellFormed e :=
      wf.map_children fun d mem => (normalFormWithin_spec pushDown n (wf.children d mem)).1
    have sizeE : e.nodeCount ≤ c.nodeCount := weight_with_children_le (totalWeight_map_le
      fun d mem => (normalFormWithin_spec pushDown n (wf.children d mem)).2 unitWeight
        passLightest_unitWeight)
    have := nodeCount_prepared_le e
    rw [normalFormWithin, normalFormWithin, children]
    show settle _ _ e = settle _ _ e
    rw [settle_eq, settle_eq]
    cases found : replaced? pushDown e.prepared with
    | none => rfl
    | some d =>
      have := nodeCount_lt_of_replaced? wfE.prepared found
      exact congrArg sort (ih (wfE.prepared.replaced? found) (by omega) (by omega))

/-- **The recursion of the normal form.** -/
theorem normalForm_eq {pushDown : Bool} {c : Condition} (wf : WellFormed c) :
    normalForm pushDown c = settle pushDown (normalForm pushDown) (assembled pushDown c) := by
  obtain ⟨n, size⟩ := exists_succ_of_nodeCount_le (Nat.le_refl c.nodeCount)
  have children : c.children.map (normalFormWithin pushDown n) =
      c.children.map (normalForm pushDown) := by
    refine List.map_congr_left fun d mem => ?_
    have := nodeCount_lt_of_mem mem
    exact normalFormWithin_eq (wf.children d mem) (by omega) (Nat.le_refl _)
  rw [normalForm, size, normalFormWithin, children]
  show settle _ _ (assembled pushDown c) = _
  rw [settle_eq, settle_eq]
  cases found : replaced? pushDown (assembled pushDown c).prepared with
  | none => rfl
  | some d =>
    have := nodeCount_replaced?_lt wf found
    exact congrArg sort (normalFormWithin_eq ((wf.assembled pushDown).prepared.replaced? found)
      (by omega) (Nat.le_refl _))

theorem sort_normalForm {pushDown : Bool} {c : Condition} (wf : WellFormed c) :
    (normalForm pushDown c).sort = normalForm pushDown c := by
  rw [normalForm_eq wf, settle_eq, sort_sort]

/-- The normal form of a node is that of what replaces it, if anything does. -/
theorem normalForm_of_replaced? {pushDown : Bool} {c d : Condition} (wf : WellFormed c)
    (found : replaced? pushDown (assembled pushDown c).prepared = some d) :
    normalForm pushDown c = normalForm pushDown d := by
  rw [normalForm_eq wf, settle_eq, found]
  exact sort_normalForm ((wf.assembled pushDown).prepared.replaced? found)

theorem normalForm_of_not_replaced? {pushDown : Bool} {c : Condition} (wf : WellFormed c)
    (found : replaced? pushDown (assembled pushDown c).prepared = none) :
    normalForm pushDown c = (assembled pushDown c).prepared.sort := by
  rw [normalForm_eq wf, settle_eq, found]
  rfl

/-- A node that is no group is pruned and nothing else, once its children are in normal form. -/
theorem normalForm_of_not_isSetLike {pushDown : Bool} {c : Condition} (wf : WellFormed c)
    (single : ¬ c.operator.isSetLike) : normalForm pushDown c = (assembled pushDown c).prune := by
  have alone : ¬ (assembled pushDown c).prune.operator.isSetLike := by
    rw [prune_operator]
    exact single
  have prepared : (assembled pushDown c).prepared = (assembled pushDown c).prune := by
    rw [prepared_eq, gathered_of_not_isSetLike (by exact single)]
    rcases unwrap_cases (assembled pushDown c).prune with ⟨assoc, -⟩ | ⟨-, eq⟩
    · exact absurd (isSetLike_of_isAssociative assoc) alone
    · exact eq
  rw [normalForm_of_not_replaced? wf, prepared, sort_of_not_isSetLike alone]
  rw [prepared]
  exact replaced?_of_ne_or (fun or => alone (by rw [or]; rfl)) pushDown

/-- **Induction on the normal form**: what holds of a node and its normal form when it holds of
the children and, if the node is replaced, of what replaces it, holds of all well-formed trees. -/
theorem normalForm_induct {pushDown : Bool} {motive : Condition → Condition → Prop}
    (replaced : ∀ c d, WellFormed c → (∀ e ∈ c.children, motive e (normalForm pushDown e)) →
      replaced? pushDown (assembled pushDown c).prepared = some d → WellFormed d →
      motive d (normalForm pushDown d) → motive c (normalForm pushDown d))
    (settled : ∀ c, WellFormed c → (∀ e ∈ c.children, motive e (normalForm pushDown e)) →
      replaced? pushDown (assembled pushDown c).prepared = none →
      motive c (assembled pushDown c).prepared.sort)
    {c : Condition} (wf : WellFormed c) : motive c (normalForm pushDown c) := by
  induction size : c.nodeCount using Nat.strongRecOn generalizing c with
  | ind n ih =>
    subst size
    have below : ∀ e ∈ c.children, motive e (normalForm pushDown e) :=
      fun e mem => ih e.nodeCount (nodeCount_lt_of_mem mem) (wf.children e mem) rfl
    cases found : replaced? pushDown (assembled pushDown c).prepared with
    | none =>
      rw [normalForm_of_not_replaced? wf found]
      exact settled c wf below found
    | some d =>
      rw [normalForm_of_replaced? wf found]
      have wfD := (wf.assembled pushDown).prepared.replaced? found
      exact replaced c d wf below found wfD
        (ih d.nodeCount (nodeCount_replaced?_lt wf found) wfD rfl)

/-! ### Tidy trees -/

/-- A node that no step before factoring, nor sorting, changes. -/
structure Tidy (c : Condition) : Prop where
  /-- A group of And or Or has more than one child. -/
  many : c.operator.isAssociative → 2 ≤ c.children.length
  /-- A group of And or Or holds no group of its own kind. -/
  flat : c.operator.isAssociative → ∀ d ∈ c.children, d.operator ≠ c.operator
  /-- A group repeats no child. -/
  distinct : c.operator.isSetLike → c.childIds.Nodup
  /-- The children of a group stand in canonical order. -/
  ordered : c.operator.isSetLike → c.children.Pairwise (precedes · ·)
  /-- A match holds no free components that could be left out. -/
  pruned : c.prune = c

theorem Tidy.sort_eq {c : Condition} (h : Tidy c) : c.sort = c := by
  by_cases group : c.operator.isSetLike
  · rw [sort_of_isSetLike group, sorted_of_pairwise (h.ordered group), mk_eta]
  · exact sort_of_not_isSetLike group

theorem Tidy.gathered_eq {c : Condition} (h : Tidy c) : c.gathered = c := by
  by_cases group : c.operator.isSetLike
  · have flat : c.flatten = c := by
      by_cases assoc : c.operator.isAssociative
      · exact flatten_eq_self assoc (h.flat assoc)
      · exact flatten_of_not_isAssociative assoc
    rw [gathered_of_isSetLike group, flat, distinct_of_nodup_ids (h.distinct group), mk_eta]
  · rw [gathered_of_not_isSetLike group, h.pruned]

/-- A tidy node is prepared as it is. -/
theorem Tidy.prepared_eq {c : Condition} (h : Tidy c) : c.prepared = c := by
  rw [Condition.prepared_eq, h.gathered_eq]
  rcases unwrap_cases c with ⟨group, d, only, -⟩ | ⟨-, eq⟩
  · have := h.many group
    rw [only] at this
    exact absurd this (by simp)
  · exact eq

/-- A node that is no group is tidy once it is pruned. -/
theorem tidy_of_pruned {c : Condition} (single : ¬ c.operator.isSetLike) (pruned : c.prune = c) :
    Tidy c where
  many assoc := absurd (isSetLike_of_isAssociative assoc) single
  flat assoc := absurd (isSetLike_of_isAssociative assoc) single
  distinct group := absurd group single
  ordered group := absurd group single
  pruned := pruned

/-- Sorting what a node has gathered makes it tidy, if that is enough. -/
theorem tidy_sort_gathered {c : Condition} (below : ∀ d ∈ c.children, Tidy d)
    (many : c.operator.isAssociative → 2 ≤ c.gathered.children.length) : Tidy c.gathered.sort := by
  by_cases group : c.operator.isSetLike
  · have setLike : c.gathered.operator.isSetLike := by rwa [gathered_operator]
    have perm := sorted_perm c.gathered.children
    rw [sort_of_isSetLike setLike]
    constructor
    · intro assoc
      rw [perm.length_eq]
      rw [gathered_operator] at assoc
      exact many assoc
    · intro assoc d mem
      rw [gathered_operator] at assoc ⊢
      rcases mem_gathered_children (perm.mem_iff.mp mem) with ⟨-, other⟩ | ⟨e, memE, -, same, memD⟩
      · exact other assoc
      · rw [← same] at assoc ⊢
        exact (below e memE).flat assoc d memD
    · intro _
      refine (perm.map id).nodup_iff.mpr ?_
      rw [gathered_of_isSetLike group]
      exact nodup_ids_distinct c.flatten.children
    · intro _
      exact pairwise_sorted c.gathered.children
    · exact prune_of_isSetLike setLike
  · have single : ¬ c.gathered.operator.isSetLike := by rwa [gathered_operator]
    rw [sort_of_not_isSetLike single]
    refine tidy_of_pruned single ?_
    rw [gathered_of_not_isSetLike group, prune_prune]

/-- A group that is prepared from tidy children repeats no child. -/
theorem nodup_childIds_prepared {c : Condition} (wf : WellFormed c)
    (below : ∀ d ∈ c.children, Everywhere Tidy d) (group : c.prepared.operator.isSetLike) :
    c.prepared.childIds.Nodup := by
  rcases wf.prepared_cases with ⟨-, d, only, eq⟩ | ⟨-, eq⟩
  · rw [eq] at group ⊢
    exact (everywhere_of_mem_gathered below (only ▸ List.mem_singleton_self d)).here.distinct group
  · rw [eq] at group ⊢
    rw [gathered_operator] at group
    rw [gathered_of_isSetLike group]
    exact nodup_ids_distinct c.flatten.children

/-- **Trees in normal form are tidy** at every node. -/
theorem everywhere_tidy_normalForm {pushDown : Bool} {c : Condition} (wf : WellFormed c) :
    Everywhere Tidy (normalForm pushDown c) := by
  refine normalForm_induct (motive := fun _ n => Everywhere Tidy n)
    (fun c d _ _ _ _ again => again) (fun c wf below _ => ?_) wf
  have children : ∀ d ∈ (assembled pushDown c).children, Everywhere Tidy d :=
    List.forall_mem_map.mpr below
  have wfE := wf.assembled pushDown
  rcases wfE.prepared_cases with ⟨-, d, only, eq⟩ | ⟨many, eq⟩
  · have tidy : Everywhere Tidy d :=
      everywhere_of_mem_gathered children (only ▸ List.mem_singleton_self d)
    rwa [eq, tidy.here.sort_eq]
  · rw [eq]
    refine .mk (tidy_sort_gathered (fun d mem => (children d mem).here) many) fun x mem => ?_
    exact everywhere_of_mem_gathered children ((sort_children_perm _).mem_iff.mp mem)

theorem everywhere_tidy_assembled (pushDown : Bool) {c : Condition} (wf : WellFormed c) :
    ∀ d ∈ (assembled pushDown c).children, Everywhere Tidy d :=
  List.forall_mem_map.mpr fun d mem => everywhere_tidy_normalForm (wf.children d mem)

end Condition

end CallGuard
