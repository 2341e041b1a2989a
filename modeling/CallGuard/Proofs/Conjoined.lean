import CallGuard.Proofs.VariableSize

/-!
# Alternatives with shared conditions

Alternatives that are conjunctions of the same conditions and one more each (`Sharing`) have a
hinge, whatever the conditions are that they do not share (`factor?_of_sharing`).
`Sharing.normalForm_fill` says what becomes of the shared conditions and what the others become.
Unlike a match, a conjunction need not stay what it is around something else: if that is one of the
shared conditions, it is dropped.
-/

namespace CallGuard

namespace Condition

/-! ### Conjunctions -/

/-- A conjunction of conditions on the same data. -/
def allOf (conditions : List Condition) : Condition :=
  ⟨.none, .and, [], conditions⟩

theorem wellFormed_allOf {cs : List Condition} (some : cs ≠ []) (wf : ∀ c ∈ cs, WellFormed c) :
    WellFormed (allOf cs) :=
  ⟨shapeFault?_eq_none_iff.mpr ⟨some, rfl⟩, wf⟩

/-- Nothing replaces what a conjunction is prepared to. -/
theorem replaced?_prepared_of_and {pushDown : Bool} {c : Condition} (wf : WellFormed c)
    (op : c.operator = .and)
    (canonical : ∀ d ∈ c.children, Everywhere (Canonical pushDown) (normalForm pushDown d)) :
    replaced? pushDown (assembled pushDown c).prepared = none := by
  rcases (wf.assembled pushDown).prepared_cases with ⟨-, d, only, eq⟩ | ⟨-, eq⟩
  · rw [eq]
    have below : ∀ d ∈ (assembled pushDown c).children, Everywhere (Canonical pushDown) d :=
      List.forall_mem_map.mpr canonical
    exact (everywhere_of_mem_gathered below (only ▸ List.mem_singleton_self d)).here.refused
  · rw [eq]
    refine replaced?_of_ne_or (fun or => ?_) pushDown
    rw [gathered_operator, assembled, op] at or
    cases or

/-- Conditions that a conjunction keeps. -/
structure Conjoinable (cs : List Condition) : Prop where
  /-- There is more than one condition. -/
  many : 2 ≤ cs.length
  /-- No condition is a conjunction itself. -/
  flat : ∀ d ∈ cs, d.operator ≠ .and
  /-- No condition is repeated. -/
  apart : (cs.map id).Nodup

/-! ### Shared conditions -/

/-- Frames of conjunctions of one type with the same conditions around the place. -/
structure Sharing (type : ParamType) (shared : List Condition) (f : Frame) : Prop where
  paramType : f.paramType = type
  operator : f.operator = .and
  others : f.others.Perm shared

/-- What conjunctions of shared conditions and another one become, given what becomes of that: if it
is shared itself, the shared conditions are all that is left, or the only one of them. -/
def rejoined (type : ParamType) (shared : List Condition) (v : Condition) : Condition :=
  if v ∈ shared then if shared = [v] then v else ⟨type, .and, [], sorted shared⟩
  else ⟨type, .and, [], sorted (v :: shared)⟩

theorem rejoined_of_not_mem {type : ParamType} {shared : List Condition} {v : Condition}
    (new : v ∉ shared) : rejoined type shared v = ⟨type, .and, [], sorted (v :: shared)⟩ :=
  if_neg new

/-- It makes no difference which of the shared conditions it is. -/
theorem rejoined_of_mem {type : ParamType} {shared : List Condition} {v w : Condition}
    (mem : v ∈ shared) (mem' : w ∈ shared) : rejoined type shared v = rejoined type shared w := by
  rw [rejoined, rejoined, if_pos mem, if_pos mem']
  by_cases only : shared = [v]
  · subst only
    rw [List.mem_singleton.mp mem']
  · have only' : shared ≠ [w] := by
      rintro rfl
      exact only (by rw [List.mem_singleton.mp mem])
    rw [if_neg only, if_neg only']

namespace Sharing

variable {type : ParamType} {shared : List Condition} {f g : Frame}

theorem children_perm (h : Sharing type shared f) (x : Condition) :
    (f.fill x).children.Perm (x :: shared) :=
  (f.fill_children_perm x).trans (h.others.cons x)

theorem mem_children_iff (h : Sharing type shared f) {x d : Condition} :
    d ∈ (f.fill x).children ↔ d = x ∨ d ∈ shared := by
  rw [(h.children_perm x).mem_iff, List.mem_cons]

theorem operator_ne_or (h : Sharing type shared f) (x : Condition) : (f.fill x).operator ≠ .or := by
  rw [Frame.fill_operator, h.operator]
  exact nofun

theorem isAssociative (h : Sharing type shared f) (x : Condition) :
    (f.fill x).operator.isAssociative := by
  rw [Frame.fill_operator, h.operator]
  rfl

/-- The children of a conjunction in normal form are conditions that it keeps. -/
theorem conjoinable (h : Sharing type shared f) {v : Condition} (normal : Normal (f.fill v)) :
    Conjoinable (v :: shared) := by
  have perm := h.children_perm v
  have assoc := h.isAssociative v
  constructor
  · rw [← perm.length_eq]
    exact normal.tidy.many assoc
  · intro d mem
    rw [← h.operator]
    exact normal.tidy.flat assoc d (perm.mem_iff.mpr mem)
  · exact (perm.map id).nodup_iff.mp (normal.tidy.distinct (isSetLike_of_isAssociative assoc))

theorem not_mem (h : Sharing type shared f) {v : Condition} (normal : Normal (f.fill v)) :
    v ∉ shared :=
  (List.nodup_cons.mp (nodup_of_nodup_ids (h.conjoinable normal).apart)).1

/-- A conjunction in normal form, as the conditions that are shared and the one that is not. -/
theorem fill_eq (h : Sharing type shared f) {v : Condition} (normal : Normal (f.fill v)) :
    f.fill v = ⟨type, .and, [], sorted (v :: shared)⟩ := by
  have group := isSetLike_of_isAssociative (h.isAssociative v)
  rw [← sorted_eq_of_perm (normal.tidy.distinct group) (h.children_perm v),
    sorted_of_pairwise (normal.tidy.ordered group), Frame.fill, h.paramType, h.operator]

/-- Conjunctions of the same conditions around values of the same normal form have the same normal
form. -/
theorem normalForm_fill_congr (hf : Sharing type shared f) (hg : Sharing type shared g)
    {x y : Condition} (wf : WellFormed (f.fill x)) (wfY : WellFormed (g.fill y))
    (free : CollisionFree (compared true (f.fill x)))
    (same : normalForm true y = normalForm true x) :
    normalForm true (g.fill y) = normalForm true (f.fill x) := by
  have eq : g.fill y = { f.fill x with children := (g.fill y).children } := by
    rw [Frame.fill, Frame.fill, hf.paramType, hf.operator, hg.paramType, hg.operator]
  rw [eq] at wfY ⊢
  refine normalForm_group_congr (isSetLike_of_isAssociative (hf.isAssociative x)) wf wfY free
    fun n => ?_
  rw [((hf.children_perm x).map _).mem_iff, ((hg.children_perm y).map _).mem_iff, List.map_cons,
    List.map_cons, same]

/-- A conjunction of shared conditions and one more becomes that of the shared conditions and what
the other one becomes, or of the shared conditions only if that is one of them. -/
theorem normalForm_fill (h : Sharing type shared f) {v x : Condition}
    (conjoinable : Conjoinable (v :: shared)) (below : ∀ d ∈ shared, Normal d)
    (wf : WellFormed (f.fill x)) (free : CollisionFree (compared true (f.fill x)))
    (canonical : Everywhere (Canonical true) (normalForm true x))
    (other : (normalForm true x).operator ≠ .and) :
    normalForm true (f.fill x) = rejoined type shared (normalForm true x) := by
  let n := normalForm true x
  have group (y : Condition) := isSetLike_of_isAssociative (h.isAssociative y)
  have children : assembled true (f.fill x) = f.fill n :=
    assembled_fill (fun d mem => (below d (h.others.mem_iff.mp mem)).normalForm_eq) x
  have flat : (f.fill n).flatten = f.fill n := by
    refine flatten_eq_self (h.isAssociative n) fun d mem => ?_
    rw [Frame.fill_operator, h.operator]
    rcases h.mem_children_iff.mp mem with rfl | inside
    · exact other
    · exact conjoinable.flat d (List.mem_cons_of_mem v inside)
  have apart := (free.at wf).group (group x)
  rw [children, flat] at apart
  have gathered : (f.fill n).gathered = ⟨type, .and, [], distinct (f.fill n).children⟩ := by
    rw [gathered_of_isSetLike (group n), flat, ← h.paramType, ← h.operator]
    rfl
  -- the shared conditions are gathered, each once, and what is new
  have perm : (distinct (f.fill n).children).Perm (if n ∈ shared then shared else n :: shared) := by
    have sharedApart := (List.nodup_cons.mp (nodup_of_nodup_ids conjoinable.apart)).2
    refine (List.perm_ext_iff_of_nodup (nodup_of_nodup_ids (nodup_ids_distinct _)) ?_).mpr
      fun d => ?_
    · split
      · exact sharedApart
      · exact List.nodup_cons.mpr ⟨‹_›, sharedApart⟩
    · rw [apart.mem_distinct_iff, h.mem_children_iff]
      split
      · rename_i absorbed
        exact or_iff_right_of_imp fun same => same ▸ absorbed
      · exact List.mem_cons.symm
  have refused : replaced? true (assembled true (f.fill x)).prepared = none := by
    refine replaced?_prepared_of_and wf h.operator fun d mem => ?_
    rcases h.mem_children_iff.mp mem with rfl | inside
    · exact canonical
    · rw [(below d inside).normalForm_eq]
      exact (below d inside).canonical
  have ordered := sorted_eq_of_perm (nodup_ids_distinct _) perm
  rw [normalForm_of_not_replaced? wf refused, children]
  show _ = rejoined type shared n
  rcases (children ▸ wf.assembled true).prepared_cases with ⟨-, d, only, single⟩ | ⟨many, all⟩
  · rw [gathered] at only
    change distinct (f.fill n).children = [d] at only
    rw [only] at perm
    have whole := List.singleton_perm.mp perm
    by_cases absorbed : n ∈ shared
    · rw [if_pos absorbed] at whole
      subst whole
      obtain rfl := List.mem_singleton.mp absorbed
      rw [single, rejoined, if_pos absorbed, if_pos rfl, (below n absorbed).tidy.sort_eq]
    · rw [if_neg absorbed] at whole
      have none : shared = [] := (List.cons.inj whole.symm).2
      have several := conjoinable.many
      rw [none] at several
      exact absurd several (by simp)
  · have several := many (h.isAssociative n)
    rw [gathered] at several
    rw [all, gathered, sort_of_isSetLike rfl, ordered]
    by_cases absorbed : n ∈ shared
    · have alone : shared ≠ [n] := by
        rintro rfl
        rw [perm.length_eq, if_pos absorbed] at several
        exact absurd several (by simp)
      rw [if_pos absorbed, rejoined, if_pos absorbed, if_neg alone]
    · rw [if_neg absorbed, rejoined_of_not_mem absorbed]

end Sharing

/-- A conjunction is a frame around the condition that is not shared. -/
theorem exists_sharing {b v : Condition} {shared : List Condition} (bare : b.operand = [])
    (op : b.operator = .and) (perm : b.children.Perm (v :: shared)) :
    ∃ f : Frame, f.fill v = b ∧ Sharing b.paramType shared f := by
  obtain ⟨f, rfl, others⟩ := exists_fill_of_children_perm bare perm
  exact ⟨f, rfl, rfl, op, others⟩

/-! ### Factoring -/

/-- Frames around different values, with the same conditions around them, agree by content. -/
theorem agreeByContent_of_shared {shared : List Condition} {parts : List (Frame × Condition)}
    (many : 2 ≤ parts.length) (around : ∀ p ∈ parts, p.1.others.Perm shared)
    (different : (parts.map fun p => p.2.id).Nodup)
    (apart : ∀ p ∈ parts, p.2.id ∉ shared.map id) : AgreeByContent parts := by
  have some : (parts.map filled).map childIds ≠ [] := by
    rintro empty
    have none : parts = [] := by simpa using empty
    rw [none] at many
    exact absurd many (by simp)
  have row {p : Frame × Condition} (mem : p ∈ parts) (key : ConditionId) :
      key ∈ (filled p).childIds ↔ key = p.2.id ∨ key ∈ shared.map id := by
    have perm := ((p.1.fill_children_perm p.2).trans ((around p mem).cons p.2)).map id
    rw [filled, childIds, perm.mem_iff, List.map_cons, List.mem_cons]
  intro p memP
  refine ⟨fun inside => ?_, fun d mem => ?_⟩
  · -- another part does not have the value
    have other : ∃ q ∈ parts, q.2.id ≠ p.2.id := by
      by_contra none
      push Not at none
      have all : parts.map (fun p => p.2.id) = List.replicate parts.length p.2.id := by
        refine List.eq_replicate_iff.mpr ⟨List.length_map _, fun key mem => ?_⟩
        obtain ⟨q, memQ, rfl⟩ := List.mem_map.mp mem
        exact none q memQ
      rw [all, List.nodup_replicate] at different
      omega
    obtain ⟨q, memQ, differ⟩ := other
    have found := (mem_sharedIds some).mp inside (filled q).childIds
      (List.mem_map_of_mem (List.mem_map_of_mem memQ))
    rcases (row memQ _).mp found with same | inShared
    · exact differ same.symm
    · exact apart p memP inShared
  · refine (mem_sharedIds some).mpr ?_
    simp only [List.forall_mem_map]
    intro q memQ
    have inShared : d ∈ shared := (around p memP).mem_iff.mp mem
    exact (row memQ _).mpr (.inr (List.mem_map_of_mem inShared))

/-- Conjunctions that share all conditions but one each are factored around these. -/
theorem factor?_of_sharing {type : ParamType} {shared : List Condition}
    {first : Frame × Condition} {rest : List (Frame × Condition)} (array : type ≠ .array)
    (sharing : ∀ p ∈ first :: rest, Sharing type shared p.1) (many : 2 ≤ (first :: rest).length)
    (normal : ∀ b ∈ (first :: rest).map filled, Normal b)
    (different : ((first :: rest).map Prod.snd).Nodup)
    (free : CollisionFree (comparedBranches ((first :: rest).map filled))) :
    factor? ((first :: rest).map filled) =
      some (first.1.fill (anyOf ((first :: rest).map Prod.snd))) := by
  have common : commonOperator? ((first :: rest).map filled) = some .and := by
    refine commonOperator?_eq_some_iff.mpr ⟨List.cons_ne_nil _ _, type, array, ?_⟩
    exact List.forall_mem_map.mpr fun p mem => ⟨(sharing p mem).paramType, (sharing p mem).operator⟩
  rw [comparedBranches_of_and common] at free
  -- ids tell the values apart
  have inside : ∀ v ∈ (first :: rest).map Prod.snd,
      v ∈ ((first :: rest).map filled).flatMap children := List.forall_mem_map.mpr fun p mem =>
    List.mem_flatMap.mpr
      ⟨filled p, List.mem_map_of_mem mem, Frame.mem_fill_children.mpr (.inl rfl)⟩
  have values : (((first :: rest).map Prod.snd).map id).Nodup :=
    different.map_on fun v mem w memW => free v (inside v mem) w (inside w memW)
  rw [List.map_map] at values
  have agree : AgreeByContent (first :: rest) := by
    refine agreeByContent_of_shared many (fun p mem => (sharing p mem).others) values
      fun p mem => ?_
    have apart := ((sharing p mem).conjoinable (normal _ (List.mem_map_of_mem mem))).apart
    exact (List.nodup_cons.mp apart).1
  refine (factor?_eq_some_iff fun b mem => (normal b mem).wellFormed).mpr
    ⟨.and, first, rest, common, ?_, agree.rest_ne_nil, .inr ⟨rfl, agree⟩, rfl⟩
  rw [leveled_of_and common]

end Condition

end CallGuard
