import CallGuard.Proofs.Meaning
import CallGuard.Proofs.Placement
import CallGuard.Proofs.Runs

/-!
# Normalizing preserves meaning

Each step towards the normal form keeps what a tree means, under any interpretation. Pruning and
padding move only components that accept everything, at the end of a match; flattening, removing
repetitions, unwrapping and sorting are laws of And, Or and Nor; and factoring is the distributive
law of a frame: what a filled frame asks is what its children around the place ask, and what the
child in the place asks of one component or of the datum itself.
-/

namespace CallGuard

namespace Interpretation

open Condition

variable {D : Type} (I : Interpretation D) {x : D}

/-! ### Steps on one node -/

theorem meaning_prune (c : Condition) : I.meaning c.prune = I.meaning c := by
  by_cases h : c.operator = .matches ∧ c.isOpenEnded
  swap
  · rw [prune_of_not h]
  funext x
  obtain ⟨tail, split, free⟩ := exists_dropFreeTail_append c.retained c.positional
  rw [I.meaning_matches (by rw [prune_operator, h.1]), I.meaning_matches h.1, allowances_prune,
    prune_paramType, positional_prune h.1 h.2]
  -- the components of the node are those that stay and a free tail
  conv => rhs; rw [split, List.map_append, componentsHold_append]
  simp [I.componentsHold_of_pass free]

theorem meaning_spliced {op : Operator} (assoc : op.isAssociative) (d : Condition) :
    (op = .and → (I.meaning d x ↔ ∀ e ∈ spliced op d, I.meaning e x)) ∧
      (op = .or → (I.meaning d x ↔ ∃ e ∈ spliced op d, I.meaning e x)) := by
  unfold spliced
  constructor
  · rintro rfl
    split
    · exact I.meaning_and ‹_›
    · simp
  · rintro rfl
    split
    · exact I.meaning_or ‹_›
    · simp

theorem meaning_flatten (c : Condition) : I.meaning c.flatten = I.meaning c := by
  by_cases assoc : c.operator.isAssociative
  swap
  · rw [flatten_of_not_isAssociative assoc]
  funext x
  refine propext ?_
  have inner := fun d => I.meaning_spliced (x := x) assoc d
  rw [flatten_of_isAssociative assoc]
  cases op : c.operator with (rw [op] at assoc inner; try cases assoc)
  | and =>
    rw [I.meaning_and op, I.meaning_and rfl, List.forall_mem_flatMap]
    exact forall₂_congr fun d _ => ((inner d).1 rfl).symm
  | or =>
    rw [I.meaning_or op, I.meaning_or rfl]
    constructor
    · rintro ⟨e, mem, holds⟩
      obtain ⟨d, memD, memE⟩ := List.mem_flatMap.mp mem
      exact ⟨d, memD, ((inner d).2 rfl).mpr ⟨e, memE, holds⟩⟩
    · rintro ⟨d, memD, holds⟩
      obtain ⟨e, memE, holds⟩ := ((inner d).2 rfl).mp holds
      exact ⟨e, List.mem_flatMap.mpr ⟨d, memD, memE⟩, holds⟩

theorem meaning_dedupe {c : Condition} (free : c.operator.isSetLike → CollisionFree c.children) :
    I.meaning c.dedupe = I.meaning c := by
  by_cases group : c.operator.isSetLike
  · rw [dedupe_of_isSetLike group]
    exact I.meaning_of_isSetLike group fun d => (free group).mem_distinct_iff
  · rw [dedupe_of_not_isSetLike group]

theorem meaning_unwrap (c : Condition) : I.meaning c.unwrap = I.meaning c := by
  rcases unwrap_cases c with ⟨assoc, d, only, eq⟩ | ⟨-, eq⟩
  swap
  · rw [eq]
  funext x
  refine propext ?_
  rw [eq]
  cases op : c.operator with (rw [op] at assoc; try cases assoc)
  | and => simp [I.meaning_and op, only]
  | or => simp [I.meaning_or op, only]

theorem meaning_sort (c : Condition) : I.meaning c.sort = I.meaning c := by
  by_cases group : c.operator.isSetLike
  · rw [sort_of_isSetLike group]
    exact I.meaning_of_isSetLike group fun d => (sorted_perm c.children).mem_iff
  · rw [sort_of_not_isSetLike group]

theorem meaning_prepared {c : Condition}
    (free : c.operator.isSetLike → CollisionFree c.flatten.children) :
    I.meaning c.prepared = I.meaning c := by
  have unrepeated : c.prune.flatten.operator.isSetLike →
      CollisionFree c.prune.flatten.children := by
    intro group
    rw [flatten_operator, prune_operator] at group
    rw [prune_of_isSetLike group]
    exact free group
  rw [prepared, meaning_unwrap, I.meaning_dedupe unrepeated, meaning_flatten, meaning_prune]

theorem meaning_padTo {c : Condition} (op : c.operator = .matches) (model : List Condition) :
    I.meaning (padTo model c) = I.meaning c := by
  funext x
  have free : ∀ d ∈ missing model c, d.isPass := by
    intro d mem
    obtain ⟨type, rfl⟩ := eq_pass_of_mem_missing mem
    rfl
  rw [I.meaning_matches (by rw [padTo_operator, op]), I.meaning_matches op, allowances_padTo,
    padTo_paramType, positional_padTo, List.map_append, componentsHold_append]
  simp [I.componentsHold_of_pass free]

/-! ### Frames -/

/-- The position of the component that stands in the place of a frame. -/
def position (f : Frame) : Nat :=
  (f.before.filter fun d => !d.isGlobalAllowance).length

/-- What the children of a match around a place ask. -/
def Around (f : Frame) (x : D) : Prop :=
  I.ComponentsHold f.paramType 0
      ((f.before.filter fun d => !d.isGlobalAllowance).map I.meaning) x ∧
    I.ComponentsHold f.paramType (position f + 1)
      ((f.after.filter fun d => !d.isGlobalAllowance).map I.meaning) x ∧
    ∀ d ∈ f.others, d.isGlobalAllowance → I.meaning d x

/-- **What a match asks** is what its children around a place ask, and what the child in the place
asks of its component. -/
theorem meaning_fill_matches {f : Frame} (op : f.operator = .matches) {d : Condition}
    (own : d.isGlobalAllowance = false) : I.meaning (f.fill d) x ↔
      I.Around f x ∧ I.meaning d (I.component f.paramType (position f) x) := by
  have components : (f.fill d).positional = (f.before.filter fun d => !d.isGlobalAllowance) ++
      d :: f.after.filter fun d => !d.isGlobalAllowance := by
    simp [positional, own]
  have allowances : (∀ e ∈ (f.fill d).allowances, I.meaning e x) ↔
      ∀ e ∈ f.others, e.isGlobalAllowance → I.meaning e x := by
    simp only [mem_allowances, Frame.mem_fill_children]
    constructor
    · exact fun all e mem allowance => all e ⟨.inr mem, allowance⟩
    · rintro all e ⟨rfl | mem, allowance⟩
      · rw [own] at allowance
        cases allowance
      · exact all e mem allowance
  rw [I.meaning_matches op, components, allowances, List.map_append, List.map_cons,
    componentsHold_append, componentsHold_cons, List.length_map, Nat.zero_add, Frame.fill_paramType]
  unfold Around position
  tauto

theorem meaning_fill_and {f : Frame} (op : f.operator = .and) {d : Condition} :
    I.meaning (f.fill d) x ↔ (∀ e ∈ f.others, I.meaning e x) ∧ I.meaning d x := by
  rw [I.meaning_and op]
  simp only [Frame.mem_fill_children, forall_eq_or_imp]
  exact and_comm

/-! ### Factoring -/

/-- A match distributes over an alternation in the place of a component. -/
theorem meaning_fill_anyOf_matches {f : Frame} (op : f.operator = .matches) {xs : List Condition}
    (own : ∀ y ∈ xs, y.isGlobalAllowance = false) :
    I.meaning (f.fill (anyOf xs)) x ↔ ∃ y ∈ xs, I.meaning (f.fill y) x := by
  rw [I.meaning_fill_matches op rfl, meaning_anyOf]
  constructor
  · rintro ⟨around, y, mem, holds⟩
    exact ⟨y, mem, (I.meaning_fill_matches op (own y mem)).mpr ⟨around, holds⟩⟩
  · rintro ⟨y, mem, holds⟩
    obtain ⟨around, holds⟩ := (I.meaning_fill_matches op (own y mem)).mp holds
    exact ⟨around, y, mem, holds⟩

/-- An And distributes over an alternation. -/
theorem meaning_fill_anyOf_and {f : Frame} (op : f.operator = .and) (xs : List Condition) :
    I.meaning (f.fill (anyOf xs)) x ↔ ∃ y ∈ xs, I.meaning (f.fill y) x := by
  simp only [I.meaning_fill_and op, meaning_anyOf]
  constructor
  · rintro ⟨others, y, mem, holds⟩
    exact ⟨y, mem, others, holds⟩
  · rintro ⟨y, mem, others, holds⟩
    exact ⟨others, y, mem, holds⟩

theorem exists_mem_padded_iff {bs : List Condition} (op : ∀ b ∈ bs, b.operator = .matches) :
    (∃ b ∈ padded bs, I.meaning b x) ↔ ∃ b ∈ bs, I.meaning b x := by
  unfold padded
  split
  · rename_i none
    rw [(model?_eq_none_iff bs).mp none]
  · rename_i model _
    constructor
    · rintro ⟨b, mem, holds⟩
      obtain ⟨c, memC, rfl⟩ := List.mem_map.mp mem
      rw [I.meaning_padTo (op c memC)] at holds
      exact ⟨c, memC, holds⟩
    · rintro ⟨b, mem, holds⟩
      rw [← I.meaning_padTo (op b mem) model.positional] at holds
      exact ⟨_, List.mem_map_of_mem mem, holds⟩

/-- **What branches factor into** asks that some branch holds. -/
theorem meaning_of_factor? {bs : List Condition} (wf : ∀ b ∈ bs, WellFormed b)
    (free : CollisionFree (comparedBranches bs)) {d : Condition} (found : factor? bs = some d) :
    I.meaning d x ↔ ∃ b ∈ bs, I.meaning b x := by
  obtain ⟨op, first, rest, common, eq, -, agree, same⟩ := (factor?_eq_some_iff wf).mp found
  obtain ⟨-, type, -, all⟩ := commonOperator?_eq_some_iff.mp common
  rcases agree with ⟨rfl, -⟩ | ⟨rfl, agree⟩
  · obtain ⟨f, xs, eq, many, -, own, rfl⟩ := (factor?_matches_iff wf common free).mp found
    obtain ⟨_, level⟩ := leveled_operator common
    have op : f.operator = .matches := by
      obtain ⟨y, mem⟩ := List.exists_mem_of_length_pos (by omega : 0 < xs.length)
      have inside : f.fill y ∈ leveled bs := by
        rw [leveled_of_matches common, eq]
        exact List.mem_map_of_mem mem
      exact (level _ inside).2
    rw [← I.exists_mem_padded_iff fun b mem => (all b mem).2, eq,
      I.meaning_fill_anyOf_matches op own]
    simp only [List.mem_map, exists_exists_and_eq_and]
  · rw [comparedBranches_of_and common] at free
    rw [leveled_of_and common] at eq
    subst eq
    have op {p : Frame × Condition} (mem : p ∈ first :: rest) : p.1.operator = .and :=
      (all _ (List.mem_map_of_mem mem)).2
    have firstMem : first ∈ first :: rest := List.mem_cons_self
    have branch {p : Frame × Condition} (mem : p ∈ first :: rest) :
        I.meaning (filled p) x ↔ I.meaning (first.1.fill p.2) x := by
      rw [filled, I.meaning_fill_and (op mem), I.meaning_fill_and (op firstMem)]
      simp only [agree.mem_others_iff free mem firstMem]
    rw [same, I.meaning_fill_anyOf_and (op firstMem)]
    constructor
    · rintro ⟨y, mem, holds⟩
      obtain ⟨p, memP, rfl⟩ := List.mem_map.mp mem
      exact ⟨filled p, List.mem_map_of_mem memP, (branch memP).mpr holds⟩
    · rintro ⟨b, mem, holds⟩
      obtain ⟨p, memP, rfl⟩ := List.mem_map.mp mem
      exact ⟨p.2, List.mem_map_of_mem memP, (branch memP).mp holds⟩

theorem meaning_of_replaced? {pushDown : Bool} {c d : Condition} (wf : WellFormed c)
    (free : pushDown → c.operator = .or → CollisionFree (comparedBranches c.children))
    (found : replaced? pushDown c = some d) : I.meaning d = I.meaning c := by
  obtain ⟨on, or, factored⟩ := replaced?_eq_some_iff.mp found
  funext x
  rw [I.meaning_or or]
  exact propext (I.meaning_of_factor? wf.children (free on or) factored)

/-! ### The normal form -/

/-- **A tree and its normal form mean the same.** -/
theorem meaning_normalForm {pushDown : Bool} {c : Condition} (wf : WellFormed c)
    (placed : Everywhere PlacesAllowances c) (free : CollisionFree (compared pushDown c)) :
    I.meaning (normalForm pushDown c) = I.meaning c := by
  -- the children, once they are in normal form, are as they were for their parent
  have below {c : Condition} (wf : WellFormed c) (placed : Everywhere PlacesAllowances c) :
      ∀ d ∈ c.children, Everywhere PlacesAllowances (normalForm pushDown d) ∧
        (normalForm pushDown d).isGlobalAllowance = d.isGlobalAllowance := fun d mem =>
    everywhere_placesAllowances_normalForm (wf.children d mem) (placed.children d mem)
  have prepared {c : Condition} (wf : WellFormed c) (free : CollisionFree (compared pushDown c))
      (placed : Everywhere PlacesAllowances c)
      (same : ∀ d ∈ c.children, Everywhere PlacesAllowances d →
        I.meaning (normalForm pushDown d) = I.meaning d) :
      I.meaning (assembled pushDown c).prepared = I.meaning c := by
    rw [I.meaning_prepared (free.at wf).group]
    exact I.meaning_map_children fun d mem =>
      ⟨same d mem (placed.children d mem), (below wf placed d mem).2⟩
  refine normalForm_induct_free
    (motive := fun c n => Everywhere PlacesAllowances c → I.meaning n = I.meaning c)
    (fun c d wf free same found _ again placed => ?_) (fun c wf free same _ placed => ?_)
    wf free placed
  · rw [again (everywhere_placesAllowances_replaced? wf placed (below wf placed) found).1,
      I.meaning_of_replaced? (wf.assembled pushDown).prepared (free.at wf).branches found,
      prepared wf free placed same]
  · rw [meaning_sort, prepared wf free placed same]

end Interpretation

namespace Condition

/-- **Normalizing preserves meaning.** A well-formed tree without faults of integrity is normalized
without an error, and means the same afterwards under any interpretation, as long as the run
compares no two different trees with the same id. So two such trees that count as equivalent mean
the same, if their runs and the last comparison tell all trees apart. -/
theorem normalize_preserves_meaning {D : Type} (I : Interpretation D) (pushDown : Bool) :
    (∀ t : Condition, WellFormed t → t.checkIntegrity = .ok () →
      CollisionFree (compared pushDown t) →
      ∃ n, normalize pushDown t = pure n ∧ I.meaning n = I.meaning t) ∧
    (∀ a b : Condition, WellFormed a → WellFormed b → a.checkIntegrity = .ok () →
      b.checkIntegrity = .ok () →
      CollisionFree (compared pushDown a ++ compared pushDown b ++
        [normalForm pushDown a, normalForm pushDown b]) →
      equivalent pushDown a b = pure true → I.meaning a = I.meaning b) := by
  have each {t : Condition} (wf : WellFormed t) (integrity : t.checkIntegrity = .ok ())
      (free : CollisionFree (compared pushDown t)) :
      I.meaning (normalForm pushDown t) = I.meaning t :=
    I.meaning_normalForm wf (everywhere_placesAllowances integrity) free
  refine ⟨fun t wf integrity free => ⟨_, normalize_eq wf, each wf integrity free⟩, ?_⟩
  intro a b wfA wfB integrityA integrityB free same
  rw [equivalent_eq wfA wfB] at same
  have ids : (normalForm pushDown a).id = (normalForm pushDown b).id :=
    eq_of_beq (Run.pure_inj.mp same)
  have equal := free _ (by simp) _ (by simp) ids
  rw [← each wfA integrityA (free.mono (by simp)), equal,
    each wfB integrityB (free.mono (by simp))]

/-- Two calls that differ in one component keep their meaning, and an alternation of one call
means what the call does without its free component. -/
theorem meaning_sampleCalls :
    (∃ n, normalize true sampleCalls = pure n ∧
      Interpretation.bytewise.meaning n = Interpretation.bytewise.meaning sampleCalls) ∧
    Interpretation.bytewise.meaning (anyOf [allowedCall [byteIs 1, byteIs 2, pass .static]]) =
      Interpretation.bytewise.meaning (allowedCall [byteIs 1, byteIs 2]) := by
  obtain ⟨runs, equivalents⟩ := normalize_preserves_meaning Interpretation.bytewise true
  refine ⟨runs sampleCalls (by decide +kernel) (by decide +kernel) (by decide +kernel), ?_⟩
  have single : normalForm true (anyOf [allowedCall [byteIs 1, byteIs 2, pass .static]]) =
      allowedCall [byteIs 1, byteIs 2] := by
    decide +kernel
  have plain : normalForm true (allowedCall [byteIs 1, byteIs 2]) =
      allowedCall [byteIs 1, byteIs 2] := by
    decide +kernel
  refine equivalents _ _ (by decide +kernel) (by decide +kernel) (by decide +kernel)
    (by decide +kernel) ?_ ?_
  · rw [single, plain]
    decide +kernel
  · rw [equivalent_eq (by decide +kernel) (by decide +kernel), single, plain, beq_self_eq_true]

end Condition

end CallGuard
