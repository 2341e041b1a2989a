import CallGuard.Proofs.FreeTail
import CallGuard.Proofs.Regular

/-!
# Regions of variable size

A tree has a variable size if and only if its normal form has (`isDynamic_normalForm`). Pruning
keeps the component that makes a tuple one of variable size; factoring takes several tuples as one,
and the free components that padding invents for it have a variable size only if those they are
made after have; a group has the sizes of its children, whichever of them it takes in. So a node
is as open-ended with its children in normal form as before (`normalize_keeps_variable_size`).
-/

namespace CallGuard

namespace Condition

/-! ### Single steps -/

theorem isDynamic_with_children {c : Condition} {cs : List Condition}
    (same : cs.any isDynamic = c.children.any isDynamic) :
    isDynamic { c with children := cs } = c.isDynamic := by
  rw [isDynamic_eq, isDynamic_eq c]
  simp only [same]

theorem any_isDynamic_map {f : Condition → Condition} {cs : List Condition}
    (same : ∀ d ∈ cs, (f d).isDynamic = d.isDynamic) :
    (cs.map f).any isDynamic = cs.any isDynamic := by
  have read (cs : List Condition) : cs.any isDynamic = (cs.map isDynamic).any (fun b => b) := by
    rw [List.any_map]
    rfl
  have sizes : cs.map (isDynamic ∘ f) = cs.map isDynamic := List.map_congr_left same
  rw [read, read, List.map_map, sizes]

theorem isDynamic_of_none {c : Condition} (type : c.paramType = .none) :
    c.isDynamic = c.children.any isDynamic := by
  rw [isDynamic_eq, type]

theorem isDynamic_flatten {c : Condition} (below : ∀ d ∈ c.children, Untyped d) :
    c.flatten.isDynamic = c.isDynamic := by
  by_cases assoc : c.operator.isAssociative
  · have each : ∀ d ∈ c.children, (spliced c.operator d).any isDynamic = d.isDynamic := by
      intro d mem
      unfold spliced
      split
      · rename_i same
        exact (isDynamic_of_none (below d mem (same ▸ assoc))).symm
      · simp
    rw [flatten_of_isAssociative assoc]
    refine isDynamic_with_children ?_
    rw [List.any_flatMap, Bool.eq_iff_iff, List.any_eq_true, List.any_eq_true]
    constructor
    · rintro ⟨d, mem, dynamic⟩
      exact ⟨d, mem, each d mem ▸ dynamic⟩
    · rintro ⟨d, mem, dynamic⟩
      exact ⟨d, mem, (each d mem).symm ▸ dynamic⟩
  · rw [flatten_of_not_isAssociative assoc]

theorem isDynamic_dedupe {c : Condition}
    (free : c.operator.isSetLike → CollisionFree c.children) :
    c.dedupe.isDynamic = c.isDynamic := by
  by_cases group : c.operator.isSetLike
  · rw [dedupe_of_isSetLike group]
    refine isDynamic_with_children ?_
    rw [Bool.eq_iff_iff, List.any_eq_true, List.any_eq_true]
    simp only [(free group).mem_distinct_iff]
  · rw [dedupe_of_not_isSetLike group]

theorem isDynamic_unwrap {c : Condition} (untyped : Untyped c) :
    c.unwrap.isDynamic = c.isDynamic := by
  rcases unwrap_cases c with ⟨assoc, d, only, eq⟩ | ⟨-, eq⟩
  · rw [eq, isDynamic_of_none (untyped assoc), only]
    simp
  · rw [eq]

theorem isDynamic_sort (c : Condition) : c.sort.isDynamic = c.isDynamic := by
  by_cases group : c.operator.isSetLike
  · rw [sort_of_isSetLike group]
    exact isDynamic_with_children (sorted_perm c.children).any_eq
  · rw [sort_of_not_isSetLike group]

/-- What is prepared of a node whose children are in normal form has a variable size if and only
if the node has. -/
theorem isDynamic_prepared_assembled {pushDown : Bool} {c : Condition} (wf : WellFormed c)
    (untyped : Everywhere Untyped c)
    (free : c.operator.isSetLike → CollisionFree (content pushDown c))
    (below : ∀ d ∈ c.children, (normalForm pushDown d).isDynamic = d.isDynamic) :
    (assembled pushDown c).prepared.isDynamic = c.isDynamic := by
  have children : (assembled pushDown c).isDynamic = c.isDynamic :=
    isDynamic_with_children (any_isDynamic_map below)
  have inner : ∀ d ∈ (assembled pushDown c).prune.children, Untyped d := by
    intro d mem
    obtain ⟨e, memE, rfl⟩ := List.mem_map.mp ((prune_children_subperm _).subset mem)
    exact (inherited_untyped.everywhere_normalForm (wf.children e memE)
      (untyped.children e memE)).here
  have gathered : (assembled pushDown c).gathered.isDynamic = (assembled pushDown c).isDynamic := by
    rw [gathered, isDynamic_dedupe, isDynamic_flatten inner, isDynamic_prune]
    intro group
    rw [flatten_operator, prune_operator] at group
    rw [prune_of_isSetLike group, flatten_assembled_children]
    exact free group
  have outer : Untyped (assembled pushDown c).gathered :=
    untyped.here.congr (gathered_operator _) (gathered_paramType _)
  rw [prepared_eq, isDynamic_unwrap outer, gathered, children]

/-! ### Factoring -/

/-- The type that a component decodes as has a variable size only if the component has. -/
theorem isDynamic_of_slotType {c : Condition} (h : (pass c.slotType).isDynamic) : c.isDynamic := by
  induction c using induct with
  | node c ih =>
    rw [slotType_eq] at h
    split at h
    · rename_i first rest type children
      rw [isDynamic_of_none type, children]
      exact List.any_eq_true.mpr
        ⟨first, List.mem_cons_self, ih first (children ▸ List.mem_cons_self) h⟩
    · rw [isDynamic_eq] at h ⊢
      revert h
      cases c.paramType <;> simp [pass]

/-- Padded matches have the sizes of what they were padded from, taken together. -/
theorem any_isDynamic_padded {bs : List Condition} {type : ParamType}
    (same : ∀ b ∈ bs, b.paramType = type) :
    (padded bs).any isDynamic = bs.any isDynamic := by
  by_cases none : bs = []
  · rw [none]
    rfl
  obtain ⟨m, memM, eq, -⟩ := padded_eq none
  have padTo_eq (b : Condition) : (padTo m.positional b).isDynamic =
      isDynamic { b with children := missing m.positional b ++ b.children } := by
    rw [isDynamic_eq, isDynamic_eq, padTo_paramType, (children_padTo_perm m.positional b).any_eq]
  rw [eq, Bool.eq_iff_iff, List.any_eq_true, List.any_eq_true]
  constructor
  · rintro ⟨_, mem, dynamic⟩
    obtain ⟨b, memB, rfl⟩ := List.mem_map.mp mem
    rw [padTo_eq, isDynamic_eq] at dynamic
    dsimp only at dynamic
    -- a free component of variable size stands for one of the model
    have carry (components : type = .tuple ∨ type = .none)
        (dynamic : (missing m.positional b ++ b.children).any isDynamic) :
        ∃ b ∈ bs, b.isDynamic := by
      obtain ⟨d, memD, dynamicD⟩ := List.any_eq_true.mp dynamic
      rcases List.mem_append.mp memD with new | own
      · obtain ⟨e, memE, rfl⟩ := mem_missing new
        refine ⟨m, memM, ?_⟩
        have inside : m.children.any isDynamic :=
          List.any_eq_true.mpr ⟨e, (mem_positional.mp memE).1, isDynamic_of_slotType dynamicD⟩
        rw [isDynamic_eq, same m memM]
        rcases components with rfl | rfl <;> exact inside
      · refine ⟨b, memB, ?_⟩
        have inside : b.children.any isDynamic := List.any_eq_true.mpr ⟨d, own, dynamicD⟩
        rw [isDynamic_eq, same b memB]
        rcases components with rfl | rfl <;> exact inside
    rw [same b memB] at dynamic
    cases type with
    | tuple => exact carry (.inl rfl) dynamic
    | none => exact carry (.inr rfl) dynamic
    | static => cases dynamic
    | _ => exact ⟨b, memB, by rw [isDynamic_eq, same b memB]⟩
  · rintro ⟨b, mem, dynamic⟩
    refine ⟨_, List.mem_map_of_mem mem, ?_⟩
    rw [padTo_eq]
    rw [isDynamic_eq] at dynamic ⊢
    revert dynamic
    cases b.paramType <;> simp +contextual

theorem isDynamic_fill (f : Frame) (x : Condition) :
    (f.fill x).isDynamic = match f.paramType with
      | .dynamic | .array | .calldata | .abiEncoded => true
      | .static => false
      | .tuple | .none => x.isDynamic || f.others.any isDynamic := by
  rw [isDynamic_eq, (f.fill_children_perm x).any_eq]
  rfl

/-- A frame around an alternation has the size of its fillings with the alternatives, taken
together. -/
theorem isDynamic_fill_anyOf (f : Frame) {xs : List Condition} (some : xs ≠ []) :
    (f.fill (anyOf xs)).isDynamic = xs.any fun x => (f.fill x).isDynamic := by
  obtain ⟨x, rest, rfl⟩ := List.exists_cons_of_ne_nil some
  have alternation : (anyOf (x :: rest)).isDynamic = (x :: rest).any isDynamic :=
    isDynamic_of_none rfl
  simp only [isDynamic_fill, alternation]
  generalize x :: rest = xs at some ⊢
  cases f.paramType with
  | tuple | none =>
    cases f.others.any isDynamic with
    | false => simp
    | true => simpa [List.any_eq_true] using List.exists_mem_of_ne_nil xs some
  | static => simp
  | _ => simpa using List.exists_mem_of_ne_nil xs some

/-- **What branches factor into** has their size, taken together. -/
theorem isDynamic_factor? {bs : List Condition} (wf : ∀ b ∈ bs, WellFormed b)
    (distinct : ∀ b ∈ bs, b.operator.isSetLike → b.childIds.Nodup)
    (free : CollisionFree (comparedBranches bs)) {d : Condition} (found : factor? bs = some d) :
    d.isDynamic = bs.any isDynamic := by
  obtain ⟨op, first, rest, common, eq, -, agree, rfl⟩ := (factor?_eq_some_iff wf).mp found
  obtain ⟨-, type, -, all⟩ := commonOperator?_eq_some_iff.mp common
  rcases agree with ⟨rfl, -⟩ | ⟨rfl, agree⟩
  · obtain ⟨f, xs, refilled, many, -, -, same⟩ := (factor?_matches_iff wf common free).mp found
    have some : xs ≠ [] := by
      rintro rfl
      exact absurd many (by simp)
    rw [same, isDynamic_fill_anyOf f some, ← any_isDynamic_padded fun b mem => (all b mem).1,
      refilled, List.any_map]
    rfl
  · rw [leveled_of_and common] at eq
    subst eq
    rw [comparedBranches_of_and common] at free
    have nodup : ∀ b ∈ (first :: rest).map filled, b.childIds.Nodup := fun b mem =>
      distinct b mem (by rw [(all b mem).2]; rfl)
    -- around the hinge, all branches hold what the first one holds
    have each : ∀ p ∈ first :: rest, (first.1.fill p.2).isDynamic = (filled p).isDynamic := by
      intro p mem
      have here : p.1.paramType = type := (all _ (List.mem_map_of_mem mem)).1
      have there : first.1.paramType = type := (all _ (List.mem_map_of_mem List.mem_cons_self)).1
      have others := (agree.others_perm free nodup mem List.mem_cons_self).any_eq (f := isDynamic)
      rw [filled, isDynamic_fill, isDynamic_fill, here, there, others]
    rw [isDynamic_fill_anyOf _ (by simp), List.any_map, List.any_map, Bool.eq_iff_iff,
      List.any_eq_true, List.any_eq_true]
    constructor
    · rintro ⟨p, mem, dynamic⟩
      exact ⟨p, mem, (each p mem).symm.trans dynamic⟩
    · rintro ⟨p, mem, dynamic⟩
      exact ⟨p, mem, (each p mem).trans dynamic⟩

/-- **A tree and its normal form both have a variable size**, or neither has. -/
theorem isDynamic_normalForm {pushDown : Bool} {c : Condition} (wf : WellFormed c)
    (free : CollisionFree (compared pushDown c)) (untyped : Everywhere Untyped c) :
    (normalForm pushDown c).isDynamic = c.isDynamic := by
  have prepared {c : Condition} (wf : WellFormed c) (free : CollisionFree (compared pushDown c))
      (untyped : Everywhere Untyped c) (below : ∀ d ∈ c.children, Everywhere Untyped d →
        (normalForm pushDown d).isDynamic = d.isDynamic) :
      (assembled pushDown c).prepared.isDynamic = c.isDynamic :=
    isDynamic_prepared_assembled wf untyped (free.at wf).content fun d mem =>
      below d mem (untyped.children d mem)
  refine normalForm_induct_free
    (motive := fun c n => Everywhere Untyped c → n.isDynamic = c.isDynamic)
    (fun c d wf free below found _ again untyped => ?_)
    (fun c wf free below _ untyped => ?_) wf free untyped
  · obtain ⟨on, or, factored⟩ := replaced?_eq_some_iff.mp found
    have wfE := wf.assembled pushDown
    have tidy := everywhere_tidy_assembled pushDown wf
    have inner : Everywhere Untyped (assembled pushDown c).prepared :=
      inherited_untyped.everywhere_prepared wfE (inherited_untyped.everywhere_assembled untyped
        fun d mem => inherited_untyped.everywhere_normalForm (wf.children d mem))
    have type := inner.here (by rw [or]; rfl)
    have branches : d.isDynamic = (assembled pushDown c).prepared.children.any isDynamic :=
      isDynamic_factor? wfE.prepared.children
        (fun b mem => (everywhere_of_mem_prepared wfE tidy mem).here.distinct)
        ((free.at wf).branches on or) factored
    rw [again (inherited_untyped.everywhere_factor? wfE.prepared.children inner.children factored),
      branches, ← isDynamic_of_none type, prepared wf free untyped below]
  · rw [isDynamic_sort, prepared wf free untyped below]

/-! ### The decision to prune -/

/-- Children that each keep their size leave a node as open-ended as it is. -/
theorem openMatch_with_children {c : Condition} {f : Condition → Condition}
    (same : ∀ d ∈ c.children, (f d).isDynamic = d.isDynamic) :
    OpenMatch { c with children := c.children.map f } ↔ OpenMatch c := by
  have size := isDynamic_with_children (any_isDynamic_map same)
  constructor
  · rintro ⟨op, type⟩
    exact ⟨op, by rwa [size] at type⟩
  · rintro ⟨op, type⟩
    exact ⟨op, by rwa [size]⟩

/-- **Normalizing keeps whether a region has a variable size.** A well-formed tree without faults of
integrity is normalized to one that has a variable size if and only if it has, with and without
factoring, as long as the run compares no two different trees with the same id. At every node, the
children are normalized to children of the same sizes, so that the node is pruned as an open-ended
match if and only if it would be before. -/
theorem normalize_keeps_variable_size (pushDown : Bool) {t : Condition} (intact : Intact t)
    (free : CollisionFree (compared pushDown t)) :
    (∃ n, normalize pushDown t = pure n ∧ n.isDynamic = t.isDynamic) ∧
    Everywhere (fun d => ∃ ds, d.children.mapM (normalize pushDown) = pure ds ∧
      ds.map isDynamic = d.children.map isDynamic ∧
      (OpenMatch { d with children := ds } ↔ OpenMatch d)) t := by
  obtain ⟨wf, untyped, -⟩ := intact.regular
  refine ⟨⟨_, normalize_eq wf, isDynamic_normalForm wf free untyped⟩, ?_⟩
  clear intact
  induction t using induct with
  | node t ih =>
    have same : ∀ d ∈ t.children, (normalForm pushDown d).isDynamic = d.isDynamic := fun d mem =>
      isDynamic_normalForm (wf.children d mem) (free.child wf mem) (untyped.children d mem)
    refine .mk ⟨_, mapM_eq_pure fun d mem => normalize_eq (wf.children d mem), ?_,
      openMatch_with_children same⟩ fun d mem => ?_
    · rw [List.map_map]
      exact List.map_congr_left same
    · exact ih d mem (free.child wf mem) (wf.children d mem) (untyped.children d mem)

/-- Two tuples of variable size, of which the second asks for a component more. -/
def openTuples : Condition :=
  anyOf [⟨.tuple, .matches, [], [pass .static, pass .dynamic]⟩,
    ⟨.tuple, .matches, [], [pass .static, pass .dynamic, byteIs 1]⟩]

theorem normalize_openTuples :
    Intact openTuples ∧ CollisionFree (compared true openTuples) ∧
      ∃ n, normalize true openTuples = pure n ∧ n.isDynamic = true := by
  have intact : Intact openTuples := by decide +kernel
  have free : CollisionFree (compared true openTuples) := by decide +kernel
  have dynamic : openTuples.isDynamic = true := by decide +kernel
  obtain ⟨⟨n, run, size⟩, -⟩ := normalize_keeps_variable_size true intact free
  exact ⟨intact, free, n, run, size.trans dynamic⟩

end Condition

end CallGuard
