import CallGuard.Proofs.Rewriting

/-!
# Deciding structural equality

Without factoring, normal forms decide whether intact trees are structurally equal
(`normalize_eq_iff_structurallyEqual`). A tree can be rewritten to its normal form; what is left to
see is that rewriting does not change the normal form (`Rewrites.alike`), at whatever node and in
whatever order it takes the steps. A step may meet children that are not in normal form yet: a
group inside a group that will be unwrapped, or a component that will turn out to be free. What
makes up for it is that a step sees in the children what it will see in their normal forms:
their types, whether they have a variable size, and whether they are allowances.
-/

namespace CallGuard

namespace Condition

/-! ### What normal forms keep -/

/-- A tree and its normal form both have a variable size, or neither has. -/
theorem isDynamic_normalForm_false {c : Condition} (h : Regular c) (apart : Everywhere Apart c) :
    (normalForm false c).isDynamic = c.isDynamic := by
  induction c using induct with
  | node c ih =>
    rw [normalForm_false h.wellFormed, isDynamic_sort]
    exact isDynamic_prepared_assembled h.wellFormed h.untyped apart.here fun d mem =>
      ih d mem (h.child mem) (apart.children d mem)

/-! ### Trees of one normal form -/

/-- Trees that ids tell apart as well, and that then have the same normal form. -/
structure Alike (s t : Condition) : Prop where
  apart : Everywhere Apart s ↔ Everywhere Apart t
  same : Everywhere Apart s → normalForm false s = normalForm false t

theorem Alike.refl (s : Condition) : Alike s s :=
  ⟨Iff.rfl, fun _ => rfl⟩

theorem Alike.symm {s t : Condition} (h : Alike s t) : Alike t s :=
  ⟨h.apart.symm, fun apart => (h.same (h.apart.mpr apart)).symm⟩

theorem Alike.trans {s t u : Condition} (first : Alike s t) (second : Alike t u) : Alike s u :=
  ⟨first.apart.trans second.apart,
    fun apart => (first.same apart).trans (second.same (first.apart.mp apart))⟩

/-- What ids tell apart at a node depends on the normal forms of its children. -/
theorem Apart.congr {c d : Condition} (h : Apart c) (op : d.operator = c.operator)
    (same : ∀ x, x ∈ content false d → x ∈ content false c) : Apart d :=
  fun group => (h (op ▸ group)).mono fun x => same x

/-- Groups agree if they have the same content as soon as ids tell apart what is in one of them. -/
theorem alike_of_content {c : Condition} {ds : List Condition} (group : c.operator.isSetLike)
    (wf : WellFormed c) (wfD : WellFormed { c with children := ds })
    (there : Everywhere Apart c → (∀ d ∈ ds, Everywhere Apart d) ∧
      ∀ x, x ∈ content false c ↔ x ∈ content false { c with children := ds })
    (back : Everywhere Apart { c with children := ds } → (∀ d ∈ c.children, Everywhere Apart d) ∧
      ∀ x, x ∈ content false c ↔ x ∈ content false { c with children := ds }) :
    Alike c { c with children := ds } := by
  refine ⟨⟨fun apart => ?_, fun apart => ?_⟩, fun apart => ?_⟩
  · obtain ⟨below, same⟩ := there apart
    exact .mk (apart.here.congr rfl fun x => (same x).mpr) below
  · obtain ⟨below, same⟩ := back apart
    exact .mk (apart.here.congr rfl fun x => (same x).mp) below
  · have free : CollisionFree (comparedAt false (assembled false c)) := by
      rw [comparedAt, flatten_assembled_children, if_pos (by exact group), if_neg (by simp),
        List.append_nil]
      exact apart.here group
    refine (normalForm_eq_of_content group wf wfD free (fun e found => ?_) (there apart).2).symm
    rw [replaced?_false] at found
    cases found

/-- Inner groups of the same operator may be taken in before they are in normal form. -/
theorem mem_content_flatten {c : Condition} (assoc : c.operator.isAssociative)
    (wf : WellFormed c)
    (free : ∀ d ∈ c.children, d.operator = c.operator → CollisionFree (content false d))
    (x : Condition) : x ∈ content false c ↔
      x ∈ content false { c with children := c.children.flatMap (spliced c.operator) } := by
  have each : ∀ d ∈ c.children, (x ∈ taken false c.operator d ↔
      x ∈ (spliced c.operator d).flatMap (taken false c.operator)) := by
    intro d mem
    unfold spliced
    split
    · rename_i same
      have own : x ∈ taken false d.operator d ↔ x ∈ content false d :=
        mem_taken_iff (same ▸ assoc) (wf.children d mem) (free d mem same) (replaced?_false _) x
      rwa [content, same] at own
    · simp
  simp only [content, List.flatMap_assoc, List.mem_flatMap (l := c.children)]
  constructor
  · rintro ⟨d, mem, inside⟩
    exact ⟨d, mem, (each d mem).mp inside⟩
  · rintro ⟨d, mem, inside⟩
    exact ⟨d, mem, (each d mem).mpr inside⟩

theorem alike_flatten {c : Condition} (wf : WellFormed c) : Alike c c.flatten := by
  by_cases assoc : c.operator.isAssociative
  swap
  · rw [flatten_of_not_isAssociative assoc]
    exact .refl c
  have wfFlat := wf.flatten
  rw [flatten_of_isAssociative assoc] at wfFlat ⊢
  have group := isSetLike_of_isAssociative assoc
  refine alike_of_content group wf wfFlat (fun apart => ⟨fun x mem => ?_, ?_⟩)
    fun apart => ⟨fun d mem => ?_, ?_⟩
  · obtain ⟨d, memD, memX⟩ := List.mem_flatMap.mp mem
    unfold spliced at memX
    split at memX
    · exact (apart.children d memD).children x memX
    · exact List.mem_singleton.mp memX ▸ apart.children d memD
  · exact mem_content_flatten assoc wf fun d mem same =>
      (apart.children d mem).here (same ▸ group)
  all_goals
    -- what an inner group holds is part of what the group holds that has taken it in
    have inner : ∀ d ∈ c.children, d.operator = c.operator → d.children ⊆
        c.children.flatMap (spliced c.operator) ∧ CollisionFree (content false d) := by
      intro d mem same
      have sub : d.children ⊆ c.children.flatMap (spliced c.operator) := fun x inside =>
        List.mem_flatMap.mpr ⟨d, mem, by rwa [spliced_of_eq same]⟩
      refine ⟨sub, (apart.here group).mono fun x inside => ?_⟩
      rw [content, same] at inside
      obtain ⟨e, memE, taken⟩ := List.mem_flatMap.mp inside
      exact List.mem_flatMap.mpr ⟨e, sub memE, taken⟩
  · by_cases same : d.operator = c.operator
    · obtain ⟨sub, free⟩ := inner d mem same
      exact .mk (fun _ => free) fun x inside => apart.children x (sub inside)
    · refine apart.children d (List.mem_flatMap.mpr ⟨d, mem, ?_⟩)
      rw [spliced_of_ne same]
      exact List.mem_singleton_self d
  · exact mem_content_flatten assoc wf fun d mem same => (inner d mem same).2

/-- Groups of the same children agree. -/
theorem alike_of_mem_iff {c : Condition} {ds : List Condition} (group : c.operator.isSetLike)
    (wf : WellFormed c) (wfD : WellFormed { c with children := ds })
    (same : ∀ d, d ∈ c.children ↔ d ∈ ds) : Alike c { c with children := ds } := by
  have contents (x : Condition) :
      x ∈ content false c ↔ x ∈ content false { c with children := ds } := by
    simp only [content, List.mem_flatMap, same]
  exact alike_of_content group wf wfD
    (fun apart => ⟨fun d mem => apart.children d ((same d).mpr mem), contents⟩)
    fun apart => ⟨fun d mem => apart.children d ((same d).mp mem), contents⟩

/-- The normal form of a group of one is that of its only child. -/
theorem alike_of_only {c d : Condition} (h : Regular c) (assoc : c.operator.isAssociative)
    (only : c.children = [d]) : Alike c d := by
  have mem : d ∈ c.children := only ▸ List.mem_singleton_self d
  refine ⟨⟨fun apart => apart.children d mem, fun apart => .mk (fun _ => ?_) ?_⟩, fun _ => ?_⟩
  · rw [content, only, List.flatMap_singleton]
    exact collisionFree_of_nodup_ids (nodup_ids_taken (h.wellFormed.children d mem) c.operator)
  · rw [only]
    simpa using apart
  · exact normalForm_of_only h.wellFormed h.untyped assoc only (replaced?_false _)

theorem alike_unwrap {c : Condition} (h : Regular c) : Alike c c.unwrap := by
  rcases unwrap_cases c with ⟨assoc, d, only, eq⟩ | ⟨-, eq⟩
  · rw [eq]
    exact alike_of_only h assoc only
  · rw [eq]
    exact .refl c

/-! ### Pruning before normal form -/

/-- Free components may be dropped before others turn out to be free. -/
theorem dropFreeTail_map {keep : Nat} {cs : List Condition} {f : Condition → Condition}
    (long : keep ≤ cs.length) (free : ∀ d ∈ cs, d.isPass → (f d).isPass) :
    dropFreeTail keep ((dropFreeTail keep cs).map f) = dropFreeTail keep (cs.map f) := by
  obtain ⟨tail, split, dropped⟩ := exists_dropFreeTail_append keep cs
  have kept : keep ≤ (dropFreeTail keep cs).length := by
    rw [dropFreeTail_eq, List.length_append, List.length_take]
    omega
  have whole : cs.map f = (dropFreeTail keep cs).map f ++ tail.map f := by
    rw [← List.map_append, ← split]
  rw [whole]
  refine (dropFreeTail_append (by rwa [List.length_map]) fun x mem => ?_).symm
  obtain ⟨d, memD, rfl⟩ := List.mem_map.mp mem
  exact free d (split ▸ List.mem_append_right _ memD) (dropped d memD)

/-- A child whose normal form takes its place among components and allowances. -/
structure KeepsPlace (d : Condition) : Prop where
  allowance : (normalForm false d).isGlobalAllowance = d.isGlobalAllowance
  size : (normalForm false d).isDynamic = d.isDynamic

theorem Regular.keepsPlace {c : Condition} (h : Regular c) (apart : Everywhere Apart c) :
    KeepsPlace c where
  allowance := (everywhere_placesAllowances_normalForm h.wellFormed h.placed).2
  size := isDynamic_normalForm_false h apart

theorem positional_assembled {c : Condition} (kept : ∀ d ∈ c.children, KeepsPlace d) :
    (assembled false c).positional = c.positional.map (normalForm false) := by
  rw [positional, assembled, List.filter_map, positional]
  exact congrArg _ (List.filter_congr fun d mem => congrArg not (kept d mem).allowance)

theorem allowances_assembled {c : Condition} (kept : ∀ d ∈ c.children, KeepsPlace d) :
    (assembled false c).allowances = c.allowances.map (normalForm false) := by
  rw [allowances, assembled, List.filter_map, allowances]
  exact congrArg _ (List.filter_congr fun d mem => (kept d mem).allowance)

theorem retained_assembled {c : Condition} (kept : ∀ d ∈ c.children, KeepsPlace d) :
    (assembled false c).retained = c.retained := by
  refine retained_congr rfl ?_
  rw [positional_assembled kept, List.map_map]
  exact List.map_congr_left fun d mem => (kept d (mem_positional.mp mem).1).size

theorem isOpenEnded_assembled {c : Condition} (kept : ∀ d ∈ c.children, KeepsPlace d) :
    (assembled false c).isOpenEnded = c.isOpenEnded := by
  have size : (assembled false c).isDynamic = c.isDynamic := by
    exact isDynamic_with_children (any_isDynamic_map fun d mem => (kept d mem).size)
  rw [isOpenEnded, size]
  rfl

/-- An open-ended match with its children in normal form and without the free ones at its end. -/
def trimmed (c : Condition) : Condition :=
  { c with
    children := dropFreeTail c.retained (c.positional.map (normalForm false)) ++
      c.allowances.map (normalForm false) }

theorem normalForm_of_isOpenEnded {c : Condition} (wf : WellFormed c) (op : c.operator = .matches)
    (open_ : c.isOpenEnded) (kept : ∀ d ∈ c.children, KeepsPlace d) :
    normalForm false c = c.trimmed := by
  have single : ¬ c.operator.isSetLike := by
    rw [op]
    exact Bool.false_ne_true
  rw [normalForm_of_not_isSetLike wf single,
    prune_of_isOpenEnded (by exact op) ((isOpenEnded_assembled kept).trans open_),
    retained_assembled kept, positional_assembled kept, allowances_assembled kept]
  rfl

/-- Free components have nothing in them that could collide. -/
theorem everywhere_apart_of_isPass {c : Condition} (wf : WellFormed c) (free : c.isPass) :
    Everywhere Apart c := by
  have op : c.operator = .pass := eq_of_beq free
  refine .mk (fun group => ?_) fun d mem => ?_
  · rw [op] at group
    cases group
  · have needs := wf.requiresChildren (List.ne_nil_of_mem mem)
    rw [op] at needs
    cases needs

theorem alike_prune {c : Condition} (h : Regular c) : Alike c c.prune := by
  by_cases open_ : c.operator = .matches ∧ c.isOpenEnded
  swap
  · rw [prune_of_not open_]
    exact .refl c
  obtain ⟨op, open_⟩ := open_
  have wf := h.wellFormed
  have single {d : Condition} (same : d.operator = c.operator) : Apart d := by
    intro group
    rw [same, op] at group
    cases group
  have children : c.prune.children ⊆ c.children := (prune_children_subperm c).subset
  refine ⟨⟨fun apart => ?_, fun apart => ?_⟩, fun apart => ?_⟩
  · exact .mk (single (prune_operator c)) fun d mem => apart.children d (children mem)
  · refine .mk (single rfl) fun d mem => ?_
    obtain ⟨tail, split, dropped⟩ := exists_dropFreeTail_append c.retained c.positional
    have all := (positional_append_allowances_perm c).mem_iff.mpr mem
    rw [split, List.append_assoc, List.mem_append, List.mem_append] at all
    have pruned : c.prune.children = dropFreeTail c.retained c.positional ++ c.allowances :=
      congrArg Condition.children (prune_of_isOpenEnded op open_)
    rcases all with kept | dropped' | rest
    · exact apart.children d (pruned ▸ List.mem_append_left _ kept)
    · exact everywhere_apart_of_isPass (wf.children d mem) (dropped d dropped')
    · exact apart.children d (pruned ▸ List.mem_append_right _ rest)
  · have kept : ∀ d ∈ c.children, KeepsPlace d := fun d mem =>
      (h.child mem).keepsPlace (apart.children d mem)
    have free : ∀ d ∈ c.positional, d.isPass → (normalForm false d).isPass := by
      intro d mem free
      rwa [normalForm_of_isPass (wf.children d (mem_positional.mp mem).1) free]
    rw [normalForm_of_isOpenEnded wf op open_ kept,
      normalForm_of_isOpenEnded wf.prune ((prune_operator c).trans op)
        ((isOpenEnded_prune c).trans open_) fun d mem => kept d (children mem),
      trimmed, trimmed, positional_prune op open_, retained_prune op open_, allowances_prune,
      dropFreeTail_map (retained_le c) free, prune_of_isOpenEnded op open_]

/-! ### Rewriting and normal forms -/

theorem Step.alike {s t : Condition} (h : Regular s) (step : Step s t) : Alike s t := by
  cases step with
  | flatten => exact alike_flatten h.wellFormed
  | dedupe free =>
    by_cases group : s.operator.isSetLike
    · have wf := h.wellFormed.dedupe
      rw [dedupe_of_isSetLike group] at wf ⊢
      exact alike_of_mem_iff group h.wellFormed wf fun d => (free group).mem_distinct_iff.symm
    · rw [dedupe_of_not_isSetLike group]
      exact .refl s
  | unwrap => exact alike_unwrap h
  | prune => exact alike_prune h
  | permute group perm =>
    exact alike_of_mem_iff group h.wellFormed ((Step.permute s group perm).wellFormed h.wellFormed)
      fun d => perm.mem_iff

/-- A tree and one with an alike tree in the same place. -/
theorem Alike.inside {s t : Condition} (h : Alike s t) {c : Condition}
    {before after : List Condition} (wf : WellFormed { c with children := before ++ s :: after })
    (wf' : WellFormed { c with children := before ++ t :: after }) :
    Alike { c with children := before ++ s :: after }
      { c with children := before ++ t :: after } := by
  have forth {s t : Condition} (h : Alike s t)
      (apart : Everywhere Apart { c with children := before ++ s :: after }) :
      normalForm false s = normalForm false t ∧
        Everywhere Apart { c with children := before ++ t :: after } := by
    have below : ∀ d ∈ before ++ s :: after, Everywhere Apart d := apart.children
    obtain ⟨early, late⟩ := List.forall_mem_append.mp below
    obtain ⟨here, later⟩ := List.forall_mem_cons.mp late
    have same := h.same here
    refine ⟨same, .mk (apart.here.congr rfl fun x => ?_) ?_⟩
    · simp only [content, taken, List.flatMap_append, List.flatMap_cons, same]
      exact fun inside => inside
    · exact List.forall_mem_append.mpr
        ⟨early, List.forall_mem_cons.mpr ⟨h.apart.mp here, later⟩⟩
  refine ⟨⟨fun apart => (forth h apart).2, fun apart => (forth h.symm apart).2⟩, fun apart => ?_⟩
  have same := (forth h apart).1
  rw [normalForm_false wf, normalForm_false wf', assembled, assembled]
  simp only [List.map_append, List.map_cons, same]

/-- **Rewriting does not change the normal form** of a tree. -/
theorem Rewrites.alike {s t : Condition} (h : Rewrites s t) (regular : Regular s) : Alike s t := by
  induction h with
  | here step => exact step.alike regular
  | @inside s t c before after rewrites ih =>
    have child := regular.child (d := s) (List.mem_append_right _ List.mem_cons_self)
    exact (ih child).inside regular.wellFormed
      ((Rewrites.inside c before after rewrites).wellFormed regular.wellFormed)

theorem StructurallyEqual.alike {a b : Condition} (h : StructurallyEqual a b) : Alike a b := by
  induction h with
  | rel s t related => exact related.2.2.alike related.1.regular
  | refl s => exact .refl s
  | symm s t _ ih => exact ih.symm
  | trans s t u _ _ first second => exact first.trans second

/-- **Normalizing decides structural equality**: without factoring, two intact trees are normalized
to the same tree if and only if rewriting turns them into each other, as long as the runs compare
no two different trees with the same id. -/
theorem normalize_eq_iff_structurallyEqual {a b : Condition} (intactA : Intact a)
    (intactB : Intact b) (freeA : CollisionFree (compared false a))
    (freeB : CollisionFree (compared false b)) :
    normalize false a = normalize false b ↔ StructurallyEqual a b := by
  have apartA := everywhere_apart intactA.wellFormed freeA
  have apartB := everywhere_apart intactB.wellFormed freeB
  rw [normalize_eq intactA.wellFormed, normalize_eq intactB.wellFormed, Run.pure_inj]
  constructor
  · intro same
    have there := structurallyEqual_of_rewrites intactA
      (rewrites_normalForm intactA.wellFormed apartA)
    have back := structurallyEqual_of_rewrites intactB
      (rewrites_normalForm intactB.wellFormed apartB)
    rw [same] at there
    exact there.trans _ _ _ (back.symm _ _)
  · intro related
    exact related.alike.same apartA

/-- A call with a repeated alternative and a free component at its end is structurally equal to the
call without either, and to no call that asks for another byte. -/
theorem structurallyEqual_sampleCalls :
    StructurallyEqual (allowedCall [anyOf [byteIs 1, anyOf [byteIs 1]], pass .static])
        (allowedCall [byteIs 1]) ∧
      ¬ StructurallyEqual (allowedCall [byteIs 1]) (allowedCall [byteIs 2]) := by
  refine ⟨?_, fun related => ?_⟩
  · refine (normalize_eq_iff_structurallyEqual ⟨by decide +kernel, by decide +kernel⟩
      ⟨by decide +kernel, by decide +kernel⟩ (by decide +kernel) (by decide +kernel)).mp ?_
    rw [normalize_eq (by decide +kernel), normalize_eq (by decide +kernel), Run.pure_inj]
    decide +kernel
  · have same := (normalize_eq_iff_structurallyEqual ⟨by decide +kernel, by decide +kernel⟩
      ⟨by decide +kernel, by decide +kernel⟩ (by decide +kernel) (by decide +kernel)).mpr related
    rw [normalize_eq (by decide +kernel), normalize_eq (by decide +kernel), Run.pure_inj] at same
    exact absurd same (by decide +kernel)

end Condition

end CallGuard
