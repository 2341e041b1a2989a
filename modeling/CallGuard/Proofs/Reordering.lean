import CallGuard.Proofs.Factoring
import CallGuard.Proofs.Runs

/-!
# The order of groups

The children of a group of And, Or or Nor may stand in any order. `Reordered` relates a tree to
those that it becomes by rearranging any number of its groups. Factoring takes its template and
its model from the first branches it finds, but what it makes of rearranged branches is the same
up to order (`exists_factor?_of_perm`), and sorting has the last word.

A group of Xor is not such a group: its children are neither sorted nor deduplicated, so that their
order matters (`normalize_xor_iff`).
-/

namespace CallGuard

namespace Condition

/-- The same trees up to the order of the children of groups of And, Or and Nor, at any depth. -/
inductive Reordered : Condition → Condition → Prop where
  /-- Reordered children, in another order if the node is such a group. -/
  | mk {type : ParamType} {op : Operator} {v : Bytes} {cs ds es : List Condition}
      (below : List.Forall₂ Reordered cs ds) (here : if op.isSetLike then ds.Perm es else ds = es) :
      Reordered ⟨type, op, v, cs⟩ ⟨type, op, v, es⟩

theorem Reordered.refl (c : Condition) : Reordered c c := by
  induction c using induct with
  | node c ih =>
    rw [← mk_eta c]
    refine .mk (List.forall₂_same.mpr ih) ?_
    split
    · exact .refl _
    · rfl

theorem forall₂_reordered_refl (cs : List Condition) : List.Forall₂ Reordered cs cs :=
  List.forall₂_same.mpr fun c _ => Reordered.refl c

theorem exists_rel_of_mem {α β : Type} {R : α → β → Prop} {as : List α} {bs : List β}
    (h : List.Forall₂ R as bs) {b : β} (mem : b ∈ bs) : ∃ a ∈ as, R a b := by
  induction h with
  | nil => cases mem
  | @cons a _ as _ here _ ih =>
    rcases List.mem_cons.mp mem with rfl | later
    · exact ⟨a, List.mem_cons_self, here⟩
    · obtain ⟨a', memA, related⟩ := ih later
      exact ⟨a', List.mem_cons_of_mem a memA, related⟩

/-- Well-formedness does not depend on the order of groups. -/
theorem Reordered.wellFormed {c d : Condition} (h : Reordered c d) (wf : WellFormed c) :
    WellFormed d := by
  induction c using induct generalizing d with
  | node c ih =>
    obtain @⟨type, op, v, cs, ds, es, below, here⟩ := h
    have perm : ds.Perm es := by
      split at here
      · exact here
      · exact here ▸ .refl _
    have wfDs : ∀ d ∈ ds, WellFormed d := by
      intro d mem
      obtain ⟨c, memC, reordered⟩ := exists_rel_of_mem below mem
      exact ih c memC reordered (wf.children c memC)
    refine .mk ?_ fun d mem => wfDs d (perm.mem_iff.mpr mem)
    have shape := wf.shape
    have length := below.length_eq.trans perm.length_eq
    rw [shapeFault?_eq_none_iff] at shape ⊢
    simpa only [ne_eq, ← List.length_eq_zero_iff, length] using shape

/-- Rearranged alternatives. -/
theorem reordered_anyOf {xs ys : List Condition} (h : xs.Perm ys) :
    Reordered (anyOf xs) (anyOf ys) :=
  .mk (forall₂_reordered_refl xs) h

theorem Frame.forall₂_fill_children (f : Frame) {x y : Condition} (h : Reordered x y) :
    List.Forall₂ Reordered (f.fill x).children (f.fill y).children :=
  List.rel_append (forall₂_reordered_refl f.before) (.cons h (forall₂_reordered_refl f.after))

/-- Groups with the same children around a place up to order. -/
theorem Reordered.fill {f g : Frame} {x y : Condition} (h : Reordered x y)
    (type : f.paramType = g.paramType) (op : f.operator = g.operator)
    (group : g.operator.isSetLike) (others : f.others.Perm g.others) :
    Reordered (f.fill x) (g.fill y) := by
  unfold Frame.fill
  rw [type, op]
  refine .mk (f.forall₂_fill_children h) ?_
  rw [if_pos group]
  exact (f.fill_children_perm y).trans ((others.cons y).trans (g.fill_children_perm y).symm)

/-! ### Factoring -/

/-- Rearranged branches compare the same trees. -/
theorem comparedBranches_subset_of_perm {bs cs : List Condition} (distinct : (bs.map id).Nodup)
    (h : bs.Perm cs) : comparedBranches cs ⊆ comparedBranches bs := by
  unfold comparedBranches
  rw [commonOperator?_perm h]
  split
  · exact (h.symm.append ((padded_perm distinct h).symm.flatMap_right children)).subset
  · exact (h.symm.flatMap_right children).subset
  · exact List.Subset.refl _

theorem CollisionFree.perm_branches {bs cs : List Condition}
    (free : CollisionFree (comparedBranches bs)) (distinct : (bs.map id).Nodup) (h : bs.Perm cs) :
    CollisionFree (comparedBranches cs) :=
  free.mono (comparedBranches_subset_of_perm distinct h)

/-- Decompositions are rearranged with what they decompose. -/
theorem exists_perm_of_map_perm {α β : Type} {f : α → β} {xs : List α} {ys : List β}
    (h : (xs.map f).Perm ys) : ∃ zs : List α, ys = zs.map f ∧ xs.Perm zs := by
  have both : Relation.Comp (· = List.map f ·) (·.Perm ·) ys xs := by
    rw [List.eq_map_comp_perm]
    exact h.symm
  obtain ⟨zs, eq, perm⟩ := both
  exact ⟨zs, eq, perm.symm⟩

theorem exists_factor?_of_perm_matches {bs cs : List Condition} (wf : ∀ b ∈ bs, WellFormed b)
    (distinct : (bs.map id).Nodup) (free : CollisionFree (comparedBranches bs)) (h : bs.Perm cs)
    (common : commonOperator? bs = some .matches) {d : Condition} (found : factor? bs = some d) :
    ∃ e, factor? cs = some e ∧ Reordered d e := by
  obtain ⟨f, xs, eq, many, distinctXs, own, rfl⟩ := (factor?_matches_iff wf common free).mp found
  obtain ⟨ys, eq', perm⟩ := exists_perm_of_map_perm (eq ▸ padded_perm distinct h)
  refine ⟨f.fill (anyOf ys), ?_, .mk (f.forall₂_fill_children (reordered_anyOf perm)) ?_⟩
  · refine (factor?_matches_iff (fun b mem => wf b (h.mem_iff.mpr mem))
      ((commonOperator?_perm h).symm.trans common) (free.perm_branches distinct h)).mpr
      ⟨f, ys, eq', ?_, (perm.map id).nodup_iff.mp distinctXs,
        fun x mem => own x (perm.mem_iff.mpr mem), rfl⟩
    rwa [← perm.length_eq]
  · split
    · exact .refl _
    · rfl

/-- Whether frames agree by content does not depend on their order. -/
theorem AgreeByContent.perm {ps qs : List (Frame × Condition)} (agree : AgreeByContent ps)
    (h : ps.Perm qs) : AgreeByContent qs := by
  by_cases none : qs = []
  · rw [none]
    exact nofun
  have shared (key : ConditionId) : key ∈ sharedIds ((ps.map filled).map childIds) ↔
      key ∈ sharedIds ((qs.map filled).map childIds) := by
    have none' : ps ≠ [] := fun empty => none (List.nil_perm.mp (empty ▸ h))
    rw [mem_sharedIds (by simpa using none'), mem_sharedIds (by simpa using none)]
    simp only [((h.map filled).map childIds).mem_iff]
  intro q mem
  have here := agree q (h.mem_iff.mpr mem)
  exact ⟨fun new => here.1 ((shared q.2.id).mpr new),
    fun d memD => (shared d.id).mp (here.2 d memD)⟩

theorem exists_factor?_of_perm_and {bs cs : List Condition} (wf : ∀ b ∈ bs, WellFormed b)
    (below : ∀ b ∈ bs, b.operator.isSetLike → b.childIds.Nodup)
    (free : CollisionFree (comparedBranches bs)) (h : bs.Perm cs)
    (common : commonOperator? bs = some .and) {d : Condition} (found : factor? bs = some d) :
    ∃ e, factor? cs = some e ∧ Reordered d e := by
  obtain ⟨op, first, rest, common', eq, some, agree, rfl⟩ := (factor?_eq_some_iff wf).mp found
  obtain rfl : op = .and := Option.some.inj (common'.symm.trans common)
  rcases agree with ⟨other, -⟩ | ⟨-, agree⟩
  · cases other
  rw [leveled_of_and common] at eq
  subst eq
  have commonCs := (commonOperator?_perm h).symm.trans common
  obtain ⟨parts, rfl, perm⟩ := exists_perm_of_map_perm h
  cases parts with
  | nil => exact absurd perm.length_eq (by simp)
  | cons first' rest' =>
    have first'Mem : first' ∈ first :: rest := perm.mem_iff.mpr List.mem_cons_self
    refine ⟨first'.1.fill (anyOf ((first' :: rest').map Prod.snd)), ?_, ?_⟩
    · refine (factor?_eq_some_iff fun b mem => wf b (h.mem_iff.mpr mem)).mpr
        ⟨.and, first', rest', commonCs, leveled_of_and commonCs, ?_,
          .inr ⟨rfl, agree.perm perm⟩, rfl⟩
      have length := perm.length_eq
      have := List.length_pos_of_ne_nil some
      simp only [List.length_cons] at length
      exact List.ne_nil_of_length_pos (by omega)
    · obtain ⟨-, type, -, all⟩ := commonOperator?_eq_some_iff.mp common
      have here : first.1.paramType = type ∧ first.1.operator = .and :=
        all _ (List.mem_map_of_mem List.mem_cons_self)
      have there : first'.1.paramType = type ∧ first'.1.operator = .and :=
        all _ (List.mem_map_of_mem first'Mem)
      rw [comparedBranches_of_and common] at free
      have others := agree.others_perm free
        (fun b mem => below b mem (by rw [(all b mem).2]; rfl)) List.mem_cons_self first'Mem
      exact (reordered_anyOf (perm.map Prod.snd)).fill (here.1.trans there.1.symm)
        (here.2.trans there.2.symm) (by rw [there.2]; rfl) others

theorem exists_factor?_of_perm {bs cs : List Condition} (wf : ∀ b ∈ bs, WellFormed b)
    (distinct : (bs.map id).Nodup) (below : ∀ b ∈ bs, b.operator.isSetLike → b.childIds.Nodup)
    (free : CollisionFree (comparedBranches bs)) (h : bs.Perm cs) {d : Condition}
    (found : factor? bs = some d) : ∃ e, factor? cs = some e ∧ Reordered d e := by
  obtain ⟨op, first, rest, common, -, -, ⟨rfl, -⟩ | ⟨rfl, -⟩, -⟩ :=
    (factor?_eq_some_iff wf).mp found
  · exact exists_factor?_of_perm_matches wf distinct free h common found
  · exact exists_factor?_of_perm_and wf below free h common found

/-- **What rearranged branches factor into**, if anything, is the same up to order. -/
theorem factor?_rel_of_perm {bs cs : List Condition} (wf : ∀ b ∈ bs, WellFormed b)
    (distinct : (bs.map id).Nodup) (below : ∀ b ∈ bs, b.operator.isSetLike → b.childIds.Nodup)
    (free : CollisionFree (comparedBranches bs)) (h : bs.Perm cs) :
    Option.Rel Reordered (factor? bs) (factor? cs) := by
  cases found : factor? bs with
  | some d =>
    obtain ⟨e, found', reordered⟩ := exists_factor?_of_perm wf distinct below free h found
    rw [found']
    exact .some reordered
  | none =>
    cases found' : factor? cs with
    | none => exact .none
    | some e =>
      obtain ⟨d, again, -⟩ := exists_factor?_of_perm (fun b mem => wf b (h.mem_iff.mpr mem))
        ((h.map id).nodup_iff.mp distinct) (fun b mem => below b (h.mem_iff.mpr mem))
        (free.perm_branches distinct h) h.symm found'
      rw [found] at again
      cases again

/-! ### Settling -/

/-- A node with its children in another order if it is a group of And, Or or Nor. -/
def Rearranged (c d : Condition) : Prop :=
  if c.operator.isSetLike then ∃ cs, c.children.Perm cs ∧ d = { c with children := cs } else d = c

theorem Rearranged.refl (c : Condition) : Rearranged c c := by
  unfold Rearranged
  split
  · exact ⟨c.children, .refl _, (mk_eta c).symm⟩
  · rfl

/-- Reordered nodes are rearranged once the normal forms of their children are the same. -/
theorem Reordered.assembled {pushDown : Bool} {c d : Condition} (h : Reordered c d)
    (below : ∀ e ∈ c.children, ∀ e', Reordered e e' →
      normalForm pushDown e' = normalForm pushDown e) :
    Rearranged (assembled pushDown c) (Condition.assembled pushDown d) := by
  obtain @⟨type, op, v, cs, ds, es, related, here⟩ := h
  have same : cs.map (normalForm pushDown) = ds.map (normalForm pushDown) := by
    rw [← List.forall₂_eq_eq_eq, List.forall₂_map_left_iff, List.forall₂_map_right_iff]
    refine List.forall₂_iff_zip.mpr ⟨related.length_eq, fun {a b} mem => ?_⟩
    exact (below a (List.of_mem_zip mem).1 b ((List.forall₂_iff_zip.mp related).2 mem)).symm
  unfold Rearranged Condition.assembled
  dsimp only
  split
  · rename_i group
    rw [if_pos group] at here
    exact ⟨es.map (normalForm pushDown), same ▸ here.map _, rfl⟩
  · rename_i single
    rw [if_neg single] at here
    rw [same, here]

theorem Rearranged.gathered {c d : Condition} (h : Rearranged c d)
    (free : c.operator.isSetLike → CollisionFree c.flatten.children) :
    Rearranged c.gathered d.gathered := by
  unfold Rearranged at h ⊢
  rw [gathered_operator]
  by_cases group : c.operator.isSetLike
  · rw [if_pos group] at h ⊢
    obtain ⟨cs, perm, rfl⟩ := h
    have flat : c.flatten.children.Perm
        ({ c with children := cs } : Condition).flatten.children := by
      by_cases assoc : c.operator.isAssociative
      · rw [flatten_of_isAssociative assoc, flatten_of_isAssociative (by exact assoc)]
        exact perm.flatMap_right _
      · rwa [flatten_of_not_isAssociative assoc, flatten_of_not_isAssociative (by exact assoc)]
    rw [gathered_of_isSetLike group, gathered_of_isSetLike (by exact group)]
    exact ⟨_, (free group).distinct_perm flat, rfl⟩
  · rw [if_neg group] at h ⊢
    rw [h]

theorem Rearranged.unwrap {c d : Condition} (h : Rearranged c d) :
    Rearranged c.unwrap d.unwrap := by
  unfold Rearranged at h
  split at h
  · obtain ⟨cs, perm, rfl⟩ := h
    rcases unwrap_cases c with ⟨-, x, only, -⟩ | ⟨many, eq⟩
    · rw [only] at perm
      rw [← List.singleton_perm.mp perm, ← only, mk_eta]
      exact .refl _
    · rcases unwrap_cases { c with children := cs } with ⟨assoc, x, only, -⟩ | ⟨-, eq'⟩
      · refine absurd ?_ (many assoc)
        dsimp only at only
        rw [perm.length_eq, only, List.length_singleton]
      · rw [eq, eq', Rearranged, if_pos ‹_›]
        exact ⟨cs, perm, rfl⟩
  · rw [h]
    exact .refl _

/-- Rearranged nodes that repeat no child are sorted alike. -/
theorem Rearranged.sort_eq {c d : Condition} (h : Rearranged c d)
    (distinct : c.operator.isSetLike → c.childIds.Nodup) : c.sort = d.sort := by
  unfold Rearranged at h
  split at h
  · rename_i group
    obtain ⟨cs, perm, rfl⟩ := h
    rw [sort_of_isSetLike group, sort_of_isSetLike (by exact group)]
    exact congrArg (Condition.mk c.paramType c.operator c.operand)
      (sorted_eq_of_perm (distinct group) perm)
  · rw [h]

/-- Rearranged nodes with tidy children are replaced alike. -/
theorem Rearranged.replaced? {pushDown : Bool} {c d : Condition} (h : Rearranged c d)
    (wf : WellFormed c) (tidy : ∀ x ∈ c.children, Tidy x)
    (distinct : c.operator.isSetLike → c.childIds.Nodup)
    (free : pushDown → c.operator = .or → CollisionFree (comparedBranches c.children)) :
    Option.Rel Reordered (replaced? pushDown c) (Condition.replaced? pushDown d) := by
  unfold Rearranged at h
  split at h
  · rename_i group
    obtain ⟨cs, perm, rfl⟩ := h
    unfold Condition.replaced?
    dsimp only
    split
    · rename_i both
      exact factor?_rel_of_perm wf.children (distinct group) (fun x mem => (tidy x mem).distinct)
        (free both.1 both.2) perm
    · exact .none
  · rw [h]
    cases Condition.replaced? pushDown c with
    | none => exact .none
    | some e => exact .some (.refl e)

/-- What the nodes of a tree and of a reordered tree have in common when they are prepared. -/
theorem Reordered.prepared {pushDown : Bool} {c d : Condition} (wf : WellFormed c)
    (free : CollisionFree (comparedAt pushDown (Condition.assembled pushDown c)))
    (below : ∀ e ∈ c.children, ∀ e', Reordered e e' →
      normalForm pushDown e' = normalForm pushDown e) (h : Reordered c d) :
    let p := (Condition.assembled pushDown c).prepared
    let q := (Condition.assembled pushDown d).prepared
    Option.Rel Reordered (Condition.replaced? pushDown p) (Condition.replaced? pushDown q) ∧
      p.sort = q.sort := by
  have wfE := wf.assembled pushDown
  have tidy := everywhere_tidy_assembled pushDown wf
  have distinct := nodup_childIds_prepared wfE tidy
  have arranged := ((h.assembled below).gathered free.group).unwrap
  exact ⟨arranged.replaced? wfE.prepared
    (fun x mem => (everywhere_of_mem_prepared wfE tidy mem).here) distinct free.branches,
    arranged.sort_eq distinct⟩

/-- **Normal forms do not depend on the order of groups.** -/
theorem normalForm_eq_of_reordered {pushDown : Bool} {c d : Condition} (wf : WellFormed c)
    (free : CollisionFree (compared pushDown c)) (h : Reordered c d) :
    normalForm pushDown d = normalForm pushDown c := by
  refine normalForm_induct_free
    (motive := fun c n => ∀ d, Reordered c d → normalForm pushDown d = n)
    (fun c e wf free below found _ again d h => ?_)
    (fun c wf free below found d h => ?_) wf free d h
  · obtain ⟨replaced, -⟩ := h.prepared wf (free.at wf) below
    rw [found] at replaced
    cases found' : replaced? pushDown (assembled pushDown d).prepared with rw [found'] at replaced
    | none => cases replaced
    | some e' =>
      cases replaced with
      | some reordered => rw [normalForm_of_replaced? (h.wellFormed wf) found', again e' reordered]
  · obtain ⟨replaced, sorted⟩ := h.prepared wf (free.at wf) below
    rw [found] at replaced
    cases found' : replaced? pushDown (assembled pushDown d).prepared with rw [found'] at replaced
    | none => rw [normalForm_of_not_replaced? (h.wellFormed wf) found', ← sorted]
    | some e' => cases replaced

/-- **Normalizing does not depend on the order of groups**: a well-formed tree and any tree with
the same groups of And, Or and Nor arranged otherwise, at any depth, are normalized to the same
tree, as long as the run compares no two different trees with the same id. -/
theorem normalize_eq_of_reordered (pushDown : Bool) {t u : Condition} (wf : WellFormed t)
    (free : CollisionFree (compared pushDown t)) (reordered : Reordered t u) :
    ∃ n, normalize pushDown t = pure n ∧ normalize pushDown u = pure n := by
  refine ⟨normalForm pushDown t, normalize_eq wf, ?_⟩
  rw [normalize_eq (reordered.wellFormed wf), normalForm_eq_of_reordered wf free reordered]

/-- Two calls are normalized alike in either order. -/
theorem normalize_sampleCalls_swapped : ∃ n, normalize true sampleCalls = pure n ∧
    normalize true (anyOf sampleCalls.children.reverse) = pure n :=
  normalize_eq_of_reordered true (by decide +kernel) (by decide +kernel)
    (reordered_anyOf (List.reverse_perm _).symm)

/-! ### Groups of Xor -/

/-- The normal forms of the children of Xor stay in the order of the children. -/
theorem normalForm_xor {pushDown : Bool} {c : Condition} (wf : WellFormed c)
    (xor : c.operator = .xor) : normalForm pushDown c = assembled pushDown c := by
  have single : ¬ c.operator.isSetLike := by
    rw [xor]
    decide
  rw [normalForm_of_not_isSetLike wf single]
  apply prune_of_not
  rintro ⟨matched, -⟩
  cases xor.symm.trans matched

/-- **The order of a group of Xor is kept**: with its children in another order it is normalized to
the same tree only if the normal forms of the children stand in the same order again. -/
theorem normalize_xor_iff (pushDown : Bool) {c : Condition} {ds : List Condition}
    (wf : WellFormed c) (xor : c.operator = .xor) (perm : c.children.Perm ds) :
    ∃ n m, normalize pushDown c = pure n ∧ normalize pushDown { c with children := ds } = pure m ∧
      (n = m ↔ c.children.map (normalForm pushDown) = ds.map (normalForm pushDown)) := by
  have before : c.children ≠ [] := wf.children_ne_nil (by rw [xor]; rfl)
  have after : ds ≠ [] := by
    rintro rfl
    exact before perm.eq_nil
  have wfD : WellFormed { c with children := ds } := by
    apply wf.with_children before after
    intro d mem
    exact wf.children d (perm.mem_iff.mpr mem)
  refine ⟨_, _, normalize_eq wf, normalize_eq wfD, ?_⟩
  rw [normalForm_xor wf xor, normalForm_xor wfD xor]
  simp [assembled]

/-- Two children with one normal form may change places. -/
theorem normalize_xor_twins : ∃ n,
    normalize true ⟨.none, .xor, [], [byteIs 1, ⟨.none, .and, [], [byteIs 1]⟩, byteIs 2]⟩ = pure n ∧
    normalize true ⟨.none, .xor, [], [⟨.none, .and, [], [byteIs 1]⟩, byteIs 1, byteIs 2]⟩ =
      pure n := by
  let c : Condition := ⟨.none, .xor, [], [byteIs 1, ⟨.none, .and, [], [byteIs 1]⟩, byteIs 2]⟩
  have wf : WellFormed c := by decide +kernel
  have swapped : c.children.Perm [⟨.none, .and, [], [byteIs 1]⟩, byteIs 1, byteIs 2] := .swap _ _ _
  obtain ⟨n, m, first, second, same⟩ := normalize_xor_iff true wf rfl swapped
  obtain rfl := same.mpr (by decide +kernel)
  exact ⟨n, first, second⟩

/-- Two different leaves under Xor are not normalized alike in either order. -/
theorem normalize_xor_swapped : ¬ ∀ (pushDown : Bool) (c : Condition) (ds : List Condition),
    WellFormed c → c.operator = .xor → c.children.Perm ds →
      normalize pushDown c = normalize pushDown { c with children := ds } := by
  intro alike
  let c : Condition := ⟨.none, .xor, [], [byteIs 1, byteIs 2]⟩
  have wf : WellFormed c := by decide +kernel
  have wfD : WellFormed { c with children := [byteIs 2, byteIs 1] } := by decide +kernel
  have same := alike true c [byteIs 2, byteIs 1] wf rfl (.swap _ _ _)
  rw [normalize_eq wf, normalize_eq wfD, Run.pure_inj, normalForm_xor wf rfl,
    normalForm_xor wfD rfl] at same
  revert same
  decide +kernel

end Condition

end CallGuard
