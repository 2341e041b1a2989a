import CallGuard.Proofs.NormalForm

/-!
# Runs on well-formed trees

The checked constructor accepts every node that the steps towards the normal form build from
well-formed trees, so the checked steps find what the others find. `normalize_eq` says that the
run on a well-formed tree ends, without an error and with the normal form.
-/

namespace CallGuard

namespace Condition

theorem mapM_eq_pure {m : Type → Type} [Monad m] [LawfulMonad m] {α β : Type} {f : α → m β}
    {g : α → β} {xs : List α} (h : ∀ x ∈ xs, f x = pure (g x)) : xs.mapM f = pure (xs.map g) := by
  induction xs with
  | nil => rfl
  | cons x xs ih =>
    rw [List.mapM_cons, h x List.mem_cons_self, pure_bind,
      ih fun y mem => h y (List.mem_cons_of_mem x mem), pure_bind, List.map_cons]

/-! ### Checked steps -/

theorem mapM_remade {cs : List Condition} (wf : ∀ c ∈ cs, WellFormed c) :
    cs.mapM remade = .ok cs := by
  have := mapM_eq_pure (g := fun c : Condition => c) fun c mem => (wf c mem).remade
  rwa [List.map_id'] at this

theorem padToMatch_eq {bs : List Condition} (wf : ∀ b ∈ bs, WellFormed b)
    (matched : ∀ b ∈ bs, b.operator = .matches) : padToMatch bs = .ok (padded bs) := by
  have none : bs.find? (·.operator != .matches) = none := by
    simpa using matched
  rw [padToMatch, none]
  refine mapM_remade fun b mem => WellFormed.of_mem_padded wf (fun c memC => ?_) mem
  exact (wf c memC).children_ne_nil (by rw [matched c memC]; rfl)

theorem WellFormed.remadeWithChildren {c : Condition} (h : WellFormed c) :
    c.remadeWithChildren = .ok c := by
  unfold Condition.remadeWithChildren
  rw [mapM_remade h.children]
  exact h.remade

theorem mapM_remadeWithChildren {found : Option Condition}
    (wf : ∀ d, found = some d → WellFormed d) :
    found.mapM Condition.remadeWithChildren = (.ok found : Except Error (Option Condition)) := by
  cases found with
  | none => rfl
  | some d =>
    show some <$> d.remadeWithChildren = _
    rw [(wf d rfl).remadeWithChildren]
    rfl

theorem factor_eq {bs : List Condition} (wf : ∀ b ∈ bs, WellFormed b) :
    factor bs = .ok (factor? bs) := by
  have combined : ∀ d, factor? bs = some d → WellFormed d := fun d => wellFormed_of_factor? wf
  unfold factor factor? at *
  split
  · rename_i common
    obtain ⟨-, p, -, all⟩ := commonOperator?_eq_some_iff.mp common
    rw [padToMatch_eq wf fun b mem => (all b mem).2]
    simp only [common] at combined
    exact mapM_remadeWithChildren combined
  · rename_i common
    simp only [common] at combined
    exact mapM_remadeWithChildren combined
  · rfl

theorem prepare_eq {c : Condition} (wf : WellFormed c) : c.prepare = .ok c.prepared := by
  unfold prepare
  rw [wf.prune.remade]
  show (do let c ← c.prune.flatten.remade; let c ← c.dedupe.remade; return c.unwrap) = _
  rw [wf.prune.flatten.remade]
  show (do let c ← c.prune.flatten.dedupe.remade; return c.unwrap) = _
  rw [wf.prune.flatten.dedupe.remade]
  rfl

/-- An alternation of more than one branch can be looked at for a hinge. -/
theorem replacement?_eq {pushDown : Bool} {c : Condition} (wf : WellFormed c)
    (many : c.operator.isAssociative → 2 ≤ c.children.length) :
    replacement? pushDown c = .ok (replaced? pushDown c) := by
  unfold replacement? replaced?
  split
  · rename_i h
    have := many (by rw [h.2]; rfl)
    have accepted : checkAlternation c = .ok () := by
      rw [checkAlternation, if_neg (not_not.mpr h.2), if_neg (by omega)]
    rw [factorAlternation, accepted]
    exact factor_eq wf.children
  · rfl

/-! ### The run to the normal form -/

/-- A group of And or Or that is prepared from tidy children has more than one child. -/
theorem many_prepared {c : Condition} (wf : WellFormed c)
    (below : ∀ d ∈ c.children, Everywhere Tidy d) :
    c.prepared.operator.isAssociative → 2 ≤ c.prepared.children.length := by
  rcases wf.prepared_cases with ⟨-, d, only, eq⟩ | ⟨many, eq⟩
  · rw [eq]
    exact (everywhere_of_mem_gathered below (only ▸ List.mem_singleton_self d)).here.many
  · rw [eq, gathered_operator]
    exact many

/-- The rest of a run, after a node is prepared. -/
def finish (pushDown : Bool) (bound : Nat) (c : Condition) : Run Condition :=
  match replaced? pushDown c with
  | some d => do Run.of (← normalizeWithin pushDown bound d).sort.remade
  | none => Run.of c.sort.remade

/-- A run whose children end with their normal forms. -/
theorem normalizeWithin_of_children {pushDown : Bool} {bound : Nat} {c : Condition}
    (wf : WellFormed c)
    (below : ∀ d ∈ c.children, normalizeWithin pushDown bound d = pure (normalForm pushDown d)) :
    normalizeWithin pushDown (bound + 1) c =
      finish pushDown bound (assembled pushDown c).prepared := by
  have wfE := wf.assembled pushDown
  have prepared : (do
      let c ← Run.of (assembled pushDown c).prepare
      let d ← Run.of (c.replacement? pushDown)
      match d with
      | some d => do Run.of (← normalizeWithin pushDown bound d).sort.remade
      | none => Run.of c.sort.remade) =
        finish pushDown bound (assembled pushDown c).prepared := by
    rw [prepare_eq wfE, Run.of_ok, pure_bind,
      replacement?_eq wfE.prepared (many_prepared wfE (everywhere_tidy_assembled pushDown wf)),
      Run.of_ok, pure_bind]
    rfl
  rw [← prepared, normalizeWithin]
  by_cases leaf : c.isLeaf
  · have same : assembled pushDown c = c := by
      rw [assembled, List.isEmpty_iff.mp leaf, List.map_nil, ← List.isEmpty_iff.mp leaf, mk_eta]
    rw [same, if_pos leaf]
    rfl
  · have inner : c.children ≠ [] := fun empty => leaf (List.isEmpty_iff.mpr empty)
    have made : make c.paramType c.operator [] (c.children.map (normalForm pushDown)) =
        .ok (assembled pushDown c) := by
      rw [← wf.operand_eq_nil inner]
      exact wfE.remade
    rw [if_neg leaf, mapM_eq_pure below, pure_bind, made, Run.of_ok, pure_bind]
    rfl

/-- A bound that is no less than the number of nodes does not cut a run short. -/
theorem normalizeWithin_eq {pushDown : Bool} {c : Condition} (wf : WellFormed c) :
    ∀ bound, c.nodeCount ≤ bound →
      normalizeWithin pushDown bound c = pure (normalForm pushDown c) := by
  refine normalForm_induct (motive := fun c n =>
      ∀ bound, c.nodeCount ≤ bound → normalizeWithin pushDown bound c = pure n)
    (fun c d wf below found wfD again bound enough => ?_)
    (fun c wf below found bound enough => ?_) wf
  all_goals
    obtain ⟨bound, rfl⟩ := exists_succ_of_nodeCount_le enough
    have children : ∀ e ∈ c.children,
        normalizeWithin pushDown bound e = pure (normalForm pushDown e) := fun e mem =>
      below e mem bound (Nat.le_of_lt_succ (Nat.lt_of_lt_of_le (nodeCount_lt_of_mem mem) enough))
    rw [normalizeWithin_of_children wf children, finish, found]
  · show (do Run.of (← normalizeWithin pushDown bound d).sort.remade) = _
    have smaller := nodeCount_replaced?_lt wf found
    rw [again bound (by omega), pure_bind, sort_normalForm wfD, (wfD.normalForm pushDown).remade,
      Run.of_ok]
  · show Run.of _ = _
    rw [(wf.assembled pushDown).prepared.sort.remade, Run.of_ok]

/-- **Normalizing ends with the normal form** of a well-formed tree. -/
theorem normalize_eq {pushDown : Bool} {c : Condition} (wf : WellFormed c) :
    normalize pushDown c = pure (normalForm pushDown c) :=
  normalizeWithin_eq wf c.nodeCount (Nat.le_refl _)

theorem equivalent_eq {pushDown : Bool} {a b : Condition} (wfA : WellFormed a)
    (wfB : WellFormed b) : equivalent pushDown a b =
      pure ((normalForm pushDown a).id == (normalForm pushDown b).id) := by
  rw [equivalent, normalize_eq wfA, normalize_eq wfB, pure_bind, pure_bind]

/-- Some alternatives are merged into the normal form of their alternation. -/
theorem merge_eq {pushDown : Bool} {variants : List Condition} (some : variants ≠ [])
    (wf : ∀ v ∈ variants, WellFormed v) :
    merge pushDown variants = pure (normalForm pushDown (anyOf variants)) := by
  have whole := wellFormed_anyOf some wf
  have made : make .none .or [] variants = .ok (anyOf variants) := whole.remade
  rw [merge, if_neg (fun empty => some (List.isEmpty_iff.mp empty)), made, Run.of_ok]
  exact normalize_eq whole

end Condition

end CallGuard
