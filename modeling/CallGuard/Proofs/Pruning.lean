import CallGuard.Canonical.Pruning
import CallGuard.Proofs.Shape
import Mathlib.Data.List.DropRight

/-!
# Laws of pruning

Pruning keeps a leading part of the components of an open-ended match, drops only components
that accept everything, and keeps all allowances. What it looks at to decide how much to keep
stays as it was, so that pruning a pruned node changes nothing.
-/

namespace CallGuard

namespace Condition

/-! ### Components and allowances -/

theorem mem_positional {c d : Condition} :
    d ∈ c.positional ↔ d ∈ c.children ∧ d.isGlobalAllowance = false := by
  simp [positional]

theorem mem_allowances {c d : Condition} :
    d ∈ c.allowances ↔ d ∈ c.children ∧ d.isGlobalAllowance = true := by
  simp [allowances]

/-- Every child is a component or an allowance. -/
theorem positional_append_allowances_perm (c : Condition) :
    (c.positional ++ c.allowances).Perm c.children := by
  have h := List.filter_append_perm (fun d : Condition => !d.isGlobalAllowance) c.children
  simpa [positional, allowances] using h

/-- What stands before the allowances when they come last. -/
theorem filter_positional_append {cs ds : List Condition}
    (components : ∀ d ∈ cs, d.isGlobalAllowance = false)
    (rest : ∀ d ∈ ds, d.isGlobalAllowance = true) :
    (cs ++ ds).filter (fun d => !d.isGlobalAllowance) = cs := by
  rw [List.filter_append, List.filter_eq_self.mpr, List.filter_eq_nil_iff.mpr, List.append_nil]
  · intro d mem
    simp [rest d mem]
  · intro d mem
    simp [components d mem]

theorem filter_allowances_append {cs ds : List Condition}
    (components : ∀ d ∈ cs, d.isGlobalAllowance = false)
    (rest : ∀ d ∈ ds, d.isGlobalAllowance = true) :
    (cs ++ ds).filter isGlobalAllowance = ds := by
  rw [List.filter_append, List.filter_eq_self.mpr rest, List.filter_eq_nil_iff.mpr, List.nil_append]
  intro d mem
  simp [components d mem]

/-! ### What is dropped -/

theorem dropFreeTail_eq (keep : Nat) (cs : List Condition) :
    dropFreeTail keep cs = cs.take keep ++ (cs.drop keep).rdropWhile isPass :=
  rfl

/-- Only components that accept everything are dropped. -/
theorem exists_dropFreeTail_append (keep : Nat) (cs : List Condition) :
    ∃ tail, cs = dropFreeTail keep cs ++ tail ∧ ∀ d ∈ tail, d.isPass := by
  refine ⟨(cs.drop keep).rtakeWhile isPass, ?_, fun d mem => List.mem_rtakeWhile_imp mem⟩
  rw [dropFreeTail_eq, List.append_assoc, List.rdropWhile_append_rtakeWhile, List.take_append_drop]

theorem dropFreeTail_ne_nil {keep : Nat} {cs : List Condition} (pos : 0 < keep) (some : cs ≠ []) :
    dropFreeTail keep cs ≠ [] := by
  obtain ⟨c, cs, rfl⟩ := List.exists_cons_of_ne_nil some
  obtain ⟨keep, rfl⟩ := Nat.exists_eq_add_of_lt pos
  simp [dropFreeTail_eq]

theorem dropFreeTail_dropFreeTail (keep : Nat) (cs : List Condition) :
    dropFreeTail keep (dropFreeTail keep cs) = dropFreeTail keep cs := by
  by_cases long : keep ≤ cs.length
  · have kept : (cs.take keep).length = keep := List.length_take_of_le long
    have again : (dropFreeTail keep cs).drop keep = (cs.drop keep).rdropWhile isPass := by
      rw [dropFreeTail_eq, List.drop_left' kept]
    have start : (dropFreeTail keep cs).take keep = cs.take keep := by
      rw [dropFreeTail_eq, List.take_left' kept]
    rw [dropFreeTail_eq keep (dropFreeTail keep cs), again, start, List.rdropWhile_idempotent]
    rfl
  · have short : cs.length ≤ keep := by omega
    have all : dropFreeTail keep cs = cs := by
      rw [dropFreeTail_eq, List.take_of_length_le short, List.drop_of_length_le short]
      simp
    rw [all, all]

/-- More free components at the end make no difference to what is left. -/
theorem dropFreeTail_append {keep : Nat} {cs tail : List Condition} (long : keep ≤ cs.length)
    (free : ∀ d ∈ tail, d.isPass) : dropFreeTail keep (cs ++ tail) = dropFreeTail keep cs := by
  rw [dropFreeTail_eq, dropFreeTail_eq, List.take_append_of_le_length long,
    List.drop_append_of_le_length long]
  congr 1
  induction tail using List.reverseRecOn with
  | nil => rw [List.append_nil]
  | append_singleton tail d ih =>
    obtain ⟨others, last⟩ := List.forall_mem_append.mp free
    rw [← List.append_assoc, List.rdropWhile_concat_pos _ _ _ (last d (List.mem_singleton_self d)),
      ih others]

/-! ### Pruned nodes -/

theorem prune_of_isOpenEnded {c : Condition} (op : c.operator = .matches) (h : c.isOpenEnded) :
    c.prune = { c with children := dropFreeTail c.retained c.positional ++ c.allowances } :=
  if_pos ⟨op, h⟩

theorem prune_of_not {c : Condition} (h : ¬ (c.operator = .matches ∧ c.isOpenEnded)) :
    c.prune = c :=
  if_neg h

@[simp] theorem prune_operator (c : Condition) : c.prune.operator = c.operator := by
  unfold prune
  split <;> rfl

@[simp] theorem prune_paramType (c : Condition) : c.prune.paramType = c.paramType := by
  unfold prune
  split <;> rfl

theorem isGlobalAllowance_of_mem_dropFreeTail {c d : Condition} {keep : Nat}
    (h : d ∈ dropFreeTail keep c.positional) : d.isGlobalAllowance = false :=
  (mem_positional.mp ((dropFreeTail_isPrefix keep c.positional).subset h)).2

theorem positional_prune {c : Condition} (op : c.operator = .matches) (h : c.isOpenEnded) :
    c.prune.positional = dropFreeTail c.retained c.positional := by
  rw [prune_of_isOpenEnded op h]
  exact filter_positional_append (fun d => isGlobalAllowance_of_mem_dropFreeTail)
    fun d mem => (mem_allowances.mp mem).2

theorem allowances_prune (c : Condition) : c.prune.allowances = c.allowances := by
  by_cases h : c.operator = .matches ∧ c.isOpenEnded
  · rw [prune_of_isOpenEnded h.1 h.2]
    exact filter_allowances_append (fun d => isGlobalAllowance_of_mem_dropFreeTail)
      fun d mem => (mem_allowances.mp mem).2
  · rw [prune_of_not h]

/-- The children of a pruned node, in some order, are some of those before. -/
theorem prune_children_subperm (c : Condition) : c.prune.children.Subperm c.children := by
  by_cases h : c.operator = .matches ∧ c.isOpenEnded
  · rw [prune_of_isOpenEnded h.1 h.2]
    have kept : (dropFreeTail c.retained c.positional ++ c.allowances).Sublist
        (c.positional ++ c.allowances) :=
      (dropFreeTail_isPrefix c.retained c.positional).sublist.append_right c.allowances
    exact kept.subperm.trans (positional_append_allowances_perm c).subperm
  · rw [prune_of_not h]

theorem retained_le (c : Condition) : c.retained ≤ c.positional.length := by
  unfold retained
  dsimp only
  split
  · split
    · rename_i i found
      have := (List.findIdx?_eq_some_iff_getElem.mp found).1
      omega
    · omega
  · omega

theorem retained_pos {c : Condition} (h : c.positional ≠ []) : 0 < c.retained := by
  have := List.length_pos_of_ne_nil h
  unfold retained
  dsimp only
  split
  · split <;> omega
  · omega

/-- How many components are kept depends on the type and on the sizes of the components. -/
theorem retained_congr {c d : Condition} (type : c.paramType = d.paramType)
    (sizes : c.positional.map isDynamic = d.positional.map isDynamic) :
    c.retained = d.retained := by
  have read (cs : List Condition) :
      cs.findIdx? isDynamic = (cs.map isDynamic).findIdx? (fun b => b) := by
    rw [List.findIdx?_map]
    rfl
  have width : c.positional.length = d.positional.length := by
    simpa using congrArg List.length sizes
  simp only [retained, type, width, read c.positional, read d.positional, sizes]

theorem isOpenEnded_iff {c : Condition} : c.isOpenEnded ↔
    c.paramType = .calldata ∨ c.paramType = .abiEncoded ∨ c.paramType = .tuple ∧ c.isDynamic := by
  unfold isOpenEnded isWholeCall
  cases c.paramType <;> simp [ParamType.isWholeCall]

/-- The components of a call are open-ended, and only the first one is always kept. -/
theorem isOpenEnded_of_isWholeCall {c : Condition} (scope : c.isWholeCall) : c.isOpenEnded := by
  rw [isOpenEnded, scope, Bool.true_or]

theorem retained_of_isWholeCall {c : Condition} (scope : c.isWholeCall) :
    c.retained = min 1 c.positional.length := by
  refine if_neg fun tuple => ?_
  rw [isWholeCall, tuple] at scope
  cases scope

theorem prune_children_ne_nil {c : Condition} (h : c.children ≠ []) : c.prune.children ≠ [] := by
  by_cases open_ : c.operator = .matches ∧ c.isOpenEnded
  · rw [prune_of_isOpenEnded open_.1 open_.2]
    by_cases none : c.positional = []
    · have all := positional_append_allowances_perm c
      rw [none, List.nil_append] at all
      intro empty
      have gone : c.allowances = [] := by simpa [none, dropFreeTail] using empty
      exact h (List.nil_perm.mp (gone ▸ all))
    · simp [dropFreeTail_ne_nil (retained_pos none) none]
  · rwa [prune_of_not open_]

/-! ### Pruning twice -/

/-- The first place of a list is found in a leading part that reaches beyond it. -/
theorem findIdx?_eq_of_prefix {α : Type} {p : α → Bool} {start whole : List α}
    (h : start <+: whole) (inside : ∀ i, whole.findIdx? p = some i → i < start.length) :
    start.findIdx? p = whole.findIdx? p := by
  obtain ⟨rest, rfl⟩ := h
  rw [List.findIdx?_append] at inside ⊢
  cases found : start.findIdx? p with
  | some i => rfl
  | none =>
    cases later : rest.findIdx? p with
    | none => rfl
    | some j =>
      have := inside (j + start.length) (by simp [found, later])
      omega

/-- The first component of variable size stays, and so is found where it was. -/
theorem findIdx?_positional_prune {c : Condition} (op : c.operator = .matches) (h : c.isOpenEnded)
    (tuple : c.paramType = .tuple) :
    c.prune.positional.findIdx? isDynamic = c.positional.findIdx? isDynamic := by
  rw [positional_prune op h]
  refine findIdx?_eq_of_prefix (dropFreeTail_isPrefix c.retained c.positional) fun i found => ?_
  have early : i < c.retained := by
    simp only [retained, if_pos tuple, found]
    omega
  have := retained_le c
  rw [dropFreeTail_eq, List.length_append, List.length_take]
  omega

theorem isDynamic_prune (c : Condition) : c.prune.isDynamic = c.isDynamic := by
  by_cases h : c.operator = .matches ∧ c.isOpenEnded
  swap
  · rw [prune_of_not h]
  rw [isDynamic_eq, isDynamic_eq c, prune_paramType]
  cases type : c.paramType with
  | tuple =>
    have components := findIdx?_positional_prune h.1 h.2 type
    have found : c.prune.positional.any isDynamic = c.positional.any isDynamic := by
      rw [← List.findIdx?_isSome, ← List.findIdx?_isSome, components]
    have every (d : Condition) :
        d.children.any isDynamic = (d.positional.any isDynamic || d.allowances.any isDynamic) := by
      rw [← List.any_append]
      exact ((positional_append_allowances_perm d).any_eq).symm
    simp only [every, found, allowances_prune]
  | none => simp [isOpenEnded, isWholeCall, type, ParamType.isWholeCall] at h
  | _ => rfl

theorem isOpenEnded_prune (c : Condition) : c.prune.isOpenEnded = c.isOpenEnded := by
  simp [isOpenEnded, isWholeCall, isDynamic_prune]

theorem retained_prune {c : Condition} (op : c.operator = .matches) (h : c.isOpenEnded) :
    c.prune.retained = c.retained := by
  have first : min 1 c.prune.positional.length = min 1 c.positional.length := by
    rw [positional_prune op h]
    by_cases none : c.positional = []
    · simp [none, dropFreeTail]
    · have := List.length_pos_of_ne_nil none
      have := List.length_pos_of_ne_nil (dropFreeTail_ne_nil (retained_pos none) none)
      omega
  by_cases tuple : c.paramType = .tuple
  · simp only [retained, prune_paramType, first, findIdx?_positional_prune op h tuple]
  · simp only [retained, prune_paramType, first, if_neg tuple]

/-- **Pruning settles a node**: pruning it again changes nothing. -/
theorem prune_prune (c : Condition) : c.prune.prune = c.prune := by
  by_cases h : c.operator = .matches ∧ c.isOpenEnded
  · rw [prune_of_isOpenEnded (c := c.prune) (by rw [prune_operator, h.1])
      (by rw [isOpenEnded_prune, h.2]), retained_prune h.1 h.2, positional_prune h.1 h.2,
      allowances_prune, dropFreeTail_dropFreeTail, prune_of_isOpenEnded h.1 h.2]
  · rw [prune_of_not h, prune_of_not h]

/-! ### Allowances last -/

/-- Allowances come last if and only if the children are the components and then the
allowances. -/
theorem allowancesLast_iff {c : Condition} :
    (∃ components allowances, c.children = components ++ allowances ∧
      (∀ d ∈ components, d.isGlobalAllowance = false) ∧ ∀ d ∈ allowances, d.isGlobalAllowance) ↔
    c.children = c.positional ++ c.allowances := by
  constructor
  · rintro ⟨cs, ds, split, components, rest⟩
    rw [positional, allowances, split, filter_positional_append components rest,
      filter_allowances_append components rest]
  · intro split
    exact ⟨c.positional, c.allowances, split, fun d mem => (mem_positional.mp mem).2,
      fun d mem => (mem_allowances.mp mem).2⟩

/-- An open-ended match is not pruned if and only if its allowances come last and nothing is
dropped before them. -/
theorem prune_eq_self_iff {c : Condition} (op : c.operator = .matches) (h : c.isOpenEnded) :
    c.prune = c ↔ c.children = c.positional ++ c.allowances ∧
      dropFreeTail c.retained c.positional = c.positional := by
  constructor
  · intro same
    have kept := positional_prune op h
    rw [same] at kept
    refine ⟨?_, kept.symm⟩
    rw [prune_of_isOpenEnded op h, ← kept] at same
    exact (congrArg Condition.children same).symm
  · rintro ⟨split, kept⟩
    rw [prune_of_isOpenEnded op h, kept, ← split, mk_eta]

/-- What stands before a child says whether it is an allowance, if these come last. -/
theorem isGlobalAllowance_iff_of_last {c x : Condition} {before after : List Condition}
    (last : c.children = c.positional ++ c.allowances)
    (split : c.children = before ++ x :: after) :
    x.isGlobalAllowance ↔ c.positional.length ≤ before.length := by
  have found : (c.positional ++ c.allowances)[before.length]? = some x := by
    rw [← last, split]
    simp
  rcases Nat.lt_or_ge before.length c.positional.length with early | late
  · rw [List.getElem?_append_left early] at found
    have own := (mem_positional.mp (List.mem_of_getElem? found)).2
    simp [own, early]
  · rw [List.getElem?_append_right late] at found
    have allowance := (mem_allowances.mp (List.mem_of_getElem? found)).2
    simp [allowance, late]

/-! ### Shape -/

theorem WellFormed.prune {c : Condition} (h : WellFormed c) : WellFormed c.prune := by
  by_cases open_ : c.operator = .matches ∧ c.isOpenEnded
  · have before : c.children ≠ [] := h.children_ne_nil (by rw [open_.1]; rfl)
    have after := prune_children_ne_nil before
    have below : ∀ d ∈ c.prune.children, WellFormed d :=
      fun d mem => h.children d ((prune_children_subperm c).subset mem)
    rw [prune_of_isOpenEnded open_.1 open_.2] at after below ⊢
    exact h.with_children before after below
  · rwa [prune_of_not open_]

theorem weight_prune_le {w : Operator → Bytes → Nat} (c : Condition) :
    weight w c.prune ≤ weight w c := by
  have total : totalWeight w c.prune.children ≤ totalWeight w c.children := by
    obtain ⟨some, perm, sub⟩ := prune_children_subperm c
    rw [← totalWeight_perm perm]
    exact totalWeight_sublist sub
  by_cases open_ : c.operator = .matches ∧ c.isOpenEnded
  · rw [prune_of_isOpenEnded open_.1 open_.2] at total ⊢
    exact weight_with_children_le total
  · exact Nat.le_of_eq (congrArg (weight w) (prune_of_not open_))

end Condition

end CallGuard
