import CallGuard.Condition.Integrity
import CallGuard.Proofs.Factoring

/-!
# Where allowances stand

Integrity asks that an allowance of the whole call stands at the root or directly below a match of
a whole call: a tree passes the check if and only if every node keeps the rules of its operator and
places its allowances so (`checkIntegrity_eq_ok_iff_sound`). Everything on the way to the normal
form keeps that: no allowance is unwrapped, and none becomes an alternative. So a tree and its
normal form both are allowances or neither is.

Only the first branch is asked whether it has an allowance at the hinge. That is enough: branches
that are compared by position are tidy, so their allowances come after their components, of which
padding has given all branches the same number (`isGlobalAllowance_eq_false_of_leveled`).
-/

namespace CallGuard

namespace Condition

/-- A node whose children are allowances of the whole call only where it admits them. -/
def PlacesAllowances (c : Condition) : Prop :=
  ∀ d ∈ c.children, d.isGlobalAllowance → c.admitsAllowances

/-! ### Integrity -/

/-- A node that keeps the rules of its operator and has allowances for children only where it
admits them. -/
structure Sound (c : Condition) : Prop where
  rules : c.ruleFault? = none
  placed : PlacesAllowances c

theorem fault?_eq_none_iff {parent : Option Condition} {c : Condition} :
    c.fault? parent = none ↔ c.ruleFault? = none ∧ placeFault? parent c = none :=
  Option.or_eq_none_iff

theorem placeFault?_eq_none_iff {parent : Option Condition} {c : Condition} :
    placeFault? parent c = none ↔ (c.isGlobalAllowance → parent.all admitsAllowances) := by
  unfold placeFault?
  cases c.isGlobalAllowance <;> cases parent.all admitsAllowances <;> simp

theorem firstFaultBelow?_eq_none_iff {c : Condition} {i : Nat} {cs : List Condition} :
    firstFaultBelow? c i cs = none ↔ ∀ d ∈ cs, firstFault? (some c) d = none := by
  induction cs generalizing i with
  | nil => exact iff_of_true rfl (List.forall_mem_nil _)
  | cons d ds ih =>
    rw [firstFaultBelow?, List.forall_mem_cons]
    cases firstFault? (some c) d with
    | none => simpa using ih
    | some fault => simp

theorem firstFault?_eq_none_iff {parent : Option Condition} {c : Condition} :
    firstFault? parent c = none ↔
      (c.ruleFault? = none ∧ placeFault? parent c = none) ∧
        ∀ d ∈ c.children, firstFault? (some c) d = none := by
  obtain ⟨type, op, v, cs⟩ := c
  rw [firstFault?, ← fault?_eq_none_iff]
  dsimp only
  cases fault? parent ⟨type, op, v, cs⟩ with
  | none => simpa using firstFaultBelow?_eq_none_iff
  | some fault => simp

/-- A tree has no fault if and only if it is in its place and all its nodes are sound. -/
theorem firstFault?_eq_none_iff_sound {parent : Option Condition} {c : Condition} :
    firstFault? parent c = none ↔ placeFault? parent c = none ∧ Everywhere Sound c := by
  induction c using induct generalizing parent with
  | node c ih =>
    rw [firstFault?_eq_none_iff]
    constructor
    · rintro ⟨⟨rules, place⟩, below⟩
      refine ⟨place, .mk ⟨rules, fun d mem => ?_⟩ fun d mem => ((ih d mem).mp (below d mem)).2⟩
      exact placeFault?_eq_none_iff.mp ((ih d mem).mp (below d mem)).1
    · rintro ⟨place, sound⟩
      refine ⟨⟨sound.here.rules, place⟩, fun d mem => (ih d mem).mpr ⟨?_, sound.children d mem⟩⟩
      exact placeFault?_eq_none_iff.mpr (sound.here.placed d mem)

/-- **A tree passes the check** if and only if all its nodes are sound. -/
theorem checkIntegrity_eq_ok_iff_sound {c : Condition} :
    c.checkIntegrity = .ok () ↔ Everywhere Sound c := by
  rw [checkIntegrity_eq_ok_iff, firstFault?_eq_none_iff_sound]
  exact and_iff_right (placeFault?_eq_none_iff.mpr fun _ => rfl)

/-- **A tree without faults places its allowances** where they are admitted. -/
theorem everywhere_placesAllowances {c : Condition} (h : c.checkIntegrity = .ok ()) :
    Everywhere PlacesAllowances c :=
  (checkIntegrity_eq_ok_iff_sound.mp h).imp fun _ => Sound.placed

/-! ### Nodes -/

theorem isGlobalAllowance_eq {c d : Condition} (h : c.operator = d.operator) :
    c.isGlobalAllowance = d.isGlobalAllowance := by
  rw [isGlobalAllowance, isGlobalAllowance, h]

theorem admitsAllowances_eq {c d : Condition} (op : c.operator = d.operator)
    (type : c.paramType = d.paramType) : c.admitsAllowances = d.admitsAllowances := by
  rw [admitsAllowances, admitsAllowances, isWholeCall, isWholeCall, op, type]

/-- Only matches admit allowances. -/
theorem operator_of_admitsAllowances {c : Condition} (h : c.admitsAllowances) :
    c.operator = .matches := by
  rw [admitsAllowances, Bool.and_eq_true] at h
  exact eq_of_beq h.1

/-- Nodes that admit no allowances have none for children. -/
theorem PlacesAllowances.isGlobalAllowance_eq_false {c d : Condition} (h : PlacesAllowances c)
    (op : c.operator ≠ .matches) (mem : d ∈ c.children) : d.isGlobalAllowance = false := by
  by_contra allowance
  rw [Bool.not_eq_false] at allowance
  exact op (operator_of_admitsAllowances (h d mem allowance))

theorem isGlobalAllowance_eq_false_of_or {c : Condition} (h : c.operator = .or) :
    c.isGlobalAllowance = false := by
  rw [isGlobalAllowance, h]
  rfl

theorem matches_ne_of_isAssociative {op : Operator} (h : op.isAssociative) : op ≠ .matches := by
  rintro rfl
  cases h

theorem PlacesAllowances.isGlobalAllowance_of_or {c : Condition} (h : PlacesAllowances c)
    (or : c.operator = .or) : ∀ d ∈ c.children, d.isGlobalAllowance = false :=
  fun _ mem => h.isGlobalAllowance_eq_false (matches_ne_of_isAssociative (by rw [or]; rfl)) mem

/-! ### Steps -/

theorem everywhere_placesAllowances_pass (type : ParamType) :
    Everywhere PlacesAllowances (pass type) :=
  .mk (fun _ mem => absurd mem List.not_mem_nil) fun _ mem => absurd mem List.not_mem_nil

theorem everywhere_placesAllowances_sort {c : Condition} (h : Everywhere PlacesAllowances c) :
    Everywhere PlacesAllowances c.sort := by
  have perm := sort_children_perm c
  refine .mk (fun d mem allowance => ?_) fun d mem => h.children d (perm.mem_iff.mp mem)
  rw [admitsAllowances_eq (sort_operator c) (sort_paramType c)]
  exact h.here d (perm.mem_iff.mp mem) allowance

theorem everywhere_placesAllowances_gathered {c : Condition} (h : Everywhere PlacesAllowances c) :
    Everywhere PlacesAllowances c.gathered := by
  refine .mk (fun d mem allowance => ?_) fun d mem => everywhere_of_mem_gathered h.children mem
  rw [admitsAllowances_eq (gathered_operator c) (gathered_paramType c)]
  rcases mem_gathered_children mem with ⟨own, -⟩ | ⟨e, memE, assoc, same, memD⟩
  · exact h.here d own allowance
  · have inner := (h.children e memE).here.isGlobalAllowance_eq_false
      (matches_ne_of_isAssociative (same ▸ assoc)) memD
    rw [inner] at allowance
    cases allowance

/-- A prepared node places its allowances, and is one only if it was before. -/
theorem everywhere_placesAllowances_prepared {c : Condition} (wf : WellFormed c)
    (h : Everywhere PlacesAllowances c) : Everywhere PlacesAllowances c.prepared ∧
      c.prepared.isGlobalAllowance = c.isGlobalAllowance := by
  have gathered := everywhere_placesAllowances_gathered h
  rcases wf.prepared_cases with ⟨assoc, d, only, eq⟩ | ⟨-, eq⟩
  · have mem : d ∈ c.gathered.children := only ▸ List.mem_singleton_self d
    have child := gathered.here.isGlobalAllowance_eq_false
      (matches_ne_of_isAssociative (by rwa [gathered_operator])) mem
    have parent : c.isGlobalAllowance = false := by
      rw [isGlobalAllowance]
      revert assoc
      cases c.operator <;> simp [Operator.isAssociative, Operator.isGlobalAllowance]
    rw [eq]
    exact ⟨gathered.children d mem, child.trans parent.symm⟩
  · rw [eq]
    exact ⟨gathered, isGlobalAllowance_eq (gathered_operator c)⟩

theorem everywhere_placesAllowances_padTo {c : Condition} (h : Everywhere PlacesAllowances c)
    (model : List Condition) : Everywhere PlacesAllowances (padTo model c) := by
  refine .mk (fun d mem allowance => ?_) fun d mem => ?_
  · rw [admitsAllowances_eq (padTo_operator model c) (padTo_paramType model c)]
    rcases mem_children_padTo mem with own | ⟨type, rfl⟩
    · exact h.here d own allowance
    · cases allowance
  · rcases mem_children_padTo mem with own | ⟨type, rfl⟩
    · exact h.children d own
    · exact everywhere_placesAllowances_pass type

/-- An alternation of what are no allowances may take the place of a child. -/
theorem everywhere_placesAllowances_fill {f : Frame} {x : Condition} {xs : List Condition}
    (h : Everywhere PlacesAllowances (f.fill x))
    (below : ∀ y ∈ xs, y.isGlobalAllowance = false ∧ Everywhere PlacesAllowances y) :
    Everywhere PlacesAllowances (f.fill (anyOf xs)) := by
  have alternatives : Everywhere PlacesAllowances (anyOf xs) := by
    refine .mk (fun y mem allowance => ?_) fun y mem => (below y mem).2
    rw [(below y mem).1] at allowance
    cases allowance
  refine .mk (fun d mem allowance => ?_) fun d mem => ?_
  · rcases Frame.mem_fill_children.mp mem with rfl | other
    · cases allowance
    · exact h.here d (Frame.mem_fill_children.mpr (.inr other)) allowance
  · rcases Frame.mem_fill_children.mp mem with rfl | other
    · exact alternatives
    · exact h.children d (Frame.mem_fill_children.mpr (.inr other))

/-! ### Factoring -/

/-- The allowances of a tidy match come last: it is pruned, or has none. -/
theorem Tidy.allowancesLast {c : Condition} (tidy : Tidy c) (op : c.operator = .matches)
    (placed : PlacesAllowances c) : c.children = c.positional ++ c.allowances := by
  by_cases open_ : c.isOpenEnded
  · exact ((prune_eq_self_iff op open_).mp tidy.pruned).1
  · have own : ∀ d ∈ c.children, d.isGlobalAllowance = false := by
      intro d mem
      by_contra allowance
      have admits := placed d mem (Bool.not_eq_false _ ▸ allowance)
      rw [admitsAllowances, Bool.and_eq_true] at admits
      exact open_ (by rw [isOpenEnded, admits.2, Bool.true_or])
    refine allowancesLast_iff.mp ⟨c.children, [], by rw [List.append_nil], own, ?_⟩
    exact fun d mem => absurd mem List.not_mem_nil

theorem allowancesLast_padTo {c : Condition} (last : c.children = c.positional ++ c.allowances)
    (model : List Condition) :
    (padTo model c).children = (padTo model c).positional ++ (padTo model c).allowances := by
  by_cases wide : model.length ≤ c.positional.length
  · rwa [padTo_of_le wide]
  · rw [positional_padTo, allowances_padTo, padTo_of_lt (by omega)]

/-- Tidy matches that agree by position have allowances at their hinge all or none. -/
theorem isGlobalAllowance_eq_false_of_leveled {bs : List Condition}
    {first p : Frame × Condition} (common : commonOperator? bs = some .matches)
    (tidy : ∀ b ∈ bs, Tidy b) (placed : ∀ b ∈ bs, PlacesAllowances b)
    (memFirst : filled first ∈ leveled bs) (memP : filled p ∈ leveled bs)
    (place : p.1.before.length = first.1.before.length)
    (own : first.2.isGlobalAllowance = false) : p.2.isGlobalAllowance = false := by
  rw [leveled_of_matches common] at memFirst memP
  have last {q : Frame × Condition} (mem : filled q ∈ padded bs) :
      (filled q).children = (filled q).positional ++ (filled q).allowances := by
    obtain ⟨-, type, -, all⟩ := commonOperator?_eq_some_iff.mp common
    obtain ⟨model, b, memB, eq⟩ := exists_padTo_of_mem_padded mem
    rw [eq]
    exact allowancesLast_padTo ((tidy b memB).allowancesLast (all b memB).2 (placed b memB)) model
  have widths := length_positional_padded memFirst memP
  have atFirst := isGlobalAllowance_iff_of_last (last memFirst) (first.1.fill_children first.2)
  have atP := isGlobalAllowance_iff_of_last (last memP) (p.1.fill_children p.2)
  rw [place, ← widths, ← atFirst, own] at atP
  simpa using atP

theorem everywhere_placesAllowances_leveled {bs : List Condition}
    (placed : ∀ b ∈ bs, Everywhere PlacesAllowances b) :
    ∀ b ∈ leveled bs, Everywhere PlacesAllowances b := by
  unfold leveled
  split
  · intro b mem
    obtain ⟨model, c, memC, rfl⟩ := exists_padTo_of_mem_padded mem
    exact everywhere_placesAllowances_padTo (placed c memC) model
  · exact placed

/-- What tidy branches factor into places its allowances, and is none. -/
theorem everywhere_placesAllowances_factor? {bs : List Condition} (wf : ∀ b ∈ bs, WellFormed b)
    (tidy : ∀ b ∈ bs, Tidy b) (placed : ∀ b ∈ bs, Everywhere PlacesAllowances b)
    {d : Condition} (found : factor? bs = some d) :
    Everywhere PlacesAllowances d ∧ d.isGlobalAllowance = false := by
  have wfD := wellFormed_of_factor? wf found
  obtain ⟨op, first, rest, common, eq, -, agree, rfl⟩ := (factor?_eq_some_iff wf).mp found
  have inside {p : Frame × Condition} (mem : p ∈ first :: rest) : filled p ∈ leveled bs :=
    eq ▸ List.mem_map_of_mem mem
  have branch {p : Frame × Condition} (mem : p ∈ first :: rest) :
      Everywhere PlacesAllowances (filled p) :=
    everywhere_placesAllowances_leveled placed _ (inside mem)
  have own : ∀ p ∈ first :: rest, p.2.isGlobalAllowance = false := by
    intro p mem
    rcases agree with ⟨rfl, agree, own⟩ | ⟨rfl, -⟩
    · exact isGlobalAllowance_eq_false_of_leveled common tidy (fun b memB => (placed b memB).here)
        (inside List.mem_cons_self) (inside mem) (agree.widths.1 p mem) own
    · obtain ⟨type, all⟩ := leveled_operator common
      refine (branch mem).here.isGlobalAllowance_eq_false ?_
        (Frame.mem_fill_children.mpr (.inl rfl))
      rw [(all _ (inside mem)).2]
      exact nofun
  refine ⟨?_, wfD.isGlobalAllowance_eq_false (by simp)⟩
  refine everywhere_placesAllowances_fill (branch List.mem_cons_self) fun y memY => ?_
  obtain ⟨p, memP, rfl⟩ := List.mem_map.mp memY
  exact ⟨own p memP, (branch memP).children _ (Frame.mem_fill_children.mpr (.inl rfl))⟩

/-! ### The normal form -/

theorem everywhere_placesAllowances_assembled {pushDown : Bool} {c : Condition}
    (h : Everywhere PlacesAllowances c)
    (below : ∀ d ∈ c.children, Everywhere PlacesAllowances (normalForm pushDown d) ∧
      (normalForm pushDown d).isGlobalAllowance = d.isGlobalAllowance) :
    Everywhere PlacesAllowances (assembled pushDown c) := by
  refine .mk ?_ (List.forall_mem_map.mpr fun d mem => (below d mem).1)
  refine List.forall_mem_map.mpr fun d mem allowance => ?_
  rw [(below d mem).2] at allowance
  exact h.here d mem allowance

/-- What replaces a node places its allowances, and is none. -/
theorem everywhere_placesAllowances_replaced? {pushDown : Bool} {c d : Condition}
    (wf : WellFormed c) (h : Everywhere PlacesAllowances c)
    (below : ∀ d ∈ c.children, Everywhere PlacesAllowances (normalForm pushDown d) ∧
      (normalForm pushDown d).isGlobalAllowance = d.isGlobalAllowance)
    (found : replaced? pushDown (assembled pushDown c).prepared = some d) :
    Everywhere PlacesAllowances d ∧ d.isGlobalAllowance = false ∧ c.isGlobalAllowance = false := by
  have wfE := wf.assembled pushDown
  obtain ⟨prepared, same⟩ := everywhere_placesAllowances_prepared wfE
    (everywhere_placesAllowances_assembled h below)
  obtain ⟨-, or, factored⟩ := replaced?_eq_some_iff.mp found
  have tidy : ∀ b ∈ (assembled pushDown c).prepared.children, Tidy b := fun b mem =>
    (everywhere_of_mem_prepared wfE (everywhere_tidy_assembled pushDown wf) mem).here
  obtain ⟨replaced, none⟩ := everywhere_placesAllowances_factor? wfE.prepared.children tidy
    prepared.children factored
  rw [isGlobalAllowance_eq_false_of_or or] at same
  exact ⟨replaced, none, same.symm⟩

/-- **The normal form places its allowances** if the tree does, and is one only if the tree is. -/
theorem everywhere_placesAllowances_normalForm {pushDown : Bool} {c : Condition} (wf : WellFormed c)
    (placed : Everywhere PlacesAllowances c) :
    Everywhere PlacesAllowances (normalForm pushDown c) ∧
      (normalForm pushDown c).isGlobalAllowance = c.isGlobalAllowance := by
  refine normalForm_induct
    (motive := fun c n => Everywhere PlacesAllowances c →
      Everywhere PlacesAllowances n ∧ n.isGlobalAllowance = c.isGlobalAllowance)
    (fun c d wf below found _ again placed => ?_) (fun c wf below _ placed => ?_) wf placed
  · obtain ⟨replaced, none, here⟩ := everywhere_placesAllowances_replaced? wf placed
      (fun e mem => below e mem (placed.children e mem)) found
    rw [here, ← none]
    exact again replaced
  · obtain ⟨prepared, same⟩ := everywhere_placesAllowances_prepared (wf.assembled pushDown)
      (everywhere_placesAllowances_assembled placed
        fun e mem => below e mem (placed.children e mem))
    refine ⟨everywhere_placesAllowances_sort prepared, ?_⟩
    rw [isGlobalAllowance_eq (sort_operator _), same]
    rfl

end Condition

end CallGuard
