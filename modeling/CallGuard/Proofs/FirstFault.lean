import CallGuard.Proofs.Placement

/-!
# The first fault

The check of integrity goes through a tree in reading order: a node comes before what is below it,
and a child with all below it before the next. A path of child indices leads from the root to a
node (`found?`), and reading order is the order of paths by their first different index, the
shorter path first (`<` on lists).

`KeepsRule` and `InOrder` say what is asked of a node without looking for faults, and
`checkIntegrity_reports_first` that the check accepts the trees all of whose nodes are in order,
and of any other reports the path to the first node that is not.
-/

namespace CallGuard

/-! ### The text of a path -/

namespace Error

/-- What an index adds to the text of a path. -/
def stepText (i : Nat) : List Char :=
  '.' :: Nat.toDigits 10 i

theorem toList_pathText (path : List Nat) :
    (pathText path).toList = '$' :: path.flatMap stepText := by
  have step (i : Nat) : (s!".{i}").toList = stepText i := by
    rw [String.toList_append, Nat.toString_eq_ofList_toDigits, String.toList_ofList]
    rfl
  rw [pathText, String.toList_join, List.flatMap_cons, List.flatMap_map]
  simp only [step]
  rfl

theorem ne_point_of_mem_toDigits {i : Nat} {x : Char} (h : x ∈ Nat.toDigits 10 i) : x ≠ '.' := by
  rintro rfl
  exact absurd (Nat.isDigit_of_mem_toDigits (by decide) (by decide) h) (by decide)

/-- The digits of an index end where the next index begins. -/
theorem takeWhile_stepText (i : Nat) (path : List Nat) :
    (Nat.toDigits 10 i ++ path.flatMap stepText).takeWhile (· != '.') = Nat.toDigits 10 i := by
  have rest : (path.flatMap stepText).takeWhile (· != '.') = [] := by
    cases path <;> rfl
  rw [List.takeWhile_append_of_pos, rest, List.append_nil]
  intro x digit
  simpa using ne_point_of_mem_toDigits digit

/-- **The text of a path** names its indices. -/
theorem pathText_injective : Function.Injective pathText := by
  intro path other same
  have steps : path.flatMap stepText = other.flatMap stepText := by
    simpa [toList_pathText] using congrArg String.toList same
  clear same
  induction path generalizing other with
  | nil =>
    cases other with
    | nil => rfl
    | cons j other => cases steps
  | cons i path ih =>
    cases other with
    | nil => cases steps
    | cons j other =>
      rw [List.flatMap_cons, List.flatMap_cons, stepText, stepText, List.cons_append,
        List.cons_append, List.cons.injEq] at steps
      have digits := congrArg (List.takeWhile (· != '.')) steps.2
      rw [takeWhile_stepText, takeWhile_stepText] at digits
      have index : i = j := by
        rw [← Nat.ofDigitChars_ten_toDigits (n := i), digits, Nat.ofDigitChars_ten_toDigits]
      rw [index, ih (List.append_cancel_left (digits ▸ steps.2))]

end Error

namespace Condition

/-! ### What is asked of a node -/

/-- That a node keeps the rule of its operator: of its type, its operand and the number of its
children. -/
def KeepsRule (c : Condition) : Prop :=
  match c.operator with
  | .and | .or | .nor | .xor => c.paramType = .none ∧ c.operand = []
  | .matches => c.paramType ∈ [.tuple, .array, .calldata, .abiEncoded]
  | .arraySome | .arrayEvery => c.paramType = .array ∧ c.children.length = 1
  | .arraySubset => c.paramType = .array
  | .equalTo => c.paramType ∈ [.static, .dynamic, .tuple, .array] ∧ c.operand ≠ []
  | .greaterThan | .lessThan | .signedIntGreaterThan | .signedIntLessThan | .withinAllowance =>
    c.paramType = .static ∧ c.operand.length = 32
  | .bitmask => c.paramType ∈ [.static, .dynamic] ∧ c.operand ≠ []
  | .equalToAvatar => c.paramType = .static ∧ c.operand = []
  | .custom => c.operand ≠ []
  | .etherWithinAllowance | .callWithinAllowance =>
    c.paramType = .none ∧ c.operand.length = 32
  | .pass => c.operand = []

/-- That a node below a parent, or at the root, keeps its rule and stands where it may: an
allowance of the whole call at the root or directly below a match of a whole call. -/
structure InOrder (parent : Option Condition) (c : Condition) : Prop where
  rule : c.KeepsRule
  placed : c.isGlobalAllowance → ∀ p ∈ parent,
    p.operator = .matches ∧ (p.paramType = .calldata ∨ p.paramType = .abiEncoded)

theorem operandFault?_eq_none_iff {c : Condition} : c.operandFault? = none ↔
    match c.operator.operandRule with
    | .free => True
    | .absent => c.operand = []
    | .present => c.operand ≠ []
    | .word => c.operand.length = 32 := by
  unfold operandFault?
  cases c.operator.operandRule <;> cases c.operand <;> simp

theorem ruleFault?_eq_none_iff {c : Condition} (wf : WellFormed c) :
    c.ruleFault? = none ↔ c.KeepsRule := by
  have shape := shapeFault?_eq_none_iff.mp wf.shape
  have parts : c.ruleFault? = none ↔ c.paramType ∈ c.operator.scopes ∧
      (c.operator.takesOneChild → c.children.length = 1) ∧ c.operandFault? = none := by
    unfold ruleFault?
    split
    · simp_all
    · split <;> simp_all
  rw [parts, operandFault?_eq_none_iff, KeepsRule]
  revert shape
  cases c.operator <;>
    simp +contextual [Operator.scopes, Operator.takesOneChild, Operator.operandRule,
      Operator.requiresChildren, Operator.kind, ParamType.mem_all]

theorem placeFault?_eq_none_iff_placed {parent : Option Condition} {c : Condition} :
    placeFault? parent c = none ↔ (c.isGlobalAllowance → ∀ p ∈ parent,
      p.operator = .matches ∧ (p.paramType = .calldata ∨ p.paramType = .abiEncoded)) := by
  have whole (p : ParamType) : p.isWholeCall ↔ p = .calldata ∨ p = .abiEncoded := by
    cases p <;> simp [ParamType.isWholeCall]
  rw [placeFault?_eq_none_iff]
  cases parent <;> simp [admitsAllowances, isWholeCall, whole]

/-- A node is without fault if and only if it is in order. -/
theorem fault?_eq_none_iff_inOrder {parent : Option Condition} {c : Condition} (wf : WellFormed c) :
    c.fault? parent = none ↔ InOrder parent c := by
  rw [fault?_eq_none_iff, ruleFault?_eq_none_iff wf, placeFault?_eq_none_iff_placed]
  exact ⟨fun ⟨rule, placed⟩ => ⟨rule, placed⟩, fun h => ⟨h.rule, h.placed⟩⟩

/-! ### Paths -/

/-- What a path of child indices leads to, with its parent: from a node with a given parent, the
empty path to the node itself, and any other on from the child with the first index. -/
def found? (parent : Option Condition) (c : Condition) :
    List Nat → Option (Option Condition × Condition)
  | [] => some (parent, c)
  | i :: path => c.children[i]?.bind fun d => found? (some c) d path

theorem found?_cons_eq_some_iff {parent : Option Condition} {c : Condition} {i : Nat}
    {path : List Nat} {place : Option Condition × Condition} :
    found? parent c (i :: path) = some place ↔
      ∃ d, c.children[i]? = some d ∧ found? (some c) d path = some place :=
  Option.bind_eq_some_iff

theorem WellFormed.of_found {parent : Option Condition} {c : Condition} (wf : WellFormed c)
    {path : List Nat} {p : Option Condition} {d : Condition}
    (h : found? parent c path = some (p, d)) : WellFormed d := by
  induction path generalizing parent c with
  | nil =>
    cases h
    exact wf
  | cons i path ih =>
    obtain ⟨e, child, later⟩ := found?_cons_eq_some_iff.mp h
    exact ih (wf.children e (List.mem_of_getElem? child)) later

/-! ### The search -/

/-- The first fault below a node is the first of the first child that has one. -/
theorem firstFaultBelow?_eq_some {c : Condition} {i : Nat} {cs : List Condition}
    {path : List Nat} {fault : IntegrityFault}
    (h : firstFaultBelow? c i cs = some (path, fault)) :
    ∃ k d rest, path = (i + k) :: rest ∧ cs[k]? = some d ∧
      firstFault? (some c) d = some (rest, fault) ∧
      ∀ j e, j < k → cs[j]? = some e → firstFault? (some c) e = none := by
  induction cs generalizing i with
  | nil => cases h
  | cons d ds ih =>
    rw [firstFaultBelow?] at h
    cases here : firstFault? (some c) d with
    | some first =>
      rw [here] at h
      cases h
      exact ⟨0, d, first.1, rfl, rfl, here, fun j _ earlier => absurd earlier (Nat.not_lt_zero j)⟩
    | none =>
      rw [here] at h
      obtain ⟨k, e, rest, rfl, child, later, before⟩ := ih h
      refine ⟨k + 1, e, rest, by rw [Nat.add_assoc, Nat.add_comm 1 k], child, later, ?_⟩
      intro j e' earlier child'
      cases j with
      | zero =>
        cases child'
        exact here
      | succ j => exact before j e' (Nat.lt_of_succ_lt_succ earlier) child'

/-- A tree has no fault if and only if no path leads to one. -/
theorem firstFault?_eq_none_iff_found {parent : Option Condition} {c : Condition} :
    firstFault? parent c = none ↔
      ∀ path p d, found? parent c path = some (p, d) → d.fault? p = none := by
  induction c using induct generalizing parent with
  | node c ih =>
    rw [firstFault?_eq_none_iff, ← fault?_eq_none_iff]
    constructor
    · rintro ⟨here, below⟩ path p d leads
      cases path with
      | nil =>
        cases leads
        exact here
      | cons i path =>
        obtain ⟨e, child, later⟩ := found?_cons_eq_some_iff.mp leads
        have mem := List.mem_of_getElem? child
        exact (ih e mem).mp (below e mem) path p d later
    · intro none
      refine ⟨none [] parent c rfl, fun d mem => (ih d mem).mpr fun path p e later => ?_⟩
      obtain ⟨i, child⟩ := List.getElem?_of_mem mem
      exact none (i :: path) p e (found?_cons_eq_some_iff.mpr ⟨d, child, later⟩)

/-- The search looks at a node before it looks below. -/
theorem firstFault?_eq (parent : Option Condition) (c : Condition) :
    firstFault? parent c = match c.fault? parent with
      | some fault => some ([], fault)
      | none => firstFaultBelow? c 0 c.children := by
  cases c
  rewrite [firstFault?]
  rfl

/-- **The search finds the first fault**: the path leads to a node with the fault, and no path
before it leads to a node with any. -/
theorem firstFault?_eq_some {parent : Option Condition} {c : Condition} {path : List Nat}
    {fault : IntegrityFault} (h : firstFault? parent c = some (path, fault)) :
    (∃ p d, found? parent c path = some (p, d) ∧ d.fault? p = some fault) ∧
      ∀ earlier p d, earlier < path → found? parent c earlier = some (p, d) →
        d.fault? p = none := by
  induction c using induct generalizing parent path with
  | node c ih =>
    rw [firstFault?_eq] at h
    cases here : c.fault? parent with
    | some first =>
      rw [here] at h
      cases h
      exact ⟨⟨parent, c, rfl, here⟩,
        fun earlier _ _ before => absurd before (List.not_lt_nil earlier)⟩
    | none =>
      rw [here] at h
      obtain ⟨k, d, rest, rfl, child, first, before⟩ := firstFaultBelow?_eq_some h
      rw [Nat.zero_add]
      obtain ⟨⟨p, e, leads, faulty⟩, inner⟩ := ih d (List.mem_of_getElem? child) first
      refine ⟨⟨p, e, found?_cons_eq_some_iff.mpr ⟨d, child, leads⟩, faulty⟩, ?_⟩
      intro earlier q e' precedes leads'
      cases earlier with
      | nil =>
        cases leads'
        exact here
      | cons j earlier =>
        obtain ⟨d', child', later⟩ := found?_cons_eq_some_iff.mp leads'
        rcases List.cons_lt_cons_iff.mp precedes with less | ⟨rfl, less⟩
        · exact firstFault?_eq_none_iff_found.mp (before j d' less child') earlier q e' later
        · obtain rfl : d = d' := Option.some.inj (child.symm.trans child')
          exact inner earlier q e' less later

/-- **The check of integrity** accepts a well-formed tree if and only if all its nodes are in order.
Of any other it reports a path that leads from the root to a node out of order, while every node
before it in reading order is in order; and the text of the path names its indices. -/
theorem checkIntegrity_reports_first {t : Condition} (wf : WellFormed t) :
    (t.checkIntegrity = .ok () ↔
      ∀ path parent c, found? none t path = some (parent, c) → InOrder parent c) ∧
    (t.checkIntegrity ≠ .ok () → ∃ path fault,
      t.checkIntegrity = .error (.integrity path fault) ∧
      (∃ parent c, found? none t path = some (parent, c) ∧ ¬ InOrder parent c) ∧
      (∀ earlier parent c, earlier < path → found? none t earlier = some (parent, c) →
        InOrder parent c) ∧
      ∀ other, Error.pathText other = Error.pathText path → other = path) := by
  have ordered {path : List Nat} {p : Option Condition} {c : Condition}
      (leads : found? none t path = some (p, c)) : c.fault? p = none ↔ InOrder p c :=
    fault?_eq_none_iff_inOrder (wf.of_found leads)
  rw [Ne, checkIntegrity_eq_ok_iff]
  constructor
  · rw [firstFault?_eq_none_iff_found]
    exact forall₄_congr fun path p c leads => ordered leads
  · intro some
    obtain ⟨⟨path, fault⟩, found⟩ := Option.ne_none_iff_exists'.mp some
    obtain ⟨⟨p, c, leads, faulty⟩, first⟩ := firstFault?_eq_some found
    refine ⟨path, fault, by rw [checkIntegrity, found], ⟨p, c, leads, fun fine => ?_⟩, ?_, ?_⟩
    · rw [(ordered leads).mpr fine] at faulty
      cases faulty
    · exact fun earlier q d before leads' =>
        (ordered leads').mp (first earlier q d before leads')
    · exact fun other same => Error.pathText_injective same

/-- A tree with two faults: in its second child an allowance below a group, and its third child
compares with nothing. -/
def sampleFaults : Condition :=
  anyOf [byteIs 1,
    ⟨.calldata, .matches, [],
      [byteIs 1, anyOf [byteIs 2, ⟨.none, .etherWithinAllowance, List.replicate 32 0, []⟩]]⟩,
    ⟨.static, .equalTo, [], []⟩]

/-- Of two faults the first is reported. -/
theorem checkIntegrity_sampleFaults :
    WellFormed sampleFaults ∧
      sampleFaults.checkIntegrity =
        .error (.integrity [1, 1, 1] (.misplaced .etherWithinAllowance)) ∧
      (∃ parent c, found? none sampleFaults [1, 1, 1] = some (parent, c) ∧ ¬ InOrder parent c) ∧
      ∀ earlier parent c, earlier < [1, 1, 1] →
        found? none sampleFaults earlier = some (parent, c) → InOrder parent c := by
  have wf : WellFormed sampleFaults := by decide +kernel
  have reported : sampleFaults.checkIntegrity =
      .error (.integrity [1, 1, 1] (.misplaced .etherWithinAllowance)) := by
    decide +kernel
  obtain ⟨path, fault, reported', faulty, first, -⟩ :=
    (checkIntegrity_reports_first wf).2 (by rw [reported]; exact nofun)
  rw [reported] at reported'
  cases reported'
  exact ⟨wf, reported, faulty, first⟩

end Condition

end CallGuard
