import CallGuard.Proofs.Interchange
import CallGuard.Proofs.Packing

/-!
# Clean drafts

A draft is read as a tree with or without being cleaned first. Cleaning takes away what is given
and yet empty, and nothing that is read depends on that: the operand of a node reads the same, and
its children are as many and stand in the same order. `FirstFault` leads to the node at which the
reading of a draft ends, and `clean_reads_alike` says that a draft and its clean form write the same
tree, or end at the same node with the same error.
-/

namespace CallGuard

namespace Draft

/-- The children of a draft; none are the same as an empty list of them. -/
def parts (d : Draft) : List Draft :=
  d.children.getD []

/-- The path to the node at which the reading of a draft ends, with its error. The operand of a node
is read first, then its children one after the other, and last the node is put together. -/
inductive FirstFault : Draft → List Nat → Error → Prop where
  /-- The operand of the node cannot be read. -/
  | operand {d : Draft} {e : Error} (fault : operand d.compValue = .error e) : FirstFault d [] e
  /-- The operand can be read and so can all children before one, and the reading of that one ends
  somewhere. -/
  | child {d c : Draft} {bytes : Bytes} {i : Nat} {path : List Nat} {e : Error}
    (read : operand d.compValue = .ok bytes)
    (before : ∀ b ∈ d.parts.take i, ∃ t, b.toCondition = .ok t)
    (child : d.parts[i]? = some c) (fault : FirstFault c path e) : FirstFault d (i :: path) e
  /-- The operand and all children can be read, and do not make a node. -/
  | shape {d : Draft} {bytes : Bytes} {conditions : List Condition} {e : Error}
    (read : operand d.compValue = .ok bytes) (below : toConditions d.parts = .ok conditions)
    (fault : Condition.make d.paramType d.operator bytes conditions = .error e) :
    FirstFault d [] e

/-! ### Reading a node -/

theorem toCondition_eq (d : Draft) : d.toCondition = (do
    let bytes ← operand d.compValue
    let conditions ← toConditions d.parts
    Condition.make d.paramType d.operator bytes conditions) := by
  obtain ⟨p, op, v, ds⟩ := d
  cases ds with
  | none => rw [toCondition]; rfl
  | some ds => rw [toCondition]; rfl

/-- Induction on drafts by their children. -/
theorem induct_parts {motive : Draft → Prop}
    (node : ∀ d : Draft, (∀ c ∈ d.parts, motive c) → motive d) (d : Draft) : motive d := by
  induction d using induct with
  | leaf p op v =>
    apply node
    intro c mem
    cases mem
  | node p op v ds ih => exact node ⟨p, op, v, some ds⟩ ih

theorem toConditions_cons_eq_error_iff {d : Draft} {ds : List Draft} {e : Error} :
    toConditions (d :: ds) = .error e ↔
      d.toCondition = .error e ∨ (∃ t, d.toCondition = .ok t) ∧ toConditions ds = .error e := by
  simp [toConditions, bind_eq_error_iff]

/-- The reading of drafts one after the other ends at the first that cannot be read. -/
theorem toConditions_eq_error_iff {ds : List Draft} {e : Error} : toConditions ds = .error e ↔
    ∃ i d, ds[i]? = some d ∧ (∀ b ∈ ds.take i, ∃ t, b.toCondition = .ok t) ∧
      d.toCondition = .error e := by
  induction ds with
  | nil => simp [toConditions]
  | cons d ds ih =>
    rw [toConditions_cons_eq_error_iff, ih]
    constructor
    · rintro (fails | ⟨read, i, c, child, before, fails⟩)
      · exact ⟨0, d, rfl, by simp, fails⟩
      · refine ⟨i + 1, c, child, ?_, fails⟩
        rw [List.take_succ_cons, List.forall_mem_cons]
        exact ⟨read, before⟩
    · rintro ⟨i, c, child, before, fails⟩
      cases i with
      | zero =>
        cases child
        exact .inl fails
      | succ i =>
        rw [List.take_succ_cons, List.forall_mem_cons] at before
        exact .inr ⟨before.1, i, c, child, before.2, fails⟩

theorem toConditions_congr {ds : List Draft} {f : Draft → Draft}
    (each : ∀ d ∈ ds, (f d).toCondition = d.toCondition) :
    toConditions (ds.map f) = toConditions ds := by
  induction ds with
  | nil => rfl
  | cons d ds ih =>
    obtain ⟨here, later⟩ := List.forall_mem_cons.mp each
    rw [List.map_cons, toConditions, toConditions, here, ih later]

/-! ### The first fault -/

theorem firstFault_nil_iff {d : Draft} {e : Error} : FirstFault d [] e ↔
    operand d.compValue = .error e ∨ ∃ bytes conditions, operand d.compValue = .ok bytes ∧
      toConditions d.parts = .ok conditions ∧
      Condition.make d.paramType d.operator bytes conditions = .error e := by
  constructor
  · intro h
    cases h with
    | operand fault => exact .inl fault
    | shape read below fault => exact .inr ⟨_, _, read, below, fault⟩
  · rintro (fault | ⟨bytes, conditions, read, below, fault⟩)
    · exact .operand fault
    · exact .shape read below fault

theorem firstFault_cons_iff {d : Draft} {i : Nat} {path : List Nat} {e : Error} :
    FirstFault d (i :: path) e ↔ (∃ bytes, operand d.compValue = .ok bytes) ∧
      (∀ b ∈ d.parts.take i, ∃ t, b.toCondition = .ok t) ∧
      ∃ c, d.parts[i]? = some c ∧ FirstFault c path e := by
  constructor
  · intro h
    cases h with
    | child read before child fault => exact ⟨⟨_, read⟩, before, _, child, fault⟩
  · rintro ⟨⟨bytes, read⟩, before, c, child, fault⟩
    exact .child read before child fault

/-- **The reading of a draft ends** with an error if and only if it has a first fault. -/
theorem toCondition_eq_error_iff {d : Draft} {e : Error} :
    d.toCondition = .error e ↔ ∃ path, FirstFault d path e := by
  induction d using induct_parts with
  | node d ih =>
    rw [toCondition_eq, bind_eq_error_iff]
    constructor
    · rintro (fault | ⟨bytes, read, later⟩)
      · exact ⟨[], .operand fault⟩
      rcases bind_eq_error_iff.mp later with fails | ⟨conditions, below, fault⟩
      · obtain ⟨i, c, child, before, fails⟩ := toConditions_eq_error_iff.mp fails
        obtain ⟨path, fault⟩ := (ih c (List.mem_of_getElem? child)).mp fails
        exact ⟨i :: path, .child read before child fault⟩
      · exact ⟨[], .shape read below fault⟩
    · rintro ⟨path, h⟩
      cases h with
      | operand fault => exact .inl fault
      | child read before child fault =>
        have fails := (ih _ (List.mem_of_getElem? child)).mpr ⟨_, fault⟩
        have ends := toConditions_eq_error_iff.mpr ⟨_, _, child, before, fails⟩
        exact .inr ⟨_, read, bind_eq_error_iff.mpr (.inl ends)⟩
      | shape read below fault =>
        exact .inr ⟨_, read, bind_eq_error_iff.mpr (.inr ⟨_, below, fault⟩)⟩

/-- All children before one can be read, and so none of them has a fault. -/
theorem FirstFault.le_of_before {d c : Draft} {i j : Nat} {path : List Nat} {e : Error}
    (h : FirstFault c path e) (child : d.parts[i]? = some c)
    (before : ∀ b ∈ d.parts.take j, ∃ t, b.toCondition = .ok t) : j ≤ i := by
  by_contra early
  have inside : (d.parts.take j)[i]? = some c := by
    rw [List.getElem?_take_of_lt (by omega), child]
  obtain ⟨t, read⟩ := before c (List.mem_of_getElem? inside)
  rw [toCondition_eq_error_iff.mpr ⟨path, h⟩] at read
  cases read

/-- A draft has one first fault. -/
theorem FirstFault.path_eq {d : Draft} {path other : List Nat} {e e' : Error}
    (h : FirstFault d path e) (h' : FirstFault d other e') : path = other := by
  induction h generalizing other with
  | operand fault =>
    cases h' with
    | operand fault' => rfl
    | child read' before' child' fault' => cases fault.symm.trans read'
    | shape read' below' fault' => rfl
  | child read before child fault ih =>
    cases h' with
    | operand fault' => cases read.symm.trans fault'
    | child read' before' child' fault' =>
      cases Nat.le_antisymm (fault'.le_of_before child' before) (fault.le_of_before child before')
      cases child.symm.trans child'
      rw [ih fault']
    | shape read' below' fault' =>
      have fails := toCondition_eq_error_iff.mpr ⟨_, fault⟩
      cases below'.symm.trans (toConditions_eq_error_iff.mpr ⟨_, _, child, before, fails⟩)
  | shape read below fault =>
    cases h' with
    | operand fault' => rfl
    | child read' before' child' fault' =>
      have fails := toCondition_eq_error_iff.mpr ⟨_, fault'⟩
      cases below.symm.trans (toConditions_eq_error_iff.mpr ⟨_, _, child', before', fails⟩)
    | shape read' below' fault' => rfl

/-! ### Cleaning -/

theorem clean_eq (d : Draft) : d.clean =
    ⟨d.paramType, d.operator, cleanOperand d.compValue, nonempty (d.parts.map clean)⟩ := by
  obtain ⟨p, op, v, ds⟩ := d
  cases ds with
  | none => rw [clean]; rfl
  | some ds => rw [clean, cleanAll_eq_map]; rfl

@[simp] theorem clean_paramType (d : Draft) : d.clean.paramType = d.paramType := by
  rw [clean_eq]

@[simp] theorem clean_operator (d : Draft) : d.clean.operator = d.operator := by
  rw [clean_eq]

@[simp] theorem clean_compValue (d : Draft) : d.clean.compValue = cleanOperand d.compValue := by
  rw [clean_eq]

/-- Cleaning drops no child. -/
@[simp] theorem parts_clean (d : Draft) : d.clean.parts = d.parts.map clean := by
  rw [clean_eq, parts]
  by_cases none : d.parts = []
  · simp [none, nonempty]
  · rw [nonempty_of_ne_nil (by simpa using none), Option.getD_some]

/-- An operand that is left out reads as the empty one. -/
@[simp] theorem operand_cleanOperand (v : Option String) :
    operand (cleanOperand v) = operand v := by
  cases v with
  | none => rfl
  | some text =>
    by_cases empty : isEmptyOperand text
    · have texts : text = "" ∨ text = "0x" ∨ text = "0X" := by
        simpa [isEmptyOperand, or_assoc] using empty
      have gone : cleanOperand (some text) = none := by simp [cleanOperand, empty]
      rw [gone]
      rcases texts with rfl | rfl | rfl <;> rfl
    · rw [cleanOperand, Option.filter_some, if_pos (by simpa using empty)]

@[simp] theorem cleanOperand_cleanOperand (v : Option String) :
    cleanOperand (cleanOperand v) = cleanOperand v := by
  simp [cleanOperand, Option.filter_filter]

theorem toCondition_clean (d : Draft) : d.clean.toCondition = d.toCondition := by
  induction d using induct_parts with
  | node d ih =>
    rw [toCondition_eq, toCondition_eq d]
    simp [toConditions_congr ih]

theorem firstFault_clean_iff {d : Draft} {path : List Nat} {e : Error} :
    FirstFault d.clean path e ↔ FirstFault d path e := by
  induction d using induct_parts generalizing path with
  | node d ih =>
    cases path with
    | nil =>
      have below : toConditions (d.parts.map clean) = toConditions d.parts :=
        toConditions_congr fun c _ => toCondition_clean c
      simp [firstFault_nil_iff, below]
    | cons i path =>
      have child : (∃ c, (d.parts.map clean)[i]? = some c ∧ FirstFault c path e) ↔
          ∃ c, d.parts[i]? = some c ∧ FirstFault c path e := by
        rw [List.getElem?_map]
        cases found : d.parts[i]? with
        | none => simp
        | some c => simp [ih c (List.mem_of_getElem? found)]
      rw [firstFault_cons_iff, firstFault_cons_iff, parts_clean, child]
      simp [← List.map_take, toCondition_clean]

theorem clean_clean (d : Draft) : d.clean.clean = d.clean := by
  induction d using induct_parts with
  | node d ih =>
    have below : (d.parts.map clean).map clean = d.parts.map clean := by
      rw [List.map_map]
      exact List.map_congr_left ih
    rw [clean_eq d.clean, parts_clean, below, clean_eq d]
    simp

/-- **Cleaning changes nothing that is read.** A draft and its clean form write the same tree, or
their reading ends with the same error. An error comes from exactly one node, the first fault in
reading order, and it is the same one in both. Cleaning again changes nothing. -/
theorem clean_reads_alike (d : Draft) :
    d.clean.toCondition = d.toCondition ∧
    (∀ e, d.toCondition = .error e ↔ ∃! path, FirstFault d path e) ∧
    (∀ path e, FirstFault d.clean path e ↔ FirstFault d path e) ∧
    d.clean.clean = d.clean := by
  refine ⟨toCondition_clean d, ?_, fun path e => firstFault_clean_iff, clean_clean d⟩
  intro e
  rw [toCondition_eq_error_iff]
  constructor
  · rintro ⟨path, fault⟩
    refine ⟨path, fault, ?_⟩
    intro other fault'
    exact fault'.path_eq fault
  · rintro ⟨path, fault, -⟩
    exact ⟨path, fault⟩

end Draft

end CallGuard
