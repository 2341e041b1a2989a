import CallGuard.Proofs.Interchange
import CallGuard.Proofs.Results
import CallGuard.Proofs.Shrinking

/-!
# What is read is not too deep

Whatever the text, a draft that is read from it is nested no deeper than is allowed, so that a tree
that is read has at most 64 levels and is well-formed (`parseTree_ok`). The functions that read
nodes call each other with smaller bounds; what holds of all of them at once is `ReadsShallow`.
-/

namespace CallGuard

namespace Draft

open Json

/-! ### Reading -/

/-- Fields of a node at a level, whose children, once they are given, are not nested too deep. -/
def Fields.Shallow (level : Nat) (fields : Fields) : Prop :=
  ∀ ds, fields.children.join = some ds → nestingAll ds + 1 ≤ level

/-- What is read with a bound is not nested deeper than is allowed. -/
structure ReadsShallow (bound : Nat) : Prop where
  node {level tokens d rest} : readNode bound level tokens = .ok (d, rest) → d.nesting ≤ level
  field {level fields tokens d rest} : Fields.Shallow level fields →
    readField bound level fields tokens = .ok (d, rest) → d.nesting ≤ level + 1
  more {level fields tokens d rest} : Fields.Shallow level fields →
    readMore bound level fields tokens = .ok (d, rest) → d.nesting ≤ level + 1
  children {level tokens ds rest} : readChildren bound level tokens = .ok (some ds, rest) →
    nestingAll ds + 1 ≤ level
  elements {level tokens ds rest} : readElements bound level tokens = .ok (ds, rest) →
    nestingAll ds ≤ level
  tuple {level tokens d rest} : readTuple bound level tokens = .ok (d, rest) →
    d.nesting ≤ level + 1

theorem shallow_none (level : Nat) {fields : Fields} (none : fields.children.join = none) :
    fields.Shallow level :=
  fun ds found => by rw [none] at found; cases found

/-- The node of some fields is nested one deeper than its level. -/
theorem nesting_of_endNode {level : Nat} {fields : Fields} (shallow : fields.Shallow level)
    {d : Draft} {before rest : List Token} (h : endNode fields before = .ok (d, rest)) :
    d.nesting ≤ level + 1 := by
  unfold endNode Fields.draft at h
  split at h
  · rename_i made
    split at made
    · cases made
    · cases made
    · cases made
      cases h
      cases found : fields.children.join with
      | none => exact Nat.le_add_left _ _
      | some ds => exact Nat.succ_le_succ (shallow ds found)
  · cases h

section Step

variable {bound level : Nat} {fields : Fields} {tokens rest : List Token} {d : Draft}
  {ds : List Draft}

theorem nesting_of_readNode (below : ∀ b, bound = b + 1 → ReadsShallow b)
    (h : readNode bound level tokens = .ok (d, rest)) : d.nesting ≤ level := by
  unfold readNode at h
  split at h
  · exact nesting_of_endNode (shallow_none _ rfl) h
  · cases h
  · exact (below _ rfl).field (shallow_none _ rfl) h
  · exact (below _ rfl).tuple h
  all_goals cases h

theorem nesting_of_readField (below : ∀ b, bound = b + 1 → ReadsShallow b)
    (shallow : fields.Shallow level) (h : readField bound level fields tokens = .ok (d, rest)) :
    d.nesting ≤ level + 1 := by
  unfold readField at h
  split at h
  case h_1 | h_2 | h_3 =>
    split at h
    · cases h
    · obtain ⟨_, -, h⟩ := bind_eq_ok_iff.mp h
      obtain ⟨⟨_, _⟩, -, h⟩ := bind_eq_ok_iff.mp h
      exact (below _ rfl).more (by exact shallow) h
  case h_4 =>
    split at h
    · cases h
    · obtain ⟨_, -, h⟩ := bind_eq_ok_iff.mp h
      obtain ⟨⟨ds?, _⟩, children, h⟩ := bind_eq_ok_iff.mp h
      refine (below _ rfl).more (fun ds found => ?_) h
      cases (found : ds? = some ds)
      exact (below _ rfl).children children
  case h_5 =>
    obtain ⟨_, -, h⟩ := bind_eq_ok_iff.mp h
    obtain ⟨_, -, h⟩ := bind_eq_ok_iff.mp h
    exact (below _ rfl).more shallow h
  case h_6 | h_7 => cases h

theorem nesting_of_readMore (below : ∀ b, bound = b + 1 → ReadsShallow b)
    (shallow : fields.Shallow level) (h : readMore bound level fields tokens = .ok (d, rest)) :
    d.nesting ≤ level + 1 := by
  unfold readMore at h
  split at h
  · exact (below _ rfl).field shallow h
  · exact nesting_of_endNode shallow h
  · cases h

theorem nesting_of_readChildren (below : ∀ b, bound = b + 1 → ReadsShallow b)
    (h : readChildren bound level tokens = .ok (some ds, rest)) : nestingAll ds + 1 ≤ level := by
  unfold readChildren at h
  split at h
  · cases h
  · cases h
    exact Nat.le_add_left _ _
  · cases h
  · obtain ⟨_, elements, h⟩ := bind_eq_ok_iff.mp h
    cases h
    exact Nat.succ_le_succ ((below _ rfl).elements elements)
  · cases h
  · cases h

theorem nesting_of_readElements (below : ∀ b, bound = b + 1 → ReadsShallow b)
    (h : readElements bound level tokens = .ok (ds, rest)) : nestingAll ds ≤ level := by
  unfold readElements at h
  split at h
  · obtain ⟨⟨d, _⟩, first, h⟩ := bind_eq_ok_iff.mp h
    have here := (below _ rfl).node first
    obtain ⟨⟨more, _⟩, -, h⟩ := bind_eq_ok_iff.mp h
    cases more with
    | true =>
      obtain ⟨_, others, h⟩ := bind_eq_ok_iff.mp h
      cases h
      exact Nat.max_le.mpr ⟨here, (below _ rfl).elements others⟩
    | false =>
      cases h
      exact Nat.max_le.mpr ⟨here, Nat.zero_le _⟩
  · cases h

theorem nesting_of_readTuple (below : ∀ b, bound = b + 1 → ReadsShallow b)
    (h : readTuple bound level tokens = .ok (d, rest)) : d.nesting ≤ level + 1 := by
  unfold readTuple at h
  split at h
  · cases h
  · cases h
  · obtain ⟨⟨_, _⟩, -, h⟩ := bind_eq_ok_iff.mp h
    obtain ⟨⟨_ | _, _⟩, -, h⟩ := bind_eq_ok_iff.mp h
    · cases h
    obtain ⟨⟨_, _⟩, -, h⟩ := bind_eq_ok_iff.mp h
    obtain ⟨⟨_ | _, _⟩, -, h⟩ := bind_eq_ok_iff.mp h
    · cases h
      exact Nat.le_add_left _ _
    obtain ⟨⟨_, _⟩, -, h⟩ := bind_eq_ok_iff.mp h
    obtain ⟨⟨_ | _, _⟩, -, h⟩ := bind_eq_ok_iff.mp h
    · cases h
      exact Nat.le_add_left _ _
    obtain ⟨⟨ds?, _⟩, children, h⟩ := bind_eq_ok_iff.mp h
    obtain ⟨_, -, h⟩ := bind_eq_ok_iff.mp h
    cases h
    cases ds? with
    | none => exact Nat.le_add_left _ _
    | some ds => exact Nat.succ_le_succ ((below _ rfl).children children)
  · cases h

end Step

/-- Reading never goes deeper than is allowed, whatever the bound on its steps. -/
theorem readsShallow (bound : Nat) : ReadsShallow bound := by
  induction bound with
  | zero =>
    have below : ∀ b, 0 = b + 1 → ReadsShallow b := nofun
    exact ⟨nesting_of_readNode below, nesting_of_readField below, nesting_of_readMore below,
      nesting_of_readChildren below, nesting_of_readElements below, nesting_of_readTuple below⟩
  | succ bound ih =>
    have below : ∀ b, bound + 1 = b + 1 → ReadsShallow b := fun b same => Nat.succ.inj same ▸ ih
    exact ⟨nesting_of_readNode below, nesting_of_readField below, nesting_of_readMore below,
      nesting_of_readChildren below, nesting_of_readElements below, nesting_of_readTuple below⟩

/-- **A draft that is read is not nested too deep.** -/
theorem nesting_of_parse {text : String} {d : Draft} (h : parse text = .ok d) :
    d.nesting ≤ maxNesting := by
  obtain ⟨⟨d', rest⟩, read, h⟩ := bind_eq_ok_iff.mp (mapError_eq_ok_iff.mp h)
  cases rest with
  | nil =>
    cases h
    exact (readsShallow _).node read
  | cons => cases h

/-! ### Trees -/

/-- What is left out of a draft was not nested deeper. -/
theorem nesting_clean_le (d : Draft) : d.clean.nesting ≤ d.nesting := by
  induction d using induct with
  | leaf p op v => exact Nat.le_refl _
  | node p op v ds ih =>
    have children : nestingAll (cleanAll ds) ≤ nestingAll ds := by
      induction ds with
      | nil => exact Nat.le_refl _
      | cons d ds ih' =>
        obtain ⟨here, later⟩ := List.forall_mem_cons.mp ih
        have := ih' later
        rw [cleanAll, nestingAll, nestingAll]
        omega
    rw [clean]
    by_cases none : cleanAll ds = []
    · rw [none, nonempty_nil, nesting, nesting]
      omega
    · rw [nonempty_of_ne_nil none, nesting, nesting]
      omega

/-- A tree that is well-formed and no deeper than what is nested in its text. -/
def Fits (nested : Nat) (c : Condition) : Prop :=
  c.WellFormed ∧ 2 * c.depth ≤ nested + 1

theorem Fits.mono {nested more : Nat} {c : Condition} (h : Fits nested c) (le : nested ≤ more) :
    Fits more c :=
  ⟨h.1, h.2.trans (Nat.succ_le_succ le)⟩

theorem toConditions_ok {ds : List Draft} {cs : List Condition}
    (each : ∀ d ∈ ds, ∀ c, d.toCondition = .ok c → Fits d.nesting c)
    (h : toConditions ds = .ok cs) : ∀ c ∈ cs, Fits (nestingAll ds) c := by
  induction ds generalizing cs with
  | nil =>
    cases h
    exact List.forall_mem_nil _
  | cons d ds ih =>
    obtain ⟨here, later⟩ := List.forall_mem_cons.mp each
    obtain ⟨c, first, h⟩ := bind_eq_ok_iff.mp h
    obtain ⟨cs, others, h⟩ := bind_eq_ok_iff.mp h
    cases h
    exact List.forall_mem_cons.mpr ⟨(here c first).mono (Nat.le_max_left _ _),
      fun c' mem => (ih later others c' mem).mono (Nat.le_max_right _ _)⟩

/-- A tree that is put together from a draft is well-formed and no deeper than the draft. -/
theorem toCondition_ok {d : Draft} {c : Condition} (h : d.toCondition = .ok c) :
    Fits d.nesting c := by
  induction d using induct generalizing c with
  | leaf p op v =>
    obtain ⟨bytes, -, h⟩ := bind_eq_ok_iff.mp h
    refine ⟨Condition.wellFormed_of_make h (List.forall_mem_nil _), ?_⟩
    obtain ⟨-, rfl⟩ := Condition.make_eq_ok_iff.mp h
    exact Nat.le_refl _
  | node p op v ds ih =>
    obtain ⟨bytes, -, h⟩ := bind_eq_ok_iff.mp h
    obtain ⟨cs, children, h⟩ := bind_eq_ok_iff.mp h
    have each := toConditions_ok (fun d mem c made => ih d mem made) children
    refine ⟨Condition.wellFormed_of_make h fun c mem => (each c mem).1, ?_⟩
    obtain ⟨-, rfl⟩ := Condition.make_eq_ok_iff.mp h
    have levels : Condition.depth ⟨p, op, bytes, cs⟩ ≤ (nestingAll ds + 1) / 2 + 1 :=
      Condition.depth_le_succ_iff.mpr fun c mem => by
        have := (each c mem).2
        omega
    rw [nesting]
    omega

end Draft

namespace CommandLine

/-- **A tree that is read** is well-formed and has at most 64 levels. -/
theorem parseTree_ok {text : String} {c : Condition} (h : parseTree text = .ok c) :
    c.WellFormed ∧ c.depth ≤ 64 := by
  unfold parseTree at h
  split at h
  · cases h
  · rename_i d read
    obtain ⟨wf, levels⟩ := Draft.toCondition_ok (mapError_eq_ok_iff.mp h)
    have nested : d.nesting ≤ 127 := Draft.nesting_of_parse read
    have cleaned := d.nesting_clean_le
    exact ⟨wf, by omega⟩

theorem loadTree_ok {s : Surroundings} {path : String} {c : Condition}
    (h : loadTree s path = .ok c) : c.WellFormed ∧ c.depth ≤ 64 := by
  unfold loadTree at h
  split at h
  · cases h
  · exact parseTree_ok (mapError_eq_ok_iff.mp h)

theorem loadTrees_ok {s : Surroundings} {paths : List String} {cs : List Condition}
    (h : loadTrees s paths = .ok cs) : ∀ c ∈ cs, c.WellFormed ∧ c.depth ≤ 64 := by
  induction paths generalizing s cs with
  | nil =>
    cases h
    exact List.forall_mem_nil _
  | cons path paths ih =>
    obtain ⟨c, first, h⟩ := bind_eq_ok_iff.mp h
    obtain ⟨cs, others, h⟩ := bind_eq_ok_iff.mp h
    cases h
    exact List.forall_mem_cons.mpr ⟨loadTree_ok (mapError_eq_ok_iff.mp first), ih others⟩

theorem length_of_loadTrees {s : Surroundings} {paths : List String} {cs : List Condition}
    (h : loadTrees s paths = .ok cs) : cs.length = paths.length := by
  induction paths generalizing s cs with
  | nil =>
    cases h
    rfl
  | cons path paths ih =>
    obtain ⟨c, -, h⟩ := bind_eq_ok_iff.mp h
    obtain ⟨cs, others, h⟩ := bind_eq_ok_iff.mp h
    cases h
    exact congrArg Nat.succ (ih others)

end CommandLine

end CallGuard
