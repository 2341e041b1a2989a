import CallGuard.Proofs.NormalForm

/-!
# What a run compares

`compared` lists the trees whose ids are looked at on the way to a normal form: the children that
groups gather, and of the branches of an alternation the matches of which one is to serve as a
model and the children that may stand at a hinge. That ids tell the trees of this list apart is
all that is ever asked of the hash.
-/

namespace CallGuard

namespace Condition

/-- The trees whose ids are compared to find a hinge. -/
def comparedBranches (bs : List Condition) : List Condition :=
  match commonOperator? bs with
  | some .matches => bs ++ (padded bs).flatMap children
  | some .and => bs.flatMap children
  | _ => []

/-- The trees whose ids are compared to settle a node. -/
def comparedAt (pushDown : Bool) (c : Condition) : List Condition :=
  (if c.operator.isSetLike then c.flatten.children else []) ++
    (if pushDown ∧ c.prepared.operator = .or then comparedBranches c.prepared.children else [])

/-- The trees whose ids are compared on the way to a normal form, for a bound on the depth of the
recursion. -/
def comparedWithin (pushDown : Bool) : (bound : Nat) → Condition → List Condition
  | 0, _ => []
  | bound + 1, c =>
    let e := assembled pushDown c
    c.children.flatMap (comparedWithin pushDown bound) ++ comparedAt pushDown e ++
      (replaced? pushDown e.prepared).elim [] (comparedWithin pushDown bound)

/-- The trees whose ids are compared on the way to the normal form of a tree. -/
def compared (pushDown : Bool) (c : Condition) : List Condition :=
  comparedWithin pushDown c.nodeCount c

theorem comparedWithin_eq {pushDown : Bool} {m n : Nat} {c : Condition} (wf : WellFormed c)
    (enough : c.nodeCount ≤ m) (enough' : c.nodeCount ≤ n) :
    comparedWithin pushDown m c = comparedWithin pushDown n c := by
  induction m generalizing n c with
  | zero =>
    have := c.nodeCount_pos
    omega
  | succ m ih =>
    obtain ⟨n, rfl⟩ := exists_succ_of_nodeCount_le enough'
    have children : c.children.flatMap (comparedWithin pushDown m) =
        c.children.flatMap (comparedWithin pushDown n) := by
      refine List.flatMap_congr fun d mem => ?_
      have := nodeCount_lt_of_mem mem
      exact ih (wf.children d mem) (by omega) (by omega)
    rw [comparedWithin, comparedWithin, children]
    cases found : replaced? pushDown (assembled pushDown c).prepared with
    | none => rfl
    | some d =>
      have := nodeCount_replaced?_lt wf found
      exact congrArg _ (ih ((wf.assembled pushDown).prepared.replaced? found) (by omega) (by omega))

/-- **What a run compares**: what the runs of the children do, what settling the node does, and
what the run of the node that replaces it does. -/
theorem compared_eq {pushDown : Bool} {c : Condition} (wf : WellFormed c) :
    compared pushDown c = c.children.flatMap (compared pushDown) ++
      comparedAt pushDown (assembled pushDown c) ++
      (replaced? pushDown (assembled pushDown c).prepared).elim [] (compared pushDown) := by
  obtain ⟨n, size⟩ := exists_succ_of_nodeCount_le (Nat.le_refl c.nodeCount)
  have children : c.children.flatMap (comparedWithin pushDown n) =
      c.children.flatMap (compared pushDown) := by
    refine List.flatMap_congr fun d mem => ?_
    have := nodeCount_lt_of_mem mem
    exact comparedWithin_eq (wf.children d mem) (by omega) (Nat.le_refl _)
  rw [compared, size, comparedWithin, children]
  cases found : replaced? pushDown (assembled pushDown c).prepared with
  | none => rfl
  | some d =>
    have := nodeCount_replaced?_lt wf found
    exact congrArg _ (comparedWithin_eq ((wf.assembled pushDown).prepared.replaced? found)
      (by omega) (Nat.le_refl _))

/-- To settle a node that is no group, nothing is compared. -/
theorem compared_of_not_isSetLike {pushDown : Bool} {c : Condition} (wf : WellFormed c)
    (h : ¬ c.operator.isSetLike) :
    compared pushDown c = c.children.flatMap (compared pushDown) := by
  have prepared : (assembled pushDown c).prepared.operator = c.operator := by
    rcases (wf.assembled pushDown).prepared_cases with ⟨assoc, -⟩ | ⟨-, eq⟩
    · exact absurd (isSetLike_of_isAssociative assoc) h
    · rw [eq, gathered_operator]
      rfl
  have other : ¬ (pushDown = true ∧ (assembled pushDown c).prepared.operator = .or) := by
    rw [prepared]
    exact fun both => h (both.2 ▸ rfl)
  rw [compared_eq wf, comparedAt, if_neg (by exact h), if_neg other, replaced?, if_neg other]
  simp

section CollisionFree

variable {pushDown : Bool} {c d : Condition}

theorem compared_child_subset (wf : WellFormed c) (h : d ∈ c.children) :
    compared pushDown d ⊆ compared pushDown c := by
  intro x mem
  rw [compared_eq wf]
  exact List.mem_append_left _ (List.mem_append_left _ (List.mem_flatMap.mpr ⟨d, h, mem⟩))

theorem compared_replacement_subset (wf : WellFormed c)
    (found : replaced? pushDown (assembled pushDown c).prepared = some d) :
    compared pushDown d ⊆ compared pushDown c := by
  intro x mem
  rw [compared_eq wf, found]
  exact List.mem_append_right _ mem

theorem comparedAt_subset (wf : WellFormed c) :
    comparedAt pushDown (assembled pushDown c) ⊆ compared pushDown c := by
  intro x mem
  rw [compared_eq wf]
  exact List.mem_append_left _ (List.mem_append_right _ mem)

theorem CollisionFree.child (free : CollisionFree (compared pushDown c)) (wf : WellFormed c)
    (h : d ∈ c.children) : CollisionFree (compared pushDown d) :=
  free.mono (compared_child_subset wf h)

theorem CollisionFree.replacement (free : CollisionFree (compared pushDown c)) (wf : WellFormed c)
    (found : replaced? pushDown (assembled pushDown c).prepared = some d) :
    CollisionFree (compared pushDown d) :=
  free.mono (compared_replacement_subset wf found)

theorem CollisionFree.at (free : CollisionFree (compared pushDown c)) (wf : WellFormed c) :
    CollisionFree (comparedAt pushDown (assembled pushDown c)) :=
  free.mono (comparedAt_subset wf)

theorem CollisionFree.group (free : CollisionFree (comparedAt pushDown c))
    (h : c.operator.isSetLike) : CollisionFree c.flatten.children := by
  refine free.mono fun x mem => ?_
  rw [comparedAt, if_pos h]
  exact List.mem_append_left _ mem

theorem CollisionFree.branches (free : CollisionFree (comparedAt pushDown c))
    (on : pushDown) (h : c.prepared.operator = .or) :
    CollisionFree (comparedBranches c.prepared.children) := by
  refine free.mono fun x mem => ?_
  rw [comparedAt, if_pos (show _ ∧ _ from ⟨on, h⟩)]
  exact List.mem_append_right _ mem

end CollisionFree

/-- Induction on the normal form of a tree whose run compares no two different trees with the same
id. -/
theorem normalForm_induct_free {pushDown : Bool} {motive : Condition → Condition → Prop}
    (replaced : ∀ c d, WellFormed c → CollisionFree (compared pushDown c) →
      (∀ e ∈ c.children, motive e (normalForm pushDown e)) →
      replaced? pushDown (assembled pushDown c).prepared = some d → WellFormed d →
      motive d (normalForm pushDown d) → motive c (normalForm pushDown d))
    (settled : ∀ c, WellFormed c → CollisionFree (compared pushDown c) →
      (∀ e ∈ c.children, motive e (normalForm pushDown e)) →
      replaced? pushDown (assembled pushDown c).prepared = none →
      motive c (assembled pushDown c).prepared.sort)
    {c : Condition} (wf : WellFormed c) (free : CollisionFree (compared pushDown c)) :
    motive c (normalForm pushDown c) := by
  have all {c : Condition} (wf : WellFormed c) :
      CollisionFree (compared pushDown c) → motive c (normalForm pushDown c) := by
    refine normalForm_induct (motive := fun c n => CollisionFree (compared pushDown c) → motive c n)
      (fun c d wf below found wfD again free => ?_) (fun c wf below found free => ?_) wf
    · exact replaced c d wf free (fun e mem => below e mem (free.child wf mem)) found wfD
        (again (free.replacement wf found))
    · exact settled c wf free (fun e mem => below e mem (free.child wf mem)) found
  exact all wf free

/-! ### A sample -/

/-- A component that is a given byte. -/
def byteIs (b : UInt8) : Condition :=
  ⟨.static, .equalTo, [b], []⟩

/-- A call of components that are asked for, within an allowance of the whole call. -/
def allowedCall (components : List Condition) : Condition :=
  ⟨.calldata, .matches, [],
    components ++ [⟨.none, .etherWithinAllowance, List.replicate 32 0, []⟩]⟩

/-- Two calls that differ in one component, the second written with a free one at the end. -/
def sampleCalls : Condition :=
  anyOf [allowedCall [byteIs 1, byteIs 2], allowedCall [byteIs 1, byteIs 3, pass .static]]

/-- The same calls as one. -/
def sampleCall : Condition :=
  allowedCall [byteIs 1, anyOf [byteIs 2, byteIs 3]]

end Condition

end CallGuard
