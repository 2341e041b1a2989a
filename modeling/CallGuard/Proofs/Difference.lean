import CallGuard.Proofs.Meeting
import CallGuard.Proofs.Runs

/-!
# Laws of subtraction

Subtraction goes down the condition: from an alternation to its branches, and from a node that the
fragment meets to the child at that place. `difference_induct` is induction along this recursion.
The checked run goes the same way, and on well-formed trees it ends without an error and with the
difference (`subtract_eq`).
-/

namespace CallGuard

namespace Condition

/-! ### The recursion -/

/-- A step of subtraction, for what is left of smaller conditions. -/
def subtractAt (again : Condition → Condition → Subtraction) (c fragment : Condition) :
    Subtraction :=
  if c.id = fragment.id then .empty
  else if c.operator = .or then
    if fragment.operator = .or then subtractBranches c fragment
    else c.collected (c.children.map fun d => (d, again d fragment))
  else
    match meeting? c fragment with
    | some m => m.replaced (again m.own m.part)
    | none => .unchanged

section Bounded

variable {β : Type} {within : Nat → Condition → Condition → β}
  {step : (Condition → Condition → β) → Condition → Condition → β}

/-- A bounded recursion down the condition has one value for all bounds that are large enough. -/
theorem bounded_eq (succ : ∀ bound c f, within (bound + 1) c f = step (within bound) c f)
    (congr : ∀ again again' c f, (∀ d ∈ c.children, again d f = again' d f) →
      (∀ m, meeting? c f = some m → again m.own m.part = again' m.own m.part) →
      step again c f = step again' c f)
    {m n : Nat} {c f : Condition} (wf : WellFormed c) (wfF : WellFormed f)
    (enough : c.nodeCount ≤ m) (enough' : c.nodeCount ≤ n) : within m c f = within n c f := by
  induction m generalizing n c f with
  | zero =>
    have := c.nodeCount_pos
    omega
  | succ m ih =>
    obtain ⟨n, rfl⟩ := exists_succ_of_nodeCount_le enough'
    rw [succ, succ]
    refine congr _ _ c f (fun d mem => ?_) fun found at_ => ?_
    · have := nodeCount_lt_of_mem mem
      exact ih (wf.children d mem) wfF (by omega) (by omega)
    · have meets := meets_of_meeting? wf wfF at_
      have := meets.nodeCount_lt wf
      obtain ⟨-, wfOwn, wfPart⟩ := meets.wellFormed wf wfF
      exact ih wfOwn wfPart (by omega) (by omega)

/-- The recursion without the bound. -/
theorem unbounded_eq (succ : ∀ bound c f, within (bound + 1) c f = step (within bound) c f)
    (congr : ∀ again again' c f, (∀ d ∈ c.children, again d f = again' d f) →
      (∀ m, meeting? c f = some m → again m.own m.part = again' m.own m.part) →
      step again c f = step again' c f)
    {c f : Condition} (wf : WellFormed c) (wfF : WellFormed f) :
    within c.nodeCount c f = step (fun d g => within d.nodeCount d g) c f := by
  obtain ⟨n, size⟩ := exists_succ_of_nodeCount_le (Nat.le_refl c.nodeCount)
  rw [size, succ]
  refine congr _ _ c f (fun d mem => ?_) fun found at_ => ?_
  · have := nodeCount_lt_of_mem mem
    exact bounded_eq succ congr (wf.children d mem) wfF (by omega) (Nat.le_refl _)
  · have meets := meets_of_meeting? wf wfF at_
    have := meets.nodeCount_lt wf
    obtain ⟨-, wfOwn, wfPart⟩ := meets.wellFormed wf wfF
    exact bounded_eq succ congr wfOwn wfPart (by omega) (Nat.le_refl _)

end Bounded

theorem subtractAt_congr (again again' : Condition → Condition → Subtraction) (c f : Condition)
    (below : ∀ d ∈ c.children, again d f = again' d f)
    (met : ∀ m, meeting? c f = some m → again m.own m.part = again' m.own m.part) :
    subtractAt again c f = subtractAt again' c f := by
  have children : (c.children.map fun d => (d, again d f)) =
      c.children.map fun d => (d, again' d f) :=
    List.map_congr_left fun d mem => by rw [below d mem]
  unfold subtractAt
  rw [children]
  cases found : meeting? c f with
  | none => rfl
  | some m => simp only [met m found]

/-- **The recursion of subtraction.** -/
theorem difference_eq {c f : Condition} (wf : WellFormed c) (wfF : WellFormed f) :
    difference c f = subtractAt difference c f :=
  unbounded_eq (fun _ _ _ => rfl) subtractAt_congr wf wfF

/-- **Induction on subtraction**, with a case for each way in which a step can go. -/
theorem difference_induct {motive : Condition → Condition → Subtraction → Prop}
    (same : ∀ c f, WellFormed c → WellFormed f → c.id = f.id → motive c f .empty)
    (branches : ∀ c f, WellFormed c → WellFormed f → c.id ≠ f.id → c.operator = .or →
      f.operator = .or → motive c f (subtractBranches c f))
    (each : ∀ c f, WellFormed c → WellFormed f → c.id ≠ f.id → c.operator = .or →
      f.operator ≠ .or → (∀ d ∈ c.children, motive d f (difference d f)) →
      motive c f (c.collected (c.children.map fun d => (d, difference d f))))
    (met : ∀ c f m, WellFormed c → WellFormed f → c.id ≠ f.id → c.operator ≠ .or →
      meeting? c f = some m → motive m.own m.part (difference m.own m.part) →
      motive c f (m.replaced (difference m.own m.part)))
    (apart : ∀ c f, WellFormed c → WellFormed f → c.id ≠ f.id → c.operator ≠ .or →
      meeting? c f = none → motive c f .unchanged)
    {c f : Condition} (wf : WellFormed c) (wfF : WellFormed f) : motive c f (difference c f) := by
  induction size : c.nodeCount using Nat.strongRecOn generalizing c f with
  | ind n ih =>
    subst size
    rw [difference_eq wf wfF, subtractAt]
    by_cases ids : c.id = f.id
    · rw [if_pos ids]
      exact same c f wf wfF ids
    rw [if_neg ids]
    by_cases or : c.operator = .or
    · rw [if_pos or]
      by_cases orF : f.operator = .or
      · rw [if_pos orF]
        exact branches c f wf wfF ids or orF
      · rw [if_neg orF]
        exact each c f wf wfF ids or orF fun d mem =>
          ih d.nodeCount (nodeCount_lt_of_mem mem) (wf.children d mem) wfF rfl
    · rw [if_neg or]
      cases found : meeting? c f with
      | none => exact apart c f wf wfF ids or found
      | some m =>
        have meets := meets_of_meeting? wf wfF found
        obtain ⟨-, wfOwn, wfPart⟩ := meets.wellFormed wf wfF
        exact met c f m wf wfF ids or found
          (ih m.own.nodeCount (meets.nodeCount_lt wf) wfOwn wfPart rfl)

/-- What is left of a condition that a fragment meets is known from what is left at the place. -/
theorem difference_of_meeting? {c b : Condition} {m : Meeting} (wf : WellFormed c)
    (wfB : WellFormed b) (ids : c.id ≠ b.id) (other : c.operator ≠ .or)
    (found : meeting? c b = some m) :
    difference c b = m.replaced (difference m.own m.part) := by
  rw [difference_eq wf wfB, subtractAt, if_neg ids, if_neg other, found]

theorem Meeting.replaced_eq_remainder_iff (m : Meeting) (outcome : Subtraction) :
    (∃ r, m.replaced outcome = .remainder r) ↔ ∃ r, outcome = .remainder r := by
  cases outcome <;> simp [Meeting.replaced]

/-- Where a fragment meets a condition, the condition does not go altogether. -/
theorem Meeting.replaced_ne_empty (m : Meeting) (outcome : Subtraction) :
    m.replaced outcome ≠ .empty := by
  cases outcome <;> exact nofun

/-- What is left of a node that a fragment meets at a child. -/
theorem difference_fill {f : Frame} {own part rest b : Condition} (wf : WellFormed (f.fill own))
    (wfB : WellFormed b) (ids : (f.fill own).id ≠ b.id) (other : f.operator ≠ .or)
    (found : meeting? (f.fill own) b = some ⟨f.fill own, f.before.length, own, part⟩)
    (left : difference own part = .remainder rest) :
    difference (f.fill own) b = .remainder (f.fill rest) := by
  rw [difference_of_meeting? wf wfB ids other found]
  show Meeting.replaced _ (difference own part) = _
  rw [left, Meeting.replaced, f.set_fill]

/-! ### What is left -/

/-- What is left of an alternation, if something is. -/
theorem remaining_eq_remainder {c : Condition} {kept : List Condition} {r : Condition}
    (h : c.remaining kept = .remainder r) :
    kept ≠ [] ∧ (kept = [r] ∨ r = { c with children := kept }) := by
  unfold remaining at h
  split at h
  · cases h
  · cases h
    exact ⟨List.cons_ne_nil _ _, .inl rfl⟩
  · rename_i some single
    cases h
    exact ⟨some, .inr rfl⟩

theorem remaining_eq_empty {c : Condition} {kept : List Condition} (h : c.remaining kept = .empty) :
    kept = [] := by
  unfold remaining at h
  split at h
  · rfl
  · cases h
  · cases h

/-- Something is left of an alternation that keeps some of its branches. -/
theorem exists_remaining (c : Condition) {kept : List Condition} (some : kept ≠ []) :
    ∃ r, c.remaining kept = .remainder r := by
  unfold remaining
  split
  · exact absurd rfl some
  · exact ⟨_, rfl⟩
  · exact ⟨_, rfl⟩

/-- What is left of an alternation is what is left of its branches, if any of them has changed. -/
theorem collected_cases (c : Condition) (left : Condition → Subtraction) :
    ((∀ d ∈ c.children, left d = .unchanged) ∧
        c.collected (c.children.map fun d => (d, left d)) = .unchanged) ∨
      (∃ d ∈ c.children, left d ≠ .unchanged) ∧ ∃ kept,
        c.collected (c.children.map fun d => (d, left d)) = c.remaining kept ∧
        ∀ d, d ∈ kept ↔ d ∈ c.children ∧ left d = .unchanged ∨
          ∃ e ∈ c.children, left e = .remainder d := by
  have unchanged (s : Subtraction) : s.isUnchanged ↔ s = .unchanged := by
    cases s <;> simp [Subtraction.isUnchanged]
  unfold collected
  split
  · rename_i all
    simp only [List.all_map, List.all_eq_true, Function.comp, unchanged] at all
    exact .inl ⟨all, rfl⟩
  · rename_i changed
    simp only [List.all_map, List.all_eq_true, Function.comp, unchanged] at changed
    push Not at changed
    refine .inr ⟨changed, _, rfl, fun d => ?_⟩
    rw [List.filterMap_map, List.mem_filterMap]
    constructor
    · rintro ⟨e, mem, resolved⟩
      dsimp only [Function.comp] at resolved
      cases outcome : left e with rw [outcome] at resolved
      | unchanged =>
        cases resolved
        exact .inl ⟨mem, outcome⟩
      | empty => cases resolved
      | remainder r =>
        cases resolved
        exact .inr ⟨e, mem, outcome⟩
    · rintro (⟨mem, outcome⟩ | ⟨e, mem, outcome⟩)
      · exact ⟨d, mem, by rw [Function.comp, outcome]; rfl⟩
      · exact ⟨e, mem, by rw [Function.comp, outcome]; rfl⟩

/-- Whether what an outcome leaves, if it leaves something else than was there, has a property. -/
def Leaves (P : Condition → Prop) : Subtraction → Prop
  | .remainder r => P r
  | _ => True

section Leaves

variable {P : Condition → Prop} {c : Condition}

theorem leaves_remaining {kept : List Condition} (below : ∀ d ∈ kept, P d)
    (whole : kept ≠ [] → P { c with children := kept }) : Leaves P (c.remaining kept) := by
  cases left : c.remaining kept with
  | unchanged => trivial
  | empty => trivial
  | remainder r =>
    obtain ⟨some, only | rfl⟩ := remaining_eq_remainder left
    · exact below r (only ▸ List.mem_singleton_self r)
    · exact whole some

/-- Fewer branches have a property that all have, and that they give to the alternation. -/
theorem leaves_subtractBranches (below : ∀ d ∈ c.children, P d)
    (whole : ∀ kept, kept ≠ [] → (∀ d ∈ kept, P d) → P { c with children := kept })
    (f : Condition) : Leaves P (c.subtractBranches f) := by
  unfold subtractBranches
  dsimp only
  split
  · have kept : ∀ d ∈ c.children.filter fun d => !f.childIds.contains d.id, P d :=
      fun d mem => below d (List.mem_of_mem_filter mem)
    exact leaves_remaining kept fun some => whole _ some kept
  · trivial

theorem leaves_collected (below : ∀ d ∈ c.children, P d)
    (whole : ∀ kept, kept ≠ [] → (∀ d ∈ kept, P d) → P { c with children := kept })
    {left : Condition → Subtraction} (each : ∀ d ∈ c.children, Leaves P (left d)) :
    Leaves P (c.collected (c.children.map fun d => (d, left d))) := by
  rcases collected_cases c left with ⟨-, eq⟩ | ⟨-, kept, eq, keeps⟩
  · rw [eq]
    trivial
  · have holds : ∀ d ∈ kept, P d := by
      intro d mem
      rcases (keeps d).mp mem with ⟨own, -⟩ | ⟨e, memE, outcome⟩
      · exact below d own
      · have inner := each e memE
        rwa [outcome] at inner
    rw [eq]
    exact leaves_remaining holds fun some => whole kept some holds

end Leaves

/-- Some of the branches of a well-formed alternation are one. -/
theorem WellFormed.with_branches {c : Condition} (h : WellFormed c) (op : c.operator = .or)
    (kept : List Condition) (some : kept ≠ []) (below : ∀ d ∈ kept, WellFormed d) :
    WellFormed { c with children := kept } :=
  h.with_group (by rw [op]; rfl) some below

theorem WellFormed.subtractBranches {c : Condition} (h : WellFormed c) (op : c.operator = .or)
    (f : Condition) : Leaves WellFormed (c.subtractBranches f) :=
  leaves_subtractBranches h.children (h.with_branches op) f

theorem WellFormed.collected {c : Condition} (h : WellFormed c) (op : c.operator = .or)
    {left : Condition → Subtraction} (below : ∀ d ∈ c.children, Leaves WellFormed (left d)) :
    Leaves WellFormed (c.collected (c.children.map fun d => (d, left d))) :=
  leaves_collected h.children (h.with_branches op) below

theorem Meets.leaves_replaced {c f : Condition} {m : Meeting} (meets : Meets c f m)
    (wf : WellFormed c) (wfF : WellFormed f) {outcome : Subtraction}
    (below : Leaves WellFormed outcome) : Leaves WellFormed (m.replaced outcome) := by
  obtain ⟨frame, whole, -, replaced⟩ := meets.exists_fill
  cases outcome with
  | unchanged => trivial
  | empty => trivial
  | remainder rest =>
    rw [replaced rest]
    exact (whole ▸ (meets.wellFormed wf wfF).1).refill below

/-- **What subtraction leaves is well-formed.** -/
theorem leaves_wellFormed {c f : Condition} (wf : WellFormed c) (wfF : WellFormed f) :
    Leaves WellFormed (difference c f) :=
  difference_induct (motive := fun _ _ o => Leaves WellFormed o)
    (fun _ _ _ _ _ => trivial)
    (fun _ f wf _ _ or _ => wf.subtractBranches or f)
    (fun _ _ wf _ _ or _ below => wf.collected or below)
    (fun _ _ _ wf wfF _ _ found below =>
      (meets_of_meeting? wf wfF found).leaves_replaced wf wfF below)
    (fun _ _ _ _ _ _ _ => trivial) wf wfF

theorem wellFormed_of_difference {c f r : Condition} (wf : WellFormed c) (wfF : WellFormed f)
    (left : difference c f = .remainder r) : WellFormed r := by
  have wfLeft := leaves_wellFormed wf wfF
  rwa [left] at wfLeft

/-! ### The run -/

theorem remadeOutcome_eq {outcome : Subtraction} (h : Leaves WellFormed outcome) :
    remadeOutcome outcome = .ok outcome := by
  cases outcome with
  | unchanged => rfl
  | empty => rfl
  | remainder r =>
    rw [remadeOutcome, h.remade]
    rfl

theorem meeting_eq {c f : Condition} (wf : WellFormed c) (wfF : WellFormed f) :
    meeting c f = .ok (meeting? c f) := by
  unfold meeting
  split
  · rename_i op opF
    unfold meeting?
    simp only [op, opF]
    split
    · rw [padToMatch_eq (by simp [wf, wfF]) (by simp [op, opF])]
      rfl
    · rfl
  · rfl

/-- A bound that is no less than the number of nodes does not cut a run short. -/
theorem subtractWithin_eq {c f : Condition} (wf : WellFormed c) (wfF : WellFormed f) :
    ∀ bound, c.nodeCount ≤ bound → subtractWithin bound c f = pure (difference c f) := by
  refine difference_induct (motive := fun c f o =>
      ∀ bound, c.nodeCount ≤ bound → subtractWithin bound c f = pure o)
    ?same ?branches ?each ?met ?apart wf wfF
  case same =>
    intro c f _ _ ids bound enough
    obtain ⟨bound, rfl⟩ := exists_succ_of_nodeCount_le enough
    rw [subtractWithin, if_pos ids]
  case branches =>
    intro c f wf _ ids or orF bound enough
    obtain ⟨bound, rfl⟩ := exists_succ_of_nodeCount_le enough
    rw [subtractWithin, if_neg ids, if_pos or, if_pos orF,
      remadeOutcome_eq (wf.subtractBranches or f), Run.of_ok]
  case each =>
    intro c f wf wfF ids or orF below bound enough
    obtain ⟨bound, rfl⟩ := exists_succ_of_nodeCount_le enough
    have outcomes : (c.children.mapM fun d => do return (d, ← subtractWithin bound d f)) =
        (pure (c.children.map fun d => (d, difference d f)) : Run _) := by
      refine mapM_eq_pure fun d mem => ?_
      have smaller := nodeCount_lt_of_mem mem
      rw [below d mem bound (by omega), pure_bind]
    rw [subtractWithin, if_neg ids, if_pos or, if_neg orF, outcomes, pure_bind,
      remadeOutcome_eq (wf.collected or fun d mem => leaves_wellFormed (wf.children d mem) wfF),
      Run.of_ok]
  case met =>
    intro c f m wf wfF ids or found below bound enough
    obtain ⟨bound, rfl⟩ := exists_succ_of_nodeCount_le enough
    have meets := meets_of_meeting? wf wfF found
    obtain ⟨-, wfOwn, wfPart⟩ := meets.wellFormed wf wfF
    have smaller := meets.nodeCount_lt wf
    rw [subtractWithin, if_neg ids, if_neg or, meeting_eq wf wfF, Run.of_ok, pure_bind, found]
    show subtractWithin bound m.own m.part >>= _ = _
    rw [below bound (by omega), pure_bind,
      remadeOutcome_eq (meets.leaves_replaced wf wfF (leaves_wellFormed wfOwn wfPart)), Run.of_ok]
  case apart =>
    intro c f wf wfF ids or found bound enough
    obtain ⟨bound, rfl⟩ := exists_succ_of_nodeCount_le enough
    rw [subtractWithin, if_neg ids, if_neg or, meeting_eq wf wfF, Run.of_ok, pure_bind, found]

/-- **Subtracting ends with the difference** of well-formed trees. -/
theorem subtract_eq {c f : Condition} (wf : WellFormed c) (wfF : WellFormed f) :
    subtract c f = pure (difference c f) :=
  subtractWithin_eq wf wfF c.nodeCount (Nat.le_refl _)

end Condition

end CallGuard
