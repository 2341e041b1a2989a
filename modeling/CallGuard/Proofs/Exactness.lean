import CallGuard.Proofs.Difference
import CallGuard.Proofs.Preservation

/-!
# Subtraction is exact

Under any interpretation a condition asks what is left of it without a fragment or what the
fragment asks, no more and no less. At an alternation this is a law of Or, and where the fragment
meets the condition it is the distributive law of the frame around both.
-/

namespace CallGuard

namespace Condition

/-! ### What a subtraction compares -/

/-- The trees whose ids are compared to find where a fragment meets a condition. -/
def comparedToMeet (c f : Condition) : List Condition :=
  match c.operator, f.operator with
  | .and, .and => [c, f].flatMap children
  | .matches, .matches => (facing c f).flatMap children
  | _, _ => []

/-- The trees whose ids a step of subtraction compares, and those that smaller steps do. -/
def comparedToSubtractAt (again : Condition → Condition → List Condition) (c f : Condition) :
    List Condition :=
  c :: f ::
    if c.id = f.id then []
    else if c.operator = .or then
      if f.operator = .or then [c, f].flatMap children
      else c.children.flatMap fun d => again d f
    else comparedToMeet c f ++ (meeting? c f).elim [] fun m => again m.own m.part

/-- The trees whose ids are compared to subtract a fragment, for a bound on the depth of the
recursion. -/
def comparedToSubtractWithin : (bound : Nat) → (c f : Condition) → List Condition
  | 0, _, _ => []
  | bound + 1, c, f => comparedToSubtractAt (comparedToSubtractWithin bound) c f

/-- The trees whose ids are compared to subtract a fragment. -/
def comparedToSubtract (c f : Condition) : List Condition :=
  comparedToSubtractWithin c.nodeCount c f

theorem comparedToSubtract_eq {c f : Condition} (wf : WellFormed c) (wfF : WellFormed f) :
    comparedToSubtract c f = comparedToSubtractAt comparedToSubtract c f := by
  have succ (bound : Nat) (c f : Condition) : comparedToSubtractWithin (bound + 1) c f =
      comparedToSubtractAt (comparedToSubtractWithin bound) c f := rfl
  refine unbounded_eq succ (fun again again' c f below met => ?_) wf wfF
  have children : (c.children.flatMap fun d => again d f) =
      c.children.flatMap fun d => again' d f :=
    List.flatMap_congr below
  unfold comparedToSubtractAt
  rw [children]
  cases found : meeting? c f with
  | none => rfl
  | some m => simp only [Option.elim, met m found]

section CollisionFree

variable {c f : Condition}

/-- Trees that a subtraction compares are the same if their ids are. -/
theorem CollisionFree.eq_of_id (free : CollisionFree (comparedToSubtract c f)) (wf : WellFormed c)
    (wfF : WellFormed f) (ids : c.id = f.id) : c = f := by
  rw [comparedToSubtract_eq wf wfF] at free
  exact free c List.mem_cons_self f (List.mem_cons_of_mem c List.mem_cons_self) ids

theorem CollisionFree.ors (free : CollisionFree (comparedToSubtract c f)) (wf : WellFormed c)
    (wfF : WellFormed f) (ids : c.id ≠ f.id) (or : c.operator = .or) (orF : f.operator = .or) :
    CollisionFree ([c, f].flatMap children) := by
  refine free.mono fun x mem => ?_
  rw [comparedToSubtract_eq wf wfF, comparedToSubtractAt, if_neg ids, if_pos or, if_pos orF]
  exact List.mem_cons_of_mem c (List.mem_cons_of_mem f mem)

theorem CollisionFree.alternative (free : CollisionFree (comparedToSubtract c f))
    (wf : WellFormed c) (wfF : WellFormed f) (ids : c.id ≠ f.id) (or : c.operator = .or)
    (orF : f.operator ≠ .or) {d : Condition} (h : d ∈ c.children) :
    CollisionFree (comparedToSubtract d f) := by
  refine free.mono fun x mem => ?_
  rw [comparedToSubtract_eq wf wfF, comparedToSubtractAt, if_neg ids, if_pos or, if_neg orF]
  exact List.mem_cons_of_mem c (List.mem_cons_of_mem f (List.mem_flatMap.mpr ⟨d, h, mem⟩))

theorem CollisionFree.toMeet (free : CollisionFree (comparedToSubtract c f)) (wf : WellFormed c)
    (wfF : WellFormed f) (ids : c.id ≠ f.id) (or : c.operator ≠ .or) :
    CollisionFree (comparedToMeet c f) := by
  refine free.mono fun x mem => ?_
  rw [comparedToSubtract_eq wf wfF, comparedToSubtractAt, if_neg ids, if_neg or]
  exact List.mem_cons_of_mem c (List.mem_cons_of_mem f (List.mem_append_left _ mem))

theorem CollisionFree.met (free : CollisionFree (comparedToSubtract c f)) (wf : WellFormed c)
    (wfF : WellFormed f) (ids : c.id ≠ f.id) (or : c.operator ≠ .or) {m : Meeting}
    (found : meeting? c f = some m) : CollisionFree (comparedToSubtract m.own m.part) := by
  refine free.mono fun x mem => ?_
  rw [comparedToSubtract_eq wf wfF, comparedToSubtractAt, if_neg ids, if_neg or, found]
  exact List.mem_cons_of_mem c (List.mem_cons_of_mem f (List.mem_append_right _ mem))

/-- Matches that are frames with the same ids around the place are the same frame. -/
theorem CollisionFree.frame_eq_of_faced {model : List Condition} {g h : Frame}
    {own part : Condition} (free : CollisionFree ((facing c f).flatMap children))
    (faced : facing c f = [padTo model c, padTo model f]) (whole : padTo model c = g.fill own)
    (other : padTo model f = h.fill part)
    (operator : g.operator = .matches ∧ h.operator = .matches) (type : g.paramType = h.paramType)
    (around : g.before.map id = h.before.map id ∧ g.after.map id = h.after.map id) : g = h := by
  refine free.frame_eq (x := own) (y := part) ?_ ?_ type (operator.1.trans operator.2.symm)
    around.1 around.2
  all_goals simp [faced, whole, other]

end CollisionFree

/-- Induction on a subtraction that compares no two different trees with the same id. -/
theorem difference_induct_free {motive : Condition → Condition → Subtraction → Prop}
    (same : ∀ c, motive c c .empty)
    (branches : ∀ c f, CollisionFree ([c, f].flatMap children) → c.operator = .or →
      f.operator = .or → motive c f (subtractBranches c f))
    (each : ∀ c f, c.operator = .or → f.operator ≠ .or →
      (∀ d ∈ c.children, motive d f (difference d f)) →
      motive c f (c.collected (c.children.map fun d => (d, difference d f))))
    (met : ∀ c f m, CollisionFree (comparedToMeet c f) → Meets c f m → WellFormed m.own →
      WellFormed m.part → CollisionFree (comparedToSubtract m.own m.part) →
      motive m.own m.part (difference m.own m.part) →
      motive c f (m.replaced (difference m.own m.part)))
    (apart : ∀ c f, motive c f .unchanged)
    {c f : Condition} (wf : WellFormed c) (wfF : WellFormed f)
    (free : CollisionFree (comparedToSubtract c f)) : motive c f (difference c f) := by
  refine difference_induct
    (motive := fun c f o => CollisionFree (comparedToSubtract c f) → motive c f o)
    ?same ?branches ?each ?met ?apart wf wfF free
  case same =>
    intro c f wf wfF ids free
    rw [free.eq_of_id wf wfF ids]
    exact same f
  case branches =>
    intro c f wf wfF ids or orF free
    exact branches c f (free.ors wf wfF ids or orF) or orF
  case each =>
    intro c f wf wfF ids or orF below free
    exact each c f or orF fun d mem => below d mem (free.alternative wf wfF ids or orF mem)
  case met =>
    intro c f m wf wfF ids or found below free
    have meets := meets_of_meeting? wf wfF found
    obtain ⟨-, wfOwn, wfPart⟩ := meets.wellFormed wf wfF
    have freeMet := free.met wf wfF ids or found
    exact met c f m (free.toMeet wf wfF ids or) meets wfOwn wfPart freeMet (below freeMet)
  case apart => exact fun c f _ _ _ _ _ _ => apart c f

/-! ### Allowances -/

/-- What is left of an alternation of no allowances is none. -/
theorem isGlobalAllowance_of_remaining {c r : Condition} (or : c.operator = .or)
    {kept : List Condition} (below : ∀ d ∈ kept, d.isGlobalAllowance = false)
    (left : c.remaining kept = .remainder r) : r.isGlobalAllowance = false := by
  obtain ⟨-, only | rfl⟩ := remaining_eq_remainder left
  · exact below r (only ▸ List.mem_singleton_self r)
  · exact isGlobalAllowance_eq_false_of_or or

/-- That an outcome mixes up no allowances with what is none. -/
structure SparesAllowances (c f : Condition) (outcome : Subtraction) : Prop where
  /-- A condition changes only if both it and the fragment are allowances or neither is. -/
  same : outcome ≠ .unchanged → f.isGlobalAllowance = c.isGlobalAllowance
  /-- Something is left only of what is no allowance, and is none. -/
  rest : ∀ r, outcome = .remainder r → c.isGlobalAllowance = false ∧ r.isGlobalAllowance = false

theorem sparesAllowances_unchanged (c f : Condition) : SparesAllowances c f .unchanged where
  same changed := absurd rfl changed
  rest _ left := by cases left

theorem sparesAllowances_empty (c : Condition) : SparesAllowances c c .empty where
  same _ := rfl
  rest _ left := by cases left

theorem sparesAllowances_subtractBranches {c f : Condition} (or : c.operator = .or)
    (orF : f.operator = .or) (below : ∀ d ∈ c.children, d.isGlobalAllowance = false) :
    SparesAllowances c f (c.subtractBranches f) where
  same _ := isGlobalAllowance_eq (orF.trans or.symm)
  rest r left := by
    refine ⟨isGlobalAllowance_eq_false_of_or or, ?_⟩
    unfold subtractBranches at left
    dsimp only at left
    split at left
    · exact isGlobalAllowance_of_remaining or
        (fun d mem => below d (List.mem_of_mem_filter mem)) left
    · cases left

theorem sparesAllowances_collected {c f : Condition} (or : c.operator = .or)
    (own : ∀ d ∈ c.children, d.isGlobalAllowance = false) {outcome : Condition → Subtraction}
    (below : ∀ d ∈ c.children, SparesAllowances d f (outcome d)) :
    SparesAllowances c f (c.collected (c.children.map fun d => (d, outcome d))) := by
  have none := isGlobalAllowance_eq_false_of_or or
  rcases collected_cases c outcome with ⟨-, eq⟩ | ⟨⟨d, mem, changed⟩, kept, eq, keeps⟩
  · rw [eq]
    exact sparesAllowances_unchanged c f
  · rw [eq]
    refine ⟨fun _ => ?_, fun r left =>
      ⟨none, isGlobalAllowance_of_remaining or (fun e memE => ?_) left⟩⟩
    · rw [none, ← own d mem]
      exact (below d mem).same changed
    · rcases (keeps e).mp memE with ⟨inside, -⟩ | ⟨d', memD', left⟩
      · exact own e inside
      · exact ((below d' memD').rest e left).2

theorem Meets.sparesAllowances_replaced {c f : Condition} {m : Meeting} (meets : Meets c f m)
    (outcome : Subtraction) : SparesAllowances c f (m.replaced outcome) := by
  obtain ⟨-, same⟩ := meets.operator
  obtain ⟨frame, -, opFrame, replaced⟩ := meets.exists_fill
  have none := meets.isGlobalAllowance_eq_false
  cases outcome with
  | unchanged => exact sparesAllowances_unchanged c f
  | empty => exact sparesAllowances_unchanged c f
  | remainder rest =>
    rw [replaced rest]
    refine ⟨fun _ => isGlobalAllowance_eq same, fun r left => ⟨none, ?_⟩⟩
    obtain rfl := Subtraction.remainder.inj left
    exact (isGlobalAllowance_eq opFrame).trans none

/-- **Subtraction spares allowances.** -/
theorem sparesAllowances_difference {c f : Condition} (wf : WellFormed c) (wfF : WellFormed f)
    (free : CollisionFree (comparedToSubtract c f)) (placed : Everywhere PlacesAllowances c) :
    SparesAllowances c f (difference c f) := by
  refine difference_induct_free
    (motive := fun c f o => Everywhere PlacesAllowances c → SparesAllowances c f o)
    ?same ?branches ?each ?met ?apart wf wfF free placed
  case same => exact fun c _ => sparesAllowances_empty c
  case branches =>
    exact fun c f _ or orF placed =>
      sparesAllowances_subtractBranches or orF (placed.here.isGlobalAllowance_of_or or)
  case each =>
    exact fun c f or _ below placed =>
      sparesAllowances_collected or (placed.here.isGlobalAllowance_of_or or)
        fun d mem => below d mem (placed.children d mem)
  case met => exact fun c f m _ meets _ _ _ _ _ => meets.sparesAllowances_replaced _
  case apart => exact fun c f _ => sparesAllowances_unchanged c f

/-! ### Meaning -/

end Condition

namespace Interpretation

open Condition

variable {D : Type} (I : Interpretation D) {x : D}

/-- That an outcome leaves of a condition what it asks beyond a fragment. -/
def Exact (c f : Condition) : Subtraction → Prop
  | .unchanged => True
  | .empty => I.meaning c = I.meaning f
  | .remainder r => ∀ x, I.meaning c x ↔ I.meaning r x ∨ I.meaning f x

/-- What is left of an alternation is exact if the branches kept are. -/
theorem exact_remaining {c f : Condition} (or : c.operator = .or) {kept : List Condition}
    (split : ∀ x, I.meaning c x ↔ (∃ d ∈ kept, I.meaning d x) ∨ I.meaning f x) :
    I.Exact c f (c.remaining kept) := by
  cases left : c.remaining kept with
  | unchanged => trivial
  | empty =>
    funext x
    rw [split x, remaining_eq_empty left]
    simp
  | remainder r =>
    intro x
    rw [split x]
    obtain ⟨-, only | rfl⟩ := remaining_eq_remainder left
    · simp [only]
    · exact or_congr_left (Iff.symm (I.meaning_or or))

theorem exact_subtractBranches {c f : Condition} (free : CollisionFree ([c, f].flatMap children))
    (or : c.operator = .or) (orF : f.operator = .or) : I.Exact c f (c.subtractBranches f) := by
  unfold subtractBranches
  dsimp only
  split
  swap
  · trivial
  rename_i all
  have left : c.children ⊆ [c, f].flatMap children := fun d mem => by simp [mem]
  have right : f.children ⊆ [c, f].flatMap children := fun d mem => by simp [mem]
  refine I.exact_remaining or fun x => ?_
  rw [I.meaning_or or, I.meaning_or orF]
  constructor
  · rintro ⟨d, mem, holds⟩
    by_cases removed : f.childIds.contains d.id
    · exact .inr ⟨d, free.mem_of_map_id (left mem) right (List.contains_iff_mem.mp removed), holds⟩
    · exact .inl ⟨d, List.mem_filter.mpr ⟨mem, by simpa using removed⟩, holds⟩
  · rintro (⟨d, mem, holds⟩ | ⟨e, memE, holds⟩)
    · exact ⟨d, List.mem_of_mem_filter mem, holds⟩
    · have contained := List.all_eq_true.mp all e.id (List.mem_map_of_mem memE)
      exact ⟨e, free.mem_of_map_id (right memE) left (List.contains_iff_mem.mp contained), holds⟩

theorem exact_collected {c f : Condition} (or : c.operator = .or)
    (below : ∀ d ∈ c.children, I.Exact d f (difference d f)) :
    I.Exact c f (c.collected (c.children.map fun d => (d, difference d f))) := by
  rcases collected_cases c fun d => difference d f with
    ⟨-, eq⟩ | ⟨⟨d, mem, changed⟩, kept, eq, keeps⟩
  · rw [eq]
    trivial
  rw [eq]
  -- a branch is kept, or it asks what is left of it or what the fragment asks
  have branch {d : Condition} (mem : d ∈ c.children) {x : D} (holds : I.meaning d x) :
      (∃ e ∈ kept, I.meaning e x) ∨ I.meaning f x := by
    have exact_ := below d mem
    cases outcome : difference d f with rw [outcome] at exact_
    | unchanged => exact .inl ⟨d, (keeps d).mpr (.inl ⟨mem, outcome⟩), holds⟩
    | empty => exact .inr (exact_ ▸ holds)
    | remainder r =>
      exact ((exact_ x).mp holds).imp_left fun left =>
        ⟨r, (keeps r).mpr (.inr ⟨d, mem, outcome⟩), left⟩
  refine I.exact_remaining or fun x => ?_
  rw [I.meaning_or or]
  constructor
  · rintro ⟨d, mem, holds⟩
    exact branch mem holds
  · rintro (⟨e, memE, holds⟩ | holds)
    · rcases (keeps e).mp memE with ⟨own, -⟩ | ⟨d', memD', outcome⟩
      · exact ⟨e, own, holds⟩
      · have exact_ := below d' memD'
        rw [outcome] at exact_
        exact ⟨d', memD', (exact_ x).mpr (.inl holds)⟩
    · have exact_ := below d mem
      cases outcome : difference d f with rw [outcome] at exact_
      | unchanged => exact absurd outcome changed
      | empty => exact ⟨d, mem, exact_ ▸ holds⟩
      | remainder r => exact ⟨d, mem, (exact_ x).mpr (.inr holds)⟩

theorem exact_replaced_and {c f : Condition} {g h : Frame} {own part rest : Condition}
    (whole : c = g.fill own) (other : f = h.fill part)
    (operator : g.operator = .and ∧ h.operator = .and)
    (free : CollisionFree ([c, f].flatMap children))
    (new : own.id ∉ f.childIds ∧ part.id ∉ c.childIds)
    (shared : (∀ d ∈ g.others, d.id ∈ f.childIds) ∧ ∀ d ∈ h.others, d.id ∈ c.childIds)
    (inner : I.Exact own part (.remainder rest)) : I.Exact c f (.remainder (g.fill rest)) := by
  subst whole other
  have left : (g.fill own).children ⊆ [g.fill own, h.fill part].flatMap children :=
    fun d mem => List.mem_flatMap.mpr ⟨_, List.mem_cons_self, mem⟩
  have right : (h.fill part).children ⊆ [g.fill own, h.fill part].flatMap children :=
    fun d mem => List.mem_flatMap.mpr ⟨_, List.mem_cons_of_mem _ List.mem_cons_self, mem⟩
  have child {f : Frame} {y d : Condition} (mem : d ∈ f.others) : d ∈ (f.fill y).children :=
    Frame.mem_fill_children.mpr (.inr mem)
  have around (d : Condition) : d ∈ h.others ↔ d ∈ g.others := by
    constructor
    · intro mem
      exact mem_others_of_id free (right (child mem)) left (shared.2 d mem)
        fun here => new.1 (here ▸ List.mem_map_of_mem (child mem))
    · intro mem
      exact mem_others_of_id free (left (child mem)) right (shared.1 d mem)
        fun here => new.2 (here ▸ List.mem_map_of_mem (child mem))
  intro x
  rw [I.meaning_fill_and operator.1, I.meaning_fill_and operator.1, I.meaning_fill_and operator.2,
    inner x]
  simp only [around]
  exact and_or_left

theorem exact_replaced_matches {c f : Condition} {model : List Condition} {g h : Frame}
    {own part rest : Condition} (faced : facing c f = [padTo model c, padTo model f])
    (whole : padTo model c = g.fill own) (other : padTo model f = h.fill part)
    (operator : g.operator = .matches ∧ h.operator = .matches) (type : g.paramType = h.paramType)
    (around : g.before.map Condition.id = h.before.map Condition.id ∧
      g.after.map Condition.id = h.after.map Condition.id)
    (free : CollisionFree ((facing c f).flatMap children))
    (allowances : own.isGlobalAllowance = false ∧ part.isGlobalAllowance = false ∧
      rest.isGlobalAllowance = false)
    (inner : I.Exact own part (.remainder rest)) : I.Exact c f (.remainder (g.fill rest)) := by
  obtain rfl := free.frame_eq_of_faced faced whole other operator type around
  have op : c.operator = .matches := by
    rw [← padTo_operator model, whole]
    exact operator.1
  have opF : f.operator = .matches := by
    rw [← padTo_operator model, other]
    exact operator.1
  intro x
  rw [← I.meaning_padTo op model, ← I.meaning_padTo opF model, whole, other,
    I.meaning_fill_matches operator.1 allowances.1,
    I.meaning_fill_matches operator.1 allowances.2.1,
    I.meaning_fill_matches operator.1 allowances.2.2, inner]
  exact and_or_left

theorem exact_replaced {c f : Condition} {m : Meeting} (meets : Meets c f m)
    (free : CollisionFree (comparedToMeet c f)) {outcome : Subtraction}
    (allowances : ∀ rest, outcome = .remainder rest → m.own.isGlobalAllowance = false ∧
      m.part.isGlobalAllowance = false ∧ rest.isGlobalAllowance = false)
    (inner : I.Exact m.own m.part outcome) : I.Exact c f (m.replaced outcome) := by
  cases outcome with
  | unchanged => trivial
  | empty => trivial
  | remainder rest =>
    cases meets with
    | @ands g h own part whole other operator new shared =>
      have ops : c.operator = .and ∧ f.operator = .and := by
        rw [whole, other]
        exact operator
      rw [comparedToMeet, ops.1, ops.2] at free
      rw [Meeting.replaced, whole, g.set_fill, ← whole]
      exact I.exact_replaced_and whole other operator free new shared inner
    | @padded model g h own part faced whole other operator type around =>
      have ops : c.operator = .matches ∧ f.operator = .matches := by
        rw [← padTo_operator model c, ← padTo_operator model f, whole, other]
        exact operator
      rw [comparedToMeet, ops.1, ops.2] at free
      rw [Meeting.replaced, whole, g.set_fill]
      exact I.exact_replaced_matches faced whole other operator type around free
        (allowances rest rfl) inner

/-- **The difference is exact.** -/
theorem exact_difference {c f : Condition} (wf : WellFormed c) (wfF : WellFormed f)
    (placed : Everywhere PlacesAllowances c) (free : CollisionFree (comparedToSubtract c f)) :
    I.Exact c f (difference c f) := by
  refine difference_induct_free
    (motive := fun c f o => Everywhere PlacesAllowances c → I.Exact c f o)
    ?same ?branches ?each ?met ?apart wf wfF free placed
  case same => exact fun _ _ => rfl
  case branches => exact fun c f free or orF _ => I.exact_subtractBranches free or orF
  case each =>
    exact fun c f or _ below placed =>
      I.exact_collected or fun d mem => below d mem (placed.children d mem)
  case met =>
    intro c f m free meets wfOwn wfPart freeMet below placed
    have placedOwn := meets.everywhere_own everywhere_placesAllowances_pass placed
    have spares := sparesAllowances_difference wfOwn wfPart freeMet placedOwn
    refine I.exact_replaced meets free (fun rest left => ?_) (below placedOwn)
    obtain ⟨own, none⟩ := spares.rest rest left
    exact ⟨own, (spares.same (by rw [left]; exact nofun)).trans own, none⟩
  case apart => exact fun _ _ _ => trivial

end Interpretation

namespace Condition

/-- **Subtraction is exact.** Subtracting a fragment from a condition without faults of integrity
always ends without an error. If nothing is left, the two mean the same under any interpretation;
and if something is left, the condition holds of a datum exactly when that or the fragment does.
So nothing beyond the fragment is lost and nothing new is granted, as long as the run compares no
two different trees with the same id. -/
theorem subtract_exact {D : Type} (I : Interpretation D) {c f : Condition} (wf : WellFormed c)
    (wfF : WellFormed f) (integrity : c.checkIntegrity = .ok ())
    (free : CollisionFree (comparedToSubtract c f)) :
    ∃ outcome, subtract c f = pure outcome ∧
      (outcome = .empty → I.meaning c = I.meaning f) ∧
      ∀ r, outcome = .remainder r → ∀ x, I.meaning c x ↔ I.meaning r x ∨ I.meaning f x := by
  have exact_ := I.exact_difference wf wfF (everywhere_placesAllowances integrity) free
  refine ⟨difference c f, subtract_eq wf wfF, fun nothing => ?_, fun r left => ?_⟩
  · rwa [nothing] at exact_
  · rwa [left] at exact_

/-- Without one of two calls that were written as one, the other is left. -/
theorem subtract_sampleCall :
    ∃ r, subtract sampleCall (allowedCall [byteIs 1, byteIs 3]) = pure (.remainder r) ∧
      ∀ x, Interpretation.bytewise.meaning sampleCall x ↔ Interpretation.bytewise.meaning r x ∨
        Interpretation.bytewise.meaning (allowedCall [byteIs 1, byteIs 3]) x := by
  have wf : WellFormed sampleCall := by decide +kernel
  have wfF : WellFormed (allowedCall [byteIs 1, byteIs 3]) := by decide +kernel
  obtain ⟨outcome, run, -, exact_⟩ := subtract_exact Interpretation.bytewise wf wfF
    (by decide +kernel) (by decide +kernel)
  have left : difference sampleCall (allowedCall [byteIs 1, byteIs 3]) =
      .remainder (allowedCall [byteIs 1, byteIs 2]) := by
    decide +kernel
  have runs := subtract_eq wf wfF
  rw [left] at runs
  exact ⟨_, runs, exact_ _ (Run.pure_inj.mp (run.symm.trans runs))⟩

end Condition

end CallGuard
