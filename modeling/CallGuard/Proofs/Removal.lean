import CallGuard.Proofs.Aligned

/-!
# Subtracting once is enough

What subtraction leaves of a condition in normal form has nothing more to subtract, although it
need not be in normal form itself: branches may have become the same, an alternation may have gone,
and a match may be padded anew. `Lacks` says that a fragment does not occur in a condition, and each
way in which subtraction can go leaves something that lacks the fragment. Padding is why the slots
of an alternation have to be of one type: where the fragment is padded at the place, it must not be
padded with another free component afterwards that the alternation still has.
-/

namespace CallGuard

namespace Condition

/-- That the children of an And, an Or or a Nor are all of one slot type. -/
def UniformSlots (c : Condition) : Prop :=
  c.operator.isSetLike → ∀ a ∈ c.children, ∀ b ∈ c.children, a.slotType = b.slotType

instance (c : Condition) : Decidable (UniformSlots c) :=
  inferInstanceAs (Decidable (_ → _))

/-- What subtraction asks of an alternation: that its branches are of one slot type and are no
alternations themselves. -/
structure UniformBranches (c : Condition) : Prop where
  /-- No branch is an alternation. -/
  flat : c.operator = .or → ∀ d ∈ c.children, d.operator ≠ .or
  /-- All branches have the same slot type. -/
  slots : c.operator = .or → ∀ a ∈ c.children, ∀ b ∈ c.children, a.slotType = b.slotType

theorem uniformBranches_of_ne_or {c : Condition} (other : c.operator ≠ .or) : UniformBranches c :=
  ⟨fun or => absurd or other, fun or => absurd or other⟩

/-- Fewer branches are as uniform. -/
theorem UniformBranches.of_subset {c : Condition} (h : UniformBranches c) {kept : List Condition}
    (sub : kept ⊆ c.children) : UniformBranches { c with children := kept } where
  flat or d mem := h.flat or d (sub mem)
  slots or a memA b memB := h.slots or a (sub memA) b (sub memB)

/-- That a fragment does not occur in a condition, as far as ids tell trees apart. -/
def Lacks (f r : Condition) : Prop :=
  CollisionFree (comparedToSubtract r f) → difference r f = .unchanged

/-- A fragment occurs in itself. -/
theorem Lacks.ne {f r : Condition} (wf : WellFormed r) (h : Lacks f r) : r ≠ f := by
  rintro rfl
  have left := h (free_comparedToSubtract_self wf)
  rw [difference_self wf] at left
  cases left

section Lacks

variable {c f r : Condition}

/-- A fragment is lacking in a node that it is not, if what it meets there loses nothing to it. -/
theorem lacks_of_ne_or (wf : WellFormed r) (wfF : WellFormed f) (other : r.operator ≠ .or)
    (apart : r ≠ f)
    (below : ∀ m, meeting? r f = some m → CollisionFree (comparedToSubtract m.own m.part) →
      ∀ rest, difference m.own m.part ≠ .remainder rest) : Lacks f r := by
  intro free
  have ids : r.id ≠ f.id := fun same => apart (free.eq_of_id wf wfF same)
  cases found : meeting? r f with
  | none => rw [difference_eq wf wfF, subtractAt, if_neg ids, if_neg other, found]
  | some m =>
    rw [difference_of_meeting? wf wfF ids other found]
    cases left : difference m.own m.part with
    | unchanged => rfl
    | empty => rfl
    | remainder rest => exact absurd left (below m found (free.met wf wfF ids other found) rest)

/-! ### Alternations -/

/-- A fragment that is no alternation is lacking in an alternation if it is in all branches. -/
theorem lacks_of_or (wf : WellFormed r) (wfF : WellFormed f) (or : r.operator = .or)
    (other : f.operator ≠ .or) (below : ∀ d ∈ r.children, Lacks f d) : Lacks f r := by
  intro free
  have ids : r.id ≠ f.id := fun same => other (free.eq_of_id wf wfF same ▸ or)
  have each : ∀ d ∈ r.children, difference d f = .unchanged := fun d mem =>
    below d mem (free.alternative wf wfF ids or other mem)
  rw [difference_eq wf wfF, subtractAt, if_neg ids, if_pos or, if_neg other]
  rcases collected_cases r fun d => difference d f with ⟨-, eq⟩ | ⟨⟨d, mem, changed⟩, -⟩
  · exact eq
  · exact absurd (each d mem) changed

/-- An alternation lacks another one if it has none of its branches. -/
theorem lacks_of_apart_branches (wf : WellFormed r) (wfF : WellFormed f) (or : r.operator = .or)
    (orF : f.operator = .or) (apart : ∀ d ∈ r.children, d.id ∉ f.childIds) : Lacks f r := by
  intro free
  obtain ⟨own, mem⟩ := List.exists_mem_of_ne_nil _ (wf.children_ne_nil (by rw [or]; rfl))
  obtain ⟨part, memPart⟩ := List.exists_mem_of_ne_nil _ (wfF.children_ne_nil (by rw [orF]; rfl))
  have ids : r.id ≠ f.id := by
    intro same
    have branch : own ∈ f.children := free.eq_of_id wf wfF same ▸ mem
    exact apart own mem (List.mem_map_of_mem branch)
  have lacking : ¬ f.childIds.all r.childIds.contains := by
    intro all
    have found := List.all_eq_true.mp all part.id (List.mem_map_of_mem memPart)
    obtain ⟨d, memD, same⟩ := List.mem_map.mp (List.contains_iff_mem.mp found)
    exact apart d memD (same ▸ List.mem_map_of_mem memPart)
  rw [difference_eq wf wfF, subtractAt, if_neg ids, if_pos or, if_pos orF]
  exact if_neg lacking

/-- Without the branches of a fragment an alternation lacks it. -/
theorem leaves_lacks_subtractBranches (wf : WellFormed c) (wfF : WellFormed f)
    (or : c.operator = .or) (orF : f.operator = .or) (branches : UniformBranches c) :
    Leaves (Lacks f) (c.subtractBranches f) := by
  unfold subtractBranches
  dsimp only
  split
  swap
  · trivial
  have keeps {d : Condition} (mem : d ∈ c.children.filter fun d => !f.childIds.contains d.id) :
      d ∈ c.children ∧ d.id ∉ f.childIds := by
    simpa using List.mem_filter.mp mem
  generalize c.children.filter (fun d => !f.childIds.contains d.id) = kept at keeps
  refine leaves_remaining (fun d mem => ?_) fun any => ?_
  · have other := branches.flat or d (keeps mem).1
    refine lacks_of_ne_or (wf.children d (keeps mem).1) wfF other
      (fun same => other (same ▸ orF)) fun m found => ?_
    have meets := meets_of_meeting? (wf.children d (keeps mem).1) wfF found
    exact absurd (meets.operator.2.symm.trans orF) other
  · have wfKept := wf.with_branches or kept any fun d mem => wf.children d (keeps mem).1
    exact lacks_of_apart_branches wfKept wfF or orF fun d mem => (keeps mem).2

/-- An alternation lacks a fragment when all its branches do. -/
theorem leaves_lacks_collected (wf : WellFormed c) (wfF : WellFormed f) (or : c.operator = .or)
    (other : f.operator ≠ .or) (below : ∀ d ∈ c.children, Leaves (Lacks f) (difference d f)) :
    Leaves (Lacks f) (c.collected (c.children.map fun d => (d, difference d f))) := by
  rcases collected_cases c fun d => difference d f with ⟨-, eq⟩ | ⟨-, kept, eq, keeps⟩
  · rw [eq]
    trivial
  have holds : ∀ d ∈ kept, WellFormed d ∧ Lacks f d := by
    intro d mem
    rcases (keeps d).mp mem with ⟨own, left⟩ | ⟨e, memE, left⟩
    · exact ⟨wf.children d own, fun _ => left⟩
    · have lacks := below e memE
      rw [left] at lacks
      exact ⟨wellFormed_of_difference (wf.children e memE) wfF left, lacks⟩
  rw [eq]
  refine leaves_remaining (fun d mem => (holds d mem).2) fun any => ?_
  exact lacks_of_or (wf.with_branches or kept any fun d mem => (holds d mem).1) wfF or other
    fun d mem => (holds d mem).2

/-! ### Free components -/

/-- A free component is subtracted only from itself and from alternations. -/
theorem difference_pass (wf : WellFormed c) (other : c.operator ≠ .or) (type : ParamType) :
    difference c (pass type) = if c.id = (pass type).id then .empty else .unchanged := by
  rw [difference_eq wf (wellFormed_pass type), subtractAt, if_neg other, meeting?_pass]

/-- Something is left of a condition without a free component only if it is an alternation that has
it as a branch; then other branches are left. -/
theorem branches_without_pass {type : ParamType} (wf : WellFormed c) (branches : UniformBranches c)
    (free : CollisionFree (comparedToSubtract c (pass type)))
    (left : difference c (pass type) = .remainder r) :
    c.operator = .or ∧ pass type ∈ c.children ∧ ∃ kept, kept ⊆ c.children ∧ pass type ∉ kept ∧
      (r ∈ kept ∨ r = { c with children := kept }) := by
  have wfP := wellFormed_pass type
  have leaf : (pass type).operator ≠ .or := nofun
  have or : c.operator = .or := by
    by_contra other
    rw [difference_pass wf other] at left
    split at left <;> cases left
  have ids : c.id ≠ (pass type).id := by
    intro same
    rw [difference_eq wf wfP, subtractAt, if_pos same] at left
    cases left
  have each {d : Condition} (mem : d ∈ c.children) :=
    difference_pass (wf.children d mem) (branches.flat or d mem) type
  rw [difference_eq wf wfP, subtractAt, if_neg ids, if_pos or, if_neg leaf] at left
  rcases collected_cases c fun d => difference d (pass type) with
    ⟨-, eq⟩ | ⟨⟨d, mem, changed⟩, kept, eq, keeps⟩
  · cases eq.symm.trans left
  have own (d : Condition) : d ∈ kept → d ∈ c.children ∧ d.id ≠ (pass type).id := by
    intro memK
    rcases (keeps d).mp memK with ⟨mem, same⟩ | ⟨e, memE, rest⟩
    · refine ⟨mem, fun isPass => ?_⟩
      rw [each mem, if_pos isPass] at same
      cases same
    · rw [each memE] at rest
      split at rest <;> cases rest
  refine ⟨or, ?_, kept, fun d memK => (own d memK).1, fun here => (own _ here).2 rfl, ?_⟩
  · have same : d.id = (pass type).id := by
      by_contra differ
      exact changed ((each mem).trans (if_neg differ))
    have compared := free.alternative wf wfP ids or leaf mem
    exact compared.eq_of_id (wf.children d mem) wfP same ▸ mem
  · obtain ⟨-, only | whole⟩ := remaining_eq_remainder (eq.symm.trans left)
    · exact .inl (only ▸ List.mem_singleton_self r)
    · exact .inr whole

/-- **What is left without a free component loses no other one**, since the branches of an
alternation are of one slot type. -/
theorem not_remainder_pass {type type' : ParamType} (wf : WellFormed c)
    (branches : UniformBranches c) (free : CollisionFree (comparedToSubtract c (pass type)))
    (left : difference c (pass type) = .remainder r)
    (free' : CollisionFree (comparedToSubtract r (pass type'))) (rest : Condition) :
    difference r (pass type') ≠ .remainder rest := by
  intro left'
  have wfR := wellFormed_of_difference wf (wellFormed_pass type) left
  obtain ⟨or, mem, kept, sub, gone, single | rfl⟩ := branches_without_pass wf branches free left
  · have other := branches.flat or r (sub single)
    exact other (branches_without_pass wfR (uniformBranches_of_ne_or other) free' left').1
  · obtain ⟨-, mem', -⟩ := branches_without_pass wfR (branches.of_subset sub) free' left'
    have types := branches.slots or _ mem _ (sub mem')
    rw [slotType_of_leaf rfl, slotType_of_leaf rfl] at types
    obtain rfl : type = type' := types
    exact gone mem'

/-! ### Ands -/

/-- An And that has lost a fragment's part lacks the fragment. -/
theorem lacks_fill_and {g h : Frame} {own part rest : Condition} (wf : WellFormed (g.fill rest))
    (wfF : WellFormed (h.fill part)) (operator : g.operator = .and ∧ h.operator = .and)
    (new : own.id ∉ (h.fill part).childIds ∧ part.id ∉ (g.fill own).childIds)
    (shared : (∀ d ∈ g.others, d.id ∈ (h.fill part).childIds) ∧
      ∀ d ∈ h.others, d.id ∈ (g.fill own).childIds)
    (inner : Lacks part rest) : Lacks (h.fill part) (g.fill rest) := by
  have child {f : Frame} {y d : Condition} (mem : d ∈ f.others) : d.id ∈ (f.fill y).childIds :=
    List.mem_map_of_mem (Frame.mem_fill_children.mpr (.inr mem))
  refine lacks_of_ne_or wf wfF (by rw [Frame.fill_operator, operator.1]; decide) ?_ ?_
  · intro same
    have mem : part ∈ (g.fill rest).children := same ▸ Frame.mem_fill_children.mpr (.inl rfl)
    rcases Frame.mem_fill_children.mp mem with here | around
    · exact inner.ne wf.of_fill here.symm
    · exact new.2 (child around)
  · intro m found
    cases meets_of_meeting? wf wfF found with
    | @padded model g' h' own' part' faced whole other operator' =>
      have op := padTo_operator model (g.fill rest)
      rw [whole, Frame.fill_operator, operator'.1, Frame.fill_operator, operator.1] at op
      cases op
    | @ands g' h' own' part' whole other operator' new' shared' =>
      -- the only children that the two do not share are the ones in the place
      have memOwn : own' ∈ (g.fill rest).children := whole ▸ Frame.mem_fill_children.mpr (.inl rfl)
      have memPart : part' ∈ (h.fill part).children :=
        other ▸ Frame.mem_fill_children.mpr (.inl rfl)
      obtain rfl : own' = rest := (Frame.mem_fill_children.mp memOwn).resolve_right fun around =>
        new'.1 (shared.1 own' around)
      obtain rfl : part' = part := by
        refine (Frame.mem_fill_children.mp memPart).resolve_right fun around => ?_
        have inside := shared.2 part' around
        obtain ⟨d, mem, same⟩ := List.mem_map.mp inside
        rcases Frame.mem_fill_children.mp mem with rfl | old
        · exact new.1 (same ▸ List.mem_map_of_mem memPart)
        · exact new'.2 (same ▸ child old)
      intro free left remains
      rw [inner free] at remains
      cases remains

/-! ### Matches -/

/-- Matches that are the same but for one child meet at this child, if at all. -/
theorem eq_of_meetingOfMatches?_fill {g : Frame} {x y : Condition} {m : Meeting}
    (found : meetingOfMatches? (g.fill x) (g.fill y) = some m) : m.own = x ∧ m.part = y := by
  by_cases ids : x.id = y.id
  · rw [meetingOfMatches?, g.childIds_fill, g.childIds_fill, ids, onlyDifference?_self] at found
    cases found
  · rw [meetingOfMatches?_fill ids] at found
    cases found
    exact ⟨rfl, rfl⟩

theorem length_children_of_meetingOfMatches? {a b : Condition} {m : Meeting}
    (found : meetingOfMatches? a b = some m) : a.children.length = b.children.length := by
  unfold meetingOfMatches? at found
  split at found
  · exact (sameShape_iff.mp (meetingAt?_eq_some_iff.mp found).1).2.2
  · cases found

/-- A match that has lost a fragment's part lacks the fragment, if that is the same match around the
part. -/
theorem lacks_fill_matches {g : Frame} {part rest : Condition} (op : g.operator = .matches)
    (wf : WellFormed (g.fill rest)) (wfF : WellFormed (g.fill part)) (inner : Lacks part rest) :
    Lacks (g.fill part) (g.fill rest) := by
  refine lacks_of_ne_or wf wfF (by rw [Frame.fill_operator, op]; decide)
    (fun same => inner.ne wf.of_fill (g.fill_injective same)) fun m found free _ => ?_
  have alike := facing_of_length_eq (c := g.fill rest) (d := g.fill part) (by simp)
  simp only [meeting?, Frame.fill_operator, op, alike.2] at found
  obtain ⟨own, here⟩ := eq_of_meetingOfMatches?_fill found
  rw [own, here] at free
  rw [own, here, inner free]
  exact nofun

/-- Matches that meet have as many allowances once they are padded. -/
theorem length_allowances_of_padded {a b : Condition} (needs : needPadding a b) {m : Meeting}
    (opA : a.operator = .matches) (opB : b.operator = .matches) (found : meeting? a b = some m) :
    a.allowances.length = b.allowances.length := by
  obtain ⟨w, -, widest, -, meets⟩ := facing_of_needPadding needs
  simp only [meeting?, opA, opB, meets] at found
  have lengths := length_children_of_meetingOfMatches? found
  rw [length_children, length_children (padTo _ b), allowances_padTo, allowances_padTo,
    length_positional_padTo (widest a (by simp)), length_positional_padTo (widest b (by simp))]
    at lengths
  omega

/-- Where a match around another child meets what is padded to the same match around a part: at this
child, in the part, unless that is a free component of the fragment's padding. -/
theorem part_of_narrow {g : Frame} {own part rest : Condition} {m : Meeting}
    (op : g.operator = .matches) (differ : (g.fill own).children.length ≠ f.children.length)
    (narrow : f.positional.length ≤ (g.fill own).positional.length)
    (fills : padTo (g.fill own).positional f = g.fill part)
    (ownPart : part.isGlobalAllowance = false) (found : meeting? (g.fill rest) f = some m) :
    m.own = rest ∧
      (m.part = part ∨ m.part = pass rest.slotType ∧ part = pass part.slotType) := by
  have kind := kind_of_padTo_fill op fills
  by_cases needs : needPadding (g.fill rest) f
  swap
  · simp only [meeting?, Frame.fill_operator, op, kind.2, needs] at found
    exact absurd (length_children_of_meetingOfMatches? found) (by simpa using differ)
  obtain ⟨⟨⟨type, -⟩, openR⟩, openF⟩ : (((g.fill rest).paramType = f.paramType ∧
      (g.fill rest).children.length ≠ f.children.length) ∧ (g.fill rest).isOpenEnded) ∧
        f.isOpenEnded := by
    simpa [needPadding] using needs
  -- the other child is no allowance either, so that the match is as wide as it was
  have allowances := length_allowances_of_padded needs op kind.2 found
  have widths : (g.fill rest).positional.length = (g.fill part).positional.length := by
    have lengths : (g.fill rest).children.length = (g.fill part).children.length := by simp
    rw [length_children, length_children, allowances, ← fills, allowances_padTo, fills] at lengths
    omega
  have ownRest := isGlobalAllowance_of_length_positional widths ownPart
  have wide : f.positional.length ≤ (g.fill rest).positional.length := by
    rwa [widths, ← fills, length_positional_padTo narrow]
  obtain ⟨v, pads, -, same⟩ := exists_padTo_fill fills narrow ownPart ownRest
  simp only [meeting?, Frame.fill_operator, op, kind.2,
    (facing_of_wide type openR openF allowances wide).2, pads] at found
  obtain ⟨here, rfl⟩ := eq_of_meetingOfMatches?_fill found
  exact ⟨here, same⟩

/-- A match that has lost a fragment's part lacks the fragment, if that is padded to the same match
around the part. -/
theorem lacks_fill_of_narrow {g : Frame} {own part rest : Condition} (op : g.operator = .matches)
    (wf : WellFormed (g.fill own)) (wfF : WellFormed f)
    (differ : (g.fill own).children.length ≠ f.children.length)
    (narrow : f.positional.length ≤ (g.fill own).positional.length)
    (fills : padTo (g.fill own).positional f = g.fill part) (branches : UniformBranches own)
    (free : CollisionFree (comparedToSubtract own part))
    (left : difference own part = .remainder rest) (inner : Lacks part rest) :
    Lacks f (g.fill rest) := by
  have wfOwn := wf.of_fill
  have kind := kind_of_padTo_fill op fills
  have wfPart : WellFormed part := by
    have wfPadded := wfF.padTo (wfF.children_ne_nil (by rw [kind.2]; rfl)) (g.fill own).positional
    exact (fills ▸ wfPadded).of_fill
  have wfRest := wellFormed_of_difference wfOwn wfPart left
  have ownPart : part.isGlobalAllowance = false := by
    refine isGlobalAllowance_of_length_positional (f := g) (y := own) ?_
      (wfOwn.isGlobalAllowance_eq_false (children_ne_nil_of_difference wfOwn wfPart left))
    rw [← fills, length_positional_padTo narrow]
  refine lacks_of_ne_or (wf.refill wfRest) wfF (by rw [Frame.fill_operator, op]; decide) ?_ ?_
  · rintro rfl
    exact differ (by simp)
  intro m found freeMet remains
  obtain ⟨here, same⟩ := part_of_narrow op differ narrow fills ownPart found
  rw [here] at freeMet ⊢
  rcases same with same | ⟨made, isPass⟩
  · rw [same] at freeMet ⊢
    rw [inner freeMet]
    exact nofun
  · rw [made] at freeMet ⊢
    rw [isPass] at free left
    exact not_remainder_pass wfOwn branches free left freeMet remains

/-- A match that has lost a fragment's part lacks the fragment. -/
theorem lacks_fill_of_facing {model : List Condition} {g : Frame} {own part rest : Condition}
    (op : g.operator = .matches) (wf : WellFormed c) (wfF : WellFormed f)
    (faced : facing c f = [padTo model c, padTo model f]) (whole : padTo model c = g.fill own)
    (other : padTo model f = g.fill part) (wfRest : WellFormed rest)
    (branches : UniformBranches own) (free : CollisionFree (comparedToSubtract own part))
    (left : difference own part = .remainder rest) (inner : Lacks part rest) :
    Lacks f (g.fill rest) := by
  rw [whole, other] at faced
  have asFilled (same : f = g.fill part) : Lacks f (g.fill rest) := by
    have wfWhole : WellFormed (g.fill own) := by
      have wfPadded := wf.padTo (wf.children_ne_nil ?_) model
      · rwa [whole] at wfPadded
      · rw [(kind_of_padTo_fill op whole).2]
        rfl
    subst same
    exact lacks_fill_matches op (wfWhole.refill wfRest) wfF inner
  by_cases needs : needPadding c f
  swap
  · rw [facing, if_neg needs] at faced
    exact asFilled (List.cons.inj (List.cons.inj faced).2).1
  obtain ⟨w, mem, widest, pads, -⟩ := facing_of_needPadding needs
  obtain ⟨padC, padF⟩ : padTo w.positional c = g.fill own ∧ padTo w.positional f = g.fill part := by
    simpa using pads.symm.trans faced
  rcases List.mem_cons.mp mem with rfl | last
  · rw [padTo_of_le (Nat.le_refl _)] at padC
    subst padC
    have differ : (g.fill own).children.length ≠ f.children.length := by
      intro same
      rw [needPadding, same] at needs
      simp at needs
    exact lacks_fill_of_narrow op wf wfF differ (widest f (by simp)) padF branches free left inner
  · obtain rfl := List.mem_singleton.mp last
    rw [padTo_of_le (Nat.le_refl _)] at padF
    exact asFilled padF

/-! ### Conditions -/

/-- Where a fragment meets a condition, what is left lacks it if what is left of the child lacks the
fragment's part. -/
theorem Meets.leaves_lacks_replaced {m : Meeting} (meets : Meets c f m) (wf : WellFormed c)
    (wfF : WellFormed f) (free : CollisionFree (comparedToMeet c f))
    (freeMet : CollisionFree (comparedToSubtract m.own m.part)) (branches : UniformBranches m.own)
    (inner : Leaves (Lacks m.part) (difference m.own m.part)) :
    Leaves (Lacks f) (m.replaced (difference m.own m.part)) := by
  obtain ⟨-, wfOwn, wfPart⟩ := meets.wellFormed wf wfF
  cases left : difference m.own m.part with
  | unchanged => trivial
  | empty => trivial
  | remainder rest =>
    rw [left] at inner
    have wfRest := wellFormed_of_difference wfOwn wfPart left
    cases meets with
    | @ands g h own part whole other operator new shared =>
      subst whole other
      rw [Meeting.replaced, g.set_fill]
      exact lacks_fill_and (wf.refill wfRest) wfF operator new shared inner
    | @padded model g h own part faced whole other operator type around =>
      rw [comparedToMeet, (kind_of_padTo_fill operator.1 whole).2,
        (kind_of_padTo_fill operator.2 other).2] at free
      obtain rfl := free.frame_eq_of_faced faced whole other operator type around
      rw [Meeting.replaced, whole, g.set_fill]
      exact lacks_fill_of_facing operator.1 wf wfF faced whole other wfRest branches freeMet left
        inner

/-- **What subtraction leaves lacks the fragment.** -/
theorem leaves_lacks (wf : WellFormed c) (wfF : WellFormed f)
    (free : CollisionFree (comparedToSubtract c f)) (branches : Everywhere UniformBranches c) :
    Leaves (Lacks f) (difference c f) := by
  refine difference_induct
    (motive := fun c f o => CollisionFree (comparedToSubtract c f) → Everywhere UniformBranches c →
      Leaves (Lacks f) o)
    ?same ?branches ?each ?met ?apart wf wfF free branches
  case same => exact fun _ _ _ _ _ _ _ => trivial
  case branches =>
    exact fun c f wf wfF _ or orF _ branches =>
      leaves_lacks_subtractBranches wf wfF or orF branches.here
  case each =>
    exact fun c f wf wfF ids or other below free branches =>
      leaves_lacks_collected wf wfF or other fun d mem =>
        below d mem (free.alternative wf wfF ids or other mem) (branches.children d mem)
  case met =>
    intro c f m wf wfF ids other found below free branches
    have meets := meets_of_meeting? wf wfF found
    have freeMet := free.met wf wfF ids other found
    have branchesOwn := meets.everywhere_own (fun _ =>
      .mk (uniformBranches_of_ne_or nofun) fun _ mem => absurd mem List.not_mem_nil) branches
    exact meets.leaves_lacks_replaced wf wfF (free.toMeet wf wfF ids other) freeMet
      branchesOwn.here (below freeMet branchesOwn)
  case apart => exact fun _ _ _ _ _ _ _ _ _ => trivial

end Lacks

/-- The alternations of a tree in normal form are uniform if their slots are. -/
theorem everywhere_uniformBranches {c : Condition} (wf : WellFormed c)
    (fixed : normalize true c = pure c) (uniform : Everywhere UniformSlots c) :
    Everywhere UniformBranches c := by
  have same : normalForm true c = c := Run.pure_inj.mp (normalize_eq wf ▸ fixed)
  have tidy : Everywhere Tidy c := same ▸ everywhere_tidy_normalForm wf
  refine (tidy.and uniform).imp fun d ⟨tidy, slots⟩ => ⟨fun or e mem => ?_, fun or => ?_⟩
  · exact or ▸ tidy.flat (by rw [or]; rfl) e mem
  · exact slots (by rw [or]; rfl)

/-- **One subtraction removes every occurrence.** If something is left of a condition without a
fragment, subtracting the fragment again leaves that unchanged. The condition has to be one that
normalizing leaves as it is, with the children of every And, Or and Nor of one slot type; of the
fragment nothing is asked. All of this holds as long as neither subtraction compares two different
trees with the same id. -/
theorem subtract_removes_all {c f r : Condition} (wf : WellFormed c) (wfF : WellFormed f)
    (fixed : normalize true c = pure c) (uniform : Everywhere UniformSlots c)
    (left : subtract c f = pure (.remainder r))
    (free : CollisionFree (comparedToSubtract c f ++ comparedToSubtract r f)) :
    subtract r f = pure .unchanged := by
  have found : difference c f = .remainder r := Run.pure_inj.mp (subtract_eq wf wfF ▸ left)
  have lacks := leaves_lacks wf wfF (free.mono (List.subset_append_left _ _))
    (everywhere_uniformBranches wf fixed uniform)
  rw [found] at lacks
  rw [subtract_eq (wellFormed_of_difference wf wfF found) wfF,
    lacks (free.mono (List.subset_append_right _ _))]

/-- A call without a second component is subtracted from one whose second component may be anything,
or some byte: it is padded, and what is left is the call with the byte. -/
theorem subtract_narrowCall_twice :
    subtract (allowedCall [byteIs 1, anyOf [byteIs 2, pass .static]]) (allowedCall [byteIs 1]) =
        pure (.remainder (allowedCall [byteIs 1, byteIs 2])) ∧
      subtract (allowedCall [byteIs 1, byteIs 2]) (allowedCall [byteIs 1]) = pure .unchanged := by
  have wf : WellFormed (allowedCall [byteIs 1, anyOf [byteIs 2, pass .static]]) := by
    decide +kernel
  have wfF : WellFormed (allowedCall [byteIs 1]) := by decide +kernel
  have left : difference (allowedCall [byteIs 1, anyOf [byteIs 2, pass .static]])
      (allowedCall [byteIs 1]) = .remainder (allowedCall [byteIs 1, byteIs 2]) := by
    decide +kernel
  have once := (subtract_eq wf wfF).trans (congrArg pure left)
  have fixed := (normalize_eq_self_iff true wf (by decide +kernel)).mpr (by decide +kernel)
  exact ⟨once, subtract_removes_all wf wfF fixed (by decide +kernel) once (by decide +kernel)⟩

/-- With slots of two types a second subtraction takes more away: the fragment is first padded as
dynamic and then as static. -/
example :
    Everywhere (CanonicalShape true)
        (allowedCall [byteIs 1, anyOf [pass .dynamic, pass .static, byteIs 5]]) ∧
      difference (allowedCall [byteIs 1, anyOf [pass .dynamic, pass .static, byteIs 5]])
        (allowedCall [byteIs 1]) =
          .remainder (allowedCall [byteIs 1, anyOf [pass .static, byteIs 5]]) ∧
      difference (allowedCall [byteIs 1, anyOf [pass .static, byteIs 5]]) (allowedCall [byteIs 1]) =
        .remainder (allowedCall [byteIs 1, byteIs 5]) := by
  decide +kernel

end Condition

end CallGuard
