import CallGuard.Proofs.Hinge
import CallGuard.Subtraction

/-!
# Where a fragment meets a condition

A fragment meets a condition at a place if the two are filled frames that differ in nothing but
what they are filled with, as far as ids tell: two Ands share all children around the place, two
matches, padded if need be, have the same children in the same places. `meets_of_meeting?` says
that subtraction goes on at such places only.
-/

namespace CallGuard

namespace Condition

/-- Two matches as they are compared: padded if they need it. -/
def facing (c fragment : Condition) : List Condition :=
  if needPadding c fragment then padded [c, fragment] else [c, fragment]

/-- That a condition and a fragment are filled frames that differ in what they are filled with. -/
inductive Meets (c fragment : Condition) : Meeting → Prop where
  /-- Ands that share the children around the place. -/
  | ands {f g : Frame} {own part : Condition} (whole : c = f.fill own)
      (other : fragment = g.fill part) (operator : f.operator = .and ∧ g.operator = .and)
      (new : own.id ∉ fragment.childIds ∧ part.id ∉ c.childIds)
      (shared : (∀ d ∈ f.others, d.id ∈ fragment.childIds) ∧ ∀ d ∈ g.others, d.id ∈ c.childIds) :
      Meets c fragment ⟨c, f.before.length, own, part⟩
  /-- Matches of one type, as they are compared, with the same children around the place. -/
  | padded {model : List Condition} {f g : Frame} {own part : Condition}
      (faced : facing c fragment = [padTo model c, padTo model fragment])
      (whole : padTo model c = f.fill own) (other : padTo model fragment = g.fill part)
      (operator : f.operator = .matches ∧ g.operator = .matches)
      (type : f.paramType = g.paramType)
      (around : f.before.map id = g.before.map id ∧ f.after.map id = g.after.map id) :
      Meets c fragment ⟨padTo model c, f.before.length, own, part⟩

theorem sameShape_iff {a b : Condition} : sameShape a b ↔
    a.operator = b.operator ∧ a.paramType = b.paramType ∧
      a.children.length = b.children.length := by
  simp [sameShape, and_assoc]

theorem meetingAt?_eq_some_iff {c fragment : Condition} {i j : Nat} {m : Meeting} :
    meetingAt? c fragment i j = some m ↔ sameShape c fragment ∧ ∃ own part,
      c.children[i]? = some own ∧ fragment.children[j]? = some part ∧ m = ⟨c, i, own, part⟩ := by
  unfold meetingAt?
  split
  · rename_i own part shape ownAt partAt
    simp [shape, ownAt, partAt, eq_comm]
  · rename_i other
    refine ⟨nofun, fun ⟨shape, own, part, ownAt, partAt, _⟩ => ?_⟩
    exact absurd partAt (other own part shape ownAt)

theorem operand_eq_nil_of_operator {c : Condition} (wf : WellFormed c)
    (needs : c.operator.requiresChildren) : c.operand = [] :=
  wf.operand_eq_nil (wf.children_ne_nil needs)

/-- Ands meet around the children that the other shares. -/
theorem meets_of_meetingOfAnds? {c fragment : Condition} (wf : WellFormed c)
    (wfF : WellFormed fragment) (op : c.operator = .and) (opF : fragment.operator = .and)
    {m : Meeting} (h : meetingOfAnds? c fragment = some m) : Meets c fragment m := by
  unfold meetingOfAnds? at h
  dsimp only at h
  split at h
  swap
  · cases h
  rename_i i j foundI foundJ
  obtain ⟨⟨f, own⟩, rfl, rfl, newOwn, sharedOwn⟩ := (onlyIndex?_childIds_eq_some_iff
    (operand_eq_nil_of_operator wf (by rw [op]; rfl))).mp foundI
  obtain ⟨⟨g, part⟩, rfl, rfl, newPart, sharedPart⟩ := (onlyIndex?_childIds_eq_some_iff
    (operand_eq_nil_of_operator wfF (by rw [opF]; rfl))).mp foundJ
  obtain ⟨-, own', part', ownAt, partAt, rfl⟩ := meetingAt?_eq_some_iff.mp h
  obtain rfl : own = own' := Option.some.inj ((f.getElem?_fill_children own).symm.trans ownAt)
  obtain rfl : part = part' := Option.some.inj ((g.getElem?_fill_children part).symm.trans partAt)
  exact .ands rfl rfl ⟨op, opF⟩ ⟨newOwn, newPart⟩ ⟨sharedOwn, sharedPart⟩

/-- Matches meet at the only position at which they differ. -/
theorem exists_fill_of_meetingOfMatches? {c fragment : Condition} (bare : c.operand = [])
    (bareF : fragment.operand = []) {m : Meeting} (h : meetingOfMatches? c fragment = some m) :
    ∃ (f g : Frame) (own part : Condition), c = f.fill own ∧ fragment = g.fill part ∧
      f.paramType = g.paramType ∧
      (f.before.map id = g.before.map id ∧ f.after.map id = g.after.map id) ∧
      m = ⟨c, f.before.length, own, part⟩ := by
  unfold meetingOfMatches? at h
  split at h
  swap
  · cases h
  rename_i i found
  obtain ⟨shape, own', part', ownAt, partAt, rfl⟩ := meetingAt?_eq_some_iff.mp h
  obtain ⟨-, type, length⟩ := sameShape_iff.mp shape
  obtain ⟨before, x, y, after, ids, idsF, rfl, -⟩ :=
    (onlyDifference?_eq_some_iff (by simpa [childIds] using length)).mp found
  obtain ⟨⟨f, own⟩, rfl, rfl, rfl, rfl⟩ := exists_filled bare ids
  obtain ⟨⟨g, part⟩, rfl, before, rfl, after⟩ := exists_filled bareF idsF
  have sameLength : f.before.length = g.before.length := by
    simpa using (congrArg List.length before).symm
  rw [List.length_map] at ownAt partAt ⊢
  rw [sameLength] at partAt
  obtain rfl : own = own' := Option.some.inj ((f.getElem?_fill_children own).symm.trans ownAt)
  obtain rfl : part = part' := Option.some.inj ((g.getElem?_fill_children part).symm.trans partAt)
  exact ⟨f, g, own, part, rfl, rfl, type, ⟨before.symm, after.symm⟩, rfl⟩

/-- Matches are compared padded to a common model, if only to none. -/
theorem exists_facing (c fragment : Condition) : ∃ model,
    facing c fragment = [padTo model c, padTo model fragment] ∧
      (if needPadding c fragment then meetingOfPadded? c fragment (padded [c, fragment])
        else meetingOfMatches? c fragment) =
      meetingOfMatches? (padTo model c) (padTo model fragment) := by
  unfold facing
  by_cases h : needPadding c fragment
  · rw [if_pos h, if_pos h]
    obtain ⟨m, -, eq, -⟩ := padded_eq (List.cons_ne_nil c [fragment])
    exact ⟨m.positional, eq, by rw [eq]; rfl⟩
  · rw [if_neg h, if_neg h]
    refine ⟨[], ?_, ?_⟩ <;> rw [padTo_of_le (Nat.zero_le _), padTo_of_le (Nat.zero_le _)]

/-- **A fragment meets a condition** only where the two are filled frames that agree. -/
theorem meets_of_meeting? {c fragment : Condition} (wf : WellFormed c) (wfF : WellFormed fragment)
    {m : Meeting} (h : meeting? c fragment = some m) : Meets c fragment m := by
  unfold meeting? at h
  split at h
  · rename_i op opF
    exact meets_of_meetingOfAnds? wf wfF op opF h
  · rename_i op opF
    obtain ⟨model, faced, eq⟩ := exists_facing c fragment
    rw [eq] at h
    obtain ⟨f, g, own, part, whole, other, type, around, rfl⟩ :=
      exists_fill_of_meetingOfMatches?
        (by rw [padTo_operand, operand_eq_nil_of_operator wf (by rw [op]; rfl)])
        (by rw [padTo_operand, operand_eq_nil_of_operator wfF (by rw [opF]; rfl)]) h
    have opWhole : f.operator = .matches := by
      rw [← Frame.fill_operator f own, ← whole, padTo_operator, op]
    have opOther : g.operator = .matches := by
      rw [← Frame.fill_operator g part, ← other, padTo_operator, opF]
    exact .padded faced whole other ⟨opWhole, opOther⟩ type around
  · cases h

/-! ### The parts of a meeting -/

section Meets

variable {c fragment : Condition} {m : Meeting}

/-- A condition meets fragments of its own operator, which is And or that of matches. -/
theorem Meets.operator (h : Meets c fragment m) :
    (c.operator = .and ∨ c.operator = .matches) ∧ fragment.operator = c.operator := by
  cases h with
  | ands whole other operator =>
    rw [whole, other]
    exact ⟨.inl operator.1, operator.2.trans operator.1.symm⟩
  | @padded model f g own part faced whole other operator =>
    have op : c.operator = .matches := by
      rw [← padTo_operator model, whole]
      exact operator.1
    have opF : fragment.operator = .matches := by
      rw [← padTo_operator model, other]
      exact operator.2
    exact ⟨.inr op, opF.trans op.symm⟩

/-- What a fragment meets is no allowance. -/
theorem Meets.isGlobalAllowance_eq_false (h : Meets c fragment m) :
    c.isGlobalAllowance = false := by
  rw [isGlobalAllowance]
  rcases h.operator.1 with op | op <;> rw [op] <;> rfl

/-- A condition that is met is a filled frame, and is left with another child in the place. -/
theorem Meets.exists_fill (h : Meets c fragment m) : ∃ f : Frame, m.whole = f.fill m.own ∧
    f.operator = c.operator ∧
    ∀ rest, m.replaced (.remainder rest) = .remainder (f.fill rest) := by
  cases h with
  | @ands f g own part whole other operator =>
    refine ⟨f, whole, by rw [whole]; rfl, fun rest => ?_⟩
    rw [Meeting.replaced, whole, f.set_fill]
  | @padded model f g own part faced whole other operator =>
    refine ⟨f, whole, ?_, fun rest => ?_⟩
    · rw [← Frame.fill_operator f own, ← whole, padTo_operator]
    · rw [Meeting.replaced, whole, f.set_fill]

theorem Meets.wellFormed (h : Meets c fragment m) (wf : WellFormed c) (wfF : WellFormed fragment) :
    WellFormed m.whole ∧ WellFormed m.own ∧ WellFormed m.part := by
  cases h with
  | ands whole other => exact ⟨wf, (whole ▸ wf).of_fill, (other ▸ wfF).of_fill⟩
  | @padded model f g own part faced whole other operator =>
    have wfWhole : WellFormed (padTo model c) := by
      refine wf.padTo (wf.children_ne_nil ?_) model
      rw [← padTo_operator model, whole, Frame.fill_operator, operator.1]
      rfl
    have wfOther : WellFormed (padTo model fragment) := by
      refine wfF.padTo (wfF.children_ne_nil ?_) model
      rw [← padTo_operator model, other, Frame.fill_operator, operator.2]
      rfl
    exact ⟨wfWhole, (whole ▸ wfWhole).of_fill, (other ▸ wfOther).of_fill⟩

/-- What holds everywhere in a condition, and of free components, holds everywhere in the child at
the place. -/
theorem Meets.everywhere_own {P : Condition → Prop} (h : Meets c fragment m)
    (free : ∀ type, Everywhere P (pass type)) (all : Everywhere P c) : Everywhere P m.own := by
  cases h with
  | ands whole =>
    exact all.children _ (whole ▸ Frame.mem_fill_children.mpr (.inl rfl))
  | @padded model f g own part faced whole other operator =>
    have mem : own ∈ (padTo model c).children := whole ▸ Frame.mem_fill_children.mpr (.inl rfl)
    rcases mem_children_padTo mem with inside | ⟨type, rfl⟩
    · exact all.children own inside
    · exact free type

/-- **Subtraction goes down the condition.** -/
theorem Meets.nodeCount_lt (h : Meets c fragment m) (wf : WellFormed c) :
    m.own.nodeCount < c.nodeCount := by
  cases h with
  | ands whole =>
    exact nodeCount_lt_of_mem (whole ▸ Frame.mem_fill_children.mpr (.inl rfl))
  | @padded model f g own part faced whole other operator =>
    refine weight_snd_add_le_of_padTo (p := (f, own)) passLightest_unitWeight wf
      (wf.children_ne_nil ?_) whole
    rw [← padTo_operator model, whole, Frame.fill_operator, operator.1]
    rfl

end Meets

/-! ### Nodes that differ in one child -/

/-- Matches that are the same but for one child meet at this child. -/
theorem meetingOfMatches?_fill {f : Frame} {x y : Condition} (differ : x.id ≠ y.id) :
    meetingOfMatches? (f.fill x) (f.fill y) = some ⟨f.fill x, f.before.length, x, y⟩ := by
  have found : onlyDifference? (f.fill x).childIds (f.fill y).childIds = some f.before.length :=
    (onlyDifference?_eq_some_iff (by simp [childIds])).mpr ⟨f.before.map id, x.id, y.id,
      f.after.map id, f.childIds_fill x, f.childIds_fill y, by simp, differ⟩
  rw [meetingOfMatches?, found]
  exact meetingAt?_eq_some_iff.mpr ⟨sameShape_iff.mpr ⟨rfl, rfl, by simp⟩, x, y,
    f.getElem?_fill_children x, f.getElem?_fill_children y, rfl⟩

/-- Ands meet at the children that they do not share. -/
theorem meetingOfAnds?_fill {f g : Frame} {x y : Condition}
    (same : f.paramType = g.paramType ∧ f.operator = g.operator) (perm : f.others.Perm g.others)
    (new : x.id ∉ (g.fill y).childIds ∧ y.id ∉ (f.fill x).childIds) :
    meetingOfAnds? (f.fill x) (g.fill y) = some ⟨f.fill x, f.before.length, x, y⟩ := by
  have shared {f g : Frame} {y : Condition} (perm : f.others.Perm g.others) :
      ∀ d ∈ f.others, d.id ∈ (g.fill y).childIds := fun d mem =>
    List.mem_map_of_mem (Frame.mem_fill_children.mpr (.inr (perm.mem_iff.mp mem)))
  have own := (onlyIndex?_childIds_eq_some_iff (b := f.fill x) rfl).mpr
    ⟨(f, x), rfl, rfl, new.1, shared perm⟩
  have other := (onlyIndex?_childIds_eq_some_iff (b := g.fill y) rfl).mpr
    ⟨(g, y), rfl, rfl, new.2, shared perm.symm⟩
  have lengths := ((f.fill_children_perm x).trans
    ((perm.cons x).trans (g.fill_children_perm x).symm)).length_eq
  unfold meetingOfAnds?
  dsimp only
  rw [own, other]
  have shapes : sameShape (f.fill x) (g.fill y) :=
    sameShape_iff.mpr ⟨same.2, same.1, by simpa using lengths⟩
  exact meetingAt?_eq_some_iff.mpr
    ⟨shapes, x, y, f.getElem?_fill_children x, g.getElem?_fill_children y, rfl⟩

/-- Matches with as many children are compared as they are. -/
theorem facing_of_length_eq {c d : Condition} (same : c.children.length = d.children.length) :
    facing c d = [c, d] ∧
      (if needPadding c d then meetingOfPadded? c d (padded [c, d]) else meetingOfMatches? c d) =
        meetingOfMatches? c d := by
  have needs : needPadding c d = false := by simp [needPadding, same]
  rw [facing, needs]
  exact ⟨rfl, rfl⟩

/-- Matches that need padding are compared as wide as the wider of them. -/
theorem facing_of_needPadding {c d : Condition} (needs : needPadding c d) :
    ∃ m ∈ [c, d], (∀ e ∈ [c, d], e.positional.length ≤ m.positional.length) ∧
      facing c d = [padTo m.positional c, padTo m.positional d] ∧
      (if needPadding c d then meetingOfPadded? c d (padded [c, d]) else meetingOfMatches? c d) =
        meetingOfMatches? (padTo m.positional c) (padTo m.positional d) := by
  obtain ⟨m, mem, eq, widest⟩ := padded_eq (List.cons_ne_nil c [d])
  refine ⟨m, mem, widest, ?_, ?_⟩
  · rw [facing, if_pos needs, eq]
    rfl
  · rw [if_pos needs, eq]
    rfl

theorem length_children (c : Condition) :
    c.children.length = c.positional.length + c.allowances.length := by
  rw [← (positional_append_allowances_perm c).length_eq, List.length_append]

/-- Open-ended matches of one type with as many allowances need padding if they have different
numbers of components. -/
theorem needPadding_iff {c d : Condition} (type : c.paramType = d.paramType)
    (openC : c.isOpenEnded) (openD : d.isOpenEnded)
    (allowances : c.allowances.length = d.allowances.length) :
    needPadding c d ↔ c.positional.length ≠ d.positional.length := by
  simp [needPadding, type, openC, openD, length_children, allowances]

/-- An open-ended match is compared as it is with one that is no wider and has as many
allowances. -/
theorem facing_of_wide {c d : Condition} (type : c.paramType = d.paramType)
    (openC : c.isOpenEnded) (openD : d.isOpenEnded)
    (allowances : c.allowances.length = d.allowances.length)
    (wide : d.positional.length ≤ c.positional.length) :
    facing c d = [c, padTo c.positional d] ∧
      (if needPadding c d then meetingOfPadded? c d (padded [c, d]) else meetingOfMatches? c d) =
        meetingOfMatches? c (padTo c.positional d) := by
  rcases Nat.lt_or_eq_of_le wide with narrow | same
  · obtain ⟨m, mem, widest, faced⟩ :=
      facing_of_needPadding ((needPadding_iff type openC openD allowances).mpr narrow.ne')
    obtain rfl : m = c := by
      rcases List.mem_cons.mp mem with rfl | last
      · rfl
      · have := widest c List.mem_cons_self
        rw [List.mem_singleton.mp last] at this
        omega
    rwa [padTo_of_le (Nat.le_refl _)] at faced
  · rw [padTo_of_le same.ge]
    exact facing_of_length_eq (by rw [length_children, length_children, same, allowances])

/-- An open-ended match is padded to be compared with one that is wider and has as many
allowances. -/
theorem facing_of_narrow {c d : Condition} (type : c.paramType = d.paramType)
    (openC : c.isOpenEnded) (openD : d.isOpenEnded)
    (allowances : c.allowances.length = d.allowances.length)
    (narrow : c.positional.length < d.positional.length) :
    facing c d = [padTo d.positional c, d] ∧
      (if needPadding c d then meetingOfPadded? c d (padded [c, d]) else meetingOfMatches? c d) =
        meetingOfMatches? (padTo d.positional c) d := by
  obtain ⟨m, mem, widest, faced⟩ :=
    facing_of_needPadding ((needPadding_iff type openC openD allowances).mpr narrow.ne)
  obtain rfl : m = d := by
    rcases List.mem_cons.mp mem with rfl | last
    · have := widest d (List.mem_cons_of_mem m (List.mem_singleton_self d))
      omega
    · exact List.mem_singleton.mp last
  rwa [padTo_of_le (Nat.le_refl m.positional.length)] at faced

end Condition

end CallGuard
