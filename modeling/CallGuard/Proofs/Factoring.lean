import CallGuard.Proofs.Compared

/-!
# Branches with a hinge, told apart by their ids

Where ids tell trees apart, frames that agree by position are one frame, and frames that agree by
content have the same children around the place. So matches with a hinge are one frame filled
with different trees (`factor?_matches_iff`), none of which is an allowance or all of which are:
padded matches have the same number of components.
-/

namespace CallGuard

namespace Condition

/-! ### Matches -/

theorem comparedBranches_of_matches {bs : List Condition} (h : commonOperator? bs = some .matches) :
    comparedBranches bs = bs ++ (padded bs).flatMap children := by
  rw [comparedBranches, h]

theorem comparedBranches_of_and {bs : List Condition} (h : commonOperator? bs = some .and) :
    comparedBranches bs = bs.flatMap children := by
  rw [comparedBranches, h]

/-- Filled frames of one type and operator with the same ids around the place are one frame. -/
theorem CollisionFree.frame_eq {bs : List Condition} (free : CollisionFree (bs.flatMap children))
    {f g : Frame} {x y : Condition} (memF : f.fill x ∈ bs) (memG : g.fill y ∈ bs)
    (type : f.paramType = g.paramType) (op : f.operator = g.operator)
    (before : f.before.map id = g.before.map id) (after : f.after.map id = g.after.map id) :
    f = g := by
  have inside {f : Frame} {x : Condition} (mem : f.fill x ∈ bs) :
      f.others ⊆ bs.flatMap children := fun d memD =>
    List.mem_flatMap.mpr ⟨f.fill x, mem, Frame.mem_fill_children.mpr (.inr memD)⟩
  have sameBefore := free.eq_of_map_id (fun d mem => inside memF (List.mem_append_left _ mem))
    (fun d mem => inside memG (List.mem_append_left _ mem)) before
  have sameAfter := free.eq_of_map_id (fun d mem => inside memF (List.mem_append_right _ mem))
    (fun d mem => inside memG (List.mem_append_right _ mem)) after
  obtain ⟨_, _, _, _⟩ := f
  obtain ⟨_, _, _, _⟩ := g
  dsimp only at type op sameBefore sameAfter
  rw [type, op, sameBefore, sameAfter]

/-- A filled frame has a component more when filled with what is no allowance. -/
theorem length_positional_fill (f : Frame) (x : Condition) :
    (f.fill x).positional.length = (f.others.filter fun d => !d.isGlobalAllowance).length +
      if x.isGlobalAllowance then 0 else 1 := by
  have perm := (f.fill_children_perm x).filter fun d => !d.isGlobalAllowance
  rw [positional, perm.length_eq, List.filter_cons]
  cases x.isGlobalAllowance <;> simp

/-- What fills a frame to matches of one width is an allowance in all or in none. -/
theorem isGlobalAllowance_of_length_positional {f : Frame} {x y : Condition}
    (widths : (f.fill x).positional.length = (f.fill y).positional.length)
    (own : y.isGlobalAllowance = false) : x.isGlobalAllowance = false := by
  rw [length_positional_fill, length_positional_fill, own] at widths
  by_contra allowance
  rw [Bool.not_eq_false] at allowance
  simp [allowance] at widths

/-- Frames of matches of one type that agree by position are one frame. -/
theorem AgreeByPosition.frame_eq {first : Frame × Condition} {rest : List (Frame × Condition)}
    (agree : AgreeByPosition (first :: rest))
    (free : CollisionFree (((first :: rest).map filled).flatMap children))
    {type : ParamType} {op : Operator}
    (common : ∀ b ∈ (first :: rest).map filled, b.paramType = type ∧ b.operator = op)
    {p : Frame × Condition} (mem : p ∈ first :: rest) : p.1 = first.1 := by
  have here := common _ (List.mem_map_of_mem mem)
  have there := common _ (List.mem_map_of_mem List.mem_cons_self)
  exact free.frame_eq (List.mem_map_of_mem mem) (List.mem_map_of_mem List.mem_cons_self)
    (here.1.trans there.1.symm) (here.2.trans there.2.symm) (agree.around_first mem).1
    (agree.around_first mem).2

/-- Parts with one frame, filled, are the frame filled with what they hold. -/
theorem map_filled_of_frame_eq {f : Frame} {parts : List (Frame × Condition)}
    (frame : ∀ p ∈ parts, p.1 = f) : parts.map filled = (parts.map Prod.snd).map f.fill := by
  rw [List.map_map]
  exact List.map_congr_left fun p mem => by rw [Function.comp, filled, frame p mem]

/-- One frame filled with trees of different ids agrees with itself by position. -/
theorem agreeByPosition_of_nodup (f : Frame) {xs : List Condition} (distinct : (xs.map id).Nodup) :
    AgreeByPosition (xs.map fun x => (f, x)) := by
  rw [List.Nodup, List.pairwise_map] at distinct
  rw [AgreeByPosition, List.pairwise_map]
  exact distinct.imp fun differ => ⟨rfl, rfl, differ⟩

/-- Padding gives matches one number of components, so that what fills a frame to two of them is
an allowance in both or in neither. -/
theorem isGlobalAllowance_eq_false_of_padded {bs : List Condition} {f : Frame} {x y : Condition}
    (memX : f.fill x ∈ padded bs) (memY : f.fill y ∈ padded bs)
    (own : y.isGlobalAllowance = false) : x.isGlobalAllowance = false :=
  isGlobalAllowance_of_length_positional (length_positional_padded memX memY) own

/-- **Matches with a hinge** are one frame filled with different trees, none an allowance. -/
theorem factor?_matches_iff {bs : List Condition} (wf : ∀ b ∈ bs, WellFormed b)
    (common : commonOperator? bs = some .matches) (free : CollisionFree (comparedBranches bs))
    {d : Condition} : factor? bs = some d ↔ ∃ (f : Frame) (xs : List Condition),
      padded bs = xs.map f.fill ∧ 2 ≤ xs.length ∧ (xs.map id).Nodup ∧
      (∀ x ∈ xs, x.isGlobalAllowance = false) ∧ d = f.fill (anyOf xs) := by
  rw [factor?_eq_some_iff wf]
  rw [comparedBranches_of_matches common] at free
  constructor
  · rintro ⟨op, first, rest, common', eq, some, agree, rfl⟩
    obtain rfl : op = .matches := Option.some.inj (common'.symm.trans common)
    rcases agree with ⟨-, agree, own⟩ | ⟨other, -⟩
    swap
    · cases other
    rw [leveled_of_matches common] at eq
    obtain ⟨type, all⟩ := leveled_operator common
    rw [leveled_of_matches common, eq] at all
    have frame : ∀ p ∈ first :: rest, p.1 = first.1 := fun p mem => by
      refine agree.frame_eq (free.mono fun x memX => ?_) all mem
      rw [eq]
      exact List.mem_append_right _ memX
    have refilled := eq.trans (map_filled_of_frame_eq frame)
    have inside {x : Condition} (mem : x ∈ (first :: rest).map Prod.snd) :
        first.1.fill x ∈ padded bs := refilled ▸ List.mem_map_of_mem mem
    refine ⟨first.1, (first :: rest).map Prod.snd, refilled, ?_, ?_, ?_, rfl⟩
    · have := List.length_pos_of_ne_nil some
      simp only [List.length_map, List.length_cons]
      omega
    · rw [List.map_map]
      exact agree.nodup_ids
    · exact fun x mem => isGlobalAllowance_eq_false_of_padded (inside mem)
        (inside List.mem_cons_self) own
  · rintro ⟨f, xs, eq, many, distinct, own, rfl⟩
    obtain ⟨x, y, zs, rfl⟩ := exists_eq_cons_cons many
    have snds (ys : List Condition) : (ys.map fun x => (f, x)).map Prod.snd = ys := by
      rw [List.map_map]
      exact List.map_id ys
    refine ⟨.matches, (f, x), (y :: zs).map fun x => (f, x), common, ?_, by simp,
      .inl ⟨rfl, agreeByPosition_of_nodup f distinct, own x List.mem_cons_self⟩, ?_⟩
    · rw [leveled_of_matches common, eq]
      simp [filled]
    · rw [List.map_cons, snds]

/-! ### Ands -/

/-- A tree with the id of a child that is not the one in the place stands around the place. -/
theorem mem_others_of_id {trees : List Condition} (free : CollisionFree trees) {d : Condition}
    (inside : d ∈ trees) {f : Frame} {x : Condition} (sub : (f.fill x).children ⊆ trees)
    (ids : d.id ∈ (f.fill x).childIds) (other : d.id ≠ x.id) : d ∈ f.others :=
  (Frame.mem_fill_children.mp (free.mem_of_map_id inside sub ids)).resolve_left
    fun here => other (here ▸ rfl)

/-- Frames that agree by content have the same children around the place. -/
theorem AgreeByContent.mem_others_iff {parts : List (Frame × Condition)}
    (agree : AgreeByContent parts) (free : CollisionFree ((parts.map filled).flatMap children))
    {p q : Frame × Condition} (memP : p ∈ parts) (memQ : q ∈ parts) {d : Condition} :
    d ∈ p.1.others ↔ d ∈ q.1.others := by
  have carry {p q : Frame × Condition} (memP : p ∈ parts) (memQ : q ∈ parts)
      (mem : d ∈ p.1.others) : d ∈ q.1.others := by
    have rows : (parts.map filled).map childIds ≠ [] := by
      simpa using List.ne_nil_of_mem memP
    have shared := (agree p memP).2 d mem
    have filledP : filled p ∈ parts.map filled := List.mem_map_of_mem memP
    have filledQ : filled q ∈ parts.map filled := List.mem_map_of_mem memQ
    refine mem_others_of_id free
      (List.mem_flatMap.mpr ⟨filled p, filledP, Frame.mem_fill_children.mpr (.inr mem)⟩)
      (fun e memE => List.mem_flatMap.mpr ⟨filled q, filledQ, memE⟩)
      ((mem_sharedIds rows).mp shared _ (List.mem_map_of_mem filledQ)) fun here => ?_
    exact (agree q memQ).1 (here ▸ shared)
  exact ⟨carry memP memQ, carry memQ memP⟩

/-- Frames that agree by content, of nodes that repeat no child, have the same children around the
place up to order. -/
theorem AgreeByContent.others_perm {parts : List (Frame × Condition)}
    (agree : AgreeByContent parts) (free : CollisionFree ((parts.map filled).flatMap children))
    (distinct : ∀ b ∈ parts.map filled, b.childIds.Nodup)
    {p q : Frame × Condition} (memP : p ∈ parts) (memQ : q ∈ parts) :
    p.1.others.Perm q.1.others := by
  have nodup {p : Frame × Condition} (memP : p ∈ parts) : p.1.others.Nodup := by
    have all := nodup_of_nodup_ids (distinct _ (List.mem_map_of_mem memP))
    exact (List.nodup_cons.mp ((p.1.fill_children_perm p.2).nodup_iff.mp all)).2
  exact (List.perm_ext_iff_of_nodup (nodup memP) (nodup memQ)).mpr
    fun d => agree.mem_others_iff free memP memQ

end Condition

end CallGuard
