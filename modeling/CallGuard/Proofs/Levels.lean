import CallGuard.Proofs.Exactness
import CallGuard.Proofs.Shrinking

/-!
# Levels and subtraction

Subtraction adds no levels: what it leaves is no deeper than the condition (`leaves_depth`). And
nothing can be subtracted from a condition that has fewer levels itself
(`depth_le_of_difference`).
-/

namespace CallGuard

namespace Condition

/-! ### Nodes -/

theorem Frame.depth_fill_le {f : Frame} {x y : Condition} (le : y.depth ≤ x.depth) :
    (f.fill y).depth ≤ (f.fill x).depth := by
  refine depth_le_of_children fun d mem => ?_
  rcases Frame.mem_fill_children.mp mem with rfl | other
  · exact le.trans_lt (depth_lt_of_mem (Frame.mem_fill_children.mpr (.inl rfl)))
  · exact depth_lt_of_mem (Frame.mem_fill_children.mpr (.inr other))

theorem Meets.depth_whole_le {c fragment : Condition} {m : Meeting} (h : Meets c fragment m)
    (wf : WellFormed c) : m.whole.depth ≤ c.depth := by
  have some : c.children ≠ [] := by
    refine wf.children_ne_nil ?_
    rcases h.operator.1 with op | op <;> rw [op] <;> rfl
  cases h with
  | ands => exact Nat.le_refl _
  | @padded model => exact depth_padTo_le some model

/-! ### What is left -/

theorem leaves_depth_remaining {c : Condition} {kept : List Condition}
    (below : ∀ d ∈ kept, d.depth < c.depth) :
    Leaves (fun r => r.depth ≤ c.depth) (c.remaining kept) :=
  leaves_remaining (fun d mem => (below d mem).le) fun _ => depth_le_of_children below

/-- **What subtraction leaves is no deeper** than what was subtracted from. -/
theorem leaves_depth {c f : Condition} (wf : WellFormed c) (wfF : WellFormed f) :
    Leaves (fun r => r.depth ≤ c.depth) (difference c f) := by
  refine difference_induct (motive := fun c _ o => Leaves (fun r => r.depth ≤ c.depth) o)
    ?same ?branches ?each ?met ?apart wf wfF
  case same => exact fun _ _ _ _ _ => trivial
  case branches =>
    intro c f _ _ _ _ _
    unfold subtractBranches
    dsimp only
    split
    · exact leaves_depth_remaining fun d mem => depth_lt_of_mem (List.mem_of_mem_filter mem)
    · trivial
  case each =>
    intro c f _ _ _ _ _ below
    rcases collected_cases c (difference · f) with ⟨-, eq⟩ | ⟨-, kept, eq, keeps⟩
    · rw [eq]
      trivial
    · rw [eq]
      refine leaves_depth_remaining fun d mem => ?_
      rcases (keeps d).mp mem with ⟨own, -⟩ | ⟨e, memE, outcome⟩
      · exact depth_lt_of_mem own
      · have inner := below e memE
        rw [outcome] at inner
        exact Nat.lt_of_le_of_lt inner (depth_lt_of_mem memE)
  case met =>
    intro c f m wf wfF _ _ found below
    have meets := meets_of_meeting? wf wfF found
    obtain ⟨frame, whole, -, replaced⟩ := meets.exists_fill
    cases left : difference m.own m.part with
    | unchanged => trivial
    | empty => trivial
    | remainder rest =>
      rw [left] at below
      rw [replaced rest]
      have inner := Frame.depth_fill_le (f := frame) below
      rw [← whole] at inner
      exact inner.trans (meets.depth_whole_le wf)
  case apart => exact fun _ _ _ _ _ _ _ => trivial

/-! ### What can be subtracted -/

/-- Alternatives that an alternation has all are no deeper. -/
theorem depth_le_of_subtractBranches {c f : Condition}
    (free : CollisionFree ([c, f].flatMap children)) (changed : c.subtractBranches f ≠ .unchanged) :
    f.depth ≤ c.depth := by
  unfold subtractBranches at changed
  dsimp only at changed
  split at changed
  swap
  · exact absurd rfl changed
  rename_i all
  refine depth_le_of_children fun d mem => ?_
  have found := List.all_eq_true.mp all d.id (List.mem_map_of_mem mem)
  exact depth_lt_of_mem (free.mem_of_map_id (by simp [mem]) (fun e memE => by simp [memE])
    (List.contains_iff_mem.mp found))

/-- A fragment is no deeper than a condition that it meets if its part there is no deeper. -/
theorem Meets.depth_le {c f : Condition} {m : Meeting} (meets : Meets c f m) (wf : WellFormed c)
    (free : CollisionFree (comparedToMeet c f)) (below : m.part.depth ≤ m.own.depth) :
    f.depth ≤ c.depth := by
  cases meets with
  | @ands g h own part whole other operator new shared =>
    have opC : c.operator = .and := whole ▸ operator.1
    have opF : f.operator = .and := other ▸ operator.2
    rw [comparedToMeet, opC, opF] at free
    refine depth_le_of_children fun d mem => ?_
    rcases Frame.mem_fill_children.mp (other ▸ mem) with rfl | around
    · exact below.trans_lt (depth_lt_of_mem (whole ▸ Frame.mem_fill_children.mpr (.inl rfl)))
    · exact depth_lt_of_mem (free.mem_of_map_id (by simp [mem]) (fun e memE => by simp [memE])
        (shared.2 d around))
  | @padded model g h own part faced whole other operator type around =>
    have opC : c.operator = .matches := by
      rw [← padTo_operator model c, whole]
      exact operator.1
    have opF : f.operator = .matches := by
      rw [← padTo_operator model f, other]
      exact operator.2
    rw [comparedToMeet, opC, opF] at free
    obtain rfl := free.frame_eq_of_faced faced whole other operator type around
    have padded : f.depth ≤ (g.fill part).depth := by
      rw [← other]
      exact depth_le_of_children fun d mem => depth_lt_of_mem
        ((children_padTo_perm model f).mem_iff.mpr (List.mem_append_right _ mem))
    have filled := Frame.depth_fill_le (f := g) below
    rw [← whole] at filled
    have some : c.children ≠ [] := wf.children_ne_nil (by rw [opC]; rfl)
    exact padded.trans (filled.trans (depth_padTo_le some model))

/-- **Only what is no deeper than a condition** can be subtracted from it. -/
theorem depth_le_of_difference {c f : Condition} (wf : WellFormed c) (wfF : WellFormed f)
    (free : CollisionFree (comparedToSubtract c f)) (changed : difference c f ≠ .unchanged) :
    f.depth ≤ c.depth := by
  refine difference_induct_free
    (motive := fun c f o => WellFormed c → o ≠ .unchanged → f.depth ≤ c.depth)
    ?same ?branches ?each ?met ?apart wf wfF free wf changed
  case same => exact fun _ _ _ => Nat.le_refl _
  case branches => exact fun c f free _ _ _ changed => depth_le_of_subtractBranches free changed
  case each =>
    intro c f _ _ below wf changed
    rcases collected_cases c fun d => difference d f with ⟨-, eq⟩ | ⟨⟨d, mem, here⟩, -⟩
    · exact absurd eq changed
    · exact (below d mem (wf.children d mem) here).trans (depth_lt_of_mem mem).le
  case met =>
    intro c f m free meets wfOwn _ _ below wf changed
    refine meets.depth_le wf free (below wfOwn fun none => ?_)
    rw [none] at changed
    exact changed rfl
  case apart => exact fun _ _ _ changed => absurd rfl changed

end Condition

end CallGuard
