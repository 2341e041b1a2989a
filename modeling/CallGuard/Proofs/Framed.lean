import CallGuard.Proofs.FixedPoints
import CallGuard.Proofs.VariableSize

/-!
# Matches around a value

A match with one of its components in view is a frame around it. What a frame around a component
is, its positional children, its allowances and what pruning leaves of it, is told by the frame as
long as the components are no allowances and have the same size (`Normal.fill`).
-/

namespace CallGuard

namespace Condition

theorem Frame.fill_injective (f : Frame) : Function.Injective f.fill := by
  intro x y h
  have children := List.append_cancel_left (congrArg Condition.children h)
  exact (List.cons.inj children).1

theorem fill_operator_ne_or {f : Frame} (op : f.operator = .matches) (u : Condition) :
    (f.fill u).operator ≠ .or := by
  rw [Frame.fill_operator, op]
  exact nofun

theorem positional_fill (f : Frame) {x : Condition} (own : x.isGlobalAllowance = false) :
    (f.fill x).positional = (f.before.filter fun d => !d.isGlobalAllowance) ++
      x :: f.after.filter fun d => !d.isGlobalAllowance := by
  simp [positional, own]

theorem allowances_fill (f : Frame) {x : Condition} (own : x.isGlobalAllowance = false) :
    (f.fill x).allowances =
      f.before.filter isGlobalAllowance ++ f.after.filter isGlobalAllowance := by
  simp [allowances, own]

/-- Allowances come last around one component if and only if they do around another. -/
theorem allowancesLast_fill {f : Frame} {x y : Condition} (ownX : x.isGlobalAllowance = false)
    (ownY : y.isGlobalAllowance = false)
    (h : (f.fill x).children = (f.fill x).positional ++ (f.fill x).allowances) :
    (f.fill y).children = (f.fill y).positional ++ (f.fill y).allowances := by
  obtain ⟨components, allowances, split, own, rest⟩ := allowancesLast_iff.mpr h
  refine allowancesLast_iff.mp ?_
  have split : f.before ++ x :: f.after = components ++ allowances := split
  rcases List.append_eq_append_iff.mp split with ⟨more, rfl, tail⟩ | ⟨more, -, tail⟩
  · cases more with
    | nil =>
      -- the component would be the first of the allowances
      rw [List.nil_append] at tail
      have first : x ∈ allowances := tail ▸ List.mem_cons_self
      have := rest x first
      rw [ownX] at this
      cases this
    | cons z more =>
      rw [List.cons_append] at tail
      obtain ⟨rfl, after⟩ := List.cons.inj tail
      refine ⟨f.before ++ y :: more, allowances, ?_, fun d mem => ?_, rest⟩
      · rw [Frame.fill_children, after, List.append_assoc, List.cons_append]
      · rcases List.mem_append.mp mem with early | late
        · exact own d (List.mem_append_left _ early)
        · rcases List.mem_cons.mp late with rfl | later
          · exact ownY
          · exact own d (List.mem_append_right _ (List.mem_cons_of_mem _ later))
  · have inside : x ∈ allowances := tail ▸ List.mem_append_right _ List.mem_cons_self
    have := rest x inside
    rw [ownX] at this
    cases this

/-- A match that keeps all its components around one keeps them around another of the same size,
unless the other is free. -/
theorem prune_fill {f : Frame} {x y : Condition} (op : f.operator = .matches)
    (ownX : x.isGlobalAllowance = false) (ownY : y.isGlobalAllowance = false)
    (size : y.isDynamic = x.isDynamic) (free : y.isPass → x.isPass)
    (h : (f.fill x).prune = f.fill x) : (f.fill y).prune = f.fill y := by
  by_cases open_ : (f.fill y).isOpenEnded
  swap
  · exact prune_of_not fun both => open_ both.2
  have openX : (f.fill x).isOpenEnded := by
    rw [isOpenEnded, isDynamic_fill, ← size, ← isDynamic_fill f y]
    exact open_
  obtain ⟨last, kept⟩ := (prune_eq_self_iff op openX).mp h
  refine (prune_eq_self_iff op open_).mpr ⟨allowancesLast_fill ownX ownY last, ?_⟩
  have sizes : (f.fill y).positional.map isDynamic = (f.fill x).positional.map isDynamic := by
    rw [positional_fill f ownX, positional_fill f ownY, List.map_append, List.map_append,
      List.map_cons, List.map_cons, size]
  have retained : (f.fill y).retained = (f.fill x).retained := retained_congr rfl sizes
  have width : (f.fill y).positional.length = (f.fill x).positional.length := by
    simpa using congrArg List.length sizes
  rw [dropFreeTail_eq_self_iff] at kept ⊢
  rw [retained, width]
  intro z found pass
  rw [positional_fill f ownY] at found
  rw [positional_fill f ownX] at kept ⊢
  -- the last component is the one in the place, or the same in both
  cases after : f.after.filter (fun d => !d.isGlobalAllowance) with
  | nil =>
    rw [after] at found kept
    obtain rfl : y = z := by simpa using found
    exact kept x (by simp) (free pass)
  | cons d ds =>
    rw [after] at found kept
    rw [List.getLast?_append_cons, List.getLast?_cons_cons] at found kept
    exact kept z found pass

/-- A frame around what has the same normal form has the same normal form. -/
theorem normalForm_fill_congr {f : Frame} {x y : Condition} (wfX : WellFormed (f.fill x))
    (wfY : WellFormed (f.fill y)) (same : normalForm true x = normalForm true y) :
    normalForm true (f.fill x) = normalForm true (f.fill y) := by
  have children : (f.fill x).children.map (normalForm true) =
      (f.fill y).children.map (normalForm true) := by
    simp only [Frame.fill_children, List.map_append, List.map_cons, same]
  rw [normalForm_eq wfX, normalForm_eq wfY, assembled, assembled, children]
  rfl

/-- A match around one component in normal form is in normal form around another of the same
size, unless the other is free. -/
theorem Normal.fill {f : Frame} {x y : Condition} (op : f.operator = .matches)
    (h : Normal (f.fill x)) (value : Normal y) (ownX : x.isGlobalAllowance = false)
    (ownY : y.isGlobalAllowance = false) (size : y.isDynamic = x.isDynamic)
    (free : y.isPass → x.isPass) : Normal (f.fill y) := by
  have single : ¬ f.operator.isSetLike := by
    rw [op]
    exact Bool.false_ne_true
  have tidy : Tidy (f.fill y) :=
    tidy_of_pruned single (prune_fill op ownX ownY size free h.tidy.pruned)
  refine ⟨h.wellFormed.refill value.wellFormed,
    .mk ⟨tidy, replaced?_of_ne_or (fill_operator_ne_or op y) true⟩ fun d mem => ?_⟩
  rcases Frame.mem_fill_children.mp mem with rfl | other
  · exact value.canonical
  · exact h.canonical.children d (Frame.mem_fill_children.mpr (.inr other))

end Condition

end CallGuard
