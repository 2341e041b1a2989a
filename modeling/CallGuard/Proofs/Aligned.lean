import CallGuard.Proofs.Exactness
import CallGuard.Proofs.Framed
import CallGuard.Proofs.Leaves

/-!
# Matches that are compared place by place

Subtraction finds the place where a match meets another only if the two are *aligned*: they have as
many children, with the allowances in the same places, or both are open-ended, so that the narrower
one is padded. Then what is compared is the same match around two different values, cut off where
the wider of the two ends (`Aligned.exists_facing`). Matches that are not aligned are left as they
are (`aligned_of_difference`).
-/

namespace CallGuard

namespace Condition

/-- Whether subtraction compares two matches place by place: they have the same number of children,
with the allowances in the same places, or both are open-ended and what the second has more are
free components such as padding adds. -/
def Aligned (c d : Condition) : Prop :=
  c.children.map isGlobalAllowance = d.children.map isGlobalAllowance ∨
    c.isOpenEnded ∧ d.isOpenEnded ∧
      ∀ e ∈ d.positional.drop c.positional.length, e = pass e.slotType

instance (c d : Condition) : Decidable (Aligned c d) :=
  inferInstanceAs (Decidable (_ ∨ _))

/-! ### Widths -/

/-- Matches with allowances in the same places have as many components. -/
theorem length_positional_of_map_eq {c d : Condition}
    (same : c.children.map isGlobalAllowance = d.children.map isGlobalAllowance) :
    c.positional.length = d.positional.length := by
  have count (e : Condition) :
      e.positional.length = (e.children.map isGlobalAllowance).countP (!·) := by
    rw [positional, ← List.countP_eq_length_filter, List.countP_map]
    rfl
  rw [count, count, same]

/-- Allowances come last if they do in a match that has them in the same places. -/
theorem allowancesLast_of_map_eq {c d : Condition}
    (same : c.children.map isGlobalAllowance = d.children.map isGlobalAllowance)
    (last : c.children = c.positional ++ c.allowances) :
    d.children = d.positional ++ d.allowances := by
  obtain ⟨components, rest, split, own, allowances⟩ := allowancesLast_iff.mpr last
  rw [split, List.map_append] at same
  obtain ⟨components', rest', split', start, finish⟩ := List.map_eq_append_iff.mp same.symm
  have carry {cs ds : List Condition} (eq : cs.map isGlobalAllowance = ds.map isGlobalAllowance)
      {b : Bool} (all : ∀ e ∈ ds, e.isGlobalAllowance = b) :
      ∀ e ∈ cs, e.isGlobalAllowance = b := by
    intro e mem
    obtain ⟨e', memE, same⟩ := List.mem_map.mp (eq ▸ List.mem_map_of_mem mem)
    exact same ▸ all e' memE
  exact allowancesLast_iff.mp ⟨components', rest', split', carry start own, carry finish allowances⟩

/-! ### Cut matches -/

/-- A match with so many of its components, before its allowances. -/
def cut (n : Nat) (c : Condition) : Condition :=
  { c with children := c.positional.take n ++ c.allowances }

theorem positional_cut (n : Nat) (c : Condition) : (c.cut n).positional = c.positional.take n :=
  filter_positional_append (fun _ mem => (mem_positional.mp (List.mem_of_mem_take mem)).2)
    fun _ mem => (mem_allowances.mp mem).2

theorem allowances_cut (n : Nat) (c : Condition) : (c.cut n).allowances = c.allowances :=
  filter_allowances_append (fun _ mem => (mem_positional.mp (List.mem_of_mem_take mem)).2)
    fun _ mem => (mem_allowances.mp mem).2

/-- A pruned match is cut off. -/
theorem prune_eq_cut {c : Condition} (op : c.operator = .matches) (open_ : c.isOpenEnded) :
    c.prune = c.cut c.prune.positional.length := by
  have kept := (List.prefix_iff_eq_take.mp (dropFreeTail_isPrefix c.retained c.positional)).symm
  rw [cut, positional_prune op open_, kept, prune_of_isOpenEnded op open_]

/-- To cut a match that is padded is to pad it to what is left of the model. -/
theorem padTo_take {model : List Condition} {c : Condition} {n : Nat}
    (last : c.children = c.positional ++ c.allowances) (wide : c.positional.length ≤ n)
    (inside : n ≤ model.length) : padTo (model.take n) c = (padTo model c).cut n := by
  have free : missing (model.take n) c = (missing model c).take (n - c.positional.length) := by
    rw [missing, missing, List.drop_take, List.map_take]
  have whole : (padTo model c).cut n =
      { c with children := c.positional ++ missing (model.take n) c ++ c.allowances } := by
    rw [cut, padTo_with_children, positional_padTo, allowances_padTo, List.take_append,
      List.take_of_length_le wide, free]
  rw [whole]
  rcases Nat.lt_or_eq_of_le wide with narrow | equal
  · exact padTo_of_lt (by rw [List.length_take]; omega)
  · have short : (model.take n).length ≤ c.positional.length := by
      rw [List.length_take]
      omega
    rw [padTo_of_le short, missing_of_le short, List.append_nil, ← last, mk_eta]

/-- A match that is cut off before plain components is padded to where it is cut off after them. -/
theorem padTo_cut {w c : Condition} {n : Nat} (narrow : n < c.positional.length)
    (inside : c.positional.length ≤ w.positional.length)
    (same : c.positional.drop n = (w.positional.take c.positional.length).drop n)
    (plain : ∀ e ∈ c.positional.drop n, e = pass e.slotType) :
    padTo c.positional (w.cut n) = w.cut c.positional.length := by
  have width : (w.cut n).positional.length = n := by
    rw [positional_cut, List.length_take_of_le (narrow.le.trans inside)]
  have made : missing c.positional (w.cut n) = (w.positional.take c.positional.length).drop n := by
    rw [missing, width, ← same]
    exact (List.map_congr_left fun e mem => (plain e mem).symm).trans (List.map_id _)
  have start : w.positional.take n = (w.positional.take c.positional.length).take n := by
    rw [List.take_take, Nat.min_eq_left narrow.le]
  rw [padTo_of_lt (width.trans_lt narrow), made, positional_cut, allowances_cut, start,
    List.take_append_drop]
  rfl

/-- A match that is cut off is the same match around a component. -/
theorem exists_cut_fill (f : Frame) {n : Nat}
    (inside : (f.before.filter fun d => !d.isGlobalAllowance).length < n) :
    ∃ g : Frame, g.operator = f.operator ∧
      ∀ x : Condition, x.isGlobalAllowance = false → (f.fill x).cut n = g.fill x := by
  obtain ⟨k, rfl⟩ := Nat.exists_eq_add_of_lt inside
  refine ⟨⟨f.paramType, f.operator, f.before.filter fun d => !d.isGlobalAllowance,
    (f.after.filter fun d => !d.isGlobalAllowance).take k ++
      (f.before.filter isGlobalAllowance ++ f.after.filter isGlobalAllowance)⟩, rfl,
    fun x own => ?_⟩
  rw [cut, positional_fill f own, allowances_fill f own, Nat.add_assoc, List.take_length_add_append,
    List.take_succ_cons]
  simp [Frame.fill]

/-! ### Padding around a component -/

/-- What padding makes up serves as a model of itself. -/
theorem map_missing (model : List Condition) (c : Condition) :
    (missing model c).map (fun d => pass d.slotType) = missing model c := by
  refine (List.map_congr_left fun d mem => ?_).trans (List.map_id _)
  obtain ⟨p, rfl⟩ := eq_pass_of_mem_missing mem
  exact congrArg pass (slotType_of_leaf rfl)

/-- What is not free was not made up by padding. -/
theorem exists_positional_of_bound {before after model : List Condition} {c x : Condition}
    (split : c.positional ++ missing model c = before ++ x :: after) (bound : ¬ x.isPass) :
    ∃ between, c.positional = before ++ x :: between ∧ after = between ++ missing model c := by
  have made (gap : List Condition) (rest : missing model c = gap ++ x :: after) : False :=
    bound (isPass_of_mem_missing (rest ▸ List.mem_append_right gap List.mem_cons_self))
  rcases List.append_eq_append_iff.mp split with ⟨gap, -, rest⟩ | ⟨more, start, rest⟩
  · exact (made gap rest).elim
  · cases more with
    | nil => exact (made [] rest.symm).elim
    | cons w between =>
      rw [List.cons_append] at rest
      obtain ⟨rfl, after⟩ := List.cons.inj rest
      exact ⟨between, start, after⟩

/-- With another component in one place of what a match is padded to, the match is padded to the
same but for this place, or to the same if it has a component there itself. -/
theorem exists_missing_replaced {before after model : List Condition} {c u : Condition}
    (x : Condition) (split : c.positional ++ missing model c = before ++ u :: after) :
    ∃ v, c.positional ++ missing (before ++ x :: after) c = before ++ v :: after ∧
      (v = u ∨ v = pass x.slotType ∧ u = pass u.slotType) := by
  have made := map_missing model c
  have lacking {gap : List Condition} (start : before = c.positional ++ gap)
      (rest : missing model c = gap ++ u :: after) :
      ∃ v, c.positional ++ missing (before ++ x :: after) c = before ++ v :: after ∧
        (v = u ∨ v = pass x.slotType ∧ u = pass u.slotType) := by
    rw [rest, List.map_append, List.map_cons] at made
    obtain ⟨early, made⟩ := List.append_inj made (List.length_map _)
    obtain ⟨here, late⟩ := List.cons.inj made
    refine ⟨pass x.slotType, ?_, .inr ⟨rfl, here.symm⟩⟩
    rw [start, missing, List.append_assoc, List.drop_left, List.map_append, List.map_cons, early,
      late, List.append_assoc]
  rcases List.append_eq_append_iff.mp split with ⟨gap, start, rest⟩ | ⟨more, start, rest⟩
  · exact lacking start rest
  · cases more with
    | nil =>
      rw [List.append_nil] at start
      rw [List.nil_append] at rest
      exact lacking (start.symm.trans (List.append_nil _).symm) rest.symm
    | cons w more =>
      rw [List.cons_append] at rest
      obtain ⟨rfl, after⟩ := List.cons.inj rest
      have width : (before ++ x :: more).length = c.positional.length := by
        rw [start, List.length_append, List.length_append, List.length_cons, List.length_cons]
      refine ⟨u, ?_, .inl rfl⟩
      rw [after, missing, ← List.cons_append, ← List.append_assoc, List.drop_left' width, made,
        start, List.append_assoc, List.cons_append]

/-- A match that padding makes a frame around a component is made the frame around a component by
padding to the frame around another one too: around its own, or the one made up for it. -/
theorem exists_padTo_fill {f : Frame} {model : List Condition} {c u x : Condition}
    (fills : padTo model c = f.fill u) (narrow : c.positional.length ≤ model.length)
    (own : u.isGlobalAllowance = false) (ownX : x.isGlobalAllowance = false) :
    ∃ v, padTo (f.fill x).positional c = f.fill v ∧ v.isGlobalAllowance = false ∧
      (v = u ∨ v = pass x.slotType ∧ u = pass u.slotType) := by
  have width (y : Condition) (ownY : y.isGlobalAllowance = false) :
      (f.fill y).positional.length = model.length := by
    rw [← length_positional_padTo narrow, fills, positional_fill f own, positional_fill f ownY,
      List.length_append, List.length_append, List.length_cons, List.length_cons]
  rcases Nat.lt_or_eq_of_le narrow with lacking | whole
  swap
  · refine ⟨u, ?_, own, .inl rfl⟩
    rw [← fills, padTo_of_le whole.ge, padTo_of_le ((width x ownX).trans whole.symm).le]
  have components := positional_padTo model c
  rw [fills, positional_fill f own] at components
  obtain ⟨v, eq, kind⟩ := exists_missing_replaced x components.symm
  have ownV : v.isGlobalAllowance = false := by
    rcases kind with rfl | ⟨rfl, -⟩
    · exact own
    · rfl
  refine ⟨v, ?_, ownV, kind⟩
  have last : (f.fill u).children = (f.fill u).positional ++ (f.fill u).allowances := by
    rw [← fills, positional_padTo, allowances_padTo, padTo_of_lt lacking]
  have lastV := allowancesLast_fill own ownV last
  rw [padTo_of_lt (by rw [width x ownX]; exact lacking), positional_fill f ownX, eq,
    ← positional_fill f ownV, ← allowances_padTo model c, fills, allowances_fill f own,
    ← allowances_fill f ownV, ← lastV, ← padTo_with_children model, fills]
  rfl

/-! ### What is compared -/

section Facing

variable {f : Frame} {z c u : Condition}

/-- What is not free is not pruned from a match. -/
theorem length_before_lt (op : f.operator = .matches) (open_ : (f.fill z).isOpenEnded)
    (own : z.isGlobalAllowance = false) (bound : ¬ z.isPass) :
    (f.before.filter fun d => !d.isGlobalAllowance).length <
      (f.fill z).prune.positional.length := by
  obtain ⟨tail, eq, free⟩ := exists_dropFreeTail_append (f.fill z).retained (f.fill z).positional
  rw [← positional_prune op open_, positional_fill f own] at eq
  by_contra short
  rcases List.append_eq_append_iff.mp eq with ⟨gap, start, rest⟩ | ⟨gap, start, rest⟩
  · cases gap with
    | nil =>
      rw [List.nil_append] at rest
      exact bound (free z (rest ▸ List.mem_cons_self))
    | cons w gap =>
      rw [start, List.length_append, List.length_cons] at short
      omega
  · exact bound (free z (rest ▸ List.mem_append_right _ List.mem_cons_self))

/-- Of the components that come after the place in a frame, those of the frame around another
component are the same. -/
theorem drop_positional_fill {n : Nat} (own : z.isGlobalAllowance = false)
    (ownU : u.isGlobalAllowance = false)
    (beyond : (f.before.filter fun d => !d.isGlobalAllowance).length < n) :
    (f.fill z).positional.drop n = (f.fill u).positional.drop n := by
  obtain ⟨k, rfl⟩ := Nat.exists_eq_add_of_lt beyond
  rw [positional_fill f own, positional_fill f ownU, Nat.add_assoc, List.drop_length_add_append,
    List.drop_length_add_append, List.drop_succ_cons, List.drop_succ_cons]

/-- Matches that are cut off from others, and are padded to where the wider of them ends, are
compared as what the others are when cut off there. -/
theorem exists_facing_cut {m c w x : Condition} (type : m.paramType = c.paramType)
    (allowances : m.allowances.length = c.allowances.length)
    (cutM : w.cut m.positional.length = m) (cutC : x.cut c.positional.length = c)
    (openEnded : m.positional.length ≠ c.positional.length → m.isOpenEnded ∧ c.isOpenEnded)
    (padM : m.positional.length < c.positional.length →
      padTo c.positional m = w.cut c.positional.length)
    (padC : c.positional.length < m.positional.length →
      padTo m.positional c = x.cut m.positional.length) :
    ∃ n, m.positional.length ≤ n ∧ facing m c = [w.cut n, x.cut n] ∧
      (if needPadding m c then meetingOfPadded? m c (padded [m, c]) else meetingOfMatches? m c) =
        meetingOfMatches? (w.cut n) (x.cut n) := by
  rcases Nat.lt_trichotomy m.positional.length c.positional.length with wider | same | wider
  · obtain ⟨openM, openC⟩ := openEnded wider.ne
    refine ⟨c.positional.length, wider.le, ?_⟩
    rw [cutC, ← padM wider]
    exact facing_of_narrow type openM openC allowances wider
  · refine ⟨m.positional.length, Nat.le_refl _, ?_⟩
    rw [cutM, same, cutC]
    exact facing_of_length_eq (by rw [length_children, length_children, same, allowances])
  · obtain ⟨openM, openC⟩ := openEnded wider.ne'
    refine ⟨m.positional.length, Nat.le_refl _, ?_⟩
    rw [cutM, ← padC wider]
    exact facing_of_wide type openM openC allowances wider.le

/-- What is padded to a frame is of its kind. -/
theorem kind_of_padTo_fill {model : List Condition} (op : f.operator = .matches)
    (fills : padTo model c = f.fill u) : c.paramType = f.paramType ∧ c.operator = .matches := by
  rw [← padTo_paramType model c, ← padTo_operator model c, fills]
  exact ⟨rfl, op⟩

/-- A match that is aligned with an open-ended one after it was pruned is compared with it where
both are cut off. -/
theorem Aligned.exists_cut (aligned : Aligned (f.fill z).prune c) (op : f.operator = .matches)
    (normal : Normal c) (open_ : (f.fill z).isOpenEnded) (own : z.isGlobalAllowance = false)
    (bound : ¬ z.isPass) (ownU : u.isGlobalAllowance = false)
    (fills : padTo (f.fill z).positional c = f.fill u) :
    ∃ n, (f.before.filter fun d => !d.isGlobalAllowance).length < n ∧
      facing (f.fill z).prune c = [(f.fill z).cut n, (f.fill u).cut n] ∧
      (if needPadding (f.fill z).prune c then
          meetingOfPadded? (f.fill z).prune c (padded [(f.fill z).prune, c])
        else meetingOfMatches? (f.fill z).prune c) =
        meetingOfMatches? ((f.fill z).cut n) ((f.fill u).cut n) := by
  have kind := kind_of_padTo_fill op fills
  have beyond := length_before_lt op open_ own bound
  have cutM := prune_eq_cut (c := f.fill z) op open_
  have allowances : (f.fill z).prune.allowances = c.allowances := by
    rw [allowances_prune, allowances_fill f own, ← allowances_fill f ownU, ← fills,
      allowances_padTo]
  have width : (f.fill u).positional.length = (f.fill z).positional.length := by
    rw [positional_fill f own, positional_fill f ownU, List.length_append, List.length_append,
      List.length_cons, List.length_cons]
  have components : c.positional ++ missing (f.fill z).positional c = (f.fill u).positional := by
    rw [← fills, positional_padTo]
  have narrow : c.positional.length ≤ (f.fill z).positional.length := by
    rw [← width, ← components, List.length_append]
    exact Nat.le_add_right _ _
  have inside : (f.fill z).prune.positional.length ≤ (f.fill z).positional.length := by
    rw [positional_prune op open_]
    exact (dropFreeTail_isPrefix _ _).length_le
  have last : c.children = c.positional ++ c.allowances := by
    rcases aligned with same | ⟨-, openC, -⟩
    · refine allowancesLast_of_map_eq same ?_
      rw [positional_prune op open_, allowances_prune, prune_of_isOpenEnded op open_]
    · exact ((prune_eq_self_iff kind.2 openC).mp normal.tidy.pruned).1
  have type : (f.fill z).prune.paramType = c.paramType := by
    rw [prune_paramType]
    exact kind.1.symm
  have firstM : (f.fill z).prune.positional =
      (f.fill z).positional.take (f.fill z).prune.positional.length :=
    (congrArg positional cutM).trans (positional_cut _ _)
  -- that the match was pruned no longer matters, only where it is cut off
  generalize (f.fill z).prune = m at *
  have openEnded (differ : m.positional.length ≠ c.positional.length) :=
    aligned.resolve_left fun same => differ (length_positional_of_map_eq same)
  have cutC : (f.fill u).cut c.positional.length = c := by
    rw [← fills, ← padTo_take last (Nat.le_refl _) narrow, padTo_of_le (List.length_take_le _ _)]
  have padC (wider : c.positional.length < m.positional.length) :
      padTo m.positional c = (f.fill u).cut m.positional.length := by
    rw [firstM, padTo_take last wider.le inside, fills, ← firstM]
  have padM (wider : m.positional.length < c.positional.length) :
      padTo c.positional m = (f.fill z).cut c.positional.length := by
    -- what the other has more comes after the place, where the two frames are the same
    rw [cutM]
    refine padTo_cut wider narrow ?_ (openEnded wider.ne).2.2
    rw [List.drop_take, drop_positional_fill own ownU beyond, ← List.drop_take, ← components,
      List.take_left]
  obtain ⟨n, enough, faced, meets⟩ := exists_facing_cut type (congrArg List.length allowances)
    cutM.symm cutC (fun differ => ⟨(openEnded differ).1, (openEnded differ).2.1⟩) padM padC
  exact ⟨n, Nat.lt_of_lt_of_le beyond enough, faced, meets⟩

/-- **What is compared of aligned matches** is one match around the two values. -/
theorem Aligned.exists_facing (aligned : Aligned (f.fill z).prune c) (op : f.operator = .matches)
    (normal : Normal c) (own : z.isGlobalAllowance = false) (bound : ¬ z.isPass)
    (ownU : u.isGlobalAllowance = false) (fills : padTo (f.fill z).positional c = f.fill u) :
    ∃ g : Frame, facing (f.fill z).prune c = [g.fill z, g.fill u] ∧
      meeting? (f.fill z).prune c = meetingOfMatches? (g.fill z) (g.fill u) := by
  have kind := kind_of_padTo_fill op fills
  have opM : (f.fill z).prune.operator = .matches := by
    rw [prune_operator]
    exact op
  unfold meeting?
  rw [opM, kind.2]
  by_cases open_ : (f.fill z).isOpenEnded
  · obtain ⟨n, beyond, faced, meets⟩ :=
      aligned.exists_cut op normal open_ own bound ownU fills
    obtain ⟨g, -, cuts⟩ := exists_cut_fill f beyond
    rw [cuts z own, cuts u ownU] at faced meets
    exact ⟨g, faced, meets⟩
  · have whole : (f.fill z).prune = f.fill z := prune_of_not fun both => open_ both.2
    rw [whole] at aligned ⊢
    have same := aligned.resolve_right fun both => open_ both.1
    rw [padTo_of_le (length_positional_of_map_eq same).le] at fills
    subst fills
    exact ⟨f, facing_of_length_eq (by simp)⟩

/-- What is compared of matches with as many allowances as one match around two values, the first
of which is neither an allowance nor free, is aligned. -/
theorem aligned_of_facing {c d x y : Condition} (faced : facing c d = [f.fill x, f.fill y])
    (own : x.isGlobalAllowance = false) (bound : ¬ x.isPass)
    (allowances : c.allowances.length = d.allowances.length) : Aligned c d := by
  have ownY : y.isGlobalAllowance = false := by
    obtain ⟨model, pads, -⟩ := Condition.exists_facing c d
    rw [faced] at pads
    obtain ⟨padC, padD⟩ : f.fill x = padTo model c ∧ f.fill y = padTo model d := by
      simpa using pads
    rw [← allowances_padTo model c, ← allowances_padTo model d, ← padC, ← padD,
      Condition.allowances, Condition.allowances] at allowances
    cases allowed : y.isGlobalAllowance with
    | false => rfl
    | true => simp [own, allowed] at allowances
  by_cases needs : needPadding c d
  · obtain ⟨⟨⟨type, -⟩, openC⟩, openD⟩ : ((c.paramType = d.paramType ∧
        c.children.length ≠ d.children.length) ∧ c.isOpenEnded) ∧ d.isOpenEnded := by
      simpa [needPadding] using needs
    refine .inr ⟨openC, openD, ?_⟩
    rcases Nat.lt_or_ge c.positional.length d.positional.length with narrow | wide
    swap
    · rw [List.drop_eq_nil_of_le wide]
      intro e mem
      cases mem
    rw [(facing_of_narrow type openC openD allowances narrow).1] at faced
    obtain ⟨padC, rfl⟩ : padTo d.positional c = f.fill x ∧ d = f.fill y := by simpa using faced
    have components := positional_padTo (f.fill y).positional c
    rw [padC, positional_fill f own] at components
    obtain ⟨between, start, rest⟩ := exists_positional_of_bound components.symm bound
    have width : c.positional.length =
        ((f.before.filter fun e => !e.isGlobalAllowance) ++ y :: between).length := by
      rw [start, List.length_append, List.length_append, List.length_cons, List.length_cons]
    rw [positional_fill f ownY, rest, ← List.cons_append, ← List.append_assoc,
      List.drop_left' width.symm]
    intro e made
    obtain ⟨p, rfl⟩ := eq_pass_of_mem_missing made
    rw [slotType_of_leaf rfl]
    rfl
  · rw [facing, if_neg needs] at faced
    obtain ⟨rfl, rfl⟩ : c = f.fill x ∧ d = f.fill y := by simpa using faced
    exact .inl (by simp [own, ownY])

end Facing

/-! ### What is subtracted -/

section Difference

variable {f : Frame} {z c u : Condition}

/-- Matches that are the same do not meet. -/
theorem meetingOfMatches?_self (c : Condition) : meetingOfMatches? c c = none := by
  rw [meetingOfMatches?, onlyDifference?_self]

/-- From what it is nothing is left of a condition. -/
theorem difference_self (wf : WellFormed c) : difference c c = .empty := by
  rw [difference_eq wf wf, subtractAt, if_pos rfl]

theorem not_remainder_self (wf : WellFormed c) : ¬ ∃ r, difference c c = .remainder r := by
  rw [difference_self wf]
  rintro ⟨r, left⟩
  cases left

/-- Only one tree is compared to subtract it from itself. -/
theorem free_comparedToSubtract_self (wf : WellFormed c) :
    CollisionFree (comparedToSubtract c c) := by
  rw [comparedToSubtract_eq wf wf, comparedToSubtractAt, if_pos rfl]
  intro a memA b memB _
  simp only [List.mem_cons, List.not_mem_nil, or_false, or_self] at memA memB
  exact memA.trans memB.symm

/-- Matches are compared as they face each other. -/
theorem CollisionFree.facing {m : Condition} (free : CollisionFree (comparedToSubtract m c))
    (wf : WellFormed m) (wfC : WellFormed c) (ids : m.id ≠ c.id) (op : m.operator = .matches)
    (opC : c.operator = .matches) : CollisionFree ((Condition.facing m c).flatMap children) := by
  have met := free.toMeet wf wfC ids (by rw [op]; exact nofun)
  rwa [comparedToMeet, op, opC] at met

/-- **From a match another that is aligned with it is subtracted** by subtracting one value from the
other. -/
theorem Aligned.difference_iff (aligned : Aligned (f.fill z).prune c) (op : f.operator = .matches)
    (wf : WellFormed (f.fill z)) (normal : Normal c) (own : z.isGlobalAllowance = false)
    (bound : ¬ z.isPass) (ownU : u.isGlobalAllowance = false)
    (fills : padTo (f.fill z).positional c = f.fill u)
    (free : CollisionFree (comparedToSubtract (f.fill z).prune c)) :
    CollisionFree (comparedToSubtract z u) ∧
      ((∃ r, difference (f.fill z).prune c = .remainder r) ↔
        ∃ r, difference z u = .remainder r) := by
  obtain ⟨g, faced, meets⟩ := aligned.exists_facing op normal own bound ownU fills
  have kind := kind_of_padTo_fill op fills
  have opM : (f.fill z).prune.operator = .matches := by
    rw [prune_operator]
    exact op
  have wfM := wf.prune
  generalize (f.fill z).prune = m at *
  have nothing (same : z = u) (left : ¬ ∃ r, difference m c = .remainder r) :
      CollisionFree (comparedToSubtract z u) ∧
        ((∃ r, difference m c = .remainder r) ↔ ∃ r, difference z u = .remainder r) := by
    subst same
    exact ⟨free_comparedToSubtract_self wf.of_fill,
      iff_of_false left (not_remainder_self wf.of_fill)⟩
  by_cases ids : m.id = c.id
  · obtain rfl := free.eq_of_id wfM normal.wellFormed ids
    rw [(facing_of_length_eq rfl).1] at faced
    obtain ⟨left, right⟩ : m = g.fill z ∧ m = g.fill u := by simpa using faced
    exact nothing (g.fill_injective (left.symm.trans right)) (not_remainder_self wfM)
  by_cases values : z.id = u.id
  · have compared := free.facing wfM normal.wellFormed ids opM kind.2
    have same : z = u := compared z (by simp [faced]) u (by simp [faced]) values
    refine nothing same ?_
    subst same
    rw [difference_eq wfM normal.wellFormed, subtractAt, if_neg ids,
      if_neg (by rw [opM]; decide), meets, meetingOfMatches?_self]
    rintro ⟨r, left⟩
    cases left
  · rw [meetingOfMatches?_fill values] at meets
    have other : m.operator ≠ .or := by
      rw [opM]
      decide
    refine ⟨free.met wfM normal.wellFormed ids other meets, ?_⟩
    rw [difference_of_meeting? wfM normal.wellFormed ids other meets]
    exact Meeting.replaced_eq_remainder_iff _ _

/-- If something is left of a match, what was subtracted is aligned with it. -/
theorem aligned_of_difference {m r : Condition} (wf : WellFormed m) (wfC : WellFormed c)
    (op : m.operator = .matches) (opC : c.operator = .matches)
    (allowances : m.allowances.length = c.allowances.length)
    (free : CollisionFree (comparedToSubtract m c)) (left : difference m c = .remainder r) :
    Aligned m c := by
  have other : m.operator ≠ .or := by
    rw [op]
    exact nofun
  have ids : m.id ≠ c.id := by
    intro same
    rw [difference_eq wf wfC, subtractAt, if_pos same] at left
    cases left
  cases found : meeting? m c with
  | none =>
    rw [difference_eq wf wfC, subtractAt, if_neg ids, if_neg other, found] at left
    cases left
  | some met =>
    rw [difference_of_meeting? wf wfC ids other found] at left
    obtain ⟨rest, inner⟩ := (met.replaced_eq_remainder_iff _).mp ⟨r, left⟩
    have meets := meets_of_meeting? wf wfC found
    obtain ⟨-, wfOwn, wfPart⟩ := meets.wellFormed wf wfC
    have some := children_ne_nil_of_difference wfOwn wfPart inner
    have compared := free.facing wf wfC ids op opC
    cases meets with
    | ands whole _ operator =>
      rw [whole, Frame.fill_operator, operator.1] at op
      cases op
    | @padded model g h own part faced whole opposite operator type around =>
      obtain rfl := compared.frame_eq_of_faced faced whole opposite operator type around
      rw [whole, opposite] at faced
      exact aligned_of_facing faced (wfOwn.isGlobalAllowance_eq_false some)
        (by simp [wfOwn.isPass_eq_false some]) allowances

end Difference

end Condition

end CallGuard
