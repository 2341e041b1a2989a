import CallGuard.Proofs.Difference
import CallGuard.Proofs.Regular

/-!
# Integrity is kept

Normalizing a tree, subtracting a fragment from it and merging trees keep integrity
(`integrity_kept`), whatever ids the trees have. The rules that every node keeps are inherited;
allowances stay where they are, since none is at a hinge, none is left of a subtraction and none is
a branch of an alternation.
-/

namespace CallGuard

namespace Condition

/-! ### Components -/

/-- A tree of sound nodes that may stand anywhere, as it is no allowance. -/
structure Component (c : Condition) : Prop where
  sound : Everywhere Sound c
  own : c.isGlobalAllowance = false

/-- Other sound children leave a node sound, if allowances among them are admitted. -/
theorem Everywhere.sound_with_children {c : Condition} (h : Everywhere Sound c)
    (cs : List Condition) (count : c.operator.takesOneChild → cs.length = c.children.length)
    (below : ∀ d ∈ cs, Everywhere Sound d)
    (placed : ∀ d ∈ cs, d.isGlobalAllowance → c.admitsAllowances) :
    Everywhere Sound { c with children := cs } :=
  .mk ⟨(ruleFault?_with_children count).trans h.here.rules, placed⟩ below

/-- Other components leave an alternation a component. -/
theorem Everywhere.component_with_branches {c : Condition} (h : Everywhere Sound c)
    (or : c.operator = .or) (kept : List Condition) (below : ∀ d ∈ kept, Component d) :
    Component { c with children := kept } where
  sound := by
    refine h.sound_with_children kept (fun one => ?_) (fun d mem => (below d mem).sound)
      fun d mem own => ?_
    · rw [or] at one
      cases one
    · rw [(below d mem).own] at own
      cases own
  own := isGlobalAllowance_eq_false_of_or or

/-- The branches of a sound alternation are components. -/
theorem Everywhere.component_of_or {c : Condition} (h : Everywhere Sound c)
    (or : c.operator = .or) : ∀ d ∈ c.children, Component d :=
  fun d mem => ⟨h.children d mem, h.here.placed.isGlobalAllowance_of_or or d mem⟩

theorem everywhere_sound_anyOf {cs : List Condition} (below : ∀ d ∈ cs, Component d) :
    Everywhere Sound (anyOf cs) := by
  refine .mk ⟨rfl, fun d mem own => ?_⟩ fun d mem => (below d mem).sound
  rw [(below d mem).own] at own
  cases own

/-- A component may take the place of any child. -/
theorem Everywhere.sound_refill {f : Frame} {x y : Condition} (h : Everywhere Sound (f.fill x))
    (inside : Component y) : Everywhere Sound (f.fill y) := by
  refine h.sound_with_children (f.fill y).children (fun _ => by simp) (fun d mem => ?_)
    fun d mem own => ?_
  · rcases Frame.mem_fill_children.mp mem with rfl | other
    · exact inside.sound
    · exact h.children d (Frame.mem_fill_children.mpr (.inr other))
  · rcases Frame.mem_fill_children.mp mem with rfl | other
    · rw [inside.own] at own
      cases own
    · exact h.here.placed d (Frame.mem_fill_children.mpr (.inr other)) own

/-! ### Normal forms -/

theorem everywhere_rules {c : Condition} (h : Everywhere Sound c) :
    Everywhere (fun d => d.ruleFault? = none) c :=
  h.imp fun _ => Sound.rules

theorem everywhere_placed {c : Condition} (h : Everywhere Sound c) :
    Everywhere PlacesAllowances c :=
  h.imp fun _ => Sound.placed

theorem everywhere_sound_of {c : Condition} (rules : Everywhere (fun d => d.ruleFault? = none) c)
    (placed : Everywhere PlacesAllowances c) : Everywhere Sound c :=
  (rules.and placed).imp fun _ ⟨rules, placed⟩ => ⟨rules, placed⟩

/-- **Normal forms are sound** if the tree is. -/
theorem everywhere_sound_normalForm {pushDown : Bool} {c : Condition} (wf : WellFormed c)
    (h : Everywhere Sound c) : Everywhere Sound (normalForm pushDown c) :=
  everywhere_sound_of (inherited_ruleFault?.everywhere_normalForm wf (everywhere_rules h))
    (everywhere_placesAllowances_normalForm wf (everywhere_placed h)).1

theorem Intact.normalForm {c : Condition} (h : Intact c) (pushDown : Bool) :
    Intact (normalForm pushDown c) where
  wellFormed := h.wellFormed.normalForm pushDown
  checked := checkIntegrity_eq_ok_iff_sound.mpr
    (everywhere_sound_normalForm h.wellFormed h.sound)

/-! ### Subtraction -/

/-- The whole at the place of a meeting is the condition, padded if need be. -/
theorem Meets.sound_whole {c f : Condition} {m : Meeting} (meets : Meets c f m)
    (h : Everywhere Sound c) : Everywhere Sound m.whole := by
  cases meets with
  | ands => exact h
  | @padded model g k own part faced whole other operator =>
    have op : c.operator = .matches := by
      rw [← padTo_operator model, whole]
      exact operator.1
    exact everywhere_sound_of (inherited_ruleFault?.everywhere_padTo op (everywhere_rules h) model)
      (everywhere_placesAllowances_padTo (everywhere_placed h) model)

/-- What is left of a child at a meeting may take its place. -/
theorem Meets.leaves_component {c f : Condition} {m : Meeting} (meets : Meets c f m)
    (h : Everywhere Sound c) {outcome : Subtraction} (below : Leaves Component outcome) :
    Leaves Component (m.replaced outcome) := by
  obtain ⟨frame, whole, op, replaced⟩ := meets.exists_fill
  cases outcome with
  | unchanged => trivial
  | empty => trivial
  | remainder rest =>
    rw [replaced rest]
    refine ⟨(whole ▸ meets.sound_whole h).sound_refill below, ?_⟩
    exact (isGlobalAllowance_eq op).trans meets.isGlobalAllowance_eq_false

theorem Meets.sound_own {c f : Condition} {m : Meeting} (meets : Meets c f m)
    (h : Everywhere Sound c) : Everywhere Sound m.own := by
  obtain ⟨frame, whole, -, -⟩ := meets.exists_fill
  exact (whole ▸ meets.sound_whole h).children _ (Frame.mem_fill_children.mpr (.inl rfl))

/-- **What subtraction leaves is sound** if the condition is, and no allowance. -/
theorem leaves_component {c f : Condition} (wf : WellFormed c) (wfF : WellFormed f)
    (h : Everywhere Sound c) : Leaves Component (difference c f) := by
  refine difference_induct (motive := fun c _ o => Everywhere Sound c → Leaves Component o)
    ?same ?branches ?each ?met ?apart wf wfF h
  case same => exact fun _ _ _ _ _ _ => trivial
  case branches =>
    exact fun c f _ _ _ or _ h =>
      leaves_subtractBranches (h.component_of_or or)
        (fun kept _ => h.component_with_branches or kept) f
  case each =>
    exact fun c f _ _ _ or _ below h =>
      leaves_collected (h.component_of_or or) (fun kept _ => h.component_with_branches or kept)
        fun d mem => below d mem (h.children d mem)
  case met =>
    intro c f m wf wfF _ _ found below h
    have meets := meets_of_meeting? wf wfF found
    exact meets.leaves_component h (below (meets.sound_own h))
  case apart => exact fun _ _ _ _ _ _ _ _ => trivial

theorem Intact.of_difference {c f r : Condition} (h : Intact c) (wfF : WellFormed f)
    (left : difference c f = .remainder r) : Intact r where
  wellFormed := wellFormed_of_difference h.wellFormed wfF left
  checked := by
    have component := leaves_component h.wellFormed wfF h.sound
    rw [left] at component
    exact checkIntegrity_eq_ok_iff_sound.mpr component.sound

/-! ### The whole -/

theorem intact_anyOf {cs : List Condition} (some : cs ≠ []) (intact : ∀ c ∈ cs, Intact c)
    (own : ∀ c ∈ cs, c.isGlobalAllowance = false) : Intact (anyOf cs) where
  wellFormed := wellFormed_anyOf some fun c mem => (intact c mem).wellFormed
  checked := checkIntegrity_eq_ok_iff_sound.mpr
    (everywhere_sound_anyOf fun c mem => ⟨(intact c mem).sound, own c mem⟩)

/-- **Integrity is kept.** A well-formed tree that passes the check is normalized to one that does,
with and without factoring, and what is left of it without any fragment does too. Such trees, at
least one and none a bare allowance of the whole call, are merged into one that passes the
check. -/
theorem integrity_kept (pushDown : Bool) :
    (∀ t, Intact t → (∃ n, normalize pushDown t = pure n ∧ Intact n) ∧
      ∀ f, WellFormed f → ∃ outcome, subtract t f = pure outcome ∧
        ∀ r, outcome = .remainder r → Intact r) ∧
    ∀ variants, variants ≠ [] → (∀ v ∈ variants, Intact v ∧ v.isGlobalAllowance = false) →
      ∃ m, merge pushDown variants = pure m ∧ Intact m := by
  refine ⟨fun t intact => ⟨?_, fun f wfF => ?_⟩, fun variants some intact => ?_⟩
  · exact ⟨_, normalize_eq intact.wellFormed, intact.normalForm pushDown⟩
  · exact ⟨_, subtract_eq intact.wellFormed wfF, fun r left => intact.of_difference wfF left⟩
  · have whole : Intact (anyOf variants) :=
      intact_anyOf some (fun v mem => (intact v mem).1) fun v mem => (intact v mem).2
    exact ⟨_, merge_eq some fun v mem => (intact v mem).1.wellFormed, whole.normalForm pushDown⟩

theorem integrity_kept_sampleCall :
    (∃ n, normalize true sampleCalls = pure n ∧ Intact n) ∧
      (∃ r, subtract sampleCall (allowedCall [byteIs 1, byteIs 3]) = pure (.remainder r) ∧
        Intact r) ∧
      ∃ m, merge true [sampleCall, allowedCall [byteIs 1]] = pure m ∧ Intact m := by
  obtain ⟨trees, merges⟩ := integrity_kept true
  obtain ⟨outcome, run, left⟩ := (trees sampleCall (by decide +kernel)).2
    (allowedCall [byteIs 1, byteIs 3]) (by decide +kernel)
  have found : difference sampleCall (allowedCall [byteIs 1, byteIs 3]) =
      .remainder (allowedCall [byteIs 1, byteIs 2]) := by
    decide +kernel
  obtain rfl : _ = outcome :=
    Run.pure_inj.mp ((subtract_eq (by decide +kernel) (by decide +kernel)).symm.trans run)
  refine ⟨(trees sampleCalls (by decide +kernel)).1, ⟨_, run.trans (congrArg pure found), ?_⟩,
    merges _ (List.cons_ne_nil _ _) (by decide +kernel)⟩
  exact left _ found

end Condition

end CallGuard
