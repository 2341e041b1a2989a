import CallGuard.Proofs.Runs
import CallGuard.Proofs.Shrinking

/-!
# A common width

Matches are padded to the width of the widest of them, with free components whose types come from
the matches and the place alone: not from the order in which the matches stand, nor from how often
one of them does (`template_congr`). So one list of types serves all lists of the same matches, and
every match is widened on its own, by that list and its own width. `padToMatch_widens` says so of
the checked run, which ends without an error.
-/

namespace CallGuard

namespace Condition

/-- The number of components of the widest match of a list. -/
def width (branches : List Condition) : Nat :=
  (branches.map fun b => b.positional.length).foldr max 0

/-- The components of the match after which the others are padded. -/
def template (branches : List Condition) : List Condition :=
  (model? branches).elim [] positional

/-- What becomes of a match that is brought to the width of a list of types. -/
structure Widened (types : List ParamType) (b r : Condition) : Prop where
  paramType : r.paramType = b.paramType
  operator : r.operator = b.operator
  operand : r.operand = b.operand
  /-- It has a component for every type. -/
  width : r.positional.length = types.length
  /-- A match of that width stays as it is. -/
  same : b.positional.length = types.length → r = b
  /-- A narrower one has its own components, then free ones of the types of the places that it
  lacks, and then its allowances. -/
  filled : b.positional.length < types.length → r.children =
    b.positional ++ (types.drop b.positional.length).map pass ++ b.allowances

/-! ### The width -/

theorem width_le_iff {bs : List Condition} {n : Nat} :
    width bs ≤ n ↔ ∀ b ∈ bs, b.positional.length ≤ n := by
  rw [width, foldr_max_le_iff, List.forall_mem_map]

theorem length_le_width {bs : List Condition} {b : Condition} (mem : b ∈ bs) :
    b.positional.length ≤ width bs :=
  width_le_iff.mp (Nat.le_refl _) b mem

/-- The model is as wide as the widest match. -/
theorem length_template (bs : List Condition) : (template bs).length = width bs := by
  unfold template
  cases found : model? bs with
  | none =>
    rw [(model?_eq_none_iff bs).mp found]
    rfl
  | some m =>
    obtain ⟨mem, best⟩ := model?_spec found
    apply Nat.le_antisymm
    · exact length_le_width mem
    · apply width_le_iff.mpr
      intro b memB
      have := (isBetterModel_iff m b).mp (best b memB)
      rw [Option.elim_some]
      omega

/-! ### One model for all lists of the same matches -/

theorem template_congr {bs cs : List Condition} (free : CollisionFree bs)
    (same : ∀ c, c ∈ cs ↔ c ∈ bs) : template cs = template bs := by
  rw [template, template, model?_congr free same]

theorem padded_eq_map (bs : List Condition) : padded bs = bs.map (padTo (template bs)) := by
  unfold padded template
  cases found : model? bs with
  | none =>
    rw [(model?_eq_none_iff bs).mp found]
    rfl
  | some m => rfl

/-- Matches of one width are not padded. -/
theorem padded_eq_self {bs : List Condition} {n : Nat}
    (wide : ∀ b ∈ bs, b.positional.length = n) : padded bs = bs := by
  have narrow : width bs ≤ n := by
    apply width_le_iff.mpr
    intro b mem
    exact (wide b mem).le
  calc padded bs = bs.map (padTo (template bs)) := padded_eq_map bs
    _ = bs.map fun b => b := by
      apply List.map_congr_left
      intro b mem
      apply padTo_of_le
      rwa [length_template, wide b mem]
    _ = bs := List.map_id' bs

/-- Padding by a model widens a match to the types of its components. -/
theorem widened_padTo {model : List Condition} {b : Condition}
    (narrow : b.positional.length ≤ model.length) :
    Widened (model.map slotType) b (padTo model b) where
  paramType := padTo_paramType model b
  operator := padTo_operator model b
  operand := padTo_operand model b
  width := by rw [length_positional_padTo narrow, List.length_map]
  same wide := padTo_of_le (by rw [wide, List.length_map])
  filled narrower := by
    rw [List.length_map] at narrower
    rw [padTo_of_lt narrower, missing_eq]

/-! ### Lists of matches -/

section Matches

variable {bs : List Condition} (wf : ∀ b ∈ bs, WellFormed b)
  (matched : ∀ b ∈ bs, b.operator = .matches)

include wf matched in
/-- Padded matches are matches of one width, and padding them again changes nothing. -/
theorem padToMatch_padded : padToMatch (padded bs) = .ok (padded bs) := by
  have again : ∀ r ∈ padded bs, WellFormed r ∧ r.operator = .matches ∧
      r.positional.length = width bs := by
    intro r mem
    rw [padded_eq_map] at mem
    obtain ⟨b, memB, rfl⟩ := List.mem_map.mp mem
    have some : b.children ≠ [] := (wf b memB).children_ne_nil (by rw [matched b memB]; rfl)
    have narrow : b.positional.length ≤ (template bs).length := by
      rw [length_template]
      exact length_le_width memB
    refine ⟨(wf b memB).padTo some _, ?_, ?_⟩
    · rw [padTo_operator, matched b memB]
    · rw [length_positional_padTo narrow, length_template]
  rw [padToMatch_eq (fun r mem => (again r mem).1) fun r mem => (again r mem).2.1,
    padded_eq_self fun r mem => (again r mem).2.2]

variable (free : CollisionFree bs)

include wf matched free in
/-- Lists of the same matches are padded match by match, in one way. -/
theorem padToMatch_eq_map {cs : List Condition} (same : ∀ c, c ∈ cs ↔ c ∈ bs) :
    padToMatch cs = .ok (cs.map (padTo (template bs))) := by
  rw [padToMatch_eq (fun c mem => wf c ((same c).mp mem)) fun c mem => matched c ((same c).mp mem),
    padded_eq_map, template_congr free same]

/-- Each match of a list of the same matches is widened to the same types. -/
theorem forall₂_widened {cs : List Condition} (same : ∀ c, c ∈ cs ↔ c ∈ bs) :
    List.Forall₂ (Widened ((template bs).map slotType)) cs (cs.map (padTo (template bs))) := by
  rw [List.forall₂_map_right_iff, List.forall₂_same]
  intro c mem
  apply widened_padTo
  rw [length_template]
  exact length_le_width ((same c).mp mem)

include wf matched free in
/-- **Padding is complete**: it ends without an error and brings every match of a list, in its
place, to the width of the widest. A match of that width stays as it is; any other is filled up with
free components whose types depend on the place and on which matches are in the list. Padding what
comes out changes nothing, and the matches in another order are padded to the same in that
order. -/
theorem padToMatch_widens : ∃ types rs, types.length = width bs ∧
    padToMatch bs = .ok rs ∧ List.Forall₂ (Widened types) bs rs ∧
    padToMatch rs = .ok rs ∧
    (∀ cs, (∀ c, c ∈ cs ↔ c ∈ bs) →
      ∃ rs', padToMatch cs = .ok rs' ∧ List.Forall₂ (Widened types) cs rs') ∧
    ∀ places : List Nat, places.Perm (List.range bs.length) →
      padToMatch (places.filterMap fun i => bs[i]?) = .ok (places.filterMap fun i => rs[i]?) := by
  have itself : ∀ b, b ∈ bs ↔ b ∈ bs := fun b => Iff.rfl
  refine ⟨(template bs).map slotType, bs.map (padTo (template bs)), ?_,
    padToMatch_eq_map wf matched free itself, forall₂_widened itself, ?_, ?_, ?_⟩
  · rw [List.length_map, length_template]
  · rw [← padded_eq_map]
    exact padToMatch_padded wf matched
  · intro cs same
    exact ⟨_, padToMatch_eq_map wf matched free same, forall₂_widened same⟩
  · intro places perm
    have same : ∀ b, b ∈ places.filterMap (fun i => bs[i]?) ↔ b ∈ bs := by
      intro b
      rw [List.mem_filterMap, List.mem_iff_getElem?]
      constructor
      · rintro ⟨i, -, found⟩
        exact ⟨i, found⟩
      · rintro ⟨i, found⟩
        refine ⟨i, perm.mem_iff.mpr (List.mem_range.mpr ?_), found⟩
        exact (List.getElem?_eq_some_iff.mp found).1
    rw [padToMatch_eq_map wf matched free same, List.map_filterMap]
    simp only [List.getElem?_map]

end Matches

/-- Three calls of different widths, the widest of them, whose second component is an alternation of
values of variable size, twice; the narrowest has its allowance before its component. -/
def sampleWidths : List Condition :=
  [⟨.calldata, .matches, [], [⟨.none, .etherWithinAllowance, List.replicate 32 0, []⟩, byteIs 1]⟩,
    ⟨.calldata, .matches, [],
      [byteIs 1, anyOf [⟨.dynamic, .equalTo, [2], []⟩, ⟨.dynamic, .equalTo, [3], []⟩], byteIs 4]⟩,
    allowedCall [byteIs 5, byteIs 6],
    ⟨.calldata, .matches, [],
      [byteIs 1, anyOf [⟨.dynamic, .equalTo, [2], []⟩, ⟨.dynamic, .equalTo, [3], []⟩], byteIs 4]⟩]

theorem padToMatch_sampleWidths :
    (∀ b ∈ sampleWidths, WellFormed b) ∧ (∀ b ∈ sampleWidths, b.operator = .matches) ∧
      CollisionFree sampleWidths ∧
      ∃ types rs, types.length = 3 ∧ padToMatch sampleWidths = .ok rs ∧
        List.Forall₂ (Widened types) sampleWidths rs ∧ padToMatch rs = .ok rs ∧
        padToMatch (sampleWidths.reverse) = .ok rs.reverse := by
  have wf : ∀ b ∈ sampleWidths, WellFormed b := by decide +kernel
  have matched : ∀ b ∈ sampleWidths, b.operator = .matches := by decide +kernel
  have free : CollisionFree sampleWidths := by decide +kernel
  obtain ⟨types, rs, long, padded, widened, again, -, permuted⟩ := padToMatch_widens wf matched free
  obtain ⟨a, b, c, d, rfl⟩ : ∃ a b c d, rs = [a, b, c, d] := by
    exact List.length_eq_four.mp widened.length_eq.symm
  exact ⟨wf, matched, free, types, _, long, padded, widened, again,
    permuted [3, 2, 1, 0] (by decide)⟩

end Condition

end CallGuard
