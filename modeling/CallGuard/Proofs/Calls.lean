import CallGuard.Proofs.Exactness
import CallGuard.Proofs.Framed
import CallGuard.Proofs.Leaves

/-!
# Calls around values

Calls are pruned, so that those around different values in one place need not have one width. They
are calls around values all the same if padding makes them one match around the values (`Around`).
Factoring pads them after the widest of them and subtraction after the condition, which has the
alternation of the values in the place; but all that padding reads are the types of the components,
and the place has one type. And at most one of several calls around different values is not as wide
as the others: the last component of the widest is not free, so that it is the place that the
narrower one lacks, and its value the free leaf that padding puts there.
-/

namespace CallGuard

namespace Condition

/-! ### The model -/

/-- A call in normal form around a value that is no allowance. -/
structure Model (f : Frame) (u : Condition) : Prop where
  operator : f.operator = .matches
  scope : f.paramType.isWholeCall
  normal : Normal (f.fill u)
  own : u.isGlobalAllowance = false

namespace Model

variable {f : Frame} {u b v x : Condition}

theorem isWholeCall_fill (h : Model f u) (x : Condition) : (f.fill x).isWholeCall :=
  h.scope

/-- A call around another value of the type serves as well. -/
theorem padTo_fill (h : Model f u) (type : x.slotType = u.slotType)
    (own : x.isGlobalAllowance = false) (b : Condition) :
    padTo (f.fill x).positional b = padTo (f.fill u).positional b := by
  refine padTo_congr ?_ b
  rw [positional_fill f own, positional_fill f h.own]
  simp [type]

/-- What is padded to the call around a value is of its kind. -/
theorem kind (h : Model f u) (fills : padTo (f.fill u).positional b = f.fill v) :
    b.paramType = f.paramType ∧ b.operator = .matches := by
  rw [← padTo_paramType (f.fill u).positional b, ← padTo_operator (f.fill u).positional b, fills]
  exact ⟨rfl, h.operator⟩

/-- The last component of the call is not free if it is not the value. -/
theorem not_isPass_last (h : Model f u) {last : Condition}
    (found : (f.after.filter fun d => !d.isGlobalAllowance).getLast? = some last) :
    ¬ last.isPass := by
  intro free
  have scope := h.isWholeCall_fill u
  have kept := ((prune_eq_self_iff h.operator (isOpenEnded_of_isWholeCall scope)).mp
    h.normal.tidy.pruned).2
  rw [retained_of_isWholeCall scope, positional_fill f h.own, dropFreeTail_eq_self_iff] at kept
  obtain ⟨start, eq⟩ := List.getLast?_eq_some_iff.mp found
  rw [eq] at kept
  have short := kept last
    (by rw [← List.cons_append, ← List.append_assoc]; exact List.getLast?_concat) free
  simp only [List.length_append, List.length_cons] at short
  omega

/-- A call that has to be padded has a free component for its value. -/
theorem eq_pass_of_narrow (h : Model f u) (fills : padTo (f.fill u).positional b = f.fill v)
    (own : v.isGlobalAllowance = false)
    (narrow : b.positional.length < (f.fill u).positional.length) : v = pass u.slotType := by
  -- the last component was made up for the last one of the model
  have last : (f.fill v).positional.getLast? =
      (f.fill u).positional.getLast?.map fun d => pass d.slotType := by
    rw [← fills, positional_padTo, missing, List.getLast?_append, List.getLast?_map,
      List.getLast?_drop, if_neg (by omega)]
    cases found : (f.fill u).positional.getLast? with
    | none =>
      rw [List.getLast?_eq_none_iff.mp found] at narrow
      cases narrow
    | some d => rfl
  rw [positional_fill f own, positional_fill f h.own, List.getLast?_append_cons,
    List.getLast?_append_cons, List.getLast?_cons, List.getLast?_cons] at last
  cases found : (f.after.filter fun d => !d.isGlobalAllowance).getLast? with
  | none =>
    rw [found] at last
    exact Option.some.inj last
  | some d =>
    rw [found] at last
    exact absurd (by rw [show d = pass d.slotType from Option.some.inj last]; rfl)
      (h.not_isPass_last found)

/-- The call around an alternation of leaves of the type is in normal form up to their order. -/
theorem normalForm_fill_anyOf (h : Model f u) {vs : List Condition} (leaves : LeafValues vs)
    (leaf : u.children = []) (types : ∀ v ∈ vs, v.paramType = u.paramType) (many : 2 ≤ vs.length) :
    normalForm true (f.fill (anyOf vs)) = f.fill (anyOf (sorted vs)) := by
  have value := leaves.normal_anyOf_sorted many
  have wf := leaves.wellFormed_anyOf (List.ne_nil_of_length_pos (by omega))
  have size : (anyOf (sorted vs)).isDynamic = u.isDynamic := by
    have each : ∀ v ∈ sorted vs, v.isDynamic = u.isDynamic := fun v mem =>
      isDynamic_of_leaf (leaves.sorted.leaf v mem) leaf (types v ((sorted_perm vs).mem_iff.mp mem))
    obtain ⟨v, mem⟩ :=
      List.exists_mem_of_ne_nil (sorted vs) (value.wellFormed.children_ne_nil rfl)
    rw [isDynamic_of_none rfl, Bool.eq_iff_iff, List.any_eq_true]
    constructor
    · rintro ⟨w, memW, dynamic⟩
      exact (each w memW).symm.trans dynamic
    · intro dynamic
      exact ⟨v, mem, (each v mem).trans dynamic⟩
  have whole : Normal (f.fill (anyOf (sorted vs))) :=
    h.normal.fill h.operator value h.own rfl size nofun
  rw [normalForm_fill_congr (h.normal.wellFormed.refill wf) whole.wellFormed, whole.normalForm_eq]
  rw [leaves.normalForm_anyOf many, value.normalForm_eq]

/-- **Subtracting a call** that padding makes the call around another value subtracts its value. -/
theorem difference_fill (h : Model f u) {rest : Condition} (wf : WellFormed (f.fill x))
    (wfB : WellFormed b) (fills : padTo (f.fill u).positional b = f.fill v)
    (type : x.slotType = u.slotType) (ownX : x.isGlobalAllowance = false)
    (own : v.isGlobalAllowance = false) (differ : x ≠ v)
    (free : CollisionFree (comparedToSubtract (f.fill x) b))
    (left : x.id ≠ v.id → difference x v = .remainder rest) :
    difference (f.fill x) b = .remainder (f.fill rest) := by
  obtain ⟨typeB, opB⟩ := h.kind fills
  have op : (f.fill x).operator = .matches := h.operator
  have other : f.operator ≠ .or := by
    rw [h.operator]
    exact nofun
  rw [← h.padTo_fill type ownX] at fills
  have ids : (f.fill x).id ≠ b.id := by
    intro same
    rw [← free.eq_of_id wf wfB same, padTo_of_le (Nat.le_refl _)] at fills
    exact differ (f.fill_injective fills)
  have allowances : (f.fill x).allowances = b.allowances := by
    rw [← allowances_padTo (f.fill x).positional b, fills, allowances_fill f ownX,
      allowances_fill f own]
  have narrower : b.positional.length ≤ (f.fill x).positional.length := by
    have widths := congrArg (fun c => c.positional.length) fills
    simp only [positional_padTo, List.length_append, length_positional_fill, own] at widths
    rw [length_positional_fill, ownX]
    omega
  have scopeB : b.isWholeCall := by
    rw [isWholeCall, typeB]
    exact h.scope
  obtain ⟨faced, meets⟩ :=
    facing_of_wide typeB.symm (isOpenEnded_of_isWholeCall (h.isWholeCall_fill x))
      (isOpenEnded_of_isWholeCall scopeB) (congrArg List.length allowances) narrower
  rw [fills] at faced meets
  have compared := free.toMeet wf wfB ids (by exact other)
  simp only [comparedToMeet, op, opB, faced] at compared
  have apart : x.id ≠ v.id := fun same => differ (compared x (by simp) v (by simp) same)
  refine Condition.difference_fill wf wfB ids other ?_ (left apart)
  unfold meeting?
  rw [op, opB]
  exact meets.trans (meetingOfMatches?_fill apart)

end Model

/-! ### Calls around values -/

/-- Matches that padding after a call around one value makes the call around values, none of them
an allowance and all of one type. -/
structure Around (f : Frame) (u : Condition) (bs vs : List Condition) : Prop extends Model f u where
  padded : bs.map (padTo (f.fill u).positional) = vs.map f.fill
  values : ∀ v ∈ vs, v.slotType = u.slotType ∧ v.isGlobalAllowance = false

namespace Around

variable {f : Frame} {u : Condition} {bs vs : List Condition}

theorem length_eq (h : Around f u bs vs) : bs.length = vs.length := by
  simpa using congrArg List.length h.padded

/-- Different values are those of different matches. -/
theorem nodup (h : Around f u bs vs) (different : vs.Nodup) : bs.Nodup := by
  refine List.Nodup.of_map (padTo (f.fill u).positional) ?_
  rw [h.padded]
  exact different.map f.fill_injective

theorem exists_value (h : Around f u bs vs) {b : Condition} (mem : b ∈ bs) :
    ∃ v ∈ vs, padTo (f.fill u).positional b = f.fill v := by
  obtain ⟨v, memV, fills⟩ := List.mem_map.mp (h.padded ▸ List.mem_map_of_mem (f := padTo _) mem)
  exact ⟨v, memV, fills.symm⟩

theorem kind (h : Around f u bs vs) {b : Condition} (mem : b ∈ bs) :
    b.paramType = f.paramType ∧ b.operator = .matches := by
  obtain ⟨v, -, fills⟩ := h.exists_value mem
  exact h.toModel.kind fills

theorem isWholeCall (h : Around f u bs vs) {b : Condition} (mem : b ∈ bs) : b.isWholeCall := by
  rw [Condition.isWholeCall, (h.kind mem).1]
  exact h.scope

theorem operator_ne_or (h : Around f u bs vs) {b : Condition} (mem : b ∈ bs) :
    b.operator ≠ .or := by
  rw [(h.kind mem).2]
  exact nofun

/-- One of the calls around values, and the others. -/
theorem split {before after : List Condition} {b : Condition}
    (h : Around f u (before ++ b :: after) vs) : ∃ early v late, vs = early ++ v :: late ∧
      padTo (f.fill u).positional b = f.fill v ∧ Around f u (before ++ after) (early ++ late) := by
  have padded := h.padded
  rw [List.map_append, List.map_cons] at padded
  obtain ⟨early, rest, rfl, first, second⟩ := List.map_eq_append_iff.mp padded.symm
  obtain ⟨v, late, rfl, here, last⟩ := List.map_eq_cons_iff.mp second
  refine ⟨early, v, late, rfl, here.symm, h.toModel, ?_, fun w mem => h.values w ?_⟩
  · rw [List.map_append, List.map_append, first, last]
  · rcases List.mem_append.mp mem with left | right
    · exact List.mem_append_left _ left
    · exact List.mem_append_right _ (List.mem_cons_of_mem v right)

/-- Calls around different values are padded to these, whichever of them is the model. -/
theorem padded_eq (h : Around f u bs vs) (many : 2 ≤ vs.length) (different : vs.Nodup) :
    Condition.padded bs = vs.map f.fill := by
  have some : bs ≠ [] := List.ne_nil_of_length_pos (by rw [h.length_eq]; omega)
  -- one of the values is not free, so that its match is as wide as the model
  obtain ⟨v, memV, other⟩ : ∃ v ∈ vs, v ≠ pass u.slotType := by
    obtain ⟨x, y, zs, rfl⟩ := exists_eq_cons_cons many
    by_cases same : x = pass u.slotType
    · refine ⟨y, by simp, fun again => ?_⟩
      exact (List.nodup_cons.mp different).1 (by simp [same, again])
    · exact ⟨x, by simp, same⟩
  obtain ⟨b, memB, fills⟩ := List.mem_map.mp (h.padded ▸ List.mem_map_of_mem (f := f.fill) memV)
  have wide : (f.fill u).positional.length ≤ b.positional.length := by
    by_contra narrow
    exact other (h.eq_pass_of_narrow fills (h.values v memV).2 (by omega))
  obtain ⟨m, memM, eq, widest⟩ := Condition.padded_eq some
  obtain ⟨w, memW, model⟩ := h.exists_value memM
  rw [padTo_of_le (wide.trans (widest b memB))] at model
  obtain ⟨type, own⟩ := h.values w memW
  rw [eq, ← h.padded, model]
  exact List.map_congr_left fun c _ => h.padTo_fill type own c

/-- Calls around different values become the call around the alternation of the values. -/
theorem normalForm_anyOf (h : Around f u bs vs) (normal : ∀ b ∈ bs, Normal b)
    (many : 2 ≤ vs.length) (different : vs.Nodup)
    (free : CollisionFree (compared true (anyOf bs))) :
    WellFormed (f.fill (anyOf vs)) ∧ CollisionFree (compared true (f.fill (anyOf vs))) ∧
      normalForm true (anyOf bs) = normalForm true (f.fill (anyOf vs)) := by
  have several : 2 ≤ bs.length := h.length_eq ▸ many
  refine normalForm_anyOf_of_factor? normal (fun b => h.operator_ne_or) (h.nodup different) several
    free fun free => ?_
  have array : f.paramType ≠ .array := fun array => by
    have scope := h.scope
    rw [array] at scope
    cases scope
  have common : commonOperator? bs = some .matches := commonOperator?_eq_some_iff.mpr
    ⟨List.ne_nil_of_length_pos (by omega), f.paramType, array, fun b => h.kind⟩
  have padded := h.padded_eq many different
  refine (factor?_matches_iff (fun b mem => (normal b mem).wellFormed) common free).mpr
    ⟨f, vs, padded, many, ?_, fun v mem => (h.values v mem).2, rfl⟩
  rw [comparedBranches_of_matches common, padded] at free
  have inside : ∀ v ∈ vs, v ∈ bs ++ (vs.map f.fill).flatMap children := fun v mem =>
    List.mem_append_right _ (List.mem_flatMap.mpr
      ⟨f.fill v, List.mem_map_of_mem mem, Frame.mem_fill_children.mpr (.inl rfl)⟩)
  exact different.map_on fun v mem w memW => free v (inside v mem) w (inside w memW)

end Around

/-! ### Calls around leaves -/

namespace Around

variable {f : Frame} {u : Condition}

/-- **Calls around different leaves** become the call around the alternation of the leaves. -/
theorem normalForm_anyOf_eq {bs vs : List Condition} (h : Around f u bs vs) (memU : u ∈ vs)
    (normal : ∀ b ∈ bs, Normal b) (leaf : ∀ v ∈ vs, v.children = []) (different : vs.Nodup)
    (many : 2 ≤ vs.length) (free : CollisionFree (compared true (anyOf bs))) :
    LeafValues vs ∧ normalForm true (anyOf bs) = f.fill (anyOf (sorted vs)) := by
  obtain ⟨wf, freeD, eq⟩ := h.normalForm_anyOf normal many different free
  have wfV : ∀ v ∈ vs, WellFormed v := wf.of_fill.children
  have leaves := leafValues_of_free wfV leaf different many
    (freeD.child wf (Frame.mem_fill_children.mpr (.inl rfl)))
  have types : ∀ v ∈ vs, v.paramType = u.paramType := fun v mem => by
    rw [← slotType_of_leaf (leaf v mem), ← slotType_of_leaf (leaf u memU)]
    exact (h.values v mem).1
  exact ⟨leaves, eq.trans (h.normalForm_fill_anyOf leaves (leaf u memU) types many)⟩

/-- **Subtracting one of several calls** around different leaves leaves the call around what becomes
of the alternation of the other leaves. -/
theorem difference_eq {bs early late : List Condition} {b v : Condition}
    (h : Around f u bs (early ++ v :: late)) (some : early ++ late ≠ [])
    (leaves : LeafValues (early ++ v :: late)) (wfB : WellFormed b)
    (fills : padTo (f.fill u).positional b = f.fill v)
    (free : CollisionFree (comparedToSubtract (f.fill (anyOf (sorted (early ++ v :: late)))) b)) :
    difference (f.fill (anyOf (sorted (early ++ v :: late)))) b =
      .remainder (f.fill (normalForm true (anyOf (early ++ late)))) := by
  have perm := sorted_perm (early ++ v :: late)
  have mem : v ∈ early ++ v :: late := List.mem_append_right _ List.mem_cons_self
  have someS : sorted (early ++ v :: late) ≠ [] := List.ne_nil_of_mem (perm.mem_iff.mpr mem)
  have wf : WellFormed (f.fill (anyOf (sorted (early ++ v :: late)))) :=
    h.normal.wellFormed.refill (leaves.sorted.wellFormed_anyOf someS)
  have type := slotType_anyOf someS fun w memW => (h.values w (perm.mem_iff.mp memW)).1
  exact h.toModel.difference_fill wf wfB fills type rfl (h.values v mem).2
    (leaves.anyOf_ne someS mem) free (leaves.difference_anyOf some)

/-- A single call comes back pruned from what it was padded to. -/
theorem normalForm_fill_one {c v : Condition} (h : Around f u [c] [v]) (normal : Normal c) :
    normalForm true (f.fill v) = (padTo (f.fill u).positional c).prune := by
  obtain ⟨-, op⟩ := h.kind (List.mem_singleton_self c)
  have fills : padTo (f.fill u).positional c = f.fill v := List.singleton_inj.mp h.padded
  have some : c.children ≠ [] := normal.wellFormed.children_ne_nil (by rw [op]; rfl)
  have wf : WellFormed (f.fill v) := fills ▸ normal.wellFormed.padTo some (f.fill u).positional
  have single : ¬ f.operator.isSetLike := by
    rw [h.operator]
    exact Bool.false_ne_true
  have below : ∀ d ∈ (f.fill v).children, normalForm true d = d := by
    intro d mem
    rw [← fills] at mem
    rcases mem_children_padTo mem with own | ⟨p, rfl⟩
    · exact (normal.child own).normalForm_eq
    · exact normalForm_of_isPass (wellFormed_pass p) rfl
  rw [normalForm_of_not_isSetLike wf single, assembled_eq_self below, fills]

/-- The call around what becomes of the alternation of some leaves is what becomes of the calls
around the leaves, unless that is a single call without components. -/
theorem normalForm_fill_rest {bs vs : List Condition} (h : Around f u bs vs) (some : vs ≠ [])
    (normal : ∀ b ∈ bs, Normal b) (leaves : LeafValues vs)
    (free : CollisionFree (compared true (anyOf bs)))
    (components : ∀ c, bs = [c] → c.positional ≠ []) :
    normalForm true (f.fill (normalForm true (anyOf vs))) = normalForm true (anyOf bs) := by
  have value := leaves.normal_normalForm some
  by_cases many : 2 ≤ vs.length
  · obtain ⟨wf, -, eq⟩ := h.normalForm_anyOf normal many (nodup_of_nodup_ids leaves.apart) free
    rw [eq]
    exact normalForm_fill_congr (h.normal.wellFormed.refill value.wellFormed) wf
      value.normalForm_eq
  · obtain ⟨v, rfl⟩ := exists_eq_singleton some many
    obtain ⟨c, rfl⟩ := List.length_eq_one_iff.mp h.length_eq
    have memC : c ∈ [c] := List.mem_singleton_self c
    rw [leaves.normalForm_anyOf_one,
      (normal c memC).normalForm_anyOf (h.operator_ne_or memC),
      h.normalForm_fill_one (normal c memC)]
    exact prune_padTo_of_ne_nil (h.kind memC).2 (h.isWholeCall memC) (normal c memC).tidy.pruned
      (components c rfl)

/-- A single call without components keeps a free one of what it was padded to. -/
theorem normalForm_fill_bare {c v x : Condition} (h : Around f u [c] [v]) (normal : Normal c)
    (none : c.positional = []) (type : x.slotType = u.slotType)
    (own : x.isGlobalAllowance = false) : ∃ first ∈ (f.fill x).positional.head?,
      normalForm true (f.fill v) = { c with children := pass first.slotType :: c.children } := by
  have memC : c ∈ [c] := List.mem_singleton_self c
  have some : (f.fill x).positional ≠ [] :=
    List.ne_nil_of_mem (mem_positional.mpr ⟨Frame.mem_fill_children.mpr (.inl rfl), own⟩)
  obtain ⟨first, rest, split⟩ := List.exists_cons_of_ne_nil some
  refine ⟨first, by rw [split]; rfl, ?_⟩
  rw [h.normalForm_fill_one normal, ← h.padTo_fill type own, split]
  exact prune_padTo_of_nil (h.kind memC).2 (h.isWholeCall memC) none

end Around

end Condition

end CallGuard
