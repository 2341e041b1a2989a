import CallGuard.Canonical.Padding
import CallGuard.Proofs.Grouping
import CallGuard.Proofs.Pruning

/-!
# Laws of padding

Padded matches have as many components as the model, the widest of them. Which match serves as
the model depends on the collection only, not on its order, as long as ids tell the matches apart
(`model?_congr`). Padding adds components that accept everything and nothing else.
-/

namespace CallGuard

namespace Condition

/-! ### The model -/

theorem isBetterModel_iff (a b : Condition) :
    isBetterModel a b ↔ b.positional.length < a.positional.length ∨
      b.positional.length = a.positional.length ∧ (compare a.id b.id).isLE := by
  simp [isBetterModel]

theorem isBetterModel_refl (a : Condition) : isBetterModel a a :=
  (isBetterModel_iff a a).mpr (.inr ⟨rfl, or_self_iff.mp (ConditionId.le_total a.id a.id)⟩)

theorem isBetterModel_trans {a b c : Condition} (ab : isBetterModel a b) (bc : isBetterModel b c) :
    isBetterModel a c := by
  rw [isBetterModel_iff] at *
  rcases ab with wider | ⟨same, le⟩ <;> rcases bc with wider' | ⟨same', le'⟩
  · exact .inl (by omega)
  · exact .inl (by omega)
  · exact .inl (by omega)
  · exact .inr ⟨by omega, Std.TransOrd.isLE_trans le le'⟩

theorem isBetterModel_total (a b : Condition) : isBetterModel a b ∨ isBetterModel b a := by
  rw [isBetterModel_iff, isBetterModel_iff]
  rcases Nat.lt_trichotomy a.positional.length b.positional.length with h | h | h
  · exact .inr (.inl h)
  · exact (ConditionId.le_total a.id b.id).imp (fun le => .inr ⟨h.symm, le⟩) fun le => .inr ⟨h, le⟩
  · exact .inl (.inl h)

theorem isBetterModel_antisymm {a b : Condition} (ab : isBetterModel a b) (ba : isBetterModel b a) :
    a.id = b.id := by
  rw [isBetterModel_iff] at *
  rcases ab with wider | ⟨same, le⟩ <;> rcases ba with wider' | ⟨same', le'⟩
  · omega
  · omega
  · omega
  · exact ConditionId.le_antisymm le le'

/-- The model is one of the matches, and none is better. -/
theorem model?_spec {bs : List Condition} {m : Condition} (h : model? bs = some m) :
    m ∈ bs ∧ ∀ b ∈ bs, isBetterModel m b := by
  induction bs generalizing m with
  | nil => cases h
  | cons c cs ih =>
    rw [model?] at h
    cases rest : model? cs with
    | none =>
      rw [rest] at h
      cases h
      rw [(model?_eq_none_iff cs).mp rest]
      simpa using isBetterModel_refl c
    | some d =>
      obtain ⟨memD, best⟩ := ih rest
      rw [rest] at h
      simp only [Option.some.injEq] at h
      subst h
      by_cases better : isBetterModel c d
      · rw [if_pos better]
        refine ⟨List.mem_cons_self, fun b mem => ?_⟩
        rcases List.mem_cons.mp mem with rfl | later
        · exact isBetterModel_refl b
        · exact isBetterModel_trans better (best b later)
      · rw [if_neg better]
        refine ⟨List.mem_cons_of_mem c memD, fun b mem => ?_⟩
        rcases List.mem_cons.mp mem with rfl | later
        · exact (isBetterModel_total b d).resolve_left better
        · exact best b later

theorem exists_model {bs : List Condition} (h : bs ≠ []) : ∃ m, model? bs = some m :=
  Option.ne_none_iff_exists'.mp fun none => h ((model?_eq_none_iff bs).mp none)

/-- Lists of the same matches have the same model, as long as ids tell the matches apart. -/
theorem model?_congr {bs cs : List Condition} (free : CollisionFree bs)
    (same : ∀ c, c ∈ cs ↔ c ∈ bs) : model? cs = model? bs := by
  cases found : model? bs with
  | none =>
    have empty := (model?_eq_none_iff bs).mp found
    rw [model?_eq_none_iff, List.eq_nil_iff_forall_not_mem]
    intro c mem
    simpa [empty] using (same c).mp mem
  | some m =>
    obtain ⟨memM, bestM⟩ := model?_spec found
    obtain ⟨n, found'⟩ := exists_model (List.ne_nil_of_mem ((same m).mpr memM))
    obtain ⟨memN, bestN⟩ := model?_spec found'
    have memN' := (same n).mp memN
    have ids : n.id = m.id :=
      isBetterModel_antisymm (bestN m ((same m).mpr memM)) (bestM n memN')
    rw [found', free n memN' m memM ids]

/-- The model does not depend on the order of matches with different ids. -/
theorem model?_perm {bs cs : List Condition} (distinct : (bs.map id).Nodup) (h : bs.Perm cs) :
    model? bs = model? cs :=
  (model?_congr (collisionFree_of_nodup_ids distinct) fun _ => h.mem_iff.symm).symm

/-! ### Padded matches -/

/-- The components that a match lacks of a model. -/
def missing (model : List Condition) (c : Condition) : List Condition :=
  (model.drop c.positional.length).map fun d => pass d.slotType

theorem length_missing (model : List Condition) (c : Condition) :
    (missing model c).length = model.length - c.positional.length := by
  simp [missing]

theorem mem_missing {model : List Condition} {c d : Condition} (h : d ∈ missing model c) :
    ∃ e ∈ model, d = pass e.slotType := by
  obtain ⟨e, mem, rfl⟩ := List.mem_map.mp h
  exact ⟨e, List.mem_of_mem_drop mem, rfl⟩

theorem eq_pass_of_mem_missing {model : List Condition} {c d : Condition}
    (h : d ∈ missing model c) :
    ∃ p, d = pass p := by
  obtain ⟨e, -, rfl⟩ := mem_missing h
  exact ⟨e.slotType, rfl⟩

theorem padTo_of_le {model : List Condition} {c : Condition}
    (h : model.length ≤ c.positional.length) : padTo model c = c :=
  if_pos h

theorem padTo_of_lt {model : List Condition} {c : Condition}
    (h : c.positional.length < model.length) :
    padTo model c = { c with children := c.positional ++ missing model c ++ c.allowances } :=
  if_neg (by omega)

@[simp] theorem padTo_operator (model : List Condition) (c : Condition) :
    (padTo model c).operator = c.operator := by
  unfold padTo
  dsimp only
  split <;> rfl

@[simp] theorem padTo_paramType (model : List Condition) (c : Condition) :
    (padTo model c).paramType = c.paramType := by
  unfold padTo
  dsimp only
  split <;> rfl

@[simp] theorem padTo_operand (model : List Condition) (c : Condition) :
    (padTo model c).operand = c.operand := by
  unfold padTo
  dsimp only
  split <;> rfl

theorem padTo_with_children (model : List Condition) (c : Condition) (cs : List Condition) :
    ({ padTo model c with children := cs } : Condition) = { c with children := cs } := by
  unfold padTo
  dsimp only
  split <;> rfl

/-- What a match lacks, read off the types of the components of the model. -/
theorem missing_eq (model : List Condition) (c : Condition) :
    missing model c = ((model.map slotType).drop c.positional.length).map pass := by
  rw [missing, ← List.map_drop, List.map_map]
  rfl

theorem missing_of_le {model : List Condition} {c : Condition}
    (h : model.length ≤ c.positional.length) : missing model c = [] := by
  rw [missing, List.drop_of_length_le h, List.map_nil]

theorem isGlobalAllowance_padded_component {model : List Condition} {c d : Condition}
    (h : d ∈ c.positional ++ missing model c) : d.isGlobalAllowance = false := by
  rcases List.mem_append.mp h with own | new
  · exact (mem_positional.mp own).2
  · obtain ⟨p, rfl⟩ := eq_pass_of_mem_missing new
    rfl

theorem positional_padTo (model : List Condition) (c : Condition) :
    (padTo model c).positional = c.positional ++ missing model c := by
  by_cases h : model.length ≤ c.positional.length
  · rw [padTo_of_le h, missing_of_le h, List.append_nil]
  · rw [padTo_of_lt (by omega)]
    exact filter_positional_append (fun d => isGlobalAllowance_padded_component)
      fun d mem => (mem_allowances.mp mem).2

theorem allowances_padTo (model : List Condition) (c : Condition) :
    (padTo model c).allowances = c.allowances := by
  by_cases h : model.length ≤ c.positional.length
  · rw [padTo_of_le h]
  · rw [padTo_of_lt (by omega)]
    exact filter_allowances_append (fun d => isGlobalAllowance_padded_component)
      fun d mem => (mem_allowances.mp mem).2

theorem length_positional_padTo {model : List Condition} {c : Condition}
    (h : c.positional.length ≤ model.length) :
    (padTo model c).positional.length = model.length := by
  rw [positional_padTo, List.length_append, length_missing]
  omega

/-- The children of a padded match are its own and what it lacked. -/
theorem children_padTo_perm (model : List Condition) (c : Condition) :
    (padTo model c).children.Perm (missing model c ++ c.children) := by
  have padded := positional_append_allowances_perm (padTo model c)
  have own := positional_append_allowances_perm c
  rw [positional_padTo, allowances_padTo] at padded
  refine padded.symm.trans (.trans ?_ (own.append_left _))
  rw [← List.append_assoc]
  exact List.perm_append_comm.append_right _

/-- A child of a padded match is one of its own or accepts everything. -/
theorem mem_children_padTo {model : List Condition} {c d : Condition}
    (h : d ∈ (padTo model c).children) : d ∈ c.children ∨ ∃ p, d = pass p := by
  rcases List.mem_append.mp ((children_padTo_perm model c).mem_iff.mp h) with new | own
  · exact .inr (eq_pass_of_mem_missing new)
  · exact .inl own

/-- What a match is padded to depends on the types of the components of the model only. -/
theorem padTo_congr {model model' : List Condition}
    (same : model.map slotType = model'.map slotType) (c : Condition) :
    padTo model c = padTo model' c := by
  have widths : model.length = model'.length := by simpa using congrArg List.length same
  have free : missing model c = missing model' c := by rw [missing_eq, missing_eq, same]
  by_cases wide : model.length ≤ c.positional.length
  · rw [padTo_of_le wide, padTo_of_le (widths ▸ wide)]
  · rw [padTo_of_lt (by omega), padTo_of_lt (by omega), free]

theorem WellFormed.padTo {c : Condition} (h : WellFormed c) (some : c.children ≠ [])
    (model : List Condition) : WellFormed (padTo model c) := by
  have below : ∀ d ∈ (Condition.padTo model c).children, WellFormed d := by
    intro d mem
    rcases mem_children_padTo mem with own | ⟨p, rfl⟩
    · exact h.children d own
    · exact wellFormed_pass p
  by_cases wide : model.length ≤ c.positional.length
  · rwa [padTo_of_le wide]
  · rw [padTo_of_lt (by omega)] at below ⊢
    refine h.with_children some (fun empty => ?_) below
    have := congrArg List.length empty
    simp only [List.length_append, length_missing, List.length_nil] at this
    omega

theorem exists_padTo_of_mem_padded {bs : List Condition} {b : Condition} (h : b ∈ padded bs) :
    ∃ model, ∃ c ∈ bs, b = padTo model c := by
  unfold padded at h
  split at h
  · cases h
  · obtain ⟨c, memC, rfl⟩ := List.mem_map.mp h
    exact ⟨_, c, memC, rfl⟩

theorem WellFormed.of_mem_padded {bs : List Condition} (wf : ∀ b ∈ bs, WellFormed b)
    (some : ∀ b ∈ bs, b.children ≠ []) {b : Condition} (h : b ∈ padded bs) : WellFormed b := by
  obtain ⟨model, c, memC, rfl⟩ := exists_padTo_of_mem_padded h
  exact (wf c memC).padTo (some c memC) model

theorem totalWeight_pass {w : Operator → Bytes → Nat} {cs : List Condition}
    (h : ∀ d ∈ cs, ∃ p, d = pass p) : totalWeight w cs = w .pass [] * cs.length := by
  induction cs with
  | nil => rfl
  | cons c cs ih =>
    obtain ⟨p, rfl⟩ := h c List.mem_cons_self
    rw [totalWeight_cons, ih fun d mem => h d (List.mem_cons_of_mem _ mem), pass, weight_mk,
      totalWeight_nil, List.length_cons, Nat.mul_succ]
    omega

/-- Padding adds the weight of as many free components as were missing. -/
theorem weight_padTo {w : Operator → Bytes → Nat} (model : List Condition) (c : Condition) :
    weight w (padTo model c) =
      weight w c + w .pass [] * (model.length - c.positional.length) := by
  rw [weight_eq, weight_eq c, padTo_operator, padTo_operand,
    ← totalWeight_perm (positional_append_allowances_perm (padTo model c)),
    ← totalWeight_perm (positional_append_allowances_perm c), positional_padTo, allowances_padTo]
  simp only [totalWeight_append, totalWeight_pass fun d => eq_pass_of_mem_missing (d := d),
    length_missing]
  omega

/-! ### Calls padded and pruned -/

theorem isPass_of_mem_missing {model : List Condition} {c d : Condition}
    (h : d ∈ missing model c) : d.isPass := by
  obtain ⟨p, rfl⟩ := eq_pass_of_mem_missing h
  rfl

/-- Pruning leaves at least one component of a padded call. -/
theorem prune_padTo {model : List Condition} {c : Condition} (op : c.operator = .matches)
    (scope : c.isWholeCall) : (padTo model c).prune = { c with
      children := dropFreeTail 1 (c.positional ++ missing model c) ++ c.allowances } := by
  have scopeP : (padTo model c).isWholeCall := by rwa [isWholeCall, padTo_paramType]
  have keep (cs : List Condition) : dropFreeTail (min 1 cs.length) cs = dropFreeTail 1 cs := by
    cases cs with
    | nil => rfl
    | cons d ds => rw [List.length_cons, Nat.min_eq_left (by omega)]
  rw [prune_of_isOpenEnded (by rwa [padTo_operator]) (isOpenEnded_of_isWholeCall scopeP),
    padTo_with_children, allowances_padTo, retained_of_isWholeCall scopeP, keep, positional_padTo]

/-- Padding a call with a component is undone by pruning. -/
theorem prune_padTo_of_ne_nil {model : List Condition} {c : Condition} (op : c.operator = .matches)
    (scope : c.isWholeCall) (pruned : c.prune = c) (some : c.positional ≠ []) :
    (padTo model c).prune = c := by
  obtain ⟨last, kept⟩ := (prune_eq_self_iff op (isOpenEnded_of_isWholeCall scope)).mp pruned
  have long : 1 ≤ c.positional.length := List.length_pos_of_ne_nil some
  rw [retained_of_isWholeCall scope, Nat.min_eq_left long] at kept
  rw [prune_padTo op scope, dropFreeTail_append long fun d => isPass_of_mem_missing, kept, ← last,
    mk_eta]

/-- A call without components keeps the first one that it is padded with. -/
theorem prune_padTo_of_nil {first : Condition} {rest : List Condition} {c : Condition}
    (op : c.operator = .matches) (scope : c.isWholeCall) (none : c.positional = []) :
    (padTo (first :: rest) c).prune =
      { c with children := pass first.slotType :: c.children } := by
  have all : c.allowances = c.children := by
    refine List.filter_eq_self.mpr fun d mem => ?_
    by_contra own
    have inside : d ∈ c.positional := mem_positional.mpr ⟨mem, by simpa using own⟩
    rw [none] at inside
    cases inside
  have made : missing (first :: rest) c = [pass first.slotType] ++ missing rest c := by
    simp [missing, none]
  rw [prune_padTo op scope, none, made, List.nil_append,
    dropFreeTail_append (by simp) fun d => isPass_of_mem_missing, all]
  rfl

/-! ### Matches of one width -/

/-- Matches of one width come from the widest of them as the model. -/
theorem padded_eq {bs : List Condition} (h : bs ≠ []) :
    ∃ m ∈ bs, padded bs = bs.map (padTo m.positional) ∧
      ∀ b ∈ bs, b.positional.length ≤ m.positional.length := by
  obtain ⟨m, found⟩ := exists_model h
  obtain ⟨mem, best⟩ := model?_spec found
  refine ⟨m, mem, by rw [padded, found], fun b memB => ?_⟩
  have := (isBetterModel_iff m b).mp (best b memB)
  omega

/-- All padded matches have the same number of components. -/
theorem length_positional_padded {bs : List Condition} {a b : Condition} (memA : a ∈ padded bs)
    (memB : b ∈ padded bs) : a.positional.length = b.positional.length := by
  have some : bs ≠ [] := by
    rintro rfl
    cases memA
  obtain ⟨m, -, eq, widest⟩ := padded_eq some
  rw [eq] at memA memB
  obtain ⟨x, memX, rfl⟩ := List.mem_map.mp memA
  obtain ⟨y, memY, rfl⟩ := List.mem_map.mp memB
  rw [length_positional_padTo (widest x memX), length_positional_padTo (widest y memY)]

/-- Matches with different ids, in another order, are padded to the same matches in that
order. -/
theorem padded_perm {bs cs : List Condition} (distinct : (bs.map id).Nodup) (h : bs.Perm cs) :
    (padded bs).Perm (padded cs) := by
  rw [padded, padded, model?_perm distinct h]
  cases model? cs with
  | none => exact .refl _
  | some m => exact h.map _

end Condition

end CallGuard
