import CallGuard.Proofs.Aligned
import CallGuard.Proofs.MergedAlike

/-!
# The place of a value

Matches that padding makes one match around different values differ in one place. Read place by
place, padding and pruning leave components alone: padding only makes up free ones behind the last,
and pruning only drops free ones there. So what is known of a place once matches are padded is known
of the matches themselves, as far as they are not free there.
-/

namespace CallGuard

namespace Condition

theorem exists_mem_ne {α : Type} {xs : List α} (different : xs.Nodup) (many : 2 ≤ xs.length)
    (a : α) : ∃ x ∈ xs, x ≠ a := by
  classical
  by_contra all
  push Not at all
  rw [List.eq_replicate_iff.mpr ⟨rfl, all⟩, List.nodup_replicate] at different
  omega

/-! ### Components by place -/

section Places

variable {f g : Frame} {c x y a : Condition} {model : List Condition} {n : Nat}

/-- The place of the value among the components around it. -/
def Frame.place (f : Frame) : Nat :=
  (f.before.filter fun d => !d.isGlobalAllowance).length

theorem getElem?_fill_place (f : Frame) (own : x.isGlobalAllowance = false) :
    (f.fill x).positional[f.place]? = some x := by
  rw [positional_fill f own, Frame.place, List.getElem?_append_right (Nat.le_refl _), Nat.sub_self]
  rfl

/-- In every other place there is the same around every value. -/
theorem getElem?_fill_other (f : Frame) (own : x.isGlobalAllowance = false)
    (ownY : y.isGlobalAllowance = false) (other : n ≠ f.place) :
    (f.fill x).positional[n]? = (f.fill y).positional[n]? := by
  rw [positional_fill f own, positional_fill f ownY, List.getElem?_append, List.getElem?_append]
  split
  · rfl
  · have beyond : n - (f.before.filter fun d => !d.isGlobalAllowance).length ≠ 0 := by
      rw [Frame.place] at other
      omega
    obtain ⟨k, eq⟩ := Nat.exists_eq_succ_of_ne_zero beyond
    rw [eq, List.getElem?_cons_succ, List.getElem?_cons_succ]

/-- A match is a frame around each of its components. -/
theorem exists_fill_of_getElem? (bare : c.operand = []) (found : c.positional[n]? = some a) :
    ∃ f : Frame, f.fill a = c ∧ f.place = n := by
  obtain ⟨short, rfl⟩ := List.getElem?_eq_some_iff.mp found
  have split : c.positional =
      c.positional.take n ++ c.positional[n] :: c.positional.drop (n + 1) := by
    rw [← List.drop_eq_getElem_cons short, List.take_append_drop]
  obtain ⟨start, rest, whole, first, others⟩ := List.filter_eq_append_iff.mp split
  obtain ⟨allowances, after, rfl, none, -, -⟩ := List.filter_eq_cons_iff.mp others
  refine ⟨⟨c.paramType, c.operator, start ++ allowances, after⟩, ?_, ?_⟩
  · rw [Frame.fill, List.append_assoc, ← whole, ← bare, mk_eta]
  · have gone : allowances.filter (fun d => !d.isGlobalAllowance) = [] :=
      List.filter_eq_nil_iff.mpr none
    rw [Frame.place, List.filter_append, gone, List.append_nil, first, List.length_take_of_le]
    exact short.le

theorem getElem?_padTo (found : c.positional[n]? = some a) :
    (padTo model c).positional[n]? = some a := by
  have := (List.getElem?_eq_some_iff.mp found).1
  rw [positional_padTo, List.getElem?_append_left this, found]

/-- What padding adds is a free leaf of the type in that place of the model. -/
theorem exists_getElem?_of_padTo (found : (padTo model c).positional[n]? = some a)
    (none : c.positional[n]? = none) : ∃ m, model[n]? = some m ∧ a = pass m.slotType := by
  have beyond := List.getElem?_eq_none_iff.mp none
  rw [positional_padTo, List.getElem?_append_right beyond, missing, List.getElem?_map,
    List.getElem?_drop, Nat.add_sub_cancel' beyond, Option.map_eq_some_iff] at found
  obtain ⟨m, here, rfl⟩ := found
  exact ⟨m, here, rfl⟩

theorem getElem?_of_padTo (found : (padTo model c).positional[n]? = some a) (bound : ¬ a.isPass) :
    c.positional[n]? = some a := by
  cases own : c.positional[n]? with
  | none =>
    obtain ⟨m, -, rfl⟩ := exists_getElem?_of_padTo found own
    exact absurd rfl bound
  | some b =>
    rw [← found, getElem?_padTo own]

/-- What is padded to a match around a value has the value itself, or it is made up. -/
theorem getElem?_place_of_padTo (fills : padTo model c = f.fill x)
    (own : x.isGlobalAllowance = false) : c.positional[f.place]? = some x ∨
      c.positional[f.place]? = none ∧ ∃ type, x = pass type := by
  have here := getElem?_fill_place f own
  rw [← fills] at here
  cases found : c.positional[f.place]? with
  | none =>
    obtain ⟨m, -, made⟩ := exists_getElem?_of_padTo here found
    exact .inr ⟨rfl, m.slotType, made⟩
  | some a => exact .inl ((getElem?_padTo found).symm.trans here)

theorem positional_prune_isPrefix (c : Condition) : c.prune.positional <+: c.positional := by
  by_cases open_ : c.operator = .matches ∧ c.isOpenEnded
  · rw [positional_prune open_.1 open_.2]
    exact dropFreeTail_isPrefix c.retained c.positional
  · exact ⟨[], by rw [prune_of_not open_, List.append_nil]⟩

theorem getElem?_of_prune (found : c.prune.positional[n]? = some a) :
    c.positional[n]? = some a := by
  obtain ⟨tail, eq⟩ := positional_prune_isPrefix c
  rw [← eq]
  exact List.getElem?_append_left (List.getElem?_eq_some_iff.mp found).1 ▸ found

/-- Nothing but free components is pruned. -/
theorem getElem?_prune (found : c.positional[n]? = some a) (bound : ¬ a.isPass) :
    c.prune.positional[n]? = some a := by
  by_cases open_ : c.operator = .matches ∧ c.isOpenEnded
  · obtain ⟨tail, eq, free⟩ := exists_dropFreeTail_append c.retained c.positional
    rw [positional_prune open_.1 open_.2]
    rw [eq, List.getElem?_append] at found
    split at found
    · exact found
    · exact absurd (free a (List.mem_of_getElem? found)) bound
  · rwa [prune_of_not open_]

end Places

/-! ### The places of matches that were padded -/

namespace OneMatch

variable {cs ds us ws : List Condition} {f g : Frame} {c u : Condition}

/-- A match has its value in the place, or a free leaf is made up there. -/
theorem exists_value (h : OneMatch cs f us) (mem : c ∈ cs) : ∃ u ∈ us,
    c.positional[f.place]? = some u ∨
      c.positional[f.place]? = none ∧ ∃ type, u = pass type := by
  obtain ⟨m, -, -, fills, -⟩ := h.exists_model (List.ne_nil_of_mem mem)
  obtain ⟨u, memU, eq⟩ := fills c mem
  exact ⟨u, memU, getElem?_place_of_padTo eq (h.own u memU)⟩

/-- Every value is that of one of the matches. -/
theorem exists_of_value (h : OneMatch cs f us) (memU : u ∈ us) : ∃ c ∈ cs,
    c.positional[f.place]? = some u ∨
      c.positional[f.place]? = none ∧ ∃ type, u = pass type := by
  have some : cs ≠ [] := by
    rintro rfl
    exact absurd h.length_eq (by simp [List.ne_nil_of_mem memU])
  obtain ⟨m, -, -, -, onto⟩ := h.exists_model some
  obtain ⟨c, mem, eq⟩ := onto u memU
  exact ⟨c, mem, getElem?_place_of_padTo eq (h.own u memU)⟩

theorem mem_values (h : OneMatch cs f us) (mem : c ∈ cs)
    (found : c.positional[f.place]? = some u) : u ∈ us := by
  obtain ⟨w, memW, own | ⟨none, -⟩⟩ := h.exists_value mem
  · exact Option.some.inj (found.symm.trans own) ▸ memW
  · exact nomatch none.symm.trans found

/-- In another place, all matches have what is not free around a value. -/
theorem getElem?_other (h : OneMatch cs f us) (mem : c ∈ cs) {x a : Condition} {n : Nat}
    (own : x.isGlobalAllowance = false) (other : n ≠ f.place)
    (found : (f.fill x).positional[n]? = some a) (bound : ¬ a.isPass) :
    c.positional[n]? = some a := by
  obtain ⟨m, -, -, fills, -⟩ := h.exists_model (List.ne_nil_of_mem mem)
  obtain ⟨u, memU, eq⟩ := fills c mem
  have padded : (padTo m.positional c).positional[n]? = some a := by
    rw [eq, getElem?_fill_other f (h.own u memU) own other, found]
  exact getElem?_of_padTo padded bound

/-- **Some of the matches differ where all of them do.** -/
theorem place_eq (h : OneMatch cs f us) (h' : OneMatch ds g ws) (sub : cs ⊆ ds)
    (many : 2 ≤ cs.length) : f.place = g.place := by
  by_contra other
  obtain ⟨m, memM, -, fills, onto⟩ :=
    h.exists_model (List.ne_nil_of_length_pos (Nat.lt_of_lt_of_le Nat.two_pos many))
  obtain ⟨n, -, -, fills', -⟩ := h'.exists_model (List.ne_nil_of_mem (sub memM))
  -- the model of the first matches has its value itself
  obtain ⟨u, memU, eq⟩ := fills m memM
  rw [padTo_of_le (Nat.le_refl _)] at eq
  have own : m.positional[f.place]? = some u := eq ▸ getElem?_fill_place f (h.own u memU)
  have common {c : Condition} (mem : c ∈ cs) :
      (padTo n.positional c).positional[f.place]? = some u := by
    obtain ⟨w, memW, eqW⟩ := fills' c (sub mem)
    obtain ⟨w', memW', eqW'⟩ := fills' m (sub memM)
    rw [eqW, getElem?_fill_other g (h'.own w memW) (h'.own w' memW') other, ← eqW']
    exact getElem?_padTo own
  have all : ∀ v ∈ us, v = u := by
    intro v memV
    obtain ⟨c, memC, eqC⟩ := onto v memV
    have here := getElem?_fill_place f (h.own v memV)
    rw [← eqC] at here
    cases ownC : c.positional[f.place]? with
    | some a =>
      have first := (getElem?_padTo ownC).symm.trans here
      have second := (getElem?_padTo ownC).symm.trans (common memC)
      exact Option.some.inj (first.symm.trans second)
    | none =>
      -- what is made up in its place is the free leaf that the others have there
      obtain ⟨e, found, rfl⟩ := exists_getElem?_of_padTo here ownC
      obtain ⟨e', -, made⟩ := exists_getElem?_of_padTo (common memC) ownC
      obtain rfl : u = e := Option.some.inj (own.symm.trans found)
      rw [made, slotType_of_leaf rfl]
      rfl
  obtain ⟨v, memV, differ⟩ := exists_mem_ne h.different (h.length_eq ▸ many) u
  exact differ (all v memV)

end OneMatch

end Condition

end CallGuard
