import CallGuard.Proofs.Aligned
import CallGuard.Proofs.Alternatives
import CallGuard.Proofs.Inverse
import CallGuard.Proofs.Levels

/-!
# Which alternatives can be taken out again

Merging pads every alternative to the widest one, static tuples and calls alike, and conditions that
are shared may absorb what the other conditions become. Subtraction pads open-ended matches only and
looks for one place in which a fragment differs. So not every alternative that was merged can be
subtracted again: `Separable` says which can, along the steps in which alternatives are merged, and
`subtract_merged_iff` that these are all.
-/

namespace CallGuard

namespace Condition

/-! ### Alternations -/

section Alternation

variable {c x : Condition}

/-- Nothing is left of a condition that is no alternation only if that was subtracted. -/
theorem id_eq_of_difference_eq_empty (wf : WellFormed c) (wfX : WellFormed x)
    (other : c.operator ≠ .or) (nothing : difference c x = .empty) : c.id = x.id := by
  by_contra ids
  rw [difference_eq wf wfX, subtractAt, if_neg ids, if_neg other] at nothing
  split at nothing
  · exact Meeting.replaced_ne_empty _ _ nothing
  · cases nothing

/-- Something is left of an alternation when something else is subtracted that can be subtracted
from one of the branches. -/
theorem difference_or_cases (normal : Normal c) (wfX : WellFormed x) (or : c.operator = .or)
    (other : x.operator ≠ .or) (free : CollisionFree (comparedToSubtract c x)) :
    (∀ d ∈ c.children, difference d x = .unchanged) ∧ difference c x = .unchanged ∨
      (∃ d ∈ c.children, difference d x ≠ .unchanged) ∧ ∃ r, difference c x = .remainder r := by
  have ids : c.id ≠ x.id := fun same =>
    other (free.eq_of_id normal.wellFormed wfX same ▸ or)
  rw [difference_eq normal.wellFormed wfX, subtractAt, if_neg ids, if_pos or, if_neg other]
  refine (collected_cases c fun d => difference d x).imp (fun all => all) ?_
  rintro ⟨changed, kept, eq, keeps⟩
  refine ⟨changed, ?_⟩
  rw [eq]
  refine exists_remaining c fun none => ?_
  -- all branches would be the fragment
  have each : ∀ d ∈ c.children, d.id = x.id := by
    intro d mem
    refine id_eq_of_difference_eq_empty (normal.wellFormed.children d mem) wfX
      (or ▸ normal.tidy.flat (by rw [or]; rfl) d mem) ?_
    cases left : difference d x with
    | unchanged => exact absurd ((keeps d).mpr (.inl ⟨mem, left⟩)) (by simp [none])
    | empty => rfl
    | remainder r => exact absurd ((keeps r).mpr (.inr ⟨d, mem, left⟩)) (by simp [none])
  have many := normal.tidy.many (by rw [or]; rfl)
  have apart := normal.tidy.distinct (by rw [or]; rfl)
  rw [childIds, List.eq_replicate_iff.mpr ⟨List.length_map _, List.forall_mem_map.mpr each⟩,
    List.nodup_replicate] at apart
  omega

/-- Nothing is left of a condition in normal form only if that was subtracted, unless that is an
alternation. -/
theorem eq_of_difference_eq_empty (normal : Normal c) (wfX : WellFormed x)
    (other : x.operator ≠ .or) (free : CollisionFree (comparedToSubtract c x))
    (nothing : difference c x = .empty) : c = x := by
  by_cases or : c.operator = .or
  · rcases difference_or_cases normal wfX or other free with ⟨-, left⟩ | ⟨-, r, left⟩
    all_goals exact nomatch left.symm.trans nothing
  · exact free.eq_of_id normal.wellFormed wfX
      (id_eq_of_difference_eq_empty normal.wellFormed wfX or nothing)

/-- From an alternation another of its branches is subtracted if it lacks one. -/
theorem difference_or_or_iff (wf : WellFormed c) (wfX : WellFormed x) (or : c.operator = .or)
    (orX : x.operator = .or) (sub : x.children ⊆ c.children)
    (free : CollisionFree (comparedToSubtract c x)) :
    (∃ r, difference c x = .remainder r) ↔ ∃ d ∈ c.children, d ∉ x.children := by
  rw [difference_eq wf wfX, subtractAt]
  by_cases ids : c.id = x.id
  · rw [if_pos ids, free.eq_of_id wf wfX ids]
    refine iff_of_false ?_ ?_
    · rintro ⟨r, left⟩
      cases left
    · rintro ⟨d, mem, lacks⟩
      exact lacks mem
  rw [if_neg ids, if_pos or, if_pos orX]
  have compared := free.ors wf wfX ids or orX
  have all : x.childIds.all c.childIds.contains :=
    List.all_eq_true.mpr (List.forall_mem_map.mpr fun d mem =>
      List.contains_iff_mem.mpr (List.mem_map_of_mem (sub mem)))
  have kept (d : Condition) : d ∈ c.children.filter (fun d => !x.childIds.contains d.id) ↔
      d ∈ c.children ∧ d ∉ x.children := by
    rw [List.mem_filter]
    refine and_congr_right fun mem => ?_
    have found : x.childIds.contains d.id ↔ d ∈ x.children := by
      rw [List.contains_iff_mem]
      exact ⟨compared.mem_of_map_id (by simp [mem]) fun e memE => by simp [memE],
        List.mem_map_of_mem⟩
    simp only [Bool.not_eq_true', ← Bool.not_eq_true, found]
  unfold subtractBranches
  dsimp only
  rw [if_pos all]
  constructor
  · rintro ⟨r, left⟩
    obtain ⟨d, mem⟩ := List.exists_mem_of_ne_nil _ (remaining_eq_remainder left).1
    exact ⟨d, (kept d).mp mem⟩
  · rintro ⟨d, lacks⟩
    exact exists_remaining c (List.ne_nil_of_mem ((kept d).mpr lacks))

end Alternation

/-! ### Conjunctions -/

/-- **From a conjunction another of the same conditions is subtracted** by subtracting one value
from the other. -/
theorem Sharing.difference_iff {type : ParamType} {shared : List Condition} {f g : Frame}
    {x v : Condition} (hf : Sharing type shared f) (hg : Sharing type shared g)
    (normal : Normal (f.fill x)) (normalV : Normal (g.fill v))
    (free : CollisionFree (comparedToSubtract (f.fill x) (g.fill v))) :
    CollisionFree (comparedToSubtract x v) ∧
      ((∃ r, difference (f.fill x) (g.fill v) = .remainder r) ↔
        ∃ r, difference x v = .remainder r) := by
  by_cases same : x = v
  · subst same
    have wfX := normal.wellFormed.of_fill
    refine ⟨free_comparedToSubtract_self wfX, ?_⟩
    rw [(hf.fill_eq normal).trans (hg.fill_eq normalV).symm, difference_self normalV.wellFormed,
      difference_self wfX]
  · obtain ⟨ids, -, found⟩ := hf.meeting?_fill hg normal.wellFormed normalV.wellFormed
      (hf.not_mem normal) (hg.not_mem normalV) same free
    refine ⟨free.met normal.wellFormed normalV.wellFormed ids (hf.operator_ne_or x) found, ?_⟩
    rw [difference_of_meeting? normal.wellFormed normalV.wellFormed ids (hf.operator_ne_or x) found]
    exact Meeting.replaced_eq_remainder_iff _ _

/-- From a conjunction none that has all its conditions is subtracted. -/
theorem not_remainder_of_subset {c x r : Condition} (wf : WellFormed c) (wfX : WellFormed x)
    (op : c.operator = .and) (sub : c.children ⊆ x.children) : difference c x ≠ .remainder r := by
  rw [difference_eq wf wfX, subtractAt]
  split
  · intro left
    cases left
  rw [if_neg (by rw [op]; decide)]
  split
  swap
  · intro left
    cases left
  rename_i m found
  cases meets_of_meeting? wf wfX found with
  | ands whole _ _ new =>
    have own := sub (whole ▸ Frame.mem_fill_children.mpr (.inl rfl))
    exact absurd (List.mem_map_of_mem own) new.1
  | @padded model f g own part faced whole other operator =>
    rw [← padTo_operator model c, whole, Frame.fill_operator, operator.1] at op
    cases op

/-! ### What alternatives become -/

section Merged

variable {vs us shared : List Condition} {f : Frame} {type : ParamType}
  {parts : List (Frame × Condition)}

theorem OneMatch.wellFormed_fill (h : OneMatch (alternatives vs) f us) (m : Mergeable vs) :
    WellFormed (f.fill (merged us)) := by
  obtain ⟨-, wf, -, -⟩ := m.merged_of_factor? (h.factor?_eq m)
  exact wf.refill (h.values m).1.normal_merged.wellFormed

/-- Conjunctions become one around what their values become. -/
theorem OneAnd.exists_sharing_merged (h : OneAnd (alternatives vs) type shared parts)
    (m : Mergeable vs) (new : merged (parts.map Prod.snd) ∉ shared) :
    ∃ g : Frame, g.fill (merged (parts.map Prod.snd)) = merged vs ∧ Sharing type shared g := by
  rw [h.merged_eq m, rejoined_of_not_mem new]
  exact exists_sharing rfl rfl (sorted_perm _)

/-- That a condition is one of the alternatives, or a free leaf where one of them is free. -/
inductive Among (vs : List Condition) (x : Condition) : Prop where
  /-- An alternative. -/
  | own (mem : x ∈ vs)
  /-- A free leaf, as padding makes it up. -/
  | free (type : ParamType) (eq : x = pass type) (some : ∃ v ∈ vs, v.isPass)

/-- A match among the alternatives is padded to the match around a value, or around a free leaf
where one of the values is free. -/
theorem OneMatch.exists_fill (h : OneMatch (alternatives vs) f us) (m : Mergeable vs)
    {v : Condition} (mem : v ∈ alternatives vs) :
    ∃ u, padTo (f.fill (merged us)).positional v = f.fill u ∧ u.isGlobalAllowance = false ∧
      Among us u := by
  obtain ⟨model, -, widest, fills, -⟩ := h.exists_model (List.ne_nil_of_mem mem)
  obtain ⟨u, memU, eq⟩ := fills v mem
  obtain ⟨w, padded, own, kind⟩ := exists_padTo_fill eq (widest v mem) (h.own u memU)
    (h.values m).1.isGlobalAllowance_eq_false
  refine ⟨w, padded, own, ?_⟩
  rcases kind with rfl | ⟨made, free⟩
  · exact .own memU
  · exact .free _ made ⟨u, memU, by rw [free]; rfl⟩

end Merged

/-! ### Alternatives that can be taken out -/

/-- That what alternatives become loses one of them, or a branch of one, when it is subtracted. -/
inductive Separable : List Condition → Condition → Prop where
  /-- A branch that stands side by side with the others. -/
  | branch {vs : List Condition} {v : Condition} (apart : factor? (alternatives vs) = none)
      (mem : v ∈ alternatives vs) : Separable vs v
  /-- An alternation of branches that stand side by side with another one. -/
  | branches {vs : List Condition} {v : Condition} (apart : factor? (alternatives vs) = none)
      (mem : v ∈ vs) (or : v.operator = .or) (more : ∃ c ∈ alternatives vs, c ∉ v.children) :
      Separable vs v
  /-- A match that is aligned with what all of them become, around a value that can be taken out of
  what the values become. -/
  | component {vs us : List Condition} {f : Frame} {v u : Condition}
      (split : OneMatch (alternatives vs) f us) (mem : v ∈ alternatives vs)
      (aligned : Aligned (merged vs) v) (fills : padTo (f.fill (merged us)).positional v = f.fill u)
      (value : Separable us u) : Separable vs v
  /-- A conjunction around a value that can be taken out of what the values become, if this is not
  one of the shared conditions. -/
  | condition {vs shared : List Condition} {type : ParamType} {parts : List (Frame × Condition)}
      {p : Frame × Condition} (split : OneAnd (alternatives vs) type shared parts)
      (mem : p ∈ parts) (new : merged (parts.map Prod.snd) ∉ shared)
      (value : Separable (parts.map Prod.snd) p.2) : Separable vs (filled p)

/-- What is separable can be subtracted. -/
theorem Separable.exists_remainder {vs : List Condition} {x : Condition} (sep : Separable vs x)
    (h : Mergeable vs) (free : CollisionFree (comparedToSubtract (merged vs) x)) :
    ∃ r, difference (merged vs) x = .remainder r := by
  induction sep with
  | @branch vs v apart mem =>
    obtain ⟨normal, other⟩ := h.normal_alternative mem
    obtain ⟨or, children⟩ := h.merged_cases_of_apart apart
    rcases difference_or_cases h.normal_merged normal.wellFormed or other free with
      ⟨none, -⟩ | ⟨-, left⟩
    · have here := none v ((children v).mpr mem)
      rw [difference_self normal.wellFormed] at here
      cases here
    · exact left
  | @branches vs v apart mem orV more =>
    obtain ⟨or, children⟩ := h.merged_cases_of_apart apart
    have sub : v.children ⊆ (merged vs).children := fun d memD =>
      (children d).mpr (h.children_subset_alternatives mem orV memD)
    obtain ⟨c, memC, lacks⟩ := more
    exact (difference_or_or_iff h.normal_merged.wellFormed (h.normal v mem).wellFormed or orV sub
      free).mpr ⟨c, (children c).mpr memC, lacks⟩
  | @component vs us f v u split mem aligned fills value ih =>
    obtain ⟨normal, -⟩ := h.normal_alternative mem
    have values := (split.values h).1
    obtain ⟨u', pads, own, -⟩ := split.exists_fill h mem
    obtain rfl : u = u' := f.fill_injective (fills.symm.trans pads)
    rw [split.merged_eq h] at aligned free ⊢
    obtain ⟨freeU, iff⟩ := aligned.difference_iff split.operator (split.wellFormed_fill h) normal
      values.isGlobalAllowance_eq_false values.not_isPass own fills free
    exact iff.mpr (ih values freeU)
  | @condition vs shared type parts p split mem new value ih =>
    obtain ⟨g, whole, sharing⟩ := split.exists_sharing_merged h new
    rw [← whole] at free ⊢
    obtain ⟨freeV, iff⟩ := sharing.difference_iff (split.sharing p mem) (whole ▸ h.normal_merged)
      (h.normal_alternative (split.mem_filled mem)).1 free
    exact iff.mpr (ih (split.values h).1 freeV)

/-! ### What cannot be taken out -/

section Remainder

variable {vs us shared : List Condition} {f : Frame} {type : ParamType}
  {parts : List (Frame × Condition)} {x : Condition}

theorem Among.wellFormed (among : Among vs x) (h : Mergeable vs) : WellFormed x := by
  rcases among with mem | ⟨type, rfl, -⟩
  · exact (h.normal x mem).wellFormed
  · exact wellFormed_pass type

/-- Alternatives without a hinge lose only alternatives, or several of their branches. -/
theorem separable_of_apart (h : Mergeable vs) (apart : factor? (alternatives vs) = none)
    (among : Among vs x) (free : CollisionFree (comparedToSubtract (merged vs) x))
    (left : ∃ r, difference (merged vs) x = .remainder r) : Separable vs x := by
  obtain ⟨or, children⟩ := h.merged_cases_of_apart apart
  have wfM := h.normal_merged.wellFormed
  have wfX := among.wellFormed h
  by_cases orX : x.operator = .or
  · rcases among with mem | ⟨type, rfl, -⟩
    swap
    · cases orX
    have sub : x.children ⊆ (merged vs).children := fun d memD =>
      (children d).mpr (h.children_subset_alternatives mem orX memD)
    obtain ⟨c, memC, lacks⟩ := (difference_or_or_iff wfM wfX or orX sub free).mp left
    exact .branches apart mem orX ⟨c, (children c).mp memC, lacks⟩
  refine .branch apart ?_
  rcases among with mem | ⟨type, rfl, -⟩
  · exact h.mem_alternatives_self mem orX
  -- nothing but itself is lost to a free leaf
  rcases difference_or_cases h.normal_merged wfX or orX free with
    ⟨-, none⟩ | ⟨⟨d, memD, changed⟩, -⟩
  · obtain ⟨r, rest⟩ := left
    exact nomatch none.symm.trans rest
  obtain ⟨normal, other⟩ := h.normal_alternative ((children d).mp memD)
  have ids : d.id = (pass type).id := by
    by_contra ids
    rw [difference_eq normal.wellFormed wfX, subtractAt, if_neg ids, if_neg other,
      meeting?_pass] at changed
    exact changed rfl
  have idsM : (merged vs).id ≠ (pass type).id := fun same =>
    orX (free.eq_of_id wfM wfX same ▸ or)
  rw [← (free.alternative wfM wfX idsM or orX memD).eq_of_id normal.wellFormed wfX ids]
  exact (children d).mp memD

/-- If something is left of what is no alternation, what was subtracted is of its operator. -/
theorem operator_eq_of_difference {c r : Condition} (wf : WellFormed c) (wfX : WellFormed x)
    (other : c.operator ≠ .or) (left : difference c x = .remainder r) :
    x.operator = c.operator := by
  rw [difference_eq wf wfX, subtractAt, if_neg other] at left
  split at left
  · cases left
  split at left
  · exact (meets_of_meeting? wf wfX ‹_›).operator.2
  · cases left

/-- An alternative with children that is no alternation is compared itself. -/
theorem Among.mem_alternatives (among : Among vs x) (h : Mergeable vs)
    (needs : x.operator.requiresChildren) (other : x.operator ≠ .or) : x ∈ alternatives vs := by
  rcases among with mem | ⟨type, rfl, -⟩
  · exact h.mem_alternatives_self mem other
  · cases needs

/-- From a match around what values become only matches are subtracted whose values can be
subtracted from it. -/
theorem OneMatch.separable (split : OneMatch (alternatives vs) f us) (h : Mergeable vs)
    (among : Among vs x) (free : CollisionFree (comparedToSubtract (merged vs) x))
    (left : ∃ r, difference (merged vs) x = .remainder r)
    (below : ∀ u, Among us u → CollisionFree (comparedToSubtract (merged us) u) →
      (∃ r, difference (merged us) u = .remainder r) → Separable us u) : Separable vs x := by
  have op := split.merged_operator h
  have wfM := h.normal_merged.wellFormed
  have wfX := among.wellFormed h
  obtain ⟨r, rest⟩ := left
  have opX : x.operator = .matches :=
    (operator_eq_of_difference wfM wfX (by rw [op]; exact nofun) rest).trans op
  have mem := among.mem_alternatives h (by rw [opX]; rfl) (by rw [opX]; exact nofun)
  have values := (split.values h).1
  have ownZ := values.isGlobalAllowance_eq_false
  obtain ⟨u, fills, own, amongU⟩ := split.exists_fill h mem
  have allowances : (merged vs).allowances = x.allowances := by
    rw [split.merged_eq h, allowances_prune, allowances_fill f ownZ, ← allowances_fill f own,
      ← fills, allowances_padTo]
  have aligned := aligned_of_difference wfM wfX op opX (congrArg List.length allowances) free rest
  refine .component split mem aligned fills ?_
  rw [split.merged_eq h] at aligned free rest
  obtain ⟨freeU, iff⟩ := aligned.difference_iff split.operator (split.wellFormed_fill h)
    (h.normal_alternative mem).1 ownZ values.not_isPass own fills free
  exact below u amongU freeU (iff.mp ⟨r, rest⟩)

/-- Conditions that conjunctions share are not as deep as the alternatives. -/
theorem OneAnd.depth_lt (split : OneAnd (alternatives vs) type shared parts) (h : Mergeable vs)
    {d : Condition} (memD : d ∈ shared) (among : Among vs x) : d.depth < x.depth := by
  have inside {c : Condition} (mem : c ∈ alternatives vs) : d.depth < c.depth := by
    obtain ⟨p, memP, rfl⟩ := split.exists_part mem
    exact depth_lt_of_mem ((split.sharing p memP).mem_children_iff.mpr (.inr memD))
  rcases among with mem | ⟨_, -, v, memV, pass⟩
  · by_cases or : x.operator = .or
    · obtain ⟨c, memC⟩ := List.exists_mem_of_ne_nil _
        ((h.normal x mem).wellFormed.children_ne_nil (by rw [or]; rfl))
      exact (inside (h.children_subset_alternatives mem or memC)).trans (depth_lt_of_mem memC)
    · exact inside (h.mem_alternatives_self mem or)
  · have and := split.operator_eq (h.mem_alternatives_self memV (operator_ne_or_of_isPass pass))
    rw [isPass, and] at pass
    cases pass

/-- From a conjunction around what values become only conjunctions are subtracted whose values can
be subtracted from it, and none if the shared conditions absorb it. -/
theorem OneAnd.separable (split : OneAnd (alternatives vs) type shared parts) (h : Mergeable vs)
    (among : Among vs x) (free : CollisionFree (comparedToSubtract (merged vs) x))
    (left : ∃ r, difference (merged vs) x = .remainder r)
    (below : ∀ u, Among (parts.map Prod.snd) u →
      CollisionFree (comparedToSubtract (merged (parts.map Prod.snd)) u) →
      (∃ r, difference (merged (parts.map Prod.snd)) u = .remainder r) →
      Separable (parts.map Prod.snd) u) : Separable vs x := by
  have wfM := h.normal_merged.wellFormed
  have wfX := among.wellFormed h
  obtain ⟨r, rest⟩ := left
  have part (op : (merged vs).operator = .and) : ∃ p ∈ parts, filled p = x := by
    have opX : x.operator = .and :=
      (operator_eq_of_difference wfM wfX (by rw [op]; exact nofun) rest).trans op
    exact split.exists_part
      (among.mem_alternatives h (by rw [opX]; rfl) (by rw [opX]; exact nofun))
  by_cases absorbed : merged (parts.map Prod.snd) ∈ shared
  · rcases split.merged_cases h absorbed with same | ⟨op, sub⟩
    · have levels := depth_le_of_difference wfM wfX free (by rw [rest]; exact nofun)
      rw [same] at levels
      exact absurd levels (split.depth_lt h absorbed among).not_ge
    · obtain ⟨p, memP, rfl⟩ := part op
      refine absurd rest (not_remainder_of_subset wfM wfX op fun d mem => ?_)
      exact (split.sharing p memP).mem_children_iff.mpr (.inr (sub mem))
  · obtain ⟨p, memP, rfl⟩ := part (by rw [split.merged_eq h, rejoined_of_not_mem absorbed])
    refine .condition split memP absorbed ?_
    obtain ⟨g, whole, sharing⟩ := split.exists_sharing_merged h absorbed
    rw [← whole] at free rest
    obtain ⟨freeV, iff⟩ := sharing.difference_iff (split.sharing p memP) (whole ▸ h.normal_merged)
      (h.normal_alternative (split.mem_filled memP)).1 free
    exact below p.2 (.own (List.mem_map_of_mem memP)) freeV (iff.mp ⟨r, rest⟩)

/-- **Only what is separable** can be subtracted from what alternatives become. -/
theorem separable_of_remainder (h : Mergeable vs) (among : Among vs x)
    (free : CollisionFree (comparedToSubtract (merged vs) x))
    (left : ∃ r, difference (merged vs) x = .remainder r) : Separable vs x := by
  refine Mergeable.induct (motive := fun vs => ∀ x, Among vs x →
    CollisionFree (comparedToSubtract (merged vs) x) →
    (∃ r, difference (merged vs) x = .remainder r) → Separable vs x) ?_ ?_ ?_ h x among free left
  · exact fun vs h apart x among free left => separable_of_apart h apart among free left
  · exact fun vs f us h split _ below x among free left =>
      split.separable h among free left below
  · exact fun vs type shared parts h split _ below x among free left =>
      split.separable h among free left below

end Remainder

/-! ### Merged matches -/

/-- **Which alternatives can be taken out again.** Different matches in normal form are merged
without an error. Subtracting one of them from what they become ends without an error too, and
changes it if and only if the match is all of it or is separable, as long as the runs compare no two
different trees with the same id. -/
theorem subtract_merged_iff {bs : List Condition} (many : 2 ≤ bs.length)
    (wf : ∀ b ∈ bs, WellFormed b) (fixed : ∀ b ∈ bs, normalize true b = pure b)
    (matched : ∀ b ∈ bs, b.operator = .matches) (different : bs.Nodup)
    (free : CollisionFree (compared true (anyOf bs))) :
    ∃ m, normalize true (anyOf bs) = pure m ∧
      ∀ b ∈ bs, CollisionFree (comparedToSubtract m b) →
        ∃ outcome, subtract m b = pure outcome ∧
          (outcome ≠ .unchanged ↔ m = b ∨ Separable bs b) := by
  have wfBs : WellFormed (anyOf bs) :=
    wellFormed_anyOf (List.ne_nil_of_length_pos (by omega)) wf
  have each : Gatherable bs := ⟨List.ne_nil_of_length_pos (by omega), fun b mem =>
    normal_of_fixed (wf b mem) (free.child wfBs mem) (fixed b mem), free⟩
  have h : Mergeable bs := each.mergeable different many
  have normal := h.normal_merged
  refine ⟨merged bs, normalize_eq wfBs, fun b mem freeB => ?_⟩
  refine ⟨difference (merged bs) b, subtract_eq normal.wellFormed (wf b mem), ?_⟩
  constructor
  · intro changed
    cases outcome : difference (merged bs) b with
    | unchanged => exact absurd outcome changed
    | empty =>
      have other : b.operator ≠ .or := by
        rw [matched b mem]
        exact nofun
      exact .inl (eq_of_difference_eq_empty normal (wf b mem) other freeB outcome)
    | remainder r => exact .inr (separable_of_remainder h (.own mem) freeB ⟨r, outcome⟩)
  · rintro (same | sep)
    · rw [same, difference_self (wf b mem)]
      exact nofun
    · obtain ⟨r, left⟩ := sep.exists_remainder h freeB
      rw [left]
      exact nofun

/-! ### Static tuples -/

/-- A tuple of components that are asked for. -/
def tupleOf (components : List Condition) : Condition :=
  ⟨.tuple, .matches, [], components⟩

/-- Two static tuples of different widths. -/
def sampleTuples : List Condition :=
  [tupleOf [byteIs 1, byteIs 2], tupleOf [byteIs 1]]

/-- What the tuples become. -/
def mergedTuples : Condition :=
  tupleOf [byteIs 1, anyOf [byteIs 2, pass .static]]

theorem free_sampleTuples : CollisionFree (compared true (anyOf sampleTuples) ++
    sampleTuples.flatMap (comparedToSubtract mergedTuples)) := by
  have found : replaced? true (assembled true (anyOf sampleTuples)).prepared =
      some mergedTuples := by
    decide +kernel
  rw [compared_eq (by decide +kernel), found, Option.elim_some,
    compared_of_not_isSetLike (by decide +kernel) (by decide)]
  decide +kernel

theorem normal_sampleTuples : ∀ b ∈ sampleTuples, Normal b := by
  intro b mem
  have wf : WellFormed (anyOf sampleTuples) := by decide +kernel
  have free := free_sampleTuples.mono (List.subset_append_left _ _)
  have shape : Everywhere (CanonicalShape true) b := by
    revert b
    decide +kernel
  exact ⟨wf.children b mem,
    everywhere_canonical_of_shape (wf.children b mem) (free.child wf mem) shape⟩

theorem fixed_sampleTuples : ∀ b ∈ sampleTuples, normalize true b = pure b := by
  intro b mem
  have normal := normal_sampleTuples b mem
  rw [normalize_eq normal.wellFormed, normal.normalForm_eq]

theorem normalize_sampleTuples : normalize true (anyOf sampleTuples) = pure mergedTuples := by
  have wf : WellFormed (anyOf sampleTuples) := by decide +kernel
  have each : Gatherable sampleTuples := ⟨by decide, normal_sampleTuples,
    free_sampleTuples.mono (List.subset_append_left _ _)⟩
  have h : Mergeable sampleTuples := each.mergeable (by decide) (by decide)
  have split : OneMatch (alternatives sampleTuples) ⟨.tuple, .matches, [byteIs 1], []⟩
      [byteIs 2, pass .static] :=
    ⟨rfl, nofun, by decide +kernel, by decide, by decide⟩
  have values : merged [byteIs 2, pass .static] = anyOf [byteIs 2, pass .static] := by
    rw [(split.values h).1.merged_of_apart (by decide +kernel),
      show alternatives [byteIs 2, pass .static] = [byteIs 2, pass .static] by decide +kernel,
      sorted_of_pairwise (by decide +kernel)]
  have whole : merged sampleTuples = mergedTuples := by
    rw [split.merged_eq h, values]
    decide +kernel
  rw [normalize_eq wf]
  exact congrArg pure whole

theorem subtract_narrowTuple : subtract mergedTuples (tupleOf [byteIs 1]) = pure .unchanged := by
  rw [subtract_eq (by decide +kernel) (by decide +kernel)]
  exact congrArg pure (by decide +kernel)

/-- The wider of two static tuples can be taken out again, the narrower cannot. -/
theorem subtract_merged_sampleTuples : ∃ m r,
    normalize true (anyOf sampleTuples) = pure m ∧
      subtract m (tupleOf [byteIs 1, byteIs 2]) = pure (.remainder r) ∧
      Separable sampleTuples (tupleOf [byteIs 1, byteIs 2]) ∧
      subtract m (tupleOf [byteIs 1]) = pure .unchanged ∧
      ¬ Separable sampleTuples (tupleOf [byteIs 1]) := by
  obtain ⟨m, run, each⟩ := subtract_merged_iff (by decide)
    (fun b mem => (normal_sampleTuples b mem).wellFormed) fixed_sampleTuples (by decide) (by decide)
    (free_sampleTuples.mono (List.subset_append_left _ _))
  obtain rfl : mergedTuples = m := Run.pure_inj.mp (normalize_sampleTuples.symm.trans run)
  have free : ∀ b ∈ sampleTuples, CollisionFree (comparedToSubtract mergedTuples b) :=
    fun b mem => free_sampleTuples.mono fun d inside =>
      List.mem_append_right _ (List.mem_flatMap.mpr ⟨b, mem, inside⟩)
  have wide : subtract mergedTuples (tupleOf [byteIs 1, byteIs 2]) =
      pure (.remainder (tupleOf [byteIs 1, pass .static])) := by
    rw [subtract_eq (by decide +kernel) (by decide +kernel)]
    exact congrArg pure (by decide +kernel)
  refine ⟨mergedTuples, _, run, wide, ?_, subtract_narrowTuple, ?_⟩
  · obtain ⟨outcome, ends, iff⟩ :=
      each _ (by decide) (free (tupleOf [byteIs 1, byteIs 2]) (by decide))
    obtain rfl := Run.pure_inj.mp (wide.symm.trans ends)
    exact (iff.mp nofun).resolve_left (by decide)
  · obtain ⟨outcome, ends, iff⟩ := each _ (by decide) (free (tupleOf [byteIs 1]) (by decide))
    obtain rfl := Run.pure_inj.mp (subtract_narrowTuple.symm.trans ends)
    exact fun sep => iff.mpr (.inr sep) rfl

/-- A static tuple that was merged with a wider one cannot be taken out again: merging pads it, but
subtraction does not. -/
theorem subtract_keeps_narrow_tuple :
    2 ≤ sampleTuples.length ∧ sampleTuples.Nodup ∧
      (∀ b ∈ sampleTuples, WellFormed b ∧ b.operator = .matches ∧ normalize true b = pure b) ∧
      (∃ d, pushDown (m := Except Error) .ok (anyOf sampleTuples) = .ok (some d)) ∧
      CollisionFree (compared true (anyOf sampleTuples) ++
        comparedToSubtract mergedTuples (tupleOf [byteIs 1])) ∧
      normalize true (anyOf sampleTuples) = pure mergedTuples ∧
      tupleOf [byteIs 1] ∈ sampleTuples ∧
      subtract mergedTuples (tupleOf [byteIs 1]) = pure .unchanged := by
  have matched : ∀ b ∈ sampleTuples, b.operator = .matches := by decide
  refine ⟨by decide, by decide, fun b mem => ⟨(normal_sampleTuples b mem).wellFormed, matched b mem,
    fixed_sampleTuples b mem⟩, ⟨mergedTuples, ?_⟩, ?_, normalize_sampleTuples, by decide,
    subtract_narrowTuple⟩
  · rw [pushDown_ok_eq (by decide +kernel) rfl (by decide)]
    exact congrArg Except.ok (by decide +kernel)
  · refine free_sampleTuples.mono fun d inside => ?_
    rcases List.mem_append.mp inside with run | compared
    · exact List.mem_append_left _ run
    · exact List.mem_append_right _ (List.mem_flatMap.mpr ⟨tupleOf [byteIs 1], by decide, compared⟩)

end Condition

end CallGuard
