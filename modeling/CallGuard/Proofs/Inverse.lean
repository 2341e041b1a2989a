import CallGuard.Proofs.Calls
import CallGuard.Proofs.Conjoined

/-!
# Merging and subtracting

Subtracting one of the branches that were merged leaves what the other branches are merged into,
where the branches have everything in common but a leaf each (`Varies`). The two halves meet at the
frame around the leaves: merging puts the alternation of the leaves into it, subtraction takes a leaf
from this alternation, and what is left of it is the normal form of the alternation of the other
leaves. The frame around that becomes what the other branches become, with one exception: a call
without components was padded to have one in the place, and pruning always leaves a call its first
component.
-/

namespace CallGuard

namespace Condition

/-! ### Conjunctions around leaves -/

section Sharing

variable {type : ParamType} {shared : List Condition}

/-- Conjunctions of shared conditions and one different value each become a conjunction around the
alternation of the values. -/
theorem normalForm_anyOf_of_sharing {first : Frame × Condition} {rest : List (Frame × Condition)}
    (array : type ≠ .array) (sharing : ∀ p ∈ first :: rest, Sharing type shared p.1)
    (normal : ∀ b ∈ (first :: rest).map filled, Normal b) (many : 2 ≤ (first :: rest).length)
    (different : ((first :: rest).map Prod.snd).Nodup)
    (free : CollisionFree (compared true (anyOf ((first :: rest).map filled)))) :
    WellFormed (first.1.fill (anyOf ((first :: rest).map Prod.snd))) ∧
      CollisionFree (compared true (first.1.fill (anyOf ((first :: rest).map Prod.snd)))) ∧
      normalForm true (anyOf ((first :: rest).map filled)) =
        normalForm true (first.1.fill (anyOf ((first :: rest).map Prod.snd))) := by
  have other : ∀ b ∈ (first :: rest).map filled, b.operator ≠ .or :=
    List.forall_mem_map.mpr fun p mem => (sharing p mem).operator_ne_or p.2
  -- conjunctions with the same conditions around the place have the same value
  have branches : ((first :: rest).map filled).Nodup := by
    rw [List.Nodup, List.pairwise_map] at different ⊢
    refine different.imp_of_mem fun {p q} memP memQ differ same => differ ?_
    have perm := ((sharing p memP).children_perm p.2).symm.trans
      (congrArg children same ▸ (sharing q memQ).children_perm q.2)
    have values : [p.2].Perm [q.2] := (List.perm_append_right_iff shared).mp perm
    exact List.singleton_inj.mp (List.perm_singleton.mp values)
  exact normalForm_anyOf_of_factor? normal other branches (by rwa [List.length_map]) free
    (factor?_of_sharing array sharing many normal different)

/-- **Conjunctions of shared conditions and different leaves** become the conjunction of the shared
conditions and the alternation of the leaves. -/
theorem normalForm_anyOf_of_sharing_eq {parts : List (Frame × Condition)} (array : type ≠ .array)
    (sharing : ∀ p ∈ parts, Sharing type shared p.1) (normal : ∀ b ∈ parts.map filled, Normal b)
    (leaf : ∀ v ∈ parts.map Prod.snd, v.children = []) (many : 2 ≤ parts.length)
    (different : (parts.map Prod.snd).Nodup) (new : anyOf (sorted (parts.map Prod.snd)) ∉ shared)
    (free : CollisionFree (compared true (anyOf (parts.map filled)))) :
    LeafValues (parts.map Prod.snd) ∧ normalForm true (anyOf (parts.map filled)) =
      ⟨type, .and, [], sorted (anyOf (sorted (parts.map Prod.snd)) :: shared)⟩ := by
  obtain ⟨first, rest, rfl⟩ := List.exists_cons_of_length_pos (by omega : 0 < parts.length)
  obtain ⟨wf, freeD, eq⟩ := normalForm_anyOf_of_sharing array sharing normal many different free
  have several : 2 ≤ ((first :: rest).map Prod.snd).length := by rwa [List.length_map]
  have wfV : ∀ v ∈ (first :: rest).map Prod.snd, WellFormed v := wf.of_fill.children
  have leaves : LeafValues ((first :: rest).map Prod.snd) := leafValues_of_free wfV leaf different
    several (freeD.child wf (Frame.mem_fill_children.mpr (.inl rfl)))
  have own := sharing first List.mem_cons_self
  have whole : Normal (filled first) := normal _ (List.mem_map_of_mem List.mem_cons_self)
  have below : ∀ d ∈ shared, Normal d := fun d mem =>
    whole.child (own.mem_children_iff.mpr (.inr mem))
  have value := leaves.normalForm_anyOf several
  refine ⟨leaves, ?_⟩
  rw [eq, own.normalForm_fill (own.conjoinable whole) below wf freeD, value,
    rejoined_of_not_mem new]
  · exact everywhere_canonical_normalForm wf.of_fill
      (freeD.child wf (Frame.mem_fill_children.mpr (.inl rfl)))
  · rw [value]
    exact nofun

namespace Sharing

variable {f g : Frame}

/-- Conjunctions of the same conditions and another value each meet at these. -/
theorem meeting?_fill (hf : Sharing type shared f) (hg : Sharing type shared g) {x v : Condition}
    (wf : WellFormed (f.fill x)) (wfV : WellFormed (g.fill v)) (new : x ∉ shared)
    (newV : v ∉ shared) (differ : x ≠ v)
    (free : CollisionFree (comparedToSubtract (f.fill x) (g.fill v))) :
    (f.fill x).id ≠ (g.fill v).id ∧ x.id ≠ v.id ∧
      meeting? (f.fill x) (g.fill v) = some ⟨f.fill x, f.before.length, x, v⟩ := by
  have own : x ∈ (f.fill x).children := hf.mem_children_iff.mpr (.inl rfl)
  have part : v ∈ (g.fill v).children := hg.mem_children_iff.mpr (.inl rfl)
  have absent : x ∉ (g.fill v).children := fun mem =>
    (hg.mem_children_iff.mp mem).elim differ new
  have absentV : v ∉ (f.fill x).children := fun mem =>
    (hf.mem_children_iff.mp mem).elim differ.symm newV
  have op : (f.fill x).operator = .and := hf.operator
  have opV : (g.fill v).operator = .and := hg.operator
  have ids : (f.fill x).id ≠ (g.fill v).id := fun same =>
    absent (free.eq_of_id wf wfV same ▸ own)
  have compared := free.toMeet wf wfV ids (hf.operator_ne_or x)
  simp only [comparedToMeet, op, opV] at compared
  have left : (f.fill x).children ⊆ [f.fill x, g.fill v].flatMap children :=
    fun d mem => List.mem_flatMap.mpr ⟨_, List.mem_cons_self, mem⟩
  have right : (g.fill v).children ⊆ [f.fill x, g.fill v].flatMap children :=
    fun d mem => List.mem_flatMap.mpr ⟨_, List.mem_cons_of_mem _ List.mem_cons_self, mem⟩
  have newIds : x.id ∉ (g.fill v).childIds ∧ v.id ∉ (f.fill x).childIds :=
    ⟨fun mem => absent (compared.mem_of_map_id (left own) right mem),
      fun mem => absentV (compared.mem_of_map_id (right part) left mem)⟩
  refine ⟨ids, fun same => newIds.1 (same ▸ List.mem_map_of_mem part), ?_⟩
  unfold meeting?
  rw [op, opV]
  exact meetingOfAnds?_fill
    ⟨hf.paramType.trans hg.paramType.symm, hf.operator.trans hg.operator.symm⟩
    (hf.others.trans hg.others.symm) newIds

/-- **Subtracting a conjunction** of the same conditions and another value subtracts the value. -/
theorem difference_fill (hf : Sharing type shared f) (hg : Sharing type shared g)
    {x v rest : Condition} (wf : WellFormed (f.fill x)) (wfV : WellFormed (g.fill v))
    (new : x ∉ shared) (newV : v ∉ shared) (differ : x ≠ v)
    (free : CollisionFree (comparedToSubtract (f.fill x) (g.fill v)))
    (left : x.id ≠ v.id → difference x v = .remainder rest) :
    difference (f.fill x) (g.fill v) = .remainder (f.fill rest) := by
  obtain ⟨ids, apart, found⟩ := hf.meeting?_fill hg wf wfV new newV differ free
  exact Condition.difference_fill wf wfV ids (hf.operator_ne_or x) found (left apart)

/-- **Subtracting one of several conjunctions** of shared conditions and different leaves leaves the
conjunction of the shared conditions and what becomes of the alternation of the other leaves. -/
theorem difference_eq (hf : Sharing type shared f) (hg : Sharing type shared g)
    {early late : List Condition} {v : Condition} (some : early ++ late ≠ [])
    (leaves : LeafValues (early ++ v :: late))
    (wf : WellFormed (f.fill (anyOf (sorted (early ++ v :: late))))) (normal : Normal (g.fill v))
    (new : anyOf (sorted (early ++ v :: late)) ∉ shared)
    (free : CollisionFree
      (comparedToSubtract (f.fill (anyOf (sorted (early ++ v :: late)))) (g.fill v))) :
    difference (f.fill (anyOf (sorted (early ++ v :: late)))) (g.fill v) =
      .remainder (f.fill (normalForm true (anyOf (early ++ late)))) := by
  have mem : v ∈ early ++ v :: late := List.mem_append_right _ List.mem_cons_self
  have someS : sorted (early ++ v :: late) ≠ [] :=
    List.ne_nil_of_mem ((sorted_perm _).mem_iff.mpr mem)
  exact hf.difference_fill hg wf normal.wellFormed new (hg.not_mem normal)
    (leaves.anyOf_ne someS mem) free (leaves.difference_anyOf some)

/-- The conjunction around what becomes of the alternation of some leaves is what becomes of the
conjunctions around the leaves. -/
theorem normalForm_fill_rest (h : Sharing type shared f) {parts : List (Frame × Condition)}
    (some : parts ≠ []) (array : type ≠ .array) (sharing : ∀ p ∈ parts, Sharing type shared p.1)
    (normal : ∀ b ∈ parts.map filled, Normal b) (leaves : LeafValues (parts.map Prod.snd))
    (freeEach : ∀ b ∈ parts.map filled, CollisionFree (compared true b))
    (free : CollisionFree (compared true (anyOf (parts.map filled))))
    (wf : WellFormed (f.fill (normalForm true (anyOf (parts.map Prod.snd))))) :
    normalForm true (f.fill (normalForm true (anyOf (parts.map Prod.snd)))) =
      normalForm true (anyOf (parts.map filled)) := by
  have value := leaves.normal_normalForm (by simpa using some)
  by_cases many : 2 ≤ parts.length
  · obtain ⟨first, rest, rfl⟩ := List.exists_cons_of_ne_nil some
    have own := sharing first List.mem_cons_self
    obtain ⟨wfD, freeD, eq⟩ := normalForm_anyOf_of_sharing array sharing normal many
      (nodup_of_nodup_ids leaves.apart) free
    rw [eq]
    exact own.normalForm_fill_congr h wfD wf freeD value.normalForm_eq
  · obtain ⟨p, rfl⟩ := exists_eq_singleton some many
    have own := sharing p (List.mem_singleton_self p)
    have mem : filled p ∈ [p].map filled := List.mem_singleton_self _
    have whole := normal _ mem
    rw [List.map_singleton] at wf leaves ⊢
    rw [leaves.normalForm_anyOf_one] at wf ⊢
    rw [List.map_singleton, whole.normalForm_anyOf (own.operator_ne_or _), ← whole.normalForm_eq]
    exact own.normalForm_fill_congr h whole.wellFormed wf (freeEach _ mem) rfl

end Sharing

end Sharing

/-! ### Branches around leaves -/

/-- Branches with everything in common but one value each, the values in the order of the branches,
and what the branches are written as once: around the alternation of the values. -/
inductive Varies (bs vs : List Condition) : Condition → Prop where
  /-- Calls that padding makes one match around values of one type, none of them an allowance. -/
  | calls (f : Frame) (type : ParamType)
      (scope : f.paramType = .calldata ∨ f.paramType = .abiEncoded)
      (padded : padToMatch bs = .ok (vs.map f.fill)) (types : ∀ v ∈ vs, v.paramType = type)
      (own : ∀ v ∈ vs, v.isGlobalAllowance = false) : Varies bs vs (f.fill (anyOf (sorted vs)))
  /-- Conjunctions of the same conditions, in any order, and one value each. -/
  | conjunctions (type : ParamType) (shared : List Condition) (array : type ≠ .array)
      (parts : List.Forall₂ (fun b v => (b.paramType = type ∧ b.operator = .and) ∧
        b.children.Perm (v :: shared)) bs vs)
      (new : anyOf (sorted vs) ∉ shared) :
      Varies bs vs ⟨type, .and, [], sorted (anyOf (sorted vs) :: shared)⟩

/-- A match without components. -/
def Bare (c : Condition) : Prop :=
  c.operator = .matches ∧ c.positional = []

/-- The widest of some calls is the model of which they are padded. -/
theorem exists_around {f : Frame} {type : ParamType} {bs vs : List Condition} (some : bs ≠ [])
    (normal : ∀ b ∈ bs, Normal b) (leaf : ∀ v ∈ vs, v.children = [])
    (scope : f.paramType = .calldata ∨ f.paramType = .abiEncoded)
    (padded : padToMatch bs = .ok (vs.map f.fill)) (types : ∀ v ∈ vs, v.paramType = type)
    (own : ∀ v ∈ vs, v.isGlobalAllowance = false) : ∃ u ∈ vs, Around f u bs vs := by
  have matched : ∀ b ∈ bs, b.operator = .matches := by
    unfold padToMatch at padded
    split at padded
    · cases padded
    · rename_i none
      simpa using none
  rw [padToMatch_eq (fun b mem => (normal b mem).wellFormed) matched, Except.ok.injEq] at padded
  obtain ⟨m, memM, eq, -⟩ := padded_eq some
  have model : m ∈ vs.map f.fill := by
    rw [← padded, eq]
    exact List.mem_map.mpr ⟨m, memM, padTo_of_le (Nat.le_refl _)⟩
  obtain ⟨u, memU, rfl⟩ := List.mem_map.mp model
  have wholeCall : f.paramType.isWholeCall := by
    rcases scope with scope | scope <;> rw [scope] <;> rfl
  refine ⟨u, memU, ⟨matched _ memM, wholeCall, normal _ memM, own u memU⟩, eq.symm.trans padded,
    fun v mem => ⟨?_, own v mem⟩⟩
  rw [slotType_of_leaf (leaf v mem), slotType_of_leaf (leaf u memU), types v mem, types u memU]

/-- Conjunctions are frames around the values that they do not share. -/
theorem exists_parts {type : ParamType} {shared bs vs : List Condition}
    (wf : ∀ b ∈ bs, WellFormed b) (parts : List.Forall₂ (fun b v =>
      (b.paramType = type ∧ b.operator = .and) ∧ b.children.Perm (v :: shared)) bs vs) :
    ∃ parts : List (Frame × Condition), parts.map filled = bs ∧ parts.map Prod.snd = vs ∧
      ∀ p ∈ parts, Sharing type shared p.1 := by
  induction parts with
  | nil => exact ⟨[], rfl, rfl, nofun⟩
  | @cons b v bs vs here rest ih =>
    obtain ⟨wfB, wfBs⟩ := List.forall_mem_cons.mp wf
    obtain ⟨parts, rfl, rfl, sharing⟩ := ih wfBs
    obtain ⟨⟨rfl, op⟩, perm⟩ := here
    obtain ⟨f, rfl, own⟩ :=
      exists_sharing (operand_eq_nil_of_operator wfB (by rw [op]; rfl)) op perm
    exact ⟨(f, v) :: parts, rfl, rfl, List.forall_mem_cons.mpr ⟨own, sharing⟩⟩

/-! ### Merging and subtracting -/

section Merging

variable {bs vs : List Condition} {m : Condition}

/-- What is left of merged branches without one of them, against what becomes of the others. -/
structure Undone (m b : Condition) (rest : List Condition) (r : Condition) : Prop where
  left : difference m b = .remainder r
  same : (∀ c, rest = [c] → ¬ Bare c) → normalForm true r = normalForm true (anyOf rest)
  bare : ∀ c, rest = [c] → Bare c → ∃ first ∈ m.positional.head?,
    normalForm true r = { c with children := pass first.slotType :: c.children }

theorem Around.exists_undone {f : Frame} {u b : Condition} {before after : List Condition}
    (h : Around f u (before ++ b :: after) vs) (some : before ++ after ≠ [])
    (normal : ∀ c ∈ before ++ b :: after, Normal c) (leaves : LeafValues vs)
    (free : CollisionFree (comparedToSubtract (f.fill (anyOf (sorted vs))) b))
    (freeRest : CollisionFree (compared true (anyOf (before ++ after)))) :
    ∃ r, Undone (f.fill (anyOf (sorted vs))) b (before ++ after) r := by
  have sub : before ++ after ⊆ before ++ b :: after :=
    ((List.sublist_cons_self b after).append_left before).subset
  obtain ⟨early, v, late, rfl, fills, rest⟩ := h.split
  have someV : early ++ late ≠ [] := by
    refine List.ne_nil_of_length_pos ?_
    rw [← rest.length_eq]
    exact List.length_pos_of_ne_nil some
  have others : LeafValues (early ++ late) :=
    leaves.sublist ((List.sublist_cons_self v late).append_left early)
  have wfB := (normal b (List.mem_append_right _ List.mem_cons_self)).wellFormed
  have again : ∀ c ∈ before ++ after, Normal c := fun c mem => normal c (sub mem)
  have left := h.difference_eq someV leaves wfB fills free
  refine ⟨_, left, fun components => ?_, fun c only bare => ?_⟩
  · refine rest.normalForm_fill_rest someV again others freeRest fun c only none => ?_
    have memC : c ∈ before ++ after := only ▸ List.mem_singleton_self c
    exact components c only ⟨(rest.kind memC).2, none⟩
  · rw [only] at rest again
    obtain ⟨w, eq⟩ := List.length_eq_one_iff.mp rest.length_eq.symm
    rw [eq] at rest others ⊢
    have someS : sorted (early ++ v :: late) ≠ [] := fun none =>
      absurd ((sorted_perm (early ++ v :: late)).length_eq) (by simp [none])
    have type := slotType_anyOf someS fun w mem => (h.values w ((sorted_perm _).mem_iff.mp mem)).1
    rw [others.normalForm_anyOf_one]
    exact rest.normalForm_fill_bare (again c (List.mem_singleton_self c)) bare.2 type rfl

theorem Sharing.exists_undone {type : ParamType} {shared : List Condition} {f : Frame}
    (around : Sharing type shared f) {early late : List (Frame × Condition)} {p : Frame × Condition}
    (array : type ≠ .array) (sharing : ∀ q ∈ early ++ p :: late, Sharing type shared q.1)
    (some : early ++ late ≠ []) (normal : ∀ b ∈ (early ++ p :: late).map filled, Normal b)
    (leaves : LeafValues ((early ++ p :: late).map Prod.snd))
    (new : anyOf (sorted ((early ++ p :: late).map Prod.snd)) ∉ shared)
    (wf : WellFormed (f.fill (anyOf (sorted ((early ++ p :: late).map Prod.snd)))))
    (freeEach : ∀ b ∈ (early ++ p :: late).map filled, CollisionFree (compared true b))
    (free : CollisionFree (comparedToSubtract
      (f.fill (anyOf (sorted ((early ++ p :: late).map Prod.snd)))) (filled p)))
    (freeRest : CollisionFree (compared true (anyOf ((early ++ late).map filled)))) :
    ∃ r, Undone (f.fill (anyOf (sorted ((early ++ p :: late).map Prod.snd)))) (filled p)
      ((early ++ late).map filled) r := by
  have sub : early ++ late ⊆ early ++ p :: late :=
    ((List.sublist_cons_self p late).append_left early).subset
  have here : p ∈ early ++ p :: late := List.mem_append_right _ List.mem_cons_self
  have rest : LeafValues ((early ++ late).map Prod.snd) :=
    leaves.sublist (((List.sublist_cons_self p late).append_left early).map Prod.snd)
  have someV : (early ++ late).map Prod.snd ≠ [] := by simpa using some
  have again : ∀ b ∈ (early ++ late).map filled, Normal b := fun b mem =>
    normal b (List.map_subset filled sub mem)
  have left : difference (f.fill (anyOf (sorted ((early ++ p :: late).map Prod.snd)))) (filled p) =
      .remainder (f.fill (normalForm true (anyOf ((early ++ late).map Prod.snd)))) := by
    rw [List.map_append, List.map_cons] at leaves wf new free ⊢
    rw [List.map_append] at someV ⊢
    exact around.difference_eq (sharing p here) someV leaves wf
      (normal _ (List.mem_map_of_mem here)) new free
  refine ⟨_, left, fun _ => ?_, fun c only bare => ?_⟩
  · exact around.normalForm_fill_rest some array (fun q mem => sharing q (sub mem)) again rest
      (fun b mem => freeEach b (List.map_subset filled sub mem)) freeRest
      (wf.refill (rest.normal_normalForm someV).wellFormed)
  · -- a conjunction is no match
    obtain ⟨q, memQ, rfl⟩ := List.mem_map.mp (only ▸ List.mem_singleton_self c)
    have op : (filled q).operator = .and := (sharing q (sub memQ)).operator
    rw [bare.1] at op
    cases op

/-- What branches around leaves become, and what is left of it without one of them. -/
theorem Varies.exists_undone (varies : Varies bs vs m) (many : 2 ≤ bs.length)
    (normal : ∀ b ∈ bs, Normal b) (leaf : ∀ v ∈ vs, v.children = []) (different : vs.Nodup)
    (free : CollisionFree (compared true (anyOf bs))) :
    normalForm true (anyOf bs) = m ∧
      ∀ before b after, bs = before ++ b :: after → CollisionFree (comparedToSubtract m b) →
        CollisionFree (compared true (anyOf (before ++ after))) →
        ∃ r, Undone m b (before ++ after) r := by
  have someOthers {α : Type} {before after : List α} {b : α}
      (several : 2 ≤ (before ++ b :: after).length) : before ++ after ≠ [] := by
    refine List.ne_nil_of_length_pos ?_
    simp only [List.length_append, List.length_cons] at several ⊢
    omega
  cases varies with
  | calls f type scope padded types own =>
    obtain ⟨u, memU, around⟩ :=
      exists_around (List.ne_nil_of_length_pos (by omega)) normal leaf scope padded types own
    obtain ⟨leaves, merged⟩ :=
      around.normalForm_anyOf_eq memU normal leaf different (around.length_eq ▸ many) free
    refine ⟨merged, fun before b after split freeB freeRest => ?_⟩
    subst split
    exact around.exists_undone (someOthers many) normal leaves freeB freeRest
  | conjunctions type shared array own new =>
    obtain ⟨parts, rfl, rfl, sharing⟩ :=
      exists_parts (fun b mem => (normal b mem).wellFormed) own
    rw [List.length_map] at many
    obtain ⟨leaves, merged⟩ :=
      normalForm_anyOf_of_sharing_eq array sharing normal leaf many different new free
    refine ⟨merged, fun before b after split freeB freeRest => ?_⟩
    have wfBs : WellFormed (anyOf (parts.map filled)) :=
      wellFormed_anyOf (by simpa using List.ne_nil_of_length_pos (by omega : 0 < parts.length))
        fun b mem => (normal b mem).wellFormed
    have wf := merged ▸ wfBs.normalForm true
    have freeEach : ∀ b ∈ parts.map filled, CollisionFree (compared true b) := fun b mem =>
      free.child wfBs mem
    obtain ⟨early, rest, rfl, rfl, second⟩ := List.map_eq_append_iff.mp split
    obtain ⟨p, late, rfl, rfl, rfl⟩ := List.map_eq_cons_iff.mp second
    obtain ⟨f, fills, around⟩ :=
      exists_sharing (b := ⟨type, .and, [], sorted _⟩) rfl rfl (sorted_perm (_ :: shared))
    rw [← fills] at wf freeB ⊢
    rw [← List.map_append] at freeRest ⊢
    exact around.exists_undone array sharing (someOthers many) normal leaves new wf freeEach freeB
      freeRest

/-- **Subtracting undoes merging.** Branches in normal form that have everything in common but
different leaves are merged into the common condition around the alternation of the leaves.
Subtracting one of them leaves what is normalized to what the other branches are merged into, as
long as the runs compare no two different trees with the same id. If only a call without components
is left, it comes back with a free component: that of the first type the calls have. -/
theorem subtract_undoes_merging (many : 2 ≤ bs.length) (wf : ∀ b ∈ bs, WellFormed b)
    (fixed : ∀ b ∈ bs, normalize true b = pure b) (leaf : ∀ v ∈ vs, v.isLeaf)
    (different : vs.Nodup) (varies : Varies bs vs m)
    (free : CollisionFree (compared true (anyOf bs))) :
    normalize true (anyOf bs) = pure m ∧
      ∀ before b after, bs = before ++ b :: after → CollisionFree (comparedToSubtract m b) →
        CollisionFree (compared true (anyOf (before ++ after))) →
        ∃ r n, subtract m b = pure (.remainder r) ∧ normalize true r = pure n ∧
          ((∀ c, before ++ after = [c] → ¬ Bare c) →
            normalize true (anyOf (before ++ after)) = pure n) ∧
          ∀ c, before ++ after = [c] → Bare c → ∃ first ∈ m.positional.head?,
            n = { c with children := pass first.slotType :: c.children } := by
  have wfBs : WellFormed (anyOf bs) :=
    wellFormed_anyOf (List.ne_nil_of_length_pos (by omega)) wf
  have normal : ∀ b ∈ bs, Normal b := fun b mem =>
    normal_of_fixed (wf b mem) (free.child wfBs mem) (fixed b mem)
  obtain ⟨merged, undone⟩ := varies.exists_undone many normal
    (fun v mem => List.isEmpty_iff.mp (leaf v mem)) different free
  refine ⟨by rw [normalize_eq wfBs, merged], fun before b after split freeB freeRest => ?_⟩
  obtain ⟨r, left, same, bare⟩ := undone before b after split freeB freeRest
  have wfM : WellFormed m := merged ▸ wfBs.normalForm true
  have wfB : WellFormed b := wf b (split ▸ List.mem_append_right _ List.mem_cons_self)
  have wfR : WellFormed r := by
    have wfLeft := leaves_wellFormed wfM wfB
    rwa [left] at wfLeft
  refine ⟨r, normalForm true r, ?_, normalize_eq wfR, fun components => ?_, bare⟩
  · rw [subtract_eq wfM wfB, left]
  · have some : before ++ after ≠ [] := by
      rintro none
      obtain ⟨rfl, rfl⟩ := List.append_eq_nil_iff.mp none
      rw [split] at many
      simp at many
    have wfRest : WellFormed (anyOf (before ++ after)) := wellFormed_anyOf some fun c mem =>
      wf c (split ▸ (((List.sublist_cons_self b after).append_left before).subset mem))
    rw [normalize_eq wfRest, same components]

end Merging

/-- One of three calls that differ in a component, or lack it, is subtracted. -/
theorem subtract_undoes_merging_calls : ∃ r n,
    subtract (allowedCall [anyOf [byteIs 3, byteIs 2, pass .static]]) (allowedCall [byteIs 2]) =
        pure (.remainder r) ∧ normalize true r = pure n ∧
      normalize true (anyOf [allowedCall [byteIs 3], allowedCall []]) = pure n := by
  have ordered : sorted [byteIs 3, byteIs 2, pass .static] = [byteIs 3, byteIs 2, pass .static] :=
    sorted_of_pairwise (by decide +kernel)
  have varies : Varies [allowedCall [byteIs 3], allowedCall [byteIs 2], allowedCall []]
      [byteIs 3, byteIs 2, pass .static]
      (allowedCall [anyOf (sorted [byteIs 3, byteIs 2, pass .static])]) :=
    .calls ⟨.calldata, .matches, [], (allowedCall []).children⟩ .static (.inl rfl)
      (by decide +kernel) (by decide) (by decide)
  rw [ordered] at varies
  have wf : ∀ b ∈ [allowedCall [byteIs 3], allowedCall [byteIs 2], allowedCall []],
      WellFormed b := by
    decide +kernel
  have free : CollisionFree (compared true
      (anyOf [allowedCall [byteIs 3], allowedCall [byteIs 2], allowedCall []])) := by
    decide +kernel
  have fixed : ∀ b ∈ [allowedCall [byteIs 3], allowedCall [byteIs 2], allowedCall []],
      normalize true b = pure b := by
    intro b mem
    refine normalize_of_shape (wf b mem) (free.child (by decide +kernel) mem) ?_
    revert b
    decide +kernel
  obtain ⟨-, undone⟩ :=
    subtract_undoes_merging (by decide) wf fixed (by decide) (by decide) varies free
  obtain ⟨r, n, left, again, same, -⟩ := undone [allowedCall [byteIs 3]] (allowedCall [byteIs 2])
    [allowedCall []] rfl (by decide +kernel) (by decide +kernel)
  exact ⟨r, n, left, again, same nofun⟩

/-- A call without components does not come back as it was: of two calls, one of which has a
component and the other has none, the second is left with a free component. -/
theorem subtract_leaves_component :
    (∀ b ∈ [allowedCall [byteIs 1], allowedCall []], WellFormed b ∧ normalize true b = pure b) ∧
      Varies [allowedCall [byteIs 1], allowedCall []] [byteIs 1, pass .static]
        (allowedCall [anyOf [byteIs 1, pass .static]]) ∧
      CollisionFree (compared true (anyOf [allowedCall [byteIs 1], allowedCall []]) ++
        comparedToSubtract (allowedCall [anyOf [byteIs 1, pass .static]]) (allowedCall [byteIs 1]) ++
        compared true (allowedCall [pass .static]) ++ compared true (anyOf [allowedCall []])) ∧
      normalize true (anyOf [allowedCall [byteIs 1], allowedCall []]) =
        pure (allowedCall [anyOf [byteIs 1, pass .static]]) ∧
      subtract (allowedCall [anyOf [byteIs 1, pass .static]]) (allowedCall [byteIs 1]) =
        pure (.remainder (allowedCall [pass .static])) ∧
      normalize true (allowedCall [pass .static]) = pure (allowedCall [pass .static]) ∧
      normalize true (anyOf [allowedCall []]) = pure (allowedCall []) ∧
      allowedCall [pass .static] ≠ allowedCall [] := by
  have free : CollisionFree (compared true (anyOf [allowedCall [byteIs 1], allowedCall []]) ++
      comparedToSubtract (allowedCall [anyOf [byteIs 1, pass .static]]) (allowedCall [byteIs 1]) ++
      compared true (allowedCall [pass .static]) ++ compared true (anyOf [allowedCall []])) := by
    decide +kernel
  have freeBs : CollisionFree (compared true (anyOf [allowedCall [byteIs 1], allowedCall []])) :=
    free.mono fun d mem => by simp [mem]
  have freeR : CollisionFree (compared true (allowedCall [pass .static])) :=
    free.mono fun d mem => by simp [mem]
  have wf : WellFormed (anyOf [allowedCall [byteIs 1], allowedCall []]) := by decide +kernel
  have normal : ∀ b ∈ [allowedCall [byteIs 1], allowedCall []], Normal b := by
    intro b mem
    have shape : Everywhere (CanonicalShape true) b := by revert b; decide +kernel
    exact ⟨wf.children b mem,
      everywhere_canonical_of_shape (wf.children b mem) (freeBs.child wf mem) shape⟩
  have ordered : sorted [byteIs 1, pass .static] = [byteIs 1, pass .static] :=
    sorted_of_pairwise (by decide +kernel)
  have varies : Varies [allowedCall [byteIs 1], allowedCall []] [byteIs 1, pass .static]
      (allowedCall [anyOf (sorted [byteIs 1, pass .static])]) :=
    .calls ⟨.calldata, .matches, [], (allowedCall []).children⟩ .static (.inl rfl)
      (by decide +kernel) (by decide) (by decide)
  rw [ordered] at varies
  refine ⟨fun b mem => ⟨(normal b mem).wellFormed, ?_⟩, varies, free, ?_, ?_, ?_, ?_, by decide⟩
  · rw [normalize_eq (normal b mem).wellFormed, (normal b mem).normalForm_eq]
  · rw [normalize_eq wf, (varies.exists_undone (by decide) normal (by decide) (by decide) freeBs).1]
  · have left : difference (allowedCall [anyOf [byteIs 1, pass .static]]) (allowedCall [byteIs 1]) =
        .remainder (allowedCall [pass .static]) := by
      decide +kernel
    rw [subtract_eq (by decide +kernel) (by decide +kernel), left]
  · exact normalize_of_shape (by decide +kernel) freeR (by decide +kernel)
  · have kept : normalForm true (anyOf [allowedCall []]) = allowedCall [] :=
      (normal (allowedCall []) (by simp)).normalForm_anyOf nofun
    rw [normalize_eq (by decide +kernel), kept]

end Condition

end CallGuard
