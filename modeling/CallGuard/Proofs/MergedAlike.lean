import CallGuard.Proofs.Alternatives
import CallGuard.Proofs.CommonWidth
import CallGuard.Proofs.Recompared

/-!
# Lists of branches that are merged alike

Lists of branches are merged into the same tree if they are the same up to order. Beyond that, they
may be matches that padding makes one match around different values, or conjunctions of the same
conditions and different values, and the two lists of values are merged alike in turn.
`MergedAlike` is that relation, and `MergedAlike.merged_eq` says that it is enough.
-/

namespace CallGuard

namespace Condition

/-- Lists of branches that are merged into the same tree. -/
inductive MergedAlike : List Condition → List Condition → Prop where
  /-- The same branches. -/
  | same {cs ds : List Condition} (members : ∀ c, c ∈ cs ↔ c ∈ ds) : MergedAlike cs ds
  /-- Matches that are, once they are padded, one match around values that are alike. Around what
  becomes of the values, the match of the first list and that of the second differ in no more than
  the free components that are pruned. -/
  | framed {cs ds us ws : List Condition} (f g : Frame) (first : OneMatch cs f us)
      (second : OneMatch ds g ws)
      (pruned : (f.fill (merged us)).prune = (g.fill (merged us)).prune)
      (values : MergedAlike (alternatives us) (alternatives ws)) : MergedAlike cs ds
  /-- Conjunctions of the same conditions and values that are alike. -/
  | conjoined {cs ds shared : List Condition} {type : ParamType}
      {ps qs : List (Frame × Condition)} (first : OneAnd cs type shared ps)
      (second : OneAnd ds type shared qs)
      (values : MergedAlike (alternatives (ps.map Prod.snd)) (alternatives (qs.map Prod.snd))) :
      MergedAlike cs ds
  /-- Conjunctions of the same conditions, among them what becomes of either list of values. -/
  | absorbed {cs ds shared : List Condition} {type : ParamType} {ps qs : List (Frame × Condition)}
      (first : OneAnd cs type shared ps) (second : OneAnd ds type shared qs)
      (mem : merged (ps.map Prod.snd) ∈ shared) (mem' : merged (qs.map Prod.snd) ∈ shared) :
      MergedAlike cs ds

/-! ### One alternative or several -/

/-- Alternatives in normal form, groups of which have no type of their own, that can be merged
without mixing up trees. -/
inductive Joinable : List Condition → Prop where
  /-- One alternative that is no alternation. -/
  | one {c : Condition} (normal : Normal c) (untyped : Everywhere Untyped c)
      (free : CollisionFree (compared true c)) (other : c.operator ≠ .or) : Joinable [c]
  /-- Alternatives of which several are left to compare. -/
  | several {vs : List Condition} (h : Mergeable vs) (untyped : ∀ v ∈ vs, Everywhere Untyped v) :
      Joinable vs

/-- An alternation of one tree in normal form is merged into the tree. -/
theorem merged_singleton {u : Condition} (normal : Normal u) (untyped : Everywhere Untyped u) :
    merged [u] = u := by
  have wf : WellFormed (anyOf [u]) :=
    wellFormed_anyOf (by simp) (List.forall_mem_singleton.mpr normal.wellFormed)
  have untypedOne := untyped_anyOf (List.forall_mem_singleton.mpr untyped)
  rw [merged, normalForm_of_only wf untypedOne rfl rfl, normal.normalForm_eq]
  rw [normal.normalForm_eq]
  exact normal.canonical.here.refused

theorem alternatives_singleton_of_ne_or {c : Condition} (other : c.operator ≠ .or) :
    alternatives [c] = [c] := by
  rw [alternatives, List.flatMap_singleton, spliced_of_ne other]
  exact distinct_of_nodup_ids (List.nodup_singleton _)

theorem alternatives_singleton_of_or {c : Condition} (normal : Normal c) (or : c.operator = .or) :
    alternatives [c] = c.children := by
  rw [alternatives, List.flatMap_singleton, spliced_of_eq or]
  exact distinct_of_nodup_ids (normal.tidy.distinct (by rw [or]; rfl))

/-- To merge an alternation in normal form with nothing else, no more is compared than to normalize
it. -/
theorem compared_anyOf_singleton_subset {c : Condition} (normal : Normal c)
    (untyped : Everywhere Untyped c) (or : c.operator = .or) :
    compared true (anyOf [c]) ⊆ compared true c := by
  have wf : WellFormed (anyOf [c]) :=
    wellFormed_anyOf (by simp) (List.forall_mem_singleton.mpr normal.wellFormed)
  have untypedOne := untyped_anyOf (List.forall_mem_singleton.mpr untyped)
  have prepared : (assembled true (anyOf [c])).prepared = c :=
    (prepared_assembled_of_only wf untypedOne rfl rfl).trans normal.normalForm_eq
  have own : assembled true c = c := assembled_eq_self fun d mem => (normal.child mem).normalForm_eq
  have gathers : (assembled true (anyOf [c])).flatten.children = c.children := by
    show (anyOf [normalForm true c]).flatten.children = _
    rw [normal.normalForm_eq, flatten_children_anyOf, List.flatMap_singleton,
      spliced_of_eq or]
  have here : comparedAt true (assembled true (anyOf [c])) ⊆ compared true c := by
    refine List.Subset.trans ?_ (comparedAt_subset normal.wellFormed)
    rw [own, comparedAt_of_tidy normal.tidy, comparedAt, prepared, gathers, or]
    exact List.Subset.refl _
  rw [compared_eq wf, prepared, normal.canonical.here.refused, Option.elim_none, List.append_nil]
  exact List.append_subset.mpr ⟨by simp [anyOf], here⟩

/-- One tree in normal form is merged with nothing else. -/
theorem joinable_singleton {c : Condition} (normal : Normal c) (untyped : Everywhere Untyped c)
    (free : CollisionFree (compared true c)) : Joinable [c] := by
  by_cases or : c.operator = .or
  · refine .several ⟨⟨by simp, List.forall_mem_singleton.mpr normal,
      free.mono (compared_anyOf_singleton_subset normal untyped or)⟩, ?_⟩
      (List.forall_mem_singleton.mpr untyped)
    rw [alternatives_singleton_of_or normal or]
    exact normal.tidy.many (by rw [or]; rfl)
  · exact .one normal untyped free or

namespace Joinable

variable {vs ws : List Condition}

theorem mem_alternatives (h : Joinable vs) {c : Condition} :
    c ∈ alternatives vs ↔ ∃ v ∈ vs, c ∈ spliced .or v := by
  cases h with
  | @one v normal untyped free other =>
    rw [alternatives_singleton_of_ne_or other]
    simp [spliced, other]
  | several h => exact h.mem_alternatives

theorem normal_alternative (h : Joinable vs) {c : Condition} (mem : c ∈ alternatives vs) :
    Normal c ∧ c.operator ≠ .or := by
  cases h with
  | one normal untyped free other =>
    rw [alternatives_singleton_of_ne_or other, List.mem_singleton] at mem
    exact mem ▸ ⟨normal, other⟩
  | several h => exact h.normal_alternative mem

theorem untyped_alternative (h : Joinable vs) {c : Condition} (mem : c ∈ alternatives vs) :
    Everywhere Untyped c := by
  cases h with
  | one normal untyped free other =>
    rw [alternatives_singleton_of_ne_or other, List.mem_singleton] at mem
    exact mem ▸ untyped
  | several h untyped =>
    rcases h.cases_of_mem mem with ⟨memV, -⟩ | ⟨v, memV, -, inside⟩
    · exact untyped c memV
    · exact (untyped v memV).children c inside

theorem normal (h : Joinable vs) : ∀ v ∈ vs, Normal v := by
  cases h with
  | one normal => exact List.forall_mem_singleton.mpr normal
  | several h => exact h.normal

theorem ne_nil (h : Joinable vs) : vs ≠ [] := by
  cases h with
  | one => exact List.cons_ne_nil _ _
  | several h => exact h.some

theorem content_anyOf (h : Joinable vs) : content true (anyOf vs) = vs.flatMap (spliced .or) := by
  rw [← flatten_assembled_children,
    assembled_eq_self fun v mem => (h.normal v mem).normalForm_eq, flatten_children_anyOf]

/-- **The same branches are merged into the same tree.** -/
theorem merged_congr (h : Joinable vs) (h' : Joinable ws)
    (same : ∀ c, c ∈ alternatives vs ↔ c ∈ alternatives ws) : merged vs = merged ws := by
  have several {vs ws : List Condition} (m : Mergeable vs) (h : Joinable vs) (h' : Joinable ws)
      (same : ∀ c, c ∈ alternatives vs ↔ c ∈ alternatives ws) : merged ws = merged vs := by
    have wf' : WellFormed (anyOf ws) :=
      wellFormed_anyOf h'.ne_nil fun w mem => (h'.normal w mem).wellFormed
    refine normalForm_eq_of_content (c := anyOf vs) rfl m.wellFormed wf' (m.free.at m.wellFormed)
      (fun e => m.free.replacement m.wellFormed) fun c => ?_
    show c ∈ content true (anyOf vs) ↔ c ∈ content true (anyOf ws)
    rw [h.content_anyOf, h'.content_anyOf, List.mem_flatMap, List.mem_flatMap,
      ← h.mem_alternatives, ← h'.mem_alternatives]
    exact same c
  cases h with
  | several m untyped => exact (several m (.several m untyped) h' same).symm
  | one normal untyped free other =>
    cases h' with
    | several m untyped' =>
      exact several m (.several m untyped') (.one normal untyped free other) fun c => (same c).symm
    | one normal' untyped' free' other' =>
      simp only [alternatives_singleton_of_ne_or other, alternatives_singleton_of_ne_or other',
        List.mem_singleton] at same
      rw [(same _).mp rfl]

end Joinable

/-! ### Alternatives that were gathered -/

namespace Gatherable

variable {vs : List Condition}

theorem mergeable_or_singleton (h : Gatherable vs) :
    Mergeable vs ∨ ∃ c, alternatives vs = [c] ∧ merged vs = c := by
  rcases h.wellFormed.prepared_cases with ⟨-, c, only, eq⟩ | ⟨many, -⟩
  · rw [gathered_anyOf] at only
    change alternatives vs = [c] at only
    obtain ⟨normal, other⟩ := h.normal_alternative (only ▸ List.mem_singleton_self c)
    rw [← h.assembled_eq] at eq
    refine .inr ⟨c, only, ?_⟩
    rw [merged, normalForm_of_not_replaced? h.wellFormed (eq ▸ replaced?_of_ne_or other true), eq,
      normal.tidy.sort_eq]
  · rw [gathered_anyOf] at many
    exact .inl ⟨h, many rfl⟩

/-- Alternatives that can be gathered are compared and merged as others that can be merged. -/
theorem exists_joinable (h : Gatherable vs) (untyped : ∀ v ∈ vs, Everywhere Untyped v) :
    ∃ us, Joinable us ∧ alternatives us = alternatives vs ∧ merged us = merged vs := by
  rcases h.mergeable_or_singleton with m | ⟨c, only, same⟩
  · exact ⟨vs, .several m untyped, rfl, rfl⟩
  have mem : c ∈ alternatives vs := only ▸ List.mem_singleton_self c
  obtain ⟨normal, other⟩ := h.normal_alternative mem
  have whole : Everywhere Untyped c ∧ CollisionFree (compared true c) := by
    rcases h.cases_of_mem mem with ⟨memV, -⟩ | ⟨v, memV, -, inside⟩
    · exact ⟨untyped c memV, h.free.child h.wellFormed memV⟩
    · exact ⟨(untyped v memV).children c inside,
        (h.free.child h.wellFormed memV).child (h.normal v memV).wellFormed inside⟩
  refine ⟨[c], .one normal whole.1 whole.2 other, ?_, ?_⟩
  · rw [alternatives_singleton_of_ne_or other, only]
  · rw [merged_singleton normal whole.1, same]

end Gatherable

/-! ### Values -/

section Values

variable {vs us shared : List Condition} {f : Frame} {type : ParamType}
  {parts : List (Frame × Condition)}

theorem nodeCount_anyOf_singleton_lt {c d : Condition} (mem : d ∈ c.children) :
    (anyOf [d]).nodeCount < (anyOf [c]).nodeCount := by
  have := nodeCount_lt_of_mem mem
  rw [nodeCount_eq, nodeCount_eq (anyOf [c])]
  simpa [anyOf] using this

/-- The values of matches can be merged in turn, and the matches become the match around what
becomes of the values. -/
theorem OneMatch.joinable_values (split : OneMatch (alternatives vs) f us) (h : Joinable vs) :
    Joinable us ∧ (anyOf us).nodeCount < (anyOf vs).nodeCount ∧
      merged vs = (f.fill (merged us)).prune := by
  cases h with
  | @one c normal untyped free other =>
    rw [alternatives_singleton_of_ne_or other] at split
    have itself : Condition.padded [c] = [c] := padded_eq_self (List.forall_mem_singleton.mpr rfl)
    obtain ⟨u, rfl, fills⟩ := List.map_eq_singleton_iff.mp (split.padded.symm.trans itself)
    have mem : u ∈ c.children := by
      rw [← fills]
      exact Frame.mem_fill_children.mpr (.inl rfl)
    have value := normal.child mem
    have valueUntyped := untyped.children u mem
    refine ⟨joinable_singleton value valueUntyped (free.child normal.wellFormed mem),
      nodeCount_anyOf_singleton_lt mem, ?_⟩
    rw [merged_singleton normal untyped, merged_singleton value valueUntyped, fills,
      normal.tidy.pruned]
  | several m untyped =>
    obtain ⟨values, smaller⟩ := split.values m
    refine ⟨.several values fun u mem => ?_, smaller, split.merged_eq m⟩
    exact split.untyped_value (fun c => (Joinable.several m untyped).untyped_alternative) mem

/-- The values of conjunctions can be merged in turn, and what becomes of them is put in their
place. -/
theorem OneAnd.joinable_values (split : OneAnd (alternatives vs) type shared parts)
    (h : Joinable vs) :
    Joinable (parts.map Prod.snd) ∧
      (anyOf (parts.map Prod.snd)).nodeCount < (anyOf vs).nodeCount ∧
      merged vs = rejoined type shared (merged (parts.map Prod.snd)) := by
  cases h with
  | @one c normal untyped free other =>
    rw [alternatives_singleton_of_ne_or other] at split
    obtain ⟨p, rfl, rfl⟩ := List.map_eq_singleton_iff.mp split.split.symm
    have sharing := split.sharing p List.mem_cons_self
    have mem : p.2 ∈ (filled p).children := Frame.mem_fill_children.mpr (.inl rfl)
    have value := normal.child mem
    have valueUntyped := untyped.children p.2 mem
    have same : merged [p.2] = p.2 := merged_singleton value valueUntyped
    show Joinable [p.2] ∧ _
    refine ⟨joinable_singleton value valueUntyped (free.child normal.wellFormed mem),
      nodeCount_anyOf_singleton_lt mem, ?_⟩
    show merged [filled p] = rejoined type shared (merged [p.2])
    rw [merged_singleton normal untyped, same, rejoined_of_not_mem (sharing.not_mem normal)]
    exact sharing.fill_eq normal
  | several m untyped =>
    obtain ⟨values, smaller⟩ := split.values m
    refine ⟨.several values (List.forall_mem_map.mpr fun p mem => ?_), smaller, ?_⟩
    · exact ((Joinable.several m untyped).untyped_alternative (split.mem_filled mem)).children p.2
        (Frame.mem_fill_children.mpr (.inl rfl))
    · exact split.merged_eq m

end Values

/-- **Lists of branches that are alike are merged into the same tree.** -/
theorem MergedAlike.merged_eq {cs ds : List Condition} (h : MergedAlike cs ds)
    {vs ws : List Condition} (hv : Joinable vs) (hw : Joinable ws) (first : alternatives vs = cs)
    (second : alternatives ws = ds) : merged vs = merged ws := by
  induction h generalizing vs ws with
  | same members =>
    subst first second
    exact hv.merged_congr hw members
  | framed f g left right pruned values ih =>
    subst first second
    obtain ⟨joinable, -, eq⟩ := left.joinable_values hv
    obtain ⟨joinable', -, eq'⟩ := right.joinable_values hw
    rw [eq, eq', pruned, ih joinable joinable' rfl rfl]
  | conjoined left right values ih =>
    subst first second
    obtain ⟨joinable, -, eq⟩ := left.joinable_values hv
    obtain ⟨joinable', -, eq'⟩ := right.joinable_values hw
    rw [eq, eq', ih joinable joinable' rfl rfl]
  | absorbed left right mem mem' =>
    subst first second
    rw [(left.joinable_values hv).2.2, (right.joinable_values hw).2.2]
    exact rejoined_of_mem mem mem'

end Condition

end CallGuard
