import CallGuard.Proofs.Conjoined
import CallGuard.Proofs.Framed

/-!
# What alternatives are merged into

Merging alternatives gathers them, and those of an alternation among them one by one
(`alternatives`). If they have no hinge, they are left side by side (`LeftApart`). If they have one,
they are one match around different values (`OneMatch`) or conjunctions of the same conditions and a
different value each (`OneAnd`), and the values are merged in turn. `Mergeable.induct` is induction
along these steps; it needs no more of the values than of the alternatives, which is that they are
different, in normal form and told apart by their ids.
-/

namespace CallGuard

namespace Condition

/-- What alternatives become when they are merged. -/
def merged (vs : List Condition) : Condition :=
  normalForm true (anyOf vs)

/-- The alternatives that merging compares: those of an alternation stand for it, and none is
repeated. -/
def alternatives (vs : List Condition) : List Condition :=
  distinct (vs.flatMap (spliced .or))

/-- Alternatives in normal form that can be merged without mixing up trees. -/
structure Gatherable (vs : List Condition) : Prop where
  some : vs ≠ []
  normal : ∀ v ∈ vs, Normal v
  free : CollisionFree (compared true (anyOf vs))

/-- Alternatives of which several are left to compare. -/
structure Mergeable (vs : List Condition) : Prop extends Gatherable vs where
  many : 2 ≤ (alternatives vs).length

/-- Alternatives that are left side by side: they are the branches of what they become. -/
structure LeftApart (vs : List Condition) : Prop where
  mem_iff : ∀ c, c ∈ spliced .or (merged vs) ↔ c ∈ alternatives vs

/-- There is something to compare of every alternative. -/
theorem WellFormed.exists_branch {v : Condition} (wf : WellFormed v) :
    ∃ c, c ∈ Condition.spliced .or v :=
  have some : Condition.spliced .or v ≠ [] := (wf.spliced rfl).1
  List.exists_mem_of_ne_nil _ some

theorem nodup_ids_alternatives (vs : List Condition) : ((alternatives vs).map id).Nodup :=
  nodup_ids_distinct _

theorem nodup_alternatives (vs : List Condition) : (alternatives vs).Nodup :=
  nodup_of_nodup_ids (nodup_ids_alternatives vs)

theorem flatten_children_anyOf (vs : List Condition) :
    (anyOf vs).flatten.children = vs.flatMap (spliced .or) := by
  rw [flatten_of_isAssociative rfl]
  rfl

theorem gathered_anyOf (vs : List Condition) : (anyOf vs).gathered = anyOf (alternatives vs) := by
  rw [gathered_of_isSetLike rfl, flatten_children_anyOf]
  rfl

namespace Gatherable

variable {vs : List Condition}

/-! ### The alternatives -/

theorem wellFormed (h : Gatherable vs) : WellFormed (anyOf vs) :=
  wellFormed_anyOf h.some fun v mem => (h.normal v mem).wellFormed

theorem assembled_eq (h : Gatherable vs) : assembled true (anyOf vs) = anyOf vs :=
  assembled_eq_self fun v mem => (h.normal v mem).normalForm_eq

theorem free_spliced (h : Gatherable vs) : CollisionFree (vs.flatMap (spliced .or)) := by
  have gathered := (h.free.at h.wellFormed).group rfl
  rwa [h.assembled_eq, flatten_children_anyOf] at gathered

theorem mem_alternatives (h : Gatherable vs) {c : Condition} :
    c ∈ alternatives vs ↔ ∃ v ∈ vs, c ∈ spliced .or v := by
  rw [alternatives, h.free_spliced.mem_distinct_iff, List.mem_flatMap]

/-- An alternative that is no alternation is compared itself. -/
theorem mem_alternatives_self (h : Gatherable vs) {v : Condition} (mem : v ∈ vs)
    (other : v.operator ≠ .or) : v ∈ alternatives vs :=
  h.mem_alternatives.mpr ⟨v, mem, by rw [spliced_of_ne other]; exact List.mem_singleton_self v⟩

/-- The branches of an alternation are compared in its place. -/
theorem children_subset_alternatives (h : Gatherable vs) {v : Condition} (mem : v ∈ vs)
    (or : v.operator = .or) : v.children ⊆ alternatives vs := fun c memC =>
  h.mem_alternatives.mpr ⟨v, mem, by rwa [spliced_of_eq or]⟩

/-- What is compared is an alternative or a branch of one. -/
theorem cases_of_mem (h : Gatherable vs) {c : Condition} (mem : c ∈ alternatives vs) :
    c ∈ vs ∧ c.operator ≠ .or ∨ ∃ v ∈ vs, v.operator = .or ∧ c ∈ v.children := by
  obtain ⟨v, memV, inside⟩ := h.mem_alternatives.mp mem
  rw [spliced] at inside
  split at inside
  · exact .inr ⟨v, memV, ‹_›, inside⟩
  · rw [List.mem_singleton.mp inside]
    exact .inl ⟨memV, ‹_›⟩

theorem normal_alternative (h : Gatherable vs) {c : Condition} (mem : c ∈ alternatives vs) :
    Normal c ∧ c.operator ≠ .or := by
  rcases h.cases_of_mem mem with ⟨memV, other⟩ | ⟨v, memV, or, inside⟩
  · exact ⟨h.normal c memV, other⟩
  · have normal := h.normal v memV
    exact ⟨normal.child inside, or ▸ normal.tidy.flat (by rw [or]; rfl) c inside⟩

/-- Several different alternatives are several to compare. -/
theorem mergeable (h : Gatherable vs) (different : vs.Nodup) (many : 2 ≤ vs.length) :
    Mergeable vs := by
  refine ⟨h, ?_⟩
  have enough {cs : List Condition} (many : 2 ≤ cs.length) (different : cs.Nodup)
      (sub : cs ⊆ alternatives vs) : 2 ≤ (alternatives vs).length :=
    many.trans (List.subperm_of_subset different sub).length_le
  by_cases flat : ∀ v ∈ vs, v.operator ≠ .or
  · exact enough many different fun v mem => h.mem_alternatives_self mem (flat v mem)
  · push Not at flat
    obtain ⟨v, mem, or⟩ := flat
    have tidy := (h.normal v mem).tidy
    exact enough (tidy.many (by rw [or]; rfl))
      (nodup_of_nodup_ids (tidy.distinct (by rw [or]; rfl)))
      (h.children_subset_alternatives mem or)

end Gatherable

namespace Mergeable

variable {vs : List Condition}

theorem alternatives_ne_nil (h : Mergeable vs) : alternatives vs ≠ [] :=
  List.ne_nil_of_length_pos (Nat.lt_of_lt_of_le Nat.two_pos h.many)

theorem prepared_eq (h : Mergeable vs) :
    (assembled true (anyOf vs)).prepared = anyOf (alternatives vs) := by
  rw [h.assembled_eq, Condition.prepared_eq, gathered_anyOf]
  rcases unwrap_cases (anyOf (alternatives vs)) with ⟨-, d, only, -⟩ | ⟨-, eq⟩
  · have many := h.many
    have single : alternatives vs = [d] := only
    rw [single] at many
    exact absurd many (by simp)
  · exact eq

/-- The ids that are compared to find a hinge tell trees apart. -/
theorem free_branches (h : Mergeable vs) : CollisionFree (comparedBranches (alternatives vs)) := by
  have branches := (h.free.at h.wellFormed).branches rfl (by rw [h.prepared_eq]; rfl)
  rwa [h.prepared_eq] at branches

/-- Alternatives without a hinge are left side by side. -/
theorem merged_of_apart (h : Mergeable vs) (apart : factor? (alternatives vs) = none) :
    merged vs = anyOf (sorted (alternatives vs)) := by
  rw [merged, normalForm_of_not_replaced? h.wellFormed, h.prepared_eq, sort_of_isSetLike rfl]
  · rfl
  · rw [h.prepared_eq, replaced?, if_pos ⟨rfl, rfl⟩]
    exact apart

/-- Alternatives with a hinge become what they factor into. -/
theorem merged_of_factor? (h : Mergeable vs) {d : Condition}
    (found : factor? (alternatives vs) = some d) :
    merged vs = normalForm true d ∧ WellFormed d ∧ CollisionFree (compared true d) ∧
      d.nodeCount < (anyOf vs).nodeCount := by
  have replaced : replaced? true (assembled true (anyOf vs)).prepared = some d := by
    rw [h.prepared_eq, replaced?, if_pos ⟨rfl, rfl⟩]
    exact found
  exact ⟨normalForm_of_replaced? h.wellFormed replaced,
    (h.wellFormed.assembled true).prepared.replaced? replaced,
    h.free.replacement h.wellFormed replaced, nodeCount_replaced?_lt h.wellFormed replaced⟩

end Mergeable

/-! ### Matches around values -/

/-- Matches that padding makes one match around different values, none of them an allowance. -/
structure OneMatch (cs : List Condition) (f : Frame) (us : List Condition) : Prop where
  operator : f.operator = .matches
  array : f.paramType ≠ .array
  padded : padded cs = us.map f.fill
  different : us.Nodup
  own : ∀ u ∈ us, u.isGlobalAllowance = false

namespace OneMatch

variable {vs us : List Condition} {f : Frame}

theorem length_eq {cs : List Condition} (h : OneMatch cs f us) : us.length = cs.length := by
  rw [← length_padded cs, h.padded, List.length_map]

/-- The model of which the matches are padded, and what each of them is padded to. -/
theorem exists_model {cs : List Condition} (h : OneMatch cs f us) (some : cs ≠ []) :
    ∃ m ∈ cs, (∀ c ∈ cs, c.positional.length ≤ m.positional.length) ∧
      (∀ c ∈ cs, ∃ u ∈ us, padTo m.positional c = f.fill u) ∧
      ∀ u ∈ us, ∃ c ∈ cs, padTo m.positional c = f.fill u := by
  obtain ⟨m, mem, eq, widest⟩ := padded_eq some
  have same : cs.map (padTo m.positional) = us.map f.fill := eq.symm.trans h.padded
  refine ⟨m, mem, widest, fun c memC => ?_, fun u memU => ?_⟩
  · have inside : padTo m.positional c ∈ us.map f.fill := same ▸ List.mem_map_of_mem memC
    obtain ⟨u, memU, fills⟩ := List.mem_map.mp inside
    exact ⟨u, memU, fills.symm⟩
  · have inside : f.fill u ∈ cs.map (padTo m.positional) := same ▸ List.mem_map_of_mem memU
    exact List.mem_map.mp inside

/-- All are matches of the type of the frame. -/
theorem kind {cs : List Condition} (h : OneMatch cs f us) {c : Condition} (mem : c ∈ cs) :
    c.paramType = f.paramType ∧ c.operator = .matches := by
  obtain ⟨m, -, -, fills, -⟩ := h.exists_model (List.ne_nil_of_mem mem)
  obtain ⟨u, -, eq⟩ := fills c mem
  rw [← padTo_paramType m.positional c, ← padTo_operator m.positional c, eq]
  exact ⟨rfl, h.operator⟩

theorem commonOperator?_eq {cs : List Condition} (h : OneMatch cs f us) (some : cs ≠ []) :
    commonOperator? cs = Option.some .matches :=
  commonOperator?_eq_some_iff.mpr ⟨some, f.paramType, h.array, fun _ => h.kind⟩

/-- What the frame holds around a value is a child of one of the matches or a free leaf. -/
theorem mem_fill_children {cs : List Condition} (h : OneMatch cs f us) {u : Condition}
    (memU : u ∈ us) {d : Condition} (memD : d ∈ (f.fill u).children) :
    (∃ c ∈ cs, d ∈ c.children) ∨ ∃ type, d = pass type := by
  have some : cs ≠ [] := by
    rintro rfl
    exact absurd h.length_eq (by simp [List.ne_nil_of_mem memU])
  obtain ⟨m, -, -, -, fills⟩ := h.exists_model some
  obtain ⟨c, memC, eq⟩ := fills u memU
  rw [← eq] at memD
  exact (mem_children_padTo memD).imp_left fun own => ⟨c, memC, own⟩

/-- What the matches hold is in normal form, and so is what is around it. -/
theorem normal_child {cs : List Condition} (h : OneMatch cs f us) (normal : ∀ c ∈ cs, Normal c)
    {u : Condition} (memU : u ∈ us) {d : Condition} (memD : d ∈ (f.fill u).children) :
    Normal d := by
  rcases h.mem_fill_children memU memD with ⟨c, memC, own⟩ | ⟨type, rfl⟩
  · exact (normal c memC).child own
  · exact ⟨wellFormed_pass type, everywhere_canonical_of_leaf (wellFormed_pass type) rfl⟩

/-- Groups in the values have no type of their own if groups in the matches have none. -/
theorem untyped_value {cs : List Condition} (h : OneMatch cs f us)
    (untyped : ∀ c ∈ cs, Everywhere Untyped c) {u : Condition} (memU : u ∈ us) :
    Everywhere Untyped u := by
  rcases h.mem_fill_children memU (Frame.mem_fill_children.mpr (.inl rfl)) with
    ⟨c, memC, own⟩ | ⟨type, rfl⟩
  · exact (untyped c memC).children u own
  · exact .mk nofun nofun

theorem factor?_eq (h : OneMatch (alternatives vs) f us) (m : Mergeable vs) :
    factor? (alternatives vs) = some (f.fill (anyOf us)) := by
  have common := h.commonOperator?_eq m.alternatives_ne_nil
  have free := m.free_branches
  refine (factor?_matches_iff (fun c mem => (m.normal_alternative mem).1.wellFormed) common
    free).mpr ⟨f, us, h.padded, h.length_eq ▸ m.many, ?_, h.own, rfl⟩
  rw [comparedBranches_of_matches common, h.padded] at free
  have inside : ∀ u ∈ us, u ∈ alternatives vs ++ (us.map f.fill).flatMap children := fun u mem =>
    List.mem_append_right _ (List.mem_flatMap.mpr
      ⟨f.fill u, List.mem_map_of_mem mem, Frame.mem_fill_children.mpr (.inl rfl)⟩)
  exact h.different.map_on fun u mem w memW => free u (inside u mem) w (inside w memW)

/-- The values can be merged in turn. -/
theorem values (h : OneMatch (alternatives vs) f us) (m : Mergeable vs) :
    Mergeable us ∧ (anyOf us).nodeCount < (anyOf vs).nodeCount := by
  obtain ⟨-, wf, free, smaller⟩ := m.merged_of_factor? (h.factor?_eq m)
  have inside : anyOf us ∈ (f.fill (anyOf us)).children := Frame.mem_fill_children.mpr (.inl rfl)
  have many : 2 ≤ us.length := h.length_eq ▸ m.many
  have values : Gatherable us := by
    refine ⟨List.ne_nil_of_length_pos (by omega), fun u mem => ?_, free.child wf inside⟩
    exact h.normal_child (fun c memC => (m.normal_alternative memC).1) mem
      (Frame.mem_fill_children.mpr (.inl rfl))
  exact ⟨values.mergeable h.different many, (nodeCount_lt_of_mem inside).trans smaller⟩

/-- The alternatives become the match around what the values become. -/
theorem merged_eq (h : OneMatch (alternatives vs) f us) (m : Mergeable vs) :
    merged vs = (f.fill (merged us)).prune := by
  obtain ⟨eq, wf, -, -⟩ := m.merged_of_factor? (h.factor?_eq m)
  obtain ⟨u, memU⟩ := List.exists_mem_of_ne_nil us (h.values m).1.some
  have around : ∀ d ∈ f.others, normalForm true d = d := fun d mem =>
    (h.normal_child (fun c memC => (m.normal_alternative memC).1) memU
      (Frame.mem_fill_children.mpr (.inr mem))).normalForm_eq
  have single : ¬ (f.fill (anyOf us)).operator.isSetLike := by
    rw [Frame.fill_operator, h.operator]
    exact Bool.false_ne_true
  rw [eq, normalForm_of_not_isSetLike wf single, assembled_fill around, merged]

end OneMatch

/-! ### Conjunctions around values -/

/-- Conjunctions of the same conditions and one value each. -/
structure OneAnd (cs : List Condition) (type : ParamType) (shared : List Condition)
    (parts : List (Frame × Condition)) : Prop where
  array : type ≠ .array
  split : cs = parts.map filled
  sharing : ∀ p ∈ parts, Sharing type shared p.1

namespace OneAnd

variable {vs shared : List Condition} {type : ParamType} {parts : List (Frame × Condition)}

theorem mem_filled {cs : List Condition} (h : OneAnd cs type shared parts)
    {p : Frame × Condition} (mem : p ∈ parts) : filled p ∈ cs :=
  h.split ▸ List.mem_map_of_mem mem

theorem exists_part {cs : List Condition} (h : OneAnd cs type shared parts) {c : Condition}
    (mem : c ∈ cs) : ∃ p ∈ parts, filled p = c :=
  List.mem_map.mp (h.split ▸ mem)

theorem operator_eq {cs : List Condition} (h : OneAnd cs type shared parts) {c : Condition}
    (mem : c ∈ cs) : c.operator = .and := by
  obtain ⟨p, memP, rfl⟩ := h.exists_part mem
  exact (h.sharing p memP).operator

/-- Some of the conjunctions share the same conditions. -/
theorem exists_of_subset {cs ds : List Condition} (h : OneAnd ds type shared parts)
    (sub : cs ⊆ ds) : ∃ inner, OneAnd cs type shared inner := by
  have frames : ∀ d ∈ cs, ∃ p : Frame × Condition, filled p = d ∧ Sharing type shared p.1 := by
    intro d mem
    obtain ⟨p, memP, eq⟩ := h.exists_part (sub mem)
    exact ⟨p, eq, h.sharing p memP⟩
  obtain ⟨inner, eq, sharing⟩ := exists_map_eq frames
  exact ⟨inner, h.array, eq.symm, sharing⟩

/-- Different conjunctions have different values. -/
theorem nodup_values {cs : List Condition} (h : OneAnd cs type shared parts)
    (normal : ∀ c ∈ cs, Normal c) (different : cs.Nodup) : (parts.map Prod.snd).Nodup := by
  rw [h.split, List.Nodup, List.pairwise_map] at different
  rw [List.Nodup, List.pairwise_map]
  refine different.imp_of_mem fun {p q} memP memQ differ same => differ ?_
  rw [filled, filled, (h.sharing p memP).fill_eq (normal _ (h.mem_filled memP)),
    (h.sharing q memQ).fill_eq (normal _ (h.mem_filled memQ)), same]

/-- Several of the conjunctions are factored around the shared conditions. -/
theorem factor?_eq_some {cs : List Condition} (h : OneAnd cs type shared parts)
    (normal : ∀ c ∈ cs, Normal c) (different : cs.Nodup) (many : 2 ≤ cs.length)
    (free : CollisionFree (comparedBranches cs)) : ∃ p ∈ parts,
      factor? cs = some (p.1.fill (anyOf (parts.map Prod.snd))) := by
  have values := h.nodup_values normal different
  obtain ⟨array, rfl, sharing⟩ := h
  rw [List.length_map] at many
  obtain ⟨first, rest, rfl⟩ := List.exists_cons_of_length_pos (by omega : 0 < parts.length)
  exact ⟨first, List.mem_cons_self,
    factor?_of_sharing array sharing many normal values free⟩

theorem factor?_eq (h : OneAnd (alternatives vs) type shared parts) (m : Mergeable vs) :
    ∃ p ∈ parts, factor? (alternatives vs) = some (p.1.fill (anyOf (parts.map Prod.snd))) :=
  h.factor?_eq_some (fun _ mem => (m.normal_alternative mem).1)
    (nodup_alternatives vs) m.many m.free_branches

/-- The values can be merged in turn. -/
theorem values (h : OneAnd (alternatives vs) type shared parts) (m : Mergeable vs) :
    Mergeable (parts.map Prod.snd) ∧
      (anyOf (parts.map Prod.snd)).nodeCount < (anyOf vs).nodeCount := by
  have normal : ∀ c ∈ alternatives vs, Normal c := fun c mem => (m.normal_alternative mem).1
  obtain ⟨p, -, found⟩ := h.factor?_eq m
  obtain ⟨-, wf, free, smaller⟩ := m.merged_of_factor? found
  have inside : anyOf (parts.map Prod.snd) ∈ (p.1.fill (anyOf (parts.map Prod.snd))).children :=
    Frame.mem_fill_children.mpr (.inl rfl)
  have many : 2 ≤ (parts.map Prod.snd).length := by
    have many := m.many
    rwa [h.split, List.length_map, ← List.length_map (f := Prod.snd)] at many
  have values : Gatherable (parts.map Prod.snd) := by
    refine ⟨List.ne_nil_of_length_pos (by omega), ?_, free.child wf inside⟩
    exact List.forall_mem_map.mpr fun q mem =>
      (normal _ (h.mem_filled mem)).child (Frame.mem_fill_children.mpr (.inl rfl))
  exact ⟨values.mergeable (h.nodup_values normal (nodup_alternatives vs)) many,
    (nodeCount_lt_of_mem inside).trans smaller⟩

end OneAnd

/-! ### The ways to merge -/

/-- Factored matches are one match around different values. -/
theorem Mergeable.exists_oneMatch {vs : List Condition} (h : Mergeable vs) {d : Condition}
    (common : commonOperator? (alternatives vs) = some .matches)
    (found : factor? (alternatives vs) = some d) :
    ∃ (f : Frame) (us : List Condition), OneMatch (alternatives vs) f us := by
  obtain ⟨f, us, padded, many, apart, own, rfl⟩ :=
    (factor?_matches_iff (fun c mem => (h.normal_alternative mem).1.wellFormed) common
      h.free_branches).mp found
  obtain ⟨some, type, array, all⟩ := commonOperator?_eq_some_iff.mp common
  have kind : f.paramType = type ∧ f.operator = .matches := by
    obtain ⟨m, memM, eq, -⟩ := padded_eq some
    have inside : padTo m.positional m ∈ us.map f.fill :=
      (eq.symm.trans padded) ▸ List.mem_map_of_mem memM
    obtain ⟨u, -, fills⟩ := List.mem_map.mp inside
    rw [padTo_of_le (Nat.le_refl _)] at fills
    exact ⟨(congrArg paramType fills).trans (all m memM).1,
      (congrArg Condition.operator fills).trans (all m memM).2⟩
  exact ⟨f, us, kind.2, kind.1 ▸ array, padded, nodup_of_nodup_ids apart, own⟩

/-- Factored conjunctions are conjunctions of the same conditions and one value each. -/
theorem Mergeable.exists_oneAnd {vs : List Condition} (h : Mergeable vs) {d : Condition}
    (common : commonOperator? (alternatives vs) = some .and)
    (found : factor? (alternatives vs) = some d) :
    ∃ (type : ParamType) (shared : List Condition) (parts : List (Frame × Condition)),
      OneAnd (alternatives vs) type shared parts := by
  have normal : ∀ c ∈ alternatives vs, Normal c := fun c mem => (h.normal_alternative mem).1
  have free := h.free_branches
  rw [comparedBranches_of_and common] at free
  obtain ⟨op, first, rest, common', eq, -, agree, -⟩ :=
    (factor?_eq_some_iff fun c mem => (normal c mem).wellFormed).mp found
  obtain rfl : op = .and := Option.some.inj (common'.symm.trans common)
  rcases agree with ⟨other, -⟩ | ⟨-, agree⟩
  · cases other
  rw [leveled_of_and common] at eq
  obtain ⟨-, type, array, all⟩ := commonOperator?_eq_some_iff.mp common
  rw [eq] at all free normal
  refine ⟨type, first.1.others, first :: rest, array, eq, fun p mem => ?_⟩
  have kind := all (filled p) (List.mem_map_of_mem mem)
  have distinct : ∀ b ∈ (first :: rest).map filled, b.childIds.Nodup := fun b memB =>
    (normal b memB).tidy.distinct (by rw [(all b memB).2]; rfl)
  exact ⟨kind.1, kind.2, agree.others_perm free distinct mem List.mem_cons_self⟩

/-- Alternatives have no hinge, or they are one match or conjunctions around values. -/
theorem Mergeable.cases {vs : List Condition} (h : Mergeable vs) :
    factor? (alternatives vs) = none ∨
      (∃ (f : Frame) (us : List Condition), OneMatch (alternatives vs) f us) ∨
      ∃ (type : ParamType) (shared : List Condition) (parts : List (Frame × Condition)),
        OneAnd (alternatives vs) type shared parts := by
  cases found : factor? (alternatives vs) with
  | none => exact .inl rfl
  | some d =>
    obtain ⟨op, _, _, common, -, -, agree, -⟩ := (factor?_eq_some_iff
      fun c mem => (h.normal_alternative mem).1.wellFormed).mp found
    rcases agree with ⟨rfl, -⟩ | ⟨rfl, -⟩
    · exact .inr (.inl (h.exists_oneMatch common found))
    · exact .inr (.inr (h.exists_oneAnd common found))

/-- **Induction on merging**: alternatives are left side by side, or they are factored and their
values are merged. -/
theorem Mergeable.induct {motive : List Condition → Prop}
    (apart : ∀ vs, Mergeable vs → factor? (alternatives vs) = none → motive vs)
    (oneMatch : ∀ vs f us, Mergeable vs → OneMatch (alternatives vs) f us → Mergeable us →
      motive us → motive vs)
    (oneAnd : ∀ vs type shared parts, Mergeable vs → OneAnd (alternatives vs) type shared parts →
      Mergeable (parts.map Prod.snd) → motive (parts.map Prod.snd) → motive vs)
    {vs : List Condition} (h : Mergeable vs) : motive vs := by
  induction size : (anyOf vs).nodeCount using Nat.strongRecOn generalizing vs with
  | ind n ih =>
    subst size
    rcases h.cases with refused | ⟨f, us, split⟩ | ⟨type, shared, parts, split⟩
    · exact apart vs h refused
    · obtain ⟨values, smaller⟩ := split.values h
      exact oneMatch vs f us h split values (ih _ smaller values rfl)
    · obtain ⟨values, smaller⟩ := split.values h
      exact oneAnd vs type shared parts h split values (ih _ smaller values rfl)

/-! ### Conjunctions once they are merged -/

namespace OneAnd

variable {vs shared : List Condition} {type : ParamType} {parts : List (Frame × Condition)}

/-- Values of conjunctions in normal form are no conjunctions. -/
theorem operator_ne_and {cs : List Condition} (h : OneAnd cs type shared parts)
    (normal : ∀ c ∈ cs, Normal c) : ∀ v ∈ parts.map Prod.snd, v.operator ≠ .and :=
  List.forall_mem_map.mpr fun p mem =>
    ((h.sharing p mem).conjoinable (normal _ (h.mem_filled mem))).flat p.2 List.mem_cons_self

/-- The branches of an alternation in normal form are not all among conjunctions that have a hinge,
since they would have been factored. -/
theorem not_children_subset (h : OneAnd (alternatives vs) type shared parts) (m : Mergeable vs)
    {v : Condition} (normal : Normal v) (or : v.operator = .or) :
    ¬ v.children ⊆ alternatives vs := by
  intro sub
  obtain ⟨inner, some⟩ := h.exists_of_subset sub
  have common {cs : List Condition} (nonempty : cs ≠ []) (ands : cs ⊆ alternatives vs) :
      commonOperator? cs = Option.some .and := by
    refine commonOperator?_eq_some_iff.mpr ⟨nonempty, type, h.array, fun d memD => ?_⟩
    obtain ⟨p, memP, rfl⟩ := h.exists_part (ands memD)
    exact ⟨(h.sharing p memP).paramType, (h.sharing p memP).operator⟩
  have nonempty : v.children ≠ [] := normal.wellFormed.children_ne_nil (by rw [or]; rfl)
  have free := m.free_branches
  rw [comparedBranches_of_and (common m.alternatives_ne_nil (List.Subset.refl _))] at free
  obtain ⟨p, -, found⟩ := some.factor?_eq_some
    (fun d memD => (m.normal_alternative (sub memD)).1)
    (nodup_of_nodup_ids (normal.tidy.distinct (by rw [or]; rfl)))
    (normal.tidy.many (by rw [or]; rfl)) (by
      rw [comparedBranches_of_and (common nonempty sub)]
      exact free.mono fun d memD => (List.mem_flatMap.mp memD).elim fun e inside =>
        List.mem_flatMap.mpr ⟨e, sub inside.1, inside.2⟩)
  have refused := normal.canonical.here.refused
  rw [replaced?, if_pos ⟨rfl, or⟩, found] at refused
  cases refused

/-- One of the alternatives is a conjunction itself, if they have a hinge as conjunctions. -/
theorem exists_mem_of_mergeable (h : OneAnd (alternatives vs) type shared parts)
    (m : Mergeable vs) : ∃ v ∈ vs, v.operator = .and := by
  by_contra none
  push Not at none
  obtain ⟨c, memC⟩ := List.exists_mem_of_ne_nil _ m.alternatives_ne_nil
  rcases m.cases_of_mem memC with ⟨memV, -⟩ | ⟨v, memV, or, -⟩
  · exact none c memV (h.operator_eq memC)
  · exact h.not_children_subset m (m.normal v memV) or (m.children_subset_alternatives memV or)

/-- What the values become is no conjunction. -/
theorem merged_operator_ne_and (h : OneAnd (alternatives vs) type shared parts)
    (m : Mergeable vs) : (merged (parts.map Prod.snd)).operator ≠ .and := by
  obtain ⟨values, -⟩ := h.values m
  have flat := h.operator_ne_and fun c mem => (m.normal_alternative mem).1
  rcases values.cases with refused | ⟨f, us, split⟩ | ⟨_, _, _, split⟩
  · rw [values.merged_of_apart refused]
    exact nofun
  · rw [split.merged_eq values, prune_operator, Frame.fill_operator, split.operator]
    exact nofun
  · obtain ⟨v, mem, and⟩ := split.exists_mem_of_mergeable values
    exact absurd and (flat v mem)

/-- The conjunctions become that of the shared conditions and what the values become. -/
theorem merged_eq (h : OneAnd (alternatives vs) type shared parts) (m : Mergeable vs) :
    merged vs = rejoined type shared (merged (parts.map Prod.snd)) := by
  obtain ⟨p, memP, found⟩ := h.factor?_eq m
  obtain ⟨eq, wf, free, -⟩ := m.merged_of_factor? found
  have own := h.sharing p memP
  have whole := (m.normal_alternative (h.mem_filled memP)).1
  have below : ∀ d ∈ shared, Normal d := fun d mem =>
    whole.child (own.mem_children_iff.mpr (.inr mem))
  have canonical := everywhere_canonical_normalForm wf.of_fill
    (free.child wf (Frame.mem_fill_children.mpr (.inl rfl)))
  rw [eq]
  exact own.normalForm_fill (own.conjoinable whole) below wf free canonical
    (h.merged_operator_ne_and m)

/-- If what the values become is one of the shared conditions, it is all that is left, or shared
conditions are. -/
theorem merged_cases (h : OneAnd (alternatives vs) type shared parts) (m : Mergeable vs)
    (absorbed : merged (parts.map Prod.snd) ∈ shared) :
    merged vs = merged (parts.map Prod.snd) ∨
      (merged vs).operator = .and ∧ (merged vs).children ⊆ shared := by
  rw [h.merged_eq m, rejoined, if_pos absorbed]
  split
  · exact .inl rfl
  · exact .inr ⟨rfl, (sorted_perm shared).subset⟩

end OneAnd

/-! ### What alternatives become -/

section Merged

variable {vs us : List Condition} {f : Frame}

theorem Mergeable.normal_merged (h : Mergeable vs) : Normal (merged vs) :=
  ⟨h.wellFormed.normalForm true, everywhere_canonical_normalForm h.wellFormed h.free⟩

theorem OneMatch.merged_operator (h : OneMatch (alternatives vs) f us) (m : Mergeable vs) :
    (merged vs).operator = .matches := by
  rw [h.merged_eq m, prune_operator]
  exact h.operator

theorem OneMatch.spliced_merged (h : OneMatch (alternatives vs) f us) (m : Mergeable vs) :
    spliced .or (merged vs) = [merged vs] := by
  refine spliced_of_ne ?_
  rw [h.merged_operator m]
  exact nofun

/-- Alternatives do not become a leaf. -/
theorem Mergeable.merged_children_ne_nil (h : Mergeable vs) : (merged vs).children ≠ [] := by
  refine Mergeable.induct (motive := fun vs => (merged vs).children ≠ []) ?_ ?_ ?_ h
  · intro vs h apart
    refine h.normal_merged.wellFormed.children_ne_nil ?_
    rw [h.merged_of_apart apart]
    rfl
  · intro vs f us h split _ _
    refine h.normal_merged.wellFormed.children_ne_nil ?_
    rw [split.merged_operator h]
    rfl
  · intro vs type shared parts h split _ below
    by_cases absorbed : merged (parts.map Prod.snd) ∈ shared
    · rcases split.merged_cases h absorbed with same | ⟨op, -⟩
      · rwa [same]
      · exact h.normal_merged.wellFormed.children_ne_nil (by rw [op]; rfl)
    · refine h.normal_merged.wellFormed.children_ne_nil ?_
      rw [split.merged_eq h, rejoined_of_not_mem absorbed]
      rfl

theorem Mergeable.isGlobalAllowance_eq_false (h : Mergeable vs) :
    (merged vs).isGlobalAllowance = false :=
  h.normal_merged.wellFormed.isGlobalAllowance_eq_false h.merged_children_ne_nil

theorem Mergeable.not_isPass (h : Mergeable vs) : ¬ (merged vs).isPass := by
  rw [h.normal_merged.wellFormed.isPass_eq_false h.merged_children_ne_nil]
  exact Bool.false_ne_true

/-- Alternatives without a hinge are the branches of an alternation. -/
theorem Mergeable.merged_cases_of_apart (h : Mergeable vs)
    (apart : factor? (alternatives vs) = none) :
    (merged vs).operator = .or ∧ ∀ d, d ∈ (merged vs).children ↔ d ∈ alternatives vs := by
  rw [h.merged_of_apart apart]
  exact ⟨rfl, fun d => (sorted_perm (alternatives vs)).mem_iff⟩

theorem Mergeable.leftApart (h : Mergeable vs) (apart : factor? (alternatives vs) = none) :
    LeftApart vs := by
  obtain ⟨or, children⟩ := h.merged_cases_of_apart apart
  refine ⟨fun c => ?_⟩
  rw [spliced_of_eq or]
  exact children c

end Merged

end Condition

end CallGuard
