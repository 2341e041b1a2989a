import CallGuard.Proofs.Canonical

/-!
# Fixed points

The trees that normalizing leaves as they are can be told from others node by node, without
normalizing anything. `CanonicalShape` says what has to hold of a node, in terms of its children
alone: a group of And or Or has several children of other kinds, no group repeats a child, groups
are in canonical order, an open-ended match has its allowances last and no free component at its
end, and an alternation has no hinge. `normalize_eq_self_iff` says that the trees of this shape at
every node are the fixed points.
-/

namespace CallGuard

namespace Condition

/-- A tree that may stand before another in a group: conditions on the whole call come first, and
then the smaller id. -/
def StandsBefore (a b : Condition) : Prop :=
  (b.isWholeCall → a.isWholeCall) ∧ (a.isWholeCall = b.isWholeCall → (compare a.id b.id).isLE)

/-- Up to where an open-ended match keeps free components: the first one, and in a tuple those up
to the first component of variable size. -/
def retentionBoundary (c : Condition) : Nat :=
  match c.paramType, c.positional.findIdx? isDynamic with
  | .tuple, some i => i + 1
  | _, _ => 1

/-- A node that normalizing leaves as it is, as far as the node itself goes. -/
structure CanonicalShape (pushDown : Bool) (c : Condition) : Prop where
  /-- And and Or have at least two children. -/
  many : c.operator = .and ∨ c.operator = .or → 2 ≤ c.children.length
  /-- And and Or have no child with their own operator. -/
  flat : c.operator = .and ∨ c.operator = .or → ∀ d ∈ c.children, d.operator ≠ c.operator
  /-- The children of And, Or and Nor are pairwise different. -/
  different : c.operator = .and ∨ c.operator = .or ∨ c.operator = .nor → c.children.Nodup
  /-- The children of And, Or and Nor stand in canonical order. -/
  ordered : c.operator = .and ∨ c.operator = .or ∨ c.operator = .nor →
    c.children.Pairwise StandsBefore
  /-- The allowances of an open-ended match come last. -/
  allowancesLast : c.operator = .matches →
    c.paramType = .calldata ∨ c.paramType = .abiEncoded ∨ c.paramType = .tuple ∧ c.isDynamic →
    ∃ components allowances, c.children = components ++ allowances ∧
      (∀ d ∈ components, d.isGlobalAllowance = false) ∧ ∀ d ∈ allowances, d.isGlobalAllowance
  /-- The last component of an open-ended match is not free, unless it has to be kept. -/
  trimmed : c.operator = .matches →
    c.paramType = .calldata ∨ c.paramType = .abiEncoded ∨ c.paramType = .tuple ∧ c.isDynamic →
    ∀ last ∈ c.positional.getLast?, last.isPass → c.positional.length ≤ c.retentionBoundary
  /-- The branches of an alternation have no hinge, if alternations are factored. -/
  refused : pushDown → c.operator = .or →
    Condition.pushDown (m := Except Error) .ok c = .ok none

/-! ### Groups -/

theorem isAssociative_iff {op : Operator} : op.isAssociative ↔ op = .and ∨ op = .or := by
  cases op <;> simp [Operator.isAssociative]

theorem isSetLike_iff {op : Operator} : op.isSetLike ↔ op = .and ∨ op = .or ∨ op = .nor := by
  cases op <;> simp [Operator.isSetLike]

theorem precedes_iff {a b : Condition} : precedes a b ↔ StandsBefore a b := by
  unfold precedes inOrder StandsBefore
  cases a.isWholeCall <;> cases b.isWholeCall <;> simp

/-! ### Open-ended matches -/

/-- There is more than what is always kept if and only if there is more than the boundary allows. -/
theorem retained_lt_iff (c : Condition) :
    c.retained < c.positional.length ↔ c.retentionBoundary < c.positional.length := by
  unfold retained retentionBoundary
  dsimp only
  by_cases tuple : c.paramType = .tuple
  · rw [if_pos tuple, tuple]
    cases c.positional.findIdx? isDynamic with
    | none => dsimp only; omega
    | some i => dsimp only; omega
  · rw [if_neg tuple]
    split
    · exact absurd ‹_› tuple
    · omega

/-- Nothing is dropped if and only if what would be dropped first is not free. -/
theorem dropFreeTail_eq_self_iff {keep : Nat} {cs : List Condition} :
    dropFreeTail keep cs = cs ↔ ∀ last ∈ cs.getLast?, last.isPass → cs.length ≤ keep := by
  have split : dropFreeTail keep cs = cs ↔
      (cs.drop keep).rdropWhile isPass = cs.drop keep := by
    rw [dropFreeTail_eq]
    constructor
    · intro h
      exact List.append_cancel_left (h.trans (List.take_append_drop keep cs).symm)
    · intro h
      rw [h, List.take_append_drop]
  rw [split, List.rdropWhile_eq_self_iff]
  constructor
  · intro h last found free
    by_contra long
    have some : cs.drop keep ≠ [] := by
      rw [ne_eq, List.drop_eq_nil_iff]
      exact long
    refine h some ?_
    rw [List.getLast_drop, (List.getLast_eq_iff_getLast?_eq_some _).mpr found]
    exact free
  · intro h some free
    have here : cs ≠ [] := fun empty => some (by rw [empty, List.drop_nil])
    rw [List.getLast_drop] at free
    have := h _ (List.getLast?_eq_some_getLast here) free
    exact some (List.drop_eq_nil_iff.mpr this)

/-! ### Alternations -/

/-- An alternation of more than one branch is looked at for a hinge without an error. -/
theorem factorAlternation_eq {c : Condition} (wf : WellFormed c) (or : c.operator = .or)
    (many : 2 ≤ c.children.length) : factorAlternation c = .ok (factor? c.children) := by
  have found : replacement? true c = .ok (replaced? true c) := replacement?_eq wf fun _ => many
  rwa [replacement?, replaced?, if_pos ⟨rfl, or⟩, if_pos ⟨rfl, or⟩] at found

/-- Pushing down an alternation of more than one branch gives what the branches factor into. -/
theorem pushDown_ok_eq {c : Condition} (wf : WellFormed c) (or : c.operator = .or)
    (many : 2 ≤ c.children.length) :
    pushDown (m := Except Error) .ok c = .ok (factor? c.children) := by
  unfold pushDown
  rw [factorAlternation_eq wf or many]
  cases factor? c.children with
  | none => rfl
  | some d => rfl

/-! ### Canonical nodes -/

theorem Canonical.shape {push : Bool} {c : Condition} (wf : WellFormed c)
    (h : Canonical push c) : CanonicalShape push c where
  many group := h.tidy.many (isAssociative_iff.mpr group)
  flat group := h.tidy.flat (isAssociative_iff.mpr group)
  different group := nodup_of_nodup_ids (h.tidy.distinct (isSetLike_iff.mpr group))
  ordered group := (h.tidy.ordered (isSetLike_iff.mpr group)).imp precedes_iff.mp
  allowancesLast op type := allowancesLast_iff.mpr
    ((prune_eq_self_iff op (isOpenEnded_iff.mpr type)).mp h.tidy.pruned).1
  trimmed op type last found free := by
    have kept := ((prune_eq_self_iff op (isOpenEnded_iff.mpr type)).mp h.tidy.pruned).2
    have short := dropFreeTail_eq_self_iff.mp kept last found free
    have := retained_lt_iff c
    omega
  refused on or := by
    have refused := h.refused
    rw [replaced?, if_pos ⟨on, or⟩] at refused
    rw [pushDown_ok_eq wf or (h.tidy.many (by rw [or]; rfl)), refused]

/-- A node of canonical shape is canonical if ids tell its children apart. -/
theorem CanonicalShape.canonical {push : Bool} {c : Condition} (wf : WellFormed c)
    (h : CanonicalShape push c) (free : c.operator.isSetLike → CollisionFree c.children) :
    Canonical push c where
  tidy := by
    refine ⟨fun group => h.many (isAssociative_iff.mp group),
      fun group => h.flat (isAssociative_iff.mp group), fun group => ?_,
      fun group => (h.ordered (isSetLike_iff.mp group)).imp precedes_iff.mpr, ?_⟩
    · exact (h.different (isSetLike_iff.mp group)).map_on (free group)
    · by_cases open_ : c.operator = .matches ∧ c.isOpenEnded
      · have type := isOpenEnded_iff.mp open_.2
        refine (prune_eq_self_iff open_.1 open_.2).mpr
          ⟨allowancesLast_iff.mp (h.allowancesLast open_.1 type), ?_⟩
        refine dropFreeTail_eq_self_iff.mpr fun last found free => ?_
        have short := h.trimmed open_.1 type last found free
        have := retained_lt_iff c
        omega
      · exact prune_of_not open_
  refused := by
    unfold replaced?
    split
    · rename_i both
      have refused := h.refused both.1 both.2
      rw [pushDown_ok_eq wf both.2 (h.many (.inr both.2))] at refused
      exact Except.ok.inj refused
    · rfl

/-- Trees of canonical shape are canonical, as long as the run compares no two different trees
with the same id. -/
theorem everywhere_canonical_of_shape {push : Bool} {c : Condition} (wf : WellFormed c)
    (free : CollisionFree (compared push c)) (h : Everywhere (CanonicalShape push) c) :
    Everywhere (Canonical push) c := by
  induction c using induct with
  | node c ih =>
    have below : ∀ d ∈ c.children, Everywhere (Canonical push) d := fun d mem =>
      ih d mem (wf.children d mem) (free.child wf mem) (h.children d mem)
    refine .mk (h.here.canonical wf fun group => ?_) below
    -- the children are their own normal forms, and so they are what the run compares
    have same : assembled push c = c := assembled_eq_self fun d mem =>
      normalForm_of_canonical (wf.children d mem) (below d mem)
    have flat : c.flatten = c := by
      by_cases assoc : c.operator.isAssociative
      · exact flatten_eq_self assoc (h.here.flat (isAssociative_iff.mp assoc))
      · exact flatten_of_not_isAssociative assoc
    have compared := (free.at wf).group (by exact group)
    rwa [same, flat] at compared

theorem everywhere_shape_of_canonical {push : Bool} {c : Condition} (wf : WellFormed c)
    (h : Everywhere (Canonical push) c) : Everywhere (CanonicalShape push) c := by
  induction c using induct with
  | node c ih =>
    exact .mk (h.here.shape wf) fun d mem => ih d mem (wf.children d mem) (h.children d mem)

/-! ### Fixed points -/

theorem normalForm_of_shape {push : Bool} {c : Condition} (wf : WellFormed c)
    (free : CollisionFree (compared push c)) (shape : Everywhere (CanonicalShape push) c) :
    normalForm push c = c :=
  normalForm_of_canonical wf (everywhere_canonical_of_shape wf free shape)

/-- A tree of canonical shape is normalized to itself. -/
theorem normalize_of_shape {push : Bool} {c : Condition} (wf : WellFormed c)
    (free : CollisionFree (compared push c)) (shape : Everywhere (CanonicalShape push) c) :
    normalize push c = pure c := by
  rw [normalize_eq wf, normalForm_of_shape wf free shape]

/-- **The fixed points of normalizing** are the trees of canonical shape: a well-formed tree is
normalized to itself if and only if all its nodes have the shape, as long as the run compares no
two different trees with the same id. -/
theorem normalize_eq_self_iff (push : Bool) {t : Condition} (wf : WellFormed t)
    (free : CollisionFree (compared push t)) :
    normalize push t = pure t ↔ Everywhere (CanonicalShape push) t := by
  rw [normalize_eq wf, Run.pure_inj]
  constructor
  · intro same
    have canonical := everywhere_canonical_normalForm wf free
    rw [same] at canonical
    exact everywhere_shape_of_canonical wf canonical
  · intro shape
    exact normalForm_of_shape wf free shape

instance (a b : Condition) : Decidable (StandsBefore a b) :=
  inferInstanceAs (Decidable ((_ → _) ∧ (_ → _)))

/-- Whether a node has the shape. -/
instance (push : Bool) (c : Condition) : Decidable (CanonicalShape push c) :=
  decidable_of_iff
    ((c.operator = .and ∨ c.operator = .or → 2 ≤ c.children.length) ∧
      (c.operator = .and ∨ c.operator = .or → ∀ d ∈ c.children, d.operator ≠ c.operator) ∧
      (c.operator = .and ∨ c.operator = .or ∨ c.operator = .nor → c.children.Nodup) ∧
      (c.operator = .and ∨ c.operator = .or ∨ c.operator = .nor →
        c.children.Pairwise StandsBefore) ∧
      (c.operator = .matches →
        c.paramType = .calldata ∨ c.paramType = .abiEncoded ∨ c.paramType = .tuple ∧ c.isDynamic →
        c.children = c.positional ++ c.allowances) ∧
      (c.operator = .matches →
        c.paramType = .calldata ∨ c.paramType = .abiEncoded ∨ c.paramType = .tuple ∧ c.isDynamic →
        ∀ last ∈ c.positional.getLast?, last.isPass →
          c.positional.length ≤ c.retentionBoundary) ∧
      (push → c.operator = .or → pushDown (m := Except Error) .ok c = .ok none))
    ⟨fun ⟨many, flat, different, ordered, last, trimmed, refused⟩ =>
      ⟨many, flat, different, ordered, fun op type => allowancesLast_iff.mpr (last op type),
        trimmed, refused⟩,
    fun h => ⟨h.many, h.flat, h.different, h.ordered,
      fun op type => allowancesLast_iff.mp (h.allowancesLast op type), h.trimmed, h.refused⟩⟩

/-- Of the two orders of the alternatives of the sample call, one is that of a fixed point. -/
theorem normalize_sampleCall_fixed :
    normalize true sampleCall ≠ pure sampleCall ∧
      normalize true (allowedCall [byteIs 1, anyOf [byteIs 3, byteIs 2]]) =
        pure (allowedCall [byteIs 1, anyOf [byteIs 3, byteIs 2]]) := by
  refine ⟨fun same => ?_, ?_⟩
  · have shape := (normalize_eq_self_iff true (by decide +kernel) (by decide +kernel)).mp same
    exact absurd shape (by decide +kernel)
  · exact (normalize_eq_self_iff true (by decide +kernel) (by decide +kernel)).mpr
      (by decide +kernel)

end Condition

end CallGuard
