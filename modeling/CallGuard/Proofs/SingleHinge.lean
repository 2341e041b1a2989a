import CallGuard.Proofs.FixedPoints

/-!
# Single hinges

Which alternations are factored can be said without ids, frames or searches. Matches have a single
hinge if, padded, any two of them differ at one and the same index and nowhere else
(`DifferOnlyAt`); Ands, if each has exactly one child that they do not all have (`Shared`).
`SingleHinge` says so, with the node that the branches factor into, and `pushDown_hands_hinge` that
pushing an alternation down calls the function for further work once, on that node, or not at all.
-/

namespace CallGuard

namespace Condition

/-! ### Matches -/

/-- That any two of some nodes differ in the child with an index, and in no other. -/
def DifferOnlyAt (h : Nat) (ms : List Condition) : Prop :=
  ms.Pairwise fun a b => a.children[h]? ≠ b.children[h]? ∧
    ∀ i, i ≠ h → a.children[i]? = b.children[i]?

theorem Frame.getElem?_fill_of_ne {f : Frame} {i : Nat} (other : i ≠ f.before.length)
    (x y : Condition) : (f.fill x).children[i]? = (f.fill y).children[i]? := by
  have moved : (f.fill x).children = (f.fill y).children.set f.before.length x := by simp
  rw [moved, List.getElem?_set_ne other.symm]

/-- One frame filled with different trees makes nodes that differ at its place only. -/
theorem differOnlyAt_fill (f : Frame) {xs : List Condition} (different : xs.Nodup) :
    DifferOnlyAt f.before.length (xs.map f.fill) := by
  rw [DifferOnlyAt, List.pairwise_map]
  refine different.imp fun {x y} differ => ⟨?_, fun i other => f.getElem?_fill_of_ne other x y⟩
  rw [f.getElem?_fill_children, f.getElem?_fill_children]
  exact fun same => differ (Option.some.inj same)

/-- A node that differs from another at one index at most is the other with that child exchanged. -/
theorem exists_set_of_agree {m first : Condition} {h : Nat} (inside : h < first.children.length)
    (width : m.children.length = first.children.length)
    (agree : ∀ i, i ≠ h → first.children[i]? = m.children[i]?) :
    ∃ x, m.children = first.children.set h x := by
  have insideM : h < m.children.length := width ▸ inside
  refine ⟨m.children[h], List.ext_getElem? fun i => ?_⟩
  by_cases here : i = h
  · rw [here, List.getElem?_set_self inside, List.getElem?_eq_getElem insideM]
  · rw [List.getElem?_set_ne (Ne.symm here), agree i here]

/-- **Nodes that differ at one index only** are one frame filled with different trees. -/
theorem exists_fill_of_differOnlyAt {first : Condition} {rest : List Condition} {h : Nat}
    (some : rest ≠ []) {type : ParamType} {op : Operator}
    (bare : ∀ m ∈ first :: rest, m.paramType = type ∧ m.operator = op ∧ m.operand = [])
    (widths : ∀ m ∈ rest, m.children.length = first.children.length)
    (differ : DifferOnlyAt h (first :: rest)) : ∃ (f : Frame) (xs : List Condition),
      first :: rest = xs.map f.fill ∧ f.before.length = h ∧ xs.Nodup := by
  obtain ⟨apart, -⟩ := List.pairwise_cons.mp differ
  have inside : h < first.children.length := by
    by_contra outside
    obtain ⟨second, mem⟩ := List.exists_mem_of_ne_nil rest some
    refine (apart second mem).1 ?_
    rw [List.getElem?_eq_none (by omega), List.getElem?_eq_none (by rw [widths second mem]; omega)]
  let f : Frame := ⟨type, op, first.children.take h, first.children.drop (h + 1)⟩
  have place : f.before.length = h := List.length_take_of_le inside.le
  have frames : ∀ m ∈ first :: rest, ∃ x, f.fill x = m ∧ True := by
    intro m mem
    obtain ⟨x, children⟩ : ∃ x, m.children = first.children.set h x := by
      rcases List.mem_cons.mp mem with rfl | later
      · exact exists_set_of_agree inside rfl fun _ _ => rfl
      · exact exists_set_of_agree inside (widths m later) (apart m later).2
    obtain ⟨type', op', operand⟩ := bare m mem
    refine ⟨x, ?_, trivial⟩
    rw [Frame.fill, ← mk_eta m, type', op', operand, children, List.set_eq_take_append_cons_drop,
      if_pos inside]
  obtain ⟨xs, eq, -⟩ := exists_map_eq frames
  refine ⟨f, xs, eq.symm, place, ?_⟩
  rw [← eq, DifferOnlyAt, List.pairwise_map] at differ
  exact differ.imp fun {x y} apart same => apart.1 (by rw [same])

/-! ### Ands -/

/-- A child that all branches have. -/
def Shared (bs : List Condition) (x : Condition) : Prop :=
  ∀ b ∈ bs, x ∈ b.children

instance (bs : List Condition) (x : Condition) : Decidable (Shared bs x) :=
  inferInstanceAs (Decidable (∀ b ∈ bs, x ∈ b.children))

/-- The children of a branch that some branch does not have. -/
def unshared (bs : List Condition) (b : Condition) : List Condition :=
  b.children.filter fun x => ¬ Shared bs x

/-- A branch has one child that is not shared exactly when it is a frame of shared children that is
filled with it. -/
theorem unshared_eq_singleton_iff {bs : List Condition} {b x : Condition} (bare : b.operand = []) :
    unshared bs b = [x] ↔
      ∃ f : Frame, f.fill x = b ∧ ¬ Shared bs x ∧ ∀ d ∈ f.others, Shared bs d := by
  unfold unshared
  rw [List.filter_eq_cons_iff]
  constructor
  · rintro ⟨before, after, split, old, new, old'⟩
    refine ⟨⟨b.paramType, b.operator, before, after⟩, ?_, by simpa using new, fun d mem => ?_⟩
    · rw [Frame.fill, ← split, ← bare, mk_eta]
    · rcases List.mem_append.mp mem with left | right
      · simpa using old d left
      · simpa using List.filter_eq_nil_iff.mp old' d right
  · rintro ⟨f, rfl, new, old⟩
    refine ⟨f.before, f.after, f.fill_children x, fun d mem => ?_, by simpa using new, ?_⟩
    · simpa using old d (List.mem_append_left _ mem)
    · exact List.filter_eq_nil_iff.mpr fun d mem => by
        simpa using old d (List.mem_append_right _ mem)

/-- Where ids tell children apart, an id that all branches have is that of a shared child. -/
theorem CollisionFree.id_mem_sharedIds_iff {bs : List Condition}
    (free : CollisionFree (bs.flatMap children)) {d b : Condition} (memB : b ∈ bs)
    (mem : d ∈ b.children) : d.id ∈ sharedIds (bs.map childIds) ↔ Shared bs d := by
  have inside {e x : Condition} (memE : e ∈ bs) (memX : x ∈ e.children) : x ∈ bs.flatMap children :=
    List.mem_flatMap.mpr ⟨e, memE, memX⟩
  rw [mem_sharedIds (by simpa using List.ne_nil_of_mem memB), List.forall_mem_map]
  refine forall₂_congr fun e memE => ⟨fun ids => ?_, List.mem_map_of_mem⟩
  exact free.mem_of_map_id (inside memB mem) (fun x => inside memE) ids

/-- The children of a frame of shared ones around another, once that one is exchanged. -/
theorem map_children_fill {bs : List Condition} {f : Frame} {x : Condition} (new : ¬ Shared bs x)
    (old : ∀ d ∈ f.others, Shared bs d) (y : Condition) :
    ((f.fill x).children.map fun d => if Shared bs d then d else y) = (f.fill y).children := by
  have kept {ds : List Condition} (h : ∀ d ∈ ds, Shared bs d) :
      (ds.map fun d => if Shared bs d then d else y) = ds := by
    refine (List.map_congr_left fun d mem => ?_).trans (List.map_id ds)
    exact if_pos (h d mem)
  rw [f.fill_children, f.fill_children, List.map_append, List.map_cons, if_neg new,
    kept fun d mem => old d (List.mem_append_left _ mem),
    kept fun d mem => old d (List.mem_append_right _ mem)]

/-! ### Branches -/

/-- **That branches have a single hinge**, with the node that they factor into. -/
inductive SingleHinge (bs : List Condition) : Condition → Prop where
  /-- Matches of one type, padded to one width, differ at one index, where the first has no
  allowance; there the first gets the alternation of what all have. -/
  | ofMatches {type : ParamType} {first own : Condition} {rest xs : List Condition} {h : Nat}
      (array : type ≠ .array) (all : ∀ b ∈ bs, b.paramType = type ∧ b.operator = .matches)
      (padded : padToMatch bs = .ok (first :: rest))
      (widths : ∀ m ∈ rest, m.children.length = first.children.length)
      (differ : DifferOnlyAt h (first :: rest))
      (place : first.children[h]? = some own) (component : own.isGlobalAllowance = false)
      (hinge : (first :: rest).map (fun m => m.children[h]?) = xs.map some) :
      SingleHinge bs { first with children := first.children.set h (anyOf xs) }
  /-- Ands of one type have one child each that they do not share; in the place of its own the
  first gets the alternation of what all have. -/
  | ofAnds {type : ParamType} {first : Condition} {rest xs : List Condition}
      (array : type ≠ .array) (all : ∀ b ∈ bs, b.paramType = type ∧ b.operator = .and)
      (branches : bs = first :: rest) (hinge : bs.map (unshared bs) = xs.map ([·])) :
      SingleHinge bs { first with
        children := first.children.map fun d => if Shared bs d then d else anyOf xs }

section Branches

variable {bs : List Condition} {d : Condition}

/-- Matches that are factored have a single hinge. -/
theorem singleHinge_of_matches (wf : ∀ b ∈ bs, WellFormed b)
    (common : commonOperator? bs = some .matches) (free : CollisionFree (comparedBranches bs))
    (found : factor? bs = some d) : SingleHinge bs d := by
  obtain ⟨-, type, array, all⟩ := commonOperator?_eq_some_iff.mp common
  obtain ⟨f, xs, eq, many, distinct, own, rfl⟩ := (factor?_matches_iff wf common free).mp found
  obtain ⟨x, y, zs, rfl⟩ := exists_eq_cons_cons many
  have hinge : ((x :: y :: zs).map f.fill).map (fun m => m.children[f.before.length]?) =
      (x :: y :: zs).map some := by
    rw [List.map_map]
    exact List.map_congr_left fun z _ => f.getElem?_fill_children z
  have levels : padToMatch bs = .ok (f.fill x :: (y :: zs).map f.fill) := by
    rw [padToMatch_eq wf fun b mem => (all b mem).2, eq]
    rfl
  rw [← f.set_fill x]
  exact .ofMatches array all levels (by simp) (differOnlyAt_fill f (distinct.of_map _))
    (f.getElem?_fill_children x) (own x List.mem_cons_self) hinge

/-- Matches that differ at one index only are, padded, one frame filled with what they have
there. -/
theorem exists_fill_of_padded {first : Condition} {rest xs : List Condition} {h : Nat}
    (wf : ∀ b ∈ bs, WellFormed b) (common : commonOperator? bs = some .matches)
    (many : 2 ≤ bs.length) (eq : padded bs = first :: rest)
    (widths : ∀ m ∈ rest, m.children.length = first.children.length)
    (differ : DifferOnlyAt h (first :: rest))
    (hinge : (first :: rest).map (fun m => m.children[h]?) = xs.map some) :
    ∃ f : Frame, padded bs = xs.map f.fill ∧ f.before.length = h ∧ xs.Nodup ∧ 2 ≤ xs.length := by
  have long : 2 ≤ (first :: rest).length := by rwa [← eq, length_padded]
  obtain ⟨type, kinds⟩ := leveled_operator common
  have operands := leveled_operand wf common rfl
  rw [leveled_of_matches common, eq] at kinds operands
  obtain ⟨f, ys, fills, rfl, different⟩ := exists_fill_of_differOnlyAt
    (List.ne_nil_of_length_pos (Nat.le_of_succ_le_succ long))
    (fun m mem => ⟨(kinds m mem).1, (kinds m mem).2, operands m mem⟩) widths differ
  have same : ys = xs := by
    rw [fills, List.map_map] at hinge
    refine (Option.some_injective _).list_map (Eq.trans ?_ hinge)
    exact List.map_congr_left fun y _ => (f.getElem?_fill_children y).symm
  subst same
  refine ⟨f, eq.trans fills, rfl, different, ?_⟩
  rwa [fills, List.length_map] at long

/-- Matches with a single hinge are factored. -/
theorem factor?_of_matches {type : ParamType} {first own : Condition} {rest xs : List Condition}
    {h : Nat} (wf : ∀ b ∈ bs, WellFormed b) (many : 2 ≤ bs.length)
    (free : CollisionFree (comparedBranches bs)) (array : type ≠ .array)
    (all : ∀ b ∈ bs, b.paramType = type ∧ b.operator = .matches)
    (levels : padToMatch bs = .ok (first :: rest))
    (widths : ∀ m ∈ rest, m.children.length = first.children.length)
    (differ : DifferOnlyAt h (first :: rest))
    (place : first.children[h]? = some own) (component : own.isGlobalAllowance = false)
    (hinge : (first :: rest).map (fun m => m.children[h]?) = xs.map some) :
    factor? bs = some { first with children := first.children.set h (anyOf xs) } := by
  have common : commonOperator? bs = some .matches := commonOperator?_eq_some_iff.mpr
    ⟨List.ne_nil_of_length_pos (by omega), type, array, all⟩
  have eq : padded bs = first :: rest :=
    Except.ok.inj ((padToMatch_eq wf fun b mem => (all b mem).2).symm.trans levels)
  obtain ⟨f, fills, rfl, different, long⟩ :=
    exists_fill_of_padded wf common many eq widths differ hinge
  obtain ⟨x, y, ys, rfl⟩ := exists_eq_cons_cons long
  obtain ⟨rfl, rfl⟩ := List.cons.inj (eq.symm.trans fills)
  obtain rfl : x = own := Option.some.inj ((f.getElem?_fill_children x).symm.trans place)
  rw [f.set_fill, factor?_matches_iff wf common free]
  rw [comparedBranches_of_matches common] at free
  have memP {z : Condition} (mem : z ∈ x :: y :: ys) : f.fill z ∈ padded bs :=
    fills ▸ List.mem_map_of_mem mem
  have inside {z : Condition} (mem : z ∈ x :: y :: ys) : z ∈ bs ++ (padded bs).flatMap children :=
    List.mem_append_right _
      (List.mem_flatMap.mpr ⟨f.fill z, memP mem, Frame.mem_fill_children.mpr (.inl rfl)⟩)
  refine ⟨f, x :: y :: ys, fills, by simp, ?_, fun z mem => ?_, rfl⟩
  · exact List.Nodup.map_on (fun a memA b memB => free a (inside memA) b (inside memB)) different
  · exact isGlobalAllowance_eq_false_of_padded (memP mem) (memP List.mem_cons_self) component

/-- **Ands with a hinge** are frames of shared children, filled with children that are not. -/
theorem factor?_and_iff (wf : ∀ b ∈ bs, WellFormed b) (common : commonOperator? bs = some .and)
    (free : CollisionFree (comparedBranches bs)) : factor? bs = some d ↔
      ∃ first rest, bs = (first :: rest).map filled ∧
        (∀ p ∈ first :: rest, ¬ Shared bs p.2 ∧ ∀ e ∈ p.1.others, Shared bs e) ∧
        d = first.1.fill (anyOf ((first :: rest).map Prod.snd)) := by
  rw [comparedBranches_of_and common] at free
  have agree {parts : List (Frame × Condition)} (eq : bs = parts.map filled) :
      AgreeByContent parts ↔ ∀ p ∈ parts, ¬ Shared bs p.2 ∧ ∀ e ∈ p.1.others, Shared bs e := by
    refine forall₂_congr fun p mem => ?_
    have branch : filled p ∈ bs := eq ▸ List.mem_map_of_mem mem
    rw [← eq]
    refine and_congr ?_ (forall₂_congr fun e memE => ?_)
    · exact not_congr (free.id_mem_sharedIds_iff branch (Frame.mem_fill_children.mpr (.inl rfl)))
    · exact free.id_mem_sharedIds_iff branch (Frame.mem_fill_children.mpr (.inr memE))
  simp only [factor?, common]
  rw [factorAnd?_eq_some_iff (leveled_of_and common ▸ leveled_operand wf common rfl)]
  refine exists₂_congr fun first rest => and_congr_right fun eq => ?_
  rw [agree eq]

/-- Ands that are factored have a single hinge. -/
theorem singleHinge_of_and (wf : ∀ b ∈ bs, WellFormed b)
    (common : commonOperator? bs = some .and) (free : CollisionFree (comparedBranches bs))
    (found : factor? bs = some d) : SingleHinge bs d := by
  obtain ⟨-, type, array, all⟩ := commonOperator?_eq_some_iff.mp common
  obtain ⟨first, rest, eq, agree, rfl⟩ := (factor?_and_iff wf common free).mp found
  have hinge : bs.map (unshared bs) = ((first :: rest).map Prod.snd).map ([·]) := by
    rw [List.map_map]
    refine (congrArg (List.map (unshared bs)) eq).trans ?_
    rw [List.map_map]
    exact List.map_congr_left fun p mem =>
      (unshared_eq_singleton_iff rfl).mpr ⟨p.1, rfl, agree p mem⟩
  have whole : first.1.fill (anyOf ((first :: rest).map Prod.snd)) = { filled first with
      children := (filled first).children.map fun e =>
        if Shared bs e then e else anyOf ((first :: rest).map Prod.snd) } := by
    obtain ⟨new, old⟩ := agree first List.mem_cons_self
    rw [filled, map_children_fill new old]
    rfl
  rw [whole]
  exact .ofAnds array all eq hinge

/-- Ands with a single hinge are factored. -/
theorem factor?_of_ands {type : ParamType} {first : Condition} {rest xs : List Condition}
    (wf : ∀ b ∈ bs, WellFormed b) (free : CollisionFree (comparedBranches bs))
    (array : type ≠ .array) (all : ∀ b ∈ bs, b.paramType = type ∧ b.operator = .and)
    (branches : bs = first :: rest) (hinge : bs.map (unshared bs) = xs.map ([·])) :
    factor? bs = some { first with
      children := first.children.map fun e => if Shared bs e then e else anyOf xs } := by
  have common : commonOperator? bs = some .and := commonOperator?_eq_some_iff.mpr
    ⟨branches ▸ List.cons_ne_nil _ _, type, array, all⟩
  have frames : ∀ b ∈ bs, ∃ p : Frame × Condition, filled p = b ∧
      (unshared bs (filled p) = [p.2] ∧ ¬ Shared bs p.2 ∧ ∀ e ∈ p.1.others, Shared bs e) := by
    intro b mem
    have here : unshared bs b ∈ xs.map ([·]) := hinge ▸ List.mem_map_of_mem mem
    obtain ⟨x, -, only⟩ := List.mem_map.mp here
    have inner := (wf b mem).children_ne_nil (by rw [(all b mem).2]; rfl)
    obtain ⟨f, rfl, around⟩ :=
      (unshared_eq_singleton_iff ((wf b mem).operand_eq_nil inner)).mp only.symm
    exact ⟨(f, x), rfl, only.symm, around⟩
  obtain ⟨parts, eq, around⟩ := exists_map_eq
    (P := fun p => unshared bs (filled p) = [p.2] ∧ ¬ Shared bs p.2 ∧
      ∀ e ∈ p.1.others, Shared bs e) frames
  have values : parts.map Prod.snd = xs := by
    refine (List.singleton_injective (α := Condition)).list_map (Eq.trans ?_ hinge)
    refine Eq.trans ?_ (congrArg (List.map (unshared bs)) eq)
    rw [List.map_map, List.map_map]
    exact List.map_congr_left fun p mem => (around p mem).1.symm
  cases parts with
  | nil => exact absurd (branches.symm.trans eq.symm) (List.cons_ne_nil _ _)
  | cons p parts =>
    obtain ⟨rfl, -⟩ := List.cons.inj (branches.symm.trans eq.symm)
    obtain ⟨-, new, old⟩ := around p List.mem_cons_self
    rw [factor?_and_iff wf common free]
    refine ⟨p, parts, eq.symm, fun q mem => (around q mem).2, ?_⟩
    rw [filled, map_children_fill new old, values]
    rfl

/-- **Branches factor exactly if they have a single hinge**, and into the node that goes with
it. -/
theorem factor?_eq_some_iff_singleHinge (wf : ∀ b ∈ bs, WellFormed b) (many : 2 ≤ bs.length)
    (free : CollisionFree (comparedBranches bs)) : factor? bs = some d ↔ SingleHinge bs d := by
  constructor
  · intro found
    rcases h : commonOperator? bs with _ | op
    · simp [factor?, h] at found
    · by_cases matched : op = .matches
      · exact singleHinge_of_matches wf (matched ▸ h) free found
      · by_cases conjoined : op = .and
        · exact singleHinge_of_and wf (conjoined ▸ h) free found
        · simp [factor?, h, matched, conjoined] at found
  · intro single
    cases single with
    | ofMatches array all levels widths differ place component hinge =>
      exact factor?_of_matches wf many free array all levels widths differ place component hinge
    | ofAnds array all branches hinge => exact factor?_of_ands wf free array all branches hinge

end Branches

/-! ### Pushing down -/

/-- What pushing down an alternation does with any function for further work. -/
theorem pushDown_eq {m : Type → Type} [Monad m] [LawfulMonad m] [MonadLiftT (Except Error) m]
    [LawfulMonadLiftT (Except Error) m] (further : Condition → m Condition) {c : Condition}
    (wf : WellFormed c) (or : c.operator = .or) (many : 2 ≤ c.children.length) :
    pushDown further c = match factor? c.children with
      | none => pure none
      | some d => some <$> further d := by
  unfold pushDown
  rw [factorAlternation_eq wf or many]
  have lifted (found : Option Condition) :
      (liftM (Except.ok found : Except Error _) : m (Option Condition)) = pure found :=
    monadLift_pure found
  rewrite [lifted, pure_bind]
  cases factor? c.children with
  | none => rfl
  | some d => rfl

/-- Work that gives a result under `some` is work that gives it. -/
theorem run_some_map_eq_iff {α σ : Type} {x : ExceptT Error (StateM σ) α} {s s' : σ} {a : α} :
    (some <$> x).run.run s = (.ok (some a), s') ↔ x.run.run s = (.ok a, s') := by
  rw [ExceptT.run_map, StateT.run_map]
  rcases x.run.run s with ⟨_ | b, s₁⟩
  · exact ⟨nofun, nofun⟩
  · change (Except.ok (some b), s₁) = (.ok (some a), s') ↔ (Except.ok b, s₁) = (.ok a, s')
    rw [Prod.mk.injEq, Prod.mk.injEq, Except.ok.injEq, Except.ok.injEq, Option.some.injEq]

/-- **An alternation is pushed down exactly on a single hinge**: pushing down a well-formed
alternation of more than one branch comes to an end without an error of its own, having handed at
most one node to the function for further work, which may fail and keep a state. It has handed one
exactly if the branches have a single hinge, namely the node that goes with it, and has a result
exactly if it has handed one and the function has. All of this holds as long as ids tell the trees
that are compared apart. -/
theorem pushDown_hands_hinge {t : Condition} (wf : WellFormed t) (or : t.operator = .or)
    (many : 2 ≤ t.children.length) (free : CollisionFree (comparedBranches t.children)) :
    ∃ handed : Option Condition,
      (∀ d, handed = some d ↔ SingleHinge t.children d) ∧
      (∀ {σ : Type} (further : Condition → ExceptT Error (StateM σ) Condition),
        pushDown further t = match handed with
          | none => pure none
          | some d => some <$> further d) ∧
      ∀ {σ : Type} (further : Condition → ExceptT Error (StateM σ) Condition) (s s' : σ) e,
        (pushDown further t).run.run s = (.ok (some e), s') ↔
          ∃ d, handed = some d ∧ (further d).run.run s = (.ok e, s') := by
  have hands {σ : Type} (further : Condition → ExceptT Error (StateM σ) Condition) :=
    pushDown_eq further wf or many
  refine ⟨factor? t.children, fun d => factor?_eq_some_iff_singleHinge wf.children many free,
    hands, fun further s s' e => ?_⟩
  rw [hands further]
  cases factor? t.children with
  | none => exact ⟨nofun, fun ⟨_, found, _⟩ => nomatch found⟩
  | some d =>
    rw [run_some_map_eq_iff]
    exact ⟨fun ends => ⟨d, rfl, ends⟩, fun ⟨_, rfl, ends⟩ => ends⟩

/-- Gives a node back and keeps it in a list. -/
def noted (d : Condition) : ExceptT Error (StateM (List Condition)) Condition := do
  modify (d :: ·)
  return d

/-- Two calls that differ in one component, the second with a free component more, are handed on
as one. -/
theorem pushDown_noted_sampleCalls :
    let handed := allowedCall [byteIs 1, anyOf [byteIs 2, byteIs 3], pass .static]
    SingleHinge sampleCalls.children handed ∧
      (pushDown noted sampleCalls).run.run [] = (.ok (some handed), [handed]) := by
  intro handed
  have wf : WellFormed sampleCalls := by decide +kernel
  have factors : factor? sampleCalls.children = some handed := by decide +kernel
  obtain ⟨found, iff, -, ends⟩ := pushDown_hands_hinge wf rfl (by decide) (by decide +kernel)
  have run : (pushDown noted sampleCalls).run.run [] = (.ok (some handed), [handed]) := by
    rw [pushDown_eq noted wf rfl (by decide), factors]
    rfl
  obtain ⟨_, rfl, same⟩ := (ends noted [] [handed] handed).mp run
  cases same
  exact ⟨(iff handed).mp rfl, run⟩

end Condition

end CallGuard
