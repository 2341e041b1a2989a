import CallGuard.Proofs.Padding
import CallGuard.Proofs.Positions

/-!
# Branches with a hinge

A `Frame` is a node around one of its children. Branches with a hinge are frames that agree,
filled with what each branch has at its hinge: matches have the same children in the same places
(`AgreeByPosition`), Ands the same children in any order (`AgreeByContent`), both as far as ids
tell. `factorMatched?_eq_some_iff` and `factorAnd?_eq_some_iff` say that factoring finds such a
decomposition exactly when there is one, and that it fills the first frame with the alternation
of what the others hold.
-/

namespace CallGuard

namespace Condition

/-- A node around one of its children. -/
structure Frame where
  /-- The type of the node. -/
  paramType : ParamType
  /-- The operator of the node. -/
  operator : Operator
  /-- The children before the place. -/
  before : List Condition
  /-- The children after the place. -/
  after : List Condition

namespace Frame

/-- The node with a child in the place. -/
def fill (f : Frame) (x : Condition) : Condition :=
  ⟨f.paramType, f.operator, [], f.before ++ x :: f.after⟩

/-- The children of the node but for the one in the place. -/
def others (f : Frame) : List Condition :=
  f.before ++ f.after

@[simp] theorem fill_paramType (f : Frame) (x : Condition) : (f.fill x).paramType = f.paramType :=
  rfl

@[simp] theorem fill_operator (f : Frame) (x : Condition) : (f.fill x).operator = f.operator :=
  rfl

@[simp] theorem fill_children (f : Frame) (x : Condition) :
    (f.fill x).children = f.before ++ x :: f.after :=
  rfl

theorem fill_children_perm (f : Frame) (x : Condition) : (f.fill x).children.Perm (x :: f.others) :=
  List.perm_middle

theorem mem_fill_children {f : Frame} {x d : Condition} :
    d ∈ (f.fill x).children ↔ d = x ∨ d ∈ f.others := by
  rw [(f.fill_children_perm x).mem_iff, List.mem_cons]

theorem childIds_fill (f : Frame) (x : Condition) :
    (f.fill x).childIds = f.before.map id ++ x.id :: f.after.map id := by
  simp [childIds]

/-- The child in the place of a filled frame. -/
theorem getElem?_fill_children (f : Frame) (x : Condition) :
    (f.fill x).children[f.before.length]? = some x := by
  simp

theorem set_fill (f : Frame) (x y : Condition) :
    ({ f.fill x with children := (f.fill x).children.set f.before.length y } : Condition) =
      f.fill y := by
  simp [fill]

theorem weight_fill {w : Operator → Bytes → Nat} (f : Frame) (x : Condition) :
    weight w (f.fill x) = w f.operator [] + weight w x + totalWeight w f.others := by
  rw [fill, weight_mk, totalWeight_perm List.perm_middle, totalWeight_cons, others]
  omega

end Frame

/-- A node, given as a frame and the child in its place. -/
def filled (part : Frame × Condition) : Condition :=
  part.1.fill part.2

theorem WellFormed.of_fill {f : Frame} {x : Condition} (h : WellFormed (f.fill x)) : WellFormed x :=
  h.children x (Frame.mem_fill_children.mpr (.inl rfl))

/-- A child may be exchanged for another. -/
theorem WellFormed.refill {f : Frame} {x y : Condition} (h : WellFormed (f.fill x))
    (wf : WellFormed y) : WellFormed (f.fill y) := by
  have below : ∀ d ∈ (f.fill y).children, WellFormed d := by
    intro d mem
    rcases Frame.mem_fill_children.mp mem with rfl | other
    · exact wf
    · exact h.children d (Frame.mem_fill_children.mpr (.inr other))
  rw [← f.set_fill x y] at below ⊢
  exact h.with_children (by simp) (by simp) below

/-- A node is a frame around each of its children. -/
theorem exists_fill_of_children_perm {b v : Condition} {others : List Condition}
    (bare : b.operand = []) (perm : b.children.Perm (v :: others)) :
    ∃ f : Frame, f.fill v = b ∧ f.others.Perm others := by
  obtain ⟨before, after, split⟩ := List.append_of_mem (perm.mem_iff.mpr List.mem_cons_self)
  refine ⟨⟨b.paramType, b.operator, before, after⟩, ?_, ?_⟩
  · rw [Frame.fill, ← split, ← bare, mk_eta]
  · rw [split] at perm
    exact (List.perm_middle.symm.trans perm).cons_inv

/-! ### Rebuilding -/

/-- Values of a function with a property of their arguments come from a list of such. -/
theorem exists_map_eq {α β : Type} {f : α → β} {P : α → Prop} {ys : List β}
    (h : ∀ y ∈ ys, ∃ x, f x = y ∧ P x) : ∃ xs : List α, xs.map f = ys ∧ ∀ x ∈ xs, P x := by
  induction ys with
  | nil => exact ⟨[], rfl, nofun⟩
  | cons y ys ih =>
    obtain ⟨x, rfl, holds⟩ := h y List.mem_cons_self
    obtain ⟨xs, rfl, all⟩ := ih fun z mem => h z (List.mem_cons_of_mem _ mem)
    exact ⟨x :: xs, rfl, List.forall_mem_cons.mpr ⟨holds, all⟩⟩

/-- The first of some filled frames, filled with the alternation of what all hold. -/
theorem rebuilt?_filled (first : Frame × Condition) (rest : List (Frame × Condition)) :
    rebuilt? ((first :: rest).map filled) ((first :: rest).map fun p => p.1.before.length) =
      some (first.1.fill (anyOf ((first :: rest).map Prod.snd))) := by
  have found : (((first :: rest).map filled).zip
      ((first :: rest).map fun p => p.1.before.length)).filterMap (fun b => b.1.children[b.2]?) =
      (first :: rest).map Prod.snd := by
    rw [List.zip_map', List.filterMap_map, ← List.filterMap_eq_map]
    refine List.filterMap_congr fun p _ => ?_
    simp [filled]
  exact congrArg (fun alternatives => some { filled first with
    children := (filled first).children.set first.1.before.length (anyOf alternatives) }) found
    |>.trans (congrArg some (first.1.set_fill first.2 _))

/-! ### Matches -/

/-- Frames of which any two have the same children around the place, in which they differ. -/
def AgreeByPosition (parts : List (Frame × Condition)) : Prop :=
  parts.Pairwise fun p q => p.1.before.map id = q.1.before.map id ∧
    p.1.after.map id = q.1.after.map id ∧ p.2.id ≠ q.2.id

/-- A node without an operand whose children have ids around a place comes from a frame. -/
theorem exists_filled {b : Condition} (bare : b.operand = []) {before after : List ConditionId}
    {key : ConditionId} (ids : b.childIds = before ++ key :: after) :
    ∃ part : Frame × Condition, filled part = b ∧ part.1.before.map id = before ∧
      part.2.id = key ∧ part.1.after.map id = after := by
  obtain ⟨pre, rest, split, rfl, eq⟩ := List.map_eq_append_iff.mp ids
  obtain ⟨x, post, rfl, rfl, rfl⟩ := List.map_eq_cons_iff.mp eq
  refine ⟨⟨⟨b.paramType, b.operator, pre, post⟩, x⟩, ?_, rfl, rfl, rfl⟩
  rw [filled, Frame.fill, ← split, ← bare, mk_eta]

theorem all_widths_iff {ms : List Condition} :
    ((ms.map (·.children.length)).all (· == (ms.map (·.children.length)).headD 0)) ↔
      ∀ a ∈ ms, ∀ b ∈ ms, a.childIds.length = b.childIds.length := by
  simp only [childIds, List.length_map]
  cases ms with
  | nil => simp
  | cons m ms =>
    simp only [List.map_cons, List.headD_cons, List.all_eq_true, List.forall_mem_cons, beq_iff_eq,
      List.forall_mem_map, true_and]
    constructor
    · intro h
      exact ⟨fun b mem => (h b mem).symm,
        fun a memA => ⟨h a memA, fun b memB => (h a memA).trans (h b memB).symm⟩⟩
    · intro h a mem
      exact (h.2 a mem).1

/-- All frames agree with the first. -/
theorem AgreeByPosition.around_first {first : Frame × Condition} {rest : List (Frame × Condition)}
    (agree : AgreeByPosition (first :: rest)) {p : Frame × Condition} (h : p ∈ first :: rest) :
    p.1.before.map id = first.1.before.map id ∧ p.1.after.map id = first.1.after.map id := by
  rcases List.mem_cons.mp h with rfl | later
  · exact ⟨rfl, rfl⟩
  · have := List.rel_of_pairwise_cons agree later
    exact ⟨this.1.symm, this.2.1.symm⟩

theorem AgreeByPosition.nodup_ids {parts : List (Frame × Condition)}
    (agree : AgreeByPosition parts) : (parts.map fun p => p.2.id).Nodup := by
  rw [List.Nodup, List.pairwise_map]
  exact agree.imp fun h => h.2.2

/-- The ids of the children of filled frames that agree with some ids around the place. -/
theorem map_childIds_filled {parts : List (Frame × Condition)} {before after : List ConditionId}
    (around : ∀ p ∈ parts, p.1.before.map id = before ∧ p.1.after.map id = after) :
    (parts.map filled).map childIds =
      (parts.map fun p => p.2.id).map fun key => before ++ key :: after := by
  rw [List.map_map, List.map_map]
  refine List.map_congr_left fun p mem => ?_
  rw [Function.comp, filled, Frame.childIds_fill, (around p mem).1, (around p mem).2]
  rfl

/-- Matches of one width have a hinge exactly when they are frames that agree by position. -/
theorem hingePosition?_childIds_eq_some_iff {ms : List Condition} (bare : ∀ b ∈ ms, b.operand = [])
    (widths : ∀ a ∈ ms, ∀ b ∈ ms, a.childIds.length = b.childIds.length) {i : Nat} :
    hingePosition? (ms.map childIds) = some i ↔ ∃ first rest, ms = (first :: rest).map filled ∧
      rest ≠ [] ∧ AgreeByPosition (first :: rest) ∧
      ∀ p ∈ first :: rest, p.1.before.length = i := by
  rw [hingePosition?_eq_some_iff (by simpa only [List.forall_mem_map] using widths)]
  constructor
  · rintro ⟨many, before, after, keys, rows, len, distinct⟩
    have frames : ∀ b ∈ ms, ∃ part : Frame × Condition, filled part = b ∧
        (part.1.before.map id = before ∧ part.1.after.map id = after) := by
      intro b mem
      have row : b.childIds ∈ keys.map fun x => before ++ x :: after :=
        rows ▸ List.mem_map_of_mem mem
      obtain ⟨key, -, ids⟩ := List.mem_map.mp row
      obtain ⟨part, eq, pre, -, post⟩ := exists_filled (bare b mem) ids.symm
      exact ⟨part, eq, pre, post⟩
    obtain ⟨parts, rfl, around⟩ := exists_map_eq frames
    have keysEq : keys = parts.map fun p => p.2.id := by
      have inj : Function.Injective fun x : ConditionId => before ++ x :: after := by
        intro x y eq
        simpa using eq
      exact inj.list_map (rows.symm.trans (map_childIds_filled around))
    have agree : AgreeByPosition parts := by
      rw [keysEq, List.Nodup, List.pairwise_map] at distinct
      refine distinct.imp_of_mem fun {p q} memP memQ differ => ?_
      exact ⟨(around p memP).1.trans (around q memQ).1.symm,
        (around p memP).2.trans (around q memQ).2.symm, differ⟩
    have long : 2 ≤ parts.length := by simpa using many
    obtain ⟨first, second, rest, rfl⟩ := exists_eq_cons_cons long
    refine ⟨first, second :: rest, rfl, List.cons_ne_nil _ _, agree, fun p mem => ?_⟩
    rw [← len, ← (around p mem).1, List.length_map]
  · rintro ⟨first, rest, rfl, some, agree, len⟩
    refine ⟨?_, first.1.before.map id, first.1.after.map id, (first :: rest).map fun p => p.2.id,
      map_childIds_filled fun p mem => agree.around_first mem, ?_, agree.nodup_ids⟩
    · have := List.length_pos_of_ne_nil some
      simp only [List.length_map, List.length_cons]
      omega
    · rw [List.length_map, len first List.mem_cons_self]

/-- Frames that agree by position, filled, are matches of one width with the place at one index. -/
theorem AgreeByPosition.widths {first : Frame × Condition} {rest : List (Frame × Condition)}
    (agree : AgreeByPosition (first :: rest)) :
    (∀ p ∈ first :: rest, p.1.before.length = first.1.before.length) ∧
      ∀ a ∈ (first :: rest).map filled, ∀ b ∈ (first :: rest).map filled,
        a.childIds.length = b.childIds.length := by
  have before : ∀ p ∈ first :: rest, p.1.before.length = first.1.before.length :=
    fun p mem => by simpa using congrArg List.length (agree.around_first mem).1
  have after : ∀ p ∈ first :: rest, p.1.after.length = first.1.after.length :=
    fun p mem => by simpa using congrArg List.length (agree.around_first mem).2
  refine ⟨before, ?_⟩
  simp only [List.forall_mem_map]
  intro p memP q memQ
  simp [filled, childIds, before p memP, before q memQ, after p memP, after q memQ]

/-- What factoring makes of matches whose frames are known. -/
theorem factorMatched?_filled {first : Frame × Condition} {rest : List (Frame × Condition)}
    {i : Nat} (widths : ∀ a ∈ (first :: rest).map filled, ∀ b ∈ (first :: rest).map filled,
      a.childIds.length = b.childIds.length)
    (found : hingePosition? (((first :: rest).map filled).map childIds) = some i)
    (len : ∀ p ∈ first :: rest, p.1.before.length = i) :
    factorMatched? ((first :: rest).map filled) = if first.2.isGlobalAllowance then none
      else some (first.1.fill (anyOf ((first :: rest).map Prod.snd))) := by
  have hinges : (((first :: rest).map filled).map fun _ => i) =
      (first :: rest).map fun p => p.1.before.length := by
    rw [List.map_map]
    exact List.map_congr_left fun p mem => (len p mem).symm
  have atHinge : (filled first).children[i]? = some first.2 := by
    rw [← len first List.mem_cons_self]
    simp [filled]
  rw [← rebuilt?_filled, ← hinges]
  unfold factorMatched?
  dsimp only
  rw [if_pos (all_widths_iff.mpr widths), found]
  simp only [List.map_cons, atHinge, Option.any_some]

/-- Matches that are factored have one width and a hinge. -/
theorem exists_hingePosition?_of_factorMatched? {ms : List Condition} {d : Condition}
    (h : factorMatched? ms = some d) :
    (∀ a ∈ ms, ∀ b ∈ ms, a.childIds.length = b.childIds.length) ∧
      ∃ i, hingePosition? (ms.map childIds) = some i := by
  unfold factorMatched? at h
  dsimp only at h
  split at h
  · rename_i widths
    refine ⟨all_widths_iff.mp widths, Option.ne_none_iff_exists'.mp fun nowhere => ?_⟩
    rw [nowhere] at h
    cases h
  · cases h

/-- **Matches are factored** exactly when they are frames that agree by position, filled with
what is no allowance in the first of them. -/
theorem factorMatched?_eq_some_iff {ms : List Condition} (bare : ∀ b ∈ ms, b.operand = [])
    {d : Condition} : factorMatched? ms = some d ↔ ∃ first rest, ms = (first :: rest).map filled ∧
      rest ≠ [] ∧ AgreeByPosition (first :: rest) ∧ first.2.isGlobalAllowance = false ∧
      d = first.1.fill (anyOf ((first :: rest).map Prod.snd)) := by
  constructor
  · intro h
    obtain ⟨widths, i, found⟩ := exists_hingePosition?_of_factorMatched? h
    obtain ⟨first, rest, rfl, some, agree, len⟩ :=
      (hingePosition?_childIds_eq_some_iff bare widths).mp found
    rw [factorMatched?_filled widths found len] at h
    cases own : first.2.isGlobalAllowance with
    | true =>
      rw [own] at h
      cases h
    | false =>
      rw [own] at h
      exact ⟨first, rest, rfl, some, agree, own, (Option.some.inj h).symm⟩
  · rintro ⟨first, rest, rfl, some, agree, own, rfl⟩
    obtain ⟨len, widths⟩ := agree.widths
    have found := (hingePosition?_childIds_eq_some_iff bare widths).mpr
      ⟨first, rest, rfl, some, agree, len⟩
    rw [factorMatched?_filled widths found len, own, if_neg Bool.false_ne_true]

/-! ### Ands -/

/-- Frames whose children around the place are those with ids that all the filled frames share,
filled with children whose ids are not shared. -/
def AgreeByContent (parts : List (Frame × Condition)) : Prop :=
  ∀ p ∈ parts, p.2.id ∉ sharedIds ((parts.map filled).map childIds) ∧
    ∀ d ∈ p.1.others, d.id ∈ sharedIds ((parts.map filled).map childIds)

theorem mapM_eq_some_iff {α β : Type} {f : α → Option β} {xs : List α} {ys : List β} :
    xs.mapM f = some ys ↔ xs.map f = ys.map some := by
  induction xs generalizing ys with
  | nil => cases ys <;> simp
  | cons x xs ih =>
    rw [List.mapM_cons]
    cases ys with
    | nil => cases f x <;> cases xs.mapM f <;> simp
    | cons y ys =>
      cases found : f x with
      | none => simp [found]
      | some z =>
        cases rest : xs.mapM f with
        | none =>
          have other : xs.map f ≠ ys.map some := (not_congr ih).mp (by rw [rest]; exact nofun)
          simp [found, other]
        | some zs =>
          have same : some zs = some ys ↔ xs.map f = ys.map some := rest ▸ ih
          rw [Option.some.injEq] at same
          simp [found, ← same]

/-- A node has one child whose id is not among some exactly when it is a frame filled with it. -/
theorem onlyIndex?_childIds_eq_some_iff {b : Condition} (bare : b.operand = [])
    {shared : List ConditionId} {i : Nat} :
    onlyIndex? (fun key => !shared.contains key) b.childIds = some i ↔
      ∃ part : Frame × Condition, filled part = b ∧ part.1.before.length = i ∧
        part.2.id ∉ shared ∧ ∀ d ∈ part.1.others, d.id ∈ shared := by
  rw [onlyIndex?_eq_some_iff]
  constructor
  · rintro ⟨before, key, after, ids, rfl, new, old, old'⟩
    obtain ⟨part, rfl, rfl, rfl, rfl⟩ := exists_filled bare ids
    refine ⟨part, rfl, by simp, by simpa using new, fun d mem => ?_⟩
    rcases List.mem_append.mp mem with left | right
    · simpa using old d.id (List.mem_map_of_mem left)
    · simpa using old' d.id (List.mem_map_of_mem right)
  · rintro ⟨part, rfl, rfl, new, old⟩
    refine ⟨part.1.before.map id, part.2.id, part.1.after.map id, part.1.childIds_fill part.2,
      by simp, by simpa using new, ?_, ?_⟩
    all_goals
      intro key mem
      obtain ⟨d, here, rfl⟩ := List.mem_map.mp mem
      simpa using old d (by simp [Frame.others, here])

/-- Nodes each have one child whose id is not among some exactly when they are frames filled with
these children. -/
theorem mapM_onlyIndex?_eq_some_iff {bs : List Condition} (bare : ∀ b ∈ bs, b.operand = [])
    {shared : List ConditionId} {hinges : List Nat} :
    (bs.map childIds).mapM (onlyIndex? fun key => !shared.contains key) = some hinges ↔
      ∃ parts : List (Frame × Condition), bs = parts.map filled ∧
        hinges = parts.map (fun p => p.1.before.length) ∧
        ∀ p ∈ parts, p.2.id ∉ shared ∧ ∀ d ∈ p.1.others, d.id ∈ shared := by
  rw [mapM_eq_some_iff, List.map_map]
  constructor
  · intro found
    have frames : ∀ b ∈ bs, ∃ part : Frame × Condition, filled part = b ∧
        (onlyIndex? (fun key => !shared.contains key) (filled part).childIds =
            some part.1.before.length ∧
          part.2.id ∉ shared ∧ ∀ d ∈ part.1.others, d.id ∈ shared) := by
      intro b mem
      have here := List.mem_map_of_mem
        (f := (onlyIndex? fun key => !shared.contains key) ∘ childIds) mem
      rw [found] at here
      obtain ⟨i, -, eq⟩ := List.mem_map.mp here
      obtain ⟨part, rfl, len, new, old⟩ := (onlyIndex?_childIds_eq_some_iff (bare b mem)).mp eq.symm
      exact ⟨part, rfl, by rw [len]; exact eq.symm, new, old⟩
    obtain ⟨parts, rfl, around⟩ := exists_map_eq frames
    refine ⟨parts, rfl, (Option.some_injective Nat).list_map (found.symm.trans ?_),
      fun p mem => (around p mem).2⟩
    rw [List.map_map, List.map_map]
    exact List.map_congr_left fun p mem => (around p mem).1
  · rintro ⟨parts, rfl, rfl, around⟩
    rw [List.map_map, List.map_map]
    refine List.map_congr_left fun p mem => ?_
    exact (onlyIndex?_childIds_eq_some_iff (bare _ (List.mem_map_of_mem mem))).mpr
      ⟨p, rfl, rfl, around p mem⟩

/-- **Ands are factored** exactly when they are frames that agree by content. -/
theorem factorAnd?_eq_some_iff {bs : List Condition} (bare : ∀ b ∈ bs, b.operand = [])
    {d : Condition} : factorAnd? bs = some d ↔ ∃ first rest, bs = (first :: rest).map filled ∧
      AgreeByContent (first :: rest) ∧
      d = first.1.fill (anyOf ((first :: rest).map Prod.snd)) := by
  unfold factorAnd?
  dsimp only
  rw [Option.bind_eq_some_iff]
  constructor
  · rintro ⟨hinges, found, built⟩
    obtain ⟨parts, rfl, rfl, around⟩ := (mapM_onlyIndex?_eq_some_iff bare).mp found
    cases parts with
    | nil => cases built
    | cons first rest =>
      rw [rebuilt?_filled] at built
      exact ⟨first, rest, rfl, around, (Option.some.inj built).symm⟩
  · rintro ⟨first, rest, rfl, agree, rfl⟩
    exact ⟨(first :: rest).map fun p => p.1.before.length,
      (mapM_onlyIndex?_eq_some_iff bare).mpr ⟨first :: rest, rfl, rfl, agree⟩,
      rebuilt?_filled first rest⟩

/-- A single And has no hinge. -/
theorem AgreeByContent.rest_ne_nil {first : Frame × Condition} {rest : List (Frame × Condition)}
    (agree : AgreeByContent (first :: rest)) : rest ≠ [] := by
  rintro rfl
  refine (agree first List.mem_cons_self).1 ((mem_sharedIds (by simp)).mpr fun row mem => ?_)
  rw [List.mem_singleton.mp mem, filled, Frame.childIds_fill]
  simp

/-! ### Branches -/

theorem commonOperator?_eq_some_iff {bs : List Condition} {op : Operator} :
    commonOperator? bs = some op ↔
      bs ≠ [] ∧ ∃ p, p ≠ .array ∧ ∀ b ∈ bs, b.paramType = p ∧ b.operator = op := by
  cases bs with
  | nil => simp [commonOperator?]
  | cons first rest =>
    simp only [commonOperator?, List.any_eq_true, bne_iff_ne]
    constructor
    · intro h
      split at h
      · cases h
      rename_i types
      split at h
      · cases h
      rename_i array
      split at h
      · cases h
      rename_i operators
      cases h
      push Not at types operators
      exact ⟨List.cons_ne_nil _ _, first.paramType, array,
        fun b mem => ⟨types b mem, operators b mem⟩⟩
    · rintro ⟨-, p, array, all⟩
      have head := all first List.mem_cons_self
      rw [if_neg, if_neg, if_neg, head.2]
      · push Not
        exact fun b mem => (all b mem).2.trans head.2.symm
      · rwa [head.1]
      · push Not
        exact fun b mem => (all b mem).1.trans head.1.symm

theorem commonOperator?_perm {bs cs : List Condition} (h : bs.Perm cs) :
    commonOperator? bs = commonOperator? cs := by
  refine Option.ext fun op => ?_
  rw [commonOperator?_eq_some_iff, commonOperator?_eq_some_iff]
  simp only [h.mem_iff, ne_eq, ← List.length_eq_zero_iff, h.length_eq]

/-- Branches as they are compared: matches are padded to one width. -/
def leveled (bs : List Condition) : List Condition :=
  if commonOperator? bs = some .matches then padded bs else bs

/-- Branches that may have a hinge have children. -/
theorem children_ne_nil_of_commonOperator? {bs : List Condition} (wf : ∀ b ∈ bs, WellFormed b)
    {op : Operator} (h : commonOperator? bs = some op) (needs : op.requiresChildren) :
    ∀ b ∈ bs, b.children ≠ [] := by
  obtain ⟨-, p, -, all⟩ := commonOperator?_eq_some_iff.mp h
  exact fun b mem => (wf b mem).children_ne_nil ((all b mem).2 ▸ needs)

theorem wellFormed_of_mem_leveled {bs : List Condition} (wf : ∀ b ∈ bs, WellFormed b) :
    ∀ b ∈ leveled bs, WellFormed b := by
  unfold leveled
  split
  · rename_i common
    exact fun b => WellFormed.of_mem_padded wf (children_ne_nil_of_commonOperator? wf common rfl)
  · exact wf

theorem leveled_of_matches {bs : List Condition} (h : commonOperator? bs = some .matches) :
    leveled bs = padded bs :=
  if_pos h

theorem leveled_of_and {bs : List Condition} (h : commonOperator? bs = some .and) :
    leveled bs = bs :=
  if_neg (by rw [h]; nofun)

theorem leveled_operator {bs : List Condition} {op : Operator} (h : commonOperator? bs = some op) :
    ∃ p, ∀ b ∈ leveled bs, b.paramType = p ∧ b.operator = op := by
  obtain ⟨-, p, -, all⟩ := commonOperator?_eq_some_iff.mp h
  refine ⟨p, ?_⟩
  unfold leveled
  split
  · intro b mem
    obtain ⟨model, c, memC, rfl⟩ := exists_padTo_of_mem_padded mem
    simpa using all c memC
  · exact all

theorem leveled_operand {bs : List Condition} (wf : ∀ b ∈ bs, WellFormed b) {op : Operator}
    (h : commonOperator? bs = some op) (needs : op.requiresChildren) :
    ∀ b ∈ leveled bs, b.operand = [] := by
  obtain ⟨p, all⟩ := leveled_operator h
  intro b mem
  have wfB := wellFormed_of_mem_leveled wf b mem
  exact wfB.operand_eq_nil (wfB.children_ne_nil ((all b mem).2 ▸ needs))

/-- How frames agree that branches of an operator are factored at. -/
def Agree (op : Operator) (first : Frame × Condition) (rest : List (Frame × Condition)) : Prop :=
  op = .matches ∧ AgreeByPosition (first :: rest) ∧ first.2.isGlobalAllowance = false ∨
    op = .and ∧ AgreeByContent (first :: rest)

/-- **Branches are factored** exactly when, padded if they are matches, they are frames that
agree, and then into the first frame with the alternation of what all hold. -/
theorem factor?_eq_some_iff {bs : List Condition} (wf : ∀ b ∈ bs, WellFormed b) {d : Condition} :
    factor? bs = some d ↔ ∃ op first rest, commonOperator? bs = some op ∧
      leveled bs = (first :: rest).map filled ∧ rest ≠ [] ∧ Agree op first rest ∧
      d = first.1.fill (anyOf ((first :: rest).map Prod.snd)) := by
  constructor
  · intro h
    unfold factor? at h
    split at h
    · rename_i op
      rw [← leveled_of_matches op, factorMatched?_eq_some_iff (leveled_operand wf op rfl)] at h
      obtain ⟨first, rest, eq, some, agree, own, rfl⟩ := h
      exact ⟨_, first, rest, op, eq, some, .inl ⟨rfl, agree, own⟩, rfl⟩
    · rename_i op
      rw [← leveled_of_and op, factorAnd?_eq_some_iff (leveled_operand wf op rfl)] at h
      obtain ⟨first, rest, eq, agree, rfl⟩ := h
      exact ⟨_, first, rest, op, eq, agree.rest_ne_nil, .inr ⟨rfl, agree⟩, rfl⟩
    · cases h
  · rintro ⟨op, first, rest, common, eq, some, ⟨rfl, agree, own⟩ | ⟨rfl, agree⟩, rfl⟩
    · simp only [factor?, common]
      rw [← leveled_of_matches common, factorMatched?_eq_some_iff (leveled_operand wf common rfl)]
      exact ⟨first, rest, eq, some, agree, own, rfl⟩
    · simp only [factor?, common]
      rw [← leveled_of_and common, factorAnd?_eq_some_iff (leveled_operand wf common rfl)]
      exact ⟨first, rest, eq, agree, rfl⟩

/-! ### Shape of the combined node -/

theorem wellFormed_of_factor? {bs : List Condition} (wf : ∀ b ∈ bs, WellFormed b) {d : Condition}
    (h : factor? bs = some d) : WellFormed d := by
  obtain ⟨op, first, rest, -, eq, -, -, rfl⟩ := (factor?_eq_some_iff wf).mp h
  have filledWf : ∀ p ∈ first :: rest, WellFormed (filled p) := fun p mem =>
    wellFormed_of_mem_leveled wf _ (eq ▸ List.mem_map_of_mem mem)
  have below : ∀ x ∈ (first :: rest).map Prod.snd, WellFormed x :=
    List.forall_mem_map.mpr fun p mem => (filledWf p mem).of_fill
  exact (filledWf first List.mem_cons_self).refill (wellFormed_anyOf (by simp) below)

/-! ### Weight of the combined node -/

section Weight

variable {w : Operator → Bytes → Nat}

/-- What branches hold at their hinges weighs less than the branches, by their own weight and even
by some more if it does so in one place. -/
theorem totalWeight_map_snd_le {own : Nat} {bs : List Condition} {parts : List (Frame × Condition)}
    (lighter : List.Forall₂ (fun b p => weight w p.2 + own ≤ weight w b) bs parts) (slack : Nat)
    (more : slack = 0 ∨ ∃ p ∈ bs.zip parts, weight w p.2.2 + own + slack ≤ weight w p.1) :
    totalWeight w (parts.map Prod.snd) + own * parts.length + slack ≤ totalWeight w bs := by
  induction lighter generalizing slack with
  | nil =>
    rcases more with rfl | ⟨p, mem, -⟩
    · exact Nat.le_refl _
    · cases mem
  | @cons b p bs parts here rest ih =>
    simp only [List.map_cons, totalWeight_cons, List.length_cons, Nat.mul_succ]
    rcases more with rfl | ⟨q, mem, much⟩
    · have := ih 0 (.inl rfl)
      omega
    · rcases List.mem_cons.mp mem with rfl | later
      · have := ih 0 (.inl rfl)
        dsimp only at much
        omega
      · have := ih slack (.inr ⟨q, later, much⟩)
        omega

/-- What a match has at its hinge when padded weighs less than the match, by that of the match
itself. -/
theorem weight_snd_add_le_of_padTo (light : PassLightest w) {model : List Condition} {b : Condition}
    (wf : WellFormed b) (some : b.children ≠ []) {p : Frame × Condition}
    (eq : padTo model b = filled p) : weight w p.2 + w b.operator [] ≤ weight w b := by
  have mem : p.2 ∈ (padTo model b).children := by
    rw [eq]
    exact Frame.mem_fill_children.mpr (.inl rfl)
  rw [← wf.operand_eq_nil some]
  rcases mem_children_padTo mem with own | ⟨q, pass⟩
  · exact weight_add_le_of_mem own
  · obtain ⟨d, memD⟩ := List.exists_mem_of_ne_nil _ some
    have lightest := light d (wf.children d memD)
    have := weight_add_le_of_mem (w := w) memD
    rw [pass, Condition.pass, weight_mk, totalWeight_nil]
    omega

/-- The children around the child of a match that is not padded weigh as much as what a padded
match of the same width has gained, or more. -/
theorem weight_snd_add_padding_le (light : PassLightest w) {model : List Condition}
    {a b : Condition} {p q : Frame × Condition} (wf : WellFormed b) (some : a.children ≠ [])
    (eqA : padTo model a = filled p) (eqB : b = filled q)
    (widths : (filled p).childIds.length = (filled q).childIds.length)
    (padded : a.positional.length < model.length) :
    weight w q.2 + w b.operator [] + w .pass [] * (model.length - a.positional.length) ≤
      weight w b := by
  have own := (positional_append_allowances_perm a).length_eq
  have all := (positional_append_allowances_perm (padTo model a)).length_eq
  rw [List.length_append, length_positional_padTo padded.le, allowances_padTo, eqA] at all
  rw [List.length_append] at own
  have := List.length_pos_of_ne_nil some
  have around : q.1.others.length + 1 = (filled q).children.length := by
    simp [filled, Frame.others, Nat.add_assoc]
  simp only [childIds, List.length_map] at widths
  have many : model.length - a.positional.length ≤ q.1.others.length := by omega
  have heavy : w .pass [] * q.1.others.length ≤ totalWeight w q.1.others :=
    length_mul_le_totalWeight fun d mem => light d
      (wf.children d (eqB ▸ Frame.mem_fill_children.mpr (.inr mem)))
  have := Nat.mul_le_mul_left (w .pass []) many
  rw [eqB, filled, Frame.weight_fill, Frame.fill_operator]
  omega

/-- What padding adds to the first match is outweighed by the model, if that is another. -/
theorem padding_outweighed (light : PassLightest w) {m b : Condition} {bs : List Condition}
    {first : Frame × Condition} {rest : List (Frame × Condition)} {op : Operator}
    (wf : ∀ c ∈ bs, WellFormed c) (all : ∀ c ∈ bs, c.operator = op) (some : b.children ≠ [])
    (model : m ∈ b :: bs) (agree : AgreeByPosition (first :: rest))
    (here : padTo m.positional b = filled first)
    (others : List.Forall₂ (fun c p => padTo m.positional c = filled p) bs rest) :
    w .pass [] * (m.positional.length - b.positional.length) = 0 ∨ ∃ p ∈ bs.zip rest,
      weight w p.2.2 + w op [] + w .pass [] * (m.positional.length - b.positional.length) ≤
        weight w p.1 := by
  by_cases narrow : b.positional.length < m.positional.length
  swap
  · exact .inl (by rw [Nat.sub_eq_zero_of_le (by omega), Nat.mul_zero])
  obtain ⟨sameLength, pairs⟩ := List.forall₂_iff_zip.mp others
  have other : m ∈ bs := by
    rcases List.mem_cons.mp model with rfl | other
    · omega
    · exact other
  obtain ⟨i, inside, found⟩ := List.getElem_of_mem other
  have insideRest : i < rest.length := sameLength ▸ inside
  have paired : (m, rest[i]) ∈ bs.zip rest := by
    rw [← found, ← List.getElem_zip (h := by rw [List.length_zip]; omega)]
    exact List.getElem_mem _
  refine .inr ⟨_, paired, ?_⟩
  rw [← all m other]
  refine weight_snd_add_padding_le light (wf m other) some here ?_ ?_ narrow
  · rw [← pairs paired, padTo_of_le (Nat.le_refl _)]
  · exact agree.widths.2 _ (List.mem_map_of_mem List.mem_cons_self) _
      (List.mem_map_of_mem (List.mem_cons_of_mem first (List.of_mem_zip paired).2))

/-- The first of some padded matches and what the others have at their hinge weigh less than the
matches did. -/
theorem weight_filled_add_le_of_padded (light : PassLightest w) {bs : List Condition}
    {first : Frame × Condition} {rest : List (Frame × Condition)} {op : Operator}
    (wf : ∀ b ∈ bs, WellFormed b) (all : ∀ b ∈ bs, b.operator = op)
    (nonempty : ∀ b ∈ bs, b.children ≠ [])
    (eq : padded bs = (first :: rest).map filled) (agree : AgreeByPosition (first :: rest)) :
    weight w (filled first) + totalWeight w (rest.map Prod.snd) + w op [] * rest.length ≤
      totalWeight w bs := by
  cases bs with
  | nil => cases eq
  | cons b bs =>
    obtain ⟨m, memM, padded, -⟩ := padded_eq (List.cons_ne_nil b bs)
    rw [padded, List.map_cons, List.map_cons, List.cons.injEq] at eq
    obtain ⟨here, later⟩ := eq
    have others : List.Forall₂ (fun c p => padTo m.positional c = filled p) bs rest := by
      rwa [← List.forall₂_eq_eq_eq, List.forall₂_map_left_iff, List.forall₂_map_right_iff] at later
    obtain ⟨sameLength, pairs⟩ := List.forall₂_iff_zip.mp others
    have lighter : List.Forall₂ (fun c p => weight w p.2 + w op [] ≤ weight w c) bs rest := by
      refine List.forall₂_iff_zip.mpr ⟨sameLength, fun {c p} mem => ?_⟩
      have memC := List.mem_cons_of_mem b (List.of_mem_zip mem).1
      rw [← all c memC]
      exact weight_snd_add_le_of_padTo light (wf c memC) (nonempty c memC) (pairs mem)
    have := totalWeight_map_snd_le lighter _
      (padding_outweighed light (fun c mem => wf c (List.mem_cons_of_mem b mem))
        (fun c mem => all c (List.mem_cons_of_mem b mem)) (nonempty b List.mem_cons_self) memM agree
        here others)
    rw [← here, weight_padTo, totalWeight_cons]
    omega

/-- The first of some filled frames and what the others are filled with weigh less than all of
them. -/
theorem weight_filled_add_le {first : Frame × Condition} {rest : List (Frame × Condition)}
    {op : Operator} (all : ∀ b ∈ (first :: rest).map filled, b.operator = op) :
    weight w (filled first) + totalWeight w (rest.map Prod.snd) + w op [] * rest.length ≤
      totalWeight w ((first :: rest).map filled) := by
  have lighter : List.Forall₂ (fun b p => weight w p.2 + w op [] ≤ weight w b)
      (rest.map filled) rest := by
    rw [List.forall₂_map_left_iff, List.forall₂_same]
    intro p mem
    rw [← all _ (List.mem_map_of_mem (List.mem_cons_of_mem first mem))]
    exact weight_add_le_of_mem (c := filled p) (Frame.mem_fill_children.mpr (.inl rfl))
  have := totalWeight_map_snd_le lighter 0 (.inl rfl)
  rw [List.map_cons, totalWeight_cons]
  omega

/-- **Factoring makes trees lighter**, by the weight of a branch at least. -/
theorem weight_factor?_add_le (light : PassLightest w) {bs : List Condition}
    (wf : ∀ b ∈ bs, WellFormed b) {d : Condition} (found : factor? bs = some d) :
    ∃ op, commonOperator? bs = some op ∧ weight w d + w op [] ≤ weight w (anyOf bs) := by
  obtain ⟨op, first, rest, common, eq, some, agree, rfl⟩ := (factor?_eq_some_iff wf).mp found
  refine ⟨op, common, ?_⟩
  obtain ⟨-, type, -, all⟩ := commonOperator?_eq_some_iff.mp common
  have size : weight w (first.1.fill (anyOf ((first :: rest).map Prod.snd))) =
      weight w (filled first) + w .or [] + totalWeight w (rest.map Prod.snd) := by
    rw [Frame.weight_fill, filled, Frame.weight_fill, anyOf, weight_mk, List.map_cons,
      totalWeight_cons]
    omega
  have lighter : weight w (filled first) + totalWeight w (rest.map Prod.snd) +
      w op [] * rest.length ≤ totalWeight w bs := by
    rcases agree with ⟨rfl, agree, -⟩ | ⟨rfl, -⟩
    · rw [leveled_of_matches common] at eq
      exact weight_filled_add_le_of_padded light wf (fun b mem => (all b mem).2)
        (children_ne_nil_of_commonOperator? wf common rfl) eq agree
    · rw [leveled_of_and common] at eq
      rw [eq] at all ⊢
      exact weight_filled_add_le fun b mem => (all b mem).2
  have := Nat.le_mul_of_pos_right (w op []) (List.length_pos_of_ne_nil some)
  rw [size, anyOf, weight_mk]
  omega

end Weight

/-- **Factoring makes trees smaller.** -/
theorem nodeCount_lt_of_factor? {bs : List Condition} (wf : ∀ b ∈ bs, WellFormed b) {d : Condition}
    (found : factor? bs = some d) : d.nodeCount < (anyOf bs).nodeCount := by
  obtain ⟨op, -, smaller⟩ := weight_factor?_add_le passLightest_unitWeight wf found
  exact smaller

end Condition

end CallGuard
