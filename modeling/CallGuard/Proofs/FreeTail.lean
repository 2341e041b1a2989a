import CallGuard.Proofs.Pruning

/-!
# What pruning keeps

`Retains` says which leading parts of its components an open-ended match may be cut down to: those
that leave out nothing but free components and reach the boundary up to which components always
stay. Pruning keeps the shortest of them and puts the allowances after it (`prune_keeps_least`). It
leaves a match as it is exactly if there is nothing to leave out and as many children as there are
allowances, counted from the end, are allowances (`prune_eq_self_iff_inPlace`).
-/

namespace CallGuard

namespace Condition

/-- A match of a whole call, or of a tuple of variable size. -/
structure OpenMatch (c : Condition) : Prop where
  op : c.operator = .matches
  type : c.paramType = .calldata ∨ c.paramType = .abiEncoded ∨ c.paramType = .tuple ∧ c.isDynamic

theorem openMatch_iff {c : Condition} : OpenMatch c ↔ c.operator = .matches ∧ c.isOpenEnded := by
  rw [isOpenEnded_iff]
  constructor
  · rintro ⟨op, type⟩
    exact ⟨op, type⟩
  · rintro ⟨op, type⟩
    exact ⟨op, type⟩

/-- A part of the components of a match that it may be cut down to. -/
structure Retains (c : Condition) (kept : List Condition) : Prop where
  /-- It is a leading part. -/
  leading : kept <+: c.positional
  /-- The components after it are free. -/
  free : ∀ rest, c.positional = kept ++ rest → ∀ d ∈ rest, d.isPass
  /-- The first component is in it, if there is one. -/
  first : ∀ d rest, c.positional = d :: rest → [d] <+: kept
  /-- In a tuple, all up to the first component of variable size is in it, if there is one. -/
  variableSize : c.paramType = .tuple → ∀ before d rest, c.positional = before ++ d :: rest →
    d.isDynamic → (∀ e ∈ before, e.isDynamic = false) → before ++ [d] <+: kept

/-- The shortest part of the components of a match that it may be cut down to. -/
structure RetainsLeast (c : Condition) (kept : List Condition) : Prop extends Retains c kept where
  /-- No such part is shorter. -/
  least : ∀ other, Retains c other → kept.length ≤ other.length

/-! ### The boundary -/

/-- Leading parts of one list are parts of each other by length. -/
theorem isPrefix_iff_length_le {α : Type} {xs ys whole : List α} (startX : xs <+: whole)
    (startY : ys <+: whole) : xs <+: ys ↔ xs.length ≤ ys.length := by
  constructor
  · intro h
    exact h.length_le
  · intro h
    exact List.prefix_of_prefix_length_le startX startY h

/-- The place of the first element with a property, as what stands before it. -/
theorem findIdx?_eq_some_iff_split {α : Type} {p : α → Bool} {xs : List α} {i : Nat} :
    xs.findIdx? p = some i ↔ ∃ before x rest, xs = before ++ x :: rest ∧ before.length = i ∧
      p x ∧ ∀ y ∈ before, p y = false := by
  constructor
  · intro found
    obtain ⟨inside, here, before⟩ := List.findIdx?_eq_some_iff_getElem.mp found
    refine ⟨xs.take i, xs[i], xs.drop (i + 1), ?_, ?_, here, ?_⟩
    · simp
    · simp only [List.length_take]
      omega
    · intro y mem
      obtain ⟨j, early, rfl⟩ := List.mem_take_iff_getElem.mp mem
      simpa using before j (by omega)
  · rintro ⟨before, x, rest, rfl, rfl, here, others⟩
    have none : before.findIdx? p = none := List.findIdx?_eq_none_iff.mpr others
    simp [List.findIdx?_append, List.findIdx?_cons, none, here]

/-- How many components always stay, as what is to be among them. -/
theorem retained_le_iff {c : Condition} {n : Nat} : c.retained ≤ n ↔
    (c.positional ≠ [] → 1 ≤ n) ∧
      (c.paramType = .tuple → ∀ i, c.positional.findIdx? isDynamic = some i → i + 1 ≤ n) := by
  have first : min 1 c.positional.length ≤ n ↔ (c.positional ≠ [] → 1 ≤ n) := by
    rw [← List.length_pos_iff]
    omega
  unfold retained
  dsimp only
  by_cases tuple : c.paramType = .tuple
  · rw [if_pos tuple]
    cases found : c.positional.findIdx? isDynamic with
    | none => simp [first]
    | some i =>
      rw [Nat.max_le, first]
      simp [tuple]
  · simp [tuple, first]

/-- A leading part of the components reaches the boundary if and only if it has as many components
as always stay. -/
theorem retained_le_length_iff {c : Condition} {kept : List Condition}
    (leading : kept <+: c.positional) : c.retained ≤ kept.length ↔
      (∀ d rest, c.positional = d :: rest → [d] <+: kept) ∧
        (c.paramType = .tuple → ∀ before d rest, c.positional = before ++ d :: rest →
          d.isDynamic → (∀ e ∈ before, e.isDynamic = false) → before ++ [d] <+: kept) := by
  have start (before : List Condition) {d : Condition} {rest : List Condition}
      (split : c.positional = before ++ d :: rest) :
      before ++ [d] <+: kept ↔ before.length + 1 ≤ kept.length := by
    have inside : before ++ [d] <+: c.positional := ⟨rest, by simp [split]⟩
    simp [isPrefix_iff_length_le inside leading]
  rw [retained_le_iff]
  refine and_congr ?_ (imp_congr_right fun tuple => ?_)
  · constructor
    · intro long d rest split
      exact (start [] split).mpr (long (by simp [split]))
    · intro reaches some
      obtain ⟨d, rest, split⟩ := List.exists_cons_of_ne_nil some
      exact (start [] split).mp (reaches d rest split)
  · constructor
    · intro long before d rest split here others
      have found := findIdx?_eq_some_iff_split.mpr ⟨before, d, rest, split, rfl, here, others⟩
      exact (start before split).mpr (long before.length found)
    · intro reaches i found
      obtain ⟨before, d, rest, split, rfl, here, others⟩ := findIdx?_eq_some_iff_split.mp found
      exact (start before split).mp (reaches before d rest split here others)

theorem retains_iff {c : Condition} {kept : List Condition} : Retains c kept ↔
    kept <+: c.positional ∧ (∀ rest, c.positional = kept ++ rest → ∀ d ∈ rest, d.isPass) ∧
      c.retained ≤ kept.length := by
  constructor
  · intro h
    exact ⟨h.leading, h.free, (retained_le_length_iff h.leading).mpr ⟨h.first, h.variableSize⟩⟩
  · rintro ⟨leading, free, long⟩
    obtain ⟨first, variableSize⟩ := (retained_le_length_iff leading).mp long
    exact ⟨leading, free, first, variableSize⟩

/-! ### The shortest part -/

theorem retained_le_length_dropFreeTail (c : Condition) :
    c.retained ≤ (dropFreeTail c.retained c.positional).length := by
  have := retained_le c
  simp only [dropFreeTail_eq, List.length_append, List.length_take]
  omega

/-- **Dropping the free tail** leaves the shortest part. -/
theorem retainsLeast_dropFreeTail (c : Condition) :
    RetainsLeast c (dropFreeTail c.retained c.positional) := by
  have leading := dropFreeTail_isPrefix c.retained c.positional
  refine ⟨retains_iff.mpr ⟨leading, ?_, retained_le_length_dropFreeTail c⟩, ?_⟩
  · intro rest split
    obtain ⟨tail, split', free⟩ := exists_dropFreeTail_append c.retained c.positional
    rwa [List.append_cancel_left (split.symm.trans split')]
  · intro other retains
    obtain ⟨⟨rest, split⟩, free, long⟩ := retains_iff.mp retains
    have same : dropFreeTail c.retained c.positional = dropFreeTail c.retained other := by
      rw [← split]
      exact dropFreeTail_append long (free rest split.symm)
    rw [same]
    exact (dropFreeTail_isPrefix c.retained other).length_le

/-! ### Matches that stay as they are -/

/-- Allowances come last if and only if as many children as there are allowances, counted from the
end, are allowances. -/
theorem allowancesLast_iff_inPlace {c : Condition} :
    c.children = c.positional ++ c.allowances ↔
      ∀ d ∈ c.children.reverse.take c.allowances.length, d.isGlobalAllowance := by
  constructor
  · intro last d mem
    rw [last, List.reverse_append, ← List.length_reverse, List.take_left, List.mem_reverse] at mem
    exact (mem_allowances.mp mem).2
  · intro inPlace
    have few : c.allowances.length ≤ c.children.length := List.length_filter_le _ _
    let start := c.children.take (c.children.length - c.allowances.length)
    let tail := c.children.drop (c.children.length - c.allowances.length)
    have split : c.children = start ++ tail := (List.take_append_drop _ _).symm
    have rest : ∀ d ∈ tail, d.isGlobalAllowance := by
      intro d mem
      apply inPlace
      rwa [List.take_reverse, List.mem_reverse]
    -- the tail alone has as many allowances as there are
    have none : start.filter isGlobalAllowance = [] := by
      have count : c.allowances.length = (start.filter isGlobalAllowance).length + tail.length := by
        rw [allowances]
        nth_rewrite 1 [split]
        rw [List.filter_append, List.filter_eq_self.mpr rest, List.length_append]
      have length : tail.length = c.allowances.length := by
        rw [List.length_drop]
        omega
      apply List.eq_nil_of_length_eq_zero
      omega
    refine allowancesLast_iff.mp ⟨start, tail, split, ?_, rest⟩
    intro d mem
    simpa using List.filter_eq_nil_iff.mp none d mem

/-- **A match that is not pruned**: nothing is dropped, and the last children are the allowances. -/
theorem prune_eq_self_iff_inPlace {c : Condition} (h : OpenMatch c) : c.prune = c ↔
    dropFreeTail c.retained c.positional = c.positional ∧
      ∀ d ∈ c.children.reverse.take c.allowances.length, d.isGlobalAllowance := by
  obtain ⟨op, open_⟩ := openMatch_iff.mp h
  rw [prune_eq_self_iff op open_, allowancesLast_iff_inPlace, and_comm]

/-- **Pruning removes the free tail** and nothing else. An open-ended match keeps the shortest
leading part of its components that leaves out only free ones and reaches the boundary, and then its
allowances; it is left alone exactly if that part is all of its components and its last children
are its allowances. Any other node stays as it is. Nothing fails, no region changes between fixed
and variable size, and pruning again changes nothing. -/
theorem prune_keeps_least {c : Condition} (wf : WellFormed c) :
    c.prune.remade = .ok c.prune ∧
    (OpenMatch c → ∃ kept, RetainsLeast c kept ∧
      c.prune = { c with children := kept ++ c.allowances } ∧
      (c.prune = c ↔ kept = c.positional ∧
        ∀ d ∈ c.children.reverse.take c.allowances.length, d.isGlobalAllowance)) ∧
    (¬ OpenMatch c → c.prune = c) ∧
    c.prune.isDynamic = c.isDynamic ∧
    c.prune.prune = c.prune := by
  refine ⟨wf.prune.remade, ?_, ?_, isDynamic_prune c, prune_prune c⟩
  · intro h
    obtain ⟨op, open_⟩ := openMatch_iff.mp h
    exact ⟨_, retainsLeast_dropFreeTail c, prune_of_isOpenEnded op open_,
      prune_eq_self_iff_inPlace h⟩
  · intro h
    rw [openMatch_iff] at h
    exact prune_of_not h

/-- A tuple of which the second component alone has a variable size, with an allowance between its
components and free components at its end. -/
def sampleOpenTuple : Condition :=
  ⟨.tuple, .matches, [], [pass .static, ⟨.none, .callWithinAllowance, List.replicate 32 0, []⟩,
    pass .dynamic, pass .static, pass .static]⟩

theorem prune_sampleOpenTuple :
    WellFormed sampleOpenTuple ∧ OpenMatch sampleOpenTuple ∧
      sampleOpenTuple.prune.remade = .ok ⟨.tuple, .matches, [],
        [pass .static, pass .dynamic, ⟨.none, .callWithinAllowance, List.replicate 32 0, []⟩]⟩ ∧
      RetainsLeast sampleOpenTuple [pass .static, pass .dynamic] := by
  have wf : WellFormed sampleOpenTuple := by decide +kernel
  have open_ : OpenMatch sampleOpenTuple := ⟨rfl, .inr (.inr ⟨rfl, by decide +kernel⟩)⟩
  have pruned : sampleOpenTuple.prune = ⟨.tuple, .matches, [], [pass .static, pass .dynamic] ++
      sampleOpenTuple.allowances⟩ := by decide +kernel
  obtain ⟨made, kept, -⟩ := prune_keeps_least wf
  obtain ⟨parts, least, found, -⟩ := kept open_
  have same : parts ++ sampleOpenTuple.allowances =
      [pass .static, pass .dynamic] ++ sampleOpenTuple.allowances :=
    congrArg Condition.children (found.symm.trans pruned)
  rw [List.append_cancel_right same] at least
  rw [pruned] at made
  exact ⟨wf, open_, made, least⟩

end Condition

end CallGuard
