import CallGuard.Canonical.Hinge
import Mathlib.Data.List.Forall2
import Mathlib.Data.Set.List

/-!
# Positions

The searches behind hinges, on lists. An only index is a place around which the list can be
split; two lists of one length with an only difference are the same list around different
elements; and lists of which any two differ only at one and the same position are all the same
list around pairwise different elements (`hingePosition?_eq_some_iff`).
-/

namespace CallGuard

/-! ### Only elements -/

section OnlyIndex

variable {α : Type} {p : α → Bool}

theorem indicesWhere_cons (x : α) (xs : List α) :
    indicesWhere p (x :: xs) =
      (if p x then [0] else []) ++ (indicesWhere p xs).map (· + 1) := by
  have later : ((xs.zipIdx 1).filter fun x => p x.1).map Prod.snd =
      (indicesWhere p xs).map (· + 1) := by
    rw [show 1 = 0 + 1 from rfl, List.zipIdx_succ, List.filter_map, List.map_map, indicesWhere,
      List.map_map]
    rfl
  simp only [indicesWhere, List.zipIdx_cons, List.filter_cons]
  split <;> simp [later, indicesWhere]

theorem indicesWhere_eq_nil_iff {xs : List α} : indicesWhere p xs = [] ↔ ∀ x ∈ xs, ¬ p x := by
  induction xs with
  | nil => simp [indicesWhere]
  | cons x xs ih => by_cases h : p x <;> simp [indicesWhere_cons, h, ih]

theorem onlyIndex?_eq_some_iff_indices {xs : List α} {i : Nat} :
    onlyIndex? p xs = some i ↔ indicesWhere p xs = [i] := by
  unfold onlyIndex?
  split
  · rename_i j found
    rw [found]
    simp
  · rename_i other
    exact ⟨nofun, fun h => absurd h (other i)⟩

/-- The list around the only element that satisfies `p`. -/
theorem onlyIndex?_eq_some_iff {xs : List α} {i : Nat} :
    onlyIndex? p xs = some i ↔ ∃ before x after, xs = before ++ x :: after ∧ before.length = i ∧
      p x ∧ (∀ y ∈ before, ¬ p y) ∧ ∀ y ∈ after, ¬ p y := by
  rw [onlyIndex?_eq_some_iff_indices]
  constructor
  · intro h
    induction xs generalizing i with
    | nil => cases h
    | cons x xs ih =>
      rw [indicesWhere_cons] at h
      by_cases here : p x
      · rw [if_pos here, List.singleton_append, List.cons.injEq, List.map_eq_nil_iff] at h
        exact ⟨[], x, xs, rfl, h.1, here, nofun, indicesWhere_eq_nil_iff.mp h.2⟩
      · rw [if_neg here, List.nil_append, List.map_eq_singleton_iff] at h
        obtain ⟨j, found, rfl⟩ := h
        obtain ⟨before, y, after, rfl, rfl, holds, none, none'⟩ := ih found
        refine ⟨x :: before, y, after, rfl, rfl, holds, fun z mem => ?_, none'⟩
        rcases List.mem_cons.mp mem with rfl | later
        · exact here
        · exact none z later
  · rintro ⟨before, x, after, rfl, rfl, holds, none, none'⟩
    induction before with
    | nil =>
      rw [List.nil_append, indicesWhere_cons, if_pos holds, indicesWhere_eq_nil_iff.mpr none']
      rfl
    | cons y before ih =>
      rw [List.cons_append, indicesWhere_cons, if_neg (none y List.mem_cons_self),
        ih fun z mem => none z (List.mem_cons_of_mem y mem)]
      rfl

end OnlyIndex

namespace Condition

/-! ### Only differences -/

theorem fst_eq_snd_of_mem_zip_self {α : Type} {a : List α} {p : α × α} (h : p ∈ a.zip a) :
    p.1 = p.2 := by
  induction a with
  | nil => cases h
  | cons x xs ih =>
    rcases List.mem_cons.mp h with rfl | later
    · rfl
    · exact ih later

theorem onlyDifference?_self (a : List ConditionId) : onlyDifference? a a = none := by
  cases h : onlyDifference? a a with
  | none => rfl
  | some i =>
    obtain ⟨before, x, after, split, -, differ, -⟩ := onlyIndex?_eq_some_iff.mp h
    have same := fst_eq_snd_of_mem_zip_self
      (split ▸ List.mem_append_right before List.mem_cons_self : x ∈ a.zip a)
    simp [same] at differ

/-- Two lists of one length that differ at one position are one list around two elements. -/
theorem onlyDifference?_eq_some_iff {a b : List ConditionId} {i : Nat}
    (same : a.length = b.length) :
    onlyDifference? a b = some i ↔ ∃ before x y after, a = before ++ x :: after ∧
      b = before ++ y :: after ∧ before.length = i ∧ x ≠ y := by
  unfold onlyDifference?
  rw [onlyIndex?_eq_some_iff]
  constructor
  · rintro ⟨before, ⟨x, y⟩, after, split, rfl, differ, agree, agree'⟩
    have left : a = (before ++ (x, y) :: after).map Prod.fst := by
      rw [← split, List.map_fst_zip (by omega)]
    have right : b = (before ++ (x, y) :: after).map Prod.snd := by
      rw [← split, List.map_snd_zip (by omega)]
    have equal {ps : List (ConditionId × ConditionId)} (h : ∀ p ∈ ps, ¬ (p.1 != p.2) = true) :
        ps.map Prod.fst = ps.map Prod.snd :=
      List.map_congr_left fun p mem => by simpa using h p mem
    refine ⟨before.map Prod.fst, x, y, after.map Prod.fst, by simp [left], ?_, by simp,
      by simpa using differ⟩
    rw [right, equal agree, equal agree']
    simp
  · rintro ⟨before, x, y, after, rfl, rfl, rfl, differ⟩
    refine ⟨before.zip before, (x, y), after.zip after, ?_, by simp, by simpa using differ, ?_, ?_⟩
    · rw [List.zip_append rfl]
      rfl
    all_goals
      intro p mem
      simpa using fst_eq_snd_of_mem_zip_self mem

/-! ### Hinges of rows -/

theorem forall_mem_pairDifferences {rows : List (List ConditionId)} {i : Nat} :
    (∀ o ∈ pairDifferences rows, o = some i) ↔
      rows.Pairwise fun a b => onlyDifference? a b = some i := by
  induction rows with
  | nil => simp [pairDifferences]
  | cons row rows ih =>
    simp only [pairDifferences, List.mem_append, or_imp, forall_and, List.pairwise_cons, ih,
      List.forall_mem_map]

theorem exists_eq_cons_cons {α : Type} {xs : List α} (h : 2 ≤ xs.length) :
    ∃ x y rest, xs = x :: y :: rest := by
  obtain ⟨x, rest, rfl⟩ := List.exists_cons_of_length_pos (by omega : 0 < xs.length)
  obtain ⟨y, rest, rfl⟩ := List.exists_cons_of_length_pos (Nat.le_of_succ_le_succ h)
  exact ⟨x, y, rest, rfl⟩

theorem exists_eq_singleton {α : Type} {xs : List α} (some : xs ≠ []) (few : ¬ 2 ≤ xs.length) :
    ∃ x, xs = [x] := by
  have := List.length_pos_of_ne_nil some
  exact List.length_eq_one_iff.mp (by omega)

theorem pairDifferences_eq_nil_iff {rows : List (List ConditionId)} :
    pairDifferences rows = [] ↔ rows.length < 2 := by
  match rows with
  | [] => simp [pairDifferences]
  | [_] => simp [pairDifferences]
  | _ :: _ :: _ => simp [pairDifferences]

theorem hingePosition?_eq_some_iff_pairwise {rows : List (List ConditionId)} {i : Nat} :
    hingePosition? rows = some i ↔
      2 ≤ rows.length ∧ rows.Pairwise fun a b => onlyDifference? a b = some i := by
  rw [← forall_mem_pairDifferences]
  have many : pairDifferences rows = [] ↔ rows.length < 2 := pairDifferences_eq_nil_iff
  unfold hingePosition?
  split
  · rename_i j others found
    rw [found] at many ⊢
    have long : 2 ≤ rows.length := by
      by_contra short
      cases many.mpr (by omega)
    simp only [List.forall_mem_cons, Option.some.injEq, long, true_and]
    by_cases agree : others.all (· == some j)
    · rw [if_pos agree, Option.some.injEq]
      simp only [List.all_eq_true, beq_iff_eq] at agree
      exact ⟨fun h => ⟨h, h ▸ agree⟩, And.left⟩
    · rw [if_neg agree]
      refine ⟨nofun, fun h => absurd ?_ agree⟩
      simp only [List.all_eq_true, beq_iff_eq]
      exact h.1 ▸ h.2
  · rename_i other
    refine ⟨nofun, fun ⟨long, h⟩ => ?_⟩
    cases found : pairDifferences rows with
    | nil => exact absurd (many.mp found) (by omega)
    | cons o others =>
      rw [h o (found ▸ List.mem_cons_self)] at found
      exact absurd found (other i others)

/-- **Rows with a hinge** are one list around pairwise different elements. -/
theorem hingePosition?_eq_some_iff {rows : List (List ConditionId)} {i : Nat}
    (same : ∀ a ∈ rows, ∀ b ∈ rows, a.length = b.length) :
    hingePosition? rows = some i ↔ 2 ≤ rows.length ∧ ∃ before after,
      ∃ xs : List ConditionId, rows = xs.map (fun x => before ++ x :: after) ∧ before.length = i ∧
        xs.Nodup := by
  rw [hingePosition?_eq_some_iff_pairwise]
  refine and_congr_right fun long => ?_
  constructor
  · intro pairs
    obtain ⟨first, second, rest, rfl⟩ := exists_eq_cons_cons long
    have differ := fun row mem => (onlyDifference?_eq_some_iff
      (same first List.mem_cons_self row (List.mem_cons_of_mem first mem))).mp
      (List.rel_of_pairwise_cons pairs mem)
    obtain ⟨before, x, y, after, split, -, len, -⟩ := differ second List.mem_cons_self
    -- every row splits where the first does
    have around : ∀ row ∈ first :: second :: rest, ∃ z, before ++ z :: after = row := by
      intro row mem
      rcases List.mem_cons.mp mem with rfl | later
      · exact ⟨x, split.symm⟩
      · obtain ⟨before', x', z, after', split', rfl, len', -⟩ := differ row later
        obtain ⟨rfl, eq⟩ := List.append_inj (split ▸ split') (len.trans len'.symm)
        exact ⟨z, by rw [(List.cons.inj eq).2]⟩
    obtain ⟨xs, eq⟩ : first :: second :: rest ∈
        Set.range (List.map fun z => before ++ z :: after) := by
      rw [Set.range_list_map]
      exact around
    refine ⟨before, after, xs, eq.symm, len, ?_⟩
    rw [← eq, List.pairwise_map] at pairs
    refine pairs.imp fun {a b} h equal => ?_
    rw [equal, onlyDifference?_self] at h
    cases h
  · rintro ⟨before, after, xs, rfl, rfl, distinct⟩
    rw [List.pairwise_map]
    refine distinct.imp fun {a b} differ => ?_
    rw [onlyDifference?_eq_some_iff (by simp)]
    exact ⟨before, a, b, after, rfl, rfl, rfl, differ⟩

/-! ### Shared ids -/

theorem mem_sharedIds {rows : List (List ConditionId)} (some : rows ≠ []) {key : ConditionId} :
    key ∈ sharedIds rows ↔ ∀ row ∈ rows, key ∈ row := by
  obtain ⟨row, rows, rfl⟩ := List.exists_cons_of_ne_nil some
  simp [sharedIds]

end Condition

end CallGuard
