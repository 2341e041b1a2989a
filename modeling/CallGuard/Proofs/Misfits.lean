import CallGuard.Proofs.Layout

/-!
# Nodes that do not fit

Whether nodes make a tree shows when they are put together, from the last to the first. A node fits
if its operator goes with the number of nodes that name it as their parent (`Fits`). What waits for
its parent while nodes are put together are the nodes whose parent is still to come
(`map_fst_of_assemble`), so that a node gets as many children as name it (`length_children`), and
the last node that does not fit is what the bytes are refused for (`Laid.unpack_eq_error_iff`). So
bytes are refused as malformed exactly if they lay out nodes of which one does not fit
(`exists_malformed_iff`).
-/

namespace CallGuard

open Condition

namespace Packed

/-! ### Single nodes -/

/-- How an operator does not go with a number of children. -/
def misfit? (op : Operator) (children : Nat) : Option ShapeFault :=
  match op.requiresChildren, children with
  | true, 0 => some .noChildren
  | false, n + 1 => some (.childrenOnLeaf (n + 1))
  | _, _ => none

/-- An operator goes with a number of children unless it is that of a leaf and there are some, or
it requires children and there are none. -/
theorem misfit?_eq_none_iff {op : Operator} {n : Nat} : misfit? op n = none ↔
    ¬ (op.requiresChildren = false ∧ 0 < n ∨ op.requiresChildren ∧ n = 0) := by
  unfold misfit?
  cases op.requiresChildren <;> cases n <;> simp

/-- A node without an operand beside its children is refused for its number of children only. -/
theorem shapeFault?_eq_misfit? {op : Operator} {operand : Bytes} {children : List Condition}
    (bare : children ≠ [] → operand = []) :
    shapeFault? op operand children = misfit? op children.length := by
  unfold shapeFault? misfit?
  cases children with
  | nil => cases op.requiresChildren <;> rfl
  | cons d ds =>
    rw [bare (List.cons_ne_nil d ds)]
    cases op.requiresChildren <;> rfl

/-- A node that is given a number of children is made if it fits, and refused otherwise. -/
theorem make_outcome (p : ParamType) (op : Operator) {operand : Bytes}
    {children : List Condition} {n : Nat} (count : children.length = n)
    (bare : 0 < n → operand = []) :
    ((∃ c, make p op operand children = .ok c) ↔ misfit? op n = none) ∧
    ∀ e, make p op operand children = .error e ↔
      ∃ fault, misfit? op n = some fault ∧ e = .malformed op fault := by
  subst count
  rw [make, shapeFault?_eq_misfit? fun some => bare (List.length_pos_of_ne_nil some)]
  cases misfit? op children.length with
  | none => simp
  | some fault => simp [eq_comm]

/-- The node with an index fits among nodes that name the given parents. -/
def Fits (ps : List Nat) (i : Nat) (h : Header) : Prop :=
  misfit? h.operator (ps.count i) = none

/-- The error for the last node that does not fit, of those from the one with an index on. -/
inductive LastMisfit (ps : List Nat) : (index : Nat) → List Header → Error → Prop where
  /-- A node that does not fit, when all nodes after it do. -/
  | here {index : Nat} {h : Header} {later : List Header} {fault : ShapeFault}
    (misfit : misfit? h.operator (ps.count index) = some fault)
    (fit : EachFrom (Fits ps) (index + 1) later) :
    LastMisfit ps index (h :: later) (.malformed h.operator fault)
  /-- The last such node after a node. -/
  | later {index : Nat} {h : Header} {hs : List Header} {e : Error}
    (found : LastMisfit ps (index + 1) hs e) : LastMisfit ps index (h :: hs) e

theorem lastMisfit_cons_iff {ps : List Nat} {index : Nat} {h : Header} {hs : List Header}
    {e : Error} : LastMisfit ps index (h :: hs) e ↔ LastMisfit ps (index + 1) hs e ∨
      EachFrom (Fits ps) (index + 1) hs ∧
        ∃ fault, misfit? h.operator (ps.count index) = some fault ∧
          e = .malformed h.operator fault := by
  constructor
  · intro found
    cases found with
    | here misfit fit => exact .inr ⟨fit, _, misfit, rfl⟩
    | later found => exact .inl found
  · rintro (found | ⟨fit, fault, misfit, rfl⟩)
    · exact .later found
    · exact .here misfit fit

/-! ### Putting together -/

/-- The parents that entries name. -/
def entryParents (entries : List (Header × Bytes)) : List Nat :=
  entries.map fun e => e.1.parent

section Assemble

variable {index : Nat} {entries : List (Header × Bytes)} {ws : List Waiting}

/-- **What waits** are the trees of the nodes whose parent is still to come, in order. -/
theorem map_fst_of_assemble (valid : EachFrom (fun i e => e.1.parent < i) index entries)
    (put : assemble index entries = .ok ws) :
    ws.map Prod.fst = (entryParents entries).filter (· < index) := by
  induction entries generalizing index ws with
  | nil =>
    cases put
    rfl
  | cons first later ih =>
    obtain ⟨early, validLater⟩ := eachFrom_cons.mp valid
    obtain ⟨waiting, putLater, put⟩ := bind_eq_ok_iff.mp put
    obtain ⟨node, -, put⟩ := bind_eq_ok_iff.mp put
    cases put
    have others : (waiting.filter (·.1 != index)).map Prod.fst =
        (waiting.map Prod.fst).filter (· != index) := by
      rw [List.filter_map]
      rfl
    have rest : ((entryParents later).filter (· < index + 1)).filter (· != index) =
        (entryParents later).filter (· < index) := by
      rw [List.filter_filter]
      refine List.filter_congr fun p _ => ?_
      rw [Bool.eq_iff_iff]
      simp only [Bool.and_eq_true, bne_iff_ne, decide_eq_true_eq]
      omega
    have kept : (entryParents (first :: later)).filter (· < index) =
        first.1.parent :: (entryParents later).filter (· < index) :=
      List.filter_cons_of_pos (by simpa using early)
    rw [List.map_cons, others, ih validLater putLater, rest, kept]

/-- A node gets as many children as name it. -/
theorem length_children (valid : EachFrom (fun i e => e.1.parent < i) (index + 1) entries)
    (put : assemble (index + 1) entries = .ok ws) :
    ((ws.filter (·.1 == index)).map Prod.snd).length = (entryParents entries).count index := by
  have named : (ws.filter (·.1 == index)).length = (ws.map Prod.fst).count index := by
    rw [← List.countP_eq_length_filter, List.count, List.countP_map]
    rfl
  rw [List.length_map, named, map_fst_of_assemble valid put, List.count_filter (by simp)]

/-- All that waits when only the root is left is for the root. -/
theorem filter_root (valid : EachFrom (fun i e => e.1.parent < i) 1 entries)
    (put : assemble 1 entries = .ok ws) : ws.filter (·.1 == 0) = ws := by
  refine List.filter_eq_self.mpr fun w mem => ?_
  have waits := map_fst_of_assemble valid put ▸ List.mem_map_of_mem mem
  simpa using (List.mem_filter.mp waits).2

/-- Behind trees that are put together, a node is made of some of them if it fits. -/
theorem put_outcome {α : Type} {x : Except Error (List Waiting)} (p : ParamType) (op : Operator)
    {operand : Bytes} {children : List Waiting → List Condition} {n : Nat}
    (result : List Waiting → Condition → α)
    (count : ∀ ws, x = .ok ws → (children ws).length = n) (bare : 0 < n → operand = []) :
    ((∃ a, (x >>= fun ws => make p op operand (children ws) >>= fun c => .ok (result ws c)) =
      .ok a) ↔ misfit? op n = none ∧ ∃ ws, x = .ok ws) ∧
    ∀ e, (x >>= fun ws => make p op operand (children ws) >>= fun c => .ok (result ws c)) =
      .error e ↔ x = .error e ∨
        (∃ ws, x = .ok ws) ∧ ∃ fault, misfit? op n = some fault ∧ e = .malformed op fault := by
  cases x with
  | error e => simp [error_bind]
  | ok ws =>
    obtain ⟨ok, error⟩ := make_outcome p op (count ws rfl) bare
    rw [ok_bind]
    constructor
    · rw [← ok]
      constructor
      · rintro ⟨a, h⟩
        obtain ⟨c, made, -⟩ := bind_eq_ok_iff.mp h
        exact ⟨⟨c, made⟩, ws, rfl⟩
      · rintro ⟨⟨c, made⟩, -⟩
        exact ⟨_, bind_eq_ok_iff.mpr ⟨c, made, rfl⟩⟩
    · intro e
      rw [← error, bind_eq_error_iff]
      simp

/-- **Nodes are put together** if all of them fit, and are refused for the last that does not. -/
theorem assemble_outcome {ps : List Nat}
    (valid : EachFrom (fun i e => e.1.parent < i) index entries)
    (named : ∀ i, index ≤ i → ps.count i = (entryParents entries).count i)
    (bare : EachFrom (fun i e => 0 < ps.count i → e.2 = []) index entries) :
    ((∃ ws, assemble index entries = .ok ws) ↔
      EachFrom (Fits ps) index (entries.map Prod.fst)) ∧
    ∀ e, assemble index entries = .error e ↔ LastMisfit ps index (entries.map Prod.fst) e := by
  induction entries generalizing index with
  | nil => exact ⟨⟨fun _ => eachFrom_nil, fun _ => ⟨[], rfl⟩⟩, fun e => ⟨nofun, nofun⟩⟩
  | cons first later ih =>
    obtain ⟨early, validLater⟩ := eachFrom_cons.mp valid
    obtain ⟨bareFirst, bareLater⟩ := eachFrom_cons.mp bare
    have namedLater (i : Nat) (behind : index ≤ i) :
        ps.count i = (entryParents later).count i := by
      rw [named i behind, entryParents, List.map_cons, List.count_cons_of_ne (by omega)]
      rfl
    obtain ⟨ok, error⟩ := ih validLater (fun i behind => namedLater i (by omega)) bareLater
    obtain ⟨madeOk, madeError⟩ := put_outcome first.1.paramType first.1.operator
      (fun ws c => (first.1.parent, c) :: ws.filter (·.1 != index))
      (fun ws put => (length_children validLater put).trans
        (namedLater index (Nat.le_refl _)).symm) bareFirst
    rw [List.map_cons, eachFrom_cons, ← ok]
    refine ⟨madeOk, fun e => ?_⟩
    rw [lastMisfit_cons_iff, ← error, ← ok]
    exact madeError e

end Assemble

/-! ### Laid out nodes -/

/-- The root is made like every other node: all that still waits is for it. -/
theorem root_outcome {first : Header × Bytes} {later : List (Header × Bytes)}
    (valid : EachFrom (fun i e => e.1.parent < i) 1 later)
    (bare : EachFrom (fun i e => 0 < (entryParents later).count i → e.2 = []) 0
      (first :: later)) (e : Error) :
    root first later = .error e ↔
      LastMisfit (entryParents later) 0 ((first :: later).map Prod.fst) e := by
  obtain ⟨bareFirst, bareLater⟩ := eachFrom_cons.mp bare
  obtain ⟨ok, error⟩ := assemble_outcome valid (fun _ _ => rfl) bareLater
  have children (ws : List Waiting) (put : assemble 1 later = .ok ws) :
      (ws.map Prod.snd).length = (entryParents later).count 0 := by
    rw [← length_children valid put, filter_root valid put]
  have step : root first later = assemble 1 later >>= fun ws =>
      make first.1.paramType first.1.operator first.2 (ws.map Prod.snd) >>= fun c => .ok c :=
    bind_congr fun _ => (bind_pure _).symm
  rw [step, (put_outcome _ _ (fun _ c => c) children bareFirst).2 e, error, ok, List.map_cons,
    lastMisfit_cons_iff]

theorem namedParents_map_fst (first : Header × Bytes) (later : List (Header × Bytes)) :
    namedParents ((first :: later).map Prod.fst) = entryParents later := by
  rw [entryParents, namedParents, List.map_cons, List.tail_cons, List.map_map]
  rfl

/-- **What laid out nodes are refused for** is the last of them that does not fit. -/
theorem Laid.unpack_eq_error_iff {bytes : Bytes} {hs : List Header} {os : List Bytes}
    (laid : Laid bytes hs os) (e : Error) :
    unpack bytes = .error e ↔ LastMisfit (namedParents hs) 0 hs e := by
  obtain ⟨first, later, entries, rfl, rfl⟩ := exists_entries laid.some laid.each
  have bare := laid.operands
  rw [eachFrom_map, namedParents_map_fst] at bare
  have valid := (parents_of_entries laid.parents).2
  rw [laid.unpack_eq entries, root_outcome valid (fun i e found some => ?_) e, namedParents_map_fst]
  have parent : (entryParents later).contains (0 + i) :=
    List.contains_iff_mem.mpr (List.count_pos_iff.mp some)
  simpa only [OperandAt, if_pos parent] using bare i e found

theorem exists_lastMisfit_iff {ps : List Nat} {index : Nat} {hs : List Header} :
    (∃ e, LastMisfit ps index hs e) ↔ ¬ EachFrom (Fits ps) index hs := by
  induction hs generalizing index with
  | nil => exact ⟨nofun, fun none => absurd eachFrom_nil none⟩
  | cons h hs ih =>
    rw [eachFrom_cons]
    constructor
    · rintro ⟨e, found⟩ ⟨fits, fit⟩
      rcases lastMisfit_cons_iff.mp found with found | ⟨-, fault, misfit, -⟩
      · exact ih.mp ⟨e, found⟩ fit
      · exact absurd (fits.symm.trans misfit) nofun
    · intro misfits
      by_cases fit : EachFrom (Fits ps) (index + 1) hs
      · cases misfit : misfit? h.operator (ps.count index) with
        | none => exact absurd ⟨misfit, fit⟩ misfits
        | some fault => exact ⟨_, .here misfit fit⟩
      · obtain ⟨e, found⟩ := ih.mpr fit
        exact ⟨e, .later found⟩

/-- The last node that does not fit is refused as malformed. -/
theorem LastMisfit.malformed {ps : List Nat} {index : Nat} {hs : List Header} {e : Error}
    (h : LastMisfit ps index hs e) : ∃ op fault, e = .malformed op fault := by
  induction h with
  | here misfit fit => exact ⟨_, _, rfl⟩
  | later found ih => exact ih

/-- **Bytes are refused as malformed** exactly if they lay out nodes, one of which has children
under the operator of a leaf, or none under an operator that requires them. -/
theorem exists_malformed_iff {bytes : Bytes} :
    (∃ op fault, unpack bytes = .error (.malformed op fault)) ↔
      ∃ hs os, Laid bytes hs os ∧ ∃ i h, hs[i]? = some h ∧
        (h.operator.requiresChildren = false ∧ 0 < childCount hs i ∨
          h.operator.requiresChildren ∧ childCount hs i = 0) := by
  have misfits (hs : List Header) : (∃ e, LastMisfit (namedParents hs) 0 hs e) ↔
      ∃ i h, hs[i]? = some h ∧ (h.operator.requiresChildren = false ∧ 0 < childCount hs i ∨
        h.operator.requiresChildren ∧ childCount hs i = 0) := by
    simp only [exists_lastMisfit_iff, EachFrom, Fits, misfit?_eq_none_iff, not_forall, not_not,
      Nat.zero_add, childCount, exists_prop]
  simp only [← misfits]
  constructor
  · rintro ⟨op, fault, refused⟩
    rcases exists_laid_or_encoding bytes with ⟨hs, os, laid⟩ | ⟨_, encoding⟩
    · exact ⟨hs, os, laid, _, (laid.unpack_eq_error_iff _).mp refused⟩
    · rw [encoding] at refused
      cases refused
  · rintro ⟨hs, os, laid, e, found⟩
    obtain ⟨op, fault, rfl⟩ := found.malformed
    exact ⟨op, fault, (laid.unpack_eq_error_iff _).mpr found⟩

end Packed

end CallGuard
