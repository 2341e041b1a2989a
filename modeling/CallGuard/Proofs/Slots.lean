import CallGuard.Proofs.Misfits

/-!
# Unpacking over tables

Nodes can be put together in tables with a place for each of them: the indices of a node's children,
its operand, and the node itself once it is made. Operands and nodes stand in slots, out of which
they are taken where they are used. Over tables more can go wrong than with what waits in order: a
place may lie outside a table, a node may have been taken for another parent, and the slot of the
root may be empty. `Alike` says of steps over tables that they do what steps of reading do, and so
that none of this happens; it is handed on from step to step (`Alike.bind`), and what carries it
through putting together is that the slots behind a node hold the trees that wait, and no others
(`Waits`).
-/

namespace CallGuard

open Condition

namespace Packed

namespace Slots

/-! ### Tables -/

/-- How unpacking over tables ends without a tree. -/
inductive Fault where
  /-- The bytes are refused. -/
  | refused (error : Error)
  /-- A place lies outside a table, or a length below zero. -/
  | outOfRange
  /-- A child has been taken out of its slot before. -/
  | takenTwice (index : Nat)
  /-- The slot of the root is empty. -/
  | noRoot

/-- A step that knows of no tables. -/
def plain {α : Type} (x : Except Error α) : Except Fault α :=
  x.mapError .refused

/-- What stands at a place. -/
def look {α : Type} (xs : List α) (i : Nat) : Except Fault α :=
  match xs[i]? with
  | some x => .ok x
  | none => .error .outOfRange

/-- The table with something else at a place. -/
def put {α : Type} (xs : List α) (i : Nat) (x : α) : Except Fault (List α) :=
  if i < xs.length then .ok (xs.set i x) else .error .outOfRange

/-- What stands in a slot, and the slots with that one empty. -/
def takeOut {α : Type} (slots : List (Option α)) (i : Nat) :
    Except Fault (Option α × List (Option α)) := do
  let found ← look slots i
  let left ← put slots i none
  .ok (found, left)

/-! ### Reading -/

/-- Bytes, and the place that reading has come to. -/
structure Reader where
  /-- All bytes. -/
  bytes : Bytes
  /-- The place of the next byte. -/
  offset : Nat

/-- The next `n` bytes. -/
def take (n : Nat) (r : Reader) : Except Fault (Bytes × Reader) :=
  if r.offset + n ≤ r.bytes.length then
    .ok ((r.bytes.drop r.offset).take n, ⟨r.bytes, r.offset + n⟩)
  else .error (.refused (.encoding (.endOfBytes r.offset)))

/-- The next byte. -/
def byte (r : Reader) : Except Fault (UInt8 × Reader) := do
  let (front, r) ← take 1 r
  let b ← look front 0
  .ok (b, r)

/-- The number in the next two bytes. -/
def word (r : Reader) : Except Fault (Nat × Reader) := do
  let (front, r) ← take 2 r
  let high ← look front 0
  let low ← look front 1
  .ok (256 * high.toNat + low.toNat, r)

/-- The headers of `n` nodes from the one with an index on. -/
def headers : (n index : Nat) → Reader → Except Fault (List Header × Reader)
  | 0, _, r => .ok ([], r)
  | n + 1, index, r => do
    let (parent, r) ← byte r
    let (code, r) ← byte r
    let first ← plain (headerOf index parent.toNat code)
    let (others, r) ← headers n (index + 1) r
    .ok (first :: others, r)

/-- The indices of the children of each node, when those of the nodes from the one with an index on
are added. -/
def noteChildren : (index : Nat) → List Header → (rows : List (List Nat)) →
    Except Fault (List (List Nat))
  | _, [], rows => .ok rows
  | index, h :: hs, rows => do
    let row ← look rows h.parent
    let rows ← put rows h.parent (row ++ [index])
    noteChildren (index + 1) hs rows

/-- The slots of the operands, when those of the nodes from the one with an index on are read into
them. A node with children has none. -/
def fillOperands : (index : Nat) → (rows : List (List Nat)) → (slots : List (Option Bytes)) →
    Reader → Except Fault (List (Option Bytes) × Reader)
  | _, [], slots, r => .ok (slots, r)
  | index, row :: rows, slots, r => do
    if row.isEmpty then
      let (length, r) ← word r
      let (operand, r) ← take length r
      let slots ← put slots index (some operand)
      fillOperands (index + 1) rows slots r
    else fillOperands (index + 1) rows slots r

/-- Nothing may be left over. -/
def atEnd (r : Reader) : Except Fault Unit :=
  if r.offset = r.bytes.length then .ok ()
  else if r.offset ≤ r.bytes.length then
    .error (.refused (.encoding (.trailingBytes (r.bytes.length - r.offset))))
  else .error .outOfRange

/-! ### Putting together -/

/-- The slots of the operands and of the nodes. -/
structure Tables where
  /-- The operands that have not been used. -/
  operands : List (Option Bytes)
  /-- The nodes that have been made and have no parent yet. -/
  built : List (Option Condition)

/-- The nodes that stand at some places, out of their slots. -/
def takeNodes : (row : List Nat) → (built : List (Option Condition)) →
    Except Fault (List Condition × List (Option Condition))
  | [], built => .ok ([], built)
  | i :: row, built => do
    match ← takeOut built i with
    | (none, _) => .error (.takenTwice i)
    | (some node, built) =>
      let (others, built) ← takeNodes row built
      .ok (node :: others, built)

/-- The node with an index is made of its operand and its children. -/
def build (hs : List Header) (rows : List (List Nat)) (index : Nat) (t : Tables) :
    Except Fault Tables := do
  let h ← look hs index
  let row ← look rows index
  let (children, built) ← takeNodes row t.built
  let (operand, operands) ← takeOut t.operands index
  let node ← plain (make h.paramType h.operator (operand.getD []) children)
  let built ← put built index (some node)
  .ok ⟨operands, built⟩

/-- The tree at the place of the root, when `n` nodes have been made from the last to the first. -/
def assemble (n : Nat) (hs : List Header) (rows : List (List Nat))
    (operands : List (Option Bytes)) : Except Fault Condition := do
  let t ← (List.range n).foldrM (build hs rows) ⟨operands, List.replicate n none⟩
  match ← takeOut t.built 0 with
  | (none, _) => .error .noRoot
  | (some c, _) => .ok c

/-- The tree that a packed form holds, unpacked over tables. -/
def unpack (bytes : Bytes) : Except Fault Condition := do
  let (count, r) ← byte ⟨bytes, 0⟩
  if count = 0 then .error (.refused (.encoding .noNodes))
  else
    let n := count.toNat
    let (hs, r) ← headers n 0 r
    let rows ← noteChildren 1 hs.tail (List.replicate n [])
    let (operands, r) ← fillOperands 0 rows (List.replicate n none) r
    atEnd r
    assemble n hs rows operands

/-! ### Steps that do the same -/

/-- A step over tables ends as a step of reading does, with results that go together. -/
inductive Alike {α β : Type} (R : α → β → Prop) : Except Fault α → Except Error β → Prop where
  /-- Both have a result. -/
  | ok {a : α} {b : β} (related : R a b) : Alike R (.ok a) (.ok b)
  /-- Both refuse the bytes for the same reason. -/
  | refused (e : Error) : Alike R (.error (.refused e)) (.error e)

section Alike

variable {α β γ δ : Type} {R : α → β → Prop} {S : γ → δ → Prop} {x : Except Fault α}
  {y : Except Error β}

/-- **Steps that do the same** are followed by steps that do the same. -/
theorem Alike.bind {next : α → Except Fault γ} {next' : β → Except Error δ} (h : Alike R x y)
    (then_ : ∀ a b, y = .ok b → R a b → Alike S (next a) (next' b)) :
    Alike S (x >>= next) (y >>= next') := by
  cases h with
  | ok related => exact then_ _ _ rfl related
  | refused e => exact .refused e

theorem Alike.map {T : α → δ → Prop} {f : β → δ} (h : Alike R x y)
    (imp : ∀ a b, R a b → T a (f b)) : Alike T x (y >>= fun b => .ok (f b)) := by
  cases h with
  | ok related => exact .ok (imp _ _ related)
  | refused e => exact .refused e

/-- A step that has a result after another adds nothing that could go wrong. -/
theorem Alike.bind_ok {T : γ → β → Prop} {next : α → Except Fault γ} (h : Alike R x y)
    (goes : ∀ a b, R a b → ∃ c, next a = .ok c ∧ T c b) : Alike T (x >>= next) y := by
  cases h with
  | ok related =>
    obtain ⟨c, result, related⟩ := goes _ _ related
    rw [ok_bind, result]
    exact .ok related
  | refused e => exact .refused e

theorem alike_plain (y : Except Error β) : Alike Eq (plain y) y := by
  cases y with
  | ok b => exact .ok rfl
  | error e => exact .refused e

theorem Alike.eq_mapError {x : Except Fault β} (h : Alike Eq x y) : x = y.mapError .refused := by
  cases h with
  | ok related => exact congrArg Except.ok related
  | refused e => rfl

end Alike

/-! ### Places in tables -/

section Places

variable {α : Type} {front back : List α} {i : Nat}

theorem look_of_getElem? {xs : List α} {x : α} (h : xs[i]? = some x) : look xs i = .ok x := by
  rw [look, h]

theorem place_concat (x : α) (place : front.length = i) : (front ++ [x]).length = i + 1 := by
  rw [List.length_append, List.length_singleton, place]

theorem put_append (x y : α) (place : front.length = i) :
    put (front ++ x :: back) i y = .ok (front ++ y :: back) := by
  subst place
  simp [put]

theorem takeOut_of_getElem? {slots : List (Option α)} {found : Option α}
    (h : slots[i]? = some found) : takeOut slots i = .ok (found, slots.set i none) := by
  rw [takeOut, look_of_getElem? h, ok_bind, put, if_pos (List.getElem?_eq_some_iff.mp h).1]
  rfl

theorem takeOut_append {front back : List (Option α)} (x : Option α) (place : front.length = i) :
    takeOut (front ++ x :: back) i = .ok (x, front ++ none :: back) := by
  subst place
  rw [takeOut_of_getElem? (by simp : _ = some x)]
  simp

end Places

/-! ### Reading alike -/

/-- A reader that has come to where a cursor is. -/
structure Follows (r : Reader) (c : Cursor) : Prop where
  /-- Both have read as much. -/
  offset : r.offset = c.offset
  /-- The cursor has before it what the reader has not read. -/
  rest : c.rest = r.bytes.drop r.offset
  /-- The reader has not come past the end. -/
  inside : r.offset ≤ r.bytes.length

/-- Results that go together, with a reader that follows a cursor. -/
def Read {α β : Type} (R : α → β → Prop) (a : α × Reader) (b : β × Cursor) : Prop :=
  R a.1 b.1 ∧ Follows a.2 b.2

section Reading

variable {r : Reader} {c : Cursor}

theorem alike_take (n : Nat) (follows : Follows r c) :
    Alike (Read fun a b => a = b ∧ a.length = n) (take n r) (Packed.take n c) := by
  obtain ⟨offset, rest, inside⟩ := follows
  have enough : n ≤ c.rest.length ↔ r.offset + n ≤ r.bytes.length := by
    rw [rest, List.length_drop]
    omega
  unfold take Packed.take
  by_cases fits : r.offset + n ≤ r.bytes.length
  · rw [if_pos fits, if_pos (enough.mpr fits), rest, List.drop_drop, ← offset]
    refine .ok ⟨⟨rfl, List.length_take_of_le ?_⟩, rfl, rfl, fits⟩
    rw [← rest]
    exact enough.mpr fits
  · rw [if_neg fits, if_neg fun some => fits (enough.mp some), offset]
    exact .refused _

theorem alike_byte (follows : Follows r c) :
    Alike (Read fun b n => n = b.toNat) (byte r) (number 1 c) := by
  refine (alike_take 1 follows).bind ?_
  rintro ⟨front, _⟩ ⟨_, _⟩ _ ⟨⟨same, length⟩, follows⟩
  cases same
  obtain ⟨b, rfl⟩ := List.length_eq_one_iff.mp length
  exact .ok ⟨by simp [ofBigEndian], follows⟩

theorem alike_word (follows : Follows r c) : Alike (Read Eq) (word r) (number 2 c) := by
  refine (alike_take 2 follows).bind ?_
  rintro ⟨front, _⟩ ⟨_, _⟩ _ ⟨⟨same, length⟩, follows⟩
  cases same
  obtain ⟨high, low, rfl⟩ := List.length_eq_two.mp length
  exact .ok ⟨by simp [ofBigEndian], follows⟩

theorem alike_headers (n index : Nat) (follows : Follows r c) :
    Alike (Read Eq) (headers n index r) (Packed.headers n index c) := by
  induction n generalizing index r c with
  | zero => exact .ok ⟨rfl, follows⟩
  | succ n ih =>
    refine (alike_byte follows).bind ?_
    rintro ⟨parent, _⟩ ⟨p, _⟩ _ ⟨same, follows⟩
    obtain rfl : p = parent.toNat := same
    refine (alike_byte follows).bind ?_
    rintro ⟨code, _⟩ ⟨k, _⟩ _ ⟨same, follows⟩
    obtain rfl : k = code.toNat := same
    dsimp only
    rw [UInt8.ofNat_toNat]
    refine (alike_plain _).bind fun first _ _ same => ?_
    cases same
    refine (ih (index + 1) follows).bind ?_
    rintro ⟨others, _⟩ ⟨_, _⟩ _ ⟨same, follows⟩
    cases same
    exact .ok ⟨rfl, follows⟩

/-- Operands are read for the same nodes, into slots of their own. -/
theorem alike_fillOperands {ps : List Nat} {rows : List (List Nat)} {index : Nat}
    (leaves : EachFrom (fun i row => row.isEmpty = !ps.contains i) index rows)
    (front : List (Option Bytes)) (place : front.length = index) (follows : Follows r c) :
    Alike (Read fun slots os => slots.map (·.getD []) = front.map (·.getD []) ++ os)
      (fillOperands index rows (front ++ List.replicate rows.length none) r)
      (operands ps rows.length index c) := by
  induction rows generalizing index front r c with
  | nil => exact .ok ⟨by simp, follows⟩
  | cons row rows ih =>
    obtain ⟨leaf, later⟩ := eachFrom_cons.mp leaves
    -- the slots behind stay as they are, whatever is put into this one
    have filled (x : Option Bytes) {r : Reader} {c : Cursor} (follows : Follows r c) :
        Alike (Read fun slots os => slots.map (·.getD []) = front.map (·.getD []) ++ os)
          (fillOperands (index + 1) rows (front ++ x :: List.replicate rows.length none) r)
          (operands ps rows.length (index + 1) c >>= fun b => .ok (x.getD [] :: b.1, b.2)) := by
      have others := ih later (front ++ [x]) (place_concat x place) follows
      rw [List.append_assoc] at others
      refine others.map ?_
      rintro slots os ⟨same, follows⟩
      exact ⟨by simpa using same, follows⟩
    rw [List.length_cons, fillOperands, operands, List.replicate_succ, leaf]
    cases parent : ps.contains index with
    | true =>
      rw [Bool.not_true, if_neg Bool.false_ne_true, if_pos rfl]
      exact filled none follows
    | false =>
      rw [Bool.not_false, if_pos rfl, if_neg Bool.false_ne_true]
      refine (alike_word follows).bind ?_
      rintro ⟨length, _⟩ ⟨_, _⟩ _ ⟨same, follows⟩
      cases same
      refine (alike_take length follows).bind ?_
      rintro ⟨operand, _⟩ ⟨_, _⟩ _ ⟨⟨same, _⟩, follows⟩
      cases same
      dsimp only
      rw [put_append none (some operand) place, ok_bind]
      exact filled (some operand) follows

end Reading

/-! ### Children -/

/-- The indices, from some index on, at which a parent is named. -/
def places (q : Nat) : (index : Nat) → (ps : List Nat) → List Nat
  | _, [] => []
  | index, p :: ps =>
    if p = q then index :: places q (index + 1) ps else places q (index + 1) ps

theorem places_cons_of_ne {p q index : Nat} (other : p ≠ q) (ps : List Nat) :
    places q index (p :: ps) = places q (index + 1) ps :=
  if_neg other

theorem places_cons_self (q index : Nat) (ps : List Nat) :
    places q index (q :: ps) = index :: places q (index + 1) ps :=
  if_pos rfl

/-- A node is named nowhere exactly if it is no parent. -/
theorem isEmpty_places (q index : Nat) (ps : List Nat) :
    (places q index ps).isEmpty = !ps.contains q := by
  induction ps generalizing index with
  | nil => rfl
  | cons p ps ih =>
    by_cases same : p = q
    · subst same
      rw [places_cons_self]
      simp
    · rw [places_cons_of_ne same, ih]
      simp [Ne.symm same]

/-- **The children of a node** are noted where they name it. -/
theorem noteChildren_map (index : Nat) (rows : Nat → List Nat) {n : Nat} {hs : List Header}
    (known : ∀ h ∈ hs, h.parent < n) :
    noteChildren index hs ((List.range n).map rows) =
      .ok ((List.range n).map fun q => rows q ++ places q index (hs.map Header.parent)) := by
  induction hs generalizing index rows with
  | nil => simp [noteChildren, places]
  | cons h hs ih =>
    obtain ⟨here, later⟩ := List.forall_mem_cons.mp known
    have noted : ((List.range n).map rows).set h.parent (rows h.parent ++ [index]) =
        (List.range n).map fun q => if h.parent = q then rows q ++ [index] else rows q := by
      refine List.ext_getElem (by simp) fun q _ _ => ?_
      rw [List.getElem_set, List.getElem_map, List.getElem_map, List.getElem_range]
      by_cases same : h.parent = q
      · rw [if_pos same, if_pos same, same]
      · rw [if_neg same, if_neg same]
    have row : ((List.range n).map rows)[h.parent]? = some (rows h.parent) := by simp [here]
    rw [noteChildren, look_of_getElem? row, ok_bind, put, if_pos (by simpa using here), ok_bind,
      noted, ih _ _ later]
    refine congrArg Except.ok (List.map_congr_left fun q _ => ?_)
    rw [List.map_cons, places]
    split <;> simp

/-- The indices of the children of each node. -/
def childTable (hs : List Header) : List (List Nat) :=
  (List.range hs.length).map fun q => places q 1 (namedParents hs)

/-- **All children are noted** if the headers name nodes only. -/
theorem noteChildren_tail {hs : List Header} (known : ∀ h ∈ hs.tail, h.parent < hs.length) :
    noteChildren 1 hs.tail (List.replicate hs.length []) = .ok (childTable hs) := by
  have noted := noteChildren_map 1 (fun _ => []) known
  rwa [List.map_const', List.length_range] at noted

theorem length_childTable (hs : List Header) : (childTable hs).length = hs.length := by
  rw [childTable, List.length_map, List.length_range]

theorem getElem?_childTable {hs : List Header} {i : Nat} (inside : i < hs.length) :
    (childTable hs)[i]? = some (places i 1 (namedParents hs)) := by
  simp [childTable, inside]

/-- The nodes without children are those that no other names. -/
theorem leaves_childTable (hs : List Header) :
    EachFrom (fun i row => row.isEmpty = !(namedParents hs).contains i) 0 (childTable hs) := by
  intro i row found
  have inside := (List.getElem?_eq_some_iff.mp found).1
  rw [length_childTable] at inside
  obtain rfl := Option.some.inj (found.symm.trans (getElem?_childTable inside))
  rw [isEmpty_places, Nat.zero_add]

/-! ### Putting together alike -/

/-- The slots of some nodes, named by their parents, hold what waits for parents before an index:
the other nodes have been taken. -/
inductive Waits (index : Nat) :
    (ps : List Nat) → (slots : List (Option Condition)) → List Waiting → Prop where
  /-- Where there are no nodes, none waits. -/
  | nil : Waits index [] [] []
  /-- A node that is gone into its parent has left its slot empty. -/
  | taken {p : Nat} {ps : List Nat} {slots : List (Option Condition)} {ws : List Waiting}
    (late : index ≤ p) (later : Waits index ps slots ws) :
    Waits index (p :: ps) (none :: slots) ws
  /-- A node whose parent is still to come stands in its slot. -/
  | waiting {p : Nat} {c : Condition} {ps : List Nat} {slots : List (Option Condition)}
    {ws : List Waiting} (early : p < index) (later : Waits index ps slots ws) :
    Waits index (p :: ps) (some c :: slots) ((p, c) :: ws)

/-- **Children are taken** out of the slots in which they wait, and no slot is found empty. -/
theorem takeNodes_places {k i : Nat} {ps : List Nat} {slots : List (Option Condition)}
    {ws : List Waiting} (waits : Waits (k + 1) ps slots ws) {front : List (Option Condition)}
    (place : front.length = i) :
    ∃ left, takeNodes (places k i ps) (front ++ slots) =
        .ok ((ws.filter (·.1 == k)).map Prod.snd, front ++ left) ∧
      Waits k ps left (ws.filter (·.1 != k)) := by
  -- along the slots; those that have been passed, emptied or not, join the front
  induction waits generalizing front i with
  | nil => exact ⟨[], rfl, .nil⟩
  | taken late later ih =>
    obtain ⟨left, taken, waits⟩ := ih (place_concat none place)
    refine ⟨none :: left, ?_, .taken (by omega) waits⟩
    rw [places_cons_of_ne (by omega)]
    simpa using taken
  | @waiting p c ps slots ws early later ih =>
    by_cases same : p = k
    · subst same
      obtain ⟨left, taken, waits⟩ := ih (place_concat none place)
      refine ⟨none :: left, ?_, ?_⟩
      · rw [List.append_assoc, List.singleton_append] at taken
        rw [places_cons_self, takeNodes, takeOut_append _ place, ok_bind]
        dsimp only
        rw [taken]
        simp [ok_bind]
      · simpa using Waits.taken (Nat.le_refl p) waits
    · obtain ⟨left, taken, waits⟩ := ih (place_concat (some c) place)
      refine ⟨some c :: left, ?_, ?_⟩
      · rw [places_cons_of_ne same]
        simpa [same] using taken
      · simpa [same] using Waits.waiting (c := c) (by omega : p < k) waits

/-- **A node is made** of its operand and of the children that wait for it, and put into its
slot. -/
theorem alike_build {hs : List Header} {rows : List (List Nat)} {t : Tables} {index : Nat}
    {e : Header × Bytes} {ps : List Nat} (front : List (Option Condition))
    {slots : List (Option Condition)} {x : Option Condition} {ws : List Waiting}
    (header : hs[index]? = some e.1)
    (row : rows[index]? = some (places index (index + 1) ps))
    (operand : t.operands[index]?.map (·.getD []) = some e.2)
    (built : t.built = front ++ x :: slots) (place : front.length = index)
    (waits : Waits (index + 1) ps slots ws) :
    Alike (fun t' c => (∀ i, i < index → t'.operands[i]? = t.operands[i]?) ∧
        ∃ left, t'.built = front ++ some c :: left ∧
          Waits index ps left (ws.filter (·.1 != index)))
      (build hs rows index t)
      (make e.1.paramType e.1.operator e.2 ((ws.filter (·.1 == index)).map Prod.snd)) := by
  obtain ⟨left, taken, waits⟩ := takeNodes_places waits (place_concat x place)
  rw [List.append_assoc, List.append_assoc, List.singleton_append, List.singleton_append] at taken
  obtain ⟨found, stands, same⟩ := Option.map_eq_some_iff.mp operand
  rw [build, look_of_getElem? header, ok_bind, look_of_getElem? row, ok_bind, built, taken, ok_bind]
  dsimp only
  rw [takeOut_of_getElem? stands, ok_bind, ← same]
  dsimp only
  refine (alike_plain _).bind_ok fun c _ same =>
    ⟨⟨t.operands.set index none, front ++ some c :: left⟩, ?_,
      fun i before => List.getElem?_set_ne (by omega), left, same ▸ rfl, waits⟩
  rw [put_append x (some c) place, ok_bind]

/-- **Nodes are made** from the last to the first, as long as the children of each wait for it. -/
theorem alike_foldrM_build (hs : List Header) (rows : List (List Nat)) {t : Tables}
    {entries : List (Header × Bytes)} {index : Nat}
    (valid : EachFrom (fun i e => e.1.parent < i) index entries)
    (headers : EachFrom (fun i e => hs[i]? = some e.1) index entries)
    (children : EachFrom (fun i _ => rows[i]? = some (places i index (entryParents entries)))
      index entries)
    (filled : EachFrom (fun i e => t.operands[i]?.map (·.getD []) = some e.2) index entries)
    (empty : t.built = List.replicate (index + entries.length) none) :
    Alike (fun t' ws => (∀ i, i < index → t'.operands[i]? = t.operands[i]?) ∧
        ∃ slots, t'.built = List.replicate index none ++ slots ∧
          Waits index (entryParents entries) slots ws)
      ((List.range' index entries.length).foldrM (build hs rows) t)
      (Packed.assemble index entries) := by
  induction entries generalizing index with
  | nil => exact .ok ⟨fun _ _ => rfl, [], by simpa using empty, .nil⟩
  | cons e later ih =>
    obtain ⟨early, validLater⟩ := eachFrom_cons.mp valid
    obtain ⟨header, headersLater⟩ := eachFrom_cons.mp headers
    obtain ⟨row, rowsLater⟩ := eachFrom_cons.mp children
    obtain ⟨operand, filledLater⟩ := eachFrom_cons.mp filled
    -- this node names one before it, so it is in no row that is still used
    have behind {i : Nat} (h : index ≤ i) : places i index (entryParents (e :: later)) =
        places i (index + 1) (entryParents later) :=
      places_cons_of_ne (p := e.1.parent) (by omega) _
    rw [behind (Nat.le_refl _)] at row
    have made := ih validLater headersLater
      (fun i x found => (rowsLater i x found).trans (congrArg some (behind (by omega)))) filledLater
      (by rw [empty, List.length_cons, Nat.add_right_comm, Nat.add_assoc])
    rw [List.length_cons, List.range'_succ, List.foldrM_cons, Packed.assemble]
    refine made.bind ?_
    rintro t' ws _ ⟨kept, slots, built, waits⟩
    rw [List.replicate_succ', List.append_assoc, List.singleton_append] at built
    rw [← kept index (Nat.lt_succ_self _)] at operand
    refine (alike_build _ header row operand built List.length_replicate waits).map ?_
    rintro t'' c ⟨kept', left, built', waits'⟩
    refine ⟨fun i before => ?_, some c :: left, built', .waiting early waits'⟩
    rw [kept' i before, kept i (by omega)]

/-- **The tree is made** in the slot of the root. -/
theorem alike_assemble {first : Header × Bytes} {later : List (Header × Bytes)}
    {rows : List (List Nat)} {operands : List (Option Bytes)}
    (valid : EachFrom (fun i e => e.1.parent < i) 1 later)
    (children : ∀ i, i < later.length + 1 → rows[i]? = some (places i 1 (entryParents later)))
    (filled : operands.map (·.getD []) = (first :: later).map Prod.snd) :
    Alike Eq (assemble (later.length + 1) ((first :: later).map Prod.fst) rows operands)
      (root first later) := by
  have operand (i : Nat) : operands[i]?.map (·.getD []) = ((first :: later).map Prod.snd)[i]? := by
    rw [← filled, List.getElem?_map]
  have second {β : Type} (f : Header × Bytes → β) (i : Nat) (e : Header × Bytes)
      (found : later[i]? = some e) : ((first :: later).map f)[1 + i]? = some (f e) := by
    rw [Nat.add_comm, List.map_cons, List.getElem?_cons_succ, List.getElem?_map, found]
    rfl
  have made := alike_foldrM_build ((first :: later).map Prod.fst) rows
    (t := ⟨operands, List.replicate (later.length + 1) none⟩) valid (second Prod.fst)
    (fun i e found => children (1 + i) ?_)
    (fun i e found => (operand (1 + i)).trans (second Prod.snd i e found)) (by rw [Nat.add_comm])
  · rw [assemble, List.range_eq_range', List.range'_succ, List.foldrM_cons, root, bind_assoc]
    refine made.bind ?_
    rintro t ws put ⟨kept, slots, built, waits⟩
    have header : ((first :: later).map Prod.fst)[0]? = some first.1 := rfl
    have rooted := alike_build [] header (children 0 (by omega))
      ((congrArg _ (kept 0 (by omega))).trans (operand 0)) built rfl waits
    rw [filter_root valid put] at rooted
    refine rooted.bind_ok ?_
    rintro t' c ⟨-, left, built', -⟩
    refine ⟨c, ?_, rfl⟩
    rw [built']
    rfl
  · have := (List.getElem?_eq_some_iff.mp found).1
    omega

/-! ### Unpacking alike -/

/-- Something is left over for the reader if it is for the cursor. -/
theorem atEnd_eq {r : Reader} {c : Cursor} (follows : Follows r c) :
    atEnd r = match c.rest.length with
      | 0 => .ok ()
      | n + 1 => .error (.refused (.encoding (.trailingBytes (n + 1)))) := by
  have left : c.rest.length = r.bytes.length - r.offset := by rw [follows.rest, List.length_drop]
  have inside := follows.inside
  unfold atEnd
  cases some : c.rest.length with
  | zero => rw [if_pos (by omega)]
  | succ n => rw [if_neg (by omega), if_pos inside, ← left, some]

/-- Behind the headers, tables are made of what is read. -/
theorem alike_tables {hs : List Header} {r : Reader} {c : Cursor} (some : hs ≠ [])
    (valid : EachFrom HeaderAt 0 hs)
    (follows : Follows r c) :
    Alike Eq
      (noteChildren 1 hs.tail (List.replicate hs.length []) >>= fun rows =>
        fillOperands 0 rows (List.replicate hs.length none) r >>= fun filled =>
          atEnd filled.2 >>= fun _ => assemble hs.length hs rows filled.1)
      (operands (namedParents hs) hs.length 0 c >>= fun filled =>
        finish (hs.zip filled.1) filled.2.rest.length) := by
  have known : ∀ h ∈ hs.tail, h.parent < hs.length := by
    intro h mem
    obtain ⟨i, inside, rfl⟩ := List.getElem_of_mem (List.mem_of_mem_tail mem)
    have here := valid i _ (List.getElem?_eq_getElem inside)
    unfold HeaderAt at here
    omega
  have read := alike_fillOperands (leaves_childTable hs) [] rfl follows
  rw [length_childTable] at read
  rw [noteChildren_tail known, ok_bind]
  refine read.bind ?_
  rintro ⟨slots, _⟩ ⟨os, c⟩ readOperands ⟨filled, follows⟩
  have each := length_operands readOperands
  dsimp only at filled follows ⊢
  rw [atEnd_eq follows]
  obtain ⟨first, later, entries, rfl, rfl⟩ := exists_entries some each
  rw [entries]
  cases c.rest.length with
  | succ n => exact .refused _
  | zero =>
    have children (i : Nat) (inside : i < ((first :: later).map Prod.fst).length) :=
      getElem?_childTable inside
    rw [namedParents_map_fst, List.length_map] at children
    rw [List.length_map]
    exact alike_assemble (parents_of_entries valid).2 children filled

/-- **Unpacking over tables** does what reading does, step by step. -/
theorem alike_unpack (bytes : Bytes) : Alike Eq (unpack bytes) (Packed.unpack bytes) := by
  rw [unpack, unpack_eq]
  refine (alike_byte ⟨rfl, rfl, Nat.zero_le _⟩).bind ?_
  rintro ⟨count, _⟩ ⟨n, _⟩ _ ⟨same, follows⟩
  obtain rfl : n = count.toNat := same
  dsimp only
  by_cases zero : count = 0
  · subst zero
    exact .refused _
  · have some : count.toNat ≠ 0 := fun none => zero (UInt8.toNat_inj.mp none)
    rw [if_neg zero]
    generalize count.toNat = n at *
    refine (alike_headers n 0 follows).bind ?_
    rintro ⟨hs, _⟩ ⟨_, _⟩ readHeaders ⟨same, read⟩
    cases same
    obtain ⟨rfl, valid, -⟩ := headers_eq_ok readHeaders
    exact alike_tables (fun none => some (congrArg List.length none)) valid read

/-- Bytes are refused over tables if they are refused in reading. -/
theorem unpack_eq_refused_iff {bytes : Bytes} {e : Error} :
    unpack bytes = .error (.refused e) ↔ Packed.unpack bytes = .error e := by
  rw [(alike_unpack bytes).eq_mapError]
  cases Packed.unpack bytes <;> simp [Except.mapError]

/-- Without a tree, unpacking over tables ends in a refusal. -/
theorem exists_refused {bytes : Bytes} {fault : Fault} (failed : unpack bytes = .error fault) :
    ∃ e, fault = .refused e := by
  rw [(alike_unpack bytes).eq_mapError] at failed
  cases read : Packed.unpack bytes with
  | ok c =>
    rw [read] at failed
    cases failed
  | error e =>
    rw [read] at failed
    exact ⟨e, (Except.error.inj failed).symm⟩

/-- **Unpacking over tables** gives what reading gives, for all bytes. No place lies outside a
table, no node is taken twice, and there is a root. Bytes are refused as malformed exactly if they
lay out nodes, one of which has children under the operator of a leaf, or none under an operator
that requires them. -/
theorem unpack_fails_only_by_refusal (bytes : Bytes) :
    unpack bytes = (Packed.unpack bytes).mapError .refused ∧
      (unpack bytes ≠ .error .outOfRange ∧ (∀ index, unpack bytes ≠ .error (.takenTwice index)) ∧
        unpack bytes ≠ .error .noRoot) ∧
      ((∃ op fault, unpack bytes = .error (.refused (.malformed op fault))) ↔
        ∃ hs os, Laid bytes hs os ∧ ∃ i h, hs[i]? = some h ∧
          (h.operator.requiresChildren = false ∧ 0 < childCount hs i ∨
            h.operator.requiresChildren ∧ childCount hs i = 0)) := by
  refine ⟨(alike_unpack bytes).eq_mapError, ⟨?_, fun index => ?_, ?_⟩, ?_⟩
  · exact fun failed => nomatch exists_refused failed
  · exact fun failed => nomatch exists_refused failed
  · exact fun failed => nomatch exists_refused failed
  · simp only [unpack_eq_refused_iff, exists_malformed_iff]

/-- Two nodes, of which the second names the first as its parent, which is a leaf. -/
example : unpack [2, 0, 16, 0, 16, 0, 0] =
    .error (.refused (.malformed .equalTo (.childrenOnLeaf 1))) := by
  rfl

end Slots

end Packed

end CallGuard
