import CallGuard.Condition.Id
import Mathlib.Data.List.Nodup

/-!
# Collisions

Trees are compared by id, and an id tells a tree from another only as long as the hash keeps
the two apart. `CollisionFree` says of a list of trees that ids do so on it: trees of the list
with the same id are the same tree.
-/

namespace CallGuard

namespace Condition

/-- Trees of the list that have the same id are the same tree. -/
def CollisionFree (trees : List Condition) : Prop :=
  ∀ a ∈ trees, ∀ b ∈ trees, a.id = b.id → a = b

instance (trees : List Condition) : Decidable (CollisionFree trees) :=
  inferInstanceAs (Decidable (∀ a ∈ trees, ∀ b ∈ trees, a.id = b.id → a = b))

theorem CollisionFree.mono {trees fewer : List Condition} (h : CollisionFree trees)
    (sub : fewer ⊆ trees) : CollisionFree fewer :=
  fun a memA b memB => h a (sub memA) b (sub memB)

/-- Trees with different ids do not collide. -/
theorem collisionFree_of_nodup_ids {cs : List Condition} (h : (cs.map id).Nodup) :
    CollisionFree cs :=
  fun _ memA _ memB => List.inj_on_of_nodup_map h memA memB

/-- A tree with the id of a tree in a list is in the list. -/
theorem CollisionFree.mem_of_map_id {trees cs : List Condition} (h : CollisionFree trees)
    {d : Condition} (inside : d ∈ trees) (sub : cs ⊆ trees) (ids : d.id ∈ cs.map id) : d ∈ cs := by
  obtain ⟨e, mem, same⟩ := List.mem_map.mp ids
  exact h e (sub mem) d inside same ▸ mem

/-- Lists of trees that are told apart by id are the same if their ids are. -/
theorem eq_of_map_id_eq {as bs : List Condition}
    (each : ∀ a ∈ as, ∀ b ∈ bs, a.id = b.id → a = b) (ids : as.map id = bs.map id) : as = bs := by
  induction as generalizing bs with
  | nil => exact (List.map_eq_nil_iff.mp ids.symm).symm
  | cons a as ih =>
    obtain ⟨b, bs, rfl, here, rest⟩ := List.map_eq_cons_iff.mp ids.symm
    have first : a = b := each a List.mem_cons_self b List.mem_cons_self here.symm
    have others : as = bs := ih
      (fun c memC d memD => each c (List.mem_cons_of_mem a memC) d (List.mem_cons_of_mem b memD))
      rest.symm
    rw [first, others]

/-- Lists of trees with the same ids are the same. -/
theorem CollisionFree.eq_of_map_id {trees : List Condition} (h : CollisionFree trees)
    {as bs : List Condition} (subA : as ⊆ trees) (subB : bs ⊆ trees)
    (ids : as.map id = bs.map id) : as = bs :=
  eq_of_map_id_eq (fun a memA b memB => h a (subA memA) b (subB memB)) ids

end Condition

end CallGuard
