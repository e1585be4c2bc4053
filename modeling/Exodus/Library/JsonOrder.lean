import Exodus.Library.Json

/-!
# JSON values up to the order of keys

`Reorders` is equality of values up to the order of the members of objects, at any depth:
the least congruence that permutes members.  `sortKeys` picks the value of a class whose
keys ascend, and `SortedKeys` says that they do.
-/

set_option autoImplicit false

namespace Exodus.Library

namespace Json

/-- Equal up to the order of object members. -/
inductive Reorders : Json → Json → Prop
  | refl (v : Json) : Reorders v v
  | trans {u v w : Json} : Reorders u v → Reorders v w → Reorders u w
  | perm {entries entries' : List (String × Json)} :
    entries.Perm entries' → Reorders (.obj entries) (.obj entries')
  | item (before after : List Json) {v w : Json} :
    Reorders v w → Reorders (.arr (before ++ v :: after)) (.arr (before ++ w :: after))
  | member (before after : List (String × Json)) (k : String) {v w : Json} :
    Reorders v w → Reorders (.obj (before ++ (k, v) :: after)) (.obj (before ++ (k, w) :: after))

/-- Reordering can be undone. -/
theorem Reorders.symm {v w : Json} (h : Reorders v w) : Reorders w v := by
  induction h with
  | refl v => exact .refl v
  | trans _ _ ih ih' => exact .trans ih' ih
  | perm hperm => exact .perm hperm.symm
  | item before after _ ih => exact .item before after ih
  | member before after k _ ih => exact .member before after k ih

/-- Items may be reordered inside, each on its own. -/
theorem Reorders.arr_map {f : Json → Json} (items : List Json) (h : ∀ v ∈ items, Reorders v (f v)) :
    Reorders (.arr items) (.arr (items.map f)) := by
  -- the items before the current one are done
  have hstep : ∀ done todo : List Json, (∀ v ∈ todo, Reorders v (f v)) →
      Reorders (.arr (done ++ todo)) (.arr (done ++ todo.map f)) := by
    intro done todo
    induction todo generalizing done with
    | nil => exact fun _ => .refl _
    | cons v vs ih =>
      intro hall
      have hrest := ih (done ++ [f v]) fun x hx => hall x (List.mem_cons_of_mem _ hx)
      rw [List.append_assoc, List.append_assoc] at hrest
      exact (Reorders.item done vs (hall v List.mem_cons_self)).trans hrest
  exact hstep [] items h

/-- Member values may be reordered inside, each on its own. -/
theorem Reorders.obj_map {f : Json → Json} (entries : List (String × Json))
    (h : ∀ e ∈ entries, Reorders e.2 (f e.2)) :
    Reorders (.obj entries) (.obj (entries.map fun e => (e.1, f e.2))) := by
  have hstep : ∀ done todo : List (String × Json), (∀ e ∈ todo, Reorders e.2 (f e.2)) →
      Reorders (.obj (done ++ todo)) (.obj (done ++ todo.map fun e => (e.1, f e.2))) := by
    intro done todo
    induction todo generalizing done with
    | nil => exact fun _ => .refl _
    | cons e es ih =>
      intro hall
      have hrest := ih (done ++ [(e.1, f e.2)]) fun x hx => hall x (List.mem_cons_of_mem _ hx)
      rw [List.append_assoc, List.append_assoc] at hrest
      exact (Reorders.member done es e.1 (hall e List.mem_cons_self)).trans hrest
  exact hstep [] entries h

mutual

/-- The value with the members of every object in the order of their keys. -/
def sortKeys : Json → Json
  | .null => .null
  | .bool b => .bool b
  | .int i => .int i
  | .float f => .float f
  | .str s => .str s
  | .arr items => .arr (sortItems items)
  | .obj entries => .obj ((sortEntries entries).insertionSort fun a b => a.1 ≤ b.1)

def sortItems : List Json → List Json
  | [] => []
  | v :: vs => v.sortKeys :: sortItems vs

def sortEntries : List (String × Json) → List (String × Json)
  | [] => []
  | (k, v) :: es => (k, v.sortKeys) :: sortEntries es

end

/-- Items are sorted one by one. -/
theorem sortItems_eq_map (items : List Json) : sortItems items = items.map sortKeys := by
  induction items with
  | nil => rfl
  | cons v vs ih => rw [sortItems, ih, List.map_cons]

/-- So are the values of members. -/
theorem sortEntries_eq_map (entries : List (String × Json)) :
    sortEntries entries = entries.map fun e => (e.1, e.2.sortKeys) := by
  induction entries with
  | nil => rfl
  | cons e es ih => rw [sortEntries, ih, List.map_cons]

/-- Sorting the keys reorders the value. -/
theorem reorders_sortKeys (v : Json) : Reorders v v.sortKeys := by
  induction v using Json.induction with
  | null | bool | int | float | str => exact .refl _
  | arr items ih =>
    rw [sortKeys, sortItems_eq_map]
    exact Reorders.arr_map items ih
  | obj entries ih =>
    rw [sortKeys, sortEntries_eq_map]
    exact (Reorders.obj_map entries ih).trans (.perm (List.perm_insertionSort _ _).symm)

mutual

/-- Object keys ascend at every depth. -/
def SortedKeys : Json → Prop
  | .arr items => SortedItems items
  | .obj entries => (entries.map Prod.fst).Pairwise (· ≤ ·) ∧ SortedEntries entries
  | _ => True

def SortedItems : List Json → Prop
  | [] => True
  | v :: vs => v.SortedKeys ∧ SortedItems vs

def SortedEntries : List (String × Json) → Prop
  | [] => True
  | (_, v) :: es => v.SortedKeys ∧ SortedEntries es

end

/-- Items are sorted if each of them is. -/
theorem sortedItems_iff (items : List Json) : SortedItems items ↔ ∀ v ∈ items, v.SortedKeys := by
  induction items with
  | nil => simp [SortedItems]
  | cons v vs ih => simp [SortedItems, ih]

/-- Members are sorted if each value is. -/
theorem sortedEntries_iff (entries : List (String × Json)) :
    SortedEntries entries ↔ ∀ e ∈ entries, e.2.SortedKeys := by
  induction entries with
  | nil => simp [SortedEntries]
  | cons e es ih => simp [SortedEntries, ih]

/-- A value whose keys were sorted is sorted. -/
theorem sortedKeys_sortKeys (v : Json) : v.sortKeys.SortedKeys := by
  induction v using Json.induction with
  | null | bool | int | float | str => trivial
  | arr items ih =>
    rw [sortKeys, SortedKeys, sortedItems_iff, sortItems_eq_map]
    exact List.forall_mem_map.mpr ih
  | obj entries ih =>
    have hentries : ∀ e ∈ sortEntries entries, e.2.SortedKeys := by
      rw [sortEntries_eq_map]
      exact List.forall_mem_map.mpr ih
    rw [sortKeys, SortedKeys, sortedEntries_iff, List.pairwise_map]
    refine ⟨?_, ?_⟩
    · have htotal : Std.Total fun a b : String × Json => a.1 ≤ b.1 := ⟨fun a b => le_total a.1 b.1⟩
      have htrans : IsTrans (String × Json) fun a b => a.1 ≤ b.1 := ⟨fun _ _ _ => le_trans⟩
      exact List.pairwise_insertionSort _ _
    · intro e he
      exact hentries e ((List.perm_insertionSort _ _).mem_iff.mp he)

/-- The members of a well-formed object ascend. -/
theorem WellFormed.sortedKeys {v : Json} (h : v.WellFormed) : v.SortedKeys := by
  induction v using Json.induction with
  | null | bool | int | float | str => trivial
  | arr items ih =>
    rw [WellFormed, wellFormedItems_iff] at h
    rw [SortedKeys, sortedItems_iff]
    intro v hv
    exact ih v hv (h v hv)
  | obj entries ih =>
    rw [WellFormed, wellFormedEntries_iff] at h
    rw [SortedKeys, sortedEntries_iff]
    refine ⟨h.1.imp fun hlt => le_of_lt hlt, ?_⟩
    intro e he
    exact ih e he (h.2 e he)

end Json

end Exodus.Library
