import Mathlib.Data.List.Perm.Basic

/-!
# Pools

A pool is a list of workers, each known by its place.  A worker leaves its place or is
replaced by what it has become; the lemmas say what that does to the workers with a property
and to what they hold, up to order.
-/

set_option autoImplicit false

namespace Exodus.Library

variable {α β : Type*} {pool : List α} {i : ℕ} {a : α}

/-- A worker and the others are the pool. -/
theorem perm_cons_eraseIdx (h : pool[i]? = some a) : pool.Perm (a :: pool.eraseIdx i) := by
  obtain ⟨hlt, rfl⟩ := List.getElem?_eq_some_iff.mp h
  exact (List.getElem_cons_eraseIdx_perm hlt).symm

/-- So is a replaced worker with the others. -/
theorem set_perm_cons_eraseIdx (h : pool[i]? = some a) (b : α) :
    (pool.set i b).Perm (b :: pool.eraseIdx i) :=
  List.set_perm_cons_eraseIdx (List.getElem?_eq_some_iff.mp h).1 b

section Holdings

variable (hold : α → Option β)

/-- A worker that leaves takes what it holds with it. -/
theorem filterMap_eraseIdx_perm (h : pool[i]? = some a) :
    (pool.filterMap hold).Perm ((hold a).toList ++ (pool.eraseIdx i).filterMap hold) := by
  have hperm := (perm_cons_eraseIdx h).filterMap hold
  cases ha : hold a <;> simpa [List.filterMap_cons, ha] using hperm

/-- A worker that is replaced hands on what it holds, or exchanges it. -/
theorem filterMap_set_perm (h : pool[i]? = some a) (b : α) :
    ((pool.set i b).filterMap hold).Perm
      ((hold b).toList ++ (pool.eraseIdx i).filterMap hold) := by
  have hperm := (set_perm_cons_eraseIdx h b).filterMap hold
  cases hb : hold b <;> simpa [List.filterMap_cons, hb] using hperm

end Holdings

section Count

variable (p : α → Bool)

/-- A worker that leaves was counted if it satisfies the predicate. -/
theorem countP_eraseIdx_add (h : pool[i]? = some a) :
    (pool.eraseIdx i).countP p + (if p a then 1 else 0) = pool.countP p := by
  rw [(perm_cons_eraseIdx h).countP_eq, List.countP_cons]

/-- A worker that is replaced is counted as the new one, no more as the old one. -/
theorem countP_set_add (h : pool[i]? = some a) (b : α) :
    (pool.set i b).countP p + (if p a then 1 else 0) = pool.countP p + if p b then 1 else 0 := by
  rw [(set_perm_cons_eraseIdx h b).countP_eq, List.countP_cons, ← countP_eraseIdx_add p h]
  omega

end Count

end Exodus.Library
