import Exodus.Interface.SampleNodes
import Exodus.Library.FloatOrder
import Exodus.Library.RoundRobin

/-!
# The rotation of the sealers

`sealer_for_view` sorts the committee by compute units, the largest total first and equal
totals by id, and takes the member at the place of the view modulo the size of the committee.
When no total is NaN the totals are totally ordered, and the sealers take turns: over as many
consecutive views as there are members every member seals once, in the order of the ranking
(`rotation_fair`).
-/

set_option autoImplicit false

namespace Exodus.Analysis

open Exodus.Library Exodus.Model Exodus.Interface

variable [Crates] {n : Node} {st : ChainStore} {a b : String}

/-- No member of the committee has NaN compute units: the totals can be compared. -/
def ComparableTotals (n : Node) : Prop :=
  ∀ id ∈ n.committeeMembers, (n.store.totalCuForNode id).isNaN = false

/-- The first one comes before the other one: by a larger total, or by a smaller id when the
totals are equal. -/
def Outranks (st : ChainStore) (a b : String) : Prop :=
  st.totalCuForNode b < st.totalCuForNode a ∨
    (st.totalCuForNode a == st.totalCuForNode b) = true ∧ a < b

/-- The members of the committee in the order of the election. -/
def ranking (n : Node) : List String :=
  n.committeeMembers.insertionSort fun a b => Node.ranksBefore n.store a b

/-- The view `k` views later. -/
def viewAfter (view : Int64) (k : ℕ) : Int64 := Int64.ofInt (view.toInt + k)

/-- As many consecutive views from `start` on. -/
def viewsFrom (start : Int64) (count : ℕ) : List Int64 := (List.range count).map (viewAfter start)

/-! ## The ranking -/

/-- The total of a node in falling order, then its id. -/
def rankKey (st : ChainStore) (id : String) : (ℤ ×ₗ ℤ ×ₗ ℤ)ᵒᵈ ×ₗ String :=
  toLex (OrderDual.toDual (orderKey (st.totalCuForNode id)), id)

/-- Without NaN the comparison is that of the keys. -/
theorem ranksBefore_iff (ha : (st.totalCuForNode a).isNaN = false)
    (hb : (st.totalCuForNode b).isNaN = false) :
    Node.ranksBefore st a b = true ↔ rankKey st a ≤ rankKey st b := by
  unfold Node.ranksBefore rankKey
  rw [Prod.Lex.toLex_le_toLex]
  dsimp only
  rw [OrderDual.toDual_lt_toDual, OrderDual.toDual_inj, ← lt_iff_orderKey_lt hb ha]
  split_ifs with hlarger hsmaller
  · simp [hlarger]
  · rw [lt_iff_orderKey_lt ha hb] at hsmaller
    simp [hlarger, hsmaller.ne]
  · rw [lt_iff_orderKey_lt ha hb] at hsmaller
    have hequal : orderKey (st.totalCuForNode a) = orderKey (st.totalCuForNode b) := by
      rw [lt_iff_orderKey_lt hb ha] at hlarger
      exact le_antisymm (not_lt.mp hlarger) (not_lt.mp hsmaller)
    simp [hlarger, hequal]

/-- With comparable totals the election sorts by one linear order. -/
theorem ranking_eq (h : ComparableTotals n) :
    ranking n = n.committeeMembers.insertionSort fun a b => rankKey n.store a ≤ rankKey n.store b := by
  have hsort := List.map_insertionSort (fun a b => Node.ranksBefore n.store a b = true)
    (fun a b => rankKey n.store a ≤ rankKey n.store b) id n.committeeMembers
    fun a ha b hb => ranksBefore_iff (h a ha) (h b hb)
  rwa [List.map_id, List.map_id] at hsort

/-- The ranking has the members of the committee. -/
theorem ranking_perm (n : Node) : (ranking n).Perm n.committeeMembers :=
  List.perm_insertionSort _ _

/-- It has none twice. -/
theorem ranking_nodup (n : Node) : (ranking n).Nodup :=
  (ranking_perm n).nodup_iff.mpr (committeeMembers_nodup n)

/-- A member with a smaller key outranks another. -/
theorem outranks_of_rankKey_lt (ha : (st.totalCuForNode a).isNaN = false)
    (hb : (st.totalCuForNode b).isNaN = false) (h : rankKey st a < rankKey st b) :
    Outranks st a b := by
  rw [rankKey, rankKey, Prod.Lex.toLex_lt_toLex] at h
  rcases h with hlarger | ⟨hequal, hid⟩
  · left
    rw [lt_iff_orderKey_lt hb ha]
    exact OrderDual.toDual_lt_toDual.mp hlarger
  · right
    rw [beq_iff_orderKey_eq ha hb]
    exact ⟨OrderDual.toDual_inj.mp hequal, hid⟩

/-- The ranking is sorted, if the totals can be compared. -/
theorem ranking_sorted (h : ComparableTotals n) : (ranking n).Pairwise (Outranks n.store) := by
  have hsorted : (ranking n).Pairwise fun a b => rankKey n.store a ≤ rankKey n.store b := by
    rw [ranking_eq h]
    exact List.pairwise_insertionSort _ _
  have hdistinct : (ranking n).Pairwise (· ≠ ·) := ranking_nodup n
  refine (hsorted.and hdistinct).imp_of_mem ?_
  intro a b ha hb hab
  have hmember {id : String} (hid : id ∈ ranking n) : (n.store.totalCuForNode id).isNaN = false :=
    h id ((ranking_perm n).mem_iff.mp hid)
  refine outranks_of_rankKey_lt (hmember ha) (hmember hb) (lt_of_le_of_ne hab.1 ?_)
  intro hkey
  exact hab.2 (congrArg (fun k => (ofLex k).2) hkey)

/-! ## Taking turns -/

/-- The sealer of a view is the one whose turn it is. -/
theorem sealerForView_eq_turn (n : Node) (view : Int64) :
    n.sealerForView view = turn (ranking n) n.nodeId view.toInt := rfl

omit [Crates] in
/-- A later view, as long as it does not overflow. -/
theorem toInt_viewAfter {view : Int64} {k : ℕ} (h : view.toInt + k < 2 ^ 63) :
    (viewAfter view k).toInt = view.toInt + k := by
  have hlow := view.le_toInt
  exact Int64.toInt_ofInt_of_le (by omega) h

/-- Consecutive views go through the ranking, from the place of the first one on. -/
theorem sealers_of_viewsFrom {start : Int64} (h : start.toInt + (ranking n).length ≤ 2 ^ 63) :
    (viewsFrom start (ranking n).length).map n.sealerForView =
      (ranking n).rotate (start.toInt % (ranking n).length).toNat := by
  rw [← turns_eq_rotate (ranking n) n.nodeId start.toInt, viewsFrom, List.map_map]
  apply List.map_congr_left
  intro k hk
  have hk' := List.mem_range.mp hk
  rw [Function.comp_apply, sealerForView_eq_turn, toInt_viewAfter (by omega)]

/-- The sealers of a node take turns in the order of their ranks. -/
structure FairRotation (n : Node) (order : List String) : Prop where
  /-- the order is one of the whole committee, each member once -/
  perm : order.Perm n.committeeMembers
  nodup : order.Nodup
  /-- more compute units first, equal ones by id -/
  sorted : order.Pairwise (Outranks n.store)
  /-- consecutive views go through the order once -/
  turns : ∀ start : Int64, start.toInt + n.committeeMembers.length ≤ 2 ^ 63 →
    (viewsFrom start n.committeeMembers.length).map n.sealerForView =
      order.rotate (start.toInt % n.committeeMembers.length).toNat
  /-- every member seals exactly one of them -/
  once : ∀ start : Int64, start.toInt + n.committeeMembers.length ≤ 2 ^ 63 →
    ∀ id ∈ n.committeeMembers,
      ((viewsFrom start n.committeeMembers.length).map n.sealerForView).count id = 1
  /-- after one round the same member has its turn -/
  period : ∀ view : Int64, view.toInt + n.committeeMembers.length < 2 ^ 63 →
    n.sealerForView (viewAfter view n.committeeMembers.length) = n.sealerForView view

/-- The rotation is fair, if the totals can be compared. -/
theorem rotation_fair (h : ComparableTotals n) : FairRotation n (ranking n) := by
  have hlength : (ranking n).length = n.committeeMembers.length := (ranking_perm n).length_eq
  have hturns (start : Int64) (hfits : start.toInt + n.committeeMembers.length ≤ 2 ^ 63) :
      (viewsFrom start n.committeeMembers.length).map n.sealerForView =
        (ranking n).rotate (start.toInt % n.committeeMembers.length).toNat := by
    rw [← hlength] at hfits ⊢
    exact sealers_of_viewsFrom hfits
  refine ⟨ranking_perm n, ranking_nodup n, ranking_sorted h, hturns, ?_, ?_⟩
  · intro start hfits id hid
    rw [hturns start hfits]
    apply List.count_eq_one_of_mem
    · exact List.nodup_rotate.mpr (ranking_nodup n)
    · exact List.mem_rotate.mpr ((ranking_perm n).mem_iff.mpr hid)
  · intro view hfits
    rw [sealerForView_eq_turn, sealerForView_eq_turn, toInt_viewAfter hfits, ← hlength,
      turn_add_length]

end Exodus.Analysis

namespace Exodus.Analysis

open Exodus.Library Exodus.Model Exodus.Interface Exodus.Sample

/-- The two nodes of the sample have no compute units yet: they take turns by their ids. -/
theorem pair_takes_turns :
    ComparableTotals (ready .a [.b] "t2" 1 3 0.0) ∧
      FairRotation (ready .a [.b] "t2" 1 3 0.0) (ranking (ready .a [.b] "t2" 1 3 0.0)) := by
  have htotals : ComparableTotals (ready .a [.b] "t2" 1 3 0.0) := by
    intro id _
    rw [totalCu_on_genesis (ready_refines .a [.b] "t2" 1 3 0.0)]
    decide
  exact ⟨htotals, rotation_fair htotals⟩

end Exodus.Analysis
