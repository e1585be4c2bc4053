import Mathlib

/-!
# Links between nodes

A family of links, each with two ends at nodes; a node may have any number of links, two
nodes may share several, and both ends of a link may be at one node.  `Joined avoid` joins
two nodes by links outside `avoid`.  Around a node the links form a forest when none of
them has its ends joined by others: what has come over one link then cannot come back
over another one (`ForestAround.onward`).
-/

set_option autoImplicit false

namespace Exodus.Library

/-- Links `κ` between nodes `V`: the two ends of a link are named by a `Bool`. -/
structure Links (V κ : Type) where
  node : κ → Bool → V

namespace Links

variable {V κ : Type} (L : Links V κ) {avoid : Set κ} {c d : κ} {s t : Bool} {u v w : V}

/-- The nodes are the ends of a link outside the set. -/
def Adjacent (avoid : Set κ) (u w : V) : Prop :=
  ∃ c ∉ avoid, ∃ s, L.node c (!s) = u ∧ L.node c s = w

/-- The nodes are joined by links outside the set. -/
def Joined (avoid : Set κ) : V → V → Prop := Relation.ReflTransGen (L.Adjacent avoid)

/-- No link that can be reached from the node has its two ends joined by others. -/
def ForestAround (v : V) : Prop :=
  ∀ c s, L.Joined ∅ v (L.node c s) → ¬L.Joined {c} (L.node c (!s)) (L.node c s)

variable {L}

/-- Links go both ways. -/
theorem Adjacent.symm (h : L.Adjacent avoid u w) : L.Adjacent avoid w u := by
  obtain ⟨c, hc, s, hu, hw⟩ := h
  exact ⟨c, hc, !s, by rwa [Bool.not_not], hu⟩

/-- So do paths. -/
theorem Joined.symm (h : L.Joined avoid u w) : L.Joined avoid w u := by
  induction h with
  | refl => exact .refl
  | tail hway hlast ih => exact .head hlast.symm ih

/-- A path that avoids more avoids less. -/
theorem Joined.mono {avoid' : Set κ} (h : L.Joined avoid u w) (hsub : avoid' ⊆ avoid) :
    L.Joined avoid' u w := by
  refine Relation.ReflTransGen.mono ?_ _ _ h
  rintro x y ⟨c, hc, hends⟩
  exact ⟨c, fun hmem => hc (hsub hmem), hends⟩

/-- A link that need not be avoided joins its ends. -/
theorem joined_link (hc : c ∉ avoid) : L.Joined avoid (L.node c (!s)) (L.node c s) :=
  Relation.ReflTransGen.single ⟨c, hc, s, rfl, rfl⟩

/-- The forest around a node is the one around every node that it is joined to. -/
theorem ForestAround.of_joined (h : L.ForestAround v) (hj : L.Joined ∅ v w) : L.ForestAround w :=
  fun c s hc => h c s (hj.trans hc)

/-- In a forest, a way that starts behind one link of a node and avoids it also avoids every
other link of that node. -/
theorem ForestAround.joined_avoiding (h : L.ForestAround (L.node c s)) (hd : d ≠ c)
    (hnode : L.node d (!t) = L.node c s) (hj : L.Joined {c} (L.node c (!s)) w) :
    L.Joined {c, d} (L.node c (!s)) w := by
  have hc := h c s .refl
  have hend := h d (!t) (by rw [hnode]; exact .refl)
  induction hj with
  | refl => exact .refl
  | @tail x y hx hxy ih =>
    obtain ⟨e, he, r, rfl, rfl⟩ := hxy
    by_cases hed : e = d
    · -- the way would come to an end of `d`, and `c` or `d` would close a cycle
      exfalso
      subst hed
      by_cases hr : r = t
      · apply hc
        rw [← hnode, ← hr]
        exact ih.mono (Set.singleton_subset_iff.mpr (Set.mem_insert c {e}))
      · have hrt : (!r) = t := by
          cases r <;> cases t <;> simp_all
        apply hend
        rw [Bool.not_not, hnode, ← hrt]
        have hback : L.Joined {e} (L.node e !r) (L.node c !s) :=
          (ih.mono (Set.subset_insert c {e})).symm
        exact hback.trans (joined_link fun hmem => hd (Set.mem_singleton_iff.mp hmem).symm)
    · refine ih.tail ⟨e, ?_, r, rfl, rfl⟩
      rintro (hmem | hmem)
      · exact he hmem
      · exact hed hmem

/-- In a forest, what comes from behind one link of a node comes, seen from the far end of
any other link, from behind that other link. -/
theorem ForestAround.onward (h : L.ForestAround (L.node c s)) (hnode : L.node d (!t) = L.node c s)
    (hne : (d, !t) ≠ (c, s)) (hj : L.Joined {c} (L.node c (!s)) w) :
    L.Joined {d} (L.node d (!t)) w := by
  have hdc : d ≠ c := by
    rintro rfl
    have hst : t = s := by
      cases t <;> cases s <;> simp_all
    subst hst
    apply h d t .refl
    rw [hnode]
    exact .refl
  have hfar := (h.joined_avoiding hdc hnode hj).mono (Set.subset_insert c {d})
  rw [hnode]
  have hlink : L.Joined {d} (L.node c (!s)) (L.node c s) :=
    joined_link fun hmem => hdc (Set.mem_singleton_iff.mp hmem).symm
  exact hlink.symm.trans hfar

end Links

end Exodus.Library
