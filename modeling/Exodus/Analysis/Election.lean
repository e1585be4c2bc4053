import Exodus.Analysis.ForkChoice
import Exodus.Interface.Invariant
import Exodus.Interface.SampleNodes

/-!
# Leader election

The committee of a node and the order in which its members seal are functions of the
contents of the chain, the configuration, and the set of the node and its peers.  The
head hash fixes the contents, so two nodes with the same head and the same set elect
the same sealer for every view and ask for the same quorum.
-/

set_option autoImplicit false

namespace Exodus.Analysis

open Exodus.Library Exodus.Model Exodus.Interface

variable [Crates] {n m : Node} {A B : List Checkpoint}

/-! ## What an election reads -/

omit [Crates] in
/-- The node and the peers it has heard of. -/
def nodeAndPeers (n : Node) : Finset String := insert n.nodeId n.peers.keys.toFinset

omit [Crates] in
/-- The sealers and signers of the last blocks. -/
def recentMembers (window : ℕ) (contents : List (CheckpointProposal × List QuorumSignature)) :
    List String :=
  (contents.reverse.take window).flatMap fun e =>
    (if e.1.sealedBy ≠ genesisSealer then [e.1.sealedBy] else []) ++
      e.2.map QuorumSignature.nodeId

/-- The committee are the node, its peers and the recent members of the chain. -/
theorem mem_committeeMembers (id : String) :
    id ∈ n.committeeMembers ↔ id ∈ nodeAndPeers n ∨
      id ∈ recentMembers n.config.activePeerWindow.toUInt64.toNat
        (n.store.allBlocks.map content) := by
  have hrecent : recentMembers n.config.activePeerWindow.toUInt64.toNat
      (n.store.allBlocks.map content) =
      (n.store.allBlocks.reverse.take n.config.activePeerWindow.toUInt64.toNat).flatMap fun b =>
        (if b.proposal.sealedBy ≠ genesisSealer then [b.proposal.sealedBy] else []) ++
          b.signatures.map QuorumSignature.nodeId := by
    rw [recentMembers, ← List.map_reverse, ← List.map_take, List.flatMap_map]
    rfl
  rw [hrecent]
  simp only [Node.committeeMembers, List.mem_insertionSort, List.mem_dedup, List.cons_append,
    List.mem_cons, List.mem_append, nodeAndPeers, Finset.mem_insert, List.mem_toFinset]
  tauto

/-- A committee is determined by its members. -/
theorem committeeMembers_ext (h : ∀ id, id ∈ n.committeeMembers ↔ id ∈ m.committeeMembers) :
    n.committeeMembers = m.committeeMembers := by
  have hsorted (n : Node) : n.committeeMembers.Pairwise (· ≤ ·) := List.pairwise_insertionSort _ _
  have hperm := (List.perm_ext_iff_of_nodup (committeeMembers_nodup n)
    (committeeMembers_nodup m)).mpr h
  exact hperm.eq_of_pairwise
    (fun _ _ _ _ hab hba => le_antisymm hab hba) (hsorted n) (hsorted m)

/-- The claims table depends on the contents of the chain only. -/
theorem claims_congr {st st' : ChainStore} (hA : Refines st A) (hB : Refines st' B)
    (h : A.map content = B.map content) : st.claims = st'.claims := by
  have hrows (l : List Checkpoint) : l.flatMap claimRows = (l.map content).flatMap fun e =>
      claimRows ⟨e.1, e.2, 0⟩ := by
    rw [List.flatMap_map]
    rfl
  rw [hA.claims_eq, hB.claims_eq, hrows, hrows, h]

/-- The ranking is read from the claims. -/
theorem ranksBefore_congr {st st' : ChainStore} (h : st.claims = st'.claims) :
    Node.ranksBefore st = Node.ranksBefore st' := by
  have hcu : st.totalCuForNode = st'.totalCuForNode := by
    funext id
    rw [ChainStore.totalCuForNode, h, ChainStore.totalCuForNode]
  funext a b
  rw [Node.ranksBefore, hcu, Node.ranksBefore]

/-- The sealer of a view is a member of the committee, never the fallback. -/
theorem sealerForView_congr (hrank : Node.ranksBefore n.store = Node.ranksBefore m.store)
    (hmem : n.committeeMembers = m.committeeMembers) (view : Int64) :
    n.sealerForView view = m.sealerForView view := by
  have hself : n.nodeId ∈ n.committeeMembers :=
    (mem_committeeMembers _).mpr (.inl (Finset.mem_insert_self _ _))
  unfold Node.sealerForView
  rw [← hrank, ← hmem]
  dsimp only
  have hpos : 0 < (n.committeeMembers.insertionSort
      fun a b => Node.ranksBefore n.store a b).length := by
    rw [List.length_insertionSort]
    exact List.length_pos_of_mem hself
  generalize n.committeeMembers.insertionSort (fun a b => Node.ranksBefore n.store a b) =
    committee at hpos
  have hlt : (view.toInt % committee.length).toNat < committee.length := by
    have hnonneg := Int.emod_nonneg view.toInt (show (committee.length : ℤ) ≠ 0 by omega)
    have hbound := Int.emod_lt_of_pos view.toInt (show (0 : ℤ) < committee.length by omega)
    omega
  rw [List.getD_eq_getElem _ _ hlt, List.getD_eq_getElem _ _ hlt]

/-! ## Agreement -/

variable [SerdeReadsBack] [RyuReadsBack]

/-- Nodes whose heads have the same hash hold chains with the same contents. -/
theorem content_eq_of_head_eq (hsha : Sha256CollisionFree) (hA : Refines n.store A)
    (hB : Refines m.store B) {a b : Checkpoint} (ha : n.store.head = some a)
    (hb : m.store.head = some b) (hhash : a.blockHash = b.blockHash) :
    A.map content = B.map content := by
  have hheight := hA.head_height
  have hheight' := hB.head_height
  have hhead := hA.head_hash
  have hhead' := hB.head_hash
  rw [ha, Option.map_some, Option.getD_some] at hheight hhead
  rw [hb, Option.map_some, Option.getD_some] at hheight' hhead'
  have hsame : a.height = b.height :=
    congrArg (fun p => p.height.toInt) (blockHash_injective hsha hhash).1
  refine content_eq_of_headHash_eq hsha (LedgerChain.linked hA.chain_ok)
    (LedgerChain.linked hB.chain_ok) ⟨by omega, ?_⟩
  rw [← hhead, ← hhead', hhash]

/-- Two nodes in reachable states with the same head hash, the same configuration and the
same set of known nodes elect the same sealer for every view and require the same quorum,
whatever their histories. -/
theorem election_agrees (hsha : Sha256CollisionFree) (hn : Node.Reachable n)
    (hm : Node.Reachable m) {a b : Checkpoint} (ha : n.store.head = some a)
    (hb : m.store.head = some b) (hhash : a.blockHash = b.blockHash)
    (hconfig : n.config = m.config) (hset : nodeAndPeers n = nodeAndPeers m) :
    (∀ view, n.sealerForView view = m.sealerForView view) ∧ n.quorumSize = m.quorumSize := by
  obtain ⟨A, hA⟩ := (reachable_idle hn).1.chain
  obtain ⟨B, hB⟩ := (reachable_idle hm).1.chain
  replace hA : Refines n.store A := hA
  replace hB : Refines m.store B := hB
  have hcontent := content_eq_of_head_eq hsha hA hB ha hb hhash
  have hblocks : n.store.allBlocks.map content = m.store.allBlocks.map content := by
    rw [hA.allBlocks, hB.allBlocks, map_content_readBack, map_content_readBack, hcontent]
  have hmembers : n.committeeMembers = m.committeeMembers :=
    committeeMembers_ext fun id => by
      rw [mem_committeeMembers, mem_committeeMembers, hset, hconfig, hblocks]
  refine ⟨sealerForView_congr (ranksBefore_congr (claims_congr hA hB hcontent)) hmembers, ?_⟩
  rw [Node.quorumSize, Node.quorumSize, hmembers, hconfig]

end Exodus.Analysis

namespace Exodus.Analysis

open Exodus.Library Exodus.Model Exodus.Interface Exodus.Sample

/-- The two nodes of the sample, each of which has heard of the other one. -/
theorem election_pair :
    (∀ view, (ready .a [.b] "t2" 1 3 0.0).sealerForView view =
        (ready .b [.a] "t1" 1 3 0.0).sealerForView view) ∧
      (ready .a [.b] "t2" 1 3 0.0).quorumSize = (ready .b [.a] "t1" 1 3 0.0).quorumSize := by
  exact election_agrees sha256_injective (ready_reachable .a [.b] "t2" (by decide))
    (ready_reachable .b [.a] "t1" (by decide)) (fresh_head .a "t2") (fresh_head .b "t1") rfl rfl (by decide)

end Exodus.Analysis
