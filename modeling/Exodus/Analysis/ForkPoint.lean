import Exodus.Analysis.ForkChoice
import Exodus.Analysis.Reorg

/-!
# The fork point

`common_ancestor` goes down from the head and stops at the first height at which the peer has
a block with the hash of the local one.  It never looks below that height.  In two chains
whose blocks name each other's hashes it need not: equal hashes put equal blocks below them,
so the height is the last one of the common part (`common_ancestor_exact`), and what a
reorganisation cuts off is the local part of the fork.
-/

set_option autoImplicit false

namespace Exodus.Analysis

open Exodus.Library Exodus.Model Exodus.Interface

variable [Crates] {st : ChainStore} {n : Node} {chain peer : List Checkpoint}

/-- The peer has a block at the height, and its hash is that of the local block there. -/
def AgreeAt (st : ChainStore) (peer : List Checkpoint) (h : ℤ) : Prop :=
  ∃ own, st.getBlock h = some own ∧ ∃ b ∈ peer, b.height = h ∧ b.blockHash = own.blockHash

/-- The two chains agree up to the height and no further; they have nothing in common at
height `-1`. -/
structure ForkPoint (st : ChainStore) (peer : List Checkpoint) (h : ℤ) : Prop where
  ge : -1 ≤ h
  common : ∀ i, 0 ≤ i → i ≤ h → AgreeAt st peer i
  greatest : ∀ h', (∀ i, 0 ≤ i → i ≤ h' → AgreeAt st peer i) → h' ≤ h
  differ : ∀ own, st.getBlock (h + 1) = some own → ∀ b ∈ peer, b.height = h + 1 →
    b.blockHash ≠ own.blockHash

/-- What a reorganisation with the fork point `h` does to the ledger. -/
structure RollsBackTo (n : Node) (peer : List Checkpoint) (h : ℤ) : Prop where
  /-- it is cut to the blocks up to the fork point -/
  kept : (cutNode n peer).store.allBlocks = n.store.allBlocks.take (h + 1).toNat
  /-- at the heights of the other blocks the peer has no such block -/
  removed : ∀ b ∈ n.store.allBlocks.drop (h + 1).toNat, ¬AgreeAt n.store peer b.height
  /-- the peer's blocks above the fork point are tried on what is left -/
  retried : n.reconcileChain peer = Node.reapply h (n.store.allBlocks.drop (h + 1).toNat)
    (peer.filter fun b => h < b.height) 0 (cutNode n peer)
  /-- in the end there are the blocks that were cut off, or blocks of the peer -/
  ends : ∃ above, (n.reconcileChain peer).store.allBlocks =
      n.store.allBlocks.take (h + 1).toNat ++ above ∧
    (above = n.store.allBlocks.drop (h + 1).toNat ∨
      above <+: (peer.filter fun b => h < b.height).map readBack)

variable [SerdeReadsBack]

/-! ## The scan -/

/-- The ledger returns the block of a height as it stands in the chain. -/
theorem getBlock_getElem (hst : Refines st chain) {i : ℕ} (hi : i < chain.length) :
    st.getBlock i = some (readBack chain[i]) := by
  rw [hst.getBlock, blockAt_natCast, List.getElem?_eq_getElem hi, Option.map_some]

/-- A height with a block is within the chain. -/
theorem lt_length_of_getBlock (hst : Refines st chain) {i : ℕ} {own : Checkpoint}
    (h : st.getBlock i = some own) : i < chain.length := by
  rw [hst.getBlock, blockAt_natCast] at h
  obtain ⟨b, hb, -⟩ := Option.map_eq_some_iff.mp h
  exact (List.getElem?_eq_some_iff.mp hb).1

/-- Above the ancestor no block of the peer has the hash of the local one. -/
theorem not_agreeAt_above (hst : Refines st chain) {i : ℕ}
    (h : Node.commonAncestor st peer < i) : ¬AgreeAt st peer i := by
  rintro ⟨own, hown, b, hb, hheight, hhash⟩
  obtain ⟨k, -, ha, hnone, -⟩ := hst.commonAncestor peer
  have hi := lt_length_of_getBlock hst hown
  rw [getBlock_getElem hst hi, Option.some_inj] at hown
  refine hnone i hi (by omega) b hb hheight ?_
  rw [hhash, ← hown, readBack_blockHash]

variable [RyuReadsBack]

/-- Up to the ancestor the blocks of the two chains have the same hashes. -/
theorem agreeAt_below (hsha : Sha256CollisionFree) (hst : Refines st chain)
    (hpeer : LinkedChain peer) {i : ℕ} (h : i ≤ Node.commonAncestor st peer) :
    AgreeAt st peer i := by
  obtain ⟨k, hk, ha, hkB, hcommon⟩ := common_content hsha hst hpeer
  have hi : i < chain.length := by omega
  have hi' : i < peer.length := by omega
  have hhash : chain[i].blockHash = peer[i].blockHash := by
    have hhashes := congrArg (fun l => l[i]?) (map_blockHash_congr hcommon)
    simpa [List.getElem?_take, show i < k by omega, hi, hi'] using hhashes
  refine ⟨readBack chain[i], getBlock_getElem hst hi, peer[i], List.getElem_mem hi', ?_, ?_⟩
  · exact LinkedChain.getElem_height hpeer hi'
  · rw [readBack_blockHash, hhash]

/-- `common_ancestor` finds the last block that both chains have. -/
theorem forkPoint_commonAncestor (hsha : Sha256CollisionFree) (hst : Refines st chain)
    (hpeer : LinkedChain peer) : ForkPoint st peer (Node.commonAncestor st peer) := by
  obtain ⟨k, -, ha, -, -⟩ := hst.commonAncestor peer
  have hnext : ((k : ℕ) : ℤ) = Node.commonAncestor st peer + 1 := by omega
  have habove : ¬AgreeAt st peer (Node.commonAncestor st peer + 1) := by
    rw [← hnext]
    exact not_agreeAt_above hst (by omega)
  refine ⟨by omega, ?_, ?_, ?_⟩
  · intro i hpos hi
    obtain ⟨j, rfl⟩ := Int.eq_ofNat_of_zero_le hpos
    exact agreeAt_below hsha hst hpeer hi
  · intro h' hagree
    by_contra hgreater
    exact habove (hagree _ (by omega) (by omega))
  · intro own hown b hb hheight hhash
    exact habove ⟨own, hown, b, hb, hheight, hhash⟩

/-! ## The reorganisation -/

omit [RyuReadsBack] in
/-- The reorganisation rolls back to that block. -/
theorem rollsBackTo_commonAncestor (hst : Refines n.store chain) (hpeer : LinkedChain peer)
    (hin : Enters n peer) : RollsBackTo n peer (Node.commonAncestor n.store peer) := by
  have hsort : sortedBlocks peer = peer := sortedBlocks_of_perm hpeer (List.Perm.refl peer)
  obtain ⟨k, hk, ha, -, -⟩ := hst.commonAncestor peer
  have hancestor : ancestorOf n peer = (k : ℤ) - 1 := by rw [ancestorOf, hsort, ha]
  have hincoming : incomingOf n peer = peer.filter fun b => (k : ℤ) - 1 < b.height := by
    rw [incomingOf, hsort, hancestor]
  have hcount : (Node.commonAncestor n.store peer + 1).toNat = k := by omega
  have hdrop : (chain.drop k).map readBack = n.store.allBlocks.drop k := by
    rw [hst.allBlocks, List.map_drop]
  have htake : (chain.take k).map readBack = n.store.allBlocks.take k := by
    rw [hst.allBlocks, List.map_take]
  refine ⟨?_, ?_, ?_, ?_⟩ <;> rw [hcount]
  · rw [(hst.cut hk hancestor).allBlocks, htake]
  · intro b hb
    rw [← hdrop] at hb
    obtain ⟨c, hc, rfl⟩ := List.mem_map.mp hb
    obtain ⟨i, hi, rfl⟩ := List.mem_iff_getElem.mp hc
    rw [List.length_drop] at hi
    rw [readBack_height, List.getElem_drop,
      LedgerChain.getElem_height hst.chain_ok (show k + i < chain.length by omega)]
    exact not_agreeAt_above hst (by omega)
  · rw [reconcileChain_of_enters hin, hancestor, hst.savedAbove hk, hincoming, hdrop, ha]
  · rcases hst.reconcileChain_cases hk hancestor hin with ⟨st', -, href⟩ |
      ⟨init, last, hsplit, -, href⟩ | ⟨-, -, href⟩
    · refine ⟨(incomingOf n peer).map readBack, ?_, .inr ?_⟩
      · rw [href.allBlocks, List.map_append, htake]
      · rw [hincoming, ha]
    · refine ⟨init.map readBack, ?_, .inr ?_⟩
      · rw [href.allBlocks, List.map_append, htake]
      · rw [ha, ← hincoming, hsplit, List.map_append]
        exact List.prefix_append _ _
    · refine ⟨n.store.allBlocks.drop k, ?_, .inl rfl⟩
      rw [href.allBlocks, List.map_append, htake, List.map_map,
        show readBack ∘ readBack = readBack from funext readBack_readBack, hdrop]

/-- The common ancestor of a ledger and a hash-linked chain is their fork point, and a
reorganisation cuts off what lies above it. -/
theorem common_ancestor_exact (hsha : Sha256CollisionFree) (hst : Refines st chain)
    (hpeer : LinkedChain peer) :
    ForkPoint st peer (Node.commonAncestor st peer) ∧
      ∀ n : Node, n.store = st → Enters n peer →
        RollsBackTo n peer (Node.commonAncestor st peer) := by
  refine ⟨forkPoint_commonAncestor hsha hst hpeer, ?_⟩
  rintro n rfl hin
  exact rollsBackTo_commonAncestor hst hpeer hin

end Exodus.Analysis

namespace Exodus.Analysis

open Exodus.Library Exodus.Model Exodus.Interface Exodus.Sample

/-- The chains of the sample fork after genesis: the rival block is tried on it. -/
theorem rival_forks_at_genesis :
    ForkPoint (after firstBlock .a "t1").store [genesisCheckpoint, rivalBlock] 0 ∧
      RollsBackTo (after firstBlock .a "t1") [genesisCheckpoint, rivalBlock] 0 := by
  obtain ⟨href, -⟩ := after_spec first_follows .a "t1"
  have hpeer : LinkedChain [genesisCheckpoint, rivalBlock] :=
    LedgerChain.linked (after_spec rival_follows .a "t1").1.chain_ok
  have hancestor : Node.commonAncestor (after firstBlock .a "t1").store
      [genesisCheckpoint, rivalBlock] = 0 := by
    have hsorted : sortedBlocks [genesisCheckpoint, rivalBlock] = _ := rival_forks.sortedBlocks_eq
    have hlast : ancestorOf _ [genesisCheckpoint, rivalBlock] = 0 := rival_forks.ancestorOf_eq
    rwa [ancestorOf, hsorted] at hlast
  obtain ⟨hpoint, hrolls⟩ := common_ancestor_exact sha256_injective href hpeer
  rw [hancestor] at hpoint hrolls
  exact ⟨hpoint, hrolls _ rfl rival_enters⟩

end Exodus.Analysis
