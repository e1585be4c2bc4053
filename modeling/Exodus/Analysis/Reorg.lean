import Exodus.Interface.Invariant
import Exodus.Interface.Reorg
import Exodus.Interface.SampleChain

/-!
# When a reorganisation is all or nothing

The re-apply loop of `reconcile_chain` restores the local blocks when a validation
fails.  A refusal by the ledger, after the validation passed, goes unnoticed: in the
middle of the list the next block then fails its validation and the restore is
reached, but after the last block nothing fails any more.  `allOrNothing_iff` says
that this is the only way for a reorganisation to end with a chain that is neither
the old one nor the peer's.
-/

set_option autoImplicit false

namespace Exodus.Analysis

open Exodus.Library Exodus.Model Exodus.Interface

variable [Crates] {n : Node} {peer : List Checkpoint} {chain : List Checkpoint} {k : ℕ}

/-- After `reconcile_chain` the ledger returns the blocks it had, or the local blocks up to
the common ancestor and then all blocks of the peer above it, the latter only for a
winning tip; and its height is not lower. -/
structure AllOrNothing (n : Node) (peer : List Checkpoint) : Prop where
  outcome : (n.reconcileChain peer).store.allBlocks = n.store.allBlocks ∨
    (n.reconcileChain peer).store.allBlocks =
        n.store.allBlocks.take (ancestorOf n peer + 1).toNat ++
          (incomingOf n peer).map readBack ∧
      ∃ tip ∈ (sortedBlocks peer).getLast?, TipWins n.store tip
  height_le : n.store.height ≤ (n.reconcileChain peer).store.height

/-- The reorganisation is started, the ledger takes the peer's blocks up to the last one and
refuses that one although it was validated; and blocks were removed or added by then. -/
def Stranded (n : Node) (peer : List Checkpoint) : Prop :=
  Enters n peer ∧
    (∃ st, LastRefused n.config.flopsTolerance (incomingOf n peer) (baseOf n peer) st) ∧
    (ancestorOf n peer < n.store.height ∨ 1 < (incomingOf n peer).length)

variable [SerdeReadsBack]

/-- A reorganisation that stops before its last block leaves neither chain. -/
theorem Stranded.not_allOrNothing (href : Refines n.store chain) (h : Stranded n peer) :
    ¬ AllOrNothing n peer := by
  rintro ⟨hout, -⟩
  obtain ⟨hin, ⟨st, hlast⟩, hmoved⟩ := h
  obtain ⟨k, hk, ha, hnone, -⟩ := href.commonAncestor (sortedBlocks peer)
  have hbase := href.baseOf ha
  have hstore := href.reconcileChain_lastRefused hk ha hin hlast
  obtain ⟨init, last, hincoming, hinit, -⟩ := hlast
  have href' := ((hbase.adoptAll_eq_some_iff init).mp hinit).2
  rw [hstore, href'.allBlocks, href.allBlocks] at hout
  rw [href.height, show ancestorOf n peer = (k : ℤ) - 1 from ha, hincoming, List.length_append,
    List.length_singleton] at hmoved
  rcases hout with hsame | ⟨hpeer, -⟩
  · -- the first adopted block would be the local one, above the common ancestor
    have hlen := congrArg List.length hsame
    simp only [List.length_map, List.length_append, List.length_take] at hlen
    have hpos : 0 < init.length := by omega
    have hlt : k < chain.length := by omega
    have hpoint := congrArg (fun l => l[k]?.map Checkpoint.blockHash) hsame
    have htake : (chain.take k).length = k := by
      rw [List.length_take]
      omega
    have hget : ((chain.take k ++ init).map readBack)[k]? = some (readBack init[0]) := by
      rw [List.getElem?_map, List.getElem?_append_right (by omega), htake, Nat.sub_self,
        List.getElem?_eq_getElem hpos, Option.map_some]
    simp only [hget, List.getElem?_map, List.getElem?_eq_getElem hlt, Option.map_some,
      readBack_blockHash, Option.some.injEq] at hpoint
    have hfirst : (incomingOf n peer)[0]? = some init[0] := by
      rw [hincoming, List.getElem?_append_left hpos, List.getElem?_eq_getElem hpos]
    obtain ⟨hpos', hfirst'⟩ := List.getElem?_eq_some_iff.mp hfirst
    have hheight := contiguous_getElem hin.2 hpos'
    have hmem : init[0] ∈ incomingOf n peer := List.mem_of_getElem? hfirst
    refine hnone k hlt le_rfl init[0] (List.mem_of_mem_filter hmem) ?_ hpoint
    rw [← hfirst', hheight, show ancestorOf n peer = (k : ℤ) - 1 from ha]
    push_cast
    ring
  · have hlen := congrArg List.length hpeer
    rw [show ancestorOf n peer = (k : ℤ) - 1 from ha, hincoming] at hlen
    simp only [List.length_map, List.length_append, List.length_take, List.length_singleton]
      at hlen
    omega

/-- A started reorganisation that is not stranded ends on one of the two chains. -/
theorem allOrNothing_of_enters (href : Refines n.store chain) (hin : Enters n peer)
    (hstranded : ¬ Stranded n peer) : AllOrNothing n peer := by
  obtain ⟨k, hk, ha, -, -⟩ := href.commonAncestor (sortedBlocks peer)
  have hbase := href.baseOf ha
  -- the old chain, block by block as the ledger returns it
  have hkept {m : List Checkpoint} (hm : Refines (n.reconcileChain peer).store m)
      (hblocks : m.map readBack = chain.map readBack) : AllOrNothing n peer := by
    refine ⟨.inl ?_, ?_⟩
    · rw [hm.allBlocks, href.allBlocks, hblocks]
    · have hlen := congrArg List.length hblocks
      simp only [List.length_map] at hlen
      rw [hm.height, href.height, hlen]
  by_cases hlast : ∃ st, LastRefused n.config.flopsTolerance (incomingOf n peer) (baseOf n peer) st
  · obtain ⟨st, hlast⟩ := hlast
    have hstill : ¬ (ancestorOf n peer < n.store.height ∨ 1 < (incomingOf n peer).length) :=
      fun hmoved => hstranded ⟨hin, ⟨st, hlast⟩, hmoved⟩
    have hstore := href.reconcileChain_lastRefused hk ha hin hlast
    obtain ⟨init, last, hincoming, hinit, -⟩ := hlast
    rw [href.height, show ancestorOf n peer = (k : ℤ) - 1 from ha, hincoming, List.length_append,
      List.length_singleton] at hstill
    obtain rfl : init = [] := List.length_eq_zero_iff.mp (by omega)
    have href' := ((hbase.adoptAll_eq_some_iff []).mp hinit).2
    rw [List.append_nil, List.take_of_length_le (by omega), ← hstore] at href'
    exact hkept href' rfl
  · cases hadopt : adoptAll n.config.flopsTolerance (incomingOf n peer) (baseOf n peer) with
    | some st =>
      have hstore := href.reconcileChain_adopted hk ha hin hadopt
      have href' := ((hbase.adoptAll_eq_some_iff _).mp hadopt).2
      have hlong := href.length_le_incoming ha hin
      refine ⟨.inr ⟨?_, hin.1⟩, ?_⟩
      · rw [hstore, href'.allBlocks, href.allBlocks, List.map_append, ← List.map_take,
          show ancestorOf n peer = (k : ℤ) - 1 from ha, show ((k : ℤ) - 1 + 1).toNat = k by omega]
      · rw [hstore, href'.height, href.height, List.length_append, List.length_take]
        omega
    | none =>
      refine hkept (href.reconcileChain_restored hk ha hin hadopt (not_exists.mp hlast)) ?_
      rw [List.map_append, List.map_map, show readBack ∘ readBack = readBack from
        funext readBack_readBack, ← List.map_append, List.take_append_drop]

/-- In every reachable state and for every list of blocks from a peer, the reorganisation is
all or nothing exactly when it is not stranded. -/
theorem allOrNothing_iff (hn : Node.Reachable n) (peer : List Checkpoint) :
    AllOrNothing n peer ↔ ¬ Stranded n peer := by
  obtain ⟨chain, href⟩ := (reachable_idle hn).1.chain
  constructor
  · exact fun h hs => hs.not_allOrNothing href h
  · intro h
    by_cases hin : Enters n peer
    · exact allOrNothing_of_enters href hin h
    · have hsame := reconcileChain_of_not_enters hin
      exact ⟨.inl (by rw [hsame]), by rw [hsame]⟩

end Exodus.Analysis

namespace Exodus.Analysis

open Exodus.Library Exodus.Model Exodus.Interface Exodus.Sample

/-- The rival block is another one at height 1. -/
theorem rival_forks :
    Forks (after firstBlock .a "t1") [genesisCheckpoint] [firstBlock] [rivalBlock] := by
  refine ⟨(after_spec first_follows .a "t1").1, ?_, by decide, by decide⟩
  simpa using fun _ => blockHash_ne (c := rivalBlock) (d := firstBlock) (by decide)

/-- It has the smaller hash, so it wins. -/
theorem rival_enters : Enters (after firstBlock .a "t1") [genesisCheckpoint, rivalBlock] := by
  obtain ⟨href, -⟩ := after_spec first_follows .a "t1"
  have hless : rivalBlock.blockHash < firstBlock.blockHash := by
    rw [rival_blockHash, first_blockHash]
    decide +kernel
  refine rival_forks.enters (b := genesisCheckpoint) rfl ?_ rfl
    (.inr ⟨href.height.symm, fun head hhead => ?_⟩)
  · rw [genesis_blockHash]
    decide
  · rw [href.head] at hhead
    obtain rfl : readBack firstBlock = head := by simpa using hhead
    rwa [readBack_blockHash]

/-- A reorganisation of the sample: the rival block has the smaller hash and replaces the
first one. -/
theorem allOrNothing_rival :
    AllOrNothing (after firstBlock .a "t1") [genesisCheckpoint, rivalBlock] := by
  refine (allOrNothing_iff (after_reachable firstBlock .a "t1") _).mpr ?_
  rintro ⟨-, ⟨st, init, last, hincoming, hinit, -, e, happ⟩, -⟩
  rw [show incomingOf _ [genesisCheckpoint, rivalBlock] = _ from rival_forks.incomingOf_eq] at hincoming
  obtain ⟨rfl, rfl⟩ : init = [] ∧ last = rivalBlock := by
    cases init with
    | nil => exact ⟨rfl, (List.singleton_inj.mp hincoming).symm⟩
    | cons x xs => simp at hincoming
  obtain rfl : _ = st := Option.some.inj hinit
  obtain ⟨st', hok⟩ := rival_forks.baseOf_refines.append_extends rival_follows.can_append
  cases hok.symm.trans happ

/-- A peer's block that wins by its hash, passes the validation and is refused by the ledger:
the node has removed its own block by then and is left with genesis. -/
theorem stranded_clash :
    Node.Reachable (after firstBlock .a "t1") ∧
      ¬ AllOrNothing (after firstBlock .a "t1") [genesisCheckpoint, clashBlock] := by
  obtain ⟨href, hconfig⟩ := after_spec first_follows .a "t1"
  have hfork : Forks (after firstBlock .a "t1") [genesisCheckpoint] [firstBlock] [clashBlock] := by
    refine ⟨href, ?_, by decide, by decide⟩
    simpa using fun _ => blockHash_ne (c := clashBlock) (d := firstBlock) (by decide)
  have hbase : Refines (baseOf _ [genesisCheckpoint, clashBlock]) _ := hfork.baseOf_refines
  have hancestor : ancestorOf _ [genesisCheckpoint, clashBlock] = _ := hfork.ancestorOf_eq
  have hincoming : incomingOf _ [genesisCheckpoint, clashBlock] = _ := hfork.incomingOf_eq
  refine ⟨after_reachable firstBlock .a "t1", Stranded.not_allOrNothing href ⟨?_, ?_, .inl ?_⟩⟩
  · have hless : clashBlock.blockHash < firstBlock.blockHash := by
      rw [clash_blockHash, first_blockHash]
      decide +kernel
    refine hfork.enters (b := genesisCheckpoint) rfl ?_ rfl (.inr ⟨href.height.symm, fun head hhead => ?_⟩)
    · rw [genesis_blockHash]
      decide
    · rw [href.head] at hhead
      obtain rfl : readBack firstBlock = head := by simpa using hhead
      rwa [readBack_blockHash]
  · refine ⟨_, [], clashBlock, hincoming, rfl, ?_, ?_⟩
    · rw [hconfig]
      exact (hbase.validateCheckpoint_ok_iff clashBlock 0 (some ∅) rfl).mpr clash_passes
    · cases happ : (baseOf (after firstBlock .a "t1") [genesisCheckpoint, clashBlock]).append clashBlock with
      | error e => exact ⟨e, rfl⟩
      | ok st => exact absurd (hbase.append_ok happ).1 clash_not_extends
  · rw [hancestor, href.height]
    decide

end Exodus.Analysis
