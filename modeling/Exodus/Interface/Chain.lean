import Exodus.Interface.LedgerSpec
import Exodus.Interface.Wire
import Exodus.Library.Log

/-!
# The ledger as a chain of checkpoints

The abstract ledger is a list of checkpoints, block `h` at position `h`, each of
which extends the blocks below it (`Extends`).  `Refines st chain` says that the
tables hold exactly the rows of that chain.  The operations of the store are the
operations on lists: `append` succeeds exactly on a block that extends the chain
and adds it at the end, `rollback` keeps a first segment, and a read returns the
block at a position in the form `readBack`, which differs from the appended block
in its quorum only.
-/

set_option autoImplicit false

namespace Exodus.Interface

open Exodus.Library Exodus.Model

variable [Crates] {st st' : ChainStore} {chain : List Checkpoint} {c : Checkpoint}

/-! ## Chains -/

/-- All claims of a chain, in order. -/
def chainClaims (chain : List Checkpoint) : List SignedContribution :=
  chain.flatMap fun c => c.proposal.claims

def chainClaimIds (chain : List Checkpoint) : List String :=
  (chainClaims chain).map fun s => s.claim.claimId

def chainNodeSeqs (chain : List Checkpoint) : List (String × Int64) :=
  (chainClaims chain).map fun s => (s.claim.nodeId, s.claim.seq)

omit [Crates] in
/-- The claims of two chains in a row are those of the first and of the second. -/
@[simp] theorem chainClaims_append (l m : List Checkpoint) :
    chainClaims (l ++ m) = chainClaims l ++ chainClaims m := List.flatMap_append

omit [Crates] in
/-- A block adds its claim ids. -/
theorem chainClaimIds_concat (l : List Checkpoint) (c : Checkpoint) :
    chainClaimIds (l ++ [c]) = chainClaimIds l ++ c.proposal.claimIds := by
  simp [chainClaimIds, chainClaims, CheckpointProposal.claimIds]

omit [Crates] in
/-- A block adds its pairs of node and number. -/
theorem chainNodeSeqs_concat (l : List Checkpoint) (c : Checkpoint) :
    chainNodeSeqs (l ++ [c]) = chainNodeSeqs l ++ c.proposal.nodeSeqs := by
  simp [chainNodeSeqs, chainClaims, CheckpointProposal.nodeSeqs]

/-- The hash that the next block has to name. -/
def headHash (chain : List Checkpoint) : String :=
  tipHash Checkpoint.blockHash genesisPrevHash chain

/-- The head of a chain is its last block. -/
@[simp] theorem headHash_concat (l : List Checkpoint) (c : Checkpoint) :
    headHash (l ++ [c]) = c.blockHash := tipHash_concat l c

/-- The block can be appended to the chain. -/
structure Extends (chain : List Checkpoint) (c : Checkpoint) : Prop where
  height_eq : c.height = chain.length
  prevHash_eq : c.proposal.prevHash = headHash chain
  epoch_nonneg : 0 ≤ c.epoch
  hash_fresh : c.blockHash ∉ chain.map Checkpoint.blockHash
  ids_nodup : (chainClaimIds (chain ++ [c])).Nodup
  pairs_nodup : (chainNodeSeqs (chain ++ [c])).Nodup
  cu_notNull : ∀ s ∈ c.proposal.claims, (computeUnits s.claim).isNaN = false

/-- A chain that the ledger can hold. -/
abbrev LedgerChain : List Checkpoint → Prop := Log Extends

/-- The block has the next height and names the last hash of the chain; nothing is said of
its claims. -/
structure StandsOn (chain : List Checkpoint) (c : Checkpoint) : Prop where
  height_eq : c.height = chain.length
  prevHash_eq : c.proposal.prevHash = headHash chain

/-- Blocks at the heights from 0 on, linked by their hashes. -/
abbrev LinkedChain : List Checkpoint → Prop := Log StandsOn

/-- What the ledger takes is linked. -/
theorem LedgerChain.linked {chain : List Checkpoint} (h : LedgerChain chain) : LinkedChain chain :=
  h.imp fun _ _ _ hext => ⟨hext.height_eq, hext.prevHash_eq⟩

/-- The block at a height. -/
def blockAt (chain : List Checkpoint) (h : ℤ) : Option Checkpoint :=
  if h < 0 then none else chain[h.toNat]?

omit [Crates] in
/-- The block at a height is the one with that index. -/
@[simp] theorem blockAt_natCast (chain : List Checkpoint) (i : ℕ) :
    blockAt chain (i : ℤ) = chain[i]? := by
  simp [blockAt]

omit [Crates] in
/-- There are no blocks below height 0. -/
theorem blockAt_of_neg {h : ℤ} (hh : h < 0) : blockAt chain h = none := if_pos hh

omit [Crates] in
/-- A height with a block is a position of the chain. -/
theorem blockAt_eq_some {h : ℤ} {b : Checkpoint} (hb : blockAt chain h = some b) :
    ∃ i : ℕ, ∃ hi : i < chain.length, h = i ∧ b = chain[i] := by
  rcases lt_or_ge h 0 with hneg | hpos
  · rw [blockAt_of_neg hneg] at hb
    cases hb
  · obtain ⟨i, rfl⟩ := Int.eq_ofNat_of_zero_le hpos
    rw [blockAt_natCast, List.getElem?_eq_some_iff] at hb
    obtain ⟨hi, rfl⟩ := hb
    exact ⟨i, hi, rfl, rfl⟩

/-- In a linked chain the index of a block is its height. -/
theorem LinkedChain.getElem_height (hc : LinkedChain chain) {i : ℕ} (hi : i < chain.length) :
    (chain[i]).height = i := by
  rw [(hc.ok_getElem hi).height_eq, List.length_take]
  omega

/-- In a chain of the ledger a block has its position as its height. -/
theorem LedgerChain.getElem_height (hc : LedgerChain chain) {i : ℕ} (hi : i < chain.length) :
    (chain[i]).height = i := LinkedChain.getElem_height (LedgerChain.linked hc) hi

/-- The heights are 0, 1 and so on. -/
theorem LedgerChain.map_height (hc : LedgerChain chain) :
    chain.map Checkpoint.height = (List.range chain.length).map Int.ofNat := by
  refine List.ext_getElem (by simp) fun i hi _ => ?_
  simp [LedgerChain.getElem_height hc (by simpa using hi)]

/-- Looking for a height finds the block with that index. -/
theorem LedgerChain.find_height (hc : LedgerChain chain) (h : ℤ) :
    (chain.find? fun c => decide (c.height = h)) = blockAt chain h := by
  rcases lt_or_ge h 0 with hneg | hpos
  · rw [blockAt_of_neg hneg, List.find?_eq_none]
    intro c hmem
    obtain ⟨i, hi, rfl⟩ := List.mem_iff_getElem.mp hmem
    simp only [LedgerChain.getElem_height hc hi, decide_eq_true_eq]
    omega
  · obtain ⟨k, rfl⟩ := Int.eq_ofNat_of_zero_le hpos
    rw [blockAt_natCast]
    by_cases hk : k < chain.length
    · rw [List.getElem?_eq_getElem hk, List.find?_eq_some_iff_getElem]
      refine ⟨by simp [LedgerChain.getElem_height hc hk], k, hk, rfl, fun j hj => ?_⟩
      simp [LedgerChain.getElem_height hc (hj.trans hk), hj.ne]
    · rw [List.getElem?_eq_none (not_lt.mp hk), List.find?_eq_none]
      intro c hmem
      obtain ⟨i, hi, rfl⟩ := List.mem_iff_getElem.mp hmem
      simp only [LedgerChain.getElem_height hc hi, decide_eq_true_eq]
      omega

/-- What a block hash covers: everything of the block but its quorum. -/
def content (c : Checkpoint) : CheckpointProposal × List QuorumSignature :=
  (c.proposal, c.signatures)

omit [Crates] in
/-- Chains of the same contents have the same claims. -/
theorem chainClaims_congr {l m : List Checkpoint} (h : l.map content = m.map content) :
    chainClaims l = chainClaims m := by
  have hflat (l : List Checkpoint) :
      chainClaims l = (l.map content).flatMap fun e => e.1.claims := by
    rw [List.flatMap_map]
    rfl
  rw [hflat, hflat, h]

/-- They have the same hashes. -/
theorem map_blockHash_congr {l m : List Checkpoint} (h : l.map content = m.map content) :
    l.map Checkpoint.blockHash = m.map Checkpoint.blockHash := by
  have hmap (l : List Checkpoint) : l.map Checkpoint.blockHash =
      (l.map content).map fun e => (⟨e.1, e.2, 0⟩ : Checkpoint).blockHash := by
    rw [List.map_map]
    rfl
  rw [hmap, hmap, h]

/-- They have the same head. -/
theorem headHash_congr {l m : List Checkpoint} (h : l.map content = m.map content) :
    headHash l = headHash m := by
  have hmap := congrArg List.getLast? (map_blockHash_congr h)
  rw [List.getLast?_map, List.getLast?_map] at hmap
  rw [headHash, headHash, tipHash, tipHash, hmap]

/-- Whether a block extends a chain depends on contents only. -/
theorem Extends.congr {l m : List Checkpoint} {c c' : Checkpoint}
    (h : l.map content = m.map content) (hc : content c = content c') (hext : Extends l c) :
    Extends m c' := by
  have hlen : l.length = m.length := by simpa using congrArg List.length h
  have hsnoc : (l ++ [c]).map content = (m ++ [c']).map content := by
    rw [List.map_append, List.map_append, h, List.map_singleton, List.map_singleton, hc]
  have hp : c.proposal = c'.proposal := congrArg Prod.fst hc
  have hhash : c.blockHash = c'.blockHash := by
    simpa using map_blockHash_congr (l := [c]) (m := [c']) (by simpa using hc)
  refine ⟨?_, ?_, ?_, ?_, ?_, ?_, ?_⟩
  · rw [Checkpoint.height, ← hp, ← hlen]
    exact hext.height_eq
  · rw [← hp, ← headHash_congr h]
    exact hext.prevHash_eq
  · rw [Checkpoint.epoch, ← hp]
    exact hext.epoch_nonneg
  · rw [← hhash, ← map_blockHash_congr h]
    exact hext.hash_fresh
  · rw [chainClaimIds, ← chainClaims_congr hsnoc]
    exact hext.ids_nodup
  · rw [chainNodeSeqs, ← chainClaims_congr hsnoc]
    exact hext.pairs_nodup
  · rw [← hp]
    exact hext.cu_notNull

/-! ## Refinement -/

/-- The tables hold exactly the rows of the chain. -/
structure Refines (st : ChainStore) (chain : List Checkpoint) : Prop where
  chain_ok : LedgerChain chain
  blocks_eq : st.blocks = chain.map ChainStore.blockRow
  claims_eq : st.claims = chain.flatMap claimRows

/-- The tables are a function of the chain. -/
theorem Refines.store_unique (h : Refines st chain) (h' : Refines st' chain) : st = st' :=
  ChainStore.ext (h.blocks_eq.trans h'.blocks_eq.symm) (h.claims_eq.trans h'.claims_eq.symm)

/-- The empty ledger holds the empty chain. -/
theorem refines_empty : Refines ChainStore.empty [] := ⟨.nil, rfl, rfl⟩

/-- The claims table has the claim ids of the chain. -/
theorem Refines.claimIds (h : Refines st chain) :
    st.claims.map ClaimRow.claimId = chainClaimIds chain := by
  rw [h.claims_eq, chainClaimIds, chainClaims, List.map_flatMap, List.map_flatMap]
  simp [claimRows, ChainStore.claimRow, Function.comp_def]

/-- It has the pairs of node and number of the chain. -/
theorem Refines.nodeSeqs (h : Refines st chain) :
    st.claims.map ClaimRow.nodeSeq = chainNodeSeqs chain := by
  rw [h.claims_eq, chainNodeSeqs, chainClaims, List.map_flatMap, List.map_flatMap]
  simp [claimRows, ChainStore.claimRow, ClaimRow.nodeSeq, Function.comp_def]

/-- The greatest stored height is that of the last block. -/
theorem Refines.headLocked (h : Refines st chain) :
    st.headLocked = if chain = [] then none else some ((chain.length : ℤ) - 1) := by
  have hmap : st.blocks.map BlockRow.height = (List.range chain.length).map Int.ofNat := by
    rw [h.blocks_eq, List.map_map, ← LedgerChain.map_height h.chain_ok]
    rfl
  unfold ChainStore.headLocked
  rw [hmap]
  split_ifs with hnil
  · simp [hnil]
  · have hpos : 0 < chain.length := List.length_pos_iff.mpr hnil
    rw [List.max?_eq_some_iff]
    refine ⟨List.mem_map.mpr ⟨chain.length - 1, ?_, ?_⟩, fun b hb => ?_⟩
    · simp only [List.mem_range]
      omega
    · simp only [Int.ofNat_eq_natCast]
      omega
    · obtain ⟨i, hi, rfl⟩ := List.mem_map.mp hb
      have := List.mem_range.mp hi
      simp only [Int.ofNat_eq_natCast]
      omega

/-- The height of the ledger is one less than the length of the chain. -/
theorem Refines.height (h : Refines st chain) : st.height = (chain.length : ℤ) - 1 := by
  unfold ChainStore.height
  rw [h.headLocked]
  split_ifs with hnil
  · simp [hnil]
  · rfl

/-- The row at a height is the one written for the block there. -/
theorem Refines.rowAt (h : Refines st chain) (k : ℤ) :
    st.rowAt k = (blockAt chain k).map ChainStore.blockRow := by
  rw [← LedgerChain.find_height h.chain_ok]
  unfold ChainStore.rowAt
  rw [h.blocks_eq, List.find?_map]
  rfl

/-- The hash column at a height is the hash of the block there. -/
theorem Refines.blockHashLocked (h : Refines st chain) (k : ℤ) :
    st.blockHashLocked k = (blockAt chain k).map Checkpoint.blockHash := by
  unfold ChainStore.blockHashLocked
  rw [h.rowAt, Option.map_map]
  rfl

/-- `append` expects the hash of the head as the previous one. -/
theorem Refines.expectedPrev (h : Refines st chain) :
    expectedPrev st = some (headHash chain) := by
  unfold Interface.expectedPrev
  rw [h.headLocked]
  rcases List.eq_nil_or_concat' chain with rfl | ⟨l, b, rfl⟩
  · rfl
  · have hlast : ((l ++ [b]).length : ℤ) - 1 = (l.length : ℕ) := by simp
    simp [ChainStore.blockHashLocked, h.rowAt, headHash, ChainStore.blockRow]

/-! ## Writes -/

/-- A successful `append` takes a block that extends the chain and adds it at the end. -/
theorem Refines.append_ok (h : Refines st chain) (ha : st.append c = .ok st') :
    Extends chain c ∧ Refines st' (chain ++ [c]) := by
  obtain ⟨⟨hheight, hprev, hepoch⟩, hb, hc⟩ := (append_ok_iff c).mp ha
  have hb' : st'.blocks = (chain ++ [c]).map ChainStore.blockRow := by
    rw [hb, h.blocks_eq, List.map_append]
    rfl
  have hc' : st'.claims = (chain ++ [c]).flatMap claimRows := by
    rw [hc, h.claims_eq, List.flatMap_append]
    simp
  have hext : Extends chain c := by
    -- what is not in the links is a constraint of the new tables
    have hids := st'.claimIds_nodup
    have hpairs := st'.nodeSeqs_nodup
    have hhash := st'.hashes_nodup
    rw [hc, List.map_append, h.claimIds] at hids
    rw [hc, List.map_append, h.nodeSeqs] at hpairs
    rw [hb', List.map_map, List.map_append] at hhash
    refine ⟨?_, ?_, hepoch, ?_, ?_, ?_, ?_⟩
    · rw [hheight, h.height]
      omega
    · rw [h.expectedPrev] at hprev
      exact (Option.some.inj hprev).symm
    · intro hmem
      exact List.disjoint_of_nodup_append hhash hmem (by simp [ChainStore.blockRow])
    · simpa [chainClaimIds, chainClaims, claimRows, ChainStore.claimRow, Function.comp_def]
        using hids
    · simpa [chainNodeSeqs, chainClaims, claimRows, ChainStore.claimRow, ClaimRow.nodeSeq,
        Function.comp_def] using hpairs
    · intro s hs
      refine st'.cu_notNull (ChainStore.claimRow c.height s) ?_
      rw [hc]
      exact List.mem_append_right _ (List.mem_map_of_mem hs)
  exact ⟨hext, h.chain_ok.snoc hext, hb', hc'⟩

/-- A block that extends the chain is appended. -/
theorem Refines.append_extends (h : Refines st chain) (hext : Extends chain c) :
    ∃ st', st.append c = .ok st' := by
  have hheights : ((st.blocks ++ [ChainStore.blockRow c]).map BlockRow.height).Nodup := by
    rw [List.map_append, List.map_cons, List.map_nil, ← List.concat_eq_append]
    refine List.Nodup.concat ?_ st.heights_nodup
    rw [h.blocks_eq, List.map_map]
    intro hmem
    obtain ⟨b, hb, heq⟩ := List.mem_map.mp hmem
    obtain ⟨i, hi, rfl⟩ := List.mem_iff_getElem.mp hb
    have h1 : (chain[i]).height = c.height := heq
    rw [LedgerChain.getElem_height h.chain_ok hi, hext.height_eq] at h1
    omega
  have hhashes : ((st.blocks ++ [ChainStore.blockRow c]).map BlockRow.blockHash).Nodup := by
    rw [List.map_append, List.map_cons, List.map_nil, ← List.concat_eq_append]
    refine List.Nodup.concat ?_ st.hashes_nodup
    rw [h.blocks_eq, List.map_map]
    exact hext.hash_fresh
  have hids : ((st.claims ++ claimRows c).map ClaimRow.claimId).Nodup := by
    rw [List.map_append, h.claimIds]
    simpa [chainClaimIds, chainClaims, claimRows, ChainStore.claimRow, Function.comp_def]
      using hext.ids_nodup
  have hpairs : ((st.claims ++ claimRows c).map ClaimRow.nodeSeq).Nodup := by
    rw [List.map_append, h.nodeSeqs]
    simpa [chainNodeSeqs, chainClaims, claimRows, ChainStore.claimRow, ClaimRow.nodeSeq,
      Function.comp_def] using hext.pairs_nodup
  have hcu : ∀ r ∈ st.claims ++ claimRows c, r.cu.isNaN = false := by
    intro r hr
    rcases List.mem_append.mp hr with hr | hr
    · exact st.cu_notNull r hr
    · obtain ⟨s, hs, rfl⟩ := List.mem_map.mp hr
      exact hext.cu_notNull s hs
  refine ⟨⟨_, _, hheights, hhashes, hids, hpairs, hcu⟩, (append_ok_iff c).mpr ⟨⟨?_, ?_, ?_⟩, rfl, rfl⟩⟩
  · rw [hext.height_eq, h.height]
    omega
  · rw [h.expectedPrev, hext.prevHash_eq]
  · exact hext.epoch_nonneg

/-- A block that is appended adds its claim ids to the committed ones. -/
theorem Refines.allCommittedClaimIds_append (h : Refines st chain) (ha : st.append c = .ok st') :
    st'.allCommittedClaimIds = st.allCommittedClaimIds ∪ c.proposal.claimIds.toFinset := by
  rw [ChainStore.allCommittedClaimIds, (h.append_ok ha).2.claimIds, chainClaimIds_concat,
    List.toFinset_append, ← h.claimIds, ChainStore.allCommittedClaimIds]

/-- `append` takes the blocks that extend the chain. -/
theorem Refines.append_ok_iff_extends (h : Refines st chain) :
    (∃ st', st.append c = .ok st') ↔ Extends chain c :=
  ⟨fun ⟨_, ha⟩ => (h.append_ok ha).1, h.append_extends⟩

/-- `append` adds the block at the end of the chain, or leaves the tables alone. -/
theorem Refines.appended (h : Refines st chain) (c : Checkpoint) :
    Extends chain c ∧ Refines (st.appended c) (chain ++ [c]) ∨
      ¬ Extends chain c ∧ st.appended c = st := by
  unfold ChainStore.appended
  cases ha : st.append c with
  | ok st' => exact .inl (h.append_ok ha)
  | error e =>
    refine .inr ⟨fun hext => ?_, rfl⟩
    obtain ⟨st', hok⟩ := h.append_extends hext
    rw [ha] at hok
    cases hok

/-- The ledger with a block that extends its chain. -/
theorem Refines.appended_extends (h : Refines st chain) (hext : Extends chain c) :
    Refines (st.appended c) (chain ++ [c]) := by
  rcases h.appended c with ⟨-, h'⟩ | ⟨hnot, -⟩
  · exact h'
  · exact absurd hext hnot

/-- The blocks up to a height are a first part of the chain. -/
theorem LedgerChain.filter_height (hc : LedgerChain chain) (k : ℤ) :
    chain.filter (fun c => decide (c.height ≤ k)) = chain.take (k + 1).toNat := by
  induction hc with
  | nil => simp
  | @snoc l a hl ha ih =>
    rw [List.filter_append, ih]
    rcases le_or_gt (l.length : ℤ) k with hk | hk
    · have hall : l.length + 1 ≤ (k + 1).toNat := by omega
      rw [List.take_of_length_le (by omega), List.take_of_length_le (by simpa using hall)]
      simp [ha.height_eq, hk]
    · rw [List.take_append_of_le_length (by omega)]
      simp [ha.height_eq, hk]

/-- The rows of a block's claims stand at its height. -/
theorem filter_claimRows (c : Checkpoint) (k : ℤ) :
    (claimRows c).filter (fun r => decide (r.height ≤ k)) =
      if c.height ≤ k then claimRows c else [] := by
  unfold claimRows
  rw [List.filter_map]
  split_ifs with hk <;> simp [Function.comp_def, ChainStore.claimRow, hk]

/-- `rollback` keeps a first segment of the chain. -/
theorem Refines.rolledBack (h : Refines st chain) (k : ℤ) :
    Refines (st.rolledBack k) (chain.take (k + 1).toNat) := by
  refine ⟨h.chain_ok.take _, ?_, ?_⟩
  · show st.blocks.filter _ = _
    rw [← LedgerChain.filter_height h.chain_ok, h.blocks_eq, List.filter_map]
    rfl
  · show st.claims.filter _ = _
    rw [← LedgerChain.filter_height h.chain_ok, h.claims_eq]
    clear h
    induction chain with
    | nil => rfl
    | cons b rest ih =>
      rw [List.flatMap_cons, List.filter_append, ih, filter_claimRows, List.filter_cons]
      by_cases hk : b.height ≤ k <;> simp [hk]

/-! ## Reads -/

/-- The quorum as it comes back from the signed column. -/
def storedQuorum (q : UInt64) : UInt64 := UInt64.ofNat (max q.toInt64.toInt 0).toNat

/-- The block as the ledger returns it. -/
def readBack (c : Checkpoint) : Checkpoint := adoptQuorum { c with quorum := storedQuorum c.quorum }

omit [Crates] in
/-- Reading an old row back leaves the proposal. -/
@[simp] theorem adoptQuorum_proposal (c : Checkpoint) :
    (adoptQuorum c).proposal = c.proposal := by
  unfold adoptQuorum
  split_ifs <;> rfl

omit [Crates] in
/-- It leaves the signatures. -/
@[simp] theorem adoptQuorum_signatures (c : Checkpoint) :
    (adoptQuorum c).signatures = c.signatures := by
  unfold adoptQuorum
  split_ifs <;> rfl

omit [Crates] in
/-- The ledger keeps the proposal of a block. -/
@[simp] theorem readBack_proposal (c : Checkpoint) : (readBack c).proposal = c.proposal := by
  simp [readBack]

omit [Crates] in
/-- It keeps the signatures. -/
@[simp] theorem readBack_signatures (c : Checkpoint) :
    (readBack c).signatures = c.signatures := by
  simp [readBack]

omit [Crates] in
/-- It keeps the height. -/
@[simp] theorem readBack_height (c : Checkpoint) : (readBack c).height = c.height := by
  simp [Checkpoint.height]

omit [Crates] in
/-- It keeps the epoch. -/
@[simp] theorem readBack_epoch (c : Checkpoint) : (readBack c).epoch = c.epoch := by
  simp [Checkpoint.epoch]

omit [Crates] in
/-- It keeps the content, which is all of these. -/
@[simp] theorem content_readBack (c : Checkpoint) : content (readBack c) = content c := by
  simp [content]

omit [Crates] in
/-- It keeps the contents of a chain. -/
@[simp] theorem map_content_readBack (l : List Checkpoint) :
    (l.map readBack).map content = l.map content := by
  simp [List.map_map, Function.comp_def]

/-- Hence a block read back has the same hash. -/
@[simp] theorem readBack_blockHash (c : Checkpoint) : (readBack c).blockHash = c.blockHash := by
  simp [Checkpoint.blockHash, Checkpoint.signaturesValue]

omit [Crates] in
/-- The quorum column loses the quorums above `i64::MAX`, and no others. -/
theorem storedQuorum_eq_or (q : UInt64) : storedQuorum q = q ∨ storedQuorum q = 0 := by
  have hmod : q.toInt64.toInt = (q.toNat : ℤ).bmod (2 ^ 64) :=
    BitVec.toInt_eq_toNat_bmod q.toBitVec
  rcases lt_or_ge q.toNat (2 ^ 63) with hq | hq
  · left
    have hint : q.toInt64.toInt = q.toNat := by
      rw [hmod]
      exact Int.bmod_eq_of_le (by omega) (by omega)
    rw [storedQuorum, hint, max_eq_left (by omega), Int.toNat_natCast, UInt64.ofNat_toNat]
  · right
    have hlt := q.toNat_lt
    have hint : q.toInt64.toInt ≤ 0 := by
      rw [hmod]
      have : ((q.toNat : ℤ)).bmod (2 ^ 64) = (q.toNat : ℤ) - 2 ^ 64 := by
        rw [← Int.sub_bmod_right]
        exact Int.bmod_eq_of_le (by omega) (by omega)
      omega
    rw [storedQuorum, max_eq_right hint]
    rfl

omit [Crates] in
/-- Reading a block that was read before returns it as it is. -/
@[simp] theorem readBack_readBack (c : Checkpoint) : readBack (readBack c) = readBack c := by
  have hzero : storedQuorum 0 = 0 := rfl
  unfold readBack adoptQuorum
  rcases storedQuorum_eq_or c.quorum with hq | hq <;>
    rcases storedQuorum_eq_or (UInt64.ofNat c.signatures.length) with hl | hl <;>
    split_ifs <;> simp_all

omit [Crates] in
/-- A list is that of its entries at all indices. -/
theorem filterMap_range_getElem? (l : List Checkpoint) :
    (List.range l.length).filterMap (fun i => l[i]?) = l := by
  induction l using List.reverseRecOn with
  | nil => rfl
  | append_singleton l a ih =>
    have hl : (List.range l.length).filterMap (fun i => (l ++ [a])[i]?) = l := by
      rw [← List.filterMap_congr (f := fun i => l[i]?), ih]
      intro i hi
      rw [List.getElem?_append_left (List.mem_range.mp hi)]
    simp [List.range_succ, hl]

variable [SerdeReadsBack]

/-- The block of a written row is the block read back. -/
theorem blockRow_checkpoint (c : Checkpoint) :
    (ChainStore.blockRow c).checkpoint = readBack c := by
  have hp := SerdeReadsBack.from_to _ (checkpointProposal_toValue_wellFormed c.proposal)
  have hs := SerdeReadsBack.from_to _ (signaturesValue_wellFormed c)
  have hq : max c.quorum.toInt64.toInt 0 = ((storedQuorum c.quorum).toNat : ℤ) := by
    have := c.quorum.toInt64.toInt_lt
    unfold storedQuorum
    rw [UInt64.toNat_ofNat']
    omega
  unfold BlockRow.checkpoint reconstruct readBack
  simp only [ChainStore.blockRow, hp, hs, Option.getD_some, hq]
  rw [Checkpoint.signaturesValue, checkpoint_fromValue_parts]
  rfl

/-- `get_block` returns the block at a height, read back. -/
theorem Refines.getBlock (h : Refines st chain) (k : ℤ) :
    st.getBlock k = (blockAt chain k).map readBack := by
  unfold ChainStore.getBlock
  rw [h.rowAt, Option.map_map]
  exact congrArg (fun f => (blockAt chain k).map f) (funext blockRow_checkpoint)

/-- A stored block is of the height under which it is found. -/
theorem Refines.height_of_getBlock (h : Refines st chain) {k : ℤ} {b : Checkpoint}
    (hb : st.getBlock k = some b) : b.height = k := by
  rw [h.getBlock] at hb
  obtain ⟨c, hc, rfl⟩ := Option.map_eq_some_iff.mp hb
  obtain ⟨i, hi, rfl, rfl⟩ := blockAt_eq_some hc
  rw [readBack_height, LedgerChain.getElem_height h.chain_ok hi]

/-- `head` returns the last block, read back. -/
theorem Refines.head (h : Refines st chain) : st.head = chain.getLast?.map readBack := by
  unfold ChainStore.head
  rw [h.headLocked]
  rcases List.eq_nil_or_concat' chain with rfl | ⟨l, b, rfl⟩
  · rfl
  · have hlast : ((l ++ [b]).length : ℤ) - 1 = (l.length : ℕ) := by simp
    simp [h.getBlock]

/-- `all_blocks` returns the chain, read back. -/
theorem Refines.allBlocks (h : Refines st chain) : st.allBlocks = chain.map readBack := by
  unfold ChainStore.allBlocks
  rw [h.headLocked]
  split_ifs with hnil
  · simp [hnil]
  · have hto : ChainStore.heightsTo ((chain.length : ℤ) - 1) =
        (List.range chain.length).map Int.ofNat := by
      simp [ChainStore.heightsTo]
    have hget : st.getBlock ∘ Int.ofNat = fun i => (chain[i]?).map readBack := by
      funext i
      exact (h.getBlock i).trans (by rw [blockAt_natCast])
    simp only [hto, List.filterMap_map, hget, ← List.map_filterMap, filterMap_range_getElem?]

end Exodus.Interface
