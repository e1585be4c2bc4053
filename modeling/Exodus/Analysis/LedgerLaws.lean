import Exodus.Analysis.Appendability
import Exodus.Analysis.LedgerRuns
import Exodus.Interface.Reorg

/-!
# The laws of `append` and `rollback`

`append` takes exactly the blocks that come next and repeat nothing, and a refused block
leaves no trace.  Besides, the schema wants a number in the `cu` column, and SQLite stores a
NaN as a null: a claim whose compute units are not a number keeps its block out.

Blocks that were read and then rolled back can be appended again, and the ledger reads as
before.
-/

set_option autoImplicit false

namespace Exodus.Analysis

open Exodus.Library Exodus.Model Exodus.Interface

variable [Crates] {st st' : ChainStore} {chain : List Checkpoint} {c : Checkpoint}

/-! ## What `append` takes -/

/-- The block comes next on the tables and repeats nothing that they hold. -/
structure ComesNext (st : ChainStore) (c : Checkpoint) : Prop where
  height_eq : c.height = st.height + 1
  prevHash_eq : expectedPrev st = some c.proposal.prevHash
  epoch_nonneg : 0 ≤ c.epoch
  hash_fresh : c.blockHash ∉ st.blocks.map BlockRow.blockHash
  ids_nodup : c.proposal.claimIds.Nodup
  ids_fresh : ∀ s ∈ c.proposal.claims, st.claimExists s.claim.claimId = false
  pairs_nodup : c.proposal.nodeSeqs.Nodup
  pairs_fresh : ∀ s ∈ c.proposal.claims, st.nodeSeqExists s.claim.nodeId s.claim.seq = false

/-- The compute units of every claim are a number. -/
def Creditable (c : Checkpoint) : Prop :=
  ∀ s ∈ c.proposal.claims, (computeUnits s.claim).isNaN = false

/-- The block's ids are new exactly when the ids of the longer chain differ. -/
theorem ids_nodup_iff (h : Refines st chain) (c : Checkpoint) :
    (chainClaimIds (chain ++ [c])).Nodup ↔ c.proposal.claimIds.Nodup ∧
      ∀ s ∈ c.proposal.claims, st.claimExists s.claim.claimId = false := by
  have hchain : (chainClaimIds chain).Nodup := h.claimIds ▸ st.claimIds_nodup
  have hnew (s : SignedContribution) : st.claimExists s.claim.claimId = false ↔
      s.claim.claimId ∉ chainClaimIds chain := by
    rw [← h.claimIds, ← claimExists_iff, Bool.not_eq_true]
  rw [chainClaimIds_concat, List.nodup_append', and_iff_right hchain]
  simp only [hnew, CheckpointProposal.claimIds, List.disjoint_right, List.forall_mem_map]

/-- A block extends the chain if it comes next and its claims can be credited. -/
theorem extends_iff_comesNext (h : Refines st chain) :
    Extends chain c ↔ ComesNext st c ∧ Creditable c := by
  have hhashes : st.blocks.map BlockRow.blockHash = chain.map Checkpoint.blockHash := by
    rw [h.blocks_eq, List.map_map]
    rfl
  have hheight : c.height = chain.length ↔ c.height = st.height + 1 := by
    rw [h.height]
    omega
  have hprev : c.proposal.prevHash = headHash chain ↔
      expectedPrev st = some c.proposal.prevHash := by
    rw [h.expectedPrev, Option.some_inj, eq_comm]
  constructor
  · intro hext
    obtain ⟨hids, hidsFresh⟩ := (ids_nodup_iff h c).mp hext.ids_nodup
    obtain ⟨hpairs, hpairsFresh⟩ := (pairs_nodup_iff h c).mp hext.pairs_nodup
    exact ⟨⟨hheight.mp hext.height_eq, hprev.mp hext.prevHash_eq, hext.epoch_nonneg,
      hhashes ▸ hext.hash_fresh, hids, hidsFresh, hpairs, hpairsFresh⟩, hext.cu_notNull⟩
  · rintro ⟨hnext, hcredit⟩
    exact ⟨hheight.mpr hnext.height_eq, hprev.mpr hnext.prevHash_eq, hnext.epoch_nonneg,
      hhashes ▸ hnext.hash_fresh, (ids_nodup_iff h c).mpr ⟨hnext.ids_nodup, hnext.ids_fresh⟩,
      (pairs_nodup_iff h c).mpr ⟨hnext.pairs_nodup, hnext.pairs_fresh⟩, hcredit⟩

/-- After any calls on a new ledger `append` takes exactly the creditable blocks that come
next.  The tables of a refused block are the old ones, those of a block that was taken have
its row and the rows of its claims on top. -/
theorem append_exact (ops : List LedgerOp) (c : Checkpoint) :
    ((∃ st', (LedgerRun.run ops).store.append c = .ok st') ↔
      ComesNext (LedgerRun.run ops).store c ∧ Creditable c) ∧
    (∀ e, (LedgerRun.run ops).store.append c = .error e →
      ((LedgerRun.run ops).step (.append c)).store = (LedgerRun.run ops).store) ∧
    (∀ st', (LedgerRun.run ops).store.append c = .ok st' →
      ((LedgerRun.run ops).step (.append c)).store = st' ∧
      st'.blocks = (LedgerRun.run ops).store.blocks ++ [ChainStore.blockRow c] ∧
      st'.claims = (LedgerRun.run ops).store.claims ++
        c.proposal.claims.map (ChainStore.claimRow c.height)) := by
  obtain ⟨chain, htracks⟩ := LedgerRun.exists_tracks ops
  have href := htracks.refines
  refine ⟨href.append_ok_iff_extends.trans (extends_iff_comesNext href), ?_, ?_⟩
  · intro e he
    simp only [LedgerRun.step, he]
  · intro st' hok
    obtain ⟨-, hblocks, hclaims⟩ := (append_ok_iff c).mp hok
    refine ⟨?_, hblocks, hclaims⟩
    simp only [LedgerRun.step, hok]

/-! ## Rolling back and appending again -/

/-- `append` for the blocks one after the other, until one is refused. -/
def appendAll (st : ChainStore) : List Checkpoint → Except LedgerError ChainStore
  | [] => .ok st
  | c :: rest =>
    match st.append c with
    | .error e => .error e
    | .ok st' => appendAll st' rest

/-- Both ledgers answer every read alike. -/
structure ReadsAlike (st st' : ChainStore) : Prop where
  getBlock : ∀ h, st.getBlock h = st'.getBlock h
  head : st.head = st'.head
  height : st.height = st'.height
  claims : st.claims = st'.claims
  totals : ∀ nodeId, st.totalCuForNode nodeId = st'.totalCuForNode nodeId

/-- A block read back has the same claim rows. -/
theorem claimRows_readBack (c : Checkpoint) : claimRows (readBack c) = claimRows c := by
  simp [claimRows]

/-- The claim rows do not depend on the quorums. -/
theorem flatMap_claimRows_readBack (l : List Checkpoint) :
    (l.map readBack).flatMap claimRows = l.flatMap claimRows := by
  rw [List.flatMap_map]
  exact congrArg l.flatMap (funext claimRows_readBack)

variable [SerdeReadsBack]

/-- What a ledger answers depends on its blocks as they read. -/
theorem readsAlike_of_readBack {l m : List Checkpoint} (h : Refines st l) (h' : Refines st' m)
    (hlm : l.map readBack = m.map readBack) : ReadsAlike st st' := by
  have hlen : l.length = m.length := by simpa using congrArg List.length hlm
  have hclaims : st.claims = st'.claims := by
    rw [h.claims_eq, h'.claims_eq, ← flatMap_claimRows_readBack, hlm, flatMap_claimRows_readBack]
  refine ⟨?_, ?_, ?_, hclaims, ?_⟩
  · intro k
    have hat (l : List Checkpoint) : (blockAt l k).map readBack = blockAt (l.map readBack) k := by
      unfold blockAt
      split_ifs
      · rfl
      · rw [List.getElem?_map]
    rw [h.getBlock, h'.getBlock, hat, hat, hlm]
  · rw [h.head, h'.head, ← List.getLast?_map, hlm, List.getLast?_map]
  · rw [h.height, h'.height, hlen]
  · intro nodeId
    rw [ChainStore.totalCuForNode, ChainStore.totalCuForNode, hclaims]

omit [SerdeReadsBack] in
/-- Blocks of a chain, as the ledger returned them, are appended on what is below them. -/
theorem Refines.appendAll {pre cur rest : List Checkpoint} (h : Refines st cur)
    (hcur : pre.map content = cur.map content) (hrest : LogFrom Extends pre rest) :
    ∃ st', appendAll st (rest.map readBack) = .ok st' ∧
      Refines st' (cur ++ rest.map readBack) := by
  induction rest generalizing st pre cur with
  | nil => exact ⟨st, rfl, by simpa using h⟩
  | cons b rest ih =>
    have hext : Extends cur (readBack b) := hrest.1.congr hcur (content_readBack b).symm
    obtain ⟨st₁, hok⟩ := h.append_extends hext
    have hcur' : (pre ++ [b]).map content = (cur ++ [readBack b]).map content := by
      rw [List.map_append, List.map_append, hcur]
      simp
    obtain ⟨st₂, hall, href⟩ := ih (h.append_ok hok).2 hcur' hrest.2
    refine ⟨st₂, ?_, by simpa using href⟩
    simp only [List.map_cons, Analysis.appendAll, hok]
    exact hall

/-- After any calls on a new ledger and for every height of it, the blocks above the height
can be read, rolled back and appended again; the ledger then reads as before, and passes its
own audit. -/
theorem rollback_undone (ops : List LedgerOp) (k : ℤ) (hlow : -1 ≤ k)
    (hhigh : k ≤ (LedgerRun.run ops).store.height) :
    ∃ st', appendAll ((LedgerRun.run ops).store.rollback k).1
        (Node.savedAbove (LedgerRun.run ops).store k (LedgerRun.run ops).store.height) = .ok st' ∧
      ReadsAlike (LedgerRun.run ops).store st' ∧ st'.verifyChain.1 = true := by
  obtain ⟨chain, htracks⟩ := LedgerRun.exists_tracks ops
  have href := htracks.refines
  generalize (LedgerRun.run ops).store = st at href hhigh ⊢
  rw [href.height] at hhigh
  -- the number of blocks that stay
  obtain ⟨kept, rfl⟩ : ∃ kept : ℕ, k = (kept : ℤ) - 1 := ⟨(k + 1).toNat, by omega⟩
  have hkept : kept ≤ chain.length := by omega
  have hbase : Refines (st.rollback ((kept : ℤ) - 1)).1 (chain.take kept) := by
    have := href.rolledBack ((kept : ℤ) - 1)
    rwa [show ((kept : ℤ) - 1 + 1).toNat = kept by omega] at this
  have hrest : LogFrom Extends (chain.take kept) (chain.drop kept) := by
    apply (Log.append_iff.mp ?_).2
    rw [List.take_append_drop]
    exact href.chain_ok
  rw [href.savedAbove hkept]
  obtain ⟨st', hall, href'⟩ := Refines.appendAll hbase rfl hrest
  refine ⟨st', hall, readsAlike_of_readBack href href' ?_, Refines.verifyChain href'⟩
  rw [List.map_append, List.map_map]
  simp only [Function.comp_def, readBack_readBack]
  rw [← List.map_append, List.take_append_drop]

end Exodus.Analysis

/-! ## On the sample -/

namespace Exodus.Analysis

open Exodus.Library Exodus.Model Exodus.Interface Exodus.Sample

/-- The largest double is finite. -/
theorem largest_finite : (Float.ofBits 0x7FEFFFFFFFFFFFFF).isFinite = true := by decide +kernel

/-- A model of as many parameters as a double can count, and no tokens. -/
def hugeIdleClaim : SignedContribution :=
  { firstClaim.signed with claim :=
    { firstClaim.claim with paramsB := ⟨_, largest_finite⟩, promptTokens := 0 } }

/-- A first block with that claim. -/
def hugeIdleBlock : Checkpoint :=
  { genesisCheckpoint with proposal := { genesisCheckpoint.proposal with claims := [hugeIdleClaim] } }

/-- The block comes next on the new ledger, and its claim has no compute units: infinitely
many FLOPS for no tokens. -/
theorem hugeIdle_refused : ComesNext (LedgerRun.run []).store hugeIdleBlock ∧
    ¬∃ st', (LedgerRun.run []).store.append hugeIdleBlock = .ok st' := by
  have hnan : (computeUnits hugeIdleClaim.claim).isNaN = true := by decide +kernel
  refine ⟨⟨rfl, rfl, by decide, ?_, ?_, ?_, ?_, ?_⟩, ?_⟩
  · exact List.not_mem_nil
  · exact List.nodup_singleton _
  · exact fun _ _ => rfl
  · exact List.nodup_singleton _
  · exact fun _ _ => rfl
  · intro hok
    have hext := (refines_empty.append_ok_iff_extends).mp hok
    have hnum := hext.cu_notNull hugeIdleClaim (List.mem_singleton.mpr rfl)
    rw [hnan] at hnum
    cases hnum

/-- A ledger with the first block of the sample is emptied and filled again. -/
theorem first_undone : ∃ st',
    appendAll ((LedgerRun.run [.append genesisCheckpoint, .append firstBlock]).store.rollback
        (-1)).1
      (Node.savedAbove (LedgerRun.run [.append genesisCheckpoint, .append firstBlock]).store (-1)
        (LedgerRun.run [.append genesisCheckpoint, .append firstBlock]).store.height) = .ok st' ∧
      ReadsAlike (LedgerRun.run [.append genesisCheckpoint, .append firstBlock]).store st' ∧
      st'.verifyChain.1 = true := by
  apply rollback_undone [.append genesisCheckpoint, .append firstBlock] (-1) le_rfl
  obtain ⟨chain, h⟩ := LedgerRun.exists_tracks [.append genesisCheckpoint, .append firstBlock]
  rw [h.refines.height]
  omega

end Exodus.Analysis
