import Exodus.Interface.Chain
import Exodus.Interface.SampleChain

/-!
# Runs of the ledger

Any sequence of `append` and `rollback` calls on a new ledger, successful or not,
leaves tables that hold one hash-linked chain from genesis on and nothing else,
and `verify_chain` passes them.
-/

set_option autoImplicit false

namespace Exodus.Analysis

open Exodus.Library Exodus.Model Exodus.Interface

variable [Crates] {st : ChainStore} {chain : List Checkpoint}

/-! ## The audit of a chain -/

omit [Crates] in
/-- The claims loop passes claims that are new and pairwise different. -/
theorem auditClaims_ok (claims : List SignedContribution) (ids : List String)
    (pairs : List (String × Int64))
    (hids : (ids ++ claims.map fun s => s.claim.claimId).Nodup)
    (hpairs : (pairs ++ claims.map fun s => (s.claim.nodeId, s.claim.seq)).Nodup) :
    ChainStore.auditClaims claims ids.toFinset pairs.toFinset =
      .ok ((ids ++ claims.map fun s => s.claim.claimId).toFinset,
        (pairs ++ claims.map fun s => (s.claim.nodeId, s.claim.seq)).toFinset) := by
  induction claims generalizing ids pairs with
  | nil => simp [ChainStore.auditClaims]
  | cons s rest ih =>
    have hid : s.claim.claimId ∉ ids := fun hmem =>
      List.disjoint_of_nodup_append hids hmem (by simp)
    have hpair : (s.claim.nodeId, s.claim.seq) ∉ pairs := fun hmem =>
      List.disjoint_of_nodup_append hpairs hmem (by simp)
    have hsnoc {α : Type} [DecidableEq α] (l : List α) (a : α) :
        insert a l.toFinset = (l ++ [a]).toFinset := by
      ext b
      simp
    unfold ChainStore.auditClaims
    rw [if_neg (by simpa using hid), if_neg (by simpa using hpair), hsnoc, hsnoc,
      ih (ids ++ [s.claim.claimId]) (pairs ++ [(s.claim.nodeId, s.claim.seq)])
        (by simpa using hids) (by simpa using hpairs)]
    simp

/-- The heights loop passes a row that fits. -/
theorem auditHeights_cons {h : ℤ} {rest : List ℤ} {row : BlockRow} {prev : String}
    {ids ids' : Finset String} {pairs pairs' : Finset (String × Int64)}
    (hrow : st.rowAt h = some row) (hprev : row.prevHash = prev)
    (hhash : row.checkpoint.blockHash = row.blockHash)
    (hclaims : ChainStore.auditClaims row.checkpoint.proposal.claims ids pairs =
      .ok (ids', pairs')) :
    st.auditHeights (h :: rest) prev ids pairs =
      st.auditHeights rest row.blockHash ids' pairs' := by
  rw [ChainStore.auditHeights, hrow]
  dsimp only
  rw [if_neg (not_not.mpr hprev), if_neg (not_not.mpr hhash), hclaims]

/-- A table without a fault passes the audit. -/
theorem verifyChain_of_audit
    (h : st.auditHeights (ChainStore.heightsTo st.height) genesisPrevHash ∅ ∅ = none) :
    st.verifyChain.1 = true := by
  unfold ChainStore.verifyChain
  rw [h]

variable [SerdeReadsBack]

/-- The heights loop passes the rest of a chain, from any height on. -/
theorem Refines.auditHeights (h : Refines st chain) (m k : ℕ) (hk : k + m = chain.length) :
    st.auditHeights ((List.range' k m).map Int.ofNat) (headHash (chain.take k))
      (chainClaimIds (chain.take k)).toFinset (chainNodeSeqs (chain.take k)).toFinset = none := by
  -- on the number of blocks that are left
  induction m generalizing k with
  | zero => rfl
  | succ m ih =>
    have hlt : k < chain.length := by omega
    have hext := h.chain_ok.ok_getElem hlt
    have htake : chain.take (k + 1) = chain.take k ++ [chain[k]] := by
      rw [List.take_add_one, List.getElem?_eq_getElem hlt, Option.toList_some]
    have hids := hext.ids_nodup
    have hpairs := hext.pairs_nodup
    rw [chainClaimIds_concat] at hids
    rw [chainNodeSeqs_concat] at hpairs
    have haudit := auditClaims_ok chain[k].proposal.claims _ _ hids hpairs
    have hrow : st.rowAt (k : ℤ) = some (ChainStore.blockRow chain[k]) := by
      rw [h.rowAt, blockAt_natCast, List.getElem?_eq_getElem hlt, Option.map_some]
    have hhash : (ChainStore.blockRow chain[k]).checkpoint.blockHash = chain[k].blockHash := by
      rw [blockRow_checkpoint, readBack_blockHash]
    have hrest := ih (k + 1) (by omega)
    rw [htake, headHash_concat, chainClaimIds_concat, chainNodeSeqs_concat] at hrest
    rw [← readBack_proposal, ← blockRow_checkpoint] at haudit
    rw [List.range'_succ, List.map_cons, Int.ofNat_eq_natCast,
      auditHeights_cons hrow hext.prevHash_eq hhash haudit, blockRow_checkpoint, readBack_proposal]
    exact hrest

/-- A ledger that holds a chain passes the audit. -/
theorem Refines.verifyChain (h : Refines st chain) : st.verifyChain.1 = true := by
  have hto : ChainStore.heightsTo st.height = (List.range' 0 chain.length).map Int.ofNat := by
    simp [ChainStore.heightsTo, h.height, List.range_eq_range']
  have haudit := Refines.auditHeights h chain.length 0 (by simp)
  simp only [List.take_zero, headHash, tipHash_nil, chainClaimIds, chainNodeSeqs, chainClaims,
    List.flatMap_nil, List.map_nil, List.toFinset_nil] at haudit
  exact verifyChain_of_audit (hto ▸ haudit)

/-! ## Runs -/

inductive LedgerOp where
  | append (checkpoint : Checkpoint)
  | rollback (keepHeight : ℤ)

/-- A ledger in use, with the checkpoint that `append` last took at each height. -/
structure LedgerRun where
  store : ChainStore
  appendedAt : ℤ → Option Checkpoint

namespace LedgerRun

omit [SerdeReadsBack] in
def step (r : LedgerRun) : LedgerOp → LedgerRun
  | .append c =>
    match r.store.append c with
    | .ok st => ⟨st, Function.update r.appendedAt c.height (some c)⟩
    | .error _ => r
  | .rollback keepHeight => { r with store := (r.store.rollback keepHeight).1 }

/-- The calls one after the other on a new ledger, whatever each returns. -/
def run (ops : List LedgerOp) : LedgerRun := ops.foldl step ⟨ChainStore.empty, fun _ => none⟩

/-- The tables hold the chain, and its blocks are those appended last at their heights. -/
structure Tracks (r : LedgerRun) (chain : List Checkpoint) : Prop where
  refines : Refines r.store chain
  appendedAt_eq : ∀ i (hi : i < chain.length), r.appendedAt i = some chain[i]

omit [SerdeReadsBack] in
/-- Every operation of the ledger leaves it with some chain. -/
theorem Tracks.step {r : LedgerRun} (h : r.Tracks chain) (op : LedgerOp) :
    ∃ chain', (r.step op).Tracks chain' := by
  cases op with
  | append c =>
    cases ha : r.store.append c with
    | error e =>
      have hstep : r.step (.append c) = r := by simp only [LedgerRun.step, ha]
      rw [hstep]
      exact ⟨chain, h⟩
    | ok st' =>
      have hstep : r.step (.append c) =
          ⟨st', Function.update r.appendedAt c.height (some c)⟩ := by
        simp only [LedgerRun.step, ha]
      obtain ⟨hext, href⟩ := h.refines.append_ok ha
      rw [hstep]
      refine ⟨chain ++ [c], href, fun i hi => ?_⟩
      rcases Nat.lt_succ_iff_lt_or_eq.mp (by simpa using hi) with hlt | rfl
      · have hne : (i : ℤ) ≠ c.height := by
          rw [hext.height_eq]
          omega
        simp [Function.update_of_ne hne, h.appendedAt_eq i hlt, List.getElem_append_left hlt]
      · simp [← hext.height_eq]
  | rollback k =>
    refine ⟨_, h.refines.rolledBack k, fun i hi => ?_⟩
    have hlt : i < chain.length := by
      rw [List.length_take] at hi
      omega
    simpa [LedgerRun.step] using h.appendedAt_eq i hlt

omit [SerdeReadsBack] in
/-- So does every run of them. -/
theorem exists_tracks (ops : List LedgerOp) : ∃ chain, (run ops).Tracks chain := by
  induction ops using List.reverseRecOn with
  | nil => exact ⟨[], refines_empty, fun i hi => absurd hi (by simp)⟩
  | append_singleton ops op ih =>
    obtain ⟨chain, h⟩ := ih
    obtain ⟨chain', h'⟩ := h.step op
    exact ⟨chain', by simpa [run, List.foldl_append] using h'⟩

/-- The stored tables are one chain, whole and consistent. -/
structure Sound (r : LedgerRun) : Prop where
  /-- the heights are `0..=head` -/
  heights : r.store.blocks.map BlockRow.height = ChainStore.heightsTo r.store.height
  /-- block 0 names the genesis hash -/
  root : ∀ row, r.store.rowAt 0 = some row →
    row.prevHash = genesisPrevHash ∧ row.checkpoint.proposal.prevHash = genesisPrevHash
  /-- every other block names the stored hash of the block below -/
  linked : ∀ h row, 0 < h → r.store.rowAt h = some row →
    ∃ below, r.store.rowAt (h - 1) = some below ∧ row.prevHash = below.blockHash ∧
      row.checkpoint.proposal.prevHash = below.blockHash
  /-- the claim rows are those of the stored blocks, at their blocks' heights -/
  claims : r.store.claims = r.store.allBlocks.flatMap claimRows
  ids_nodup : (r.store.claims.map ClaimRow.claimId).Nodup
  pairs_nodup : (r.store.claims.map ClaimRow.nodeSeq).Nodup
  /-- a block reads with the hash of the checkpoint appended at its height -/
  hashes : ∀ h b, r.store.getBlock h = some b →
    ∃ c, r.appendedAt h = some c ∧ b.blockHash = c.blockHash
  verified : r.store.verifyChain.1 = true

/-- A row of the ledger is that of a block of the chain, and refers to the block before it. -/
theorem row_of_rowAt {h : ℤ} {row : BlockRow} (href : Refines st chain)
    (hrow : st.rowAt h = some row) :
    ∃ i : ℕ, ∃ hi : i < chain.length, h = i ∧ row = ChainStore.blockRow chain[i] ∧
      row.prevHash = headHash (chain.take i) ∧
      row.checkpoint.proposal.prevHash = headHash (chain.take i) := by
  rw [href.rowAt, Option.map_eq_some_iff] at hrow
  obtain ⟨b, hb, rfl⟩ := hrow
  obtain ⟨i, hi, rfl, rfl⟩ := blockAt_eq_some hb
  have hprev := (href.chain_ok.ok_getElem hi).prevHash_eq
  refine ⟨i, hi, rfl, rfl, hprev, ?_⟩
  rw [blockRow_checkpoint, readBack_proposal, hprev]

/-- Each row is linked to the one below it, by its column and by its JSON. -/
theorem Tracks.linked {r : LedgerRun} (h : r.Tracks chain) (k : ℤ) (row : BlockRow) (hk : 0 < k)
    (hrow : r.store.rowAt k = some row) :
    ∃ below, r.store.rowAt (k - 1) = some below ∧ row.prevHash = below.blockHash ∧
      row.checkpoint.proposal.prevHash = below.blockHash := by
  obtain ⟨i, hi, rfl, rfl, hcol, hprop⟩ := row_of_rowAt h.refines hrow
  obtain ⟨j, rfl⟩ : ∃ j, i = j + 1 := ⟨i - 1, by omega⟩
  have hj : j < chain.length := by omega
  have hbelow : headHash (chain.take (j + 1)) = (ChainStore.blockRow chain[j]).blockHash := by
    rw [List.take_add_one, List.getElem?_eq_getElem hj, Option.toList_some, headHash_concat]
    rfl
  refine ⟨ChainStore.blockRow chain[j], ?_, hcol.trans hbelow, hprop.trans hbelow⟩
  have hcast : ((j + 1 : ℕ) : ℤ) - 1 = (j : ℕ) := by omega
  rw [hcast, h.refines.rowAt, blockAt_natCast, List.getElem?_eq_getElem hj, Option.map_some]

/-- After any sequence of calls on a new ledger the tables are one chain. -/
theorem run_sound (ops : List LedgerOp) : (run ops).Sound := by
  obtain ⟨chain, h⟩ := exists_tracks ops
  have href := h.refines
  refine ⟨?_, ?_, h.linked, ?_, ChainStore.claimIds_nodup _, ChainStore.nodeSeqs_nodup _, ?_,
    Refines.verifyChain href⟩
  · rw [href.blocks_eq, List.map_map, href.height]
    have hto : ChainStore.heightsTo ((chain.length : ℤ) - 1) =
        (List.range chain.length).map Int.ofNat := by
      simp [ChainStore.heightsTo]
    rw [hto, ← LedgerChain.map_height href.chain_ok]
    rfl
  · intro row hrow
    obtain ⟨i, -, hi, -, hcol, hprop⟩ := row_of_rowAt href hrow
    obtain rfl : i = 0 := by omega
    exact ⟨hcol, hprop⟩
  · rw [href.claims_eq, href.allBlocks, List.flatMap_map]
    simp only [claimRows, readBack_proposal, readBack_height]
    rfl
  · intro k b hb
    rw [href.getBlock, Option.map_eq_some_iff] at hb
    obtain ⟨c, hc, rfl⟩ := hb
    obtain ⟨i, hi, rfl, rfl⟩ := blockAt_eq_some hc
    exact ⟨chain[i], h.appendedAt_eq i hi, readBack_blockHash _⟩

end LedgerRun

end Exodus.Analysis

namespace Exodus.Analysis

open Exodus.Library Exodus.Model Exodus.Interface Exodus.Sample

/-- A run of the sample: genesis, the first block, a block that is refused and a rollback. -/
theorem sound_first :
    (LedgerRun.run [.append genesisCheckpoint, .append firstBlock, .append clashBlock,
      .rollback 0]).Sound :=
  LedgerRun.run_sound _

end Exodus.Analysis
