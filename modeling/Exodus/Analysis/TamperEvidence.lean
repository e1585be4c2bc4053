import Exodus.Analysis.LedgerRuns
import Exodus.Interface.Canonical
import Exodus.Interface.Chain
import Exodus.Interface.SampleChain

/-!
# What the audit of the tables commits to

`verify_chain` walks the rows from height 0 to the head.  It compares the
`prev_hash` column with the hash of the row below and the `block_hash` column with
the hash of the stored block, but it never compares the `prev_hash` column with the
`prev_hash` inside the hashed proposal.  `history_eq_iff` says what that costs: the
head hash fixes the history exactly where equal blocks have equal columns.
-/

set_option autoImplicit false

namespace Exodus.Analysis

open Exodus.Library Exodus.Model Exodus.Interface

variable [Crates] {st st' : ChainStore}

/-- The hash of the block that a row holds. -/
def BlockRow.auditHash (r : BlockRow) : String := r.checkpoint.blockHash

/-- The proposal and the signatures that a row holds. -/
def BlockRow.stored (r : BlockRow) : CheckpointProposal × List QuorumSignature :=
  content r.checkpoint

/-- The proposal and the signatures stored at a height. -/
def storedAt (st : ChainStore) (h : ℤ) : Option (CheckpointProposal × List QuorumSignature) :=
  (st.rowAt h).map BlockRow.stored

/-! ## What a passed audit says of the rows -/

/-- A row that the audit lets pass after the rows of a list. -/
def Audited (rows : List BlockRow) (r : BlockRow) : Prop :=
  LinksTo BlockRow.auditHash BlockRow.prevHash genesisPrevHash rows r ∧
    r.blockHash = BlockRow.auditHash r

/-- The heights loop without a complaint has met one row for each height. -/
theorem rows_of_auditHeights (heights : List ℤ) (done : List BlockRow) (ids : Finset String)
    (pairs : Finset (String × Int64))
    (h : st.auditHeights heights (tipHash BlockRow.auditHash genesisPrevHash done) ids pairs =
      none) :
    ∃ rows, heights.map st.rowAt = rows.map some ∧ LogFrom Audited done rows := by
  induction heights generalizing done ids pairs with
  | nil => exact ⟨[], rfl, trivial⟩
  | cons k rest ih =>
    rw [ChainStore.auditHeights] at h
    cases hrow : st.rowAt k with
    | none => simp [hrow] at h
    | some row =>
      simp only [hrow] at h
      split_ifs at h with hprev hhash
      have hlink : row.prevHash = tipHash BlockRow.auditHash genesisPrevHash done :=
        not_not.mp hprev
      have hcolumn : row.blockHash = BlockRow.auditHash row := (not_not.mp hhash).symm
      cases haudit : ChainStore.auditClaims row.checkpoint.proposal.claims ids pairs with
      | error e => simp [haudit] at h
      | ok sets =>
        simp only [haudit, hcolumn] at h
        obtain ⟨rows, hrows, hlog⟩ := ih (done ++ [row]) sets.1 sets.2
          (by rw [tipHash_concat]; exact h)
        exact ⟨row :: rows, by simp [hrow, hrows], ⟨hlink, hcolumn⟩, hlog⟩

/-- A table that passes the audit has a row at every height, and they pass one after another. -/
theorem rows_of_verifyChain (h : st.verifyChain.1 = true) :
    ∃ rows, (ChainStore.heightsTo st.height).map st.rowAt = rows.map some ∧ Log Audited rows := by
  unfold ChainStore.verifyChain at h
  cases haudit : st.auditHeights (ChainStore.heightsTo st.height) genesisPrevHash ∅ ∅ with
  | some complaint => simp [haudit] at h
  | none =>
    obtain ⟨rows, hrows, hlog⟩ := rows_of_auditHeights _ [] ∅ ∅ haudit
    exact ⟨rows, hrows, by simpa using (Log.append_iff (l := [])).mpr ⟨.nil, hlog⟩⟩

omit [Crates] in
/-- No row is above the head. -/
theorem le_height_of_rowAt {h : ℤ} {r : BlockRow} (hr : st.rowAt h = some r) : h ≤ st.height := by
  have hmem : h ∈ st.blocks.map BlockRow.height := by
    have hheight : r.height = h := by simpa using List.find?_some hr
    exact hheight ▸ List.mem_map_of_mem (List.mem_of_find?_eq_some hr)
  unfold ChainStore.height ChainStore.headLocked
  cases hmax : (st.blocks.map BlockRow.height).max? with
  | none =>
    rw [List.max?_eq_none_iff] at hmax
    rw [hmax] at hmem
    simp at hmem
  | some top => exact (List.max?_eq_some_iff.mp hmax).2 h hmem

/-! ## The rows of an audited table, by position -/

section Rows

variable {rows rows' : List BlockRow}

omit [Crates] in
/-- The rows of the audit are those of the table. -/
theorem rowAt_eq_getElem? (hrows : (ChainStore.heightsTo st.height).map st.rowAt = rows.map some)
    (i : ℕ) : st.rowAt i = rows[i]? := by
  have hlen : (st.height + 1).toNat = rows.length := by
    simpa [ChainStore.heightsTo] using congrArg List.length hrows
  rcases lt_or_ge i rows.length with hi | hi
  · have hpoint := congrArg (fun l => l[i]?) hrows
    have hget : (ChainStore.heightsTo st.height)[i]? = some (i : ℤ) := by
      simp [ChainStore.heightsTo, List.getElem?_range (show i < (st.height + 1).toNat by omega)]
    simp only [List.getElem?_map, hget, Option.map_some, List.getElem?_eq_getElem hi,
      Option.some.injEq] at hpoint
    rw [hpoint, List.getElem?_eq_getElem hi]
  · rw [List.getElem?_eq_none hi, Option.eq_none_iff_forall_ne_some]
    intro r hr
    have := le_height_of_rowAt hr
    omega

/-- Equal contents have equal hashes. -/
theorem auditHash_eq_of_stored_eq {r r' : BlockRow}
    (h : BlockRow.stored r = BlockRow.stored r') :
    BlockRow.auditHash r = BlockRow.auditHash r' := by
  have hlists : [r.checkpoint].map content = [r'.checkpoint].map content :=
    congrArg (fun e => [e]) h
  simpa [BlockRow.auditHash] using map_blockHash_congr hlists

/-- The hash of the last row is that of what it holds. -/
theorem tipHash_eq_of_stored_eq (h : rows.map BlockRow.stored = rows'.map BlockRow.stored) :
    tipHash BlockRow.auditHash genesisPrevHash rows =
      tipHash BlockRow.auditHash genesisPrevHash rows' := by
  have hlast := congrArg List.getLast? h
  rw [List.getLast?_map, List.getLast?_map] at hlast
  unfold tipHash
  cases hr : rows.getLast? <;> cases hr' : rows'.getLast? <;> simp_all
  exact auditHash_eq_of_stored_eq hlast

/-- The last hash of the rows is the head's hash column. -/
theorem tipHash_eq_head (hrows : (ChainStore.heightsTo st.height).map st.rowAt = rows.map some)
    (hlog : Log Audited rows) (hne : rows ≠ []) :
    some (tipHash BlockRow.auditHash genesisPrevHash rows) = st.blockHashLocked st.height := by
  have hlen : (st.height + 1).toNat = rows.length := by
    simpa [ChainStore.heightsTo] using congrArg List.length hrows
  obtain ⟨l, r, rfl⟩ : ∃ l r, rows = l ++ [r] := by
    rcases List.eq_nil_or_concat' rows with h | h
    · exact absurd h hne
    · exact h
  have hheight : st.height = (l.length : ℕ) := by
    rw [List.length_append, List.length_singleton] at hlen
    omega
  have hcolumn := (Log.snoc_iff.mp hlog).2.2
  rw [tipHash_concat, ChainStore.blockHashLocked, hheight, rowAt_eq_getElem? hrows]
  simp [hcolumn]

end Rows

/-! ## Two audited tables -/

/-- Two tables that pass the audit with the same head height and head hash hold the same
proposals and signatures at every height exactly when rows of equal contents have equal
`prev_hash` columns, and the rows below height 0, which the audit does not read, agree. -/
theorem history_eq_iff [RyuReadsBack] (hsha : Sha256CollisionFree)
    (hv : st.verifyChain.1 = true) (hv' : st'.verifyChain.1 = true)
    (hheight : st.height = st'.height)
    (hhead : st.blockHashLocked st.height = st'.blockHashLocked st'.height) :
    (∀ h, storedAt st h = storedAt st' h) ↔
      (∀ h, 0 ≤ h → ∀ r ∈ st.rowAt h, ∀ r' ∈ st'.rowAt h,
        BlockRow.stored r = BlockRow.stored r' → r.prevHash = r'.prevHash) ∧
      ∀ h < 0, storedAt st h = storedAt st' h := by
  obtain ⟨rows, hrows, hlog⟩ := rows_of_verifyChain hv
  obtain ⟨rows', hrows', hlog'⟩ := rows_of_verifyChain hv'
  have hat (i : ℕ) : st.rowAt i = rows[i]? := rowAt_eq_getElem? hrows i
  have hat' (i : ℕ) : st'.rowAt i = rows'[i]? := rowAt_eq_getElem? hrows' i
  have hlen : rows.length = rows'.length := by
    have h1 := congrArg List.length hrows
    have h2 := congrArg List.length hrows'
    simp only [List.length_map] at h1 h2
    rw [← h1, ← h2, hheight]
  have hstored (i : ℕ) : storedAt st i = storedAt st' i ↔
      (rows.map BlockRow.stored)[i]? = (rows'.map BlockRow.stored)[i]? := by
    rw [storedAt, storedAt, hat, hat', List.getElem?_map, List.getElem?_map]
  constructor
  · intro hall
    refine ⟨fun h hpos r hr r' hr' _ => ?_, fun h _ => hall h⟩
    have hsame : rows.map BlockRow.stored = rows'.map BlockRow.stored :=
      List.ext_getElem? fun i => (hstored i).mp (hall i)
    obtain ⟨i, rfl⟩ := Int.eq_ofNat_of_zero_le hpos
    obtain ⟨hi, rfl⟩ := List.getElem?_eq_some_iff.mp ((hat i).symm.trans hr)
    obtain ⟨hi', rfl⟩ := List.getElem?_eq_some_iff.mp ((hat' i).symm.trans hr')
    rw [(hlog.ok_getElem hi).1, (hlog'.ok_getElem hi').1]
    exact tipHash_eq_of_stored_eq (by rw [List.map_take, List.map_take, hsame])
  · rintro ⟨hcolumns, hneg⟩ h
    have hsame : rows.map BlockRow.stored = rows'.map BlockRow.stored := by
      refine map_eq_of_tipHash_eq BlockRow.stored ?_ (hlog.imp fun _ _ _ ha => ha.1)
        (hlog'.imp fun _ _ _ ha => ha.1) hlen ?_ ?_
      · intro r r' hhash
        obtain ⟨hp, hs⟩ := blockHash_injective hsha hhash
        exact Prod.ext hp hs
      · by_cases hne : rows = []
        · obtain rfl : rows' = [] := List.length_eq_zero_iff.mp (by rw [← hlen, hne]; rfl)
          rw [hne]
        · have hne' : rows' ≠ [] := fun h0 => hne (List.length_eq_zero_iff.mp (by rw [hlen, h0]; rfl))
          exact Option.some.inj ((tipHash_eq_head hrows hlog hne).trans
            (hhead.trans (tipHash_eq_head hrows' hlog' hne').symm))
      · intro e he hcontent
        obtain ⟨i, hi, rfl⟩ := List.mem_iff_getElem.mp he
        rw [List.length_zip] at hi
        rw [List.getElem_zip] at hcontent ⊢
        refine hcolumns i (by omega) _ ?_ _ ?_ hcontent
        · rw [hat]
          exact List.getElem?_eq_getElem (by omega)
        · rw [hat']
          exact List.getElem?_eq_getElem (by omega)
    rcases lt_or_ge h 0 with hlt | hpos
    · exact hneg h hlt
    · obtain ⟨i, rfl⟩ := Int.eq_ofNat_of_zero_le hpos
      rw [hstored, hsame]

end Exodus.Analysis

namespace Exodus.Analysis

open Exodus.Library Exodus.Model Exodus.Interface Exodus.Sample

/-- The first block with no quorum recorded: another row, under the same hash. -/
def looseBlock : Checkpoint := { firstBlock with quorum := 0 }

/-- Without a quorum one signature is enough. -/
theorem loose_follows : Follows tolerance [genesisCheckpoint] looseBlock :=
  follows_genesis rfl rfl (by decide) rfl (by decide)
    (signed_of_votes [firstVote] (by simp [votes]) (by decide) (by decide) (by decide) (by decide))

/-- Chains of the same contents have the same `prev_hash` columns. -/
theorem prevHash_eq_of_content {A A' : List Checkpoint} {st st' : ChainStore} (h : Refines st A)
    (h' : Refines st' A') (hsame : A.map content = A'.map content) {i : ℕ} {r r' : BlockRow}
    (hr : r ∈ st.rowAt i) (hr' : r' ∈ st'.rowAt i) : r.prevHash = r'.prevHash := by
  rw [h.rowAt, blockAt_natCast] at hr
  rw [h'.rowAt, blockAt_natCast] at hr'
  obtain ⟨c, hc, rfl⟩ := Option.map_eq_some_iff.mp hr
  obtain ⟨c', hc', rfl⟩ := Option.map_eq_some_iff.mp hr'
  have hcontent := congrArg (fun l => l[i]?) hsame
  simp only [List.getElem?_map, hc, hc', Option.map_some, Option.some_inj] at hcontent
  exact congrArg (fun e => e.1.prevHash) hcontent

/-- The tables of two nodes differ in the quorum of the first block, and hold the same proposals
and signatures. -/
theorem history_loose :
    (after firstBlock .a "t1").store.rowAt 1 ≠ (after looseBlock .b "t2").store.rowAt 1 ∧
    ∀ h, storedAt (after firstBlock .a "t1").store h = storedAt (after looseBlock .b "t2").store h := by
  obtain ⟨href, -⟩ := after_spec first_follows .a "t1"
  obtain ⟨href', -⟩ := after_spec loose_follows .b "t2"
  generalize (after firstBlock .a "t1").store = st at href ⊢
  generalize (after looseBlock .b "t2").store = st' at href' ⊢
  have hheight : st.height = st'.height := href.height.trans href'.height.symm
  have hone : st.rowAt 1 = some (ChainStore.blockRow firstBlock) := href.rowAt 1
  have hone' : st'.rowAt 1 = some (ChainStore.blockRow looseBlock) := href'.rowAt 1
  refine ⟨?_, (history_eq_iff sha256_injective (Refines.verifyChain href)
    (Refines.verifyChain href') hheight ?_).mpr ⟨fun h hpos r hr r' hr' _ => ?_, fun h hneg => ?_⟩⟩
  · rw [hone, hone']
    intro heq
    have hquorum := congrArg BlockRow.quorum (Option.some.inj heq)
    revert hquorum
    decide
  · have hlast : st.height = 1 := href.height
    rw [ChainStore.blockHashLocked, ChainStore.blockHashLocked, ← hheight, hlast, hone, hone']
    rfl
  · obtain ⟨i, rfl⟩ := Int.eq_ofNat_of_zero_le hpos
    exact prevHash_eq_of_content href href' rfl hr hr'
  · rw [storedAt, storedAt, href.rowAt, href'.rowAt, blockAt_of_neg hneg, blockAt_of_neg hneg]

/-- Genesis at another time. -/
def forged : Checkpoint :=
  { genesisCheckpoint with proposal := { genesisCheckpoint.proposal with createdAt := "t9" } }

/-- The row of the first block, whose `prev_hash` column has the hash of the forged block. -/
noncomputable def relinked : BlockRow :=
  { ChainStore.blockRow firstBlock with prevHash := forged.blockHash }

/-- The column is not part of the block that a row holds. -/
theorem checkpoint_with_prevHash (r : BlockRow) (hash : String) :
    BlockRow.checkpoint { r with prevHash := hash } = r.checkpoint := rfl

/-- The relinked row holds the first block. -/
theorem relinked_checkpoint : relinked.checkpoint = readBack firstBlock :=
  (checkpoint_with_prevHash _ _).trans (blockRow_checkpoint firstBlock)

/-- The forged table has one row at each height. -/
theorem tampered_heights_nodup :
    ([ChainStore.blockRow forged, relinked].map BlockRow.height).Nodup := by decide

/-- It has one row for each hash. -/
theorem tampered_hashes_nodup :
    ([ChainStore.blockRow forged, relinked].map BlockRow.blockHash).Nodup := by
  have hne : forged.blockHash ≠ firstBlock.blockHash := blockHash_ne (by decide)
  simpa [ChainStore.blockRow, relinked] using hne

/-- The forged block at height 0 and the first block above it. -/
noncomputable def tampered : ChainStore where
  blocks := [ChainStore.blockRow forged, relinked]
  claims := []
  heights_nodup := tampered_heights_nodup
  hashes_nodup := tampered_hashes_nodup
  claimIds_nodup := ChainStore.empty.claimIds_nodup
  nodeSeqs_nodup := ChainStore.empty.nodeSeqs_nodup
  cu_notNull := ChainStore.empty.cu_notNull

/-- The audit looks at both rows. -/
theorem tampered_heights : ChainStore.heightsTo tampered.height = [0, 1] := rfl

/-- It finds nothing wrong with them. -/
theorem tampered_audit : tampered.auditHeights [0, 1] genesisPrevHash ∅ ∅ = none := by
  have hzero : tampered.rowAt 0 = some (ChainStore.blockRow forged) := rfl
  have hone : tampered.rowAt 1 = some relinked := rfl
  have hprev : (ChainStore.blockRow forged).prevHash = genesisPrevHash := rfl
  have hprev' : relinked.prevHash = (ChainStore.blockRow forged).blockHash := rfl
  have hforged : (ChainStore.blockRow forged).checkpoint.blockHash =
      (ChainStore.blockRow forged).blockHash := by
    rw [blockRow_checkpoint, readBack_blockHash]
    rfl
  have hfirst : relinked.checkpoint.blockHash = relinked.blockHash := by
    rw [relinked_checkpoint, readBack_blockHash]
    rfl
  have hnone : ChainStore.auditClaims (ChainStore.blockRow forged).checkpoint.proposal.claims ∅ ∅ =
      .ok (∅, ∅) := by
    rw [blockRow_checkpoint, readBack_proposal]
    rfl
  obtain ⟨⟨ids, pairs⟩, hclaims⟩ : ∃ sets : Finset String × Finset (String × Int64),
      ChainStore.auditClaims relinked.checkpoint.proposal.claims ∅ ∅ = .ok sets := by
    rw [relinked_checkpoint, readBack_proposal]
    simp [firstBlock, firstProposal, ChainStore.auditClaims]
  rw [auditHeights_cons hzero hprev hforged hnone, auditHeights_cons hone hprev' hfirst hclaims]
  rfl

/-- So the forged table passes. -/
theorem tampered_verifies : tampered.verifyChain.1 = true := by
  refine verifyChain_of_audit ?_
  rw [tampered_heights]
  exact tampered_audit

/-- Two tables that pass the audit with the same head, and different blocks at height 0. -/
theorem tampered_same_head :
    ∃ st st' : ChainStore, st.verifyChain.1 = true ∧ st'.verifyChain.1 = true ∧
      st.height = st'.height ∧
      st.blockHashLocked st.height = st'.blockHashLocked st'.height ∧
      storedAt st 0 ≠ storedAt st' 0 := by
  obtain ⟨href, -⟩ := after_spec first_follows .a "t1"
  have hzero : tampered.rowAt 0 = some (ChainStore.blockRow forged) := rfl
  refine ⟨(after firstBlock .a "t1").store, tampered, Refines.verifyChain href, tampered_verifies,
    href.height, ?_, ?_⟩
  · have hone : tampered.blockHashLocked 1 = some firstBlock.blockHash := rfl
    have hheight : tampered.height = 1 := rfl
    rw [href.blockHashLocked, href.height, hheight, hone]
    rfl
  · rw [storedAt, storedAt, href.rowAt, hzero]
    intro h
    have hstored : content (ChainStore.blockRow genesisCheckpoint).checkpoint =
        content (ChainStore.blockRow forged).checkpoint := Option.some.inj h
    rw [blockRow_checkpoint, blockRow_checkpoint] at hstored
    have hproposal := congrArg Prod.fst hstored
    simp only [content, readBack_proposal] at hproposal
    exact absurd (congrArg CheckpointProposal.createdAt hproposal) (by decide)

end Exodus.Analysis
