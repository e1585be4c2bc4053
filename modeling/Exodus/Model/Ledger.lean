import Exodus.Model.Accounting

/-!
# `ledger.rs`: the SQLite-backed chain store

`ChainStore` is the contents of the two tables.  Its proof fields are the
constraints of the schema, so a value of the type is what SQLite can hold: a
statement about every `ChainStore` is about every contents of the tables.  A
statement that would break a constraint fails, and the transaction it belongs to
leaves the tables as they were.
-/

set_option autoImplicit false

namespace Exodus.Model

open Exodus.Library

structure LedgerError where
  message : String
deriving DecidableEq

/-- A row of the `blocks` table. -/
structure BlockRow where
  height : ℤ
  blockHash : String
  prevHash : String
  epoch : ℤ
  sealedBy : String
  proposalJson : String
  signaturesJson : String
  quorum : Int64
  committedAt : String
deriving DecidableEq

/-- A row of the `claims` table. -/
structure ClaimRow where
  claimId : String
  height : ℤ
  nodeId : String
  seq : Int64
  cu : Float
  claimJson : String
deriving DecidableEq

/-- The `UNIQUE(node_id, seq)` key of a claim row. -/
def ClaimRow.nodeSeq (r : ClaimRow) : String × Int64 := (r.nodeId, r.seq)

/-- The contents of the two tables, within the constraints of `init_schema`. -/
@[ext]
structure ChainStore where
  blocks : List BlockRow
  claims : List ClaimRow
  /-- `height INTEGER PRIMARY KEY` -/
  heights_nodup : (blocks.map BlockRow.height).Nodup
  /-- `block_hash TEXT NOT NULL UNIQUE` -/
  hashes_nodup : (blocks.map BlockRow.blockHash).Nodup
  /-- `claim_id TEXT PRIMARY KEY` -/
  claimIds_nodup : (claims.map ClaimRow.claimId).Nodup
  /-- `UNIQUE(node_id, seq)` -/
  nodeSeqs_nodup : (claims.map ClaimRow.nodeSeq).Nodup
  /-- `cu REAL NOT NULL`; SQLite stores a NaN as a null -/
  cu_notNull : ∀ r ∈ claims, r.cu.isNaN = false

namespace ChainStore

/-- The tables after `init_schema` on a new file. -/
def empty : ChainStore where
  blocks := []
  claims := []
  heights_nodup := List.nodup_nil
  hashes_nodup := List.nodup_nil
  claimIds_nodup := List.nodup_nil
  nodeSeqs_nodup := List.nodup_nil
  cu_notNull := by simp

/-! ## Reads -/

/-- `SELECT MAX(height) FROM blocks` -/
def headLocked (st : ChainStore) : Option ℤ := (st.blocks.map BlockRow.height).max?

/-- The row at a height. -/
def rowAt (st : ChainStore) (height : ℤ) : Option BlockRow :=
  st.blocks.find? fun r => r.height = height

def blockHashLocked (st : ChainStore) (height : ℤ) : Option String :=
  (st.rowAt height).map BlockRow.blockHash

def height (st : ChainStore) : ℤ := st.headLocked.getD (-1)

def claimExists (st : ChainStore) (claimId : String) : Bool :=
  st.claims.any fun r => r.claimId = claimId

/-- `SELECT 1 FROM claims WHERE node_id = ?1 AND seq = ?2` -/
def nodeSeqExists (st : ChainStore) (nodeId : String) (seq : Int64) : Bool :=
  st.claims.any fun r => r.nodeId = nodeId ∧ r.seq = seq

/-- All claim ids currently stored in the ledger. -/
def allCommittedClaimIds (st : ChainStore) : Finset String :=
  (st.claims.map ClaimRow.claimId).toFinset

variable [Crates]

def totalCuForNode (st : ChainStore) (nodeId : String) : Float :=
  Crates.sqliteSum ((st.claims.filter fun r => r.nodeId = nodeId).map ClaimRow.cu)

end ChainStore

/-- What an unreadable row is taken for. -/
def unreadableCheckpoint : Checkpoint where
  proposal := {
    epoch := -1
    height := -1
    prevHash := ""
    sealedBy := ""
    claims := []
    createdAt := "" }
  signatures := []
  quorum := 0

/-- Blocks without a frozen quorum count the signatures they carry as their quorum. -/
def adoptQuorum (c : Checkpoint) : Checkpoint :=
  if c.quorum = 0 ∧ c.signatures ≠ [] then
    { c with quorum := UInt64.ofNat c.signatures.length }
  else c

variable [Crates]

def reconstruct (proposalJson signaturesJson : String) (quorum : Int64) : Checkpoint :=
  adoptQuorum <|
    (Checkpoint.fromValue <| .obj [
      ("proposal", (Crates.jsonFromStr proposalJson).getD .null),
      ("quorum", .int (max quorum.toInt 0)),
      ("signatures", (Crates.jsonFromStr signaturesJson).getD .null)]).getD unreadableCheckpoint

/-- The checkpoint a row holds. -/
def BlockRow.checkpoint (r : BlockRow) : Checkpoint :=
  reconstruct r.proposalJson r.signaturesJson r.quorum

namespace ChainStore

def getBlock (st : ChainStore) (height : ℤ) : Option Checkpoint :=
  (st.rowAt height).map BlockRow.checkpoint

def head (st : ChainStore) : Option Checkpoint := st.headLocked.bind st.getBlock

/-- The heights `0..=h`. -/
def heightsTo (h : ℤ) : List ℤ := (List.range (h + 1).toNat).map Int.ofNat

/-- `blocks()` -/
def allBlocks (st : ChainStore) : List Checkpoint :=
  match st.headLocked with
  | none => []
  | some h => (heightsTo h).filterMap st.getBlock

/-- A re-delivery or fork twin of an already-committed block. -/
def isAlreadyCommitted (st : ChainStore) (c : Checkpoint) : Bool :=
  decide (c.height ≤ st.headLocked.getD (-1)) ||
    c.proposal.claims.all fun s =>
      st.claimExists s.claim.claimId || st.nodeSeqExists s.claim.nodeId s.claim.seq

/-! ## Writes -/

/-- `INSERT INTO blocks` -/
def insertBlock (st : ChainStore) (row : BlockRow) : Except LedgerError ChainStore :=
  if hh : row.height ∈ st.blocks.map BlockRow.height then
    .error ⟨"UNIQUE constraint failed: blocks.height"⟩
  else if hb : row.blockHash ∈ st.blocks.map BlockRow.blockHash then
    .error ⟨"UNIQUE constraint failed: blocks.block_hash"⟩
  else
    .ok { st with
      blocks := st.blocks ++ [row]
      heights_nodup := by
        simpa using List.Nodup.concat hh st.heights_nodup
      hashes_nodup := by
        simpa using List.Nodup.concat hb st.hashes_nodup }

/-- `INSERT INTO claims` -/
def insertClaim (st : ChainStore) (row : ClaimRow) : Except LedgerError ChainStore :=
  if hc : row.cu.isNaN = true then
    .error ⟨"NOT NULL constraint failed: claims.cu"⟩
  else if hi : row.claimId ∈ st.claims.map ClaimRow.claimId then
    .error ⟨"UNIQUE constraint failed: claims.claim_id"⟩
  else if hs : row.nodeSeq ∈ st.claims.map ClaimRow.nodeSeq then
    .error ⟨"UNIQUE constraint failed: claims.node_id, claims.seq"⟩
  else
    .ok { st with
      claims := st.claims ++ [row]
      claimIds_nodup := by
        simpa using List.Nodup.concat hi st.claimIds_nodup
      nodeSeqs_nodup := by
        simpa using List.Nodup.concat hs st.nodeSeqs_nodup
      cu_notNull := by
        intro r hr
        rcases List.mem_append.mp hr with hr | hr
        · exact st.cu_notNull r hr
        · rw [List.mem_singleton.mp hr]
          exact Bool.eq_false_iff.mpr hc }

/-- The row `append` writes for a block. -/
def blockRow (c : Checkpoint) : BlockRow where
  height := c.height
  blockHash := c.blockHash
  prevHash := c.proposal.prevHash
  epoch := c.epoch
  sealedBy := c.proposal.sealedBy
  proposalJson := Crates.jsonToString c.proposal.toValue
  signaturesJson := Crates.jsonToString c.signaturesValue
  quorum := c.quorum.toInt64
  committedAt := c.proposal.createdAt

/-- The row `append` writes for a claim of a block at the given height. -/
def claimRow (height : ℤ) (s : SignedContribution) : ClaimRow where
  claimId := s.claim.claimId
  height := height
  nodeId := s.claim.nodeId
  seq := s.claim.seq
  cu := computeUnits s.claim
  claimJson := Crates.jsonToString s.claim.toValue

/-- The duplicate checks that `append` makes before its transaction. -/
def checkFresh (st : ChainStore) : List SignedContribution → Except LedgerError Unit
  | [] => .ok ()
  | s :: rest =>
    if st.claimExists s.claim.claimId then
      .error ⟨"duplicate claim " ++ s.claim.claimId⟩
    else if st.nodeSeqExists s.claim.nodeId s.claim.seq then
      .error ⟨"duplicate node/seq (" ++ s.claim.nodeId ++ ", " ++
        toString s.claim.seq.toInt ++ ")"⟩
    else st.checkFresh rest

/-- The claim inserts of the transaction. -/
def insertClaims (height : ℤ) : List SignedContribution → ChainStore →
    Except LedgerError ChainStore
  | [], st => .ok st
  | s :: rest, st =>
    match st.insertClaim (claimRow height s) with
    | .error e => .error e
    | .ok st' => insertClaims height rest st'

/-- The two kinds of insert, in one transaction. -/
def insertCheckpoint (st : ChainStore) (c : Checkpoint) : Except LedgerError ChainStore :=
  match st.insertBlock (blockRow c) with
  | .error e => .error e
  | .ok st' => insertClaims c.height c.proposal.claims st'

/-- The checks of `append` on the links of the block, and its transaction. -/
def appendAfter (st : ChainStore) (expectedPrev : String) (c : Checkpoint) :
    Except LedgerError ChainStore :=
  if c.proposal.prevHash ≠ expectedPrev then
    .error ⟨"prev-hash mismatch: expected " ++ expectedPrev ++ ", got " ++ c.proposal.prevHash⟩
  else if c.epoch < 0 then
    .error ⟨"invalid epoch"⟩
  else
    match st.checkFresh c.proposal.claims with
    | .error e => .error e
    | .ok () => st.insertCheckpoint c

/-- `append`: the new tables, or an error and the tables as they were. -/
def append (st : ChainStore) (c : Checkpoint) : Except LedgerError ChainStore :=
  match st.headLocked with
  | some h =>
    if c.height ≠ h + 1 then
      .error ⟨"out-of-order append: head is " ++ toString h ++ ", block is " ++ toString c.height⟩
    else
      match st.blockHashLocked h with
      | some expectedPrev => st.appendAfter expectedPrev c
      | none => .error ⟨"head block hash missing"⟩
  | none =>
    if c.height ≠ 0 then
      .error ⟨"out-of-order append: head is None, block is " ++ toString c.height⟩
    else st.appendAfter genesisPrevHash c

/-- The tables after `append`, which are the old ones when it fails. -/
def appended (st : ChainStore) (c : Checkpoint) : ChainStore :=
  match st.append c with
  | .ok st' => st'
  | .error _ => st

/-- `DELETE ... WHERE height > ?1` on both tables. -/
def rolledBack (st : ChainStore) (keepHeight : ℤ) : ChainStore where
  blocks := st.blocks.filter fun r => r.height ≤ keepHeight
  claims := st.claims.filter fun r => r.height ≤ keepHeight
  heights_nodup := st.heights_nodup.sublist (List.filter_sublist.map _)
  hashes_nodup := st.hashes_nodup.sublist (List.filter_sublist.map _)
  claimIds_nodup := st.claimIds_nodup.sublist (List.filter_sublist.map _)
  nodeSeqs_nodup := st.nodeSeqs_nodup.sublist (List.filter_sublist.map _)
  cu_notNull := fun r hr => st.cu_notNull r (List.mem_of_mem_filter hr)

/-- `rollback`: the new tables and the surviving head. -/
def rollback (st : ChainStore) (keepHeight : ℤ) : ChainStore × Option Checkpoint :=
  let st' := st.rolledBack keepHeight
  (st', if keepHeight < 0 then none else st'.getBlock keepHeight)

/-! ## Integrity -/

/-- The claims loop of `verify_chain`: the sets of ids and pairs met so far, or the
first one met twice. -/
def auditClaims : List SignedContribution → Finset String → Finset (String × Int64) →
    Except String (Finset String × Finset (String × Int64))
  | [], ids, pairs => .ok (ids, pairs)
  | s :: rest, ids, pairs =>
    if s.claim.claimId ∈ ids then .error ("duplicate claim " ++ s.claim.claimId)
    else if (s.claim.nodeId, s.claim.seq) ∈ pairs then
      .error ("duplicate node/seq (\"" ++ s.claim.nodeId ++ "\", " ++
        toString s.claim.seq.toInt ++ ")")
    else auditClaims rest (insert s.claim.claimId ids)
      (insert (s.claim.nodeId, s.claim.seq) pairs)

/-- The heights loop of `verify_chain`; the result is the complaint, if any. -/
def auditHeights (st : ChainStore) : List ℤ → String → Finset String →
    Finset (String × Int64) → Option String
  | [], _, _, _ => none
  | h :: rest, prevHash, ids, pairs =>
    match st.rowAt h with
    | none => some ("missing block " ++ toString h)
    | some row =>
      if row.prevHash ≠ prevHash then some ("broken link at block " ++ toString h)
      else if row.checkpoint.blockHash ≠ row.blockHash then
        some ("hash mismatch at block " ++ toString h)
      else
        match auditClaims row.checkpoint.proposal.claims ids pairs with
        | .error e => some e
        | .ok (ids', pairs') => st.auditHeights rest row.blockHash ids' pairs'

def verifyChain (st : ChainStore) : Bool × String :=
  match st.auditHeights (heightsTo st.height) genesisPrevHash ∅ ∅ with
  | none => (true, "chain OK (" ++ toString (st.height + 1) ++ " blocks)")
  | some complaint => (false, complaint)

end ChainStore

end Exodus.Model
