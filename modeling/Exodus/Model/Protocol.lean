import Exodus.Model.Validation

/-!
# `consensus/protocol.rs`: the per-node state machine

`Node` is a `ConsensusProtocol` with its `ProtocolState` and its `ChainStore`.  A
handler takes the node to its next state; messages and listener calls accumulate
in `outgoing` and `listenerCalls` until the operation drains them.

What the process reads from its surroundings is in `Ambient`, one answer for each
reading: the clock, the wall-clock text, and which entry a hash map yields first.
Signed arithmetic is that of `i64`, wrapping as in a release build; a block height
is the exception, since a chain of `2^63` blocks cannot be stored.
-/

set_option autoImplicit false

namespace Exodus.Model

open Exodus.Library

/-- The part of `ExodusConfig` that the protocol reads. -/
structure ExodusConfig where
  epochSeconds : Float
  electionTimeoutSeconds : Float
  byzantine : Bool
  activePeerWindow : Int64
  heartbeatSeconds : Float
  syncRequestIntervalSeconds : Float
  flopsTolerance : Float

/-- `peer_stale_after` -/
def ExodusConfig.peerStaleAfter (cfg : ExodusConfig) : Float :=
  let cadence := floatMin cfg.heartbeatSeconds cfg.epochSeconds
  let stale := cadence * 4.0
  if stale.isNaN then 15.0 else if stale < 15.0 then 15.0 else stale

/-- The answers of the surroundings, by the number of the reading. -/
structure Ambient where
  now : ℕ → Float
  utcNow : ℕ → String
  hashOrder : ℕ → ℕ

def maxRecentCommitRejects : ℕ := 512
def maxPendingClaims : ℕ := 4096
def maxPendingCommits : ℕ := 1024

structure Node where
  nodeId : String
  privateKey : List UInt8
  publicKeyHex : String
  store : ChainStore
  config : ExodusConfig
  ambient : Ambient
  /-- readings taken from `ambient` so far -/
  reads : ℕ
  pending : HashMap SignedContribution
  committedClaimIds : Finset String
  proposedClaimIds : Finset String
  proposals : HashMap CheckpointProposal
  signatures : HashMap (HashMap SignatureShare)
  signed : Finset String
  view : Int64
  lastActivity : Float
  peers : HashMap Heartbeat
  peerSeen : HashMap Float
  pendingCommits : Std.ExtTreeMap ℤ Checkpoint compare
  recentForkAlerts : Finset String
  recentCommitRejects : List String
  lastSyncRequest : Float
  syncIntervalSeconds : Float
  outgoing : List (String × Message)
  listenerCalls : List (ℤ × String)

/-- Messages to publish and commits to announce. -/
abbrev Drained : Type := List (String × Message) × List (ℤ × String)

namespace Node

variable [Crates]

/-! ## Elections -/

/-- This node, the sealers and signers of the last blocks, and the peers. -/
def committeeMembers (n : Node) : List String :=
  let window := n.config.activePeerWindow.toUInt64.toNat
  let recent := (n.store.allBlocks.reverse.take window).flatMap fun b =>
    (if b.proposal.sealedBy ≠ genesisSealer then [b.proposal.sealedBy] else []) ++
      b.signatures.map QuorumSignature.nodeId
  (n.nodeId :: recent ++ n.peers.keys).dedup.insertionSort (· ≤ ·)

/-- The order of the election: more compute units first, then the smaller id. -/
def ranksBefore (st : ChainStore) (a b : String) : Bool :=
  let wa := st.totalCuForNode a
  let wb := st.totalCuForNode b
  if wb < wa then true else if wa < wb then false else decide (a ≤ b)

def sealerForView (n : Node) (view : Int64) : String :=
  let committee := n.committeeMembers.insertionSort fun a b => ranksBefore n.store a b
  committee.getD (view.toInt % committee.length).toNat n.nodeId

def quorumSize (n : Node) : ℕ :=
  let size := max n.committeeMembers.length 1
  if n.config.byzantine then max (2 * ((size - 1) / 3) + 1) 1 else size / 2 + 1

/-- Deepest height at which the local chain and the peer's chain agree, or `-1`. -/
def commonAncestor (st : ChainStore) (peer : List Checkpoint) : ℤ :=
  ((ChainStore.heightsTo st.height).reverse.find? fun h =>
    match st.getBlock h with
    | none => false
    | some b => peer.any fun c => c.height = h ∧ c.blockHash = b.blockHash).getD (-1)

/-! ## Small steps -/

/-- Take one reading of the surroundings. -/
def tickClock (n : Node) : Node := { n with reads := n.reads + 1 }

/-- The clock at the next reading. -/
def now (n : Node) : Float := n.ambient.now n.reads

def send (n : Node) (topic : String) (m : Message) : Node :=
  { n with outgoing := n.outgoing ++ [(topic, m)] }

def drain (n : Node) : Node × Drained :=
  ({ n with outgoing := [], listenerCalls := [] }, (n.outgoing, n.listenerCalls))

/-- Queue a `SyncRequest` subject to the rate limit. -/
def requestSync (n : Node) (fromHeight : ℤ) : Node :=
  let t := n.now
  let n := n.tickClock
  if 0.0 < n.syncIntervalSeconds ∧ t - n.lastSyncRequest < n.syncIntervalSeconds then n
  else
    { n with lastSyncRequest := t }.send Topics.sync
      (.syncRequest { nodeId := n.nodeId, fromHeight := Int64.ofInt fromHeight })

def signatureShare (n : Node) (p : CheckpointProposal) : SignatureShare where
  proposalHash := p.proposalHash
  height := p.height
  epoch := p.epoch
  nodeId := n.nodeId
  publicKeyHex := n.publicKeyHex
  signatureHex := hex (sign (asBytes p.proposalHash) n.privateKey)

/-- `signatures.entry(hash).or_default().insert(share.node_id, share)` -/
def fileShare (n : Node) (hash : String) (share : SignatureShare) : Node :=
  { n with signatures :=
      n.signatures.insert hash ((n.signatures.getD hash ∅).insert share.nodeId share) }

def addOwnSignature (n : Node) (p : CheckpointProposal) : Node :=
  let share := n.signatureShare p
  let n := n.fileShare p.proposalHash share
  { n with signed := insert p.proposalHash n.signed }.send Topics.signatures
    (.signatureShare share)

/-! ## Commits -/

/-- The bookkeeping of `commit_local` for a block that the ledger took. -/
def settleClaims (n : Node) (claims : List SignedContribution) : Node :=
  claims.foldl (fun n s =>
    { n with
      pending := n.pending.erase s.claim.claimId
      proposedClaimIds := n.proposedClaimIds.erase s.claim.claimId
      committedClaimIds := insert s.claim.claimId n.committedClaimIds }) n

/-- The bookkeeping of `commit_local` for a fork twin: only claims that the ledger
holds count as committed. -/
def settleTwin (n : Node) (claims : List SignedContribution) : Node :=
  claims.foldl (fun n s =>
    { n with
      pending := n.pending.erase s.claim.claimId
      proposedClaimIds := n.proposedClaimIds.erase s.claim.claimId
      committedClaimIds :=
        if n.store.claimExists s.claim.claimId then insert s.claim.claimId n.committedClaimIds
        else n.committedClaimIds }) n

/-- The end of `commit_local` after a successful append. -/
def announceCommit (n : Node) (c : Checkpoint) : Node :=
  let n := n.settleClaims c.proposal.claims
  let n := { n with
    proposals := n.proposals.erase c.proposal.proposalHash
    signatures := n.signatures.erase c.proposal.proposalHash
    view := max n.view (c.proposal.epoch + 1)
    lastActivity := n.now }.tickClock
  { n.send Topics.commits (.commitMessage c) with
    listenerCalls := n.listenerCalls ++ [(c.height, c.blockHash)] }

/-- `commit_local` for a block above the head. -/
def appendLocal (n : Node) (c : Checkpoint) : Node :=
  match n.store.append c with
  | .error _ =>
    if n.store.isAlreadyCommitted c then n.settleTwin c.proposal.claims
    else n.requestSync (c.height - 1)
  | .ok st => { n with store := st }.announceCommit c

def commitLocal (n : Node) (c : Checkpoint) : Node :=
  match n.store.head with
  | some h => if c.height ≤ h.height then n else n.appendLocal c
  | none => n.appendLocal c

/-- The checkpoint `maybe_commit` assembles from the collected shares. -/
def assembleCheckpoint (n : Node) (p : CheckpointProposal) : Checkpoint where
  proposal := p
  signatures :=
    ((n.signatures.getD p.proposalHash ∅).values.insertionSort
      fun a b => a.nodeId ≤ b.nodeId).map fun s =>
        { nodeId := s.nodeId, publicKeyHex := s.publicKeyHex, signatureHex := s.signatureHex }
  quorum := UInt64.ofNat n.quorumSize

def maybeCommit (n : Node) (p : CheckpointProposal) : Node :=
  if (n.signatures.getD p.proposalHash ∅).size < n.quorumSize then n
  else
    let c := n.assembleCheckpoint p
    match validateCheckpoint c n.store n.config.flopsTolerance n.quorumSize false
        (some n.committedClaimIds) with
    | .error _ => n
    | .ok _ => n.commitLocal c

/-! ## Queued commits -/

def commitRejectSeen (n : Node) (hash : String) : Bool := n.recentCommitRejects.contains hash

/-- Remember a rejected commit, dropping the oldest beyond the cap. -/
def noteCommitReject (n : Node) (hash : String) : Node :=
  if n.commitRejectSeen hash then n
  else
    let rejects := n.recentCommitRejects ++ [hash]
    { n with recentCommitRejects := rejects.drop (rejects.length - maxRecentCommitRejects) }

/-- Drop the lowest heights until the queue is within its cap. -/
def trimPendingCommits : ℕ → Std.ExtTreeMap ℤ Checkpoint compare →
    Std.ExtTreeMap ℤ Checkpoint compare
  | 0, queue => queue
  | fuel + 1, queue =>
    if maxPendingCommits < queue.size then
      match queue.minKey? with
      | some h => trimPendingCommits fuel (queue.erase h)
      | none => queue
    else queue

def insertPendingCommit (n : Node) (c : Checkpoint) : Node :=
  let queue := n.pendingCommits.insert c.height c
  { n with pendingCommits := trimPendingCommits queue.size queue }

/-- One height of `flush_pending_commits`. -/
def flushHeight (n : Node) (height : ℤ) : Node :=
  if height ≠ (n.store.head.map Checkpoint.height).getD (-1) + 1 then n
  else
    match n.pendingCommits[height]? with
    | none => n
    | some c =>
      let n := { n with pendingCommits := n.pendingCommits.erase height }
      match validateCheckpoint c n.store n.config.flopsTolerance n.quorumSize false none with
      | .ok _ => n.commitLocal c
      | .error _ => n

def flushPendingCommits (n : Node) : Node :=
  match n.store.head with
  | none => n
  | some _ => n.pendingCommits.keys.foldl flushHeight n

/-! ## Handlers -/

/-- Drop claims, in the order the hash map yields them, until the queue is within its cap. -/
def evictClaims : ℕ → Node → Node
  | 0, n => n
  | fuel + 1, n =>
    if maxPendingClaims < n.pending.size then
      match n.pending.keys[n.ambient.hashOrder n.reads % n.pending.size]? with
      | some id => evictClaims fuel { n with pending := n.pending.erase id }.tickClock
      | none => n
    else n

def onClaims (n : Node) (s : SignedContribution) : Node :=
  if !s.verify then n
  else if n.pending.contains s.claim.claimId || decide (s.claim.claimId ∈ n.committedClaimIds) ||
      decide (s.claim.claimId ∈ n.proposedClaimIds) then n
  else
    let n := { n with pending := n.pending.insert s.claim.claimId s }
    evictClaims n.pending.size n

/-- Take a proposal in: its claims leave the pending queue. -/
def adoptProposal (n : Node) (p : CheckpointProposal) : Node :=
  let n := { n with
    proposals := n.proposals.insert p.proposalHash p
    signatures := n.signatures.insert p.proposalHash (n.signatures.getD p.proposalHash ∅) }
  p.claims.foldl (fun n s =>
    { n with
      proposedClaimIds := insert s.claim.claimId n.proposedClaimIds
      pending := n.pending.erase s.claim.claimId }) n

def onProposal (n : Node) (p : CheckpointProposal) : Node :=
  if n.proposals.contains p.proposalHash || decide (p.proposalHash ∈ n.signed) then n
  else if n.store.head.any fun h => p.height.toInt ≤ h.height then n
  else if p.sealedBy ≠ n.sealerForView p.epoch then n
  else
    match validateProposal p n.store n.committedClaimIds n.config.flopsTolerance false with
    | .error _ => n
    | .ok _ =>
      let n := (n.adoptProposal p).addOwnSignature p
      let n := { n with lastActivity := n.now }.tickClock
      if n.sealerForView n.view = n.nodeId then n.maybeCommit p else n

def onSignature (n : Node) (share : SignatureShare) : Node :=
  if !share.verify then n
  else
    match n.proposals[share.proposalHash]? with
    | none => n
    | some p => (n.fileShare share.proposalHash share).maybeCommit p

/-- The end of `on_commit`, for a block that may come next. -/
def acceptCommit (n : Node) (c : Checkpoint) : Node :=
  if n.commitRejectSeen c.blockHash then n
  else
    match validateCheckpoint c n.store n.config.flopsTolerance n.quorumSize false
        (some n.committedClaimIds) with
    | .error _ => n.noteCommitReject c.blockHash
    | .ok seen =>
      ({ n with committedClaimIds := seen }.commitLocal c).flushPendingCommits

def onCommit (n : Node) (c : Checkpoint) : Node :=
  match n.store.head with
  | none =>
    if c.height ≠ 0 then (n.insertPendingCommit c).requestSync (-1)
    else n.acceptCommit c
  | some h =>
    if c.height ≤ h.height then
      if h.blockHash ≠ c.blockHash ∧ c.height = h.height then
        let n := n.send Topics.forks (.forkAlert {
          nodeId := n.nodeId
          height := c.proposal.height
          observedHashA := h.blockHash
          observedHashB := c.blockHash })
        if c.blockHash < h.blockHash then n.requestSync (-1) else n
      else n
    else if h.height + 1 < c.height then
      (n.insertPendingCommit c).requestSync h.height
    else if c.height = h.height + 1 ∧ c.proposal.prevHash ≠ h.blockHash then
      n.requestSync (-1)
    else n.acceptCommit c

def onHeartbeat (n : Node) (hb : Heartbeat) : Node :=
  if hb.nodeId = n.nodeId then n
  else
    let n := { n with
      peers := n.peers.insert hb.nodeId hb
      peerSeen := n.peerSeen.insert hb.nodeId n.now }.tickClock
    match n.store.head with
    | none => n.requestSync (-1)
    | some head =>
      if head.height < hb.height.toInt then n.requestSync head.height
      else if hb.height.toInt = head.height ∧ hb.blockHash ≠ head.blockHash then
        n.send Topics.forks (.forkAlert {
          nodeId := n.nodeId
          height := hb.height
          observedHashA := head.blockHash
          observedHashB := hb.blockHash })
      else n

def pruneStalePeers (n : Node) (now staleAfter : Float) : Node :=
  if staleAfter ≤ 0.0 then n
  else
    let cutoff := now - staleAfter
    { n with peers := n.peers.filter fun id _ =>
        match n.peerSeen[id]? with
        | some t => decide (cutoff < t)
        | none => true }

def onFork (n : Node) (alert : ForkAlert) : Node :=
  { n with recentForkAlerts :=
      insert (alert.observedHashA ++ alert.observedHashB) n.recentForkAlerts }

def onSyncRequest (n : Node) (req : SyncRequest) : Node :=
  if req.nodeId = n.nodeId then n
  else
    let first := (req.fromHeight + 1).toInt
    let heights := (List.range (n.store.height + 1 - first).toNat).map fun i => first + Int.ofNat i
    let blocks := heights.filterMap n.store.getBlock
    if blocks.isEmpty then n
    else n.send Topics.sync (.syncResponse { nodeId := n.nodeId, blocks })

/-! ## Reorganisation -/

/-- The pre-check of `reconcile_chain`: the blocks follow each other in height and hash. -/
def contiguous : List Checkpoint → ℤ → String → Bool
  | [], _, _ => true
  | b :: rest, expectedHeight, expectedPrev =>
    decide (b.height = expectedHeight) && decide (b.proposal.prevHash = expectedPrev) &&
      contiguous rest (expectedHeight + 1) b.blockHash

/-- Re-append saved blocks whose height is not stored. -/
def restoreBlocks (st : ChainStore) (saved : List Checkpoint) : ChainStore :=
  saved.foldl (fun st b => if (st.getBlock b.height).isNone then st.appended b else st) st

/-- The re-apply loop of `reconcile_chain`, with its restore exit.  `applied` counts the
blocks handed to `commit_local`. -/
def reapply (ancestor : ℤ) (saved : List Checkpoint) : List Checkpoint → ℕ → Node → Node
  | [], _, n => { n with committedClaimIds := n.store.allCommittedClaimIds }
  | b :: rest, applied, n =>
    match validateCheckpoint b n.store n.config.flopsTolerance n.quorumSize false (some ∅) with
    | .error _ =>
      let st := restoreBlocks n.store (saved.take applied)
      let st := restoreBlocks (st.rolledBack ancestor) saved
      { n with store := st, committedClaimIds := st.allCommittedClaimIds }
    | .ok _ => reapply ancestor saved rest (applied + 1) (n.commitLocal b)

/-- The local blocks above the ancestor. -/
def savedAbove (st : ChainStore) (ancestor localHeight : ℤ) : List Checkpoint :=
  ((ChainStore.heightsTo localHeight).filter fun h => ancestor < h).filterMap st.getBlock

/-- The peer's tip loses against the local chain. -/
def tipDeclined (st : ChainStore) (tip : Checkpoint) : Bool :=
  if tip.height < st.height then true
  else if tip.height = st.height then
    match st.head with
    | some head => decide (head.blockHash ≤ tip.blockHash)
    | none => false
  else false

def reconcileChain (n : Node) (peer : List Checkpoint) : Node :=
  let blocks := peer.insertionSort fun a b => a.height ≤ b.height
  match blocks.getLast? with
  | none => n
  | some tip =>
    if tipDeclined n.store tip then n
    else
      let localHeight := n.store.height
      let ancestor := commonAncestor n.store blocks
      let incoming := blocks.filter fun b => ancestor < b.height
      let expectedPrev :=
        ((n.store.getBlock ancestor).map Checkpoint.blockHash).getD genesisPrevHash
      if !contiguous incoming (ancestor + 1) expectedPrev then n
      else
        let saved := savedAbove n.store ancestor localHeight
        let n :=
          if ancestor < localHeight then
            let st := n.store.rolledBack ancestor
            { n with
              store := st
              pendingCommits := n.pendingCommits.filter fun h _ => decide (h ≤ st.height) }
          else n
        reapply ancestor saved incoming 0 n

def onSyncResponse (n : Node) (resp : SyncResponse) : Node :=
  if resp.blocks.any fun b => b.height = 0 then n.reconcileChain resp.blocks
  else resp.blocks.foldl onCommit n

/-! ## Proposing -/

/-- The claims `propose_internal` collects: pending, neither committed nor proposed, by id. -/
def eligibleClaims (n : Node) : List SignedContribution :=
  ((n.pending.toList.filter fun e =>
    decide (e.1 ∉ n.committedClaimIds) && decide (e.1 ∉ n.proposedClaimIds)).map
      Prod.snd).insertionSort fun a b => a.claim.claimId ≤ b.claim.claimId

/-- The proposal `propose_internal` builds on the given head. -/
def nextProposal (n : Node) (head : Checkpoint) : CheckpointProposal where
  epoch := n.view
  height := Int64.ofInt (head.height + 1)
  prevHash := head.blockHash
  sealedBy := n.nodeId
  claims := n.eligibleClaims
  createdAt := n.ambient.utcNow n.reads

/-- An outstanding proposal at the height. -/
def outstandingAt (n : Node) (height : ℤ) : Bool :=
  n.proposals.values.any fun p => p.height.toInt = height

def proposeInternal (n : Node) : Node :=
  if n.sealerForView n.view ≠ n.nodeId then n
  else
    match n.store.head with
    | none => n
    | some head =>
      if n.outstandingAt (head.height + 1) then n
      else if n.eligibleClaims.isEmpty then n
      else
        let p := n.nextProposal head
        let n := n.tickClock
        match validateProposal p n.store ∅ n.config.flopsTolerance false with
        | .error _ => n
        | .ok _ =>
          let n := (n.adoptProposal p).addOwnSignature p
          let n := { n with lastActivity := n.now }.tickClock
          (n.send Topics.proposals (.proposalMessage p)).maybeCommit p

/-! ## Public operations -/

/-- `ConsensusProtocol::new` over the given store, `ensure_genesis` included. -/
def new (nodeId : String) (privateKey : List UInt8) (publicKeyHex : String)
    (store : ChainStore) (config : ExodusConfig) (ambient : Ambient) : Node :=
  let n : Node := {
    nodeId, privateKey, publicKeyHex, store, config, ambient
    reads := 1
    pending := ∅
    committedClaimIds := (store.claims.map ClaimRow.claimId).toFinset
    proposedClaimIds := ∅
    proposals := ∅
    signatures := ∅
    signed := ∅
    view := 1
    lastActivity := ambient.now 0
    peers := ∅
    peerSeen := ∅
    pendingCommits := ∅
    recentForkAlerts := ∅
    recentCommitRejects := []
    lastSyncRequest := 0.0
    syncIntervalSeconds := config.syncRequestIntervalSeconds
    outgoing := []
    listenerCalls := [] }
  if store.height ≠ -1 then
    { n with view := match store.head with | some h => h.proposal.epoch + 1 | none => 1 }
  else
    { n with store := store.appended genesisCheckpoint, lastActivity := n.now }.tickClock

/-- `submit_claim`, before its drain. -/
def submitClaim (n : Node) (s : SignedContribution) : Node × Except ValidationError String :=
  if s.claim.nodeId ≠ n.nodeId then
    (n, .error ⟨"can only submit claims for this node"⟩)
  else if !s.verify then
    (n, .error ⟨"claim signature does not verify"⟩)
  else if !flopsIsPlausible s.claim n.config.flopsTolerance then
    (n, .error ⟨"claim fails FLOPS sanity check"⟩)
  else if n.pending.contains s.claim.claimId ||
      decide (s.claim.claimId ∈ n.committedClaimIds) then
    (n, .ok s.claim.claimId)
  else
    ({ n with pending := n.pending.insert s.claim.claimId s }.send Topics.claims
      (.contributionGossip s), .ok s.claim.claimId)

/-- `receive`, before its drain. -/
def receive (n : Node) (topic : String) (m : Message) : Node :=
  match m with
  | .contributionGossip s => if topic = Topics.claims then n.onClaims s else n
  | .proposalMessage p => if topic = Topics.proposals then n.onProposal p else n
  | .signatureShare s => if topic = Topics.signatures then n.onSignature s else n
  | .commitMessage c => if topic = Topics.commits then n.onCommit c else n
  | .heartbeat hb => if topic = Topics.heartbeats then n.onHeartbeat hb else n
  | .forkAlert a => if topic = Topics.forks then n.onFork a else n
  | .syncRequest _ => n
  | .syncResponse _ => n

/-- The clock part of `tick`; the flag is the takeover. -/
def advanceView (n : Node) : Node × Bool :=
  let now := n.now
  let n := n.tickClock.pruneStalePeers now n.config.peerStaleAfter
  if n.config.electionTimeoutSeconds < now - n.lastActivity then
    let wasSealer := decide (n.sealerForView n.view = n.nodeId)
    let n := { n with view := n.view + 1 }
    ({ n with lastActivity := now }, !wasSealer && decide (n.sealerForView n.view = n.nodeId))
  else (n, false)

/-- The heartbeat a node with a head broadcasts. -/
def ownHeartbeat (n : Node) (h : Checkpoint) : Heartbeat where
  nodeId := n.nodeId
  height := h.proposal.height
  blockHash := h.blockHash
  epoch := h.proposal.epoch
  sealedBy := h.proposal.sealedBy
  quorumWeight := Int64.ofNat (n.store.allBlocks.map fun b => b.signatures.length).sum

/-- The heartbeat of a tick, if there is a head. -/
def heartbeats (n : Node) : List (String × Message) :=
  match n.store.head with
  | some h => [(Topics.heartbeats, .heartbeat (n.ownHeartbeat h))]
  | none => []

def tick (n : Node) : Node × Drained :=
  let viewed := n.advanceView
  let ticked := viewed.1.drain
  let msgs := ticked.2.1 ++ ticked.1.heartbeats
  if viewed.2 then
    let proposed := ticked.1.proposeInternal.drain
    (proposed.1, msgs ++ proposed.2.1, ticked.2.2 ++ proposed.2.2)
  else (ticked.1, msgs, ticked.2.2)

/-- A call of a public operation. -/
inductive Op where
  | submitClaim (signed : SignedContribution)
  | receive (topic : String) (m : Message)
  | syncRequest (req : SyncRequest)
  | syncResponse (resp : SyncResponse)
  | tick
  | proposeNow

/-- A public operation, with what it publishes and announces. -/
def step (n : Node) : Op → Node × Drained
  | .submitClaim s => (n.submitClaim s).1.drain
  | .receive topic m => (n.receive topic m).drain
  | .syncRequest req => (n.onSyncRequest req).drain
  | .syncResponse resp => (n.onSyncResponse resp).drain
  | .tick => n.tick
  | .proposeNow => n.proposeInternal.drain

/-- The states of a node: a start on an empty ledger, any operations, and restarts over
the ledger they left. -/
inductive Reachable : Node → Prop
  | start (nodeId : String) (privateKey : List UInt8) (publicKeyHex : String)
      (config : ExodusConfig) (ambient : Ambient) :
      Reachable (new nodeId privateKey publicKeyHex ChainStore.empty config ambient)
  | restart {n : Node} (h : Reachable n) (nodeId : String) (privateKey : List UInt8)
      (publicKeyHex : String) (config : ExodusConfig) (ambient : Ambient) :
      Reachable (new nodeId privateKey publicKeyHex n.store config ambient)
  | step {n : Node} (h : Reachable n) (op : Op) : Reachable (n.step op).1

end Node

end Exodus.Model
