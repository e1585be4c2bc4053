import Exodus.Analysis.CatchUp
import Exodus.Analysis.ForkChoice
import Exodus.Analysis.SyncAnswers

/-!
# A longer chain spreads by one heartbeat

A node that hears the heartbeat of a peer with a longer chain asks for the blocks above its
own head.  If its chain is a first part of the peer's, the answer completes it.  If it is on a
fork, the first block of the answer does not fit, the node asks for the whole chain, and the
second answer makes it switch.  `heartbeat_heals` follows the two nodes through these
exchanges.  A fork takes two requests, and the second one is sent only if the rate limit lets
it through.
-/

set_option autoImplicit false

namespace Exodus.Analysis

open Exodus.Library Exodus.Model Exodus.Interface

variable [Crates] {n m : Node} {A B : List Checkpoint} {st : ChainStore}

/-! ## Exchanges -/

/-- The sync responses among some messages. -/
def syncResponses (out : List (String × Message)) : List SyncResponse :=
  out.filterMap fun e =>
    match e.2 with
    | .syncResponse resp => some resp
    | _ => none

/-- The sync requests among some messages. -/
def syncRequests (out : List (String × Message)) : List SyncRequest :=
  out.filterMap fun e =>
    match e.2 with
    | .syncRequest req => some req
    | _ => none

/-- What a peer answers to the sync requests among some messages. -/
def answersTo (m : Node) (out : List (String × Message)) : List SyncResponse :=
  (syncRequests out).flatMap fun req => syncResponses (m.step (.syncRequest req)).2.1

/-- A node takes responses one after the other; the messages are what it sends meanwhile. -/
def takeResponses (n : Node) : List SyncResponse → Node × List (String × Message)
  | [] => (n, [])
  | resp :: rest =>
    let taken := n.step (.syncResponse resp)
    let later := takeResponses taken.1 rest
    (later.1, taken.2.1 ++ later.2)

/-- The peer answers what the node has sent, and the node takes the answers. -/
def syncExchange (m : Node) (s : Node × List (String × Message)) : Node × List (String × Message) :=
  takeResponses s.1 (answersTo m s.2)

/-- The node receives a message of the peer, and as many exchanges follow. -/
def heal (n m : Node) (topic : String) (msg : Message) (exchanges : ℕ) :
    Node × List (String × Message) :=
  (syncExchange m)^[exchanges] ((n.step (.receive topic msg)).1, (n.step (.receive topic msg)).2.1)

/-! ## Answers -/

section Answers

variable [SerdeReadsBack]

/-- The answer is a last part of the chain, in order. -/
theorem Refines.answer_eq (h : Refines st B) (first : ℤ) :
    answer st first = (B.drop first.toNat).map readBack := by
  have hheight (i : ℕ) (hi : i < B.length) : (B[i]).height = i :=
    LedgerChain.getElem_height h.chain_ok hi
  have hsorted : (((B.drop first.toNat).map readBack).map Checkpoint.height).Pairwise (· < ·) := by
    rw [List.map_map, List.pairwise_map]
    refine ((pairwise_height (LedgerChain.linked h.chain_ok)).sublist (List.drop_sublist _ _)).imp ?_
    intro a b hab
    simpa using hab
  have hmem : ∀ b, b ∈ answer st first ↔ b ∈ (B.drop first.toNat).map readBack := by
    intro b
    rw [Refines.mem_answer_iff h, List.mem_map]
    constructor
    · rintro ⟨k, hk, hget⟩
      rw [h.getBlock] at hget
      obtain ⟨c, hc, rfl⟩ := Option.map_eq_some_iff.mp hget
      obtain ⟨i, hi, rfl, rfl⟩ := blockAt_eq_some hc
      refine ⟨B[i], List.mem_drop_iff_getElem.mpr ⟨i - first.toNat, by omega, ?_⟩, rfl⟩
      congr 1
      omega
    · rintro ⟨c, hc, rfl⟩
      obtain ⟨i, hi, rfl⟩ := List.mem_drop_iff_getElem.mp hc
      refine ⟨((first.toNat + i : ℕ) : ℤ), by omega, ?_⟩
      rw [h.getBlock, blockAt_natCast, List.getElem?_eq_getElem, Option.map_some]
  have hnodup {l : List Checkpoint} (hl : (l.map Checkpoint.height).Pairwise (· < ·)) : l.Nodup := by
    rw [List.pairwise_map] at hl
    exact hl.imp fun hlt heq => by simp [heq] at hlt
  have hascending := Refines.answer_ascending h first
  have hperm := (List.perm_ext_iff_of_nodup (hnodup hascending) (hnodup hsorted)).mpr hmem
  rw [List.pairwise_map] at hascending hsorted
  exact hperm.eq_of_pairwise (fun a b _ _ hab hba => absurd (hab.trans hba) (lt_irrefl _))
    hascending hsorted

/-- A peer answers a request with the blocks above the height it names, if there are any. -/
theorem syncResponses_of_request (hB : Refines m.store B) (hidle : Idle m) {req : SyncRequest}
    (hpeer : req.nodeId ≠ m.nodeId) :
    syncResponses (m.step (.syncRequest req)).2.1 =
      let blocks := (B.drop (req.fromHeight + 1).toInt.toNat).map readBack
      if blocks = [] then [] else [⟨m.nodeId, blocks⟩] := by
  rw [sent_on_request hidle hpeer, Refines.answer_eq hB]
  dsimp only
  by_cases hempty : (B.drop (req.fromHeight + 1).toInt.toNat).map readBack = []
  · rw [if_pos hempty, hempty]
    rfl
  · rw [if_neg hempty, if_neg (by simpa using hempty)]
    rfl

end Answers

/-! ## A node that holds the chain of the peer -/

/-- The node holds a valid chain. -/
structure Holding (n : Node) (A : List Checkpoint) : Prop where
  stored : Refines n.store A
  valid : ValidChain n.config.flopsTolerance A

/-- The blocks are a last part of the chain, as a peer reads them from its store. -/
def PartOf (B : List Checkpoint) (resp : SyncResponse) : Prop :=
  ∃ k, resp.blocks = (B.drop k).map readBack

/-- A valid chain starts with genesis. -/
theorem ValidChain.ne_nil {tol : Float} (h : ValidChain tol A) : A ≠ [] := by
  rintro rfl
  exact absurd h.genesis (by simp)

/-- A block that is not above the head, and not another one at its height, changes nothing. -/
theorem onCommit_known {c head : Checkpoint} (hhead : n.store.head = some head)
    (hle : c.height ≤ head.height) (hsame : c.height = head.height → c.blockHash = head.blockHash) :
    n.onCommit c = n := by
  unfold Node.onCommit
  rw [hhead]
  dsimp only
  rw [if_pos hle, if_neg]
  rintro ⟨hne, heq⟩
  exact hne (hsame heq).symm

section Known

variable [SerdeReadsBack]

/-- Blocks that the node has change nothing. -/
theorem foldl_onCommit_known (hA : Refines n.store A) (hB : LedgerChain B)
    (hcontent : A.map content = B.map content) {blocks : List Checkpoint}
    (hblocks : ∀ b ∈ blocks, ∃ c ∈ B, b = readBack c) : blocks.foldl Node.onCommit n = n := by
  have hlength : A.length = B.length := by simpa using congrArg List.length hcontent
  have hhashes := map_blockHash_congr hcontent
  have hone : ∀ c ∈ B, n.onCommit (readBack c) = n := by
    intro c hc
    obtain ⟨i, hi, rfl⟩ := List.mem_iff_getElem.mp hc
    have hpos : A.length - 1 < A.length := by omega
    have hhead : n.store.head = some (readBack A[A.length - 1]) := by
      rw [hA.head, List.getLast?_eq_getElem?, List.getElem?_eq_getElem hpos, Option.map_some]
    have hheight := LedgerChain.getElem_height hB hi
    have hheight' := LedgerChain.getElem_height hA.chain_ok hpos
    apply onCommit_known hhead
    · rw [readBack_height, readBack_height, hheight, hheight']
      omega
    · rw [readBack_height, readBack_height, hheight, hheight', readBack_blockHash,
        readBack_blockHash]
      intro heq
      obtain rfl : i = A.length - 1 := by omega
      have hget := congrArg (fun l => l[A.length - 1]?) hhashes
      simp only [List.getElem?_map, List.getElem?_eq_getElem hpos, List.getElem?_eq_getElem hi,
        Option.map_some, Option.some.injEq] at hget
      exact hget.symm
  induction blocks with
  | nil => rfl
  | cons b rest ih =>
    obtain ⟨c, hc, rfl⟩ := hblocks b List.mem_cons_self
    rw [List.foldl_cons, hone c hc]
    exact ih fun d hd => hblocks d (List.mem_cons_of_mem _ hd)

omit [SerdeReadsBack] in
/-- The genesis block is in the answer exactly when the answer is the whole chain. -/
theorem any_height_zero (hB : LedgerChain B) (k : ℕ) (hlt : k < B.length) :
    ((B.drop k).map readBack).any (fun b => decide (b.height = 0)) = decide (k = 0) := by
  rw [Bool.eq_iff_iff, List.any_eq_true, decide_eq_true_eq]
  constructor
  · rintro ⟨b, hb, hzero⟩
    obtain ⟨c, hc, rfl⟩ := List.mem_map.mp hb
    obtain ⟨i, hi, rfl⟩ := List.mem_drop_iff_getElem.mp hc
    rw [decide_eq_true_eq, readBack_height, LedgerChain.getElem_height hB (by omega)] at hzero
    omega
  · rintro rfl
    refine ⟨readBack B[0], List.mem_map_of_mem (List.getElem_mem hlt), ?_⟩
    rw [decide_eq_true_eq, readBack_height, LedgerChain.getElem_height hB hlt]
    rfl

end Known

section Heal

/-- A sync response leaves the settings. -/
theorem Holding.config_step (n : Node) (resp : SyncResponse) :
    (n.step (.syncResponse resp)).1.config = n.config := onSyncResponse_config n resp

/-- A response that changes nothing leaves the chain. -/
theorem Holding.of_unchanged (h : Holding n A) {resp : SyncResponse}
    (hsame : n.onSyncResponse resp = n) : Holding (n.step (.syncResponse resp)).1 A := by
  have hstep : (n.step (.syncResponse resp)).1 = n.drain.1 := by
    show (n.onSyncResponse resp).drain.1 = _
    rw [hsame]
  rw [hstep]
  exact ⟨h.stored, h.valid⟩

variable [SerdeReadsBack] [RyuReadsBack]

/-- The whole chain of the peer is adopted if it is better; otherwise nothing changes. -/
theorem Holding.whole (hsha : Sha256CollisionFree) (h : Holding n A)
    (hB : ValidChain n.config.flopsTolerance (B.map readBack)) {resp : SyncResponse}
    (hresp : resp.blocks = B.map readBack) :
    ∃ A', Holding (n.step (.syncResponse resp)).1 A' ∧
      (Better (B.map readBack) A ∧ A'.map content = B.map content ∨
        ¬ Better (B.map readBack) A ∧ A' = A) := by
  have hcarries : Carries n.config.flopsTolerance resp (B.map readBack) := ⟨by rw [hresp], hB⟩
  obtain ⟨A', hstored, hvalid, hcase⟩ :=
    reconcileChain_valid hsha h.stored h.valid hB hcarries.1
  have hstep : (n.step (.syncResponse resp)).1.store = (n.reconcileChain resp.blocks).store := by
    show (n.onSyncResponse resp).store = _
    rw [onSyncResponse_of_carries hcarries]
  refine ⟨A', ⟨hstep ▸ hstored, ?_⟩, ?_⟩
  · rw [Holding.config_step]
    exact hvalid
  · rwa [map_content_readBack] at hcase

/-- A node that holds the contents of the peer's chain keeps them, whatever the peer answers. -/
theorem Holding.same (hsha : Sha256CollisionFree) (h : Holding n A) (hchain : LedgerChain B)
    (hB : ValidChain n.config.flopsTolerance (B.map readBack))
    (hcontent : A.map content = B.map content) {resp : SyncResponse} (hresp : PartOf B resp) :
    ∃ A', Holding (n.step (.syncResponse resp)).1 A' ∧ A'.map content = B.map content := by
  obtain ⟨k, hblocks⟩ := hresp
  have hne := ValidChain.ne_nil hB
  rcases Nat.lt_or_ge k B.length with hlt | hge
  · rcases Nat.eq_zero_or_pos k with rfl | hpos
    · rw [List.drop_zero] at hblocks
      obtain ⟨A', hhold, hcase⟩ := h.whole hsha hB hblocks
      refine ⟨A', hhold, ?_⟩
      rcases hcase with ⟨-, hadopted⟩ | ⟨-, rfl⟩
      · exact hadopted
      · exact hcontent
    · have hany := any_height_zero hchain k hlt
      have hsame : n.onSyncResponse resp = n := by
        unfold Node.onSyncResponse
        rw [hblocks, hany, if_neg (by simpa using hpos.ne')]
        apply foldl_onCommit_known h.stored hchain hcontent
        intro b hb
        obtain ⟨c, hc, rfl⟩ := List.mem_map.mp hb
        exact ⟨c, List.mem_of_mem_drop hc, rfl⟩
      exact ⟨A, h.of_unchanged hsame, hcontent⟩
  · have hsame : n.onSyncResponse resp = n := by
      unfold Node.onSyncResponse
      rw [hblocks, List.drop_of_length_le hge]
      rfl
    exact ⟨A, h.of_unchanged hsame, hcontent⟩

/-! ## Any number of answers -/

/-- The peer holds a chain and has nothing to send. -/
structure Answering (m : Node) (B : List Checkpoint) : Prop where
  stored : Refines m.store B
  idle : Idle m

omit [RyuReadsBack] in
/-- What a peer answers is a part of its chain. -/
theorem Answering.partOf (h : Answering m B) {out : List (String × Message)} {resp : SyncResponse}
    (hresp : resp ∈ answersTo m out) : PartOf B resp := by
  obtain ⟨req, -, hmem⟩ := List.mem_flatMap.mp hresp
  by_cases hpeer : req.nodeId = m.nodeId
  · -- a node does not answer itself
    have hsilent : (m.step (.syncRequest req)).2.1 = [] := by
      show (m.onSyncRequest req).outgoing = []
      unfold Node.onSyncRequest
      rw [if_pos hpeer]
      exact h.idle.outgoing
    rw [hsilent] at hmem
    cases hmem
  · rw [syncResponses_of_request h.stored h.idle hpeer] at hmem
    dsimp only at hmem
    split_ifs at hmem
    · cases hmem
    · rw [List.mem_singleton.mp hmem]
      exact ⟨_, rfl⟩

/-- Parts of the chain that the node has leave it with these contents. -/
theorem Holding.takeResponses_same (hsha : Sha256CollisionFree) (h : Holding n A)
    (hchain : LedgerChain B) (hB : ValidChain n.config.flopsTolerance (B.map readBack))
    (hcontent : A.map content = B.map content) {resps : List SyncResponse}
    (hresps : ∀ resp ∈ resps, PartOf B resp) :
    (takeResponses n resps).1.config = n.config ∧
      ∃ A', Holding (takeResponses n resps).1 A' ∧ A'.map content = B.map content := by
  induction resps generalizing n A with
  | nil => exact ⟨rfl, A, h, hcontent⟩
  | cons resp rest ih =>
    obtain ⟨A₁, h₁, hcontent₁⟩ := h.same hsha hchain hB hcontent (hresps resp List.mem_cons_self)
    have hconfig := Holding.config_step n resp
    obtain ⟨hconfig', hlater⟩ := ih h₁ (by rwa [hconfig]) hcontent₁
      fun r hr => hresps r (List.mem_cons_of_mem _ hr)
    exact ⟨hconfig'.trans hconfig, hlater⟩

/-- Once the contents are there, further exchanges change nothing of them. -/
theorem Holding.exchanges_same (hsha : Sha256CollisionFree) (hm : Answering m B)
    {s : Node × List (String × Message)} (h : Holding s.1 A)
    (hB : ValidChain s.1.config.flopsTolerance (B.map readBack))
    (hcontent : A.map content = B.map content) (k : ℕ) :
    ∃ A', Holding ((syncExchange m)^[k] s).1 A' ∧ A'.map content = B.map content := by
  induction k generalizing s A with
  | zero => exact ⟨A, h, hcontent⟩
  | succ k ih =>
    obtain ⟨hconfig, A₁, h₁, hcontent₁⟩ := h.takeResponses_same hsha hm.stored.chain_ok hB hcontent
      fun resp (hresp : resp ∈ answersTo m s.2) => hm.partOf hresp
    rw [Function.iterate_succ_apply]
    refine ih (s := syncExchange m s) h₁ ?_ hcontent₁
    show ValidChain (takeResponses s.1 (answersTo m s.2)).1.config.flopsTolerance _
    rwa [hconfig]

end Heal

/-! ## The first request -/

/-- The rate limit lets a request through at a time, the last one being at another. -/
def LetsThrough (n : Node) (time last : Float) : Prop :=
  ¬ (0.0 < n.syncIntervalSeconds ∧ time - last < n.syncIntervalSeconds)

omit [Crates] in
/-- A request that the rate limit lets through is sent. -/
theorem requestSync_of_letsThrough (h : LetsThrough n n.now n.lastSyncRequest) (fromHeight : ℤ) :
    n.requestSync fromHeight =
      { n with
        reads := n.reads + 1
        lastSyncRequest := n.now
        outgoing := n.outgoing ++
          [(Topics.sync, .syncRequest ⟨n.nodeId, Int64.ofInt fromHeight⟩)] } :=
  if_neg h

/-- The heartbeat of a peer that is ahead makes the node ask for the blocks above its head. -/
theorem step_heartbeat {hb : Heartbeat} {head : Checkpoint} (hidle : Idle n)
    (hpeer : hb.nodeId ≠ n.nodeId) (hhead : n.store.head = some head)
    (hahead : head.height < hb.height.toInt)
    (hlimit : LetsThrough n (n.ambient.now (n.reads + 1)) n.lastSyncRequest) :
    n.step (.receive Topics.heartbeats (.heartbeat hb)) =
      ({ n with
        peers := n.peers.insert hb.nodeId hb
        peerSeen := n.peerSeen.insert hb.nodeId n.now
        reads := n.reads + 2
        lastSyncRequest := n.ambient.now (n.reads + 1) },
      [(Topics.sync, .syncRequest ⟨n.nodeId, Int64.ofInt head.height⟩)], []) := by
  show (n.onHeartbeat hb).drain = _
  unfold Node.onHeartbeat
  rw [if_neg hpeer]
  dsimp only [Node.tickClock]
  rw [hhead]
  dsimp only
  rw [if_pos hahead, requestSync_of_letsThrough hlimit]
  unfold Node.drain
  dsimp only
  rw [hidle.outgoing, hidle.calls]
  rfl

/-! ## The missing blocks in order -/

section InOrder

variable [SerdeReadsBack] {V : List Checkpoint} {k : ℕ}

/-- The node has stored the first `k` blocks of a valid chain, nothing waits, and it has
refused none of the others. -/
structure Trailing (V : List Checkpoint) (n : Node) (k : ℕ) : Prop where
  stored : Refines n.store (V.take k)
  le_length : k ≤ V.length
  valid : ValidChain n.config.flopsTolerance V
  committed : n.committedClaimIds = n.store.allCommittedClaimIds
  queue : n.pendingCommits = ∅
  rejects : ∀ b ∈ V.drop k, b.blockHash ∉ n.recentCommitRejects

omit [SerdeReadsBack] in
/-- A node that trails is behind, with nothing met so far. -/
theorem Trailing.behind (h : Trailing V n k) : Behind V k [] n k where
  stored := h.stored
  first_le := le_rfl
  le_length := h.le_length
  valid := h.valid.follows
  committed := h.committed
  queued x c hc := by simp [h.queue] at hc
  waiting := by simp
  rejects := h.rejects

/-- The block that comes next is stored, and nothing waits after it. -/
theorem Trailing.onCommit (h : Trailing V n k) (hk : k < V.length) :
    Trailing V (n.onCommit V[k]) (k + 1) := by
  have hb := h.behind
  have hunseen : n.commitRejectSeen V[k].blockHash = false := by
    have hmem : V[k] ∈ V.drop k := List.mem_drop_iff_getElem.mpr ⟨0, by omega, rfl⟩
    simpa [Node.commitRejectSeen] using h.rejects _ hmem
  have hval := (hb.follows hk).validateCheckpoint_ok h.stored n.quorumSize
    (some n.committedClaimIds) (hb.ids_fresh hk)
  have hseen : n.committedClaimIds ∪ V[k].proposal.claimIds.toFinset ∪
      V[k].proposal.claimIds.toFinset =
        n.committedClaimIds ∪ V[k].proposal.claimIds.toFinset := by simp
  obtain ⟨hnext, hqueue⟩ := hb.commitLocal hk hseen
  have hcommit : n.onCommit V[k] = (({ n with
      committedClaimIds := n.committedClaimIds ∪ V[k].proposal.claimIds.toFinset } :
        Node).commitLocal V[k]) := by
    rw [hb.onCommit_next hk]
    unfold Node.acceptCommit
    rw [hunseen, if_neg (by simp), hval]
    exact flushPendingCommits_of_empty (hqueue.trans h.queue)
  rw [hcommit]
  exact {
    stored := hnext.stored
    le_length := hnext.le_length
    valid := ⟨hnext.valid, h.valid.genesis⟩
    committed := hnext.committed
    queue := hqueue.trans h.queue
    rejects := by
      intro b hb
      refine hnext.rejects b ?_
      rw [← List.drop_drop] at hb
      exact List.mem_of_mem_drop hb }

/-- The missing blocks, received one after the other, are all appended. -/
theorem Trailing.foldl_onCommit (h : Trailing V n k) :
    Trailing V ((V.drop k).foldl Node.onCommit n) V.length := by
  induction hmissing : V.length - k generalizing n k with
  | zero =>
    obtain rfl : k = V.length := by have := h.le_length; omega
    rw [List.drop_length]
    exact h
  | succ missing ih =>
    have hk : k < V.length := by omega
    rw [List.drop_eq_getElem_cons hk, List.foldl_cons]
    exact ih (h.onCommit hk) (by omega)

end InOrder

/-! ## A fork -/

section Fork

/-- A block one above the head that names another parent makes the node ask for everything. -/
theorem onCommit_unlinked {c head : Checkpoint} (hhead : n.store.head = some head)
    (hheight : c.height = head.height + 1) (hprev : c.proposal.prevHash ≠ head.blockHash) :
    n.onCommit c = n.requestSync (-1) := by
  unfold Node.onCommit
  rw [hhead]
  dsimp only
  rw [if_neg (by omega), if_neg (by omega), if_pos ⟨hheight, hprev⟩]

/-- Blocks further above the head leave the chain alone. -/
theorem foldl_onCommit_above {head : Checkpoint} (hhead : n.store.head = some head)
    {blocks : List Checkpoint} (habove : ∀ b ∈ blocks, head.height + 1 < b.height) :
    ∃ more, (blocks.foldl Node.onCommit n).outgoing = n.outgoing ++ more ∧
      (blocks.foldl Node.onCommit n).store = n.store ∧
      (blocks.foldl Node.onCommit n).config = n.config := by
  induction blocks generalizing n with
  | nil => exact ⟨[], by simp, rfl, rfl⟩
  | cons b rest ih =>
    have hgap := habove b List.mem_cons_self
    have hcommit : n.onCommit b = (n.insertPendingCommit b).requestSync head.height := by
      unfold Node.onCommit
      rw [hhead]
      dsimp only
      rw [if_neg (by omega), if_pos hgap]
    have hquiet := quiet_requestSync (n.insertPendingCommit b) head.height
    obtain ⟨first, hfirst, -⟩ := hquiet.sends
    have hstore : (n.onCommit b).store = n.store := by
      rw [hcommit]
      exact congrArg Core.store hquiet.core_eq
    have hconfig : (n.onCommit b).config = n.config := by
      rw [hcommit]
      exact congrArg Core.config hquiet.core_eq
    obtain ⟨more, hmore, hstore', hconfig'⟩ :=
      ih (by rw [hstore, hhead]) fun d hd => habove d (List.mem_cons_of_mem _ hd)
    rw [List.foldl_cons]
    refine ⟨first ++ more, ?_, hstore'.trans hstore, hconfig'.trans hconfig⟩
    rw [hmore, hcommit, hfirst, List.append_assoc]
    rfl

end Fork

/-! ## Healing -/

section Main

/-- The heights of a chain fit an `i64`. -/
theorem Refines.length_le (h : Refines st B) : (B.length : ℤ) ≤ 2 ^ 63 := by
  rcases List.eq_nil_or_concat' B with rfl | ⟨l, c, rfl⟩
  · simp
  · have hheight : c.height = l.length := (Log.snoc_iff.mp h.chain_ok).2.height_eq
    have hlt := c.proposal.height.toInt_lt
    have : c.height = c.proposal.height.toInt := rfl
    simp only [List.length_append, List.length_singleton, Nat.cast_add, Nat.cast_one]
    omega

variable [SerdeReadsBack]

/-- The answer to a request above a height of the node. -/
theorem Answering.answersTo_above (hm : Answering m B) {id : String} (hid : id ≠ m.nodeId) {k : ℕ}
    (hk : k < B.length) (more : List (String × Message)) :
    answersTo m ((Topics.sync, .syncRequest ⟨id, Int64.ofInt ((k : ℤ) - 1)⟩) :: more) =
      ⟨m.nodeId, (B.drop k).map readBack⟩ :: answersTo m more := by
  have hlength := Refines.length_le hm.stored
  have hfrom : (Int64.ofInt ((k : ℤ) - 1) + 1).toInt = k := by
    have hone : (1 : Int64).toInt = 1 := rfl
    have hread : (Int64.ofInt ((k : ℤ) - 1)).toInt = (k : ℤ) - 1 := by
      rw [Int64.toInt_ofInt]
      exact Int.bmod_eq_of_le (by simp [Int64.size]; omega) (by simp [Int64.size]; omega)
    rw [Int64.toInt_add, hread, hone]
    exact (Int.bmod_eq_of_le (by omega) (by omega)).trans (by omega)
  have hne : (B.drop k).map readBack ≠ [] := by
    simpa using hk
  have hanswer : syncResponses (m.step (.syncRequest ⟨id, Int64.ofInt ((k : ℤ) - 1)⟩)).2.1 =
      [⟨m.nodeId, (B.drop k).map readBack⟩] := by
    rw [syncResponses_of_request hm.stored hm.idle hid]
    dsimp only
    rw [hfrom, Int.toNat_natCast, if_neg hne]
  show syncResponses (m.step (.syncRequest ⟨id, Int64.ofInt ((k : ℤ) - 1)⟩)).2.1 ++ answersTo m more = _
  rw [hanswer]
  rfl

/-- The node `n` has a shorter chain than its peer `m`, both chains are valid to it, and it
waits for nothing. -/
structure Lags (n m : Node) (A B : List Checkpoint) : Prop where
  ids_ne : n.nodeId ≠ m.nodeId
  idle : Idle n
  peer : Answering m B
  stored : Refines n.store A
  valid : ValidChain n.config.flopsTolerance A
  peer_valid : ValidChain n.config.flopsTolerance (B.map readBack)
  shorter : A.length < B.length
  committed : n.committedClaimIds = n.store.allCommittedClaimIds
  queue : n.pendingCommits = ∅
  rejects : ∀ b ∈ B.drop A.length, b.blockHash ∉ n.recentCommitRejects

namespace Lags

/-- The head of the node is the last block of its chain. -/
theorem head_eq (h : Lags n m A B) : ∃ head, n.store.head = some head ∧
    head.height = (A.length : ℤ) - 1 ∧ head.blockHash = headHash A := by
  rcases List.eq_nil_or_concat' A with rfl | ⟨l, c, rfl⟩
  · exact absurd rfl (ValidChain.ne_nil h.valid)
  · refine ⟨readBack c, by rw [h.stored.head, List.getLast?_concat, Option.map_some], ?_, ?_⟩
    · rw [readBack_height, (Log.snoc_iff.mp h.stored.chain_ok).2.height_eq]
      simp
    · rw [readBack_blockHash, headHash_concat]

/-- The chain of the node with the missing blocks of the peer. -/
def completed (A B : List Checkpoint) : List Checkpoint := A ++ (B.drop A.length).map readBack

omit [Crates] [SerdeReadsBack] in
/-- The completed chain has the contents of the peer's. -/
theorem completed_content (hcontent : A.map content = (B.take A.length).map content) :
    (completed A B).map content = B.map content := by
  rw [completed, List.map_append, map_content_readBack, hcontent, ← List.map_append,
    List.take_append_drop]

omit [SerdeReadsBack] in
/-- If the node has a first part of the peer's chain, the completed chain is valid. -/
theorem completed_valid (h : Lags n m A B)
    (hcontent : A.map content = (B.take A.length).map content) :
    ValidChain n.config.flopsTolerance (completed A B) := by
  have hsplit : Log (Follows n.config.flopsTolerance)
      ((B.take A.length).map readBack ++ (B.drop A.length).map readBack) := by
    rw [← List.map_append, List.take_append_drop]
    exact h.peer_valid.follows
  have hlater := LogFrom.follows_congr (m := A) (by rw [map_content_readBack, hcontent])
    (Log.append_iff.mp hsplit).2
  refine ⟨Log.append_iff.mpr ⟨h.valid.follows, hlater⟩, ?_⟩
  rw [completed, List.head?_append_of_ne_nil _ (ValidChain.ne_nil h.valid)]
  exact h.valid.genesis

/-- The blocks that the node asks for first. -/
def missing (m : Node) (A B : List Checkpoint) : SyncResponse :=
  ⟨m.nodeId, (B.drop A.length).map readBack⟩

omit [SerdeReadsBack] in
/-- The missing blocks do not start at genesis, so they are taken one by one. -/
theorem onSyncResponse_missing (h : Lags n m A B) (n' : Node) :
    n'.onSyncResponse (missing m A B) = (missing m A B).blocks.foldl Node.onCommit n' := by
  have hpos : A.length ≠ 0 := by simpa using ValidChain.ne_nil h.valid
  unfold Node.onSyncResponse
  rw [missing, any_height_zero h.peer.stored.chain_ok A.length h.shorter, if_neg (by simpa using hpos)]

/-- The missing blocks complete a first part of the peer's chain. -/
theorem completes (h : Lags n m A B) (hcontent : A.map content = (B.take A.length).map content) :
    Holding (n.step (.syncResponse (missing m A B))).1 (completed A B) := by
  have htrailing : Trailing (completed A B) n A.length := by
    refine ⟨?_, by simp [completed], h.completed_valid hcontent, h.committed, h.queue, ?_⟩
    · rw [completed, List.take_left]
      exact h.stored
    · rw [completed, List.drop_left]
      intro b hb
      obtain ⟨c, hc, rfl⟩ := List.mem_map.mp hb
      rw [readBack_blockHash]
      exact h.rejects c hc
  have hdone := htrailing.foldl_onCommit
  rw [completed, List.drop_left, ← completed] at hdone
  have hresponse : n.onSyncResponse (missing m A B) =
      ((B.drop A.length).map readBack).foldl Node.onCommit n := h.onSyncResponse_missing n
  have hstored := hdone.stored
  rw [List.take_length, ← hresponse] at hstored
  have hvalid := hdone.valid
  rw [← hresponse] at hvalid
  exact ⟨hstored, hvalid⟩

/-- The node after it took the blocks that it misses, and what it sent meanwhile. -/
def taken (n m : Node) (A B : List Checkpoint) : Node × List (String × Message) :=
  ((n.step (.syncResponse (missing m A B))).1, (n.step (.syncResponse (missing m A B))).2.1)

/-- On a fork, the missing blocks make the node ask for the whole chain. -/
theorem asksForAll (h : Lags n m A B) (hfork : headHash A ≠ headHash (B.take A.length))
    (hlimit : LetsThrough n n.now n.lastSyncRequest) :
    ∃ more, (n.step (.syncResponse (missing m A B))).2.1 =
        (Topics.sync, .syncRequest ⟨n.nodeId, Int64.ofInt (-1)⟩) :: more ∧
      Holding (n.step (.syncResponse (missing m A B))).1 A := by
  obtain ⟨head, hhead, hheight, hhash⟩ := h.head_eq
  have hlt := h.shorter
  have hblock (i : ℕ) (hi : i < B.length) : (readBack B[i]).height = i := by
    rw [readBack_height, LedgerChain.getElem_height h.peer.stored.chain_ok hi]
  have hblocks : (missing m A B).blocks =
      readBack B[A.length] :: (B.drop (A.length + 1)).map readBack := by
    rw [missing, List.drop_eq_getElem_cons h.shorter, List.map_cons]
  -- the first block names another parent
  have hprev : (readBack B[A.length]).proposal.prevHash ≠ head.blockHash := by
    have hlink := (Log.ok_getElem h.peer.stored.chain_ok h.shorter).prevHash_eq
    rw [readBack_proposal, hlink, hhash]
    exact hfork.symm
  have hfirst : n.onCommit (readBack B[A.length]) = n.requestSync (-1) := by
    apply onCommit_unlinked hhead _ hprev
    rw [hblock A.length h.shorter, hheight]
    omega
  rw [requestSync_of_letsThrough hlimit] at hfirst
  generalize hn₁ : n.onCommit (readBack B[A.length]) = n₁ at hfirst
  -- the others are too far above the head
  have hhead₁ : n₁.store.head = some head := by
    rw [hfirst]
    exact hhead
  have habove : ∀ b ∈ (B.drop (A.length + 1)).map readBack, head.height + 1 < b.height := by
    intro b hb
    obtain ⟨c, hc, rfl⟩ := List.mem_map.mp hb
    obtain ⟨i, hi, rfl⟩ := List.mem_drop_iff_getElem.mp hc
    rw [hblock _ (by omega), hheight]
    omega
  obtain ⟨more, hmore, hstore, hconfig⟩ := foldl_onCommit_above hhead₁ habove
  have hresponse : n.onSyncResponse (missing m A B) =
      ((B.drop (A.length + 1)).map readBack).foldl Node.onCommit n₁ := by
    rw [h.onSyncResponse_missing, hblocks, List.foldl_cons, hn₁]
  rw [← hresponse] at hmore hstore hconfig
  refine ⟨more, ?_, ?_⟩
  · show (n.onSyncResponse (missing m A B)).outgoing = _
    rw [hmore, hfirst]
    dsimp only
    rw [h.idle.outgoing]
    rfl
  · have hstored : Refines (n.onSyncResponse (missing m A B)).store A := by
      rw [hstore, hfirst]
      exact h.stored
    have hvalid : ValidChain (n.onSyncResponse (missing m A B)).config.flopsTolerance A := by
      rw [hconfig, hfirst]
      exact h.valid
    exact ⟨hstored, hvalid⟩

end Lags

variable [RyuReadsBack]

/-- The answer to a request for the whole chain makes the node switch, whatever else it asked
for with it. -/
theorem Lags.adopts (hsha : Sha256CollisionFree) (h : Lags n m A B) {n₂ : Node} (hhold : Holding n₂ A)
    (hconfig : n₂.config = n.config) (more : List (String × Message)) :
    (syncExchange m (n₂, (Topics.sync, .syncRequest ⟨n.nodeId, Int64.ofInt (-1)⟩) :: more)).1.config =
        n.config ∧
      ∃ A', Holding
        (syncExchange m (n₂, (Topics.sync, .syncRequest ⟨n.nodeId, Int64.ofInt (-1)⟩) :: more)).1 A' ∧
        A'.map content = B.map content := by
  have hpos : 0 < B.length := (Nat.zero_le _).trans_lt h.shorter
  have hanswers := h.peer.answersTo_above h.ids_ne hpos more
  rw [List.drop_zero, show ((0 : ℕ) : ℤ) - 1 = -1 by norm_num] at hanswers
  have hvalid : ValidChain n₂.config.flopsTolerance (B.map readBack) := by
    rw [hconfig]
    exact h.peer_valid
  have hwhole : (⟨m.nodeId, B.map readBack⟩ : SyncResponse).blocks = B.map readBack := rfl
  obtain ⟨A₁, hhold₁, hcase⟩ := hhold.whole hsha hvalid hwhole
  have hcontent : A₁.map content = B.map content := by
    rcases hcase with ⟨-, hadopted⟩ | ⟨hnot, -⟩
    · exact hadopted
    · exact absurd (.inl (by simpa using h.shorter)) hnot
  have hconfig₁ := Holding.config_step n₂ ⟨m.nodeId, B.map readBack⟩
  obtain ⟨hconfig', hlater⟩ := hhold₁.takeResponses_same hsha h.peer.stored.chain_ok
    (by rwa [hconfig₁]) hcontent fun resp (hresp : resp ∈ answersTo m more) => h.peer.partOf hresp
  rw [syncExchange, hanswers]
  exact ⟨hconfig'.trans (hconfig₁.trans hconfig), hlater⟩

/-- A first part of the peer's chain is completed by the first answer, and stays complete. -/
theorem Lags.catches_up (hsha : Sha256CollisionFree) (h : Lags n m A B)
    (hsame : headHash A = headHash (B.take A.length)) (rest : ℕ) :
    ∃ A', Refines ((syncExchange m)^[rest] (Lags.taken n m A B)).1.store A' ∧
      A'.map content = B.map content := by
  have hlength : A.length = (B.take A.length).length := by
    rw [List.length_take, min_eq_left h.shorter.le]
  have hcontent : A.map content = (B.take A.length).map content :=
    content_eq_of_headHash_eq hsha (LedgerChain.linked h.stored.chain_ok)
      (Log.take (LedgerChain.linked h.peer.stored.chain_ok) _) ⟨hlength, hsame⟩
  have hvalid : ValidChain (Lags.taken n m A B).1.config.flopsTolerance (B.map readBack) := by
    rw [Lags.taken, Holding.config_step]
    exact h.peer_valid
  have hhold : Holding (Lags.taken n m A B).1 (Lags.completed A B) := h.completes hcontent
  obtain ⟨A', hlater, hA'⟩ :=
    hhold.exchanges_same hsha h.peer hvalid (Lags.completed_content hcontent) rest
  exact ⟨A', hlater.stored, hA'⟩

/-- A fork is left for the peer's chain by the second answer, for good. -/
theorem Lags.switches (hsha : Sha256CollisionFree) (h : Lags n m A B)
    (hfork : headHash A ≠ headHash (B.take A.length))
    (hlimit : LetsThrough n n.now n.lastSyncRequest) (rest : ℕ) :
    ∃ A', Refines ((syncExchange m)^[rest + 1] (Lags.taken n m A B)).1.store A' ∧
      A'.map content = B.map content := by
  obtain ⟨more, hout, hhold⟩ := h.asksForAll hfork hlimit
  obtain ⟨hconfig, A₁, hhold₁, hA₁⟩ :=
    h.adopts hsha hhold (Holding.config_step n (Lags.missing m A B)) more
  have hvalid := h.peer_valid
  rw [← hconfig] at hvalid
  obtain ⟨A', hlater, hA'⟩ := hhold₁.exchanges_same hsha h.peer hvalid hA₁ rest
  rw [Function.iterate_succ_apply, Lags.taken, hout]
  exact ⟨A', hlater.stored, hA'⟩

/-- A node that hears the heartbeat of a peer with a longer valid chain holds the peer's blocks
after two exchanges, and keeps them: at once if its chain is a first part of the peer's, and
by a second request, for the whole chain, if it is on a fork. -/
theorem heartbeat_heals (hsha : Sha256CollisionFree) (h : Lags n m A B) {head : Checkpoint}
    (hhead : m.store.head = some head)
    (hfirst : LetsThrough n (n.ambient.now (n.reads + 1)) n.lastSyncRequest)
    (hsecond : headHash A ≠ headHash (B.take A.length) →
      LetsThrough n (n.ambient.now (n.reads + 2)) (n.ambient.now (n.reads + 1)))
    {exchanges : ℕ} (htwo : 2 ≤ exchanges) :
    ∃ A', Refines (heal n m Topics.heartbeats (.heartbeat (m.ownHeartbeat head)) exchanges).1.store
        A' ∧ A'.map content = B.map content := by
  obtain ⟨own, hown, hheight, -⟩ := h.head_eq
  have hahead : own.height < (m.ownHeartbeat head).height.toInt := by
    have hlast := h.peer.stored.head_height
    rw [hhead, Option.map_some, Option.getD_some] at hlast
    show own.height < head.height
    have := h.shorter
    omega
  have hstep := step_heartbeat h.idle h.ids_ne.symm hown hahead hfirst
  obtain ⟨rest, rfl⟩ := Nat.exists_eq_add_of_le htwo
  unfold heal
  rw [hstep]
  dsimp only
  generalize hn₁ : ({ n with
    peers := n.peers.insert (m.ownHeartbeat head).nodeId (m.ownHeartbeat head)
    peerSeen := n.peerSeen.insert (m.ownHeartbeat head).nodeId n.now
    reads := n.reads + 2
    lastSyncRequest := n.ambient.now (n.reads + 1) } : Node) = n₁
  have hlags : Lags n₁ m A B := by
    subst hn₁
    exact ⟨h.ids_ne, ⟨h.idle.outgoing, h.idle.calls⟩, h.peer, h.stored, h.valid, h.peer_valid,
      h.shorter, h.committed, h.queue, h.rejects⟩
  have hexchange : syncExchange m (n₁, [(Topics.sync,
      .syncRequest ⟨n.nodeId, Int64.ofInt own.height⟩)]) = Lags.taken n₁ m A B := by
    rw [syncExchange, hheight, h.peer.answersTo_above h.ids_ne h.shorter, Lags.taken,
      ← List.append_nil (n₁.step (.syncResponse (Lags.missing m A B))).2.1]
    rfl
  rw [Nat.add_comm 2 rest, Function.iterate_succ_apply, hexchange]
  by_cases hsame : headHash A = headHash (B.take A.length)
  · exact hlags.catches_up hsha hsame (rest + 1)
  · apply hlags.switches hsha hsame
    subst hn₁
    exact hsecond hsame

end Main

end Exodus.Analysis

namespace Exodus.Analysis

open Exodus.Library Exodus.Model Exodus.Interface Exodus.Sample

/-- A peer that has taken the first and the second block. -/
noncomputable def ahead : Node :=
  ((after firstBlock .b "t2").step (.receive Topics.commits (.commitMessage secondBlock))).1

/-- Its chain has both of them on genesis. -/
theorem ahead_refines : Refines ahead.store [genesisCheckpoint, firstBlock, secondBlock] := by
  obtain ⟨hstored, hconfig⟩ := after_spec first_follows .b "t2"
  obtain ⟨hcommitted, hqueue, hrejects⟩ := after_sets first_follows .b "t2"
  have hfollows : Follows (after firstBlock .b "t2").config.flopsTolerance
      [genesisCheckpoint, firstBlock] secondBlock := by
    rw [hconfig]
    exact second_follows
  have hnew : ∀ id ∈ secondBlock.proposal.claimIds,
      id ∉ (after firstBlock .b "t2").committedClaimIds := by
    rw [hcommitted]
    decide
  obtain ⟨st, href, heq⟩ := onCommit_of_follows hstored hfollows hqueue hnew (by simp [hrejects])
  have hstore : ahead.store = st :=
    (congrArg (fun m : Node => m.drain.1.store) heq).trans (store_announceCommit _ _)
  exact hstore ▸ href

/-- A node on the rival block is behind that peer, on a fork. -/
theorem forked_lags : Lags (after rivalBlock .a "t1") ahead [genesisCheckpoint, rivalBlock]
    [genesisCheckpoint, firstBlock, secondBlock] where
  ids_ne := by
    have hown : (after rivalBlock .a "t1").nodeId = Signer.a.nodeId :=
      congrArg Prod.fst (identity_step (fresh_reachable .a "t1")
        (.receive Topics.commits (.commitMessage rivalBlock)))
    have hpeer : ahead.nodeId = Signer.b.nodeId :=
      (congrArg Prod.fst (identity_step (after_reachable firstBlock .b "t2")
        (.receive Topics.commits (.commitMessage secondBlock)))).trans
        (congrArg Prod.fst (identity_step (fresh_reachable .b "t2")
          (.receive Topics.commits (.commitMessage firstBlock))))
    rw [hown, hpeer]
    decide
  idle := (reachable_idle (after_reachable rivalBlock .a "t1")).2
  peer := ⟨ahead_refines, (reachable_idle (.step (after_reachable firstBlock .b "t2") _)).2⟩
  stored := (after_spec rival_follows .a "t1").1
  valid := by
    rw [(after_spec rival_follows .a "t1").2]
    exact validChain_of_follows rival_follows
  peer_valid := by
    rw [(after_spec rival_follows .a "t1").2]
    exact validChain_second
  shorter := by decide
  committed := by
    rw [(after_sets rival_follows .a "t1").1, ChainStore.allCommittedClaimIds,
      (after_spec rival_follows .a "t1").1.claimIds]
    rfl
  queue := (after_sets rival_follows .a "t1").2.1
  rejects := by simp [(after_sets rival_follows .a "t1").2.2]

/-- The node hears the heartbeat of the peer, asks for the block above its own, finds that it
does not fit, asks for the whole chain and leaves its block for the two of the peer. -/
theorem fork_heals :
    headHash [genesisCheckpoint, rivalBlock] ≠ headHash [genesisCheckpoint, firstBlock] ∧
    ∃ A', Refines (heal (after rivalBlock .a "t1") ahead Topics.heartbeats
        (.heartbeat (ahead.ownHeartbeat (readBack secondBlock))) 2).1.store A' ∧
      A'.map content = [genesisCheckpoint, firstBlock, secondBlock].map content := by
  obtain ⟨hambient, hreads, hlast, hinterval⟩ := after_clock rival_follows .a "t1"
  refine ⟨?_, heartbeat_heals sha256_injective forked_lags ahead_refines.head ?_ ?_ le_rfl⟩
  · have hrival : headHash [genesisCheckpoint, rivalBlock] = rivalBlock.blockHash :=
      headHash_concat [genesisCheckpoint] rivalBlock
    rw [hrival, headHash_first, rival_blockHash]
    decide
  · rw [LetsThrough, hambient, hreads, hlast, hinterval]
    show ¬ ((0.0 : Float) < 5.0 ∧ (120.0 : Float) - 0.0 < 5.0)
    decide +kernel
  · intro _
    rw [LetsThrough, hambient, hreads, hinterval]
    show ¬ ((0.0 : Float) < 5.0 ∧ (140.0 : Float) - 120.0 < 5.0)
    decide +kernel

end Exodus.Analysis
