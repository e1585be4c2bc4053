import Exodus.Interface.Invariant
import Exodus.Interface.SampleChain

/-!
# Answers to sync requests

`on_sync_request` answers a peer with the stored blocks above the height it names.  The
height comes from the network and the range starts at its successor, which does not exist
for the largest `i64`: there the sum overflows, and wraps to the smallest one in a release
build.  For every other height the answer is exact.
-/

set_option autoImplicit false

namespace Exodus.Analysis

open Exodus.Library Exodus.Model Exodus.Interface

variable [Crates] {n : Node} {st : ChainStore} {chain : List Checkpoint}

/-! ## What a request asks for -/

/-- The messages answer a request for the blocks above the height: one response with exactly
those blocks in ascending order, or nothing if there is none. -/
structure Answered (n : Node) (fromHeight : ℤ) (sent : List (String × Message)) : Prop where
  nothing : (∀ h, fromHeight < h → n.store.getBlock h = none) → sent = []
  exactly : (∃ h b, fromHeight < h ∧ n.store.getBlock h = some b) →
    ∃ blocks, sent = [(Topics.sync, .syncResponse { nodeId := n.nodeId, blocks })] ∧
      (blocks.map Checkpoint.height).Pairwise (· < ·) ∧
      ∀ b, b ∈ blocks ↔ ∃ h, fromHeight < h ∧ n.store.getBlock h = some b

/-- The range of the answer starts at the successor of the height. -/
def StartsAbove (req : SyncRequest) : Prop :=
  (req.fromHeight + 1).toInt = req.fromHeight.toInt + 1

omit [Crates] in
/-- Only at `i64::MAX` the next height wraps around. -/
theorem startsAbove_iff (req : SyncRequest) :
    StartsAbove req ↔ req.fromHeight ≠ Int64.maxValue := by
  have hmax : Int64.maxValue.toInt = 2 ^ 63 - 1 := rfl
  have hone : (1 : Int64).toInt = 1 := rfl
  have hlo := req.fromHeight.le_toInt
  have hhi := req.fromHeight.toInt_lt
  have hsum : (req.fromHeight + 1).toInt = (req.fromHeight.toInt + 1).bmod (2 ^ 64) := by
    rw [Int64.toInt_add, hone]
  rw [StartsAbove, hsum, ne_eq, ← Int64.toInt_inj, hmax]
  constructor
  · intro hexact hlast
    rw [hlast] at hexact
    exact absurd hexact (by decide)
  · intro hne
    exact Int.bmod_eq_of_le (by omega) (by omega)

/-! ## The range of the answer -/

/-- The heights `first..=head`. -/
def answerHeights (st : ChainStore) (first : ℤ) : List ℤ :=
  (List.range (st.height + 1 - first).toNat).map fun i => first + Int.ofNat i

/-- The blocks that `on_sync_request` collects. -/
def answer (st : ChainStore) (first : ℤ) : List Checkpoint :=
  (answerHeights st first).filterMap st.getBlock

omit [Crates] in
/-- The heights of an answer are those from the first one to the head. -/
theorem mem_answerHeights {first h : ℤ} :
    h ∈ answerHeights st first ↔ first ≤ h ∧ h ≤ st.height := by
  simp only [answerHeights, List.mem_map, List.mem_range, Int.ofNat_eq_natCast]
  constructor
  · rintro ⟨i, hi, rfl⟩
    omega
  · rintro ⟨hlo, hhi⟩
    exact ⟨(h - first).toNat, by omega, by omega⟩

omit [Crates] in
/-- They ascend. -/
theorem answerHeights_ascending (first : ℤ) : (answerHeights st first).Pairwise (· < ·) := by
  rw [answerHeights, List.pairwise_map]
  apply List.pairwise_lt_range.imp
  intro i j hij
  simp only [Int.ofNat_eq_natCast]
  omega

variable [SerdeReadsBack]

/-- The answer has the stored blocks from the first height on. -/
theorem Refines.mem_answer_iff (h : Refines st chain) {first : ℤ} {b : Checkpoint} :
    b ∈ answer st first ↔ ∃ k, first ≤ k ∧ st.getBlock k = some b := by
  rw [answer, List.mem_filterMap]
  constructor
  · rintro ⟨k, hk, hb⟩
    exact ⟨k, (mem_answerHeights.mp hk).1, hb⟩
  · rintro ⟨k, hk, hb⟩
    refine ⟨k, mem_answerHeights.mpr ⟨hk, ?_⟩, hb⟩
    -- a height with a block is not above the head
    rw [h.getBlock] at hb
    obtain ⟨c, hc, -⟩ := Option.map_eq_some_iff.mp hb
    obtain ⟨i, hi, rfl, -⟩ := blockAt_eq_some hc
    rw [h.height]
    omega

/-- They ascend. -/
theorem Refines.answer_ascending (h : Refines st chain) (first : ℤ) :
    ((answer st first).map Checkpoint.height).Pairwise (· < ·) := by
  rw [List.pairwise_map, answer, List.pairwise_filterMap]
  apply (answerHeights_ascending first).imp
  intro k l hkl b hb c hc
  rw [h.height_of_getBlock hb, h.height_of_getBlock hc]
  exact hkl

omit [SerdeReadsBack] in
/-- What a node without undelivered messages sends on the request of a peer. -/
theorem sent_on_request (hidle : Idle n) {req : SyncRequest} (hpeer : req.nodeId ≠ n.nodeId) :
    (n.step (.syncRequest req)).2.1 =
      if (answer n.store (req.fromHeight + 1).toInt).isEmpty then []
      else [(Topics.sync, .syncResponse
        { nodeId := n.nodeId, blocks := answer n.store (req.fromHeight + 1).toInt })] := by
  have hanswer : n.onSyncRequest req =
      if req.nodeId = n.nodeId then n
      else if (answer n.store (req.fromHeight + 1).toInt).isEmpty then n
      else n.send Topics.sync (.syncResponse
        { nodeId := n.nodeId, blocks := answer n.store (req.fromHeight + 1).toInt }) := rfl
  show (n.onSyncRequest req).outgoing = _
  rw [hanswer, if_neg hpeer]
  split_ifs with hempty
  · exact hidle.outgoing
  · rw [Node.send, hidle.outgoing, List.nil_append]

/-- A request below `i64::MAX` is answered with the blocks above its height. -/
theorem answered_of_startsAbove (h : Refines n.store chain) (hidle : Idle n) {req : SyncRequest}
    (hpeer : req.nodeId ≠ n.nodeId) (hstart : StartsAbove req) :
    Answered n req.fromHeight.toInt (n.step (.syncRequest req)).2.1 := by
  rw [sent_on_request hidle hpeer, hstart]
  have hmem (b : Checkpoint) : b ∈ answer n.store (req.fromHeight.toInt + 1) ↔
      ∃ k, req.fromHeight.toInt < k ∧ n.store.getBlock k = some b :=
    Refines.mem_answer_iff h
  constructor
  · intro hnone
    rw [if_pos]
    rw [List.isEmpty_iff, List.eq_nil_iff_forall_not_mem]
    intro b hb
    obtain ⟨k, hk, hget⟩ := (hmem b).mp hb
    rw [hnone k hk] at hget
    cases hget
  · rintro ⟨k, b, hk, hget⟩
    have hb := (hmem b).mpr ⟨k, hk, hget⟩
    rw [if_neg (by rw [List.isEmpty_iff]; exact List.ne_nil_of_mem hb)]
    exact ⟨_, rfl, Refines.answer_ascending h _, hmem⟩

/-- In every reachable state the request of a peer is answered with exactly the blocks above
its height, from a range computed without overflow, unless it names the largest height. -/
theorem sync_answered_iff (hn : Node.Reachable n) (req : SyncRequest)
    (hpeer : req.nodeId ≠ n.nodeId) :
    (StartsAbove req ∧ Answered n req.fromHeight.toInt (n.step (.syncRequest req)).2.1) ↔
      req.fromHeight ≠ Int64.maxValue := by
  obtain ⟨hinv, hidle⟩ := reachable_idle hn
  obtain ⟨chain, href⟩ := hinv.chain
  rw [← startsAbove_iff]
  constructor
  · intro h
    exact h.1
  · intro hstart
    exact ⟨hstart, answered_of_startsAbove href hidle hpeer hstart⟩

end Exodus.Analysis

/-! ## On the sample -/

namespace Exodus.Analysis

open Exodus.Library Exodus.Model Exodus.Interface Exodus.Sample

/-- A new peer asks for everything. -/
theorem everything_answered :
    Answered (fresh .a "t1") (-1)
      ((fresh .a "t1").step (.syncRequest ⟨Signer.b.nodeId, -1⟩)).2.1 :=
  ((sync_answered_iff (fresh_reachable .a "t1") ⟨Signer.b.nodeId, -1⟩ (by decide)).mpr
    (by decide)).2

/-- The successor of the largest height wraps around, and the genesis block is sent. -/
theorem last_height_wraps :
    Node.Reachable (fresh .a "t1") ∧ Signer.b.nodeId ≠ (fresh .a "t1").nodeId ∧
      ¬StartsAbove ⟨Signer.b.nodeId, Int64.maxValue⟩ ∧
      ¬Answered (fresh .a "t1") Int64.maxValue.toInt
        ((fresh .a "t1").step (.syncRequest ⟨Signer.b.nodeId, Int64.maxValue⟩)).2.1 := by
  have hpeer : Signer.b.nodeId ≠ (fresh .a "t1").nodeId := by decide
  refine ⟨fresh_reachable .a "t1", hpeer, ?_, ?_⟩
  · rw [startsAbove_iff]
    exact fun hne => hne rfl
  · intro h
    have href := fresh_refines .a "t1"
    have hsent := h.nothing fun k hk => by
      rw [href.getBlock, Option.map_eq_none_iff]
      by_contra hsome
      obtain ⟨b, hb⟩ := Option.ne_none_iff_exists'.mp hsome
      obtain ⟨i, hi, rfl, -⟩ := blockAt_eq_some hb
      have hi' : i < 1 := hi
      have hmax : Int64.maxValue.toInt = 2 ^ 63 - 1 := rfl
      omega
    have hgenesis : readBack genesisCheckpoint ∈
        answer (fresh .a "t1").store (Int64.maxValue + 1).toInt := by
      rw [Refines.mem_answer_iff href]
      exact ⟨0, by decide, href.getBlock 0⟩
    rw [sent_on_request (reachable_idle (fresh_reachable .a "t1")).2 hpeer,
      if_neg (by rw [List.isEmpty_iff]; exact List.ne_nil_of_mem hgenesis)] at hsent
    cases hsent

end Exodus.Analysis
