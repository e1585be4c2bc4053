import Exodus.Interface.Canonical
import Exodus.Interface.Reorg
import Exodus.Interface.SampleChain

/-!
# Fork choice

A full-chain response replaces the local chain exactly when it carries a better one:
a longer chain, or one as long with a smaller head hash.  The hash links fix the
contents of a chain, so "better" is a total order on valid chains up to their
quorums, and a node that has processed a list of responses holds the best of the
chains it has met, in whatever order they came.
-/

set_option autoImplicit false

namespace Exodus.Analysis

open Exodus.Library Exodus.Model Exodus.Interface

variable [Crates] {A B C : List Checkpoint} {tol : Float} {n : Node} {peer : List Checkpoint}

/-! ## The order of chains -/

/-- The first chain is longer, or as long with a smaller head hash. -/
def Better (A B : List Checkpoint) : Prop :=
  B.length < A.length ∨ A.length = B.length ∧ headHash A < headHash B

/-- Neither chain is better. -/
def Tied (A B : List Checkpoint) : Prop := A.length = B.length ∧ headHash A = headHash B

/-- Chains none of which is better are tied. -/
theorem tied_of_not_better (h : ¬ Better A B) (h' : ¬ Better B A) : Tied A B := by
  simp only [Better, not_or, not_and, not_lt] at h h'
  have hlen : A.length = B.length := by omega
  exact ⟨hlen, le_antisymm (h'.2 hlen.symm) (h.2 hlen)⟩

/-- No chain is better than itself. -/
theorem not_better_self (A : List Checkpoint) : ¬ Better A A := by
  simp [Better]

/-- Not being better is passed on. -/
theorem not_better_trans (h : ¬ Better A B) (h' : ¬ Better B C) : ¬ Better A C := by
  simp only [Better, not_or, not_and, not_lt] at h h' ⊢
  refine ⟨h.1.trans h'.1, fun hlen => ?_⟩
  have hAB : A.length = B.length := by omega
  exact (h'.2 (by omega)).trans (h.2 hAB)

/-- Of two chains at most one is better. -/
theorem Better.asymm (h : Better A B) : ¬ Better B A := by
  rcases h with h | ⟨h, hhash⟩
  · rintro (h' | ⟨h', -⟩) <;> omega
  · rintro (h' | ⟨-, hhash'⟩)
    · omega
    · exact lt_asymm hhash hhash'

/-- The order sees the block hashes only. -/
theorem better_congr {A' B' : List Checkpoint}
    (hA : A.map Checkpoint.blockHash = A'.map Checkpoint.blockHash)
    (hB : B.map Checkpoint.blockHash = B'.map Checkpoint.blockHash) :
    Better A B ↔ Better A' B' := by
  have hlen {l m : List Checkpoint} (h : l.map Checkpoint.blockHash = m.map Checkpoint.blockHash) :
      l.length = m.length := by simpa using congrArg List.length h
  have hhead {l m : List Checkpoint} (h : l.map Checkpoint.blockHash = m.map Checkpoint.blockHash) :
      headHash l = headHash m := by
    have hlast := congrArg List.getLast? h
    rw [List.getLast?_map, List.getLast?_map] at hlast
    rw [headHash, headHash, tipHash, tipHash, hlast]
  rw [Better, Better, hlen hA, hlen hB, hhead hA, hhead hB]

/-- Two chains as long as each other with the same head hash have the same contents. -/
theorem content_eq_of_headHash_eq [RyuReadsBack] (hsha : Sha256CollisionFree)
    (hA : LinkedChain A) (hB : LinkedChain B) (h : Tied A B) :
    A.map content = B.map content := by
  have hlinks {l : List Checkpoint} (hl : LinkedChain l) :
      Log (LinksTo Checkpoint.blockHash (fun c => c.proposal.prevHash) genesisPrevHash) l :=
    hl.imp fun _ _ _ hext => hext.prevHash_eq
  refine map_eq_of_tipHash_eq content ?_ (hlinks hA) (hlinks hB) h.1 h.2 ?_
  · intro a b hab
    obtain ⟨hp, hs⟩ := blockHash_injective hsha hab
    exact Prod.ext hp hs
  · intro e _ hcontent
    exact congrArg (fun x => x.1.prevHash) hcontent

/-! ## One response -/

/-- The heights of a linked chain grow. -/
theorem pairwise_height (hB : LinkedChain B) : B.Pairwise fun a b => a.height < b.height := by
  rw [List.pairwise_iff_getElem]
  intro i j hi hj hij
  rw [LinkedChain.getElem_height hB hi, LinkedChain.getElem_height hB hj]
  omega

/-- Sorting by height restores a chain from its blocks. -/
theorem sortedBlocks_of_perm (hB : LinkedChain B) (hperm : peer.Perm B) :
    sortedBlocks peer = B := by
  have htotal : Std.Total fun a b : Checkpoint => a.height ≤ b.height := ⟨fun _ _ => le_total _ _⟩
  have htrans : IsTrans Checkpoint fun a b => a.height ≤ b.height :=
    ⟨fun _ _ _ hab hbc => le_trans hab hbc⟩
  have hsorted : (sortedBlocks peer).Pairwise fun a b => a.height ≤ b.height :=
    List.pairwise_insertionSort _ peer
  have hmem {x : Checkpoint} (hx : x ∈ sortedBlocks peer) : x ∈ B :=
    hperm.mem_iff.mp (mem_sortedBlocks.mp hx)
  refine List.Perm.eq_of_pairwise ?_ hsorted ((pairwise_height hB).imp le_of_lt)
    ((List.perm_insertionSort _ peer).trans hperm)
  intro a b ha hb hab hba
  obtain ⟨i, hi, rfl⟩ := List.mem_iff_getElem.mp (hmem ha)
  obtain ⟨j, hj, rfl⟩ := List.mem_iff_getElem.mp hb
  rw [LinkedChain.getElem_height hB hi, LinkedChain.getElem_height hB hj] at hab hba
  obtain rfl : i = j := by omega
  rfl

/-- The blocks above a height are a last part of the chain. -/
theorem filter_above (hB : LinkedChain B) (k : ℕ) :
    B.filter (fun b => decide ((k : ℤ) - 1 < b.height)) = B.drop k := by
  have hheight (i : ℕ) (hi : i < B.length) : (B[i]).height = i :=
    LinkedChain.getElem_height hB hi
  conv_lhs => rw [← List.take_append_drop k B]
  rw [List.filter_append, List.filter_eq_nil_iff.mpr, List.filter_eq_self.mpr, List.nil_append]
  · intro b hb
    obtain ⟨i, hi, rfl⟩ := List.mem_iff_getElem.mp hb
    rw [List.length_drop] at hi
    rw [List.getElem_drop, hheight (k + i) (by omega)]
    simp
  · intro b hb
    obtain ⟨i, hi, rfl⟩ := List.mem_iff_getElem.mp hb
    rw [List.length_take] at hi
    rw [List.getElem_take, hheight i (by omega)]
    simp
    omega

/-- Blocks that extend a chain one after the other pass the pre-check on top of it. -/
theorem contiguous_of_extends {pre rest : List Checkpoint} (h : LogFrom Extends pre rest) :
    Node.contiguous rest pre.length (headHash pre) = true := by
  induction rest generalizing pre with
  | nil => rfl
  | cons b rest ih =>
    have hnext := ih h.2
    rw [headHash_concat, List.length_append, List.length_singleton, Nat.cast_add,
      Nat.cast_one] at hnext
    simp [Node.contiguous, h.1.height_eq, h.1.prevHash_eq, hnext]

variable [SerdeReadsBack]

/-- The peer's tip wins exactly when its chain is better. -/
theorem tipWins_iff_better (hA : Refines n.store A) (hB : LedgerChain B) (hAne : A ≠ [])
    (hBne : B ≠ []) :
    (∃ tip ∈ B.getLast?, TipWins n.store tip) ↔ Better B A := by
  rcases List.eq_nil_or_concat' A with rfl | ⟨a, x, rfl⟩
  · exact absurd rfl hAne
  rcases List.eq_nil_or_concat' B with rfl | ⟨b, y, rfl⟩
  · exact absurd rfl hBne
  have hy : y.height = b.length := (Log.snoc_iff.mp hB).2.height_eq
  simp only [List.getLast?_concat, Option.mem_some_iff, exists_eq_left', TipWins, hA.height,
    hA.head, Option.map_some, forall_eq', readBack_blockHash, hy, Better, headHash_concat,
    List.length_append, List.length_singleton]
  constructor
  · rintro (h | ⟨h, hhash⟩)
    · exact .inl (by omega)
    · exact .inr ⟨by omega, hhash⟩
  · rintro (h | ⟨h, hhash⟩)
    · exact .inl (by omega)
    · exact .inr ⟨by omega, hhash⟩

variable [RyuReadsBack]

/-- Up to the common ancestor the two chains have the same contents. -/
theorem common_content (hsha : Sha256CollisionFree) {st : ChainStore} (hA : Refines st A)
    (hB : LinkedChain B) :
    ∃ k ≤ A.length, Node.commonAncestor st B = (k : ℤ) - 1 ∧ k ≤ B.length ∧
      (A.take k).map content = (B.take k).map content := by
  obtain ⟨k, hk, ha, -, hsome⟩ := hA.commonAncestor B
  cases k with
  | zero => exact ⟨0, hk, ha, by omega, by simp⟩
  | succ i =>
    obtain ⟨c, hc, hheight, hhash⟩ := hsome i hk rfl
    obtain ⟨j, hj, rfl⟩ := List.mem_iff_getElem.mp hc
    obtain rfl : j = i := by
      rw [LinkedChain.getElem_height hB hj] at hheight
      omega
    refine ⟨j + 1, hk, ha, hj, content_eq_of_headHash_eq hsha
      (Log.take (LedgerChain.linked hA.chain_ok) _) (hB.take _)
      ⟨by rw [List.length_take, List.length_take]; omega, ?_⟩⟩
    have htip {l : List Checkpoint} (hl : j < l.length) :
        headHash (l.take (j + 1)) = l[j].blockHash := by
      rw [List.take_add_one, List.getElem?_eq_getElem hl, Option.toList_some, headHash_concat]
    rw [htip hk, htip hj, hhash]

/-- A response with a valid chain replaces the local chain exactly when it is better. -/
theorem reconcileChain_valid (hsha : Sha256CollisionFree) (hA : Refines n.store A)
    (hvA : ValidChain n.config.flopsTolerance A) (hvB : ValidChain n.config.flopsTolerance B)
    (hperm : peer.Perm B) :
    ∃ A', Refines (n.reconcileChain peer).store A' ∧ ValidChain n.config.flopsTolerance A' ∧
      (Better B A ∧ A'.map content = B.map content ∨ ¬ Better B A ∧ A' = A) := by
  have hB : LedgerChain B := ledgerChain_of_follows hvB.follows
  have hlinked : LinkedChain B := LedgerChain.linked hB
  have hsort := sortedBlocks_of_perm hlinked hperm
  have hne {l : List Checkpoint} (hl : ValidChain n.config.flopsTolerance l) : l ≠ [] := by
    rintro rfl
    exact absurd hl.genesis (by simp)
  have hwins := tipWins_iff_better hA hB (hne hvA) (hne hvB)
  by_cases hbetter : Better B A
  case neg =>
    have hstay : ¬ Enters n peer := by
      rintro ⟨htip, -⟩
      rw [hsort] at htip
      exact hbetter (hwins.mp htip)
    rw [reconcileChain_of_not_enters hstay]
    exact ⟨A, hA, hvA, .inr ⟨hbetter, rfl⟩⟩
  obtain ⟨k, hk, ha, hkB, hcommon⟩ := common_content hsha hA hlinked
  have ha' : ancestorOf n peer = (k : ℤ) - 1 := by rw [ancestorOf, hsort, ha]
  have hincoming : incomingOf n peer = B.drop k := by
    rw [incomingOf, ha', hsort, filter_above hlinked]
  -- the peer's blocks follow the common part as they follow it in their own chain
  have hsplit : Log (Follows n.config.flopsTolerance) (B.take k ++ B.drop k) := by
    rw [List.take_append_drop]
    exact hvB.follows
  have hfollows := LogFrom.follows_congr hcommon.symm (Log.append_iff.mp hsplit).2
  have hprev : ((n.store.getBlock (ancestorOf n peer)).map Checkpoint.blockHash).getD
      genesisPrevHash = headHash (B.take k) := by
    rw [← headHash_congr hcommon, ha', hA.getBlock]
    cases k with
    | zero => rfl
    | succ i =>
      rw [show ((i + 1 : ℕ) : ℤ) - 1 = (i : ℕ) by omega, blockAt_natCast,
        List.getElem?_eq_getElem (show i < A.length from hk), List.take_add_one,
        List.getElem?_eq_getElem (show i < A.length from hk), Option.toList_some, headHash_concat]
      simp
  have henters : Enters n peer := by
    refine ⟨by rw [hsort]; exact hwins.mpr hbetter, ?_⟩
    have hcont := contiguous_of_extends
      (Log.append_iff.mp (ledgerChain_of_follows hsplit)).2
    rw [List.length_take, min_eq_left hkB] at hcont
    rw [hprev, hincoming, ha', show (k : ℤ) - 1 + 1 = k by omega]
    exact hcont
  obtain ⟨st', hadopt, href⟩ := (hA.baseOf ha').exists_adoptAll hfollows
  have hstore := hA.reconcileChain_adopted hk ha' henters (hincoming ▸ hadopt)
  refine ⟨A.take k ++ B.drop k, hstore ▸ href, ⟨Log.append_iff.mpr
    ⟨hvA.follows.take k, hfollows⟩, ?_⟩, .inl ⟨hbetter, ?_⟩⟩
  · cases k with
    | zero => simpa using hvB.genesis
    | succ i =>
      rw [List.head?_append_of_ne_nil _ (by simp [hne hvA]), List.head?_take]
      simpa using hvA.genesis
  · rw [List.map_append, hcommon, ← List.map_append, List.take_append_drop]

/-! ## All responses -/

omit [SerdeReadsBack] [RyuReadsBack] in
/-- The node after a list of sync responses. -/
def afterResponses (n : Node) (resps : List SyncResponse) : Node :=
  resps.foldl (fun n resp => (n.step (.syncResponse resp)).1) n

/-- The response carries all blocks of the valid chain. -/
def Carries (tol : Float) (resp : SyncResponse) (chain : List Checkpoint) : Prop :=
  resp.blocks.Perm chain ∧ ValidChain tol chain

omit [SerdeReadsBack] [RyuReadsBack] in
/-- A response with a whole chain goes to the fork choice. -/
theorem onSyncResponse_of_carries {resp : SyncResponse} (h : Carries tol resp B) :
    n.onSyncResponse resp = n.reconcileChain resp.blocks := by
  have hgenesis : genesisCheckpoint ∈ resp.blocks :=
    h.1.mem_iff.mpr (List.mem_of_head? h.2.genesis)
  unfold Node.onSyncResponse
  rw [if_pos]
  rw [List.any_eq_true]
  exact ⟨_, hgenesis, by decide⟩

omit [SerdeReadsBack] [RyuReadsBack] in
/-- A sync response leaves the settings. -/
theorem onSyncResponse_config (n : Node) (resp : SyncResponse) :
    (n.onSyncResponse resp).config = n.config :=
  congrArg (fun i => i.2.2.2) (onSyncResponse_effects resp).identity_eq

/-- After any list of responses with valid chains the node holds a valid chain with the
contents of a best one among its own and the received. -/
theorem afterResponses_best (hsha : Sha256CollisionFree) {resps : List SyncResponse}
    {chains : List (List Checkpoint)} (hA : Refines n.store A)
    (hvA : ValidChain n.config.flopsTolerance A)
    (hresps : List.Forall₂ (Carries n.config.flopsTolerance) resps chains) :
    ∃ A' best, Refines (afterResponses n resps).store A' ∧ best ∈ A :: chains ∧
      A'.map content = best.map content ∧ ∀ C ∈ A :: chains, ¬ Better C best := by
  generalize htol : n.config.flopsTolerance = tol at hvA hresps
  induction hresps generalizing n A with
  | nil => exact ⟨A, A, hA, by simp, rfl, by simp [not_better_self]⟩
  | @cons resp B resps chains hresp _ ih =>
    obtain ⟨A₁, href, hvA₁, hcase⟩ :=
      reconcileChain_valid hsha hA (htol ▸ hvA) (htol ▸ hresp.2) hresp.1
    have hstep : (n.step (.syncResponse resp)).1.store = (n.reconcileChain resp.blocks).store := by
      show (n.onSyncResponse resp).store = _
      rw [onSyncResponse_of_carries hresp]
    have hconfig : (n.step (.syncResponse resp)).1.config.flopsTolerance = tol := by
      show (n.onSyncResponse resp).config.flopsTolerance = tol
      rw [onSyncResponse_config, htol]
    obtain ⟨A', best, href', hbest, hcontent, hmax⟩ :=
      ih (hstep ▸ href) hconfig (htol ▸ hvA₁)
    -- the winner of the two, and that the loser is not better
    obtain ⟨W, hW, hWcontent, hlosers⟩ : ∃ W ∈ [A, B], A₁.map content = W.map content ∧
        ∀ C ∈ [A, B], ¬ Better C W := by
      rcases hcase with ⟨hbetter, hc⟩ | ⟨hnot, rfl⟩
      · exact ⟨B, by simp, hc, by simp [hbetter.asymm, not_better_self]⟩
      · exact ⟨A₁, by simp, rfl, by simp [hnot, not_better_self]⟩
    have hWbest : ¬ Better W best := fun hb =>
      hmax A₁ (by simp) ((better_congr (map_blockHash_congr hWcontent) rfl).mpr hb)
    have hall : ∀ C ∈ A :: B :: chains, ¬ Better C best := by
      intro C hC
      by_cases hpair : C ∈ [A, B]
      · exact not_better_trans (hlosers C hpair) hWbest
      · refine hmax C ?_
        simp only [List.mem_cons, List.not_mem_nil, or_false, not_or] at hC hpair ⊢
        tauto
    rcases List.mem_cons.mp hbest with rfl | hlater
    · refine ⟨A', W, href', ?_, hcontent.trans hWcontent, fun C hC hb => hall C hC ?_⟩
      · simp only [List.mem_cons, List.not_mem_nil, or_false] at hW ⊢
        tauto
      · exact (better_congr rfl (map_blockHash_congr hWcontent)).mpr hb
    · exact ⟨A', best, href', by simp [hlater], hcontent, hall⟩

omit [SerdeReadsBack] [RyuReadsBack] in
/-- A node that holds a valid chain, and responses that carry valid chains. -/
structure Exchange (n : Node) (A : List Checkpoint) (resps : List SyncResponse)
    (chains : List (List Checkpoint)) : Prop where
  holds : Refines n.store A
  valid : ValidChain n.config.flopsTolerance A
  carried : List.Forall₂ (Carries n.config.flopsTolerance) resps chains

omit [SerdeReadsBack] [RyuReadsBack] in
/-- The chains that responses carry are valid. -/
theorem valid_of_carried {resps : List SyncResponse} {chains : List (List Checkpoint)}
    (h : List.Forall₂ (Carries tol) resps chains) : ∀ C ∈ chains, ValidChain tol C := by
  induction h with
  | nil => simp
  | cons hresp _ ih => exact List.forall_mem_cons.mpr ⟨hresp.2, ih⟩

omit [SerdeReadsBack] [RyuReadsBack] in
/-- The chains of an exchange are chains of the ledger. -/
theorem Exchange.ledgerChain {resps : List SyncResponse} {chains : List (List Checkpoint)}
    (h : Exchange n A resps chains) (hC : C ∈ A :: chains) : LedgerChain C := by
  rcases List.mem_cons.mp hC with rfl | hC
  · exact h.holds.chain_ok
  · exact ledgerChain_of_follows (valid_of_carried h.carried C hC).follows

/-- A node that processes full-chain responses ends on the best of its own and the received
chains, hash by hash, whatever their order and repetitions; and two nodes that started
from and received the same chains altogether end on the same hashes. -/
theorem fork_choice_converges (hsha : Sha256CollisionFree) :
    (∀ (n : Node) (A : List Checkpoint) (resps : List SyncResponse)
      (chains : List (List Checkpoint)), Exchange n A resps chains →
      ∃ best ∈ A :: chains, (∀ C ∈ A :: chains, ¬ Better C best) ∧
        (afterResponses n resps).store.allBlocks.map Checkpoint.blockHash =
          best.map Checkpoint.blockHash) ∧
    ∀ (n n' : Node) (A A' : List Checkpoint) (resps resps' : List SyncResponse)
      (chains chains' : List (List Checkpoint)),
      Exchange n A resps chains → Exchange n' A' resps' chains' →
      (∀ hashes, hashes ∈ (A :: chains).map (List.map Checkpoint.blockHash) ↔
        hashes ∈ (A' :: chains').map (List.map Checkpoint.blockHash)) →
      (afterResponses n resps).store.allBlocks.map Checkpoint.blockHash =
        (afterResponses n' resps').store.allBlocks.map Checkpoint.blockHash := by
  have hbest (n : Node) (A : List Checkpoint) (resps : List SyncResponse)
      (chains : List (List Checkpoint)) (h : Exchange n A resps chains) :
      ∃ best ∈ A :: chains, (∀ C ∈ A :: chains, ¬ Better C best) ∧
        (afterResponses n resps).store.allBlocks.map Checkpoint.blockHash =
          best.map Checkpoint.blockHash := by
    obtain ⟨A₁, best, href, hmem, hcontent, hmax⟩ :=
      afterResponses_best hsha h.holds h.valid h.carried
    refine ⟨best, hmem, hmax, ?_⟩
    rw [href.allBlocks, ← map_blockHash_congr hcontent]
    exact map_blockHash_congr (map_content_readBack A₁)
  refine ⟨hbest, fun n n' A A' resps resps' chains chains' h h' hset => ?_⟩
  obtain ⟨best, hmem, hmax, hhashes⟩ := hbest n A resps chains h
  obtain ⟨best', hmem', hmax', hhashes'⟩ := hbest n' A' resps' chains' h'
  -- each of the two best chains was among those of the other node
  obtain ⟨C, hC, hCeq⟩ := List.mem_map.mp ((hset _).mpr (List.mem_map_of_mem hmem'))
  obtain ⟨C', hC', hCeq'⟩ := List.mem_map.mp ((hset _).mp (List.mem_map_of_mem hmem))
  have hnot : ¬ Better best' best := fun hb => hmax C hC ((better_congr hCeq rfl).mpr hb)
  have hnot' : ¬ Better best best' := fun hb => hmax' C' hC' ((better_congr hCeq' rfl).mpr hb)
  have hcontent := content_eq_of_headHash_eq hsha (LedgerChain.linked (h.ledgerChain hmem))
    (LedgerChain.linked (h'.ledgerChain hmem')) (tied_of_not_better hnot' hnot)
  rw [hhashes, hhashes', map_blockHash_congr hcontent]

end Exodus.Analysis

namespace Exodus.Analysis

open Exodus.Library Exodus.Model Exodus.Interface Exodus.Sample

/-- A node on the first block and one on the rival block exchange their chains. -/
theorem converges_first_rival :
    (afterResponses (after firstBlock .a "t1")
        [⟨Signer.b.nodeId, [genesisCheckpoint, rivalBlock]⟩]).store.allBlocks.map
          Checkpoint.blockHash =
      (afterResponses (after rivalBlock .b "t2")
        [⟨Signer.a.nodeId, [genesisCheckpoint, firstBlock]⟩]).store.allBlocks.map
          Checkpoint.blockHash := by
  obtain ⟨href, hconfig⟩ := after_spec first_follows .a "t1"
  obtain ⟨href', hconfig'⟩ := after_spec rival_follows .b "t2"
  have hfirst := validChain_of_follows first_follows
  have hrival := validChain_of_follows rival_follows
  refine (fork_choice_converges sha256_injective).2 _ _ [genesisCheckpoint, firstBlock]
    [genesisCheckpoint, rivalBlock] _ _ [[genesisCheckpoint, rivalBlock]]
    [[genesisCheckpoint, firstBlock]] ⟨href, ?_, .cons ⟨.refl _, ?_⟩ .nil⟩
    ⟨href', ?_, .cons ⟨.refl _, ?_⟩ .nil⟩ (fun hashes => ?_)
  · rw [hconfig]
    exact hfirst
  · rw [hconfig]
    exact hrival
  · rw [hconfig']
    exact hrival
  · rw [hconfig']
    exact hfirst
  · simp only [List.map_cons, List.map_nil, List.mem_cons, List.not_mem_nil, or_false]
    exact or_comm

end Exodus.Analysis
