import Exodus.Interface.Invariant
import Exodus.Interface.Reorg
import Exodus.Interface.SampleChain

/-!
# What every stored block has passed

`append` checks neither epochs nor claims: that the stored blocks are sound rests on the
callers.  A block is vetted if it passed `validate_proposal` against exactly the blocks
below it, or is the canonical genesis.  The five ways into `append` keep a ledger of vetted
blocks:

* own commits, received commits and queued commits validate on the store that they append
  to (`Effect.holdsVetted`);
* a reorganisation validates each block of the peer on the blocks before it, the last block
  included if the ledger takes it (`reconcileChain_holdsVetted`);
* a failed reorganisation puts the old blocks back on the old blocks below them.

The recorded quorum of a restored block may differ, so only what does not depend on it is
kept.
-/

set_option autoImplicit false

namespace Exodus.Analysis

open Exodus.Library Exodus.Model Exodus.Interface

variable [Crates] {tol : Float} {n n' : Node} {st : ChainStore} {chain peer : List Checkpoint}
  {c : Checkpoint} {I : Inputs}

/-! ## Vetted blocks -/

/-- The block is the canonical genesis, or its proposal passes on the blocks below it. -/
def Vetted (tol : Float) (chain : List Checkpoint) (c : Checkpoint) : Prop :=
  isCanonicalGenesis c.proposal = true ∨ ProposalPasses tol chain ∅ false c.proposal

/-- The ledger holds vetted blocks only. -/
def HoldsVetted (tol : Float) (st : ChainStore) : Prop :=
  ∃ chain, Refines st chain ∧ Log (Vetted tol) chain

/-- A block that passes is vetted. -/
theorem Passes.vetted (h : Passes tol chain c) : Vetted tol chain c := by
  rcases h with hg | ⟨-, hp, -⟩
  · exact .inl hg
  · exact .inr hp

/-- Whether a block is vetted depends on contents only. -/
theorem Vetted.congr {l m : List Checkpoint} {c c' : Checkpoint}
    (h : l.map content = m.map content) (hc : content c = content c') (hv : Vetted tol l c) :
    Vetted tol m c' := by
  have hproposal : c.proposal = c'.proposal := congrArg Prod.fst hc
  rcases hv with hg | hp
  · left
    rwa [← hproposal]
  · right
    rw [← hproposal]
    exact hp.congr h

/-- So are blocks that follow each other. -/
theorem logFrom_vetted {l bs : List Checkpoint} (h : LogFrom (Follows tol) l bs) :
    LogFrom (Vetted tol) l bs := by
  induction bs generalizing l with
  | nil => trivial
  | cons b rest ih => exact ⟨Passes.vetted h.1.passes, ih h.2⟩

/-- A canonical genesis that the ledger takes is its first block. -/
theorem Extends.nil_of_genesis (h : Extends chain c) (hg : isCanonicalGenesis c.proposal = true) :
    chain = [] := by
  have hheight := h.height_eq
  rw [Checkpoint.height, (isCanonicalGenesis_iff _).mp hg] at hheight
  have hlen : chain.length = 0 := by
    have hzero : (0 : ℤ) = chain.length := hheight
    omega
  exact List.length_eq_zero_iff.mp hlen

variable [SerdeReadsBack]

/-- A block that `validate_checkpoint` lets pass is vetted, whatever ids were given. -/
theorem vetted_of_validated (h : Refines n.store chain) (hval : Validated n c) :
    Vetted n.config.flopsTolerance chain c := by
  obtain ⟨q, seen, seen', hval⟩ := hval
  rcases (validateCheckpoint_ok_iff c q false seen seen').mp hval with ⟨hg, -⟩ | ⟨-, hp, -⟩
  · exact .inl hg
  · right
    have hpass := ((h.validateProposal_ok_iff c.proposal _ _ false).mp hp).1
    apply hpass.of_fresh
    intro id _
    exact Finset.notMem_empty id

/-! ## One operation -/

/-- Without a reorganisation only a validated block is added. -/
theorem Effect.holdsVetted (he : Effect I n n') (hI : ¬ I.reorg)
    (h : HoldsVetted n.config.flopsTolerance n.store) :
    HoldsVetted n.config.flopsTolerance n'.store := by
  have hsame {st : ChainStore} (heq : st = n.store) : HoldsVetted n.config.flopsTolerance st := by
    rwa [heq]
  cases he with
  | commit c hsrc hval st happ =>
    obtain ⟨chain, href, hlog⟩ := h
    rw [store_announceCommit]
    exact ⟨chain ++ [c], (href.append_ok happ).2, hlog.snoc (vetted_of_validated href hval)⟩
  | quiet hq => exact hsame (congrArg Core.store hq.core_eq)
  | timeout hI htime hcore => exact hsame (congrArg Core.store hcore)
  | adopt p hp hval => exact hsame (store_adopt n p)
  | twin c hsrc hval e happ hcom => exact hsame (store_settleTwin n _)
  | cut hr => exact absurd hr hI
  | resettle hr => exact absurd hr hI
  | pend | evict | emit | file | learn | queue | unqueue | requeue | reject => exact hsame rfl

/-- Without a reorganisation only vetted blocks are stored. -/
theorem Effects.holdsVetted (he : Effects I n n') (hI : ¬ I.reorg)
    (h : HoldsVetted n.config.flopsTolerance n.store) :
    HoldsVetted n.config.flopsTolerance n'.store := by
  induction he with
  | refl => exact h
  | tail hes he ih =>
    have hconfig : _ = n.config := congrArg (fun i => i.2.2.2) (Effects.identity_eq hes)
    have hnext := Effect.holdsVetted he hI (by rwa [show Node.config _ = _ from hconfig])
    rwa [show Node.config _ = _ from hconfig] at hnext

/-- A reorganisation leaves vetted blocks, whether it succeeds or puts the old ones back. -/
theorem reconcileChain_holdsVetted (h : HoldsVetted n.config.flopsTolerance n.store) :
    HoldsVetted n.config.flopsTolerance (n.reconcileChain peer).store := by
  by_cases hin : Enters n peer
  case neg => rwa [reconcileChain_of_not_enters hin]
  obtain ⟨chain, href, hlog⟩ := h
  obtain ⟨k, hk, ha, -, -⟩ := href.commonAncestor (sortedBlocks peer)
  replace ha : ancestorOf n peer = (k : ℤ) - 1 := ha
  have hbase := href.baseOf ha
  rcases href.reconcileChain_cases hk ha hin with ⟨st', hst', hnew⟩ |
    ⟨init, last, hincoming, ⟨st', init', last', hincoming', hinit, -⟩, hnew⟩ | ⟨-, -, hnew⟩
  · have hfollows := ((hbase.adoptAll_eq_some_iff _).mp hst').1
    exact ⟨_, hnew, Log.append_iff.mpr ⟨hlog.take k, logFrom_vetted hfollows⟩⟩
  · obtain ⟨rfl, -⟩ := List.append_inj' (hincoming.symm.trans hincoming') rfl
    have hfollows := ((hbase.adoptAll_eq_some_iff _).mp hinit).1
    exact ⟨_, hnew, Log.append_iff.mpr ⟨hlog.take k, logFrom_vetted hfollows⟩⟩
  · refine ⟨_, hnew, hlog.congr content (fun _ _ _ _ => Vetted.congr) ?_⟩
    rw [List.map_append, map_content_readBack, ← List.map_append, List.take_append_drop]

/-- With any operation only vetted blocks are stored. -/
theorem step_holdsVetted (hn : Node.Reachable n) (op : Node.Op)
    (h : HoldsVetted n.config.flopsTolerance n.store) :
    HoldsVetted n.config.flopsTolerance (n.step op).1.store := by
  by_cases hfull : ∃ resp, op = .syncResponse resp ∧ ∃ b ∈ resp.blocks, b.height = 0
  · obtain ⟨resp, rfl, hzero⟩ := hfull
    have hstep : (n.step (.syncResponse resp)).1.store = (n.reconcileChain resp.blocks).store := by
      show (n.onSyncResponse resp).store = _
      rw [onSyncResponse_full hzero]
    rw [hstep]
    exact reconcileChain_holdsVetted h
  · obtain ⟨hinv, hidle⟩ := reachable_idle hn
    obtain ⟨m, hm⟩ := step_effects hinv.keyed hidle.outgoing hidle.calls op
    have hI : ¬ (inputs n op).reorg := hfull
    have hdone : HoldsVetted n.config.flopsTolerance m.store :=
      Effects.holdsVetted hm.effects hI h
    rw [hm.state]
    exact hdone

/-! ## Runs -/

omit [SerdeReadsBack] in
/-- The states of a node that is started on an empty ledger, and perhaps again on its own,
with one FLOPS tolerance. -/
inductive ReachableWith (tol : Float) : Node → Prop
  | start (nodeId : String) (privateKey : List UInt8) (publicKeyHex : String)
      (config : ExodusConfig) (ambient : Ambient) (htol : config.flopsTolerance = tol) :
      ReachableWith tol (Node.new nodeId privateKey publicKeyHex ChainStore.empty config ambient)
  | restart {n : Node} (h : ReachableWith tol n) (nodeId : String) (privateKey : List UInt8)
      (publicKeyHex : String) (config : ExodusConfig) (ambient : Ambient)
      (htol : config.flopsTolerance = tol) :
      ReachableWith tol (Node.new nodeId privateKey publicKeyHex n.store config ambient)
  | step {n : Node} (h : ReachableWith tol n) (op : Node.Op) : ReachableWith tol (n.step op).1

omit [SerdeReadsBack] in
/-- A state that is reached with one tolerance can be reached. -/
theorem ReachableWith.reachable (h : ReachableWith tol n) : Node.Reachable n := by
  induction h with
  | start => exact .start _ _ _ _ _
  | restart _ _ _ _ _ _ _ ih => exact .restart ih _ _ _ _ _
  | step _ op ih => exact .step ih op

omit [SerdeReadsBack] in
/-- The tolerance does not change. -/
theorem ReachableWith.tolerance_eq (h : ReachableWith tol n) : n.config.flopsTolerance = tol := by
  induction h with
  | start _ _ _ _ _ htol => rw [(started_new _ _ _ _ _ _).config_eq, htol]
  | restart _ _ _ _ _ _ htol => rw [(started_new _ _ _ _ _ _).config_eq, htol]
  | step hn op ih =>
    have hconfig := congrArg (fun i => i.2.2.2) (identity_step hn.reachable op)
    rw [show Node.config _ = _ from hconfig]
    exact ih

omit [SerdeReadsBack] in
/-- A new node keeps the vetted blocks of its ledger. -/
theorem holdsVetted_new (nodeId : String) (privateKey : List UInt8) (publicKeyHex : String)
    (config : ExodusConfig) (ambient : Ambient) (h : HoldsVetted tol st) :
    HoldsVetted tol (Node.new nodeId privateKey publicKeyHex st config ambient).store := by
  unfold Node.new
  dsimp only
  split_ifs with hheight
  · exact h
  · obtain ⟨chain, href, -⟩ := h
    obtain rfl : chain = [] := by
      rw [href.height] at hheight
      exact List.length_eq_zero_iff.mp (by omega)
    exact ⟨_, href.appended_extends extends_genesis, .snoc .nil (.inl rfl)⟩

/-- In every such state the stored blocks are vetted. -/
theorem ReachableWith.holdsVetted (h : ReachableWith tol n) : HoldsVetted tol n.store := by
  induction h with
  | start => exact holdsVetted_new _ _ _ _ _ ⟨[], refines_empty, .nil⟩
  | restart _ _ _ _ _ _ _ ih => exact holdsVetted_new _ _ _ _ _ ih
  | step hn op ih =>
    have htol := hn.tolerance_eq
    have hstep := step_holdsVetted hn.reachable op (by rwa [htol])
    rwa [htol] at hstep

/-- In every state that a node reaches, the epoch of a stored block is above that of the
block below it, genesis stands at height 0 only, and every other stored block has claims,
each of which verifies, is plausible and was made below the block's height. -/
theorem stored_blocks_sound (hn : ReachableWith tol n) :
    (∀ h b, 1 ≤ h → n.store.getBlock h = some b →
      isCanonicalGenesis b.proposal = false ∧
      ∃ below, n.store.getBlock (h - 1) = some below ∧ below.epoch < b.epoch) ∧
    ∀ h b, n.store.getBlock h = some b → isCanonicalGenesis b.proposal = false →
      b.proposal.claims ≠ [] ∧
      ∀ s ∈ b.proposal.claims, s.verify = true ∧ flopsIsPlausible s.claim tol = true ∧
        s.claim.lastSeenCheckpointHeight.toInt < h := by
  obtain ⟨chain, href, hlog⟩ := hn.holdsVetted
  constructor
  · intro h b hpos hb
    rw [href.getBlock] at hb
    obtain ⟨c, hc, rfl⟩ := Option.map_eq_some_iff.mp hb
    obtain ⟨i, hi, rfl, rfl⟩ := blockAt_eq_some hc
    obtain ⟨j, rfl⟩ : ∃ j, i = j + 1 := ⟨i - 1, by omega⟩
    have hj : j < chain.length := by omega
    have hgenesis : isCanonicalGenesis chain[j + 1].proposal = false := by
      by_contra hg
      have hnil := Extends.nil_of_genesis (href.chain_ok.ok_getElem hi) (by simpa using hg)
      have hlen := congrArg List.length hnil
      simp only [List.length_take, List.length_nil] at hlen
      omega
    refine ⟨by rwa [readBack_proposal], readBack chain[j], ?_, ?_⟩
    · rw [href.getBlock, show ((j + 1 : ℕ) : ℤ) - 1 = (j : ℕ) by push_cast; ring, blockAt_natCast,
        List.getElem?_eq_getElem hj, Option.map_some]
    · -- the block below is the last one of those that the proposal was checked on
      rcases hlog.ok_getElem hi with hg | hp
      · rw [hgenesis] at hg
        cases hg
      · have hlast : chain[j] ∈ (chain.take (j + 1)).getLast? := by
          rw [List.take_add_one, List.getElem?_eq_getElem hj, Option.toList_some,
            List.getLast?_concat]
          exact rfl
        rw [readBack_epoch, readBack_epoch]
        exact hp.epoch_advances _ hlast
  · intro h b hb hgenesis
    rw [href.getBlock] at hb
    obtain ⟨c, hc, rfl⟩ := Option.map_eq_some_iff.mp hb
    obtain ⟨i, hi, rfl, rfl⟩ := blockAt_eq_some hc
    rw [readBack_proposal] at hgenesis ⊢
    rcases hlog.ok_getElem hi with hg | hp
    · rw [hgenesis] at hg
      cases hg
    · refine ⟨hp.nonempty rfl, ?_⟩
      intro s hs
      have hclaim := hp.claims.each s hs
      have hlen : (chain.take i).length = i := by
        rw [List.length_take]
        omega
      have htimely := hclaim.timely
      rw [hlen] at htimely
      exact ⟨hclaim.verified, hclaim.flops_ok, by omega⟩

end Exodus.Analysis

namespace Exodus.Analysis

open Exodus.Library Exodus.Model Exodus.Interface Exodus.Sample Signer

/-- A node that received the first block of the sample stores it on genesis. -/
theorem first_stored_sound :
    ∃ below, (after firstBlock a "t1").store.getBlock 0 = some below ∧
      below.epoch < (readBack firstBlock).epoch := by
  have hstart : ReachableWith tolerance (fresh a "t1") := by
    rw [fresh_eq_new]
    exact .start _ _ _ _ _ rfl
  have hstored : (after firstBlock a "t1").store.getBlock 1 = some (readBack firstBlock) := by
    rw [(after_spec first_follows a "t1").1.getBlock]
    rfl
  exact ((stored_blocks_sound (hstart.step _)).1 1 _ le_rfl hstored).2

end Exodus.Analysis
