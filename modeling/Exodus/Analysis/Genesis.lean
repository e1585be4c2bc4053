import Exodus.Analysis.Reorg

/-!
# The block at height 0

Nothing but a reorganisation removes a stored block, and a reorganisation keeps the
blocks up to the common ancestor.  A peer chain that shares no block with the local one
has no common ancestor: the ledger is rolled back to nothing, and the first block of the
peer is then validated like any other.  `genesis_immutable` says that this is the only
way for the block at height 0 to change.
-/

set_option autoImplicit false

namespace Exodus.Analysis

open Exodus.Library Exodus.Model Exodus.Interface

variable [Crates] {n : Node} {st : ChainStore} {chain peer : List Checkpoint}

/-- The block at height 0 has the hash of the genesis checkpoint. -/
def HasGenesis (st : ChainStore) : Prop :=
  st.blockHashLocked 0 = some genesisCheckpoint.blockHash

/-- The reorganisation starts with no common block, and ends with the peer's blocks or
with those before a last one that the ledger refused. -/
def ReplacesGenesis (n : Node) (peer : List Checkpoint) : Prop :=
  Enters n peer ∧ ancestorOf n peer = -1 ∧
    ((∃ st, adoptAll n.config.flopsTolerance (incomingOf n peer) (baseOf n peer) = some st) ∨
      ∃ st, LastRefused n.config.flopsTolerance (incomingOf n peer) (baseOf n peer) st)

/-- The operation is not a full-chain response that replaces genesis. -/
def KeepsGenesis (n : Node) (op : Node.Op) : Prop :=
  ∀ resp, op = .syncResponse resp → (∃ b ∈ resp.blocks, b.height = 0) →
    ¬ ReplacesGenesis n resp.blocks

/-- A ledger has genesis if its chain starts with that hash. -/
theorem hasGenesis_iff (h : Refines st chain) :
    HasGenesis st ↔ chain[0]?.map Checkpoint.blockHash = some genesisCheckpoint.blockHash := by
  unfold HasGenesis
  rw [h.blockHashLocked]
  exact Iff.rfl

/-- A chain whose first block is the same has genesis if the other has. -/
theorem HasGenesis.of_first {st' : ChainStore} {chain' : List Checkpoint} (hg : HasGenesis st)
    (h : Refines st chain) (h' : Refines st' chain')
    (hfirst : chain'[0]?.map Checkpoint.blockHash = chain[0]?.map Checkpoint.blockHash) :
    HasGenesis st' := by
  rw [hasGenesis_iff h', hfirst]
  exact (hasGenesis_iff h).mp hg

/-- Without a reorganisation the first block stays. -/
theorem Effects.hasGenesis {I : Inputs} {n' : Node} (he : Effects I n n') (hI : ¬ I.reorg)
    (h : Refines n.store chain) (hg : HasGenesis n.store) : HasGenesis n'.store := by
  obtain ⟨more, hmore⟩ := he.grows hI h
  refine hg.of_first h hmore ?_
  have hfirst := (hasGenesis_iff h).mp hg
  cases chain with
  | nil => cases hfirst
  | cons b rest => rfl

variable [SerdeReadsBack]

/-- A peer block at height 0 above the common ancestor is not the local one. -/
theorem not_hasGenesis_of_incoming (h : Refines n.store chain) (hg : HasGenesis n.store)
    (ha : ancestorOf n peer = -1) (hin : Enters n peer) {blocks : List Checkpoint}
    (hpre : blocks <+: incomingOf n peer) {st' : ChainStore} (h' : Refines st' blocks) :
    ¬ HasGenesis st' := by
  rw [hasGenesis_iff h']
  cases blocks with
  | nil => simp
  | cons b rest =>
    intro hb
    obtain ⟨k, hk, hk', hnone, -⟩ := h.commonAncestor (sortedBlocks peer)
    obtain rfl : k = 0 := by
      rw [ancestorOf, hk'] at ha
      omega
    obtain ⟨more, hmore⟩ := hpre
    have hpos : 0 < (incomingOf n peer).length := by simp [← hmore]
    have hheight := contiguous_getElem hin.2 hpos
    have hfirst : (incomingOf n peer)[0] = b := by simp [← hmore]
    have hmem : b ∈ sortedBlocks peer := by
      refine List.mem_of_mem_filter (p := fun c => decide (ancestorOf n peer < c.height)) ?_
      show b ∈ incomingOf n peer
      rw [← hfirst]
      exact List.getElem_mem hpos
    have hlocal := (hasGenesis_iff h).mp hg
    obtain ⟨b₀, hb₀, hhash⟩ := Option.map_eq_some_iff.mp hlocal
    obtain ⟨hlen, rfl⟩ := List.getElem?_eq_some_iff.mp hb₀
    refine hnone 0 hlen le_rfl b hmem ?_ ?_
    · rw [← hfirst, hheight, ha]
      rfl
    · rw [hhash]
      simpa using hb

/-- A reorganisation keeps genesis unless it replaces it. -/
theorem reconcileChain_genesis_iff (h : Refines n.store chain) (hg : HasGenesis n.store) :
    HasGenesis (n.reconcileChain peer).store ↔ ¬ ReplacesGenesis n peer := by
  by_cases hin : Enters n peer
  case neg =>
    rw [reconcileChain_of_not_enters hin]
    exact iff_of_true hg fun hr => hin hr.1
  obtain ⟨k, hk, ha, -, -⟩ := h.commonAncestor (sortedBlocks peer)
  replace ha : ancestorOf n peer = (k : ℤ) - 1 := ha
  have hne : chain ≠ [] := by
    rintro rfl
    exact absurd ((hasGenesis_iff h).mp hg) (by simp)
  by_cases hzero : k = 0
  · subst hzero
    have ha' : ancestorOf n peer = -1 := by rw [ha]; rfl
    rcases h.reconcileChain_cases hk ha hin with ⟨st', hst', href⟩ |
      ⟨init, last, hincoming, hlast, href⟩ | ⟨hnone, hlast, href⟩
    · rw [List.take_zero, List.nil_append] at href
      exact iff_of_false (not_hasGenesis_of_incoming h hg ha' hin (List.prefix_refl _) href)
        (not_not.mpr ⟨hin, ha', .inl ⟨st', hst'⟩⟩)
    · rw [List.take_zero, List.nil_append] at href
      exact iff_of_false
        (not_hasGenesis_of_incoming h hg ha' hin ⟨[last], hincoming.symm⟩ href)
        (not_not.mpr ⟨hin, ha', .inr hlast⟩)
    · -- the local blocks are put back
      refine iff_of_true (hg.of_first h href ?_) ?_
      · rw [List.take_zero, List.nil_append, List.drop_zero, List.getElem?_map, Option.map_map]
        exact congrArg (fun f => chain[0]?.map f) (funext readBack_blockHash)
      · rintro ⟨-, -, ⟨st', hst'⟩ | ⟨st', hst'⟩⟩
        · rw [hnone] at hst'
          cases hst'
        · exact hlast st' hst'
  · -- the first block is shared
    have hkeep (more : List Checkpoint)
        (href : Refines (n.reconcileChain peer).store (chain.take k ++ more)) :
        HasGenesis (n.reconcileChain peer).store := by
      refine hg.of_first h href ?_
      have hpos := List.length_pos_of_ne_nil hne
      rw [List.getElem?_append_left (by rw [List.length_take]; omega), List.getElem?_take,
        if_pos (Nat.pos_of_ne_zero hzero)]
    refine iff_of_true ?_ fun hr => ?_
    · rcases h.reconcileChain_cases hk ha hin with ⟨_, _, href⟩ | ⟨_, _, _, _, href⟩ |
        ⟨_, _, href⟩
      · exact hkeep _ href
      · exact hkeep _ href
      · exact hkeep _ href
    · have := hr.2.1
      omega

/-- An operation keeps genesis exactly if it does not replace the chain from height 0. -/
theorem step_genesis_iff (hn : Node.Reachable n) (hg : HasGenesis n.store) (op : Node.Op) :
    HasGenesis (n.step op).1.store ↔ KeepsGenesis n op := by
  obtain ⟨hinv, hidle⟩ := reachable_idle hn
  obtain ⟨chain, h⟩ := hinv.chain
  replace h : Refines n.store chain := h
  by_cases hfull : ∃ resp, op = .syncResponse resp ∧ ∃ b ∈ resp.blocks, b.height = 0
  · obtain ⟨resp, rfl, hzero⟩ := hfull
    have hstep : (n.step (.syncResponse resp)).1.store = (n.reconcileChain resp.blocks).store := by
      show (n.onSyncResponse resp).store = _
      rw [onSyncResponse_full hzero]
    rw [hstep, reconcileChain_genesis_iff h hg]
    constructor
    · rintro hkeep _ ⟨rfl⟩ -
      exact hkeep
    · exact fun hkeep => hkeep resp rfl hzero
  · obtain ⟨m, hm⟩ := step_effects hinv.keyed hidle.outgoing hidle.calls op
    have hI : ¬ (inputs n op).reorg := hfull
    have hkept : HasGenesis m.store := Effects.hasGenesis hm.effects hI h hg
    rw [hm.state]
    exact iff_of_true hkept fun resp hop hzero => absurd ⟨resp, hop, hzero⟩ hfull

omit [SerdeReadsBack] in
/-- A node over a ledger with genesis, or over an empty one, has genesis. -/
theorem hasGenesis_new (nodeId : String) (privateKey : List UInt8) (publicKeyHex : String)
    {st : ChainStore} (config : ExodusConfig) (ambient : Ambient) (h : Refines st chain)
    (hg : chain = [] ∨ HasGenesis st) :
    HasGenesis (Node.new nodeId privateKey publicKeyHex st config ambient).store := by
  unfold Node.new
  dsimp only
  split_ifs with hheight
  · rcases hg with rfl | hg
    · exact absurd h.height hheight
    · exact hg
  · have hnil : chain = [] := by
      rw [h.height] at hheight
      exact List.length_eq_zero_iff.mp (by omega)
    subst hnil
    exact (hasGenesis_iff (h.appended_extends extends_genesis)).mpr rfl

/-- In every run in which no full-chain response replaces genesis the block at height 0
has the genesis hash in every state; and from a state where it has, an operation keeps it
exactly when it is not such a response. -/
theorem genesis_immutable :
    (∀ n, ReachableBy KeepsGenesis n →
      n.store.blockHashLocked 0 = some genesisCheckpoint.blockHash) ∧
    ∀ n op, Node.Reachable n → n.store.blockHashLocked 0 = some genesisCheckpoint.blockHash →
      ((n.step op).1.store.blockHashLocked 0 = some genesisCheckpoint.blockHash ↔
        KeepsGenesis n op) := by
  refine ⟨fun n hn => ?_, fun n op hn hg => step_genesis_iff hn hg op⟩
  induction hn with
  | start => exact hasGenesis_new _ _ _ _ _ refines_empty (.inl rfl)
  | restart hn _ _ _ _ _ ih =>
    obtain ⟨chain, h⟩ := (reachable_idle hn.reachable).1.chain
    exact hasGenesis_new _ _ _ _ _ h (.inr ih)
  | step hn op hop ih => exact (step_genesis_iff hn.reachable ih op).mpr hop

end Exodus.Analysis

namespace Exodus.Analysis

open Exodus.Library Exodus.Model Exodus.Interface Exodus.Sample

/-- The node with the first block, after it has received the chain with the rival one. -/
noncomputable def overtaken : Node :=
  ((after firstBlock .a "t1").step
    (.syncResponse ⟨Signer.b.nodeId, [genesisCheckpoint, rivalBlock]⟩)).1

/-- The rival block has the smaller hash, so the node gives up its own block for it. -/
theorem overtaken_refines : Refines overtaken.store [genesisCheckpoint, rivalBlock] := by
  have hlog : LogFrom (Follows (after firstBlock .a "t1").config.flopsTolerance)
      [genesisCheckpoint] [rivalBlock] := by
    rw [(after_spec first_follows .a "t1").2]
    exact ⟨rival_follows, trivial⟩
  show Refines ((after firstBlock .a "t1").onSyncResponse _).store _
  rw [onSyncResponse_full ⟨genesisCheckpoint, by simp, rfl⟩]
  exact rival_forks.adopts rival_enters hlog

/-- A reorganisation at height 1 leaves genesis. -/
theorem genesis_under_reorg :
    Refines overtaken.store [genesisCheckpoint, rivalBlock] ∧
      overtaken.store.blockHashLocked 0 = some genesisCheckpoint.blockHash := by
  have hstart : ReachableBy KeepsGenesis (fresh .a "t1") :=
    fresh_eq_new .a "t1" ▸ .start _ _ _ _ _
  have hcommit : ReachableBy KeepsGenesis (after firstBlock .a "t1") :=
    .step hstart _ fun resp hop => by simp at hop
  refine ⟨overtaken_refines, genesis_immutable.1 _ (.step hcommit _ fun resp hop _ hr => ?_)⟩
  obtain rfl : _ = resp := by simpa using hop
  have hancestor : ancestorOf _ [genesisCheckpoint, rivalBlock] = 0 := rival_forks.ancestorOf_eq
  exact absurd (hancestor.symm.trans hr.2.1) (by decide)

/-- The usurper's chain replaces genesis. -/
theorem replacesGenesis_usurper : ReplacesGenesis (fresh .a "t1") [usurperBlock] := by
  have href := fresh_refines .a "t1"
  have hsorted : sortedBlocks [usurperBlock] = [usurperBlock] := rfl
  have hancestor : ancestorOf (fresh .a "t1") [usurperBlock] = -1 := by
    obtain ⟨k, hk, ha, -, hsome⟩ := href.commonAncestor (sortedBlocks [usurperBlock])
    have hzero : k ≠ 1 := by
      rintro rfl
      obtain ⟨b, hb, -, hhash⟩ := hsome 0 (by simp) rfl
      obtain rfl : b = usurperBlock := by simpa [hsorted] using hb
      exact blockHash_ne (c := usurperBlock) (d := genesisCheckpoint) (by decide) hhash
    rw [ancestorOf, ha]
    simp only [List.length_singleton] at hk
    omega
  have hincoming : incomingOf (fresh .a "t1") [usurperBlock] = [usurperBlock] := by
    rw [incomingOf, hancestor, hsorted]
    rfl
  have hbase : Refines (baseOf (fresh .a "t1") [usurperBlock]) [] :=
    href.baseOf (k := 0) hancestor
  refine ⟨⟨⟨usurperBlock, rfl, .inr ⟨?_, fun head hhead => ?_⟩⟩, ?_⟩, hancestor, .inl ?_⟩
  · rw [href.height]
    rfl
  · rw [href.head] at hhead
    obtain rfl : readBack genesisCheckpoint = head := by simpa using hhead
    rw [readBack_blockHash, usurper_blockHash, genesis_blockHash]
    decide +kernel
  · rw [hincoming, hancestor, href.getBlock]
    decide
  · have hlog : LogFrom (Follows tolerance) [] [usurperBlock] := ⟨usurper_follows, trivial⟩
    obtain ⟨st, hst, -⟩ := hbase.exists_adoptAll hlog
    rw [hincoming]
    exact ⟨st, hst⟩

/-- A peer's chain of one block, whose hash is smaller than that of genesis, takes the place
of genesis. -/
theorem genesis_usurped :
    Node.Reachable (fresh .a "t1") ∧
      (fresh .a "t1").store.blockHashLocked 0 = some genesisCheckpoint.blockHash ∧
      ((fresh .a "t1").step
        (.syncResponse ⟨Signer.b.nodeId, [usurperBlock]⟩)).1.store.blockHashLocked 0 ≠
          some genesisCheckpoint.blockHash := by
  have hg : HasGenesis (fresh .a "t1").store := (hasGenesis_iff (fresh_refines .a "t1")).mpr rfl
  refine ⟨fresh_reachable .a "t1", hg, fun hkept => ?_⟩
  exact (step_genesis_iff (fresh_reachable .a "t1") hg _).mp hkept _ rfl
    ⟨usurperBlock, by simp, rfl⟩ replacesGenesis_usurper

end Exodus.Analysis
