import Exodus.Interface.Evidence
import Exodus.Interface.SampleNodes

/-!
# The collected shares are usable

The maps of proposals and of shares are kept in step by every effect: shares are collected
for held proposals only, each share stands under its own node id and proposal hash, and it
verifies.  A checkpoint that `maybe_commit` assembles from them can therefore fail its
validation only by the rules for proposals.
-/

set_option autoImplicit false

namespace Exodus.Analysis

open Exodus.Library Exodus.Model Exodus.Interface

variable [Crates] {I : Inputs} {n n' m : Node} {p : CheckpointProposal}

/-! ## What is asked of the maps -/

/-- The public key of the node is that of its private key, and verifies what it signs. -/
structure KeysMatch (n : Node) : Prop where
  public_eq : n.publicKeyHex = hex (publicKeyFromPrivate n.privateKey)
  correct : ∀ message, verify message (sign message n.privateKey)
    (publicKeyFromPrivate n.privateKey) = true

/-- Shares are collected for held proposals, and each is in its place and verifies. -/
structure UsableShares (n : Node) : Prop where
  held : ∀ hash ∈ n.signatures, ∃ p, n.proposals[hash]? = some p ∧ p.proposalHash = hash
  filed : ∀ hash nodeId s, shareAt n hash nodeId = some s →
    s.nodeId = nodeId ∧ s.proposalHash = hash ∧ s.verify = true

/-- Whether the keys match is read from the identity. -/
theorem KeysMatch.congr (h : KeysMatch n) (heq : identity (core n') = identity (core n)) :
    KeysMatch n' := by
  simp only [identity, core, Prod.mk.injEq] at heq
  obtain ⟨-, hprivate, hpublic, -⟩ := heq
  constructor
  · rw [hpublic, hprivate]
    exact h.public_eq
  · rw [hprivate]
    exact h.correct

/-- A node with matching keys makes shares that verify. -/
theorem KeysMatch.verify_own (h : KeysMatch n) (p : CheckpointProposal) :
    (n.signatureShare p).verify = true := by
  unfold SignatureShare.verify
  simp only [Node.signatureShare, h.public_eq, hexDecode_hex]
  exact h.correct _

/-! ## The maps under the effects -/

/-- Whether shares are usable is read from the proposals and the shares. -/
theorem UsableShares.of_eq (h : UsableShares n) (hprops : n'.proposals = n.proposals)
    (hsigs : n'.signatures = n.signatures) : UsableShares n' := by
  constructor
  · rw [hsigs, hprops]
    exact h.held
  · intro hash nodeId s hs
    rw [shareAt_congr hsigs] at hs
    exact h.filed hash nodeId s hs

/-- Both are in the core. -/
theorem UsableShares.of_core_eq (h : UsableShares n) (hcore : core n' = core n) :
    UsableShares n' :=
  h.of_eq (congrArg Core.proposals hcore) (congrArg Core.signatures hcore)

/-- The node's own share is usable if its keys match. -/
theorem UsableShares.adopt (h : UsableShares n) (hkeys : KeysMatch n) (p : CheckpointProposal) :
    UsableShares ((n.adoptProposal p).addOwnSignature p) := by
  constructor
  · intro hash hmem
    rw [signatures_adopt, Std.ExtTreeMap.mem_insert, compare_eq_iff_eq] at hmem
    rw [proposals_adopt, Std.ExtTreeMap.getElem?_insert]
    by_cases heq : p.proposalHash = hash
    · exact ⟨p, by simp [heq], heq⟩
    · obtain ⟨q, hq, hhash⟩ := h.held hash (hmem.resolve_left heq)
      exact ⟨q, by simpa [heq] using hq, hhash⟩
  · intro hash nodeId s hs
    rw [shareAt_adopt] at hs
    split_ifs at hs with hown
    · obtain ⟨rfl, rfl⟩ := hown
      cases hs
      exact ⟨rfl, rfl, hkeys.verify_own p⟩
    · exact h.filed hash nodeId s hs

/-- So is a share that verifies, for a held proposal. -/
theorem UsableShares.file (h : UsableShares n) (hkeyed : Keyed n) {share : SignatureShare}
    (hv : share.verify = true) (hp : n.proposals[share.proposalHash]? = some p) :
    UsableShares (n.fileShare share.proposalHash share) := by
  constructor
  · intro hash hmem
    rw [show (n.fileShare share.proposalHash share).signatures = n.signatures.insert _ _ from rfl,
      Std.ExtTreeMap.mem_insert, compare_eq_iff_eq] at hmem
    rcases hmem with rfl | hmem
    · exact ⟨p, hp, hkeyed _ p hp⟩
    · exact h.held hash hmem
  · intro hash nodeId s hs
    rw [shareAt_fileShare] at hs
    split_ifs at hs with hplace
    · obtain ⟨rfl, rfl⟩ := hplace
      cases hs
      exact ⟨rfl, rfl, hv⟩
    · exact h.filed hash nodeId s hs

/-- An announced block takes its shares with it. -/
theorem UsableShares.announceCommit (h : UsableShares n) (c : Checkpoint) :
    UsableShares (n.announceCommit c) := by
  constructor
  · intro hash hmem
    rw [signatures_announceCommit, Std.ExtTreeMap.mem_erase] at hmem
    rw [proposals_announceCommit, Std.ExtTreeMap.getElem?_erase, if_neg hmem.1]
    exact h.held hash hmem.2
  · intro hash nodeId s hs
    exact h.filed hash nodeId s (shareAt_announceCommit hs)

/-- Every effect keeps the maps usable. -/
theorem Effect.usable (he : Effect I n n') (hkeys : KeysMatch n) (hkeyed : Keyed n)
    (h : UsableShares n) : UsableShares n' := by
  cases he with
  | quiet hq => exact h.of_core_eq hq.core_eq
  | timeout _ _ hcore => exact h.of_core_eq hcore
  | adopt p hp hval => exact h.adopt hkeys p
  | file share hs hv p hp => exact h.file hkeyed hv hp
  | commit c hsrc hval st happ =>
    have hstore : UsableShares { n with store := st } := h.of_eq rfl rfl
    exact hstore.announceCommit c
  | twin c hsrc hval e happ hcom =>
    exact h.of_eq (proposals_settleTwin n _) (signatures_settleTwin n _)
  | pend | evict | emit | learn | queue | unqueue | requeue | reject | cut | resettle =>
    exact h.of_eq rfl rfl

/-- Effects in a row keep the shares usable. -/
theorem Effects.usable (he : Effects I n n') (hkeys : KeysMatch n) (hkeyed : Keyed n)
    (h : UsableShares n) : UsableShares n' := by
  induction he with
  | refl => exact h
  | tail hes he ih =>
    exact Effect.usable he (hkeys.congr (Effects.identity_eq hes)) (Effects.keyed hes hkeyed) ih

/-- A new node has no shares. -/
theorem usable_new (nodeId : String) (privateKey : List UInt8) (publicKeyHex : String)
    (st : ChainStore) (config : ExodusConfig) (ambient : Ambient) :
    UsableShares (Node.new nodeId privateKey publicKeyHex st config ambient) := by
  have hsigs := (started_new nodeId privateKey publicKeyHex st config ambient).signatures
  constructor
  · rw [hsigs]
    intro hash hmem
    exact absurd hmem Std.ExtTreeMap.not_mem_empty
  · intro hash nodeId s hs
    rw [shareAt, hsigs] at hs
    simp at hs

/-- The maps of a node with matching keys are usable in every reachable state. -/
theorem reachable_usable (hn : Node.Reachable n) (hkeys : KeysMatch n) : UsableShares n := by
  induction hn with
  | start => exact usable_new _ _ _ _ _ _
  | restart => exact usable_new _ _ _ _ _ _
  | step hn op ih =>
    obtain ⟨hinv, hidle⟩ := reachable_idle hn
    obtain ⟨m, hm⟩ := step_effects hinv.keyed hidle.outgoing hidle.calls op
    have hbefore := hkeys.congr (identity_step hn op).symm
    have husable : UsableShares m := Effects.usable hm.effects hbefore hinv.keyed (ih hbefore)
    rw [hm.state]
    exact husable.of_eq rfl rfl

/-! ## Attempts to commit -/

/-- `propose_internal` makes the proposal. -/
structure Proposes (n : Node) (p : CheckpointProposal) : Prop where
  sealer : n.sealerForView n.view = n.nodeId
  made : ∃ head, n.store.head = some head ∧ n.outstandingAt (head.height + 1) = false ∧
    n.eligibleClaims ≠ [] ∧ p = n.nextProposal head
  valid : ∃ seen, validateProposal p n.store ∅ n.config.flopsTolerance false = .ok seen

/-- The operation calls `maybe_commit`, in the given state and for the given proposal. -/
inductive Attempts (n : Node) : Node.Op → Node → CheckpointProposal → Prop
  | share {s : SignatureShare} {p : CheckpointProposal} (hv : s.verify = true)
      (hp : n.proposals[s.proposalHash]? = some p) :
      Attempts n (.receive Topics.signatures (.signatureShare s)) (n.fileShare s.proposalHash s) p
  | proposal {p : CheckpointProposal} (hs : Signs n p)
      (hself : (adopted n p).sealerForView (adopted n p).view = (adopted n p).nodeId) :
      Attempts n (.receive Topics.proposals (.proposalMessage p)) (adopted n p) p
  | propose {p : CheckpointProposal} (hp : Proposes n p) : Attempts n .proposeNow (proposed n p) p
  | takeover {p : CheckpointProposal} (htake : n.advanceView.2 = true)
      (hp : Proposes n.advanceView.1.drain.1 p) :
      Attempts n .tick (proposed n.advanceView.1.drain.1 p) p

/-- A node that proposes signs its proposal and counts the shares. -/
theorem Proposes.proposeInternal_eq (h : Proposes n p) :
    n.proposeInternal = (proposed n p).maybeCommit p := by
  obtain ⟨head, hhead, hout, hclaims, rfl⟩ := h.made
  obtain ⟨seen, hval⟩ := h.valid
  exact proposeInternal_of_valid h.sealer hhead hout hclaims hval

/-- An attempt is the last thing that its operation does. -/
theorem Attempts.step_eq {op : Node.Op} (h : Attempts n op m p) :
    (n.step op).1 = (m.maybeCommit p).drain.1 := by
  cases h with
  | share hv hp =>
    show (n.onSignature _).drain.1 = _
    rw [onSignature_of_held hv hp]
  | proposal hs hself =>
    show (n.onProposal _).drain.1 = _
    rw [hs.onProposal_eq, if_pos hself]
  | propose hp =>
    show n.proposeInternal.drain.1 = _
    rw [hp.proposeInternal_eq]
  | takeover htake hp =>
    show n.tick.1 = _
    rw [← hp.proposeInternal_eq]
    unfold Node.tick
    dsimp only
    rw [if_pos htake]

omit [Crates] in
/-- Neither draining nor the clock touches the core. -/
theorem core_drain_tickClock (n : Node) : core n.drain.1.tickClock = core n := rfl

/-- The shares are usable when the node counts them. -/
theorem UsableShares.attempt {op : Node.Op} (h : UsableShares n) (hkeys : KeysMatch n)
    (hkeyed : Keyed n) (ha : Attempts n op m p) : UsableShares m := by
  cases ha with
  | share hv hp => exact h.file hkeyed hv hp
  | proposal hs hself => exact (h.adopt hkeys p).of_core_eq (core_adopted n p)
  | propose hp =>
    have hticked : UsableShares n.tickClock := h.of_eq rfl rfl
    have hkeys' : KeysMatch n.tickClock := hkeys.congr rfl
    exact (hticked.adopt hkeys' p).of_core_eq (core_proposed n p)
  | takeover htake hp =>
    have hcore : core n.advanceView.1.drain.1.tickClock = core n :=
      (core_drain_tickClock n.advanceView.1).trans (advanceView_cases n).1
    have hticked : UsableShares n.advanceView.1.drain.1.tickClock := h.of_core_eq hcore
    have hkeys' : KeysMatch n.advanceView.1.drain.1.tickClock :=
      hkeys.congr (congrArg identity hcore)
    exact (hticked.adopt hkeys' p).of_core_eq (core_proposed n.advanceView.1.drain.1 p)

/-- A quorum is at least one. -/
theorem quorumSize_pos (n : Node) : 0 < n.quorumSize := by
  unfold Node.quorumSize
  dsimp only
  split_ifs
  · omega
  · omega

/-- A quorum of usable shares signs the assembled checkpoint. -/
theorem UsableShares.signed (h : UsableShares m)
    (hquorum : m.quorumSize ≤ (m.signatures.getD p.proposalHash ∅).size) :
    Signed (m.assembleCheckpoint p) := by
  refine ⟨?_, ?_, ?_⟩
  · -- the frozen quorum is the counted one, but for the width of the field
    have hfrozen : (m.assembleCheckpoint p).quorum.toNat ≤ m.quorumSize := by
      show (UInt64.ofNat m.quorumSize).toNat ≤ _
      rw [UInt64.toNat_ofNat']
      exact Nat.mod_le _ _
    have hpos := quorumSize_pos m
    rw [required_eq_max, length_assembled]
    omega
  · have hsorted := assembled_signers_sorted fun nodeId s hs =>
      (h.filed p.proposalHash nodeId s hs).1
    exact hsorted.imp ne_of_lt
  · intro sig hsig
    obtain ⟨nodeId, s, hs, rfl⟩ := mem_assembled hsig
    obtain ⟨-, hhash, hv⟩ := h.filed p.proposalHash nodeId s hs
    show verifyShareForProposal s.signatureHex s.publicKeyHex p.proposalHash = true
    rw [← hhash]
    unfold SignatureShare.verify at hv
    unfold verifyShareForProposal
    cases hkey : hexDecode s.publicKeyHex with
    | none => simp [hkey] at hv
    | some key =>
      cases hsig : hexDecode s.signatureHex with
      | none => simp [hkey, hsig] at hv
      | some signature => simpa [hkey, hsig] using hv

/-- A signed checkpoint is refused by the rules for proposals only. -/
theorem Signed.refused_by_proposal {c : Checkpoint} {st : ChainStore} {tol : Float} {q : ℕ}
    {seen : Finset String} {e : ValidationError} (h : Signed c)
    (he : validateCheckpoint c st tol q false (some seen) = .error e) :
    validateProposal c.proposal st seen tol false = .error e := by
  unfold validateCheckpoint at he
  by_cases hgenesis : isCanonicalGenesis c.proposal = true
  · rw [if_pos hgenesis] at he
    cases he
  rw [if_neg hgenesis] at he
  cases hp : validateProposal c.proposal st seen tol false with
  | error e' =>
    rw [Option.getD_some, hp] at he
    exact he
  | ok seen' =>
    have hpass := (validateSignatures_ok_iff _ _).mpr h.pass
    rw [Option.getD_some, hp] at he
    dsimp only at he
    rw [if_neg (not_lt.mpr h.enough), hpass] at he
    cases he

/-- In every reachable state of a node with matching keys the collected shares are usable, and
whenever an operation makes `maybe_commit` assemble a checkpoint, its validation can fail
only as that of the proposal. -/
theorem shares_usable (hn : Node.Reachable n) (hkeys : KeysMatch n) :
    UsableShares n ∧ ∀ op m p, Attempts n op m p →
      (n.step op).1 = (m.maybeCommit p).drain.1 ∧
      (m.quorumSize ≤ (m.signatures.getD p.proposalHash ∅).size →
        ∀ e, validateCheckpoint (m.assembleCheckpoint p) m.store m.config.flopsTolerance
            m.quorumSize false (some m.committedClaimIds) = .error e →
          validateProposal p m.store m.committedClaimIds m.config.flopsTolerance false =
            .error e) := by
  have husable := reachable_usable hn hkeys
  have hkeyed := (reachable_idle hn).1.keyed
  refine ⟨husable, ?_⟩
  intro op m p ha
  refine ⟨ha.step_eq, ?_⟩
  intro hquorum e he
  have hsigned := (husable.attempt hkeys hkeyed ha).signed hquorum
  exact Signed.refused_by_proposal hsigned he

end Exodus.Analysis

/-! ## On the sample -/

namespace Exodus.Analysis

open Exodus.Library Exodus.Model Exodus.Interface Exodus.Sample Signer

/-- The keys of a node that was started with those of the sample. -/
theorem keysMatch_sample {n : Node} {s : Signer} (hprivate : n.privateKey = s.seed)
    (hpublic : n.publicKeyHex = hex s.key) : KeysMatch n := by
  have hkey : publicKeyFromPrivate s.seed = s.key := by
    cases s <;> rfl
  constructor
  · rw [hpublic, hprivate, hkey]
  · intro message
    rw [hprivate, hkey]
    exact verify_sign s message

/-- The node `a` holds the proposal of `b` with its own share. -/
theorem a_shares_usable :
    UsableShares ((ready a [b] a.time 1 3 0.0).step
      (.receive Topics.proposals (.proposalMessage firstProposal))).1 := by
  have hreachable : Node.Reachable (ready a [b] a.time 1 3 0.0) := ready_reachable a [b] a.time (by decide)
  have hkeys : KeysMatch (ready a [b] a.time 1 3 0.0) := keysMatch_sample rfl rfl
  exact (shares_usable (hreachable.step _) (hkeys.congr (identity_step hreachable _))).1

end Exodus.Analysis
