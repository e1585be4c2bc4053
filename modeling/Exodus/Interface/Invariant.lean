import Exodus.Interface.Adoption

/-!
# The invariant of a node

What holds in every state that a node can reach: its store holds a chain, the ids of
the stored claims are among the committed ones, the pending claims verify and stand
under their own ids, and proposals stand under their own hashes.
-/

set_option autoImplicit false

namespace Exodus.Interface

open Exodus.Library Exodus.Model

variable [Crates]

structure Invariant (k : Core) : Prop where
  chain : ∃ chain, Refines k.store chain
  committed : k.store.allCommittedClaimIds ⊆ k.committedClaimIds
  pending : ∀ (id : String) (s : SignedContribution), k.pending[id]? = some s →
    s.claim.claimId = id ∧ s.verify = true
  keyed : ∀ (hash : String) (p : CheckpointProposal), k.proposals[hash]? = some p →
    p.proposalHash = hash

variable {I : Inputs} {n n' : Node}

/-- A write of the ledger leaves a chain. -/
theorem LedgerWrite.refines {st st' : ChainStore} (hw : LedgerWrite st st')
    (h : ∃ chain, Refines st chain) : ∃ chain, Refines st' chain := by
  obtain ⟨chain, h⟩ := h
  cases hw with
  | append c =>
    rcases h.appended c with ⟨-, h'⟩ | ⟨-, heq⟩
    · exact ⟨_, h'⟩
    · rw [heq]
      exact ⟨chain, h⟩
  | rollback k => exact ⟨_, h.rolledBack k⟩

/-- A ledger that was rewritten still holds a chain. -/
theorem Rewritten.refines {st st' : ChainStore} (hw : Rewritten st st')
    (h : ∃ chain, Refines st chain) : ∃ chain, Refines st' chain := by
  induction hw with
  | refl => exact h
  | tail _ hw ih => exact hw.refines ih

/-- Pending claims that stay are under their ids and verify. -/
theorem Invariant.pending_eraseIds {k : Core} {ids : List String} (h : Invariant k) (id : String)
    (s : SignedContribution) (hs : (eraseIds k.pending ids)[id]? = some s) :
    s.claim.claimId = id ∧ s.verify = true := by
  rw [getElem?_eraseIds] at hs
  split_ifs at hs
  exact h.pending id s hs

/-- An effect keeps the invariant. -/
theorem Effect.invariant (he : Effect I n n') (h : Invariant (core n)) : Invariant (core n') := by
  have hkeyed : Keyed n' := he.keyed h.keyed
  cases he with
  | quiet hq =>
    rw [hq.core_eq]
    exact h
  | timeout hI htime hcore =>
    rw [hcore]
    exact h
  | pend s hs hv hnew =>
    refine ⟨h.chain, h.committed, fun id x hx => ?_, hkeyed⟩
    rw [show (core _).pending = n.pending.insert s.claim.claimId s from rfl,
      Std.ExtTreeMap.getElem?_insert] at hx
    split_ifs at hx with hid
    · cases hx
      exact ⟨Std.LawfulEqCmp.eq_of_compare hid, hv⟩
    · exact h.pending id x hx
  | evict s hs id hfull =>
    refine ⟨h.chain, h.committed, fun k x hx => ?_, hkeyed⟩
    rw [show (core _).pending = n.pending.erase id from rfl, Std.ExtTreeMap.getElem?_erase] at hx
    split_ifs at hx
    exact h.pending k x hx
  | adopt p hp hval =>
    refine ⟨?_, ?_, ?_, hkeyed⟩ <;> rw [core_adopt]
    · exact h.chain
    · exact h.committed
    · exact h.pending_eraseIds
  | commit c hsrc hval st happ =>
    obtain ⟨chain, href⟩ := h.chain
    obtain ⟨-, href'⟩ := href.append_ok happ
    refine ⟨?_, ?_, ?_, hkeyed⟩ <;> rw [core_announceCommit]
    · exact ⟨_, href'⟩
    · -- the ids of the new block join both sides
      show st.allCommittedClaimIds ⊆ _
      rw [href.allCommittedClaimIds_append happ]
      exact Finset.union_subset_union h.committed (Finset.Subset.refl _)
    · exact h.pending_eraseIds
  | twin c hsrc hval e happ hcom =>
    refine ⟨?_, ?_, ?_, hkeyed⟩ <;> rw [core_settleTwin]
    · exact h.chain
    · exact h.committed.trans Finset.subset_union_left
    · exact h.pending_eraseIds
  | learn c hsrc q seen hval =>
    exact ⟨h.chain, h.committed.trans (validateCheckpoint_subset hval), h.pending, hkeyed⟩
  | cut hr k =>
    obtain ⟨chain, href⟩ := h.chain
    refine ⟨⟨_, href.rolledBack k⟩, fun x hx => h.committed ?_, h.pending, hkeyed⟩
    obtain ⟨r, hr, rfl⟩ := List.mem_map.mp (List.mem_toFinset.mp hx)
    exact List.mem_toFinset.mpr (List.mem_map_of_mem (List.mem_of_mem_filter hr))
  | resettle hr st hst =>
    exact ⟨hst.refines h.chain, Finset.Subset.refl _, h.pending, hkeyed⟩
  | emit | file | queue | unqueue | requeue | reject =>
    exact ⟨h.chain, h.committed, h.pending, hkeyed⟩

/-- So do effects in a row. -/
theorem Effects.invariant (he : Effects I n n') (h : Invariant (core n)) :
    Invariant (core n') := by
  induction he with
  | refl => exact h
  | tail _ he ih => exact he.invariant ih

/-! ## Growth -/

/-- Without a reorganisation the chain is only extended. -/
theorem Effect.grows (he : Effect I n n') (hI : ¬ I.reorg) {chain : List Checkpoint}
    (h : Refines n.store chain) : ∃ more, Refines n'.store (chain ++ more) := by
  have hsame {st : ChainStore} (heq : st = n.store) : ∃ more, Refines st (chain ++ more) :=
    ⟨[], by rwa [heq, List.append_nil]⟩
  cases he with
  | quiet hq => exact hsame (congrArg Core.store hq.core_eq)
  | timeout hI htime hcore => exact hsame (congrArg Core.store hcore)
  | adopt p hp hval => exact hsame (store_adopt n p)
  | commit c hsrc hval st happ =>
    rw [store_announceCommit]
    exact ⟨[c], (h.append_ok happ).2⟩
  | twin c hsrc hval e happ hcom => exact hsame (store_settleTwin n _)
  | cut hr => exact absurd hr hI
  | resettle hr => exact absurd hr hI
  | pend | evict | emit | file | learn | queue | unqueue | requeue | reject => exact hsame rfl

/-- Without a reorganisation the chain only grows. -/
theorem Effects.grows (he : Effects I n n') (hI : ¬ I.reorg) {chain : List Checkpoint}
    (h : Refines n.store chain) : ∃ more, Refines n'.store (chain ++ more) := by
  induction he with
  | refl => exact ⟨[], by rwa [List.append_nil]⟩
  | tail _ he ih =>
    obtain ⟨more, hmore⟩ := ih
    obtain ⟨more', hmore'⟩ := he.grows hI hmore
    exact ⟨more ++ more', by rwa [← List.append_assoc]⟩

omit [Crates] in
/-- Anything but a full-chain response may come in. -/
def noReorg : Inputs := { Inputs.any with reorg := False }

/-- A next block that the ledger takes stays, whatever the queue adds on top of it. -/
theorem acceptCommit_grows_of_extends [SerdeReadsBack] {chain : List Checkpoint} {c : Checkpoint}
    (h : Refines n.store chain) (hext : Extends chain c)
    (seen : Finset String) :
    ∃ more, Refines
      (({ n with committedClaimIds := seen } : Node).commitLocal c).flushPendingCommits.store
      (chain ++ [c] ++ more) := by
  obtain ⟨st, href, heq⟩ := commitLocal_of_extends (n := { n with committedClaimIds := seen }) h hext
  rw [heq]
  generalize hm : ({ ({ n with committedClaimIds := seen } : Node) with store := st } :
    Node).announceCommit c = m
  have hstore : m.store = st := by
    rw [← hm]
    exact store_announceCommit _ c
  have hflush : Effects noReorg m m.flushPendingCommits :=
    flushPendingCommits_effects fun _ _ _ => trivial
  exact hflush.grows id (hstore.symm ▸ href)

/-! ## Reachable states -/

/-- The empty ledger takes genesis. -/
theorem extends_genesis : Extends [] genesisCheckpoint :=
  ⟨rfl, rfl, by decide, by simp, List.nodup_nil, List.nodup_nil, by simp [genesisCheckpoint]⟩

/-- A node over a ledger that holds a chain; on an empty one it appends genesis. -/
theorem invariant_new (nodeId : String) (privateKey : List UInt8) (publicKeyHex : String)
    {st : ChainStore} (config : ExodusConfig) (ambient : Ambient)
    (h : ∃ chain, Refines st chain) :
    Invariant (core (Node.new nodeId privateKey publicKeyHex st config ambient)) := by
  obtain ⟨chain, h⟩ := h
  unfold Node.new
  dsimp only
  split_ifs with hheight
  · exact ⟨⟨chain, h⟩, Finset.Subset.refl _, fun id s hs => by simp [core] at hs,
      fun hash p hp => by simp [core] at hp⟩
  · obtain rfl : chain = [] := by
      rw [h.height] at hheight
      exact List.length_eq_zero_iff.mp (by omega)
    have hgen := h.appended_extends extends_genesis
    refine ⟨⟨_, hgen⟩, ?_, fun id s hs => by simp [core, Node.tickClock] at hs,
      fun hash p hp => by simp [core, Node.tickClock] at hp⟩
    have hids : (st.appended genesisCheckpoint).allCommittedClaimIds = ∅ := by
      unfold ChainStore.allCommittedClaimIds
      rw [hgen.claimIds]
      rfl
    show (st.appended genesisCheckpoint).allCommittedClaimIds ⊆ _
    rw [hids]
    exact Finset.empty_subset _

/-- Nothing waits to be sent or announced. -/
structure Idle (n : Node) : Prop where
  outgoing : n.outgoing = []
  calls : n.listenerCalls = []

omit [Crates] in
/-- A drained node is idle. -/
theorem idle_drain (n : Node) : Idle n.drain.1 := ⟨rfl, rfl⟩

omit [Crates] in
/-- Draining an idle node does nothing. -/
theorem drain_of_idle (h : Idle n) : n.drain.1 = n := by
  rw [Node.drain, ← h.outgoing, ← h.calls]

/-- A node that has just started has its settings, and has collected nothing. -/
structure Started (config : ExodusConfig) (n : Node) : Prop where
  config_eq : n.config = config
  signatures : n.signatures = ∅
  queue : n.pendingCommits = ∅
  idle : Idle n

/-- A new node has started. -/
theorem started_new (nodeId : String) (privateKey : List UInt8) (publicKeyHex : String)
    (st : ChainStore) (config : ExodusConfig) (ambient : Ambient) :
    Started config (Node.new nodeId privateKey publicKeyHex st config ambient) := by
  unfold Node.new
  dsimp only
  split_ifs
  · exact ⟨rfl, rfl, rfl, rfl, rfl⟩
  · exact ⟨rfl, rfl, rfl, rfl, rfl⟩

/-- The invariant holds in every reachable state, and nothing is left to send. -/
theorem reachable_idle (h : Node.Reachable n) : Invariant (core n) ∧ Idle n := by
  induction h with
  | start nodeId privateKey publicKeyHex config ambient =>
    exact ⟨invariant_new _ _ _ _ _ ⟨[], refines_empty⟩, (started_new _ _ _ _ _ _).idle⟩
  | restart h nodeId privateKey publicKeyHex config ambient ih =>
    exact ⟨invariant_new _ _ _ _ _ ih.1.chain, (started_new _ _ _ _ _ _).idle⟩
  | step h op ih =>
    obtain ⟨m, hm⟩ := step_effects ih.1.keyed ih.2.outgoing ih.2.calls op
    rw [hm.state]
    exact ⟨hm.effects.invariant ih.1, idle_drain m⟩

/-- An operation does not change who the node is. -/
theorem identity_step (h : Node.Reachable n) (op : Node.Op) :
    identity (core (n.step op).1) = identity (core n) := by
  obtain ⟨hinv, hidle⟩ := reachable_idle h
  obtain ⟨m, hm⟩ := step_effects hinv.keyed hidle.outgoing hidle.calls op
  rw [hm.state, core_drain]
  exact Effects.identity_eq hm.effects

/-! ## Runs under a condition -/

/-- The states reached by operations that all meet a condition. -/
inductive ReachableBy (ok : Node → Node.Op → Prop) : Node → Prop
  | start (nodeId : String) (privateKey : List UInt8) (publicKeyHex : String)
      (config : ExodusConfig) (ambient : Ambient) :
      ReachableBy ok (Node.new nodeId privateKey publicKeyHex ChainStore.empty config ambient)
  | restart {n : Node} (h : ReachableBy ok n) (nodeId : String) (privateKey : List UInt8)
      (publicKeyHex : String) (config : ExodusConfig) (ambient : Ambient) :
      ReachableBy ok (Node.new nodeId privateKey publicKeyHex n.store config ambient)
  | step {n : Node} (h : ReachableBy ok n) (op : Node.Op) (hop : ok n op) :
      ReachableBy ok (n.step op).1

/-- A state that is reached under a condition can be reached. -/
theorem ReachableBy.reachable {ok : Node → Node.Op → Prop} (h : ReachableBy ok n) :
    Node.Reachable n := by
  induction h with
  | start => exact .start _ _ _ _ _
  | restart _ _ _ _ _ _ ih => exact .restart ih _ _ _ _ _
  | step _ op _ ih => exact .step ih op

end Exodus.Interface
