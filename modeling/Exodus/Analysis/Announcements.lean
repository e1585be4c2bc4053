import Exodus.Interface.Invariant
import Exodus.Interface.Reorg
import Exodus.Interface.SampleChain

/-!
# What an operation announces

`commit_local` queues a `CommitMessage` and a listener call for each block it appends.
Without a reorganisation nothing appended is removed again, so what is announced is
stored.  A reorganisation that restores the local blocks has announced the peer's blocks
that it appended first, and does not take the announcements back.
-/

set_option autoImplicit false

namespace Exodus.Analysis

open Exodus.Library Exodus.Model Exodus.Interface

variable {I : Inputs} {n n' : Node} {st st' : ChainStore} {c : Checkpoint}
  {chain peer : List Checkpoint}

/-- No commit is announced that was not announced before. -/
structure Silent (n n' : Node) : Prop where
  calls_eq : n'.listenerCalls = n.listenerCalls
  messages : ∀ topic c, (topic, Message.commitMessage c) ∈ n'.outgoing →
    (topic, Message.commitMessage c) ∈ n.outgoing

/-- Doing nothing is silent. -/
theorem Silent.refl (n : Node) : Silent n n := ⟨rfl, fun _ _ h => h⟩

/-- A step that leaves the calls and the messages is silent. -/
theorem Silent.of_eq (hcalls : n'.listenerCalls = n.listenerCalls)
    (hout : n'.outgoing = n.outgoing) : Silent n n' := ⟨hcalls, fun _ _ h => hout ▸ h⟩

/-- A quiet step is silent, for routine messages carry no block. -/
theorem Silent.of_quiet (h : Quiet n n') : Silent n n' := by
  obtain ⟨msgs, hout, hmsgs⟩ := h.sends
  refine ⟨h.calls_eq, fun topic c hc => ?_⟩
  rw [hout, List.mem_append] at hc
  exact hc.resolve_right fun hmem => hmsgs _ hmem

variable [Crates]

/-- The announced blocks are in the ledger. -/
structure AllStored (st : ChainStore) (out : Drained) : Prop where
  messages : ∀ topic c, (topic, Message.commitMessage c) ∈ out.1 →
    st.blockHashLocked c.height = some c.blockHash
  calls : ∀ e ∈ out.2, st.blockHashLocked e.1 = some e.2

/-- What the node has announced since the operation began is in its ledger. -/
def Announced (n : Node) : Prop := AllStored n.store (n.outgoing, n.listenerCalls)

/-- An idle node has announced nothing. -/
theorem announced_of_idle (h : Idle n) : Announced n := by
  rw [Announced, h.outgoing, h.calls]
  exact ⟨fun _ _ hc => by simp at hc, fun _ he => by simp at he⟩

/-! ## Effects -/

/-- A longer chain holds what the chain holds. -/
theorem AllStored.grow {out : Drained} {more : List Checkpoint} (h : AllStored st out)
    (href : Refines st chain) (href' : Refines st' (chain ++ more)) : AllStored st' out := by
  have hkeep (k : ℤ) (hash : String) (hk : st.blockHashLocked k = some hash) :
      st'.blockHashLocked k = some hash := by
    rw [href.blockHashLocked] at hk
    obtain ⟨b, hb, hbhash⟩ := Option.map_eq_some_iff.mp hk
    obtain ⟨i, hi, rfl, rfl⟩ := blockAt_eq_some hb
    rw [href'.blockHashLocked, blockAt_natCast, List.getElem?_append_left hi,
      List.getElem?_eq_getElem hi, Option.map_some, hbhash]
  exact ⟨fun topic c hc => hkeep _ _ (h.messages topic c hc), fun e he => hkeep _ _ (h.calls e he)⟩

/-- A silent step announces nothing new. -/
theorem AllStored.of_silent (h : AllStored st (n.outgoing, n.listenerCalls)) (hs : Silent n n') :
    AllStored st (n'.outgoing, n'.listenerCalls) := by
  refine ⟨fun topic c hc => h.messages topic c (hs.messages topic c hc), ?_⟩
  rw [hs.calls_eq]
  exact h.calls

/-- An effect other than a commit announces nothing. -/
theorem Effect.silent_or_commit (he : Effect I n n') :
    Silent n n' ∨ ∃ c st, n.store.append c = .ok st ∧
      n' = ({ n with store := st } : Node).announceCommit c := by
  cases he with
  | quiet h => exact .inl (.of_quiet h)
  | timeout hI htime hcore hview hcalls hout => exact .inl (.of_eq hcalls hout)
  | adopt p hp hval =>
    refine .inl ⟨listenerCalls_adopt n p, fun topic c hc => ?_⟩
    rw [outgoing_adopt] at hc
    simpa using hc
  | emit p hI hp =>
    refine .inl ⟨rfl, fun topic c hc => ?_⟩
    simpa [Node.send] using hc
  | commit c hsrc hval st happ => exact .inr ⟨c, st, happ, rfl⟩
  | twin c hsrc hval e happ hcom =>
    rw [settleTwin_eq]
    exact .inl (.of_eq rfl rfl)
  | pend | evict | file | learn | queue | unqueue | requeue | reject | cut | resettle =>
    exact .inl (.of_eq rfl rfl)

/-- A block that is announced has just been stored. -/
theorem announced_announceCommit (href : Refines n.store chain) (h : Announced n)
    (happ : n.store.append c = .ok st) :
    Announced (({ n with store := st } : Node).announceCommit c) := by
  obtain ⟨hext, href'⟩ := href.append_ok happ
  have hold := AllStored.grow h href href'
  have hnew : st.blockHashLocked c.height = some c.blockHash := by
    rw [href'.blockHashLocked, hext.height_eq, blockAt_natCast]
    simp
  rw [Announced, outgoing_announceCommit, listenerCalls_announceCommit,
    store_announceCommit]
  refine ⟨fun topic b hb => ?_, fun e he => ?_⟩
  · rcases List.mem_append.mp hb with hb | hb
    · exact hold.messages topic b hb
    · simp only [List.mem_singleton, Prod.mk.injEq, Message.commitMessage.injEq] at hb
      rw [hb.2]
      exact hnew
  · rcases List.mem_append.mp he with he | he
    · exact hold.calls e he
    · rw [List.mem_singleton.mp he]
      exact hnew

/-- Without a reorganisation everything announced is stored. -/
theorem Effects.announced (he : Effects I n n') (hI : ¬ I.reorg) (href : Refines n.store chain)
    (h : Announced n) : Announced n' := by
  induction he with
  | refl => exact h
  | @tail m m' hes he ih =>
    obtain ⟨more, hmore⟩ := Effects.grows hes hI href
    rcases Effect.silent_or_commit he with hs | ⟨c, st, happ, rfl⟩
    · obtain ⟨more', hmore'⟩ := he.grows hI hmore
      exact AllStored.grow (AllStored.of_silent ih hs) hmore hmore'
    · exact announced_announceCommit hmore ih happ

/-! ## Reorganisations -/

/-- A reorganisation fails after the peer's first block was appended. -/
structure Abandons (n : Node) (peer : List Checkpoint) : Prop where
  enters : Enters n peer
  not_adopted : adoptAll n.config.flopsTolerance (incomingOf n peer) (baseOf n peer) = none
  not_last : ∀ st, ¬ LastRefused n.config.flopsTolerance (incomingOf n peer) (baseOf n peer) st
  first_taken : ∃ b rest, incomingOf n peer = b :: rest ∧
    (∃ seen, validateCheckpoint b (baseOf n peer) n.config.flopsTolerance 0 false (some ∅) =
      .ok seen) ∧ ∃ st, (baseOf n peer).append b = .ok st

/-- A block that the ledger refuses is not announced. -/
theorem commitLocal_silent {e : LedgerError} (happ : n.store.append c = .error e) :
    Silent n (n.commitLocal c) := by
  have hlocal : Silent n (n.appendLocal c) := by
    unfold Node.appendLocal
    rw [happ]
    dsimp only
    split_ifs
    · rw [settleTwin_eq]
      exact .of_eq rfl rfl
    · exact .of_quiet (quiet_requestSync n _)
  unfold Node.commitLocal
  split
  · split_ifs
    · exact .refl n
    · exact hlocal
  · exact hlocal

variable [SerdeReadsBack]

section Reapply

variable {ancestor : ℤ} {saved incoming cur : List Checkpoint} {applied : ℕ} {b : Checkpoint}
  {rest : List Checkpoint}

variable (ancestor saved applied rest) in
/-- The restore exit announces nothing more. -/
theorem reapply_silent_of_not_passes (h : Refines n.store cur)
    (hpass : ¬ Passes n.config.flopsTolerance cur b) :
    Silent n (Node.reapply ancestor saved (b :: rest) applied n) := by
  unfold Node.reapply
  cases hval : validateCheckpoint b n.store n.config.flopsTolerance n.quorumSize false
      (some ∅) with
  | error e => exact .of_eq rfl rfl
  | ok seen => exact absurd ((h.validateCheckpoint_ok_iff b _ (some ∅) rfl).mp ⟨seen, hval⟩) hpass

/-- A loop that fails, and whose first block was not appended, announces nothing. -/
theorem reapply_silent_of_failed (h : Refines n.store cur) {prev : String}
    (hcont : Node.contiguous incoming cur.length prev = true)
    (hnone : adoptAll n.config.flopsTolerance incoming n.store = none)
    (hlast : ∀ st', ¬ LastRefused n.config.flopsTolerance incoming n.store st')
    (hfirst : ¬ ∃ b rest, incoming = b :: rest ∧
      (∃ seen, validateCheckpoint b n.store n.config.flopsTolerance 0 false (some ∅) = .ok seen) ∧
        ∃ st, n.store.append b = .ok st) :
    Silent n (Node.reapply ancestor saved incoming applied n) := by
  cases incoming with
  | nil => simp [adoptAll] at hnone
  | cons b rest =>
    by_cases hpass : Passes n.config.flopsTolerance cur b
    case neg => exact reapply_silent_of_not_passes ancestor saved applied rest h hpass
    have hval := (h.validateCheckpoint_ok_iff b 0 (some ∅) rfl).mpr hpass
    cases happ : n.store.append b with
    | ok st => exact absurd ⟨b, rest, rfl, hval, st, happ⟩ hfirst
    | error e =>
      obtain ⟨heq, hstore, -⟩ := reapply_cons ancestor saved applied rest h hpass
      rw [ChainStore.appended, happ] at hstore
      have hquiet := commitLocal_silent happ
      cases rest with
      | nil => exact absurd ⟨[], b, rfl, rfl, hval, e, happ⟩ (hlast n.store)
      | cons b' rest =>
        -- the next block comes one height too late
        simp only [Node.contiguous, Bool.and_eq_true, decide_eq_true_eq] at hcont
        have hcur : Refines (n.commitLocal b).store cur := hstore ▸ h
        have hexit := reapply_silent_of_not_passes ancestor saved (applied + 1) rest hcur
          (not_passes_of_gap (b := b') (by omega))
        rw [heq]
        exact ⟨hexit.calls_eq.trans hquiet.calls_eq,
          fun topic c hc => hquiet.messages topic c (hexit.messages topic c hc)⟩

/-- The first block, once appended, has been announced when the loop ends. -/
theorem mem_outgoing_reapply (h : Refines n.store cur)
    (hval : ∃ seen, validateCheckpoint b n.store n.config.flopsTolerance 0 false (some ∅) =
      .ok seen) (happ : n.store.append b = .ok st) :
    (Topics.commits, Message.commitMessage b) ∈
      (Node.reapply ancestor saved (b :: rest) applied n).outgoing := by
  have hpass := (h.validateCheckpoint_ok_iff b 0 (some ∅) rfl).mp hval
  obtain ⟨heq, -, -⟩ := reapply_cons ancestor saved applied rest h hpass
  obtain ⟨st', -, hcommit⟩ := commitLocal_of_extends h (h.append_ok happ).1
  have hgrow : (n.commitLocal b).outgoing <+:
      (Node.reapply ancestor saved rest (applied + 1) (n.commitLocal b)).outgoing :=
    Effects.outgoing_grows (I := Inputs.any)
      (reapply_effects trivial ancestor saved rest (fun _ _ => trivial) _ _)
  rw [heq]
  refine hgrow.subset ?_
  rw [hcommit, outgoing_announceCommit]
  simp

end Reapply

omit [SerdeReadsBack] in
/-- Rolling back announces nothing. -/
theorem idle_cutNode (h : Idle n) : Idle (cutNode n peer) := by
  unfold cutNode
  split_ifs
  · exact ⟨h.outgoing, h.calls⟩
  · exact h

/-- A reorganisation that fails, and whose first block was not appended, announces nothing. -/
theorem reconcileChain_silent (h : Refines n.store chain) (hin : Enters n peer)
    (hnone : adoptAll n.config.flopsTolerance (incomingOf n peer) (baseOf n peer) = none)
    (hlast : ∀ st, ¬ LastRefused n.config.flopsTolerance (incomingOf n peer) (baseOf n peer) st)
    (hfirst : ¬ ∃ b rest, incomingOf n peer = b :: rest ∧
      (∃ seen, validateCheckpoint b (baseOf n peer) n.config.flopsTolerance 0 false (some ∅) =
        .ok seen) ∧ ∃ st, (baseOf n peer).append b = .ok st) :
    Silent (cutNode n peer) (n.reconcileChain peer) := by
  obtain ⟨k, hk, ha, -, -⟩ := h.commonAncestor (sortedBlocks peer)
  replace ha : ancestorOf n peer = (k : ℤ) - 1 := ha
  have hcut := h.cutNode_store hk ha
  have hconfig := cutNode_config n peer
  have hlen : ((chain.take k).length : ℤ) = ancestorOf n peer + 1 := by
    rw [List.length_take, ha]
    omega
  rw [reconcileChain_of_enters hin]
  refine reapply_silent_of_failed (h.cut hk ha) (hlen ▸ hin.2) ?_ ?_ ?_
  · rw [hcut, hconfig]
    exact hnone
  · rw [hcut, hconfig]
    exact hlast
  · rw [hcut, hconfig]
    exact hfirst

/-- What a reorganisation announces is stored unless it abandons blocks. -/
theorem reconcileChain_announced_iff (h : Refines n.store chain) (hidle : Idle n) :
    Announced (n.reconcileChain peer) ↔ ¬ Abandons n peer := by
  by_cases hin : Enters n peer
  case neg =>
    rw [reconcileChain_of_not_enters hin]
    exact iff_of_true (announced_of_idle hidle) fun hab => hin hab.enters
  obtain ⟨k, hk, ha, hnone, -⟩ := h.commonAncestor (sortedBlocks peer)
  replace ha : ancestorOf n peer = (k : ℤ) - 1 := ha
  have hcut := h.cutNode_store hk ha
  have hbase : Refines (cutNode n peer).store (chain.take k) := by
    rw [hcut]
    exact h.baseOf ha
  have hconfig := cutNode_config n peer
  have hidle' : Idle (cutNode n peer) := idle_cutNode hidle
  by_cases hkept : (∃ st, adoptAll n.config.flopsTolerance (incomingOf n peer) (baseOf n peer) =
      some st) ∨ ∃ st, LastRefused n.config.flopsTolerance (incomingOf n peer) (baseOf n peer) st
  · -- no block is removed after it was appended
    obtain ⟨m, hm, heq⟩ := h.reconcileChain_kept (I := noReorg) hk ha hin hkept fun _ _ => trivial
    have hann : Announced m := Effects.announced hm id hbase (announced_of_idle hidle')
    rw [heq]
    refine iff_of_true hann fun hab => ?_
    rcases hkept with ⟨st, hst⟩ | ⟨st, hst⟩
    · rw [hab.not_adopted] at hst
      cases hst
    · exact hab.not_last st hst
  obtain ⟨hadopt, hlast⟩ := not_or.mp hkept
  replace hadopt := Option.eq_none_iff_forall_ne_some.mpr (not_exists.mp hadopt)
  replace hlast := not_exists.mp hlast
  by_cases hfirst : ∃ b rest, incomingOf n peer = b :: rest ∧
      (∃ seen, validateCheckpoint b (baseOf n peer) n.config.flopsTolerance 0 false (some ∅) =
        .ok seen) ∧ ∃ st, (baseOf n peer).append b = .ok st
  · -- the first block is announced, and the local block is back at its height
    refine iff_of_false (fun hann => ?_) (not_not.mpr ⟨hin, hadopt, hlast, hfirst⟩)
    obtain ⟨b, rest, hincoming, hval, st, happ⟩ := hfirst
    have hrestored := h.reconcileChain_restored hk ha hin hadopt hlast
    have hsent : (Topics.commits, Message.commitMessage b) ∈ (n.reconcileChain peer).outgoing := by
      rw [reconcileChain_of_enters hin, hincoming]
      rw [← hcut] at happ
      refine mem_outgoing_reapply hbase ?_ happ
      rw [hcut, hconfig]
      exact hval
    have hmem : b ∈ incomingOf n peer := by simp [hincoming]
    have hheight : b.height = k := by
      have := contiguous_getElem hin.2 (List.length_pos_of_mem hmem)
      simp only [hincoming, List.getElem_cons_zero] at this
      rw [this, ha]
      simp
    have hstored := hann.messages _ _ hsent
    rw [hrestored.blockHashLocked, hheight, blockAt_natCast, List.getElem?_append_right
      (by simp), List.length_take, min_eq_left hk, Nat.sub_self, List.getElem?_map,
      List.getElem?_drop, Nat.add_zero] at hstored
    obtain ⟨b', hb', hhash⟩ := Option.map_eq_some_iff.mp hstored
    obtain ⟨x, hx, rfl⟩ := Option.map_eq_some_iff.mp hb'
    obtain ⟨hlt, rfl⟩ := List.getElem?_eq_some_iff.mp hx
    refine hnone k hlt le_rfl b (List.mem_of_mem_filter hmem) hheight ?_
    rw [← hhash, readBack_blockHash]
  · refine iff_of_true ?_ fun hab => hfirst hab.first_taken
    have hsilent := reconcileChain_silent h hin hadopt hlast hfirst
    refine ⟨fun topic c hc => ?_, fun e he => ?_⟩
    · have := hsilent.messages topic c hc
      rw [hidle'.outgoing] at this
      cases this
    · have hcalls := hsilent.calls_eq.trans hidle'.calls
      rw [show ((n.reconcileChain peer).outgoing, (n.reconcileChain peer).listenerCalls).2 = [] from
        hcalls] at he
      cases he

/-- The operation is a full-chain response whose reorganisation abandons blocks that it has
announced. -/
def AnnouncesAbandoned (n : Node) (op : Node.Op) : Prop :=
  ∃ resp, op = .syncResponse resp ∧ (∃ b ∈ resp.blocks, b.height = 0) ∧ Abandons n resp.blocks

/-- What a full-chain response announces is what its reorganisation announces. -/
theorem fullResponse_stored_iff (h : Refines n.store chain) (hidle : Idle n) {resp : SyncResponse}
    (hzero : ∃ b ∈ resp.blocks, b.height = 0) :
    AllStored (n.step (.syncResponse resp)).1.store (n.step (.syncResponse resp)).2 ↔
      ¬ Abandons n resp.blocks := by
  rw [← reconcileChain_announced_iff h hidle, ← onSyncResponse_full hzero]
  exact Iff.rfl

/-- In every reachable state each commit message and each listener call of an operation
refers to a block that is stored, at that height and with that hash, when the operation
returns; exactly when the operation is not a full-chain response that abandons blocks. -/
theorem announced_stored_iff (hn : Node.Reachable n) (op : Node.Op) :
    AllStored (n.step op).1.store (n.step op).2 ↔ ¬ AnnouncesAbandoned n op := by
  obtain ⟨hinv, hidle⟩ := reachable_idle hn
  obtain ⟨chain, h⟩ := hinv.chain
  replace h : Refines n.store chain := h
  by_cases hfull : ∃ resp, op = .syncResponse resp ∧ ∃ b ∈ resp.blocks, b.height = 0
  · obtain ⟨resp, rfl, hzero⟩ := hfull
    rw [fullResponse_stored_iff h hidle hzero, not_iff_not]
    constructor
    · exact fun hab => ⟨resp, rfl, hzero, hab⟩
    · rintro ⟨_, ⟨rfl⟩, -, hab⟩
      exact hab
  · obtain ⟨m, hm⟩ := step_effects hinv.keyed hidle.outgoing hidle.calls op
    have hI : ¬ (inputs n op).reorg := hfull
    have hann : Announced m := Effects.announced hm.effects hI h (announced_of_idle hidle)
    refine iff_of_true ?_ fun ⟨resp, hop, hzero, _⟩ => hfull ⟨resp, hop, hzero⟩
    rw [hm.state]
    refine ⟨fun topic c hc => hann.messages topic c ((hm.sent _ id).mp hc), ?_⟩
    rw [hm.called]
    exact hann.calls

end Exodus.Analysis

namespace Exodus.Analysis

open Exodus.Library Exodus.Model Exodus.Interface Exodus.Sample

/-- What a fresh node announces for the first block is stored. -/
theorem announced_first :
    AllStored (after firstBlock .a "t1").store
      ((fresh .a "t1").step (.receive Topics.commits (.commitMessage firstBlock))).2 :=
  (announced_stored_iff (fresh_reachable .a "t1") _).mpr fun ⟨_, hop, _⟩ => by cases hop

/-- The empty block on the rival one does not pass. -/
theorem hollow_not_passes : ¬ Passes tolerance [genesisCheckpoint, rivalBlock] hollowBlock := by
  rintro (hg | ⟨-, hp, -⟩)
  · exact absurd hg (by decide)
  · exact hp.nonempty rfl rfl

/-- A peer's chain with a good block and a bad one after it: the good one is announced, then
the local block is put back. -/
theorem rival_announced_not_stored :
    Node.Reachable (after firstBlock .a "t1") ∧
      ¬ AllStored
        ((after firstBlock .a "t1").step
          (.syncResponse ⟨Signer.b.nodeId, [genesisCheckpoint, rivalBlock, hollowBlock]⟩)).1.store
        ((after firstBlock .a "t1").step
          (.syncResponse ⟨Signer.b.nodeId, [genesisCheckpoint, rivalBlock, hollowBlock]⟩)).2 := by
  obtain ⟨href, hconfig⟩ := after_spec first_follows .a "t1"
  have hidle := (reachable_idle (after_reachable firstBlock .a "t1")).2
  have hfork : Forks (after firstBlock .a "t1") [genesisCheckpoint] [firstBlock]
      [rivalBlock, hollowBlock] := by
    refine ⟨href, fun b hb c hc hheight => ?_, by decide, by decide⟩
    obtain rfl := List.mem_singleton.mp hc
    rcases List.mem_pair.mp hb with rfl | rfl
    · exact blockHash_ne (by decide)
    · exact absurd hheight (by decide)
  have hbase : Refines (baseOf _ [genesisCheckpoint, rivalBlock, hollowBlock]) _ :=
    hfork.baseOf_refines
  have hincoming : incomingOf _ [genesisCheckpoint, rivalBlock, hollowBlock] = _ :=
    hfork.incomingOf_eq
  obtain ⟨st, happ⟩ := hbase.append_extends rival_follows.can_append
  have hval := (hbase.validateCheckpoint_ok_iff rivalBlock 0 (some ∅) rfl).mpr rival_follows.passes
  have hst : Refines st [genesisCheckpoint, rivalBlock] := (hbase.append_ok happ).2
  -- the hollow block fails the validation
  have hbad (seen : Finset String) :
      validateCheckpoint hollowBlock st tolerance 0 false (some ∅) ≠ .ok seen := fun hok =>
    hollow_not_passes ((hst.validateCheckpoint_ok_iff hollowBlock 0 (some ∅) rfl).mp ⟨seen, hok⟩)
  refine ⟨after_reachable firstBlock .a "t1", fun hall => ?_⟩
  refine (fullResponse_stored_iff href hidle ⟨genesisCheckpoint, by simp, rfl⟩).mp hall ?_
  refine ⟨?_, ?_, fun st' hlast => ?_, rivalBlock, [hollowBlock], hincoming, ?_, st, happ⟩
  · refine hfork.enters (b := genesisCheckpoint) rfl ?_ rfl (.inl (by rw [href.height]; decide))
    rw [List.length_singleton, Node.contiguous, Node.contiguous, rival_blockHash, genesis_blockHash]
    decide
  · rw [Option.eq_none_iff_forall_ne_some]
    intro st' hst'
    rw [hincoming, hconfig, show config.flopsTolerance = tolerance from rfl,
      adoptAll_cons_eq_some] at hst'
    obtain ⟨-, st₁, happ₁, hrest⟩ := hst'
    obtain rfl : st = st₁ := by
      rw [happ] at happ₁
      exact Except.ok.inj happ₁
    obtain ⟨⟨seen, hok⟩, -⟩ := adoptAll_cons_eq_some.mp hrest
    exact hbad seen hok
  · rw [hincoming, hconfig] at hlast
    obtain ⟨init, last, hsplit, hinit, ⟨seen, hok⟩, -⟩ := hlast
    obtain ⟨rfl, rfl⟩ : init = [rivalBlock] ∧ last = hollowBlock := by
      obtain ⟨hinit, hlast⟩ :=
        List.append_inj' (show [rivalBlock] ++ [hollowBlock] = init ++ [last] from hsplit) rfl
      exact ⟨hinit.symm, (List.singleton_inj.mp hlast).symm⟩
    obtain ⟨-, st₁, happ₁, hrest⟩ := adoptAll_cons_eq_some.mp hinit
    obtain rfl : st₁ = st' := Option.some.inj hrest
    obtain rfl : st = st₁ := by
      rw [happ] at happ₁
      exact Except.ok.inj happ₁
    exact hbad seen hok
  · rw [hconfig]
    exact hval

end Exodus.Analysis
