import Exodus.Interface.Invariant

/-!
# What a node holds evidence for

The shares, the queued blocks and the appended blocks of a node, and what it announces.
`Evidence` is what a development asks of each of them, and `Admits` what an operation has
to bring along.  `Effects.holds` is the rule: without a reorganisation, an operation whose
inputs are admitted keeps everything the node holds within the evidence.
-/

set_option autoImplicit false

namespace Exodus.Interface

open Exodus.Library Exodus.Model

/-! ## Shares -/

/-- The share filed under a proposal hash and a node id. -/
def shareAt (n : Node) (hash nodeId : String) : Option SignatureShare :=
  (n.signatures.getD hash ∅)[nodeId]?

/-- Shares are read from the table. -/
theorem shareAt_congr {n n' : Node} (h : n'.signatures = n.signatures) (hash nodeId : String) :
    shareAt n' hash nodeId = shareAt n hash nodeId := by
  unfold shareAt
  rw [h]

/-- A share that is filed stands in its place. -/
theorem shareAt_fileShare (n : Node) (share : SignatureShare) (key hash nodeId : String) :
    shareAt (n.fileShare key share) hash nodeId =
      if hash = key ∧ nodeId = share.nodeId then some share else shareAt n hash nodeId := by
  unfold shareAt Node.fileShare
  rw [Std.ExtTreeMap.getD_insert]
  by_cases hh : key = hash
  · subst hh
    by_cases hid : share.nodeId = nodeId
    · simp [hid]
    · simp [Std.ExtTreeMap.getElem?_insert, hid, Ne.symm hid]
  · simp [hh, Ne.symm hh]

variable [Crates]

/-- Taking a proposal in files the node's own share. -/
theorem shareAt_adopt (n : Node) (p : CheckpointProposal) (hash nodeId : String) :
    shareAt ((n.adoptProposal p).addOwnSignature p) hash nodeId =
      if hash = p.proposalHash ∧ nodeId = n.nodeId then some (n.signatureShare p)
      else shareAt n hash nodeId :=
  (shareAt_congr (signatures_adopt n p) hash nodeId).trans
    (shareAt_fileShare n (n.signatureShare p) p.proposalHash hash nodeId)

/-- A commit drops the shares of its own proposal. -/
theorem shareAt_announceCommit {n : Node} {c : Checkpoint} {hash nodeId : String}
    {s : SignatureShare} (hs : shareAt (n.announceCommit c) hash nodeId = some s) :
    shareAt n hash nodeId = some s := by
  unfold shareAt at hs ⊢
  rw [signatures_announceCommit, Std.ExtTreeMap.getD_erase] at hs
  split_ifs at hs
  · simp at hs
  · exact hs

/-! ### Assembled blocks -/

/-- As many signatures as there are shares. -/
theorem length_assembled (n : Node) (p : CheckpointProposal) :
    (n.assembleCheckpoint p).signatures.length = (n.signatures.getD p.proposalHash ∅).size := by
  show (List.map _ _).length = _
  rw [List.length_map, List.length_insertionSort, values_eq_map_snd, List.length_map,
    Std.ExtTreeMap.length_toList]

/-- The signatures of an assembled block are those of the shares. -/
theorem mem_assembled {n : Node} {p : CheckpointProposal} {sig : QuorumSignature}
    (h : sig ∈ (n.assembleCheckpoint p).signatures) :
    ∃ nodeId s, shareAt n p.proposalHash nodeId = some s ∧
      sig = ⟨s.nodeId, s.publicKeyHex, s.signatureHex⟩ := by
  obtain ⟨s, hs, rfl⟩ := List.mem_map.mp h
  rw [(List.perm_insertionSort _ _).mem_iff, mem_values_iff] at hs
  obtain ⟨nodeId, hs⟩ := hs
  exact ⟨nodeId, s, hs, rfl⟩

/-- Shares that stand under their own ids make up signatures in the order of the ids, each
id once. -/
theorem assembled_signers_sorted {n : Node} {p : CheckpointProposal}
    (h : ∀ nodeId s, shareAt n p.proposalHash nodeId = some s → s.nodeId = nodeId) :
    ((n.assembleCheckpoint p).signatures.map QuorumSignature.nodeId).Pairwise (· < ·) := by
  have hkeys : (n.signatures.getD p.proposalHash ∅).values.map SignatureShare.nodeId =
      (n.signatures.getD p.proposalHash ∅).keys := by
    rw [values_eq_map_snd, List.map_map, ← Std.ExtTreeMap.map_fst_toList_eq_keys]
    apply List.map_congr_left
    intro e he
    exact h e.1 e.2 (Std.ExtTreeMap.mem_toList_iff_getElem?_eq_some.mp he)
  have hperm := List.perm_insertionSort (fun a b : SignatureShare => a.nodeId ≤ b.nodeId)
    (n.signatures.getD p.proposalHash ∅).values
  have hnodup := (hperm.map SignatureShare.nodeId).nodup_iff.mpr
    (hkeys ▸ Std.ExtTreeMap.nodup_keys)
  have hle : (((n.signatures.getD p.proposalHash ∅).values.insertionSort
      fun a b => a.nodeId ≤ b.nodeId).map SignatureShare.nodeId).Pairwise (· ≤ ·) :=
    List.pairwise_map.mpr (List.pairwise_insertionSort _ _)
  show (List.map _ (List.map _ _)).Pairwise _
  rw [List.map_map]
  exact (hle.and hnodup).imp fun h => lt_of_le_of_ne h.1 h.2

/-! ### The node's own shares -/

/-- What a node signs depends on its identity only. -/
theorem signatureShare_congr {n n' : Node} (h : identity (core n') = identity (core n))
    (p : CheckpointProposal) : n'.signatureShare p = n.signatureShare p := by
  simp only [identity, core, Prod.mk.injEq] at h
  obtain ⟨hname, hprivate, hpublic, -⟩ := h
  simp only [Node.signatureShare, hname, hprivate, hpublic]

/-- A share that an effect sends is the node's own, for a proposal that it signs. -/
theorem Effect.ownShare {I : Inputs} {n n' : Node} (he : Effect I n n') {topic : String}
    {s : SignatureShare} (hs : (topic, Message.signatureShare s) ∈ n'.outgoing) :
    (topic, Message.signatureShare s) ∈ n.outgoing ∨ ∃ p, I.signs p ∧ s = n.signatureShare p := by
  cases he with
  | quiet hq =>
    obtain ⟨msgs, hmsgs, hroutine⟩ := hq.sends
    rw [hmsgs, List.mem_append] at hs
    exact hs.imp_right fun hs => absurd (hroutine _ hs) id
  | timeout _ _ _ _ _ hout => exact .inl (hout ▸ hs)
  | adopt p hp hval hsigns =>
    rw [outgoing_adopt, List.mem_append, List.mem_singleton] at hs
    refine hs.imp_right fun hs => ⟨p, hsigns, ?_⟩
    cases hs
    rfl
  | emit p hp => exact .inl (by simpa [Node.send] using hs)
  | commit c hsrc hval st happ =>
    rw [outgoing_announceCommit] at hs
    exact .inl (by simpa using hs)
  | twin c hsrc hval e happ hcom =>
    rw [settleTwin_eq] at hs
    exact .inl hs
  | pend | evict | file | learn | queue | unqueue | requeue | reject | cut | resettle =>
    exact .inl hs

/-- The shares that an operation sends are the node's own. -/
theorem Effects.ownShare {I : Inputs} {n n' : Node} (he : Effects I n n') {topic : String}
    {s : SignatureShare} (hs : (topic, Message.signatureShare s) ∈ n'.outgoing) :
    (topic, Message.signatureShare s) ∈ n.outgoing ∨ ∃ p, I.signs p ∧ s = n.signatureShare p := by
  induction he with
  | refl => exact .inl hs
  | tail hes he ih =>
    rcases he.ownShare hs with hs | ⟨p, hp, rfl⟩
    · exact ih hs
    · exact .inr ⟨p, hp, signatureShare_congr (Effects.identity_eq hes) p⟩

/-! ## Evidence -/

/-- What is asked of a share under its proposal hash and node id, of a block that waits
and of a block that is appended. -/
structure Evidence where
  share : String → String → SignatureShare → Prop
  queued : Checkpoint → Prop
  block : Checkpoint → Prop

/-- Everything that the node holds above a chain, and announces, meets the evidence. -/
structure Holds (ev : Evidence) (base : List Checkpoint) (n : Node) : Prop where
  shares : ∀ (hash nodeId : String) (s : SignatureShare),
    shareAt n hash nodeId = some s → ev.share hash nodeId s
  queued : ∀ (h : ℤ) (c : Checkpoint), n.pendingCommits[h]? = some c → ev.queued c
  chain : ∃ more, Refines n.store (base ++ more) ∧ ∀ c ∈ more, ev.block c
  announced : ∀ (topic : String) (c : Checkpoint),
    (topic, Message.commitMessage c) ∈ n.outgoing → ev.block c

/-- The inputs of an operation, and the blocks that a node makes of them, meet the evidence. -/
structure Admits (ev : Evidence) (base : List Checkpoint) (I : Inputs) (n : Node) : Prop where
  share : ∀ s, I.shares s → s.verify = true → ev.share s.proposalHash s.nodeId s
  queued : ∀ c, I.blocks c → ev.queued c
  block : ∀ c, ev.queued c → Signed c → ev.block c
  assembled : ∀ (m : Node) (c : Checkpoint), identity (core m) = identity (core n) →
    Holds ev base m → Assembled I m c → ev.block c

variable {ev : Evidence} {base : List Checkpoint} {I : Inputs} {n n' : Node}

/-- What is admitted depends on its identity only. -/
theorem Admits.congr (h : Admits ev base I n) (heq : identity (core n') = identity (core n)) :
    Admits ev base I n' :=
  ⟨h.share, h.queued, h.block, fun m c hm => h.assembled m c (hm.trans heq)⟩

/-- Nothing but the messages differs, and the new ones announce no block. -/
theorem Holds.of_eq (h : Holds ev base n) (hsig : n'.signatures = n.signatures)
    (hqueue : n'.pendingCommits = n.pendingCommits) (hstore : n'.store = n.store)
    (hout : ∀ (topic : String) (c : Checkpoint),
      (topic, Message.commitMessage c) ∈ n'.outgoing → (topic, Message.commitMessage c) ∈ n.outgoing) :
    Holds ev base n' := by
  refine ⟨fun hash nodeId s hs => ?_, ?_, ?_, fun topic c hc => h.announced topic c (hout topic c hc)⟩
  · rw [shareAt_congr hsig] at hs
    exact h.shares hash nodeId s hs
  · rw [hqueue]
    exact h.queued
  · rw [hstore]
    exact h.chain

/-- Evidence is read from the core and the blocks that are sent. -/
theorem Holds.of_core_eq (h : Holds ev base n) (hcore : core n' = core n)
    (hout : ∀ (topic : String) (c : Checkpoint),
      (topic, Message.commitMessage c) ∈ n'.outgoing → (topic, Message.commitMessage c) ∈ n.outgoing) :
    Holds ev base n' :=
  h.of_eq (congrArg Core.signatures hcore) (congrArg Core.pendingCommits hcore)
    (congrArg Core.store hcore) hout

/-- Weaker evidence is held too. -/
theorem Holds.mono {ev' : Evidence} (h : Holds ev base n)
    (hshare : ∀ hash nodeId s, ev.share hash nodeId s → ev'.share hash nodeId s)
    (hqueued : ∀ c, ev.queued c → ev'.queued c) (hblock : ∀ c, ev.block c → ev'.block c) :
    Holds ev' base n := by
  obtain ⟨more, href, hmore⟩ := h.chain
  exact ⟨fun hash nodeId s hs => hshare _ _ _ (h.shares hash nodeId s hs),
    fun k c hc => hqueued c (h.queued k c hc), ⟨more, href, fun c hc => hblock c (hmore c hc)⟩,
    fun topic c hc => hblock c (h.announced topic c hc)⟩

/-- A validated block that goes on top of a chain is not the genesis: it is signed. -/
theorem Validated.signed {c : Checkpoint} {chain : List Checkpoint} (h : Validated n c)
    (hext : Extends chain c) (hchain : chain ≠ []) : Signed c := by
  obtain ⟨q, seen, seen', hval⟩ := h
  rcases (validateCheckpoint_ok_iff c q false seen seen').mp hval with ⟨hgen, -⟩ | ⟨-, -, hs⟩
  · have hheight : c.height = 0 := by
      unfold Checkpoint.height
      rw [(isCanonicalGenesis_iff _).mp hgen]
      rfl
    have hlen := hext.height_eq
    have := List.length_pos_iff.mpr hchain
    omega
  · exact hs

/-- An effect keeps the evidence, if the shares that the node makes itself are evidence. -/
theorem Effect.holds (he : Effect I n n') (hI : ¬ I.reorg) (hbase : base ≠ [])
    (hown : ∀ p, I.signs p →
      (Topics.signatures, Message.signatureShare (n.signatureShare p)) ∈ n'.outgoing →
      ev.share p.proposalHash n.nodeId (n.signatureShare p))
    (hin : Admits ev base I n) (h : Holds ev base n) : Holds ev base n' := by
  cases he with
  | quiet hq =>
    refine h.of_core_eq hq.core_eq fun topic c hc => ?_
    obtain ⟨msgs, hmsgs, hroutine⟩ := hq.sends
    rw [hmsgs, List.mem_append] at hc
    rcases hc with hc | hc
    · exact hc
    · exact absurd (hroutine _ hc) id
  | timeout _ _ hcore _ _ hout =>
    exact h.of_core_eq hcore fun topic c hc => by rwa [hout] at hc
  | adopt p hp hval hsigns =>
    have hout := outgoing_adopt n p
    refine ⟨fun hash nodeId s hs => ?_, ?_, ?_, fun topic c hc => ?_⟩
    · rw [shareAt_adopt] at hs
      split_ifs at hs with hkey
      · obtain ⟨rfl, rfl⟩ := hkey
        cases hs
        exact hown p hsigns (by rw [hout]; simp)
      · exact h.shares hash nodeId s hs
    · rw [queue_adopt]
      exact h.queued
    · rw [store_adopt]
      exact h.chain
    · rw [hout] at hc
      exact h.announced topic c (by simpa using hc)
  | emit p hp =>
    refine h.of_eq rfl rfl rfl fun topic c hc => ?_
    simpa [Node.send] using hc
  | file share hs hv p hp =>
    refine ⟨fun hash nodeId s hshare => ?_, h.queued, h.chain, h.announced⟩
    rw [shareAt_fileShare] at hshare
    split_ifs at hshare with hkey
    · obtain ⟨rfl, rfl⟩ := hkey
      cases hshare
      exact hin.share share hs hv
    · exact h.shares hash nodeId s hshare
  | commit c hsrc hval st happ =>
    obtain ⟨more, href, hmore⟩ := h.chain
    obtain ⟨hext, href'⟩ := href.append_ok happ
    have hblock : ev.block c := by
      rcases hsrc with hc | hc
      · exact hin.block c (hin.queued c hc) (hval.signed hext (by simp [hbase]))
      · exact hin.assembled n c rfl h hc
    refine ⟨fun hash nodeId s hs => ?_, ?_, ⟨more ++ [c], ?_, ?_⟩, fun topic b hb => ?_⟩
    · have hold : shareAt { n with store := st } hash nodeId = some s := shareAt_announceCommit hs
      exact h.shares hash nodeId s hold
    · rw [queue_announceCommit]
      exact h.queued
    · rw [store_announceCommit, ← List.append_assoc]
      exact href'
    · intro b hb
      rcases List.mem_append.mp hb with hb | hb
      · exact hmore b hb
      · rw [List.mem_singleton.mp hb]
        exact hblock
    · rw [outgoing_announceCommit, List.mem_append, List.mem_singleton] at hb
      rcases hb with hb | hb
      · exact h.announced topic b hb
      · cases hb
        exact hblock
  | twin c hsrc hval e happ hcom =>
    refine h.of_eq (signatures_settleTwin n _) (queue_settleTwin n _) (store_settleTwin n _)
      fun topic b hb => ?_
    rwa [settleTwin_eq] at hb
  | queue c hsrc =>
    have hqueue : QueuedIn { I with blocks := ev.queued } (n.insertPendingCommit c) :=
      Effect.queuedIn (.queue c (hin.queued c hsrc)) h.queued
    exact ⟨h.shares, hqueue, h.chain, h.announced⟩
  | unqueue height =>
    have hqueue : QueuedIn { I with blocks := ev.queued }
        { n with pendingCommits := n.pendingCommits.erase height } :=
      Effect.queuedIn (.unqueue height) h.queued
    exact ⟨h.shares, hqueue, h.chain, h.announced⟩
  | requeue keep =>
    have hqueue : QueuedIn { I with blocks := ev.queued }
        { n with pendingCommits := n.pendingCommits.filter keep } :=
      Effect.queuedIn (.requeue keep) h.queued
    exact ⟨h.shares, hqueue, h.chain, h.announced⟩
  | cut hr => exact absurd hr hI
  | resettle hr => exact absurd hr hI
  | pend | evict | learn | reject => exact h.of_eq rfl rfl rfl fun _ _ hc => hc

/-- The rule for a whole operation: the shares the node makes itself are in what it sends. -/
theorem Effects.holds (he : Effects I n n') (hI : ¬ I.reorg) (hbase : base ≠ [])
    (hown : ∀ p, I.signs p →
      (Topics.signatures, Message.signatureShare (n.signatureShare p)) ∈ n'.outgoing →
      ev.share p.proposalHash n.nodeId (n.signatureShare p))
    (hin : Admits ev base I n) (h : Holds ev base n) : Holds ev base n' := by
  induction he with
  | refl => exact h
  | tail hes he ih =>
    rename_i b c
    have hid : identity (core b) = identity (core n) := Effects.identity_eq hes
    have hkept : ∀ e ∈ b.outgoing, e ∈ c.outgoing := (Effect.outgoing_grows he).subset
    have hb : Holds ev base b := ih fun p hsigns hp => hown p hsigns (hkept _ hp)
    refine he.holds hI hbase (fun p hsigns hp => ?_) (hin.congr hid) hb
    have hname : b.nodeId = n.nodeId := congrArg Prod.fst hid
    rw [signatureShare_congr hid, hname]
    exact hown p hsigns (signatureShare_congr hid p ▸ hp)

/-- A stored block is one of the common chain, or there is evidence for it. -/
theorem Holds.getBlock [SerdeReadsBack] (h : Holds ev base n) {k : ℤ} {a : Checkpoint}
    (ha : n.store.getBlock k = some a) :
    (k < base.length ∧ (blockAt base k).map readBack = some a) ∨
      (base.length ≤ k ∧ ∃ c, a = readBack c ∧ ev.block c) := by
  obtain ⟨more, href, hmore⟩ := h.chain
  rw [href.getBlock] at ha
  obtain ⟨c, hc, rfl⟩ := Option.map_eq_some_iff.mp ha
  obtain ⟨i, hi, rfl, rfl⟩ := blockAt_eq_some hc
  rcases lt_or_ge i base.length with hlt | hge
  · refine .inl ⟨by exact_mod_cast hlt, ?_⟩
    rw [blockAt_natCast, List.getElem?_eq_getElem hlt, List.getElem_append_left hlt]
    rfl
  · refine .inr ⟨by exact_mod_cast hge, _, rfl, ?_⟩
    rw [List.getElem_append_right hge]
    exact hmore _ (List.getElem_mem _)

/-- Two nodes over a common chain: their blocks for a height are the same one of that chain,
or there is evidence for both. -/
theorem Holds.getBlock_both [SerdeReadsBack] (h : Holds ev base n) (h' : Holds ev base n') {k : ℤ}
    {a b : Checkpoint} (ha : n.store.getBlock k = some a) (hb : n'.store.getBlock k = some b) :
    a = b ∨ ∃ c d, a = readBack c ∧ b = readBack d ∧ ev.block c ∧ ev.block d := by
  rcases h.getBlock ha with ⟨hk, ha⟩ | ⟨hk, c, rfl, hc⟩
  · rcases h'.getBlock hb with ⟨-, hb⟩ | ⟨hk', -⟩
    · exact .inl (Option.some.inj (ha.symm.trans hb))
    · omega
  · rcases h'.getBlock hb with ⟨hk', -⟩ | ⟨-, d, rfl, hd⟩
    · omega
    · exact .inr ⟨c, d, rfl, rfl, hc, hd⟩

end Exodus.Interface
