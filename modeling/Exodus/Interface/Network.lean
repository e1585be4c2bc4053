import Exodus.Interface.Evidence

/-!
# Networks of nodes

Several nodes run the protocol, each under its node id, and everything a node publishes is
recorded.  A run lets one node after the other perform an operation; what may be delivered
to whom is a condition on the operations, so messages can be delayed, repeated, reordered
and lost.  Without sync responses every node keeps to the evidence that the operations
bring (`Network.act_holds`).
-/

set_option autoImplicit false

namespace Exodus.Interface

open Exodus.Library Exodus.Model

variable [Crates]

/-- The shares that an operation sends are those of its effects. -/
theorem Performs.sent_share {I : Inputs} {n m : Node} {op : Node.Op} (h : Performs I n op m)
    {topic : String} {s : SignatureShare} :
    (topic, Message.signatureShare s) ∈ (n.step op).2.1 ↔
      (topic, Message.signatureShare s) ∈ m.outgoing :=
  h.sent (topic, .signatureShare s) id

/-- So are the blocks. -/
theorem Performs.sent_commit {I : Inputs} {n m : Node} {op : Node.Op} (h : Performs I n op m)
    {topic : String} {c : Checkpoint} :
    (topic, Message.commitMessage c) ∈ (n.step op).2.1 ↔
      (topic, Message.commitMessage c) ∈ m.outgoing :=
  h.sent (topic, .commitMessage c) id

/-- The nodes, and what each of them has published. -/
structure Network where
  nodes : String → Node
  sent : String → List (String × Message)

namespace Network

/-- One node performs an operation. -/
def act (net : Network) (id : String) (op : Node.Op) : Network where
  nodes := Function.update net.nodes id ((net.nodes id).step op).1
  sent := Function.update net.sent id (net.sent id ++ ((net.nodes id).step op).2.1)

/-- What is reached from a network when nodes perform operations that the condition allows. -/
inductive Run (ids : Finset String) (allowed : Network → String → Node.Op → Prop)
    (start : Network) : Network → Prop
  | start : Run ids allowed start start
  | act {net : Network} (h : Run ids allowed start net) (id : String) (hid : id ∈ ids)
      (op : Node.Op) (hop : allowed net id op) : Run ids allowed start (net.act id op)

/-- A run under some conditions is one under weaker ones. -/
theorem Run.imp {ids : Finset String} {allowed allowed' : Network → String → Node.Op → Prop}
    {start net : Network} (hrun : Run ids allowed start net)
    (h : ∀ net id op, allowed net id op → allowed' net id op) : Run ids allowed' start net := by
  induction hrun with
  | start => exact .start
  | act _ id hid op hop ih => exact .act ih id hid op (h _ _ _ hop)

/-- Nodes under their own ids that hold the same chain, and neither shares nor waiting
blocks. -/
structure Start (ids : Finset String) (base : List Checkpoint) (net : Network) : Prop where
  reachable : ∀ id ∈ ids, Node.Reachable (net.nodes id)
  named : ∀ id ∈ ids, (net.nodes id).nodeId = id
  chain : ∀ id ∈ ids, Refines (net.nodes id).store base
  nonempty : base ≠ []
  unsigned : ∀ id ∈ ids, (net.nodes id).signatures = ∅
  unqueued : ∀ id ∈ ids, (net.nodes id).pendingCommits = ∅
  silent : ∀ id, net.sent id = []

variable {ids : Finset String} {allowed : Network → String → Node.Op → Prop}
  {start net : Network} {base : List Checkpoint} {ev : Evidence}

/-- The node that acts. -/
@[simp] theorem act_nodes_self (net : Network) (id : String) (op : Node.Op) :
    (net.act id op).nodes id = ((net.nodes id).step op).1 := Function.update_self ..

/-- The others stay. -/
theorem act_nodes_of_ne (net : Network) {id other : String} (op : Node.Op) (h : other ≠ id) :
    (net.act id op).nodes other = net.nodes other := Function.update_of_ne h ..

/-- What the acting node has sent. -/
theorem act_sent_self (net : Network) (id : String) (op : Node.Op) :
    (net.act id op).sent id = net.sent id ++ ((net.nodes id).step op).2.1 := Function.update_self ..

/-- The others send nothing. -/
theorem act_sent_of_ne (net : Network) {id other : String} (op : Node.Op) (h : other ≠ id) :
    (net.act id op).sent other = net.sent other := Function.update_of_ne h ..

/-- A message was sent before or by the node that acts. -/
theorem mem_act_sent {id other : String} {op : Node.Op} {e : String × Message} :
    e ∈ (net.act id op).sent other ↔
      e ∈ net.sent other ∨ other = id ∧ e ∈ ((net.nodes id).step op).2.1 := by
  unfold act
  by_cases h : other = id
  · subst h
    simp
  · simp [h]

/-- Nothing that was published is taken back. -/
theorem sent_subset_act (net : Network) (id other : String) (op : Node.Op) :
    net.sent other ⊆ (net.act id op).sent other := fun _ he => mem_act_sent.mpr (.inl he)

/-- A node as the run finds it: reachable, and who it was at the start. -/
structure Settled (start net : Network) (id : String) : Prop where
  reachable : Node.Reachable (net.nodes id)
  identity_eq : identity (core (net.nodes id)) = identity (core (start.nodes id))

/-- An operation of a settled node is made of effects and a drain. -/
theorem Settled.performs {id : String} (h : Settled start net id) (op : Node.Op) :
    ∃ m, Performs (inputs (net.nodes id) op) (net.nodes id) op m :=
  step_effects (reachable_idle h.reachable).1.keyed (reachable_idle h.reachable).2.outgoing
    (reachable_idle h.reachable).2.calls op

/-- An operation leaves the identity of every node. -/
theorem Settled.act {id other : String} (h : Settled start net other) (op : Node.Op) :
    Settled start (net.act id op) other := by
  by_cases heq : other = id
  · subst heq
    obtain ⟨m, hm⟩ := h.performs op
    refine ⟨?_, ?_⟩ <;> rw [act_nodes_self]
    · exact .step h.reachable op
    · rw [hm.state, core_drain]
      exact (Effects.identity_eq hm.effects).trans h.identity_eq
  · refine ⟨?_, ?_⟩ <;> rw [act_nodes_of_ne net op heq]
    · exact h.reachable
    · exact h.identity_eq

/-- So does a run. -/
theorem Run.settled (hrun : Run ids allowed start net) (hstart : Start ids base start)
    {id : String} (hid : id ∈ ids) : Settled start net id := by
  induction hrun with
  | start => exact ⟨hstart.reachable id hid, rfl⟩
  | act _ other _ op _ ih => exact ih.act op

/-- Nodes stay under their ids. -/
theorem Settled.nodeId_eq {id : String} (h : Settled start net id) (hstart : Start ids base start)
    (hid : id ∈ ids) : (net.nodes id).nodeId = id :=
  (congrArg Prod.fst h.identity_eq).trans (hstart.named id hid)

/-- A share that an operation publishes is the node's own, for the proposal that the operation
makes it sign. -/
theorem Settled.share_of_step {id topic : String} {op : Node.Op} {s : SignatureShare}
    (h : Settled start net id)
    (hs : (topic, Message.signatureShare s) ∈ ((net.nodes id).step op).2.1) :
    ∃ p, WillSign (net.nodes id) op p ∧ s = (net.nodes id).signatureShare p := by
  obtain ⟨m, hm⟩ := h.performs op
  rcases Effects.ownShare hm.effects (hm.sent_share.mp hs) with hold | hown
  · rw [(reachable_idle h.reachable).2.outgoing] at hold
    simp at hold
  · exact hown

/-- The shares that a node publishes are the ones it makes itself. -/
theorem Run.ownShare (hrun : Run ids allowed start net) (hstart : Start ids base start)
    {id topic : String} {s : SignatureShare} (hid : id ∈ ids)
    (hs : (topic, Message.signatureShare s) ∈ net.sent id) :
    ∃ p, s = (start.nodes id).signatureShare p := by
  induction hrun with
  | start =>
    rw [hstart.silent] at hs
    simp at hs
  | act hrun other _ op _ ih =>
    rcases mem_act_sent.mp hs with hs | ⟨rfl, hs⟩
    · exact ih hs
    · have hsettled := hrun.settled hstart hid
      obtain ⟨p, -, rfl⟩ := hsettled.share_of_step hs
      exact ⟨p, signatureShare_congr hsettled.identity_eq p⟩

/-- At the start there is nothing to give evidence for. -/
theorem Start.holds (h : Start ids base start) {id : String} (hid : id ∈ ids) :
    Holds ev base (start.nodes id) := by
  refine ⟨fun hash nodeId s hs => ?_, fun k c hc => ?_, ⟨[], ?_, by simp⟩, fun topic c hc => ?_⟩
  · simp [shareAt, h.unsigned id hid] at hs
  · simp [h.unqueued id hid] at hc
  · rw [List.append_nil]
    exact h.chain id hid
  · rw [(reachable_idle (h.reachable id hid)).2.outgoing] at hc
    simp at hc

/-- What a settled node makes of an admitted operation: it keeps to the evidence, and so does
every block that it publishes. -/
theorem Settled.act_holds {id : String} {op : Node.Op} (h : Settled start net id)
    (hop : ∀ resp, op ≠ .syncResponse resp) (hbase : base ≠ [])
    (hown : ∀ p, WillSign (net.nodes id) op p →
      (Topics.signatures, Message.signatureShare ((net.nodes id).signatureShare p)) ∈
        ((net.nodes id).step op).2.1 →
      ev.share p.proposalHash (net.nodes id).nodeId ((net.nodes id).signatureShare p))
    (hin : Admits ev base (inputs (net.nodes id) op) (net.nodes id))
    (hholds : Holds ev base (net.nodes id)) :
    Holds ev base ((net.act id op).nodes id) ∧
      ∀ (topic : String) (c : Checkpoint),
        (topic, Message.commitMessage c) ∈ ((net.nodes id).step op).2.1 → ev.block c := by
  obtain ⟨m, hm⟩ := h.performs op
  have hI : ¬ (inputs (net.nodes id) op).reorg := fun ⟨resp, hresp, _⟩ => hop resp hresp
  have hmid : Holds ev base m :=
    Effects.holds hm.effects hI hbase
      (fun p hsigns hp => hown p hsigns (hm.sent_share.mpr hp)) hin hholds
  refine ⟨?_, fun topic c hc => hmid.announced topic c (hm.sent_commit.mp hc)⟩
  rw [act_nodes_self, hm.state]
  exact hmid.of_core_eq (core_drain m) fun topic c hc => by simp [drain_outgoing] at hc

end Network

end Exodus.Interface
