import Exodus.Interface.LedgerSpec
import Exodus.Interface.SampleChain
import Exodus.Model.Coordinator

/-!
# The sequence numbers of a node's claims

A `Session` follows one identity over its store through any calls of `submit_contribution`,
operations of the consensus and restarts, with all claims the node has made.  The counter
starts at 0 with every process and is not read back from the ledger, so the numbers are
used once exactly as long as all claims are made by one process.
-/

set_option autoImplicit false

namespace Exodus.Analysis

open Exodus.Library Exodus.Model Exodus.Interface

/-- What happens to a node. -/
inductive Event where
  | submit (r : Contribution) (uuid now : String)
  | consensus (op : Node.Op)
  | restart (config : ExodusConfig) (ambient : Ambient)

/-- A coordinator with the claims it and its predecessors made, and how many of them are of
the present process. -/
structure Session where
  coordinator : ExodusCoordinator
  issued : List ContributionClaim
  ofProcess : ℕ

namespace Session

variable [Crates] (s : Session)

def store : ChainStore := s.coordinator.consensus.store

/-- A first process over a store. -/
def start (identity : NodeIdentity) (store : ChainStore) (config : ExodusConfig)
    (ambient : Ambient) : Session :=
  ⟨.new identity store config ambient, [], 0⟩

/-- The claim that an event makes, if it makes one. -/
def claimOf : Event → Option ContributionClaim
  | .submit r uuid now =>
    match ExodusCoordinator.parseNames r with
    | .error _ => none
    | .ok names => some (s.coordinator.makeClaim r names uuid now)
  | _ => none

def act (e : Event) : Session :=
  match e with
  | .submit r uuid now =>
    { coordinator := (s.coordinator.submitContribution r uuid now).1
      issued := s.issued ++ (s.claimOf e).toList
      ofProcess := s.ofProcess + (s.claimOf e).toList.length }
  | .consensus op =>
    { s with coordinator.consensus := (s.coordinator.consensus.step op).1 }
  | .restart config ambient =>
    { s with
      coordinator := .new s.coordinator.identity s.store config ambient
      ofProcess := 0 }

/-- The claims of this node in the ledger have been made by it. -/
def Honest : Prop :=
  ∀ r ∈ s.store.claims, r.nodeId = s.coordinator.identity.nodeId →
    ∃ c ∈ s.issued, r.claimId = c.claimId ∧ r.seq = c.seq

/-- A property of the session holds now and after every event. -/
def Always (P : Session → Prop) : Session → List Event → Prop
  | s, [] => P s
  | s, e :: events => P s ∧ Always P (s.act e) events

/-- A property holds of every claim and the session that makes it. -/
def AtEveryClaim (P : Session → ContributionClaim → Prop) : Session → List Event → Prop
  | _, [] => True
  | s, e :: events => (∀ c, s.claimOf e = some c → P s c) ∧ AtEveryClaim P (s.act e) events

/-- The number of the claim has not been used before: by no claim the node has made, and by
no claim in its ledger. -/
def Unused (c : ContributionClaim) : Prop :=
  (∀ d ∈ s.issued, (c.nodeId, c.seq) ≠ (d.nodeId, d.seq)) ∧
    s.store.nodeSeqExists c.nodeId c.seq = false

/-- `append` does not find the number of a claim in the ledger unless it finds its id. -/
def NeverDuplicate : Prop :=
  ∀ c ∈ s.issued, s.store.claimExists c.claimId = false →
    s.store.nodeSeqExists c.nodeId c.seq = false

/-- All claims so far are of the present process, and the counter has not come round. -/
def OneProcess (_ : ContributionClaim) : Prop :=
  s.ofProcess = s.issued.length ∧ s.issued.length < 2 ^ 64

/-! ## One event -/

/-- The counter counts the claims of the process. -/
structure Counted : Prop where
  counter : s.coordinator.seq = Int64.ofNat s.ofProcess
  names : ∀ c ∈ s.issued, c.nodeId = s.coordinator.identity.nodeId
  numbers : s.issued.map ContributionClaim.seq =
    (List.range s.issued.length).map fun i => Int64.ofNat (i + 1)
  few : s.issued.length ≤ 2 ^ 64
  process : s.ofProcess = s.issued.length ∨ s.ofProcess = 0

variable {s}

/-- A first process has made no claim. -/
theorem counted_start (identity : NodeIdentity) (store : ChainStore) (config : ExodusConfig)
    (ambient : Ambient) : Counted (start identity store config ambient) :=
  ⟨rfl, by simp [start], rfl, by simp [start], .inl rfl⟩

/-- A claim has the name of the node and the next number. -/
theorem claimOf_fields {e : Event} {c : ContributionClaim} (h : s.claimOf e = some c) :
    c.nodeId = s.coordinator.identity.nodeId ∧ c.seq = s.coordinator.seq + 1 := by
  cases e with
  | submit r uuid now =>
    unfold claimOf at h
    cases hnames : ExodusCoordinator.parseNames r with
    | error e => simp [hnames] at h
    | ok names =>
      simp only [hnames, Option.some_inj] at h
      rw [← h]
      exact ⟨rfl, rfl⟩
  | consensus op => simp [claimOf] at h
  | restart config ambient => simp [claimOf] at h

/-- A restart keeps the claims and the identity, and sets the counter to 0. -/
theorem act_restart (config : ExodusConfig) (ambient : Ambient) :
    (s.act (.restart config ambient)).issued = s.issued ∧
      (s.act (.restart config ambient)).coordinator.identity = s.coordinator.identity ∧
      (s.act (.restart config ambient)).coordinator.seq = 0 := ⟨rfl, rfl, rfl⟩

/-- An event without a claim keeps the counter or sets it to 0. -/
theorem act_of_none {e : Event} (h : s.claimOf e = none) :
    (s.act e).issued = s.issued ∧ (s.act e).coordinator.identity = s.coordinator.identity ∧
      ((s.act e).coordinator.seq = s.coordinator.seq ∧ (s.act e).ofProcess = s.ofProcess ∨
        (s.act e).coordinator.seq = 0 ∧ (s.act e).ofProcess = 0) := by
  cases e with
  | submit r uuid now =>
    unfold claimOf at h
    cases hnames : ExodusCoordinator.parseNames r with
    | error e => simp [act, claimOf, ExodusCoordinator.submitContribution, hnames]
    | ok names => simp [hnames] at h
  | consensus op => exact ⟨rfl, rfl, .inl ⟨rfl, rfl⟩⟩
  | restart config ambient => exact ⟨rfl, rfl, .inr ⟨rfl, rfl⟩⟩

/-- An event with a claim counts it. -/
theorem act_of_some {e : Event} {c : ContributionClaim} (h : s.claimOf e = some c) :
    (s.act e).issued = s.issued ++ [c] ∧
      (s.act e).coordinator.identity = s.coordinator.identity ∧
      (s.act e).coordinator.seq = s.coordinator.seq + 1 ∧
      (s.act e).ofProcess = s.ofProcess + 1 := by
  cases e with
  | submit r uuid now =>
    have hclaim := h
    unfold claimOf at h
    cases hnames : ExodusCoordinator.parseNames r with
    | error e => simp [hnames] at h
    | ok names =>
      simp only [act, hclaim]
      refine ⟨rfl, ?_, ?_, rfl⟩
      · simp [ExodusCoordinator.submitContribution, hnames]
      · simp [ExodusCoordinator.submitContribution, hnames]
  | consensus op => simp [claimOf] at h
  | restart config ambient => simp [claimOf] at h

/-- An event without a claim keeps the count. -/
theorem Counted.act_none (h : s.Counted) {e : Event} (he : s.claimOf e = none) :
    (s.act e).Counted := by
  obtain ⟨hissued, hid, hcounter⟩ := act_of_none he
  refine ⟨?_, ?_, ?_, ?_, ?_⟩
  · rcases hcounter with ⟨hseq, hcount⟩ | ⟨hseq, hcount⟩
    · rw [hseq, hcount, h.counter]
    · rw [hseq, hcount]
      rfl
  · rw [hissued, hid]
    exact h.names
  · rw [hissued]
    exact h.numbers
  · rw [hissued]
    exact h.few
  · rw [hissued]
    rcases hcounter with ⟨-, hcount⟩ | ⟨-, hcount⟩
    · rw [hcount]
      exact h.process
    · exact .inr hcount

/-- So does one with a claim, as long as all claims are of one process. -/
theorem Counted.act_some (h : s.Counted) {e : Event} {c : ContributionClaim}
    (he : s.claimOf e = some c) (hone : s.OneProcess c) : (s.act e).Counted := by
  obtain ⟨hissued, hid, hseq, hcount⟩ := act_of_some he
  obtain ⟨hname, hnumber⟩ := claimOf_fields he
  have hnext : s.coordinator.seq + 1 = Int64.ofNat (s.issued.length + 1) := by
    rw [h.counter, hone.1]
    simp
  refine ⟨?_, ?_, ?_, ?_, ?_⟩
  · rw [hseq, hcount, hnext, hone.1]
  · rw [hissued, hid]
    intro d hd
    rcases List.mem_append.mp hd with hd | hd
    · exact h.names d hd
    · rw [List.mem_singleton.mp hd, hname]
  · rw [hissued, List.map_append, h.numbers, List.length_append, List.length_singleton,
      List.range_succ, List.map_append, List.map_singleton, List.map_singleton, hnumber, hnext]
  · rw [hissued, List.length_append, List.length_singleton]
    exact hone.2
  · left
    rw [hissued, hcount, hone.1, List.length_append, List.length_singleton]

omit [Crates] in
/-- Numbers up to `2 ^ 64` wrap to different values. -/
theorem ofNat_injOn {i j : ℕ} (hi : i < 2 ^ 64) (hj : j < 2 ^ 64)
    (h : Int64.ofNat (i + 1) = Int64.ofNat (j + 1)) : i = j := by
  have hbits := congrArg (fun x => x.toBitVec.toNat) h
  simp only [Int64.toBitVec_ofNat', BitVec.toNat_ofNat] at hbits
  omega

omit [Crates] in
/-- Claims of one process have different numbers. -/
theorem Counted.seqs_nodup (h : s.Counted) : (s.issued.map ContributionClaim.seq).Nodup := by
  rw [h.numbers]
  refine List.nodup_range.map_on ?_
  intro i hi j hj heq
  rw [List.mem_range] at hi hj
  exact ofNat_injOn (lt_of_lt_of_le hi h.few) (lt_of_lt_of_le hj h.few) heq

omit [Crates] in
/-- The first claim has number 1. -/
theorem Counted.exists_one (h : s.Counted) (hne : s.issued ≠ []) :
    ∃ d ∈ s.issued, d.seq = 1 := by
  have hmem : (1 : Int64) ∈ s.issued.map ContributionClaim.seq := by
    rw [h.numbers]
    exact List.mem_map.mpr ⟨0, List.mem_range.mpr (List.length_pos_of_ne_nil hne), rfl⟩
  exact List.mem_map.mp hmem

/-- The next number is one of those used when the claims are not all of this process, or
when the counter has come round. -/
theorem Counted.oneProcess_of_unused (h : s.Counted) {e : Event} {c : ContributionClaim}
    (he : s.claimOf e = some c) (hunused : s.Unused c) : s.OneProcess c := by
  obtain ⟨hname, hnumber⟩ := claimOf_fields he
  -- a claim with number 1 would repeat the first one
  have hnone (hone : c.seq = 1) : s.issued = [] := by
    by_contra hne
    obtain ⟨d, hd, hseq⟩ := h.exists_one hne
    exact hunused.1 d hd (Prod.ext (hname.trans (h.names d hd).symm) (hone.trans hseq.symm))
  have hprocess : s.ofProcess = s.issued.length := by
    rcases h.process with hall | hzero
    · exact hall
    · have hone : c.seq = 1 := by
        rw [hnumber, h.counter, hzero]
        rfl
      rw [hnone hone, hzero]
      rfl
  refine ⟨hprocess, lt_of_le_of_ne h.few ?_⟩
  intro hround
  have hone : c.seq = 1 := by
    rw [hnumber, h.counter, hprocess, hround]
    decide
  rw [hnone hone] at hround
  exact absurd hround (by decide)

/-- The next claim of the process has an unused number. -/
theorem Counted.unused_of_oneProcess (h : s.Counted) (hhonest : s.Honest) {e : Event}
    {c : ContributionClaim} (he : s.claimOf e = some c) (hone : s.OneProcess c) : s.Unused c := by
  obtain ⟨hname, hnumber⟩ := claimOf_fields he
  obtain ⟨hissued, -, -, -⟩ := act_of_some he
  have hnodup := (h.act_some he hone).seqs_nodup
  rw [hissued, List.map_append, List.map_singleton] at hnodup
  have hfresh : ∀ d ∈ s.issued, c.seq ≠ d.seq := by
    intro d hd heq
    exact List.disjoint_of_nodup_append hnodup (List.mem_map_of_mem hd) (by simp [heq])
  refine ⟨fun d hd heq => hfresh d hd (congrArg Prod.snd heq), ?_⟩
  rw [Bool.eq_false_iff, ne_eq, nodeSeqExists_iff]
  intro hmem
  obtain ⟨r, hr, heq⟩ := List.mem_map.mp hmem
  obtain ⟨hnode, hseq⟩ := Prod.mk.inj heq
  obtain ⟨d, hd, -, hseq'⟩ := hhonest r hr (hnode.trans hname)
  exact hfresh d hd (hseq.symm.trans hseq')

omit [Crates] in
/-- The ledger has no number of a claim without the claim. -/
theorem Counted.neverDuplicate (h : s.Counted) (hhonest : s.Honest) : s.NeverDuplicate := by
  intro c hc hid
  rw [Bool.eq_false_iff, ne_eq, nodeSeqExists_iff]
  intro hmem
  obtain ⟨r, hr, heq⟩ := List.mem_map.mp hmem
  obtain ⟨hnode, hseq⟩ := Prod.mk.inj heq
  obtain ⟨d, hd, hid', hseq'⟩ := hhonest r hr (hnode.trans (h.names c hc))
  -- the row is that of the claim itself
  have hsame : c = d := List.inj_on_of_nodup_map h.seqs_nodup hc hd (hseq.symm.trans hseq')
  rw [Bool.eq_false_iff, ne_eq, claimExists_iff] at hid
  apply hid
  rw [hsame, ← hid']
  exact List.mem_map_of_mem hr

/-- A start adds no claim to the ledger. -/
theorem new_claims (identity : NodeIdentity) (st : ChainStore) (config : ExodusConfig)
    (ambient : Ambient) :
    (ExodusCoordinator.new identity st config ambient).consensus.store.claims = st.claims := by
  unfold ExodusCoordinator.new Node.new
  dsimp only
  split_ifs with hheight
  · rfl
  · show (st.appended genesisCheckpoint).claims = st.claims
    unfold ChainStore.appended
    cases happend : st.append genesisCheckpoint with
    | error e => rfl
    | ok st' =>
      obtain ⟨-, -, hclaims⟩ := (append_ok_iff genesisCheckpoint).mp happend
      exact hclaims.trans (List.append_nil _)

/-- A claim that is made leaves the core of the node as it is, but for the pending claims. -/
theorem core_act_submit (r : Contribution) (uuid now : String) :
    ∃ pending, core (s.act (.submit r uuid now)).coordinator.consensus =
      { core s.coordinator.consensus with pending } := by
  have hsubmit (n : Node) (signed : SignedContribution) :
      ∃ pending, core (n.submitClaim signed).1 = { core n with pending } := by
    unfold Node.submitClaim
    split_ifs
    · exact ⟨n.pending, rfl⟩
    · exact ⟨n.pending, rfl⟩
    · exact ⟨n.pending, rfl⟩
    · exact ⟨n.pending, rfl⟩
    · exact ⟨_, rfl⟩
  unfold act
  dsimp only
  unfold ExodusCoordinator.submitContribution
  cases ExodusCoordinator.parseNames r with
  | error e => exact ⟨_, rfl⟩
  | ok names => exact hsubmit _ _

/-- Only the consensus adds claims to the ledger. -/
theorem act_claims (e : Event) (h : ∀ op, e ≠ .consensus op) :
    (s.act e).store.claims = s.store.claims := by
  cases e with
  | submit r uuid now =>
    obtain ⟨pending, hcore⟩ := core_act_submit (s := s) r uuid now
    exact congrArg (fun k : Core => k.store.claims) hcore
  | consensus op => exact absurd rfl (h op)
  | restart config ambient => exact new_claims _ _ _ _

omit [Crates] in
/-- A ledger without claims is honest. -/
theorem honest_of_no_claims (h : s.store.claims = []) : s.Honest := by
  intro r hr
  rw [h] at hr
  exact absurd hr List.not_mem_nil

/-! ## Whole runs -/

/-- The numbers of a run are unused exactly if all claims are of one process. -/
theorem Counted.run_iff (h : s.Counted) {events : List Event} (hhonest : Always Honest s events) :
    AtEveryClaim Unused s events ∧ Always NeverDuplicate s events ↔
      AtEveryClaim OneProcess s events := by
  induction events generalizing s with
  | nil => exact ⟨fun _ => trivial, fun _ => ⟨trivial, h.neverDuplicate hhonest⟩⟩
  | cons e events ih =>
    obtain ⟨hnow, hlater⟩ := hhonest
    cases he : s.claimOf e with
    | none =>
      have hrest := ih (h.act_none he) hlater
      constructor
      · rintro ⟨⟨-, hunused⟩, -, hnever⟩
        exact ⟨by simp [he], hrest.mp ⟨hunused, hnever⟩⟩
      · rintro ⟨-, hone⟩
        obtain ⟨hunused, hnever⟩ := hrest.mpr hone
        exact ⟨⟨by simp [he], hunused⟩, h.neverDuplicate hnow, hnever⟩
    | some c =>
      constructor
      · rintro ⟨⟨hc, hunused⟩, -, hnever⟩
        have hone := h.oneProcess_of_unused he (hc c he)
        have hrest := ih (h.act_some he hone) hlater
        refine ⟨?_, hrest.mp ⟨hunused, hnever⟩⟩
        intro d hd
        rw [he, Option.some_inj] at hd
        rwa [← hd]
      · rintro ⟨hc, hrest⟩
        have hone := hc c he
        obtain ⟨hunused, hnever⟩ := (ih (h.act_some he hone) hlater).mpr hrest
        refine ⟨⟨?_, hunused⟩, h.neverDuplicate hnow, hnever⟩
        intro d hd
        rw [he, Option.some_inj] at hd
        rw [← hd]
        exact h.unused_of_oneProcess hnow he hone

end Session

open Session in
/-- In every run of a node, over a ledger whose claims of the node are its own, no claim takes
a number that has been used, and `append` finds no number of a claim that is not stored,
exactly when every claim is made by the process that made all claims before it, fewer than
`2 ^ 64` of them. -/
theorem numbers_unused_iff [Crates] (identity : NodeIdentity) (store : ChainStore)
    (config : ExodusConfig) (ambient : Ambient) (events : List Event)
    (hhonest : Always Honest (start identity store config ambient) events) :
    AtEveryClaim Unused (start identity store config ambient) events ∧
        Always NeverDuplicate (start identity store config ambient) events ↔
      AtEveryClaim OneProcess (start identity store config ambient) events :=
  (counted_start identity store config ambient).run_iff hhonest

end Exodus.Analysis

/-! ## On the sample -/

namespace Exodus.Analysis

open Exodus.Library Exodus.Model Exodus.Interface Exodus.Sample Session

/-- The identity of the first node. -/
def identityA : NodeIdentity := ⟨Signer.a.nodeId, Signer.a.seed, hex Signer.a.key⟩

/-- The work of the sample's claims. -/
def contribution : Contribution where
  modelId := "m"
  paramsB := firstClaim.claim.paramsB
  precision := "fp16"
  promptTokens := 1
  completionTokens := 0
  computeSeconds := firstClaim.claim.computeSeconds
  flopsEstimate := workFlops
  deviceTier := "cpu"
  workType := "text_generation"
  startedAt := none
  endedAt := none

/-- A first process of the node. -/
noncomputable def firstProcess : Session := start identityA ChainStore.empty config (ambient "t1")

/-- Its ledger has no claim. -/
theorem firstProcess_claims : firstProcess.store.claims = [] :=
  new_claims identityA ChainStore.empty config (ambient "t1")

def firstSubmit : Event := .submit contribution "a1" "t1"

def firstArrives : Event := .consensus (.receive Topics.commits (.commitMessage firstBlock))

def secondSubmit : Event := .submit contribution "a2" "t2"

/-- A claim that was made is not in the ledger yet. -/
theorem firstSubmit_claims : (firstProcess.act firstSubmit).store.claims = [] :=
  (act_claims firstSubmit fun _ => Event.noConfusion).trans firstProcess_claims

/-- The block with the first claim of the node is appended. -/
theorem firstArrives_refines :
    Refines ((firstProcess.act firstSubmit).act firstArrives).store
      [genesisCheckpoint, firstBlock] := by
  obtain ⟨pending, hcore⟩ := core_act_submit (s := firstProcess) contribution "a1" "t1"
  have hstart : firstProcess.coordinator.consensus = fresh .a "t1" := (fresh_eq_new .a "t1").symm
  rw [hstart] at hcore
  show Refines (((firstProcess.act firstSubmit).coordinator.consensus.step
    (.receive Topics.commits (.commitMessage firstBlock))).1).store _
  rw [firstSubmit]
  generalize (firstProcess.act (.submit contribution "a1" "t1")).coordinator.consensus = n at hcore ⊢
  have hstore : n.store = (fresh .a "t1").store := congrArg Core.store hcore
  have hconfig : n.config = config := congrArg Core.config hcore
  have hcommitted : n.committedClaimIds = ∅ := congrArg Core.committedClaimIds hcore
  have hrejects : n.recentCommitRejects = [] := congrArg Core.recentCommitRejects hcore
  have hfollows : Follows n.config.flopsTolerance [genesisCheckpoint] firstBlock := by
    rw [hconfig]
    exact first_follows
  obtain ⟨st, href, heq⟩ := onCommit_of_follows (hstore ▸ fresh_refines .a "t1") hfollows
    (congrArg Core.pendingCommits hcore) (by simp [hcommitted]) (by simp [hrejects])
  have hlater : (n.onCommit firstBlock).drain.1.store = st :=
    (congrArg (fun m : Node => m.drain.1.store) heq).trans (store_announceCommit _ _)
  exact hlater ▸ href

/-- The claim in the ledger is the one that the node made. -/
theorem firstArrives_honest : ((firstProcess.act firstSubmit).act firstArrives).Honest := by
  intro r hr _
  rw [firstArrives_refines.claims_eq] at hr
  obtain rfl : r = ChainStore.claimRow firstBlock.height firstClaim.signed := List.mem_singleton.mp hr
  exact ⟨_, List.mem_singleton_self _, rfl, rfl⟩

/-- Another claim that is made keeps the ledger honest. -/
theorem Session.Honest.submit {s : Session} (h : s.Honest) (r : Contribution) (uuid now : String) :
    (s.act (.submit r uuid now)).Honest := by
  intro row hrow hid
  rw [act_claims _ fun _ => Event.noConfusion] at hrow
  have hsame : (s.act (.submit r uuid now)).coordinator.identity = s.coordinator.identity := by
    cases hclaim : s.claimOf (.submit r uuid now) with
    | none => exact (act_of_none hclaim).2.1
    | some c => exact (act_of_some hclaim).2.1
  rw [hsame] at hid
  obtain ⟨c, hc, hrest⟩ := h row hrow hid
  exact ⟨c, List.mem_append_left _ hc, hrest⟩

/-- A node makes a claim, takes the block that has it, and makes another claim. -/
def busyDay : List Event := [firstSubmit, firstArrives, secondSubmit]

/-- The ledger has claims of the node only if it made them. -/
theorem busyDay_honest : Always Honest firstProcess busyDay :=
  ⟨honest_of_no_claims firstProcess_claims, honest_of_no_claims firstSubmit_claims,
    firstArrives_honest, firstArrives_honest.submit contribution "a2" "t2"⟩

/-- Both claims are of one process and have numbers of their own. -/
theorem busyDay_unused : Always Honest firstProcess busyDay ∧
    AtEveryClaim Unused firstProcess busyDay ∧ Always NeverDuplicate firstProcess busyDay := by
  refine ⟨busyDay_honest, (numbers_unused_iff identityA ChainStore.empty config (ambient "t1")
    busyDay busyDay_honest).mpr ⟨fun c _ => ?_, fun c hc => ?_, fun c _ => ?_, trivial⟩⟩
  · exact ⟨rfl, by decide⟩
  · exact absurd hc nofun
  · exact ⟨rfl, show 1 < 2 ^ 64 by decide⟩

def restarted : Event := .restart config (ambient "t2")

/-- After the restart the second claim has the number of the first one. -/
theorem second_process_reuses :
    Always Honest firstProcess [firstSubmit, restarted, secondSubmit] ∧
      ¬AtEveryClaim Unused firstProcess [firstSubmit, restarted, secondSubmit] := by
  have hfirst : ∃ c, firstProcess.claimOf firstSubmit = some c := ⟨_, rfl⟩
  have hsecond : ∃ c, ((firstProcess.act firstSubmit).act restarted).claimOf secondSubmit =
    some c := ⟨_, rfl⟩
  have hrestarted : ((firstProcess.act firstSubmit).act restarted).store.claims = [] :=
    (act_claims restarted fun _ => Event.noConfusion).trans firstSubmit_claims
  refine ⟨⟨honest_of_no_claims firstProcess_claims, honest_of_no_claims firstSubmit_claims,
    honest_of_no_claims hrestarted, honest_of_no_claims
      ((act_claims secondSubmit fun _ => Event.noConfusion).trans hrestarted)⟩, ?_⟩
  rintro ⟨-, -, hunused, -⟩
  obtain ⟨c, hc⟩ := hfirst
  obtain ⟨d, hd⟩ := hsecond
  obtain ⟨hissued, hidentity, -⟩ := act_of_some hc
  obtain ⟨hnameC, hseqC⟩ := claimOf_fields hc
  obtain ⟨hnameD, hseqD⟩ := claimOf_fields hd
  obtain ⟨hissued', hidentity', hseq'⟩ :=
    act_restart (s := firstProcess.act firstSubmit) config (ambient "t2")
  have hzero : firstProcess.coordinator.seq = 0 := rfl
  rw [restarted] at hunused hd hnameD hseqD
  refine (hunused d hd).1 c (by rw [hissued', hissued]; simp) (Prod.ext ?_ ?_)
  · show d.nodeId = c.nodeId
    rw [hnameD, hnameC, hidentity', hidentity]
  · show d.seq = c.seq
    rw [hseqD, hseqC, hseq', hzero]

end Exodus.Analysis
