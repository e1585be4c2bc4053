import Exodus.Analysis.Plausibility
import Exodus.Interface.SampleChain

/-!
# The credit that a block brings

In exact rational arithmetic.  `compute_units` adds to the inference share of a claim a
standby part, the smaller one of a rate on the claimed seconds and a quarter of the share.
The check of the FLOPS constrains neither the sign of the seconds nor that of the tokens, so
the credit of an accepted claim can be negative.  `fair_credit_iff` says that these two signs
are all that is missing.
-/

set_option autoImplicit false

namespace Exodus.Analysis

open Exodus.Library Exodus.Model Exodus.Interface

variable {claim : ContributionClaim} {t : ℚ}

/-! ## One claim -/

/-- The inference part of the credit. -/
def share (claim : ContributionClaim) : ℚ := expectedFlops ℚ claim / 1000000000000

/-- The part for the claimed time, before it is capped. -/
def standbyRaw (claim : ContributionClaim) : ℚ :=
  seconds claim * deviceTierTimeWeight ℚ claim.deviceTier * (1 / 1000000)

/-- The compute units before they are rounded. -/
def credit (claim : ContributionClaim) : ℚ :=
  share claim + min (standbyRaw claim) (share claim * (1 / 4))

/-- The number of tokens, a generated one counted twice. -/
def tokens (claim : ContributionClaim) : ℚ :=
  claim.promptTokens.toInt + claim.completionTokens.toInt * 2

/-- The claim is for a positive amount of work, in no negative time. -/
structure Credible (claim : ContributionClaim) : Prop where
  work_pos : 0 < exactValue claim.paramsB.1 * tokens claim
  seconds_nonneg : 0 ≤ seconds claim

/-- What is stored for a claim is its credit, rounded to nine decimals. -/
theorem computeUnitsIn_eq (claim : ContributionClaim) :
    computeUnitsIn ℚ claim = roundF64 ℚ (credit claim) 9 := by
  have hmin (a b : ℚ) : FloatArith.min a b = min a b := by
    show (if b < a then b else a) = min a b
    rw [min_comm, min_def_lt]
  have hunits : computeUnitsIn ℚ claim = roundF64 ℚ (share claim +
      FloatArith.min (standbyRaw claim) (share claim * (1 / 4))) 9 := rfl
  rw [hunits, hmin, credit]

/-- The factor of a precision is positive. -/
theorem factor_pos (p : Precision) : 0 < p.factor ℚ := by
  cases p <;> decide +kernel

/-- So is the weight of a device. -/
theorem deviceTierTimeWeight_pos (tier : DeviceTier) : 0 < deviceTierTimeWeight ℚ tier := by
  cases tier <;> decide +kernel

/-- The expected FLOPS are a multiple of the work. -/
theorem expectedFlops_eq (claim : ContributionClaim) :
    expectedFlops ℚ claim = 2 * 1000000000 * claim.precision.factor ℚ *
      (exactValue claim.paramsB.1 * tokens claim) := by
  have hunfold : expectedFlops ℚ claim = 2 * exactValue claim.paramsB.1 * 1000000000 *
      tokens claim * claim.precision.factor ℚ := rfl
  rw [hunfold]
  ring

/-- The share is positive exactly for a positive amount of work. -/
theorem share_pos_iff (claim : ContributionClaim) :
    0 < share claim ↔ 0 < exactValue claim.paramsB.1 * tokens claim := by
  have hscale : 0 < 2 * 1000000000 * claim.precision.factor ℚ :=
    mul_pos (by norm_num) (factor_pos claim.precision)
  rw [share, expectedFlops_eq, div_pos_iff_of_pos_right (by norm_num),
    mul_pos_iff_of_pos_left hscale]

/-- The standby part is not negative if the time is not. -/
theorem standbyRaw_nonneg_iff (claim : ContributionClaim) :
    0 ≤ standbyRaw claim ↔ 0 ≤ seconds claim := by
  have hrate : 0 < deviceTierTimeWeight ℚ claim.deviceTier * (1 / 1000000) :=
    mul_pos (deviceTierTimeWeight_pos claim.deviceTier) (by norm_num)
  rw [standbyRaw, mul_assoc, mul_nonneg_iff_of_pos_right hrate]

/-- A credit is between the share and five quarters of it. -/
def WithinShare (claim : ContributionClaim) : Prop :=
  share claim ≤ credit claim ∧ credit claim ≤ 5 / 4 * share claim

/-- A claim stays within its share if it is credible. -/
theorem withinShare_iff (hne : expectedFlops ℚ claim ≠ 0) :
    WithinShare claim ↔ Credible claim := by
  have hshare : share claim ≠ 0 := div_ne_zero hne (by norm_num)
  constructor
  · intro h
    have hmin : 0 ≤ min (standbyRaw claim) (share claim * (1 / 4)) := by
      have hlow := h.1
      rw [credit] at hlow
      linarith
    obtain ⟨hraw, hcap⟩ := le_min_iff.mp hmin
    have hpos : 0 < share claim := lt_of_le_of_ne (by linarith) hshare.symm
    exact ⟨(share_pos_iff claim).mp hpos, (standbyRaw_nonneg_iff claim).mp hraw⟩
  · intro h
    have hpos := (share_pos_iff claim).mpr h.work_pos
    have hraw := (standbyRaw_nonneg_iff claim).mpr h.seconds_nonneg
    have hlow : 0 ≤ min (standbyRaw claim) (share claim * (1 / 4)) :=
      le_min hraw (by linarith)
    have hhigh := min_le_right (standbyRaw claim) (share claim * (1 / 4))
    constructor
    · rw [credit]
      linarith
    · rw [credit]
      linarith

/-- Rounding keeps the sign. -/
theorem roundF64_nonneg {x : ℚ} (hx : 0 ≤ x) : 0 ≤ roundF64 ℚ x 9 := by
  have hunfold : roundF64 ℚ x 9 = (roundHalfEven (x * 10 ^ 9) : ℚ) / 10 ^ 9 := rfl
  have hfloor : 0 ≤ (x * 10 ^ 9).floor := Rat.le_floor_iff.mpr (by simpa using hx)
  have hround : 0 ≤ roundHalfEven (x * 10 ^ 9) := by
    unfold roundHalfEven
    dsimp only
    split_ifs
    · exact hfloor
    · omega
    · exact hfloor
    · omega
  rw [hunfold]
  exact div_nonneg (by exact_mod_cast hround) (by norm_num)

/-- Credible claims have no negative units. -/
theorem computeUnitsIn_nonneg (h : Credible claim) : 0 ≤ computeUnitsIn ℚ claim := by
  have hpos := (share_pos_iff claim).mpr h.work_pos
  have hraw := (standbyRaw_nonneg_iff claim).mpr h.seconds_nonneg
  rw [computeUnitsIn_eq]
  apply roundF64_nonneg
  exact add_nonneg hpos.le (le_min hraw (by linarith))

/-! ## Acceptance in exact arithmetic -/

variable [Crates] {tol : Float} {st st' : ChainStore} {chain : List Checkpoint} {c : Checkpoint}
  {n : Node} {nodeId : String}

/-- The rules of `validate_checkpoint` on a chain, with the FLOPS check in exact arithmetic. -/
structure AcceptedExactly (t : ℚ) (chain : List Checkpoint) (c : Checkpoint) : Prop where
  height_eq : c.height = chain.length
  prevHash_eq : c.proposal.prevHash = headHash chain
  epoch_advances : ∀ tip ∈ chain.getLast?, tip.epoch < c.epoch
  nonempty : c.proposal.claims ≠ []
  verified : ∀ s ∈ c.proposal.claims, s.verify = true
  flops_ok : ∀ s ∈ c.proposal.claims, flopsIsPlausibleIn ℚ s.claim t = true
  timely : ∀ s ∈ c.proposal.claims, s.claim.lastSeenCheckpointHeight.toInt < chain.length
  ids_nodup : c.proposal.claimIds.Nodup
  seqs_change : ∀ nodeId, (seqsOf c.proposal.claims nodeId).IsChain (· ≠ ·)
  signed : Signed c

/-- The two checks agree on the claims of the block. -/
def ChecksAgree (tol : Float) (t : ℚ) (c : Checkpoint) : Prop :=
  ∀ s ∈ c.proposal.claims, flopsIsPlausible s.claim tol = flopsIsPlausibleIn ℚ s.claim t

/-- Where the check on doubles agrees with the exact one, a block other than genesis is
accepted as `validate_checkpoint` accepts it. -/
theorem validateCheckpoint_ok_iff_exactly [SerdeReadsBack] (h : Refines st chain)
    (hgenesis : isCanonicalGenesis c.proposal = false) (hagree : ChecksAgree tol t c) (q : ℕ) :
    (∃ seen, validateCheckpoint c st tol q false none = .ok seen) ↔ AcceptedExactly t chain c := by
  rw [h.validateCheckpoint_ok_iff c q none rfl]
  constructor
  · rintro (hg | ⟨-, hp, hs⟩)
    · rw [hgenesis] at hg
      cases hg
    · have heach := hp.claims.each
      refine ⟨hp.height_eq, hp.prevHash_eq, hp.epoch_advances, hp.nonempty rfl,
        fun s hs => (heach s hs).verified, ?_, ?_, hp.claims.ids_nodup, hp.claims.seqs_change, hs⟩
      · intro s hs
        rw [← hagree s hs]
        exact (heach s hs).flops_ok
      · intro s hs
        have htimely := (heach s hs).timely
        omega
  · intro ha
    refine .inr ⟨hgenesis, ⟨ha.height_eq, ha.prevHash_eq, ha.epoch_advances,
      fun _ => ha.nonempty, ?_, ?_, ha.ids_nodup, ha.seqs_change⟩, ha.signed⟩
    · intro s hs
      refine ⟨ha.verified s hs, ?_, ?_⟩
      · rw [hagree s hs]
        exact ha.flops_ok s hs
      · have htimely := ha.timely s hs
        omega
    · intro s hs
      exact Finset.notMem_empty _

/-! ## Totals -/

/-- The compute units of a stored claim in exact arithmetic. -/
def exactCu (r : ClaimRow) : ℚ :=
  match (Crates.jsonFromStr r.claimJson).bind ContributionClaim.fromValue with
  | some claim => computeUnitsIn ℚ claim
  | none => 0

/-- `total_cu_for_node` in exact arithmetic. -/
def exactTotalCuForNode (st : ChainStore) (nodeId : String) : ℚ :=
  ((st.claims.filter fun r => r.nodeId = nodeId).map exactCu).sum

/-- The claims of a node in a block. -/
def claimsOfNode (c : Checkpoint) (nodeId : String) : List SignedContribution :=
  c.proposal.claims.filter fun s => s.claim.nodeId = nodeId

/-- What the appended block is to do to the totals: a claim adds its credit, rounded, which
is within its share. -/
structure FairCredit (st st' : ChainStore) (c : Checkpoint) : Prop where
  grows : ∀ nodeId, exactTotalCuForNode st nodeId ≤ exactTotalCuForNode st' nodeId
  others : ∀ nodeId, (∀ s ∈ c.proposal.claims, s.claim.nodeId ≠ nodeId) →
    exactTotalCuForNode st' nodeId = exactTotalCuForNode st nodeId
  adds : ∀ nodeId, exactTotalCuForNode st' nodeId = exactTotalCuForNode st nodeId +
    ((claimsOfNode c nodeId).map fun s => roundF64 ℚ (credit s.claim) 9).sum
  within : ∀ s ∈ c.proposal.claims, WithinShare s.claim

variable [SerdeReadsBack]

/-- The units of a row are the rounded credit of its claim. -/
theorem exactCu_claimRow (height : ℤ) (s : SignedContribution) :
    exactCu (ChainStore.claimRow height s) = roundF64 ℚ (credit s.claim) 9 := by
  have hread : Crates.jsonFromStr (ChainStore.claimRow height s).claimJson =
      some s.claim.toValue :=
    SerdeReadsBack.from_to _ (contributionClaim_toValue_wellFormed s.claim)
  rw [exactCu, hread, Option.bind_some, contributionClaim_fromValue_toValue]
  exact computeUnitsIn_eq s.claim

/-- An appended block adds the rounded credits of its claims. -/
theorem exactTotal_append (h : Refines st chain) (happ : st.append c = .ok st')
    (nodeId : String) :
    exactTotalCuForNode st' nodeId = exactTotalCuForNode st nodeId +
      ((claimsOfNode c nodeId).map fun s => roundF64 ℚ (credit s.claim) 9).sum := by
  have hrows : st'.claims = st.claims ++ claimRows c := by
    rw [(h.append_ok happ).2.claims_eq, h.claims_eq]
    simp
  have hnode : (claimRows c).filter (fun r => r.nodeId = nodeId) =
      (claimsOfNode c nodeId).map (ChainStore.claimRow c.height) := by
    unfold claimRows claimsOfNode
    rw [List.filter_map]
    rfl
  unfold exactTotalCuForNode
  rw [hrows, List.filter_append, List.map_append, List.sum_append, hnode, List.map_map]
  congr 2
  apply List.map_congr_left
  intro s _
  exact exactCu_claimRow c.height s

/-- On a store that holds a chain, a block that is accepted and appended is credited fairly
exactly when its claims are credible. -/
theorem Refines.fairCredit_iff (h : Refines st chain)
    (hacc : isCanonicalGenesis c.proposal = true ∨ AcceptedExactly t chain c)
    (happ : st.append c = .ok st') :
    FairCredit st st' c ↔ ∀ s ∈ c.proposal.claims, Credible s.claim := by
  have hne : ∀ s ∈ c.proposal.claims, expectedFlops ℚ s.claim ≠ 0 := by
    intro s hs
    rcases hacc with hg | hacc
    · rw [(isCanonicalGenesis_iff _).mp hg] at hs
      cases hs
    · exact ((flopsIsPlausibleIn_iff s.claim t).mp (hacc.flops_ok s hs)).2.1
  constructor
  · intro hfair s hs
    exact (withinShare_iff (hne s hs)).mp (hfair.within s hs)
  · intro hcredible
    have hadds := exactTotal_append h happ
    refine ⟨?_, ?_, hadds, fun s hs => (withinShare_iff (hne s hs)).mpr (hcredible s hs)⟩
    · intro nodeId
      rw [hadds nodeId]
      apply le_add_of_nonneg_right
      apply List.sum_nonneg
      intro x hx
      obtain ⟨s, hs, rfl⟩ := List.mem_map.mp hx
      rw [← computeUnitsIn_eq]
      exact computeUnitsIn_nonneg (hcredible s (List.mem_of_mem_filter hs))
    · intro nodeId hnone
      have hempty : claimsOfNode c nodeId = [] := by
        apply List.filter_eq_nil_iff.mpr
        intro s hs
        simpa using hnone s hs
      rw [hadds nodeId, hempty, List.map_nil, List.sum_nil, add_zero]

/-- A reachable store holds a chain, and for every block that is accepted on it in exact
arithmetic and appended, the totals change as they should exactly when each claim of the block
is for a positive amount of work in no negative time. -/
theorem fair_credit_iff (hn : Node.Reachable n) :
    (∃ chain, Refines n.store chain) ∧
    ∀ (chain : List Checkpoint) (t : ℚ) (c : Checkpoint) (st' : ChainStore),
      Refines n.store chain →
      (isCanonicalGenesis c.proposal = true ∨ AcceptedExactly t chain c) →
      n.store.append c = .ok st' →
      (FairCredit n.store st' c ↔ ∀ s ∈ c.proposal.claims, Credible s.claim) := by
  refine ⟨(reachable_idle hn).1.chain, ?_⟩
  intro chain t c st' h hacc happ
  exact Refines.fairCredit_iff h hacc happ

end Exodus.Analysis

/-! ## On the sample -/

namespace Exodus.Analysis

open Exodus.Library Exodus.Model Exodus.Interface Exodus.Sample Signer

/-- A block of one claim of the sample that follows genesis is accepted in exact arithmetic. -/
theorem acceptedExactly_of_follows {c : Checkpoint} {k : Claim}
    (hf : Follows tolerance [genesisCheckpoint] c)
    (hgenesis : isCanonicalGenesis c.proposal = false) (hclaims : c.proposal.claims = [k.signed])
    (hagree : flopsIsPlausible k.claim tolerance = flopsIsPlausibleIn ℚ k.claim (1 / 2)) :
    AcceptedExactly (1 / 2) [genesisCheckpoint] c := by
  have href := fresh_refines a "t1"
  have hchecks : ChecksAgree tolerance (1 / 2) c := by
    intro s hs
    rw [hclaims, List.mem_singleton] at hs
    rw [hs]
    exact hagree
  exact (validateCheckpoint_ok_iff_exactly href hgenesis hchecks 1).mp
    ((href.validateCheckpoint_ok_iff c 1 none rfl).mpr hf.passes)

/-- The first block gives fair credit. -/
theorem first_fair : ∃ st', (fresh a "t1").store.append firstBlock = .ok st' ∧
    FairCredit (fresh a "t1").store st' firstBlock := by
  have href := fresh_refines a "t1"
  obtain ⟨st', happ⟩ := href.append_extends first_follows.can_append
  have hacc := acceptedExactly_of_follows (k := firstClaim) first_follows (by decide) rfl
    (by decide +kernel)
  obtain ⟨-, hiff⟩ := fair_credit_iff (fresh_reachable a "t1")
  refine ⟨st', happ, (hiff _ (1 / 2) firstBlock st' href (.inr hacc) happ).mpr ?_⟩
  intro s hs
  obtain rfl : s = firstClaim.signed := by simpa [firstBlock, firstProposal] using hs
  exact ⟨by decide +kernel, by decide +kernel⟩

/-- A claim for a negative time is accepted and lowers the total of its node. -/
theorem debt_lowers_total : ∃ st', (fresh a "t1").store.append debtBlock = .ok st' ∧
    (∃ seen, validateCheckpoint debtBlock (fresh a "t1").store tolerance 1 false none = .ok seen) ∧
    AcceptedExactly (1 / 2) [genesisCheckpoint] debtBlock ∧
    exactTotalCuForNode st' a.nodeId < exactTotalCuForNode (fresh a "t1").store a.nodeId := by
  have href := fresh_refines a "t1"
  obtain ⟨st', happ⟩ := href.append_extends debt_follows.can_append
  have hacc := acceptedExactly_of_follows (k := debtClaim) debt_follows (by decide) rfl
    (by decide +kernel)
  refine ⟨st', happ, (href.validateCheckpoint_ok_iff debtBlock 1 none rfl).mpr debt_follows.passes,
    hacc, ?_⟩
  have hclaims : claimsOfNode debtBlock a.nodeId = [debtClaim.signed] := by decide +kernel
  have hdebt : roundF64 ℚ (credit debtClaim.signed.claim) 9 < 0 := by decide +kernel
  rw [exactTotal_append href happ, hclaims, List.map_singleton, List.sum_singleton]
  linarith

end Exodus.Analysis
