import Exodus.Analysis.Election
import Exodus.Library.FloatOrder
import Exodus.Model.Rewards

/-!
# The reward report and the chain

On a store that holds a chain, the queries of the reward engine return the claims of the chain
in its order.  The report lists every node with a claim in the chain, each of them once, by
falling totals, and a total is the sum of the compute units of the node's claims; what it
shows of a node is a second sum, rounded (`report_lists_contributors`).  Nodes with the same
head give the same report, and a new block changes the entitlements of its contributors only
(`rewards_follow_head`).
-/

set_option autoImplicit false

namespace Exodus.Analysis

open Exodus.Library Exodus.Model Exodus.Interface

/-! ## Totals by node -/

section Totals

variable (K : Type) [FloatArith K]

/-- The units of a node, added up in order. -/
def sumFor (claims : List (String × K)) (id : String) : K :=
  ((claims.filter fun c => c.1 = id).map Prod.snd).foldl (· + ·) (FloatArith.literal 0)

/-- Another claim is added to the total of its node. -/
theorem cuTotals_concat (claims : List (String × K)) (c : String × K) :
    cuTotals K (claims ++ [c]) = addCu K (cuTotals K claims) c := by
  simp [cuTotals]

/-- It is added to the sum of its node. -/
theorem sumFor_concat (claims : List (String × K)) (c : String × K) (id : String) :
    sumFor K (claims ++ [c]) id =
      if c.1 = id then sumFor K claims id + c.2 else sumFor K claims id := by
  unfold sumFor
  rw [List.filter_append]
  by_cases h : c.1 = id
  · simp [h]
  · simp [h]

/-- The loop of `verified_cu_by_node` has an entry for each node with a claim, its sum. -/
theorem cuTotals_getElem? (claims : List (String × K)) (id : String) :
    (cuTotals K claims)[id]? =
      if id ∈ claims.map Prod.fst then some (sumFor K claims id) else none := by
  induction claims using List.reverseRecOn with
  | nil => simp [cuTotals]
  | append_singleton claims c ih =>
    have hbefore : (cuTotals K claims).getD id (FloatArith.literal 0) = sumFor K claims id := by
      rw [Std.ExtTreeMap.getD_eq_getD_getElem?, ih]
      split_ifs with hmem
      · rfl
      · have hnone : claims.filter (fun c => decide (c.1 = id)) = [] := by
          apply List.filter_eq_nil_iff.mpr
          intro e he heq
          exact hmem (List.mem_map.mpr ⟨e, he, by simpa using heq⟩)
        simp [sumFor, hnone]
    rw [cuTotals_concat, addCu, Std.ExtTreeMap.getElem?_insert, sumFor_concat]
    by_cases h : c.1 = id
    · rw [if_pos (compare_eq_iff_eq.mpr h), if_pos h, if_pos (by simp [h]), h, hbefore]
    · have hne : compare c.1 id ≠ .eq := fun heq => h (compare_eq_iff_eq.mp heq)
      have hmem : id ∈ (claims ++ [c]).map Prod.fst ↔ id ∈ claims.map Prod.fst := by
        simp [Ne.symm h]
      rw [if_neg hne, if_neg h, ih]
      simp only [hmem]

/-- No node has two totals. -/
theorem nodup_keys_cuTotals (claims : List (String × K)) :
    ((cuTotals K claims).toList.map Prod.fst).Nodup := by
  have hkeys := Std.ExtTreeMap.distinct_keys_toList (t := cuTotals K claims)
  rw [List.Nodup, List.pairwise_map]
  refine hkeys.imp ?_
  intro a b hne heq
  exact hne (compare_eq_iff_eq.mpr heq)

end Totals

/-- Adding up by key and then over the keys is adding up. -/
theorem sum_by_key {claims : List (String × ℚ)} {ids : List String} (hids : ids.Nodup)
    (hall : ∀ c ∈ claims, c.1 ∈ ids) :
    (ids.map fun id => ((claims.filter fun c => c.1 = id).map Prod.snd).sum).sum =
      (claims.map Prod.snd).sum := by
  rw [← List.sum_toFinset _ hids]
  induction claims with
  | nil => simp
  | cons c rest ih =>
    have hrest := ih fun d hd => hall d (List.mem_cons_of_mem c hd)
    have hterm : ∀ id ∈ ids.toFinset,
        (((c :: rest).filter fun c => c.1 = id).map Prod.snd).sum =
          (if c.1 = id then c.2 else 0) + ((rest.filter fun c => c.1 = id).map Prod.snd).sum := by
      intro id _
      by_cases h : c.1 = id
      · simp [h]
      · simp [h]
    rw [Finset.sum_congr rfl hterm, Finset.sum_add_distrib, hrest, Finset.sum_ite_eq,
      if_pos (List.mem_toFinset.mpr (hall c List.mem_cons_self)), List.map_cons, List.sum_cons]

/-- In exact arithmetic the sum of a node is that of its units. -/
theorem sumFor_rat (claims : List (String × ℚ)) (id : String) :
    sumFor ℚ claims id = ((claims.filter fun c => c.1 = id).map Prod.snd).sum := by
  rw [List.sum_eq_foldl]
  rfl

/-- In exact arithmetic the totals of the nodes add up to the sum of all claims. -/
theorem sum_cuTotals (claims : List (String × ℚ)) :
    ((cuTotals ℚ claims).toList.map Prod.snd).sum = (claims.map Prod.snd).sum := by
  have hentry : ∀ node ∈ (cuTotals ℚ claims).toList,
      node.1 ∈ claims.map Prod.fst ∧ node.2 = sumFor ℚ claims node.1 := by
    rintro ⟨id, cu⟩ hmem
    have hget := Std.ExtTreeMap.mem_toList_iff_getElem?_eq_some.mp hmem
    rw [cuTotals_getElem?] at hget
    split_ifs at hget with hid
    exact ⟨hid, (Option.some.inj hget).symm⟩
  have hall : ∀ c ∈ claims, c.1 ∈ (cuTotals ℚ claims).toList.map Prod.fst := by
    intro c hc
    refine List.mem_map.mpr ⟨(c.1, sumFor ℚ claims c.1), ?_, rfl⟩
    rw [Std.ExtTreeMap.mem_toList_iff_getElem?_eq_some, cuTotals_getElem?,
      if_pos (List.mem_map_of_mem hc)]
  rw [← sum_by_key (nodup_keys_cuTotals ℚ claims) hall, List.map_map]
  congr 1
  apply List.map_congr_left
  intro node hnode
  rw [(hentry node hnode).2, sumFor_rat]
  rfl

/-! ## Queries on a chain -/

variable [Crates] {st st' : ChainStore} {chain : List Checkpoint} {c : Checkpoint}

/-- The rows of a block's claims are at its height. -/
theorem height_of_mem_claimRows {b : Checkpoint} {r : ClaimRow} (hr : r ∈ claimRows b) :
    r.height = b.height := by
  obtain ⟨s, -, rfl⟩ := List.mem_map.mp hr
  rfl

/-- The rows of a chain come by height. -/
theorem rows_by_height (h : LedgerChain chain) :
    (chain.flatMap claimRows).Pairwise fun a b => a.height ≤ b.height := by
  rw [List.pairwise_flatMap]
  constructor
  · intro b _
    apply List.pairwise_of_forall_mem_list
    intro r hr r' hr'
    rw [height_of_mem_claimRows hr, height_of_mem_claimRows hr']
  · refine (pairwise_height (LedgerChain.linked h)).imp ?_
    intro b b' hlt r hr r' hr'
    rw [height_of_mem_claimRows hr, height_of_mem_claimRows hr']
    exact hlt.le

/-- `all_claims` returns the claims of the chain in order. -/
theorem Refines.allClaims (h : Refines st chain) :
    st.allClaims = (chain.flatMap claimRows).map ClaimRow.record := by
  unfold ChainStore.allClaims
  rw [h.claims_eq, List.mergeSort_of_pairwise]
  refine (rows_by_height h.chain_ok).imp ?_
  intro a b hle
  simpa using hle

/-- The units of the claims of a chain, with their nodes. -/
def chainUnits (chain : List Checkpoint) : List (String × Float) :=
  (chainClaims chain).map fun s => (s.claim.nodeId, computeUnits s.claim)

/-- The ledger lists the units of the chain, in its order. -/
theorem Refines.units (h : Refines st chain) :
    (st.allClaims.map fun c => (c.nodeId, c.cu)) = chainUnits chain := by
  rw [Refines.allClaims h, chainUnits, chainClaims, List.map_map, List.map_flatMap,
    List.map_flatMap]
  congr 1
  funext b
  rw [claimRows, List.map_map]
  rfl

omit [Crates] in
/-- The nodes with units are those with a claim. -/
theorem mem_chainUnits (id : String) :
    id ∈ (chainUnits chain).map Prod.fst ↔ ∃ s ∈ chainClaims chain, s.claim.nodeId = id := by
  simp [chainUnits]

/-! ## The ranking -/

/-- Every contributor of the chain once, with the sum of its units, by falling sums. -/
structure Ranks (chain : List Checkpoint) (ranking : List (String × Float)) : Prop where
  nodup : (ranking.map Prod.fst).Nodup
  contributors : ∀ id, id ∈ ranking.map Prod.fst ↔ ∃ s ∈ chainClaims chain, s.claim.nodeId = id
  totals : ∀ id cu, (id, cu) ∈ ranking → cu = sumFor Float (chainUnits chain) id
  falling : (∀ node ∈ ranking, node.2.isNaN = false) → ranking.Pairwise fun a b => ¬ a.2 < b.2

omit [Crates] in
/-- Sorting by falling doubles, none of which is NaN. -/
theorem pairwise_falling {nodes : List (String × Float)} (h : ∀ a ∈ nodes, a.2.isNaN = false) :
    (nodes.mergeSort fun a b => !decide (a.2 < b.2)).Pairwise fun a b => ¬ a.2 < b.2 := by
  -- on these doubles the comparison is the one of the keys, which is a linear order
  have hkeys : (nodes.mergeSort fun a b => !decide (a.2 < b.2)) =
      nodes.mergeSort fun a b => decide (orderKey b.2 ≤ orderKey a.2) := by
    have hmap := List.map_mergeSort (f := id) (r := fun a b : String × Float => !decide (a.2 < b.2))
      (s := fun a b => decide (orderKey b.2 ≤ orderKey a.2)) (l := nodes) (by
        intro a ha b hb
        rw [id, id, ← decide_not, decide_eq_decide, lt_iff_orderKey_lt (h a ha) (h b hb), not_lt])
    simpa using hmap
  rw [hkeys]
  have hsorted := @List.pairwise_mergeSort _
    (fun a b : String × Float => decide (orderKey b.2 ≤ orderKey a.2))
    (fun a b c hab hbc => by
      rw [decide_eq_true_eq] at hab hbc ⊢
      exact hbc.trans hab)
    (fun a b => by simpa using le_total (orderKey b.2) (orderKey a.2)) nodes
  refine hsorted.imp_of_mem ?_
  intro a b ha hb hab
  rw [lt_iff_orderKey_lt (h a (List.mem_mergeSort.mp ha)) (h b (List.mem_mergeSort.mp hb)), not_lt]
  exact of_decide_eq_true hab

/-- The ranking of a ledger ranks the contributors of its chain. -/
theorem Refines.ranks (h : Refines st chain) : Ranks chain (RewardEngine.ranking st) := by
  have hperm : (RewardEngine.ranking st).Perm (RewardEngine.verifiedCuByNode st) :=
    List.mergeSort_perm _ _
  have hentry : ∀ id cu, (id, cu) ∈ RewardEngine.verifiedCuByNode st ↔
      id ∈ (chainUnits chain).map Prod.fst ∧ cu = sumFor Float (chainUnits chain) id := by
    intro id cu
    unfold RewardEngine.verifiedCuByNode
    rw [Refines.units h, Std.ExtTreeMap.mem_toList_iff_getElem?_eq_some, cuTotals_getElem?]
    split_ifs with hmem
    · simp [hmem, eq_comm]
    · simp [hmem]
  constructor
  · rw [(hperm.map Prod.fst).nodup_iff]
    exact nodup_keys_cuTotals Float _
  · intro id
    rw [(hperm.map Prod.fst).mem_iff, ← mem_chainUnits, List.mem_map]
    constructor
    · rintro ⟨⟨_, cu⟩, hmem, rfl⟩
      exact ((hentry _ cu).mp hmem).1
    · intro hid
      exact ⟨(id, _), (hentry id _).mpr ⟨hid, rfl⟩, rfl⟩
  · intro id cu hmem
    exact ((hentry id cu).mp (hperm.mem_iff.mp hmem)).2
  · intro hnan
    apply pairwise_falling
    intro node hnode
    exact hnan node (hperm.mem_iff.mpr hnode)

/-! ## What the engine reads -/

section Engine

variable [RewardCrates] (e : RewardEngine)

/-- An entitlement is read from the claims. -/
theorem entitlement_congr (h : st.claims = st'.claims) (id : String) (now : Option Float)
    (clock : RewardClock) : e.entitlement st id now clock = e.entitlement st' id now clock := by
  simp only [RewardEngine.entitlement, RewardEngine.ageOfLastClaim, RewardEngine.lastClaim,
    RewardEngine.lastActivity, ChainStore.allClaims, ChainStore.claimsForNode, h]

/-- So is the report. -/
theorem networkReport_congr (h : st.claims = st'.claims) (clock : String → RewardClock) :
    e.networkReport st clock = e.networkReport st' clock := by
  have hclaims : st.allClaims = st'.allClaims := by
    rw [ChainStore.allClaims, h, ChainStore.allClaims]
  have htotal : st.totalCu = st'.totalCu := by
    rw [ChainStore.totalCu, h, ChainStore.totalCu]
  have hnodes : e.participants st clock = e.participants st' clock := by
    unfold RewardEngine.participants RewardEngine.ranking RewardEngine.verifiedCuByNode
    rw [hclaims]
    apply List.map_congr_left
    intro node _
    exact entitlement_congr e h node.1 none (clock node.1)
  rw [RewardEngine.networkReport, hclaims, htotal, hnodes, RewardEngine.networkReport]

/-- A block leaves the entitlement of a node without a claim in it as it was. -/
theorem entitlement_append (h : Refines st chain) (happ : st.append c = .ok st') {id : String}
    (hnone : ∀ s ∈ c.proposal.claims, s.claim.nodeId ≠ id) (now : Option Float)
    (clock : RewardClock) : e.entitlement st' id now clock = e.entitlement st id now clock := by
  have h' : Refines st' (chain ++ [c]) := (h.append_ok happ).2
  have hrows : (claimRows c).filter (fun r => decide (r.nodeId = id)) = [] := by
    apply List.filter_eq_nil_iff.mpr
    intro r hr
    obtain ⟨s, hs, rfl⟩ := List.mem_map.mp hr
    rw [decide_eq_true_eq]
    exact hnone s hs
  have hnode : st'.claimsForNode id = st.claimsForNode id := by
    unfold ChainStore.claimsForNode
    rw [h'.claims_eq, h.claims_eq, List.flatMap_append, List.filter_append]
    simp [hrows]
  have hall : st'.allClaims.filter (fun r => decide (r.nodeId = id)) =
      st.allClaims.filter fun r => decide (r.nodeId = id) := by
    have hnew : ((claimRows c).map ClaimRow.record).filter (fun r => decide (r.nodeId = id)) = [] := by
      rw [List.filter_map]
      exact congrArg (List.map ClaimRow.record) hrows
    rw [Refines.allClaims h', Refines.allClaims h, List.flatMap_append, List.map_append,
      List.filter_append, List.flatMap_singleton, hnew, List.append_nil]
  simp only [RewardEngine.entitlement, RewardEngine.ageOfLastClaim, RewardEngine.lastClaim,
    RewardEngine.lastActivity, hnode, hall]

/-- The units of a node on a chain as `entitlement` adds them up. -/
def listedCu (chain : List Checkpoint) (id : String) : Float :=
  (((chainUnits chain).filter fun c => c.1 = id).map Prod.snd).foldl (· + ·) RewardCrates.emptySum

omit [Crates] in
/-- If the sum of nothing is `0.0`, it is the sum that the nodes are ranked by. -/
theorem listedCu_eq_sumFor (hzero : RewardCrates.emptySum = FloatArith.literal (0 : ℚ))
    (chain : List Checkpoint) (id : String) :
    listedCu chain id = sumFor Float (chainUnits chain) id := by
  rw [listedCu, hzero, sumFor]

/-- What `entitlement` shows of the compute of a node. -/
theorem verifiedCu_entitlement (h : Refines st chain) (id : String) (now : Option Float)
    (clock : RewardClock) :
    (e.entitlement st id now clock).verifiedCu = roundF64 Float (listedCu chain id) 6 := by
  have hunits : ((chainUnits chain).filter fun c => c.1 = id).map Prod.snd =
      (st.allClaims.filter fun c => c.nodeId = id).map ClaimRecord.cu := by
    rw [← Refines.units h, List.filter_map, List.map_map]
    rfl
  rw [listedCu, hunits]
  rfl

/-- The participants are those of the ranking, in its order. -/
theorem participants_listed (h : Refines st chain) (clock : String → RewardClock) :
    (e.participants st clock).map (fun p => (p.nodeId, p.verifiedCu)) =
      (RewardEngine.ranking st).map fun node =>
        (node.1, roundF64 Float (listedCu chain node.1) 6) := by
  rw [RewardEngine.participants, List.map_map]
  apply List.map_congr_left
  intro node _
  exact Prod.ext rfl (verifiedCu_entitlement e h node.1 none (clock node.1))

end Engine

/-! ## Reachable nodes -/

variable [RewardCrates] {n m : Node}

/-- The units of a claim in exact arithmetic, with its node. -/
def exactUnits (chain : List Checkpoint) : List (String × ℚ) :=
  (chainClaims chain).map fun s => (s.claim.nodeId, computeUnitsIn ℚ s.claim)

/-- The report of a reachable node has the contributors of its chain, by falling totals; it
shows the sum of the units of each of them, rounded to six digits, which are those of the total
where the sum of nothing is `0.0`; and the exact totals add up to the units of all claims. -/
theorem report_lists_contributors (hn : Node.Reachable n) (e : RewardEngine)
    (clock : String → RewardClock) :
    ∃ chain, Refines n.store chain ∧ Ranks chain (RewardEngine.ranking n.store) ∧
      (e.participants n.store clock).map (fun p => (p.nodeId, p.verifiedCu)) =
        (RewardEngine.ranking n.store).map (fun node =>
          (node.1, roundF64 Float (listedCu chain node.1) 6)) ∧
      (RewardCrates.emptySum = FloatArith.literal (0 : ℚ) →
        ∀ node ∈ RewardEngine.ranking n.store, listedCu chain node.1 = node.2) ∧
      n.store.allClaims.length = (chainClaims chain).length ∧
      ((cuTotals ℚ (exactUnits chain)).toList.map Prod.snd).sum =
        ((chainClaims chain).map fun s => computeUnitsIn ℚ s.claim).sum := by
  obtain ⟨chain, hchain⟩ := (reachable_idle hn).1.chain
  replace hchain : Refines n.store chain := hchain
  have hranks := Refines.ranks hchain
  refine ⟨chain, hchain, hranks, participants_listed e hchain clock, ?_, ?_, ?_⟩
  · intro hzero node hnode
    rw [listedCu_eq_sumFor hzero, hranks.totals node.1 node.2 hnode]
  · have hlength := congrArg List.length (Refines.units hchain)
    simpa [chainUnits] using hlength
  · rw [sum_cuTotals, exactUnits, List.map_map]
    rfl

variable [SerdeReadsBack] [RyuReadsBack]

/-- The head decides what a node reports, and a block changes the entitlement of nobody but the
nodes with a claim in it. -/
theorem rewards_follow_head (hsha : Sha256CollisionFree) (hn : Node.Reachable n)
    (hm : Node.Reachable m) {a b : Checkpoint} (ha : n.store.head = some a)
    (hb : m.store.head = some b) (hhash : a.blockHash = b.blockHash) (e : RewardEngine) :
    (∀ clock, e.networkReport n.store clock = e.networkReport m.store clock) ∧
      (∀ id now clock, e.entitlement n.store id now clock = e.entitlement m.store id now clock) ∧
      ∀ c st', n.store.append c = .ok st' → ∀ id,
        (∀ s ∈ c.proposal.claims, s.claim.nodeId ≠ id) → ∀ now clock,
          e.entitlement st' id now clock = e.entitlement m.store id now clock := by
  obtain ⟨A, hA⟩ := (reachable_idle hn).1.chain
  obtain ⟨B, hB⟩ := (reachable_idle hm).1.chain
  replace hA : Refines n.store A := hA
  replace hB : Refines m.store B := hB
  have hclaims := claims_congr hA hB (content_eq_of_head_eq hsha hA hB ha hb hhash)
  refine ⟨networkReport_congr e hclaims, entitlement_congr e hclaims, ?_⟩
  intro c st' happ id hnone now clock
  rw [entitlement_append e hA happ hnone, entitlement_congr e hclaims]

end Exodus.Analysis

/-! ## On the sample -/

namespace Exodus.Sample

open Exodus.Library Exodus.Model

/-- The powers and logarithms of the platform; the times of the sample are no dates. -/
scoped instance : RewardCrates where
  powf := Float.pow
  log2 := Float.log2
  emptySum := 0.0
  parseRfc3339 _ := none

def engine : RewardEngine := ⟨⟨1.0, 1.0, 3600.0, 60.0, 1.0, 5⟩⟩

/-- A clock that stands still. -/
def stopped : RewardClock := ⟨fun _ => ⟨0, 0⟩, ⟨0, 0⟩⟩

end Exodus.Sample

namespace Exodus.Analysis

open Exodus.Library Exodus.Model Exodus.Interface Exodus.Sample

/-- The report of a node with the first block shows what it is ranked by. -/
theorem first_reported : ∃ chain, Refines (after firstBlock .a "t1").store chain ∧
    Ranks chain (RewardEngine.ranking (after firstBlock .a "t1").store) ∧
    (engine.participants (after firstBlock .a "t1").store fun _ => stopped).map
        (fun p => (p.nodeId, p.verifiedCu)) =
      (RewardEngine.ranking (after firstBlock .a "t1").store).map fun node =>
        (node.1, roundF64 Float node.2 6) := by
  obtain ⟨chain, href, hranks, hlisted, hsame, -⟩ :=
    report_lists_contributors (after_reachable firstBlock .a "t1") engine fun _ => stopped
  refine ⟨chain, href, hranks, hlisted.trans (List.map_congr_left fun node hnode => ?_)⟩
  rw [hsame (by decide +kernel) node hnode]

/-- A node that has taken the first block has it as its head. -/
theorem after_first_head (s : Signer) (time : String) :
    (after firstBlock s time).store.head = some (readBack firstBlock) :=
  (after_spec first_follows s time).1.head

/-- Two nodes that received the block give the same report. -/
theorem first_rewards : engine.networkReport (after firstBlock .a "t1").store (fun _ => stopped) =
    engine.networkReport (after firstBlock .b "t2").store fun _ => stopped :=
  (rewards_follow_head sha256_injective (after_reachable firstBlock .a "t1")
    (after_reachable firstBlock .b "t2") (after_first_head .a "t1") (after_first_head .b "t2") rfl
    engine).1 _

end Exodus.Analysis
