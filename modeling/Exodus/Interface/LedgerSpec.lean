import Exodus.Model.Ledger

/-!
# What the writes of the ledger do to the tables

One specification for each write.  `ChainStore` carries the schema's constraints,
so an insert succeeds exactly when some contents of the tables has the new row at
the end: `append_ok_iff` needs no separate account of the errors of SQLite.
-/

set_option autoImplicit false

namespace Exodus.Interface

open Exodus.Library Exodus.Model

variable [Crates] {st st' : ChainStore}

/-- The rows of a block's claims. -/
def claimRows (c : Checkpoint) : List ClaimRow := c.proposal.claims.map (ChainStore.claimRow c.height)

omit [Crates] in
/-- A block row is inserted exactly if the table with it is a store: its keys are unique. -/
theorem insertBlock_ok_iff (row : BlockRow) :
    st.insertBlock row = .ok st' ↔
      st'.blocks = st.blocks ++ [row] ∧ st'.claims = st.claims := by
  constructor
  · intro h
    unfold ChainStore.insertBlock at h
    split_ifs at h
    cases h
    exact ⟨rfl, rfl⟩
  · rintro ⟨hb, hc⟩
    have hheight := st'.heights_nodup
    have hhash := st'.hashes_nodup
    simp only [hb, List.map_append, List.map_cons, List.map_nil] at hheight hhash
    unfold ChainStore.insertBlock
    rw [dif_neg (List.disjoint_right.mp (List.disjoint_of_nodup_append hheight) (by simp)),
      dif_neg (List.disjoint_right.mp (List.disjoint_of_nodup_append hhash) (by simp))]
    exact congrArg Except.ok (ChainStore.ext hb.symm hc.symm)

omit [Crates] in
/-- A claim row is inserted exactly if the table with it is a store: its keys are unique, and its
units are a number. -/
theorem insertClaim_ok_iff (row : ClaimRow) :
    st.insertClaim row = .ok st' ↔
      st'.blocks = st.blocks ∧ st'.claims = st.claims ++ [row] := by
  constructor
  · intro h
    unfold ChainStore.insertClaim at h
    split_ifs at h
    cases h
    exact ⟨rfl, rfl⟩
  · rintro ⟨hb, hc⟩
    have hid := st'.claimIds_nodup
    have hpair := st'.nodeSeqs_nodup
    have hcu : row.cu.isNaN = false := st'.cu_notNull row (by simp [hc])
    simp only [hc, List.map_append, List.map_cons, List.map_nil] at hid hpair
    unfold ChainStore.insertClaim
    rw [dif_neg (Bool.eq_false_iff.mp hcu),
      dif_neg (List.disjoint_right.mp (List.disjoint_of_nodup_append hid) (by simp)),
      dif_neg (List.disjoint_right.mp (List.disjoint_of_nodup_append hpair) (by simp))]
    exact congrArg Except.ok (ChainStore.ext hb.symm hc.symm)

/-- A list of rows can be cut down to its first ones. -/
def ChainStore.withClaims (st : ChainStore) (rows : List ClaimRow) (h : rows <+: st.claims) :
    ChainStore :=
  { st with
    claims := rows
    claimIds_nodup := st.claimIds_nodup.sublist (h.sublist.map _)
    nodeSeqs_nodup := st.nodeSeqs_nodup.sublist (h.sublist.map _)
    cu_notNull := fun r hr => st.cu_notNull r (h.subset hr) }

/-- Claim rows are inserted one by one. -/
theorem insertClaims_ok_iff (height : ℤ) (claims : List SignedContribution) :
    ChainStore.insertClaims height claims st = .ok st' ↔
      st'.blocks = st.blocks ∧
        st'.claims = st.claims ++ claims.map (ChainStore.claimRow height) := by
  induction claims generalizing st with
  | nil =>
    simp only [ChainStore.insertClaims, Except.ok.injEq, List.map_nil, List.append_nil]
    exact ⟨fun h => by simp [h], fun h => ChainStore.ext h.1.symm h.2.symm⟩
  | cons s rest ih =>
    unfold ChainStore.insertClaims
    constructor
    · intro h
      cases hi : st.insertClaim (ChainStore.claimRow height s) with
      | error e => simp [hi] at h
      | ok st₁ =>
        obtain ⟨hb, hc⟩ := (insertClaim_ok_iff _).mp hi
        simp only [hi] at h
        obtain ⟨hb', hc'⟩ := ih.mp h
        exact ⟨hb'.trans hb, by simp [hc', hc]⟩
    · rintro ⟨hb, hc⟩
      -- the tables after the first of the inserts
      have hfirst : st.claims ++ [ChainStore.claimRow height s] <+: st'.claims := by
        rw [hc, List.map_cons]
        exact ⟨rest.map (ChainStore.claimRow height), by simp⟩
      have hi : st.insertClaim (ChainStore.claimRow height s) =
          .ok (ChainStore.withClaims st' _ hfirst) :=
        (insertClaim_ok_iff _).mpr ⟨hb, rfl⟩
      simp only [hi]
      exact ih.mpr ⟨rfl, by simp [ChainStore.withClaims, hc]⟩

/-- A block is inserted with its claims. -/
theorem insertCheckpoint_ok_iff (c : Checkpoint) :
    st.insertCheckpoint c = .ok st' ↔
      st'.blocks = st.blocks ++ [ChainStore.blockRow c] ∧
        st'.claims = st.claims ++ claimRows c := by
  unfold ChainStore.insertCheckpoint
  constructor
  · intro h
    cases hi : st.insertBlock (ChainStore.blockRow c) with
    | error e => simp [hi] at h
    | ok st₁ =>
      obtain ⟨hb, hc⟩ := (insertBlock_ok_iff _).mp hi
      simp only [hi] at h
      obtain ⟨hb', hc'⟩ := (insertClaims_ok_iff _ _).mp h
      exact ⟨hb'.trans hb, by rw [hc', hc, claimRows]⟩
  · rintro ⟨hb, hc⟩
    have hfirst : st.claims <+: st'.claims := ⟨claimRows c, hc.symm⟩
    have hi : st.insertBlock (ChainStore.blockRow c) =
        .ok (ChainStore.withClaims st' _ hfirst) :=
      (insertBlock_ok_iff _).mpr ⟨hb, rfl⟩
    simp only [hi]
    exact (insertClaims_ok_iff _ _).mpr ⟨rfl, hc⟩

omit [Crates] in
/-- A claim exists if its id is in the table. -/
theorem claimExists_iff (claimId : String) :
    st.claimExists claimId = true ↔ claimId ∈ st.claims.map ClaimRow.claimId := by
  simp [ChainStore.claimExists, List.any_eq_true]

omit [Crates] in
/-- A number exists if its pair is in the table. -/
theorem nodeSeqExists_iff (nodeId : String) (seq : Int64) :
    st.nodeSeqExists nodeId seq = true ↔ (nodeId, seq) ∈ st.claims.map ClaimRow.nodeSeq := by
  simp [ChainStore.nodeSeqExists, List.any_eq_true, ClaimRow.nodeSeq]

omit [Crates] in
/-- Claims are fresh if neither their ids nor their pairs exist. -/
theorem checkFresh_ok_iff (claims : List SignedContribution) :
    st.checkFresh claims = .ok () ↔
      ∀ s ∈ claims, st.claimExists s.claim.claimId = false ∧
        st.nodeSeqExists s.claim.nodeId s.claim.seq = false := by
  induction claims with
  | nil => simp [ChainStore.checkFresh]
  | cons s rest ih =>
    unfold ChainStore.checkFresh
    split_ifs with hid hpair
    · simp [hid]
    · simp [hpair]
    · simp [ih, hid, hpair]

/-- The hash a new block has to name, if the head row is there. -/
def expectedPrev (st : ChainStore) : Option String :=
  match st.headLocked with
  | some h => st.blockHashLocked h
  | none => some genesisPrevHash

/-- Claim rows that the schema allows pass the duplicate checks before the transaction. -/
theorem checkFresh_of_claims_eq {c : Checkpoint} (hc : st'.claims = st.claims ++ claimRows c) :
    st.checkFresh c.proposal.claims = .ok () := by
  rw [checkFresh_ok_iff]
  intro s hs
  have hid := st'.claimIds_nodup
  have hpair := st'.nodeSeqs_nodup
  simp only [hc, List.map_append] at hid hpair
  have hrow : ChainStore.claimRow c.height s ∈ claimRows c := List.mem_map_of_mem hs
  constructor
  · rw [Bool.eq_false_iff, ne_eq, claimExists_iff]
    exact List.disjoint_right.mp (List.disjoint_of_nodup_append hid) (List.mem_map_of_mem hrow)
  · rw [Bool.eq_false_iff, ne_eq, nodeSeqExists_iff]
    exact List.disjoint_right.mp (List.disjoint_of_nodup_append hpair) (List.mem_map_of_mem hrow)

/-- What `append` asks of a block once the previous hash is known. -/
theorem appendAfter_ok_iff (prev : String) (c : Checkpoint) :
    st.appendAfter prev c = .ok st' ↔
      (prev = c.proposal.prevHash ∧ 0 ≤ c.epoch) ∧
        st'.blocks = st.blocks ++ [ChainStore.blockRow c] ∧
        st'.claims = st.claims ++ claimRows c := by
  rw [← insertCheckpoint_ok_iff]
  unfold ChainStore.appendAfter
  by_cases hp : c.proposal.prevHash = prev
  case neg => simp [hp, Ne.symm hp]
  by_cases he : c.epoch < 0
  · simp [hp, he]
  · simp only [hp, he, ne_eq, not_true_eq_false, if_false, not_lt.mp he, true_and]
    cases hf : st.checkFresh c.proposal.claims with
    | error e =>
      refine iff_of_false (by simp) fun h => ?_
      rw [checkFresh_of_claims_eq ((insertCheckpoint_ok_iff c).mp h).2] at hf
      cases hf
    | ok u => rfl

/-- `append` succeeds exactly when the block comes next, names the head, has an epoch and
leaves tables that the schema allows.  Its duplicate checks before the transaction
refuse nothing else. -/
theorem append_ok_iff (c : Checkpoint) :
    st.append c = .ok st' ↔
      (c.height = st.height + 1 ∧ expectedPrev st = some c.proposal.prevHash ∧ 0 ≤ c.epoch) ∧
        st'.blocks = st.blocks ++ [ChainStore.blockRow c] ∧
        st'.claims = st.claims ++ claimRows c := by
  unfold ChainStore.append expectedPrev ChainStore.height
  cases hhead : st.headLocked with
  | none =>
    by_cases hh : c.height = 0
    · simp [hh, appendAfter_ok_iff]
    · simp [hh]
  | some h =>
    by_cases hh : c.height = h + 1
    · cases hp : st.blockHashLocked h with
      | none => simp [hh, hp]
      | some prev => simp [hh, hp, appendAfter_ok_iff]
    · simp [hh]

/-- A block at a height above `k` leaves the rows up to `k` alone. -/
theorem rolledBack_appended (c : Checkpoint) {k : ℤ} (hk : k < c.height) :
    (st.appended c).rolledBack k = st.rolledBack k := by
  unfold ChainStore.appended
  cases h : st.append c with
  | error e => rfl
  | ok st' =>
    obtain ⟨-, hb, hc⟩ := (append_ok_iff c).mp h
    have hrows : (claimRows c).filter (fun r => decide (r.height ≤ k)) = [] := by
      rw [List.filter_eq_nil_iff]
      intro r hr
      obtain ⟨s, -, rfl⟩ := List.mem_map.mp hr
      simp only [decide_eq_true_eq]
      exact not_le.mpr hk
    refine ChainStore.ext ?_ ?_
    · simp [ChainStore.rolledBack, hb, ChainStore.blockRow, hk]
    · simp [ChainStore.rolledBack, hc, hrows]

end Exodus.Interface
