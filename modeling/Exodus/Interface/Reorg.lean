import Exodus.Interface.Adoption

/-!
# What a reorganisation does to the ledger

`reconcile_chain` on a store that holds a chain: the common ancestor as a number of
shared blocks, the state that the re-apply loop starts from, and the three ways in
which the loop ends.  All blocks are adopted; or all but the last are, and the
ledger refused the last after its validation; or a validation fails, and the local
blocks are put back.
-/

set_option autoImplicit false

namespace Exodus.Interface

open Exodus.Library Exodus.Model

variable [Crates] {st : ChainStore} {chain : List Checkpoint} {c : Checkpoint} {tol : Float}
  {n : Node} {peer : List Checkpoint}

/-! ## Pieces of the plan -/

/-- The peer's blocks by height. -/
def sortedBlocks (peer : List Checkpoint) : List Checkpoint :=
  peer.insertionSort fun a b => a.height ≤ b.height

def ancestorOf (n : Node) (peer : List Checkpoint) : ℤ :=
  Node.commonAncestor n.store (sortedBlocks peer)

/-- The peer's blocks above the common ancestor. -/
def incomingOf (n : Node) (peer : List Checkpoint) : List Checkpoint :=
  (sortedBlocks peer).filter fun b => ancestorOf n peer < b.height

/-- The ledger up to the common ancestor. -/
def baseOf (n : Node) (peer : List Checkpoint) : ChainStore :=
  n.store.rolledBack (ancestorOf n peer)

/-- The peer's tip wins against the local chain: it is higher, or as high with a smaller
hash. -/
def TipWins (st : ChainStore) (tip : Checkpoint) : Prop :=
  st.height < tip.height ∨
    tip.height = st.height ∧ ∀ head ∈ st.head, tip.blockHash < head.blockHash

/-- The reorganisation is started: the peer's tip wins and its blocks follow the ancestor
in height and hash. -/
def Enters (n : Node) (peer : List Checkpoint) : Prop :=
  (∃ tip ∈ (sortedBlocks peer).getLast?, TipWins n.store tip) ∧
    Node.contiguous (incomingOf n peer) (ancestorOf n peer + 1)
      (((n.store.getBlock (ancestorOf n peer)).map Checkpoint.blockHash).getD genesisPrevHash) =
        true

/-- A tip is not declined if it wins. -/
theorem tipDeclined_eq_false_iff (st : ChainStore) (tip : Checkpoint) :
    Node.tipDeclined st tip = false ↔ TipWins st tip := by
  unfold Node.tipDeclined TipWins
  split_ifs with hlt heq
  · simp
    omega
  · cases st.head <;> simp [heq]
  · simp
    omega

/-- The node whose ledger was cut to the ancestor. -/
def cutNode (n : Node) (peer : List Checkpoint) : Node :=
  if ancestorOf n peer < n.store.height then
    { n with
      store := baseOf n peer
      pendingCommits := n.pendingCommits.filter fun h _ => decide (h ≤ (baseOf n peer).height) }
  else n

/-- A response that is not entered changes nothing. -/
theorem reconcileChain_of_not_enters (h : ¬ Enters n peer) : n.reconcileChain peer = n := by
  unfold Node.reconcileChain
  dsimp only
  split
  · rfl
  · rename_i tip htip
    split_ifs with hdeclined hcont
    · rfl
    · rfl
    all_goals
      refine absurd ⟨⟨tip, htip, ?_⟩, ?_⟩ h
      · exact (tipDeclined_eq_false_iff _ _).mp (Bool.eq_false_iff.mpr hdeclined)
      · rwa [Bool.not_eq_true', Bool.not_eq_false] at hcont

/-- One that is entered rolls back to the ancestor and applies the blocks above it. -/
theorem reconcileChain_of_enters (h : Enters n peer) :
    n.reconcileChain peer = Node.reapply (ancestorOf n peer)
      (Node.savedAbove n.store (ancestorOf n peer) n.store.height) (incomingOf n peer) 0
      (cutNode n peer) := by
  obtain ⟨⟨tip, htip, hwins⟩, hcont⟩ := h
  have hlast : (peer.insertionSort fun a b => a.height ≤ b.height).getLast? = some tip := htip
  have hcont' : (!Node.contiguous (incomingOf n peer) (ancestorOf n peer + 1)
      (((n.store.getBlock (ancestorOf n peer)).map Checkpoint.blockHash).getD
        genesisPrevHash)) = false := by simp [hcont]
  unfold Node.reconcileChain
  dsimp only
  rw [hlast]
  dsimp only
  rw [if_neg (by rw [(tipDeclined_eq_false_iff _ _).mpr hwins]; simp)]
  exact if_neg (Bool.eq_false_iff.mp hcont')

/-! ## The common ancestor -/

omit [Crates] in
/-- The greatest of the heights below `m` at which the test holds, as a number of blocks. -/
theorem find?_heights (p : ℤ → Bool) (m : ℕ) :
    ∃ k ≤ m, (((List.range m).map Int.ofNat).reverse.find? p).getD (-1) = (k : ℤ) - 1 ∧
      (∀ i < m, k ≤ i → p i = false) ∧ ∀ i, k = i + 1 → p i = true := by
  induction m with
  | zero => exact ⟨0, le_rfl, by simp, by simp, by simp⟩
  | succ m ih =>
    rw [List.range_succ, List.map_append, List.reverse_append]
    cases hp : p m with
    | true =>
      refine ⟨m + 1, le_rfl, by simp [hp], fun i hi hk => by omega, fun i hi => ?_⟩
      obtain rfl : m = i := by omega
      exact hp
    | false =>
      obtain ⟨k, hk, hfind, hnone, hsome⟩ := ih
      refine ⟨k, by omega, by simpa [hp] using hfind, fun i hi hki => ?_, hsome⟩
      rcases Nat.lt_succ_iff_lt_or_eq.mp hi with hlt | rfl
      · exact hnone i hlt hki
      · exact hp

/-- The heights that are looked at are those of the chain. -/
theorem Refines.heightsTo (h : Refines st chain) :
    ChainStore.heightsTo st.height = (List.range chain.length).map Int.ofNat := by
  rw [h.height, ChainStore.heightsTo]
  simp

variable [SerdeReadsBack]

/-- The ancestor is the last of the first `k` blocks: above it no block of the peer has the
hash of the local one, and if there is one, the peer has it. -/
theorem Refines.commonAncestor (h : Refines st chain) (blocks : List Checkpoint) :
    ∃ k ≤ chain.length, Node.commonAncestor st blocks = (k : ℤ) - 1 ∧
      (∀ i (hi : i < chain.length), k ≤ i → ∀ c ∈ blocks, c.height = i →
        c.blockHash ≠ chain[i].blockHash) ∧
      ∀ i (hi : i < chain.length), k = i + 1 →
        ∃ c ∈ blocks, c.height = i ∧ c.blockHash = chain[i].blockHash := by
  have hheights : Node.commonAncestor st blocks =
      (((List.range chain.length).map Int.ofNat).reverse.find? fun x =>
        (st.getBlock x).any fun b =>
          blocks.any fun c => c.height = x ∧ c.blockHash = b.blockHash).getD (-1) := by
    unfold Node.commonAncestor
    rw [h.heightsTo]
    congr 2
    funext x
    cases st.getBlock x <;> rfl
  rw [hheights]
  obtain ⟨k, hk, hfind, hnone, hsome⟩ := find?_heights (fun x => (st.getBlock x).any fun b =>
    blocks.any fun c => c.height = x ∧ c.blockHash = b.blockHash) chain.length
  have hget (i : ℕ) (hi : i < chain.length) : st.getBlock i = some (readBack chain[i]) := by
    rw [h.getBlock, blockAt_natCast, List.getElem?_eq_getElem hi, Option.map_some]
  refine ⟨k, hk, hfind, fun i hi hki c hc hheight hhash => ?_, fun i hi hki => ?_⟩
  · have := hnone i hi hki
    simp only [hget i hi, Option.any_some, List.any_eq_false, decide_eq_true_eq,
      readBack_blockHash] at this
    exact this c hc ⟨hheight, hhash⟩
  · have := hsome i hki
    simp only [hget i hi, Option.any_some, List.any_eq_true, decide_eq_true_eq,
      readBack_blockHash] at this
    exact this

/-- The saved blocks are the local ones above the ancestor, as the ledger returns them. -/
theorem Refines.savedAbove (h : Refines st chain) {k : ℕ} (hk : k ≤ chain.length) :
    Node.savedAbove st ((k : ℤ) - 1) st.height = (chain.drop k).map readBack := by
  have hfilter : ((List.range chain.length).map Int.ofNat).filter (fun x => decide ((k : ℤ) - 1 < x)) =
      (List.range' k (chain.length - k)).map Int.ofNat := by
    obtain ⟨m, hm⟩ := Nat.exists_eq_add_of_le hk
    rw [hm, List.range_eq_range', ← List.range'_append_1, List.map_append, List.filter_append,
      List.filter_eq_nil_iff.mpr, List.filter_eq_self.mpr]
    · simp
    · intro x hx
      obtain ⟨i, hi, rfl⟩ := List.mem_map.mp hx
      rw [List.mem_range'_1] at hi
      simp
      omega
    · intro x hx
      obtain ⟨i, hi, rfl⟩ := List.mem_map.mp hx
      rw [List.mem_range'_1] at hi
      simp
      omega
  have hget : st.getBlock ∘ Int.ofNat = fun i => (chain[i]?).map readBack := by
    funext i
    exact (h.getBlock i).trans (by rw [blockAt_natCast])
  unfold Node.savedAbove
  rw [h.heightsTo, hfilter, List.filterMap_map, hget, ← List.map_filterMap]
  congr 1
  rw [List.range'_eq_map_range, List.filterMap_map, ← List.length_drop]
  simpa [Function.comp_def] using filterMap_range_getElem? (chain.drop k)

/-! ## Restoring -/

omit [SerdeReadsBack] in
/-- Blocks above `k` leave no trace after a rollback to `k`. -/
theorem rolledBack_restoreBlocks {k : ℤ} (saved : List Checkpoint)
    (hs : ∀ b ∈ saved, k < b.height) (st : ChainStore) :
    (Node.restoreBlocks st saved).rolledBack k = st.rolledBack k := by
  induction saved generalizing st with
  | nil => rfl
  | cons b rest ih =>
    have hrest := ih fun x hx => hs x (by simp [hx])
    unfold Node.restoreBlocks at hrest ⊢
    rw [List.foldl_cons, hrest]
    split_ifs
    · exact rolledBack_appended b (hs b (by simp))
    · rfl

/-- Blocks of a chain, as the ledger returned them, go back on top of what is below them. -/
theorem Refines.restoreBlocks {pre cur rest : List Checkpoint} (h : Refines st cur)
    (hcur : pre.map content = cur.map content) (hrest : LogFrom Extends pre rest) :
    Refines (Node.restoreBlocks st (rest.map readBack)) (cur ++ rest.map readBack) := by
  induction rest generalizing st pre cur with
  | nil => simpa [Node.restoreBlocks] using h
  | cons b rest ih =>
    have hext : Extends cur (readBack b) := hrest.1.congr hcur (content_readBack b).symm
    have hmissing : (st.getBlock (readBack b).height).isNone = true := by
      rw [h.getBlock, hext.height_eq, blockAt_natCast, List.getElem?_eq_none le_rfl]
      rfl
    have hcur' : (pre ++ [b]).map content = (cur ++ [readBack b]).map content := by
      rw [List.map_append, List.map_append, hcur]
      simp
    have hnext := ih (h.appended_extends hext) hcur' hrest.2
    unfold Node.restoreBlocks at hnext ⊢
    rw [List.map_cons, List.foldl_cons, if_pos hmissing]
    simpa using hnext

/-! ## The re-apply loop -/

omit [SerdeReadsBack] in
/-- All blocks but the last are adopted; the last one is validated, and the ledger
refuses it. -/
def LastRefused (tol : Float) (incoming : List Checkpoint) (st st' : ChainStore) : Prop :=
  ∃ init last, incoming = init ++ [last] ∧ adoptAll tol init st = some st' ∧
    (∃ seen, validateCheckpoint last st' tol 0 false (some ∅) = .ok seen) ∧
    ∃ e, st'.append last = .error e

section Reapply

variable {ancestor : ℤ} {saved incoming cur : List Checkpoint} {applied : ℕ} {b : Checkpoint}
  {rest : List Checkpoint} {st' : ChainStore}

variable (ancestor saved applied rest) in
/-- A validated block: the loop goes on with what the ledger made of it. -/
theorem reapply_cons (h : Refines n.store cur) (hpass : Passes n.config.flopsTolerance cur b) :
    Node.reapply ancestor saved (b :: rest) applied n =
        Node.reapply ancestor saved rest (applied + 1) (n.commitLocal b) ∧
      (n.commitLocal b).store = n.store.appended b ∧
      (n.commitLocal b).config = n.config := by
  obtain ⟨seen, hval⟩ :=
    (h.validateCheckpoint_ok_iff b n.quorumSize (some ∅) rfl).mpr hpass
  refine ⟨?_, commitLocal_store h hpass, commitLocal_config hval⟩
  rw [Node.reapply, hval]

/-- If all blocks are adopted, the ledger is the one with all of them. -/
theorem reapply_of_adoptAll (h : Refines n.store cur)
    (hok : adoptAll n.config.flopsTolerance incoming n.store = some st') :
    (Node.reapply ancestor saved incoming applied n).store = st' := by
  induction incoming generalizing n cur applied with
  | nil =>
    cases hok
    rfl
  | cons b rest ih =>
    obtain ⟨hval, st₁, happ, hrest⟩ := adoptAll_cons_eq_some.mp hok
    have hpass := (h.validateCheckpoint_ok_iff b 0 (some ∅) rfl).mp hval
    obtain ⟨heq, hstore, hconfig⟩ := reapply_cons ancestor saved applied rest h hpass
    have hst₁ : n.store.appended b = st₁ := by rw [ChainStore.appended, happ]
    rw [hst₁] at hstore
    have hcur : Refines (n.commitLocal b).store (cur ++ [b]) := hstore ▸ (h.append_ok happ).2
    rw [heq]
    refine ih hcur ?_
    rw [hstore, hconfig]
    exact hrest

/-- A block that passes is committed by effects. -/
theorem commitLocal_effects_of_passes {I : Inputs} (h : Refines n.store cur)
    (hpass : Passes n.config.flopsTolerance cur b) (hb : I.blocks b) :
    Effects I n (n.commitLocal b) := by
  obtain ⟨seen, hval⟩ := (h.validateCheckpoint_ok_iff b n.quorumSize (some ∅) rfl).mpr hpass
  exact commitLocal_effects b (.inl hb) ⟨_, _, seen, hval⟩

/-- If the ledger refuses the last block only, it has the ones before it. -/
theorem reapply_of_lastRefused (h : Refines n.store cur)
    (href : LastRefused n.config.flopsTolerance incoming n.store st') :
    (Node.reapply ancestor saved incoming applied n).store = st' := by
  obtain ⟨init, last, rfl, hinit, hval, e, happ⟩ := href
  induction init generalizing n cur applied with
  | nil =>
    cases hinit
    have hpass := (h.validateCheckpoint_ok_iff last 0 (some ∅) rfl).mp hval
    obtain ⟨heq, hstore, -⟩ := reapply_cons ancestor saved applied []
      h hpass
    rw [ChainStore.appended, happ] at hstore
    rw [List.nil_append, heq]
    exact hstore
  | cons b rest ih =>
    obtain ⟨hvalb, st₁, happb, hrest⟩ := adoptAll_cons_eq_some.mp hinit
    have hpass := (h.validateCheckpoint_ok_iff b 0 (some ∅) rfl).mp hvalb
    obtain ⟨heq, hstore, hconfig⟩ := reapply_cons ancestor saved applied (rest ++ [last])
      h hpass
    have hst₁ : n.store.appended b = st₁ := by rw [ChainStore.appended, happb]
    rw [hst₁] at hstore
    have hcur : Refines (n.commitLocal b).store (cur ++ [b]) := hstore ▸ (h.append_ok happb).2
    rw [List.cons_append, heq]
    refine ih hcur ?_ ?_
    · rw [hstore, hconfig]
      exact hrest
    · rw [hconfig]
      exact hval

/-- A loop that does not come to the restore exit is a sequence of commits. -/
theorem reapply_effects_of_kept {I : Inputs} (h : Refines n.store cur)
    (hkept : (∃ st', adoptAll n.config.flopsTolerance incoming n.store = some st') ∨
      ∃ st', LastRefused n.config.flopsTolerance incoming n.store st')
    (hin : ∀ c ∈ incoming, I.blocks c) :
    ∃ m, Effects I n m ∧ Node.reapply ancestor saved incoming applied n =
      { m with committedClaimIds := m.store.allCommittedClaimIds } := by
  induction incoming generalizing n cur applied with
  | nil => exact ⟨n, .refl, rfl⟩
  | cons b rest ih =>
    -- the block is validated, and appended unless it is the last one
    obtain ⟨hval, hnext⟩ : (∃ seen, validateCheckpoint b n.store n.config.flopsTolerance 0 false
        (some ∅) = .ok seen) ∧ (rest = [] ∨ ∃ st₁, n.store.append b = .ok st₁ ∧
          ((∃ st', adoptAll n.config.flopsTolerance rest st₁ = some st') ∨
            ∃ st', LastRefused n.config.flopsTolerance rest st₁ st')) := by
      rcases hkept with ⟨st', hok⟩ | ⟨st', init, last, hsplit, hinit, hlast, hrefused⟩
      · obtain ⟨hval, st₁, happ, hrest⟩ := adoptAll_cons_eq_some.mp hok
        exact ⟨hval, .inr ⟨st₁, happ, .inl ⟨st', hrest⟩⟩⟩
      · cases init with
        | nil =>
          cases hsplit
          cases hinit
          exact ⟨hlast, .inl rfl⟩
        | cons a init =>
          cases hsplit
          obtain ⟨hval, st₁, happ, hrest⟩ := adoptAll_cons_eq_some.mp hinit
          exact ⟨hval, .inr ⟨st₁, happ, .inr ⟨st', init, last, rfl, hrest, hlast, hrefused⟩⟩⟩
    have hpass := (h.validateCheckpoint_ok_iff b 0 (some ∅) rfl).mp hval
    obtain ⟨heq, hstore, hconfig⟩ := reapply_cons ancestor saved applied rest h hpass
    have heff : Effects I n (n.commitLocal b) :=
      commitLocal_effects_of_passes h hpass (hin b List.mem_cons_self)
    rcases hnext with rfl | ⟨st₁, happ, hrest⟩
    · exact ⟨n.commitLocal b, heff, heq⟩
    · have hst₁ : (n.commitLocal b).store = st₁ := by rw [hstore, ChainStore.appended, happ]
      obtain ⟨m, hm, hreapply⟩ := @ih (n.commitLocal b) (cur ++ [b]) (applied + 1)
        (hst₁ ▸ (h.append_ok happ).2) (by rw [hst₁, hconfig]; exact hrest)
        fun c hc => hin c (by simp [hc])
      exact ⟨m, heff.trans hm, heq.trans hreapply⟩

omit [SerdeReadsBack] in
/-- A block that is above the next height is not validated. -/
theorem not_passes_of_gap (hgap : (cur.length : ℤ) < b.height) : ¬ Passes tol cur b := by
  rintro (hg | ⟨-, hp, -⟩)
  · have hzero : b.height = 0 := by
      rw [Checkpoint.height, (isCanonicalGenesis_iff _).mp hg]
      rfl
    omega
  · have hheight : b.height = cur.length := hp.height_eq
    omega

/-- The restore exit of the loop puts the saved blocks back on the common part. -/
theorem reapply_of_not_passes (h : Refines n.store cur)
    (hpass : ¬ Passes n.config.flopsTolerance cur b) (hsaved : ∀ x ∈ saved, ancestor < x.height) :
    (Node.reapply ancestor saved (b :: rest) applied n).store =
      Node.restoreBlocks (n.store.rolledBack ancestor) saved := by
  have hfail : ∃ e, validateCheckpoint b n.store n.config.flopsTolerance n.quorumSize false
      (some ∅) = .error e := by
    cases hval : validateCheckpoint b n.store n.config.flopsTolerance n.quorumSize false
        (some ∅) with
    | error e => exact ⟨e, rfl⟩
    | ok seen =>
      exact absurd ((h.validateCheckpoint_ok_iff b _ (some ∅) rfl).mp ⟨seen, hval⟩) hpass
  obtain ⟨e, hval⟩ := hfail
  rw [Node.reapply, hval]
  dsimp only
  rw [rolledBack_restoreBlocks _ (fun x hx => hsaved x (List.mem_of_mem_take hx))]

/-- In every other case a validation fails, and the local blocks are restored. -/
theorem reapply_of_failed (h : Refines n.store cur) {prev : String}
    (hcont : Node.contiguous incoming cur.length prev = true) (hcur : ancestor < cur.length)
    (hsaved : ∀ x ∈ saved, ancestor < x.height)
    (hnone : adoptAll n.config.flopsTolerance incoming n.store = none)
    (hlast : ∀ st', ¬ LastRefused n.config.flopsTolerance incoming n.store st') :
    (Node.reapply ancestor saved incoming applied n).store =
      Node.restoreBlocks (n.store.rolledBack ancestor) saved := by
  induction incoming generalizing n cur applied prev with
  | nil => simp [adoptAll] at hnone
  | cons b rest ih =>
    simp only [Node.contiguous, Bool.and_eq_true, decide_eq_true_eq] at hcont
    obtain ⟨⟨hheight, -⟩, hrest⟩ := hcont
    by_cases hpass : Passes n.config.flopsTolerance cur b
    case neg => exact reapply_of_not_passes h hpass hsaved
    obtain ⟨heq, hstore, hconfig⟩ := reapply_cons ancestor saved applied rest h hpass
    have hval := (h.validateCheckpoint_ok_iff b 0 (some ∅) rfl).mpr hpass
    have hroll : (n.commitLocal b).store.rolledBack ancestor = n.store.rolledBack ancestor := by
      rw [hstore]
      exact rolledBack_appended b (by omega)
    rw [heq]
    cases happ : n.store.append b with
    | ok st₁ =>
      have hst₁ : (n.commitLocal b).store = st₁ := by rw [hstore, ChainStore.appended, happ]
      have hcur : Refines (n.commitLocal b).store (cur ++ [b]) := hst₁ ▸ (h.append_ok happ).2
      rw [← hroll]
      refine ih hcur (by simpa using hrest) (by simp; omega) ?_ ?_
      · rw [hst₁, hconfig, Option.eq_none_iff_forall_ne_some]
        intro st' hst'
        have hsome := adoptAll_cons_eq_some.mpr ⟨hval, st₁, happ, hst'⟩
        rw [hnone] at hsome
        cases hsome
      · rw [hst₁, hconfig]
        rintro st' ⟨init, last, rfl, hinit, hlastval, hlastapp⟩
        exact hlast st' ⟨b :: init, last, rfl,
          adoptAll_cons_eq_some.mpr ⟨hval, st₁, happ, hinit⟩, hlastval, hlastapp⟩
    | error e =>
      -- the store is as it was, so the next block comes one height too late
      have hst : (n.commitLocal b).store = n.store := by rw [hstore, ChainStore.appended, happ]
      cases rest with
      | nil => exact absurd ⟨[], b, rfl, rfl, hval, e, happ⟩ (hlast n.store)
      | cons b' rest' =>
        simp only [Node.contiguous, Bool.and_eq_true, decide_eq_true_eq] at hrest
        rw [← hroll]
        exact reapply_of_not_passes (hst ▸ h) (not_passes_of_gap (by omega)) hsaved

end Reapply

/-! ## The whole reorganisation -/

section Whole

variable {k : ℕ}

omit [SerdeReadsBack] in
/-- What the rollback leaves is the chain up to the ancestor. -/
theorem Refines.baseOf (h : Refines n.store chain) (ha : ancestorOf n peer = (k : ℤ) - 1) :
    Refines (Interface.baseOf n peer) (chain.take k) := by
  have := h.rolledBack (ancestorOf n peer)
  rwa [ha, show ((k : ℤ) - 1 + 1).toNat = k by omega, ← ha] at this

omit [SerdeReadsBack] in
/-- The loop starts on the common part of the two chains. -/
theorem Refines.cutNode_store (h : Refines n.store chain) (hk : k ≤ chain.length)
    (ha : ancestorOf n peer = (k : ℤ) - 1) :
    (cutNode n peer).store = Interface.baseOf n peer := by
  unfold cutNode
  split_ifs with hlt
  · rfl
  · have hwhole : chain.take k = chain := by
      rw [h.height] at hlt
      exact List.take_of_length_le (by omega)
    exact h.store_unique (hwhole ▸ h.baseOf ha)

omit [SerdeReadsBack] in
/-- The chain of the node that has rolled back. -/
theorem Refines.cut (h : Refines n.store chain) (hk : k ≤ chain.length)
    (ha : ancestorOf n peer = (k : ℤ) - 1) :
    Refines (cutNode n peer).store (chain.take k) := by
  rw [h.cutNode_store hk ha]
  exact h.baseOf ha

omit [SerdeReadsBack] in
/-- Rolling back leaves the settings. -/
theorem cutNode_config (n : Node) (peer : List Checkpoint) :
    (cutNode n peer).config = n.config := by
  unfold cutNode
  split_ifs <;> rfl

omit [SerdeReadsBack] in
/-- Rolling back twice is rolling back once. -/
theorem Refines.rolledBack_baseOf (h : Refines n.store chain)
    (ha : ancestorOf n peer = (k : ℤ) - 1) :
    (Interface.baseOf n peer).rolledBack (ancestorOf n peer) = Interface.baseOf n peer := by
  have htwice := (h.baseOf ha).rolledBack (ancestorOf n peer)
  rw [ha, show ((k : ℤ) - 1 + 1).toNat = k by omega, List.take_take, min_self, ← ha] at htwice
  exact htwice.store_unique (h.baseOf ha)

/-- A started reorganisation that adopts every block of the peer ends on them. -/
theorem Refines.reconcileChain_adopted (h : Refines n.store chain) (hk : k ≤ chain.length)
    (ha : ancestorOf n peer = (k : ℤ) - 1) (hin : Enters n peer) {st' : ChainStore}
    (hok : adoptAll n.config.flopsTolerance (incomingOf n peer) (Interface.baseOf n peer) =
      some st') : (n.reconcileChain peer).store = st' := by
  rw [reconcileChain_of_enters hin]
  refine reapply_of_adoptAll (h.cut hk ha) ?_
  rw [h.cutNode_store hk ha, cutNode_config]
  exact hok

/-- A started reorganisation whose last block the ledger refuses stops before it. -/
theorem Refines.reconcileChain_lastRefused (h : Refines n.store chain) (hk : k ≤ chain.length)
    (ha : ancestorOf n peer = (k : ℤ) - 1) (hin : Enters n peer) {st' : ChainStore}
    (hlast : LastRefused n.config.flopsTolerance (incomingOf n peer) (Interface.baseOf n peer)
      st') : (n.reconcileChain peer).store = st' := by
  rw [reconcileChain_of_enters hin]
  refine reapply_of_lastRefused (h.cut hk ha) ?_
  rw [h.cutNode_store hk ha, cutNode_config]
  exact hlast

/-- A started reorganisation that does not come to the restore exit is a sequence of commits. -/
theorem Refines.reconcileChain_kept {I : Inputs} (h : Refines n.store chain) (hk : k ≤ chain.length)
    (ha : ancestorOf n peer = (k : ℤ) - 1) (hin : Enters n peer)
    (hkept : (∃ st', adoptAll n.config.flopsTolerance (incomingOf n peer)
        (Interface.baseOf n peer) = some st') ∨
      ∃ st', LastRefused n.config.flopsTolerance (incomingOf n peer) (Interface.baseOf n peer) st')
    (hblocks : ∀ c ∈ incomingOf n peer, I.blocks c) :
    ∃ m, Effects I (cutNode n peer) m ∧ n.reconcileChain peer =
      { m with committedClaimIds := m.store.allCommittedClaimIds } := by
  rw [reconcileChain_of_enters hin]
  refine reapply_effects_of_kept (h.cut hk ha) ?_ hblocks
  rw [h.cutNode_store hk ha, cutNode_config]
  exact hkept

/-- In the remaining case the ledger holds the local blocks again. -/
theorem Refines.reconcileChain_restored (h : Refines n.store chain) (hk : k ≤ chain.length)
    (ha : ancestorOf n peer = (k : ℤ) - 1) (hin : Enters n peer)
    (hnone : adoptAll n.config.flopsTolerance (incomingOf n peer) (Interface.baseOf n peer) = none)
    (hlast : ∀ st', ¬ LastRefused n.config.flopsTolerance (incomingOf n peer)
      (Interface.baseOf n peer) st') :
    Refines (n.reconcileChain peer).store (chain.take k ++ (chain.drop k).map readBack) := by
  have hbase := h.baseOf ha
  have hlen : ((chain.take k).length : ℤ) = ancestorOf n peer + 1 := by
    rw [List.length_take, ha]
    omega
  have hsplit : LedgerChain (chain.take k ++ chain.drop k) := by
    rw [List.take_append_drop]
    exact h.chain_ok
  have hrest : LogFrom Extends (chain.take k) (chain.drop k) := (Log.append_iff.mp hsplit).2
  have hsaved : Node.savedAbove n.store (ancestorOf n peer) n.store.height =
      (chain.drop k).map readBack := by
    rw [ha]
    exact h.savedAbove hk
  have habove : ∀ x ∈ (chain.drop k).map readBack, ancestorOf n peer < x.height := by
    intro x hx
    obtain ⟨b, hb, rfl⟩ := List.mem_map.mp hx
    obtain ⟨i, hi, rfl⟩ := List.mem_iff_getElem.mp hb
    rw [List.length_drop] at hi
    rw [readBack_height, List.getElem_drop,
      LedgerChain.getElem_height h.chain_ok (show k + i < chain.length by omega), ha]
    omega
  rw [reconcileChain_of_enters hin, hsaved,
    reapply_of_failed (h.cut hk ha) (hlen ▸ hin.2) (by omega) habove]
  · rw [h.cutNode_store hk ha, h.rolledBack_baseOf ha]
    exact hbase.restoreBlocks rfl hrest
  · rw [h.cutNode_store hk ha, cutNode_config]
    exact hnone
  · rw [h.cutNode_store hk ha, cutNode_config]
    exact hlast

/-- The three outcomes of a started reorganisation, by the number of shared blocks. -/
theorem Refines.reconcileChain_cases (h : Refines n.store chain) (hk : k ≤ chain.length)
    (ha : ancestorOf n peer = (k : ℤ) - 1) (hin : Enters n peer) :
    (∃ st', adoptAll n.config.flopsTolerance (incomingOf n peer) (Interface.baseOf n peer) =
        some st' ∧ Refines (n.reconcileChain peer).store (chain.take k ++ incomingOf n peer)) ∨
    (∃ init last, incomingOf n peer = init ++ [last] ∧
      (∃ st', LastRefused n.config.flopsTolerance (incomingOf n peer) (Interface.baseOf n peer)
        st') ∧ Refines (n.reconcileChain peer).store (chain.take k ++ init)) ∨
    adoptAll n.config.flopsTolerance (incomingOf n peer) (Interface.baseOf n peer) = none ∧
      (∀ st', ¬ LastRefused n.config.flopsTolerance (incomingOf n peer)
        (Interface.baseOf n peer) st') ∧
      Refines (n.reconcileChain peer).store (chain.take k ++ (chain.drop k).map readBack) := by
  have hbase := h.baseOf ha
  by_cases hlast : ∃ st', LastRefused n.config.flopsTolerance (incomingOf n peer)
      (Interface.baseOf n peer) st'
  · refine .inr (.inl ?_)
    obtain ⟨st', init, last, hincoming, hinit, hrefused⟩ := id hlast
    have hstore := h.reconcileChain_lastRefused hk ha hin ⟨init, last, hincoming, hinit, hrefused⟩
    exact ⟨init, last, hincoming, hlast, hstore ▸ ((hbase.adoptAll_eq_some_iff init).mp hinit).2⟩
  · cases hadopt : adoptAll n.config.flopsTolerance (incomingOf n peer)
        (Interface.baseOf n peer) with
    | some st' =>
      refine .inl ⟨st', rfl, ?_⟩
      rw [h.reconcileChain_adopted hk ha hin hadopt]
      exact ((hbase.adoptAll_eq_some_iff _).mp hadopt).2
    | none =>
      exact .inr (.inr ⟨rfl, not_exists.mp hlast,
        h.reconcileChain_restored hk ha hin hadopt (not_exists.mp hlast)⟩)

end Whole

/-! ## Forks -/

/-- The peer's chain `base ++ rest` leaves the local chain `base ++ mine` after `base`. -/
structure Forks (n : Node) (base mine rest : List Checkpoint) : Prop where
  refines : Refines n.store (base ++ mine)
  apart : ∀ b ∈ rest, ∀ c ∈ mine, b.height = c.height → b.blockHash ≠ c.blockHash
  sorted : (base ++ rest).Pairwise fun a b => a.height ≤ b.height
  above : ∀ b ∈ rest, (base.length : ℤ) ≤ b.height

section Forks

variable {base mine rest : List Checkpoint}

omit [SerdeReadsBack] in
/-- The common part stands at its heights in the peer's chain. -/
theorem Forks.height_lt (h : Forks n base mine rest) {b : Checkpoint} (hb : b ∈ base) :
    b.height < base.length := by
  obtain ⟨i, hi, rfl⟩ := List.getElem_of_mem hb
  have hheight := LedgerChain.getElem_height h.refines.chain_ok
    (i := i) (by rw [List.length_append]; omega)
  rw [List.getElem_append_left hi] at hheight
  omega

omit [SerdeReadsBack] in
/-- The blocks come in the order of their heights. -/
theorem Forks.sortedBlocks_eq (h : Forks n base mine rest) :
    sortedBlocks (base ++ rest) = base ++ rest := h.sorted.insertionSort_eq

/-- The common part ends with the common ancestor. -/
theorem Forks.ancestorOf_eq (h : Forks n base mine rest) :
    ancestorOf n (base ++ rest) = (base.length : ℤ) - 1 := by
  obtain ⟨k, hk, ha, hnone, hsome⟩ := h.refines.commonAncestor (base ++ rest)
  have hheight {i : ℕ} (hi : i < (base ++ mine).length) : ((base ++ mine)[i]).height = i :=
    LedgerChain.getElem_height h.refines.chain_ok hi
  rw [ancestorOf, h.sortedBlocks_eq, ha]
  rw [List.length_append] at hk
  rcases lt_trichotomy k base.length with hlt | rfl | hgt
  · -- the peer has the block of the common part at this height
    have hi : k < (base ++ mine).length := by rw [List.length_append]; omega
    have hleft : (base ++ mine)[k] = base[k] := List.getElem_append_left hlt
    refine absurd rfl (hnone k hi le_rfl (base ++ mine)[k] ?_ (hheight hi))
    rw [hleft]
    exact List.mem_append_left _ (List.getElem_mem hlt)
  · rfl
  · -- above the common part the peer's blocks are others
    have hi : k - 1 < (base ++ mine).length := by rw [List.length_append]; omega
    obtain ⟨b, hb, hbheight, hbhash⟩ := hsome (k - 1) hi (by omega)
    rcases List.mem_append.mp hb with hb | hb
    · have := h.height_lt hb
      omega
    · have hright : (base ++ mine)[k - 1] ∈ mine := by
        rw [List.getElem_append_right (by omega)]
        exact List.getElem_mem _
      exact absurd hbhash (h.apart b hb _ hright (hbheight.trans (hheight hi).symm))

/-- What comes in are the peer's blocks above the common part. -/
theorem Forks.incomingOf_eq (h : Forks n base mine rest) : incomingOf n (base ++ rest) = rest := by
  have hbase : base.filter (fun b => decide ((base.length : ℤ) - 1 < b.height)) = [] := by
    rw [List.filter_eq_nil_iff]
    intro b hb
    have := h.height_lt hb
    rw [decide_eq_true_eq]
    omega
  rw [incomingOf, h.sortedBlocks_eq, h.ancestorOf_eq, List.filter_append, hbase, List.nil_append,
    List.filter_eq_self]
  intro b hb
  have := h.above b hb
  rw [decide_eq_true_eq]
  omega

/-- The reorganisation starts from the common part. -/
theorem Forks.baseOf_refines (h : Forks n base mine rest) :
    Refines (Interface.baseOf n (base ++ rest)) base := by
  have hbase := h.refines.baseOf h.ancestorOf_eq
  rwa [List.take_left] at hbase

/-- A peer's chain that wins and hangs together is tried. -/
theorem Forks.enters (h : Forks n base mine rest) {b : Checkpoint} (hb : base.getLast? = some b)
    (hcont : Node.contiguous rest base.length b.blockHash = true) {tip : Checkpoint}
    (htip : (base ++ rest).getLast? = some tip) (hwins : TipWins n.store tip) :
    Enters n (base ++ rest) := by
  have hlast : (n.store.getBlock ((base.length : ℤ) - 1)).map Checkpoint.blockHash =
      some b.blockHash := by
    obtain ⟨init, rfl⟩ := List.getLast?_eq_some_iff.mp hb
    rw [List.length_append, h.refines.getBlock]
    simp
  refine ⟨⟨tip, h.sortedBlocks_eq.symm ▸ htip, hwins⟩, ?_⟩
  rw [h.incomingOf_eq, h.ancestorOf_eq, hlast, show (base.length : ℤ) - 1 + 1 = base.length by omega]
  exact hcont

/-- If its blocks follow the common part one after the other, it is adopted. -/
theorem Forks.adopts (h : Forks n base mine rest) (hin : Enters n (base ++ rest))
    (hlog : LogFrom (Follows n.config.flopsTolerance) base rest) :
    Refines (n.reconcileChain (base ++ rest)).store (base ++ rest) := by
  obtain ⟨st', hst', href⟩ := h.baseOf_refines.exists_adoptAll hlog
  have hk : base.length ≤ (base ++ mine).length := by simp
  have hadopted : adoptAll n.config.flopsTolerance (incomingOf n (base ++ rest))
      (Interface.baseOf n (base ++ rest)) = some st' := by
    rw [h.incomingOf_eq]
    exact hst'
  rw [h.refines.reconcileChain_adopted hk h.ancestorOf_eq hin hadopted]
  exact href

end Forks

omit [Crates] [SerdeReadsBack] in
/-- Sorting keeps the blocks. -/
theorem mem_sortedBlocks {b : Checkpoint} : b ∈ sortedBlocks peer ↔ b ∈ peer :=
  List.mem_insertionSort _

omit [SerdeReadsBack] in
/-- Contiguous blocks stand at consecutive heights. -/
theorem contiguous_getElem {blocks : List Checkpoint} {start : ℤ} {prev : String}
    (h : Node.contiguous blocks start prev = true) {i : ℕ} (hi : i < blocks.length) :
    (blocks[i]).height = start + i := by
  induction blocks generalizing start prev i with
  | nil => simp at hi
  | cons b rest ih =>
    simp only [Node.contiguous, Bool.and_eq_true, decide_eq_true_eq] at h
    cases i with
    | zero => simpa using h.1.1
    | succ i =>
      rw [List.getElem_cons_succ, ih h.2 (by simpa using hi)]
      push_cast
      ring

omit [SerdeReadsBack] in
/-- The winning chain reaches at least as high as the local one. -/
theorem Refines.length_le_incoming (h : Refines n.store chain) {k : ℕ}
    (ha : ancestorOf n peer = (k : ℤ) - 1) (hin : Enters n peer) :
    chain.length ≤ k + (incomingOf n peer).length := by
  obtain ⟨⟨tip, htip, hwins⟩, hcont⟩ := hin
  have hheight : (chain.length : ℤ) - 1 ≤ tip.height := by
    rw [← h.height]
    rcases hwins with hlt | ⟨heq, -⟩
    · exact hlt.le
    · exact heq.ge
  rcases le_or_gt tip.height (ancestorOf n peer) with hlow | hhigh
  · omega
  · have hmem : tip ∈ incomingOf n peer :=
      List.mem_filter.mpr ⟨List.mem_of_getLast? htip, by simpa using hhigh⟩
    obtain ⟨i, hi, rfl⟩ := List.mem_iff_getElem.mp hmem
    rw [contiguous_getElem hcont hi] at hheight
    omega

end Exodus.Interface
