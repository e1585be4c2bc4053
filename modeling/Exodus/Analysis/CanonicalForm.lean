import Exodus.Interface.Canonical
import Exodus.Interface.Sample

/-!
# What the canonical bytes determine

Two JSON values with one canonical text are equal up to the order of object keys, whatever
strings, integers, finite doubles and nesting they have.  The records of the program are
printed from such values, so the bytes a node signs determine the claim, and the bytes
under a proposal hash and a block hash determine the proposal and the signature list.
-/

set_option autoImplicit false

namespace Exodus.Analysis

open Exodus.Library Exodus.Model Exodus.Interface

/-- Sorting twice is sorting once. -/
theorem sortByKey_sortByKey {α : Type} (entries : List (String × α)) :
    sortByKey (sortByKey entries) = sortByKey entries := by
  have htotal : Std.Total fun a b : String × α => a.1 ≤ b.1 := ⟨fun a b => le_total a.1 b.1⟩
  have htrans : IsTrans (String × α) fun a b => a.1 ≤ b.1 := ⟨fun _ _ _ => le_trans⟩
  exact (List.pairwise_insertionSort _ entries).insertionSort_eq

/-- Values may be mapped before the members are sorted or after. -/
theorem sortByKey_map {α β : Type} (f : α → β) (entries : List (String × α)) :
    (sortByKey entries).map (fun e => (e.1, f e.2)) =
      sortByKey (entries.map fun e => (e.1, f e.2)) :=
  List.map_insertionSort _ _ _ entries fun _ _ _ _ => Iff.rfl

variable [Crates]

/-- The printer sorts the keys itself. -/
theorem writeValue_sortKeys (v : Json) : writeValue v.sortKeys = writeValue v := by
  induction v using Json.induction with
  | null | bool | int | float | str => rfl
  | arr items ih =>
    have htexts : writeItems (Json.sortItems items) = writeItems items := by
      rw [writeItems_eq_map, writeItems_eq_map, Json.sortItems_eq_map, List.map_map]
      exact List.map_congr_left ih
    rw [Json.sortKeys, writeValue, writeValue, htexts]
  | obj entries ih =>
    have htexts : writeEntries (Json.sortEntries entries) = writeEntries entries := by
      rw [writeEntries_eq_map, writeEntries_eq_map, Json.sortEntries_eq_map, List.map_map]
      refine List.map_congr_left fun e he => ?_
      exact congrArg (Prod.mk e.1) (ih e he)
    have hsort : sortByKey (writeEntries (sortByKey (Json.sortEntries entries))) =
        sortByKey (writeEntries entries) := by
      rw [writeEntries_eq_map, sortByKey_map, sortByKey_sortByKey, ← writeEntries_eq_map, htexts]
    unfold sortByKey at hsort
    rw [Json.sortKeys, writeValue, writeValue]
    unfold sortByKey
    rw [hsort]

variable [RyuReadsBack]

/-- Values with one canonical text are equal up to the order of keys. -/
theorem reorders_of_canonicalJson_eq {v w : Json} (h : canonicalJson v = canonicalJson w) :
    v.Reorders w := by
  have htext : writeValue v.sortKeys = writeValue w.sortKeys := by
    rw [writeValue_sortKeys, writeValue_sortKeys]
    exact String.ofList_injective h
  have hsorted : v.sortKeys = w.sortKeys :=
    eq_of_writeValue_eq (Json.sortedKeys_sortKeys v) (Json.sortedKeys_sortKeys w) htext
  have hv := Json.reorders_sortKeys v
  rw [hsorted] at hv
  exact hv.trans (Json.reorders_sortKeys w).symm

/-- A claim is determined by the bytes that are signed. -/
theorem payloadBytes_injective {c d : ContributionClaim} (h : c.payloadBytes = d.payloadBytes) :
    c = d := by
  have hvalue : c.toValue = d.toValue :=
    canonicalBytes_injective (contributionClaim_toValue_wellFormed c)
      (contributionClaim_toValue_wellFormed d) h
  have hread := congrArg ContributionClaim.fromValue hvalue
  rw [contributionClaim_fromValue_toValue, contributionClaim_fromValue_toValue] at hread
  exact Option.some.inj hread

/-- **The canonical form is injective.**  One canonical text means one value up to the order
of keys; the bytes that are signed determine the claim, those under the proposal hash the
proposal, and those under the block hash the proposal and the signature list. -/
theorem canonical_form_determines (hsha : Sha256CollisionFree) :
    (∀ v w : Json, canonicalJson v = canonicalJson w → v.Reorders w) ∧
    (∀ c d : ContributionClaim, c.payloadBytes = d.payloadBytes → c = d) ∧
    (∀ p q : CheckpointProposal, canonicalBytes p.toValue = canonicalBytes q.toValue → p = q) ∧
    (∀ b c : Checkpoint, asBytes b.proposal.proposalHash ++ canonicalBytes b.signaturesValue =
        asBytes c.proposal.proposalHash ++ canonicalBytes c.signaturesValue →
      b.proposal = c.proposal ∧ b.signatures = c.signatures) := by
  refine ⟨?_, ?_, ?_, ?_⟩
  · intro v w h
    exact reorders_of_canonicalJson_eq h
  · intro c d h
    exact payloadBytes_injective h
  · intro p q h
    exact proposalBytes_injective h
  · intro b c h
    exact blockBytes_injective hsha h

end Exodus.Analysis

namespace Exodus.Analysis

open Exodus.Library Exodus.Model Exodus.Interface Exodus.Sample

/-- Two claims of the sample are signed as different bytes. -/
theorem first_second_bytes_differ :
    firstClaim.claim.payloadBytes ≠ secondClaim.claim.payloadBytes := by
  have hdet := canonical_form_determines sha256_injective
  intro heq
  have hclaim := hdet.2.1 _ _ heq
  have hseq : (1 : Int64) = 2 := congrArg ContributionClaim.seq hclaim
  exact absurd hseq (by decide)

end Exodus.Analysis
