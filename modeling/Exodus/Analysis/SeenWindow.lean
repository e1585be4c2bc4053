import Exodus.Interface.TransportSpec

/-!
# The dedup window

`note_seen` keeps a set of message ids and a queue of the same ids, and pushes the oldest id
out of both when the queue is longer than `LOOP_WINDOW`.  An id may be pushed out and noted
again any number of times.  Over every sequence of calls the queue is the end of the sequence
of ids that were new when they were noted, so the answer to a call depends on the last
`LOOP_WINDOW` of these and on nothing else (`noteSeen_exact`).
-/

set_option autoImplicit false

namespace Exodus.Analysis

open Exodus.Library Exodus.Model Exodus.Interface

variable {Tx : Type} {t : Inner Tx} {noted : List String}

/-- The state after a sequence of calls of `note_seen`. -/
def noteAll (t : Inner Tx) (ids : List String) : Inner Tx :=
  ids.foldl (fun t id => (t.noteSeen id).2) t

/-- The ids of the calls that were answered with `false`, oldest first. -/
def firstNoted (t : Inner Tx) : List String → List String
  | [] => []
  | id :: ids =>
    let later := firstNoted (t.noteSeen id).2 ids
    if (t.noteSeen id).1 then later else id :: later

/-- The set and the queue hold the same ids, and the queue is the end of the sequence of the
ids noted for the first time. -/
structure Windowed (t : Inner Tx) (noted : List String) : Prop where
  seen : SeenInv t
  queue : t.seen.2 = noted.rtake loopWindow

/-- A new node has an empty window. -/
theorem windowed_new (nodeId : String) : Windowed (Inner.new nodeId : Inner Tx) [] where
  seen := seenInv_new nodeId
  queue := rfl

/-- The window is not larger than its cap. -/
theorem Windowed.length_le (h : Windowed t noted) : t.seen.2.length ≤ loopWindow := by
  rw [h.queue, List.rtake, List.length_drop]
  omega

/-- A call answered with `true` leaves the history as it is, one answered with `false` adds
its id. -/
theorem Windowed.noteSeen (h : Windowed t noted) (id : String) :
    Windowed (t.noteSeen id).2 (if (t.noteSeen id).1 then noted else noted ++ [id]) where
  seen := h.seen.noteSeen id
  queue := by
    rw [h.seen.noteSeen_order]
    have hknown := h.seen.noteSeen_known id
    split_ifs with hanswer
    · rw [note_of_mem (hknown.mp hanswer), h.queue]
    · exact note_eq_rtake h.queue fun hmem => hanswer (hknown.mpr hmem)

/-- A sequence of calls keeps the window, from any history on. -/
theorem Windowed.noteAll (h : Windowed t noted) (ids : List String) :
    Windowed (Analysis.noteAll t ids) (noted ++ firstNoted t ids) := by
  induction ids generalizing t noted with
  | nil =>
    rw [firstNoted, List.append_nil]
    exact h
  | cons id ids ih =>
    have hrest := ih (h.noteSeen id)
    have hsplit : (if (t.noteSeen id).1 then noted else noted ++ [id]) ++
        firstNoted (t.noteSeen id).2 ids = noted ++ firstNoted t (id :: ids) := by
      rw [firstNoted]
      split_ifs
      · rfl
      · rw [List.append_assoc, List.singleton_append]
    rw [hsplit] at hrest
    exact hrest

/-- What the window is after the ids of `noted` were answered with `false`, in this order. -/
structure ExactWindow (t : Inner Tx) (noted : List String) : Prop where
  keys : ∀ id, t.seen.1.contains id = true ↔ id ∈ t.seen.2
  nodup : t.seen.2.Nodup
  bounded : t.seen.2.length ≤ loopWindow
  queue : t.seen.2 = noted.rtake loopWindow
  answer : ∀ id, (t.noteSeen id).1 = true ↔ id ∈ noted.rtake loopWindow

/-- After every sequence of calls the window is exact. -/
theorem noteSeen_exact (nodeId : String) (ids : List String) :
    ExactWindow (noteAll (Inner.new nodeId : Inner Tx) ids)
      (firstNoted (Inner.new nodeId : Inner Tx) ids) := by
  have hstart : Windowed (Inner.new nodeId : Inner Tx) [] := windowed_new nodeId
  have hwindow := hstart.noteAll ids
  rw [List.nil_append] at hwindow
  refine ⟨hwindow.seen.contains, hwindow.seen.nodup, hwindow.length_le, hwindow.queue, ?_⟩
  intro id
  rw [← hwindow.queue]
  exact hwindow.seen.noteSeen_known id

end Exodus.Analysis
