import Exodus.Model.FanOut

/-!
# What the parts of distributed inference do

Requests and responses survive their JSON form.  Each operation of the coordinator is taken
apart once, by what it can do.  What a chat collects depends on the responses it has read:
the first one of each other node counts (`tally_collectAll`).
-/

set_option autoImplicit false

namespace Exodus.Interface

open Exodus.Library Exodus.Model

/-! ## Messages -/

/-- A turn is read back from its JSON. -/
theorem inferenceTurn_fromValue_toValue (t : InferenceTurn) :
    InferenceTurn.fromValue t.toValue = some t := by
  have hf : t.toValue.structFields ["role", "content"] =
      some [some (.str t.role), some (.str t.content)] := rfl
  simp [InferenceTurn.fromValue, hf, Json.required]

/-- So is a request. -/
theorem inferenceRequest_fromValue_toValue (r : InferenceRequest) :
    InferenceRequest.fromValue r.toValue = some r := by
  have hf : r.toValue.structFields InferenceRequest.fieldNames = some [
      some (.str r.requestId), some (.str r.origin), some (.str r.model),
      some (.int r.maxTokens.toInt), some (.arr (r.messages.map InferenceTurn.toValue))] := rfl
  have hmessages := Json.asList_map _ _ inferenceTurn_fromValue_toValue r.messages
  simp [InferenceRequest.fromValue, hf, Json.required, hmessages]

/-- So is a response. -/
theorem inferenceResponse_fromValue_toValue (r : InferenceResponse) :
    InferenceResponse.fromValue r.toValue = some r := by
  have hf : r.toValue.structFields InferenceResponse.fieldNames = some [
      some (.str r.requestId), some (.str r.nodeId), some (.str r.reply),
      some (r.error.elim .null .str)] := rfl
  have herror : optionalText (r.error.elim .null .str) = some r.error := by
    cases r.error <;> rfl
  simp [InferenceResponse.fromValue, hf, Json.required, Json.optional, herror]

/-! ## Collecting -/

section Collect

variable {v : String} {expected : ℕ} {c : Collected} {r : InferenceResponse}
  {heard : List InferenceResponse}

/-- What one turn of the loop can do: pass over a response, or take it. -/
theorem collectTurn_cases (v : String) (expected : ℕ) (c : Collected) (r : InferenceResponse) :
    ((r.nodeId = v ∨ r.nodeId ∈ c.seen) ∧ collectTurn v expected c r = (c, true)) ∨
    (r.nodeId ≠ v ∧ r.nodeId ∉ c.seen ∧ collectTurn v expected c r =
      (c.take r, !(decide (0 < expected) && decide (expected ≤ (c.take r).seen.card)))) := by
  unfold collectTurn
  by_cases hown : r.nodeId = v
  · exact .inl ⟨.inl hown, if_pos hown⟩
  · rw [if_neg hown]
    by_cases hseen : r.nodeId ∈ c.seen
    · exact .inl ⟨.inr hseen, if_pos hseen⟩
    · exact .inr ⟨hown, hseen, if_neg hseen⟩

/-- What is collected from some responses, as long as the loop goes on. -/
def collectAll (v : String) (heard : List InferenceResponse) : Collected :=
  heard.foldl (fun c r => (collectTurn v 0 c r).1) .start

/-- What is collected does not depend on how many are expected. -/
theorem collectTurn_fst (v : String) (expected : ℕ) (c : Collected) (r : InferenceResponse) :
    (collectTurn v expected c r).1 = (collectTurn v 0 c r).1 := by
  unfold collectTurn
  split_ifs <;> rfl

/-- Another response is collected last. -/
theorem collectAll_concat (v : String) (heard : List InferenceResponse) (r : InferenceResponse) :
    collectAll v (heard ++ [r]) = (collectTurn v 0 (collectAll v heard) r).1 := by
  simp [collectAll]

/-- The first response of a node. -/
def firstOf (n : String) (heard : List InferenceResponse) : Option InferenceResponse :=
  heard.find? fun r => r.nodeId = n

/-- It is the first of its node if there was none. -/
theorem firstOf_concat (n : String) (heard : List InferenceResponse) (r : InferenceResponse) :
    firstOf n (heard ++ [r]) = (firstOf n heard).or (if r.nodeId = n then some r else none) := by
  rw [firstOf, List.find?_append]
  by_cases h : r.nodeId = n <;> simp [h, firstOf]

/-- The first response of a node is one of those heard, and of that node. -/
theorem nodeId_of_firstOf {n : String} (h : firstOf n heard = some r) : r ∈ heard ∧ r.nodeId = n :=
  ⟨List.mem_of_find?_eq_some h, by simpa using List.find?_some h⟩

/-- The first response of each other node counts, and no other. -/
structure Tally (v : String) (heard : List InferenceResponse) (c : Collected) : Prop where
  seen : ∀ n, n ∈ c.seen ↔ n ≠ v ∧ (firstOf n heard).isSome
  replies : ∀ n text, (n, text) ∈ c.peerReplies ↔
    n ≠ v ∧ ∃ r, firstOf n heard = some r ∧ r.error = none ∧ r.reply = text
  errors : ∀ n e, (n, e) ∈ c.peerErrors ↔
    n ≠ v ∧ ∃ r, firstOf n heard = some r ∧ r.error = some e
  once : ((c.peerReplies ++ c.peerErrors).map Prod.fst).Nodup
  responded : c.peersResponded = (c.peerReplies ++ c.peerErrors).length
  card : c.peersResponded = c.seen.card

/-- A response of a node that is passed over changes no first response. -/
theorem Tally.pass (h : Tally v heard c) (hr : r.nodeId = v ∨ r.nodeId ∈ c.seen) :
    Tally v (heard ++ [r]) c := by
  have hfirst : ∀ n, n ≠ v → firstOf n (heard ++ [r]) = firstOf n heard := by
    intro n hn
    rw [firstOf_concat]
    by_cases heq : r.nodeId = n
    · have hseen : n ∈ c.seen := heq ▸ hr.resolve_left fun hv => hn (heq ▸ hv)
      obtain ⟨first, hfirst⟩ := Option.isSome_iff_exists.mp ((h.seen n).mp hseen).2
      rw [hfirst, Option.some_or]
    · rw [if_neg heq, Option.or_none]
  refine ⟨fun n => ?_, fun n text => ?_, fun n e => ?_, h.once, h.responded, h.card⟩
  · rw [h.seen]
    exact and_congr_right fun hn => by rw [hfirst n hn]
  · rw [h.replies]
    exact and_congr_right fun hn => by rw [hfirst n hn]
  · rw [h.errors]
    exact and_congr_right fun hn => by rw [hfirst n hn]

/-- The names with a counted response. -/
theorem Tally.mem_names (h : Tally v heard c) (n : String) :
    n ∈ (c.peerReplies ++ c.peerErrors).map Prod.fst ↔ n ∈ c.seen := by
  rw [h.seen, List.map_append, List.mem_append, List.mem_map, List.mem_map]
  constructor
  · rintro (⟨⟨_, text⟩, he, rfl⟩ | ⟨⟨_, e⟩, he, rfl⟩)
    · obtain ⟨hn, r, hr, -⟩ := (h.replies _ _).mp he
      exact ⟨hn, by simp [hr]⟩
    · obtain ⟨hn, r, hr, -⟩ := (h.errors _ _).mp he
      exact ⟨hn, by simp [hr]⟩
  · rintro ⟨hn, hsome⟩
    obtain ⟨r, hr⟩ := Option.isSome_iff_exists.mp hsome
    cases herror : r.error with
    | none => exact .inl ⟨(n, r.reply), (h.replies _ _).mpr ⟨hn, r, hr, herror, rfl⟩, rfl⟩
    | some e => exact .inr ⟨(n, e), (h.errors _ _).mpr ⟨hn, r, hr, herror⟩, rfl⟩

/-- A response without an error adds its reply. -/
theorem mem_take_replies {n text : String} : (n, text) ∈ (c.take r).peerReplies ↔
    (n, text) ∈ c.peerReplies ∨ n = r.nodeId ∧ r.error = none ∧ r.reply = text := by
  unfold Collected.take
  dsimp only
  by_cases herror : r.error = none
  · simp [herror, eq_comm]
  · simp [herror]

/-- One with an error adds the error. -/
theorem mem_take_errors {n e : String} : (n, e) ∈ (c.take r).peerErrors ↔
    (n, e) ∈ c.peerErrors ∨ n = r.nodeId ∧ r.error = some e := by
  unfold Collected.take
  cases herror : r.error <;> simp [eq_comm]

/-- One name is added, to the replies or to the errors. -/
theorem take_names_perm (c : Collected) (r : InferenceResponse) :
    (((c.take r).peerReplies ++ (c.take r).peerErrors).map Prod.fst).Perm
      (r.nodeId :: (c.peerReplies ++ c.peerErrors).map Prod.fst) := by
  unfold Collected.take
  cases r.error with
  | none => simp
  | some e =>
    simpa using List.perm_append_singleton r.nodeId ((c.peerReplies ++ c.peerErrors).map Prod.fst)

/-- A response of a node that was not heard before is its first one. -/
theorem Tally.take (h : Tally v heard c) (hown : r.nodeId ≠ v) (hnew : r.nodeId ∉ c.seen) :
    Tally v (heard ++ [r]) (c.take r) := by
  have hnone : firstOf r.nodeId heard = none := by
    cases hfirst : firstOf r.nodeId heard with
    | none => rfl
    | some first => exact absurd ((h.seen _).mpr ⟨hown, by simp [hfirst]⟩) hnew
  have hself : firstOf r.nodeId (heard ++ [r]) = some r := by
    rw [firstOf_concat, hnone, if_pos rfl, Option.none_or]
  have hother : ∀ n, n ≠ r.nodeId → firstOf n (heard ++ [r]) = firstOf n heard := by
    intro n hn
    rw [firstOf_concat, if_neg (Ne.symm hn), Option.or_none]
  refine ⟨fun n => ?_, fun n text => ?_, fun n e => ?_, ?_, ?_, ?_⟩
  · by_cases hn : n = r.nodeId
    · subst hn
      simp [Collected.take, hself, hown]
    · rw [hother n hn, ← h.seen]
      simp [Collected.take, hn]
  · rw [mem_take_replies, h.replies]
    by_cases hn : n = r.nodeId
    · subst hn
      simp [hself, hnone, hown]
    · simp [hother n hn, hn]
  · rw [mem_take_errors, h.errors]
    by_cases hn : n = r.nodeId
    · subst hn
      simp [hself, hnone, hown]
    · simp [hother n hn, hn]
  · apply (take_names_perm c r).nodup_iff.mpr
    rw [List.nodup_cons, h.mem_names]
    exact ⟨hnew, h.once⟩
  · have hlength := (take_names_perm c r).length_eq
    rw [List.length_map, List.length_cons, List.length_map, ← h.responded] at hlength
    exact hlength.symm
  · show c.peersResponded + 1 = (insert r.nodeId c.seen).card
    rw [Finset.card_insert_of_notMem hnew, h.card]

/-- What is collected are the first responses of the other nodes. -/
theorem tally_collectAll (v : String) (heard : List InferenceResponse) :
    Tally v heard (collectAll v heard) := by
  induction heard using List.reverseRecOn with
  | nil =>
    refine ⟨?_, ?_, ?_, ?_, ?_, ?_⟩ <;> simp [collectAll, Collected.start, firstOf]
  | append_singleton heard r ih =>
    rw [collectAll_concat]
    rcases collectTurn_cases v 0 (collectAll v heard) r with ⟨hpass, heq⟩ | ⟨hown, hnew, heq⟩
    · rw [heq]
      exact ih.pass hpass
    · rw [heq]
      exact ih.take hown hnew

end Collect

/-! ## Operations -/

/-- Only crossed bounds make a completion panic. -/
theorem completeForRequest_isSome {config : InferenceConfig} (hpos : 1 ≤ config.maxTokens)
    (v : String) (r : InferenceRequest) (runtime : Runtime) :
    (completeForRequest config v r runtime).isSome := by
  have hbounds : ¬config.maxTokens < 1 := Int64.not_lt.mpr hpos
  unfold completeForRequest
  dsimp only
  split_ifs <;> rfl

/-- The request that a node takes on: a request of another node. -/
def takenOn (v : String) (value : Json) : Option InferenceRequest :=
  (InferenceRequest.fromValue value).filter fun r => r.origin ≠ v

/-- A request is taken on if it can be read and is of another node. -/
theorem takenOn_eq_some {v : String} {value : Json} {r : InferenceRequest} :
    takenOn v value = some r ↔ InferenceRequest.fromValue value = some r ∧ r.origin ≠ v := by
  simp [takenOn, Option.filter_eq_some_iff]

section Operations

variable (f : FanOut)

/-- A thread is spawned for a request that is taken on. -/
theorem onInferRequest_eq (value : Json) : f.onInferRequest value =
    { f with jobs := f.jobs ++ (takenOn f.nodeId value).toList.map Job.spawned } := by
  unfold FanOut.onInferRequest takenOn
  cases InferenceRequest.fromValue value with
  | none => simp
  | some r => by_cases h : r.origin = f.nodeId <;> simp [Option.filter, h]

/-- A response is dropped or passed to the chat of its request. -/
theorem onInferResponse_cases (value : Json) :
    f.onInferResponse value = f ∨
    ∃ r k, InferenceResponse.fromValue value = some r ∧ r.nodeId ≠ f.nodeId ∧
      f.inferTx[r.requestId]? = some k ∧
      f.onInferResponse value = { f with channels := f.channels.modify k (· ++ [r]) } := by
  unfold FanOut.onInferResponse
  cases InferenceResponse.fromValue value with
  | none => exact .inl rfl
  | some r =>
    by_cases hown : r.nodeId = f.nodeId
    · exact .inl (if_pos hown)
    · cases htx : f.inferTx[r.requestId]? with
      | none => exact .inl (by simp [hown, htx])
      | some k => exact .inr ⟨r, k, rfl, hown, htx, by simp [hown, htx]⟩

/-- A thread starts in a free slot, or answers that there is none. -/
theorem startJob_cases (i : ℕ) :
    f.startJob i = (f, none) ∨
    (∃ r, f.jobs[i]? = some (.spawned r) ∧ f.slots = 0 ∧ f.startJob i =
      ({ f with jobs := f.jobs.eraseIdx i }, some ⟨f.nodeId, r, .error busy⟩)) ∨
    ∃ r, f.jobs[i]? = some (.spawned r) ∧ 0 < f.slots ∧ f.startJob i =
      ({ f with slots := f.slots - 1, jobs := f.jobs.set i (.running r) }, none) := by
  unfold FanOut.startJob
  cases hjob : f.jobs[i]? with
  | none => exact .inl rfl
  | some job =>
    cases job with
    | spawned r =>
      by_cases hslots : f.slots = 0
      · exact .inr (.inl ⟨r, rfl, hslots, if_pos hslots⟩)
      · exact .inr (.inr ⟨r, rfl, Nat.pos_of_ne_zero hslots, if_neg hslots⟩)
    | running r => exact .inl rfl
    | answered r result => exact .inl rfl

/-- A thread that runs answers, or gives up its slot without an answer. -/
theorem answerJob_cases (i : ℕ) (runtime : Runtime) :
    f.answerJob i runtime = (f, none) ∨
    (∃ r, f.jobs[i]? = some (.running r) ∧
      completeForRequest f.config f.nodeId r runtime = none ∧ f.answerJob i runtime =
      ({ f with slots := f.slots + 1, jobs := f.jobs.eraseIdx i }, none)) ∨
    ∃ r result, f.jobs[i]? = some (.running r) ∧
      completeForRequest f.config f.nodeId r runtime = some result ∧ f.answerJob i runtime =
      ({ f with jobs := f.jobs.set i (.answered r result) }, some ⟨f.nodeId, r, result⟩) := by
  unfold FanOut.answerJob
  cases hjob : f.jobs[i]? with
  | none => exact .inl rfl
  | some job =>
    cases job with
    | spawned r => exact .inl rfl
    | running r =>
      cases hdone : completeForRequest f.config f.nodeId r runtime with
      | none => exact .inr (.inl ⟨r, rfl, hdone, by simp [hdone]⟩)
      | some result => exact .inr (.inr ⟨r, result, rfl, hdone, by simp [hdone]⟩)
    | answered r result => exact .inl rfl

variable [Crates] [RustText] [FloatText]

omit [RustText] [FloatText] in
/-- A claim leaves the identity of the node. -/
theorem submitContribution_identity (c : ExodusCoordinator) (r : Contribution) (uuid now : String) :
    (c.submitContribution r uuid now).1.identity = c.identity := by
  unfold ExodusCoordinator.submitContribution
  cases ExodusCoordinator.parseNames r <;> rfl

/-- Only the coordinator changes, and it is the same node. -/
theorem recordInferenceClaim_fields (model : String) (promptChars replyChars : ℕ)
    (seconds : FiniteFloat) (uuid now : String) :
    ∃ c, c.identity = f.coordinator.identity ∧
      f.recordInferenceClaim model promptChars replyChars seconds uuid now =
        { f with coordinator := c } := by
  unfold FanOut.recordInferenceClaim
  split_ifs
  · exact ⟨f.coordinator, rfl, rfl⟩
  · cases modelParamsB model with
    | none => exact ⟨f.coordinator, rfl, rfl⟩
    | some paramsB =>
      dsimp only
      split_ifs
      · exact ⟨_, submitContribution_identity .., rfl⟩
      · exact ⟨{ f.coordinator with seq := f.coordinator.seq + 1 }, rfl, rfl⟩

/-- A thread that has answered gives its slot back. -/
theorem retireJob_cases (i : ℕ) (seconds : FiniteFloat) (uuid now : String) :
    f.retireJob i seconds uuid now = f ∨
    ∃ r result c, f.jobs[i]? = some (.answered r result) ∧
      c.identity = f.coordinator.identity ∧ f.retireJob i seconds uuid now =
      { f with coordinator := c, slots := f.slots + 1, jobs := f.jobs.eraseIdx i } := by
  unfold FanOut.retireJob
  cases hjob : f.jobs[i]? with
  | none => exact .inl rfl
  | some job =>
    cases job with
    | spawned r => exact .inl rfl
    | running r => exact .inl rfl
    | answered r result =>
      refine .inr ⟨r, result, ?_⟩
      cases result with
      | error e => exact ⟨f.coordinator, rfl, rfl, rfl⟩
      | ok reply =>
        obtain ⟨c, hc, heq⟩ := recordInferenceClaim_fields f r.model
          (FanOut.promptChars r.messages) reply.length seconds uuid now
        refine ⟨c, rfl, hc, ?_⟩
        dsimp only
        rw [heq]

omit [Crates] [RustText] [FloatText]

/-- A chat that collects reads the next response of its channel. -/
theorem collectChat_cases (i : ℕ) :
    f.collectChat i = f ∨
    ∃ chat r, f.chats[i]? = some chat ∧ (f.channels.getD i [])[chat.read]? = some r ∧
      chat.collecting = true ∧ f.collectChat i = { f with
        chats := f.chats.set i
          (chat.advance (collectTurn f.nodeId chat.expected chat.collected r)) } := by
  unfold FanOut.collectChat
  cases hchat : f.chats[i]? with
  | none => exact .inl rfl
  | some chat =>
    dsimp only
    cases hr : (f.channels.getD i [])[chat.read]? with
    | none => exact .inl rfl
    | some r =>
      cases hgoing : chat.collecting with
      | false => exact .inl rfl
      | true => exact .inr ⟨chat, r, rfl, hr, hgoing, rfl⟩

/-- A chat that is closed gives up its channel. -/
theorem closeChat_cases (i : ℕ) :
    f.closeChat i = f ∨
    ∃ chat, f.chats[i]? = some chat ∧ f.closeChat i =
      { f with
        inferTx := f.inferTx.erase chat.request.requestId
        chats := f.chats.set i { chat with collecting := false } } := by
  unfold FanOut.closeChat
  cases hchat : f.chats[i]? with
  | none => exact .inl rfl
  | some chat => exact .inr ⟨chat, rfl, rfl⟩

end Operations

end Exodus.Interface
