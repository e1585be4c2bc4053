import Exodus.Interface.SampleInference

/-!
# Answers across the network

Over every legal run of a network of members a text that a chat shows under the name of a
member is what that member made of this chat's own request (`chat_reply_authentic`); over
every run, legal or not, each response is counted once and no more than expected
(`collected_exact`).
-/

set_option autoImplicit false

namespace Exodus.Analysis

open Exodus.Library Exodus.Model Exodus.Interface

/-! ## The reply that is shown -/

section Choice

variable [UnicodeTables] (K : Type) [FloatArith K]

/-- The better of two candidates is one of them. -/
theorem considerReply_index_lt {candidates : List (String × String)} {best : ℕ × ℕ × ℕ} {i : ℕ}
    (hbest : best.1 < candidates.length) (hi : i < candidates.length) :
    (considerReply K candidates best i).1 < candidates.length := by
  unfold considerReply
  dsimp only
  split_ifs
  · exact hi
  · exact hbest

/-- So is the best of many. -/
theorem scan_index_lt {candidates : List (String × String)} {best : ℕ × ℕ × ℕ} {l : List ℕ}
    (hbest : best.1 < candidates.length) (hl : ∀ i ∈ l, i < candidates.length) :
    (l.foldl (considerReply K candidates) best).1 < candidates.length := by
  induction l generalizing best with
  | nil => exact hbest
  | cons i rest ih =>
    apply ih
    · exact considerReply_index_lt K hbest (hl i List.mem_cons_self)
    · intro j hj
      exact hl j (List.mem_cons_of_mem i hj)

/-- The choice is one of the candidates, or there is none. -/
theorem pickAgreedReplyIn_mem (localReply : Option String) (peers : List (String × String)) :
    (replyCandidates localReply peers = [] ∧ pickAgreedReplyIn K localReply peers = ("", "", 0)) ∨
      ((pickAgreedReplyIn K localReply peers).1, (pickAgreedReplyIn K localReply peers).2.1) ∈
        replyCandidates localReply peers := by
  unfold pickAgreedReplyIn
  cases hc : replyCandidates localReply peers with
  | nil => exact .inl ⟨rfl, rfl⟩
  | cons first rest =>
    cases rest with
    | nil => exact .inr List.mem_cons_self
    | cons second rest =>
      right
      dsimp only
      generalize hall : first :: second :: rest = candidates
      have hpos : (0, 0, 0).1 < candidates.length := by
        rw [← hall]
        exact Nat.succ_pos _
      have hlt := scan_index_lt K hpos (l := List.range candidates.length)
        fun i hi => List.mem_range.mp hi
      rw [List.getD_eq_getElem _ _ hlt]
      exact List.getElem_mem hlt

omit [FloatArith K] in
/-- A candidate is not blank, and is the local reply or one of a peer. -/
theorem mem_replyCandidates {localReply : Option String} {peers : List (String × String)}
    {c : String × String} (h : c ∈ replyCandidates localReply peers) :
    isBlank c.2 = false ∧ (c.1 = "local" ∧ localReply = some c.2 ∨ c ∈ peers) := by
  unfold replyCandidates at h
  rcases List.mem_append.mp h with hlocal | hpeer
  · cases localReply with
    | none => exact absurd hlocal List.not_mem_nil
    | some l =>
      by_cases hblank : isBlank l = true
      · simp [hblank] at hlocal
      · simp only [hblank, Bool.false_eq_true, if_false, List.mem_singleton] at hlocal
        subst hlocal
        exact ⟨by simpa using hblank, .inl ⟨rfl, rfl⟩⟩
  · obtain ⟨hmem, hspoken⟩ := List.mem_filter.mp hpeer
    exact ⟨by simpa using hspoken, .inr hmem⟩

/-- What is shown is the local reply, a reply that was collected, or the reasons why there is
none. -/
theorem chatReply_source (localResult : Except String String) (c : Collected) :
    ((chatReply localResult c).1 = "local" ∧ localResult = .ok (chatReply localResult c).2.1) ∨
    ((chatReply localResult c).1, (chatReply localResult c).2.1) ∈ c.peerReplies ∨
    ((chatReply localResult c).1 = "" ∧
      ∃ localError, (chatReply localResult c).2.1 = noCompletion localError c.peerErrors) := by
  have hchoice := pickAgreedReplyIn_mem Float localResult.toOption c.peerReplies
  unfold chatReply pickAgreedReply
  dsimp only
  generalize pickAgreedReplyIn Float localResult.toOption c.peerReplies = chosen at hchoice ⊢
  rcases hchoice with ⟨-, rfl⟩ | hmem
  · exact .inr (.inr ⟨rfl, _, rfl⟩)
  · obtain ⟨hspoken, hsource⟩ := mem_replyCandidates hmem
    -- a reply with something in it is shown as it is
    have hkept : ¬chosen.2.1.isEmpty = true := by
      intro hempty
      rw [String.isEmpty_iff.mp hempty] at hspoken
      exact Bool.noConfusion hspoken
    rw [if_neg hkept]
    rcases hsource with ⟨hlocal, hreply⟩ | hpeer
    · refine .inl ⟨hlocal, ?_⟩
      cases localResult with
      | error e => exact absurd hreply (Option.some_ne_none _).symm
      | ok reply => exact congrArg Except.ok (Option.some.inj hreply)
    · exact .inr (.inl hpeer)

end Choice

section Runs

variable {ids : Finset String} {config : String → InferenceConfig} {net : InferenceNet}
  {actions : List InferenceAction}

/-- A reply under the name of a member comes from the response that the member published for
the request of the chat. -/
theorem authentic_of_sound (h : NetSound ids config net) {v n text : String} {chat : Chat}
    (hv : v ∈ ids) (hchat : chat ∈ (net.nodes v).chats)
    (hreply : (n, text) ∈ chat.collected.peerReplies) (hn : n ∈ ids) :
    n ≠ v ∧ (⟨n, chat.request, .ok text⟩ : Answer) ∈ net.answers ∧
      ∃ runtime, completeForRequest (config n) n chat.request runtime = some (.ok text) := by
  obtain ⟨k, hk⟩ := List.getElem?_of_mem hchat
  have hsound := (h.grounded v hv).chats k chat hk
  -- the first response of the node that the chat has read
  have htally := tally_collectAll v (((net.nodes v).channels.getD k []).take chat.read)
  rw [← hsound.collected] at htally
  obtain ⟨hne, r, hfirst, herror, rfl⟩ := (htally.replies n text).mp hreply
  obtain ⟨hmem, rfl⟩ := nodeId_of_firstOf hfirst
  obtain ⟨hid, -, p, hp, hr⟩ := hsound.heard r (List.mem_of_mem_take hmem)
  -- it was published for an answer to a request with the id of the chat
  obtain ⟨⟨node, request, result⟩, ha, rfl⟩ := h.answered p hp r hr hn
  obtain ⟨-, ⟨q, hq, htaken⟩, hresult⟩ := h.honest _ ha
  obtain rfl : request = chat.request :=
    h.unique v hv chat hchat q hq request (takenOn_eq_some.mp htaken).1 hid
  cases result with
  | error e => simp [Answer.response] at herror
  | ok reply => exact ⟨hne, ha, hresult.resolve_left fun hbusy => by cases hbusy⟩

/-- Where the text that a chat shows comes from: its own runtime, a member that made it of the
request of this very chat, somebody outside, or nowhere. -/
inductive ShownFrom (ids : Finset String) (config : String → InferenceConfig) (net : InferenceNet)
    (v : String) (chat : Chat) (localResult : Except String String) (shown : String × String × ℕ) :
    Prop
  | own (hname : shown.1 = "local") (hreply : localResult = .ok shown.2.1)
  | member (hid : shown.1 ∈ ids) (hother : shown.1 ≠ v)
      (hanswer : (⟨shown.1, chat.request, .ok shown.2.1⟩ : Answer) ∈ net.answers)
      (hrun : ∃ runtime, completeForRequest (config shown.1) shown.1 chat.request runtime =
        some (.ok shown.2.1))
  | outsider (hid : shown.1 ∉ ids) (hreply : (shown.1, shown.2.1) ∈ chat.collected.peerReplies)
  | nothing (hname : shown.1 = "")
      (hreasons : ∃ localError, shown.2.1 = noCompletion localError chat.collected.peerErrors)

variable [Crates] [RustText] [FloatText]

/-- What a chat shows, at any moment of any legal run, comes from one of these. -/
theorem chat_reply_authentic [UnicodeTables] (hstart : net.Start ids config)
    (hlegal : (inferenceMachine ids).Legal net actions) {v : String} {chat : Chat} (hv : v ∈ ids)
    (hchat : chat ∈ (((inferenceMachine ids).run net actions).nodes v).chats)
    (localResult : Except String String) :
    ShownFrom ids config ((inferenceMachine ids).run net actions) v chat localResult
      (chatReply localResult chat.collected) := by
  have hsound := NetSound.of_legal hstart hlegal
  rcases chatReply_source localResult chat.collected with ⟨hname, hreply⟩ | hpeer | ⟨hname, hnone⟩
  · exact .own hname hreply
  · by_cases hid : (chatReply localResult chat.collected).1 ∈ ids
    · obtain ⟨hother, hanswer, hrun⟩ := authentic_of_sound hsound hv hchat hpeer hid
      exact .member hid hother hanswer hrun
    · exact .outsider hid hpeer
  · exact .nothing hname hnone

/-- What a chat has collected: the first response of each other node among those it has read,
all of them to its own request, and no more nodes than it expects.  A chat that expects nobody
collects until its grace window is over. -/
structure CollectedExactly (v : String) (heard : List InferenceResponse) (chat : Chat) : Prop where
  tally : Tally v heard chat.collected
  own : ∀ r ∈ heard, r.requestId = chat.request.requestId ∧ r.nodeId ≠ v
  bounded : chat.expected = 0 ∨ chat.collected.peersResponded ≤ chat.expected
  going : chat.collecting = true →
    chat.expected = 0 ∨ chat.collected.peersResponded < chat.expected

/-- The collection of a chat after every run, whatever was delivered and whether the chat still
reads or not. -/
theorem collected_exact (hstart : net.Start ids config) {v : String} {chat : Chat} {k : ℕ}
    (hv : v ∈ ids)
    (hchat : (((inferenceMachine ids).run net actions).nodes v).chats[k]? = some chat) :
    CollectedExactly v (((((inferenceMachine ids).run net actions).nodes v).channels.getD k []).take
      chat.read) chat := by
  have hsound := (grounded_run hstart actions hv).chats k chat hchat
  have htally := tally_collectAll v (((((inferenceMachine ids).run net actions).nodes
    v).channels.getD k []).take chat.read)
  rw [← hsound.collected] at htally
  refine ⟨htally, ?_, ?_, ?_⟩
  · intro r hr
    obtain ⟨hid, hown, -⟩ := hsound.heard r (List.mem_of_mem_take hr)
    exact ⟨hid, hown⟩
  · rw [htally.card]
    exact hsound.bounded
  · rw [htally.card]
    exact hsound.going

end Runs

end Exodus.Analysis

/-! ## On the sample -/

namespace Exodus.Analysis

open Exodus.Library Exodus.Model Exodus.Interface Exodus.Sample

local instance duoTables : UnicodeTables where
  isAlphanumeric c := c.isAlphanum
  isWhitespace c := c.isWhitespace

/-- The first member asks, the second one answers with its stub, and the first one collects the
answer. -/
def exchange : List InferenceAction :=
  [.ask "a" "r1" "m" question.messages 2 0, .request "b" question.toValue, .start "b" 0,
    .answer "b" 0 stubRuntime, .response "a" stubAnswer.response.toValue, .collect "a" 0]

/-- Nobody speaks under the name of a member. -/
theorem exchange_legal : (inferenceMachine duo).Legal duoNet exchange := by
  refine ⟨⟨a_mem_duo, ?_⟩, ⟨b_mem_duo, ?_⟩, b_mem_duo, b_mem_duo, ⟨a_mem_duo, ?_⟩, a_mem_duo,
    trivial⟩
  · intro p hp
    exact absurd hp List.not_mem_nil
  · exact List.mem_cons_self
  · exact List.mem_cons_self

/-- The chat of the first member after the exchange. -/
def answeredChat : Chat where
  request := question
  expected := 1
  read := 1
  collected := ⟨{"b"}, 1, [("b", "[node:b] distributed stub (inference disabled)")], []⟩
  collecting := false

/-- The chat is the only one of the first member. -/
theorem exchange_chats :
    (((inferenceMachine duo).run duoNet exchange).nodes "a").chats = [answeredChat] := rfl

/-- The stub of the second member is what the chat of the first one shows. -/
theorem duo_shown : (chatReply (.error "no runtime") answeredChat.collected).1 = "b" ∧
    ShownFrom duo (fun _ => stubConfig) ((inferenceMachine duo).run duoNet exchange) "a" answeredChat
      (.error "no runtime") (chatReply (.error "no runtime") answeredChat.collected) := by
  refine ⟨rfl, chat_reply_authentic duoNet_start exchange_legal a_mem_duo ?_ _⟩
  rw [exchange_chats]
  exact List.mem_singleton.mpr rfl

/-- The chat of the first member has heard from the one peer that it expects. -/
theorem duo_collected : answeredChat.collected.peersResponded = 1 ∧
    CollectedExactly "a" (((((inferenceMachine duo).run duoNet exchange).nodes "a").channels.getD 0
      []).take answeredChat.read) answeredChat := by
  refine ⟨rfl, collected_exact duoNet_start a_mem_duo ?_⟩
  rw [exchange_chats]
  rfl

end Exodus.Analysis
