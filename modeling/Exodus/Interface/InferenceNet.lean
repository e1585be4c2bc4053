import Exodus.Interface.FanOutSpec
import Exodus.Library.Machine

/-!
# Distributed inference across nodes

The members of a network run their coordinators; the payloads on the two topics are recorded,
and any of them may be delivered to any member, late, repeatedly or never.  Others may publish
what they like, as long as they do not speak under the name of a member or reuse the request
id of a member's chat.  What a member keeps of its own chats and threads does not depend on
that: it holds for whatever is delivered (`Grounded.step`).

`NetSound` is what every state of such a network keeps: what a member holds comes from payloads
that were published, and what was published under the name of a member is an answer of that
member to a request it had received.
-/

set_option autoImplicit false

namespace Exodus.Interface

open Exodus.Library Exodus.Model

/-- The members, the payloads of the two topics, and the answers of the members. -/
structure InferenceNet where
  nodes : String → FanOut
  requests : List Json
  responses : List Json
  answers : List Answer

inductive InferenceAction where
  /-- a chat at a member asks its peers -/
  | ask (v uuid model : String) (messages : List InferenceTurn) (committee connected : ℕ)
  /-- a payload of the topic of requests reaches a member -/
  | request (v : String) (payload : Json)
  /-- a payload of the topic of responses reaches a member -/
  | response (v : String) (payload : Json)
  | start (v : String) (job : ℕ)
  | answer (v : String) (job : ℕ) (runtime : Runtime)
  | retire (v : String) (job : ℕ) (seconds : FiniteFloat) (uuid now : String)
  | collect (v : String) (chat : ℕ)
  | close (v : String) (chat : ℕ)
  /-- the consensus of a member performs an operation -/
  | protocol (v : String) (op : Node.Op)
  | foreignRequest (payload : Json)
  | foreignResponse (payload : Json)

namespace InferenceNet

variable (net : InferenceNet)

def setNode (v : String) (f : FanOut) : InferenceNet :=
  { net with nodes := Function.update net.nodes v f }

/-- Answers are published as responses. -/
def publish (answers : List Answer) : InferenceNet :=
  { net with
    responses := net.responses ++ answers.map fun a => a.response.toValue
    answers := net.answers ++ answers }

/-- A thread has gone on, and an answer that it gives is published. -/
def perform (v : String) (r : FanOut × Option Answer) : InferenceNet :=
  (net.setNode v r.1).publish r.2.toList

variable [Crates] [RustText] [FloatText]

def step : InferenceAction → InferenceNet
  | .ask v uuid model messages committee connected =>
    let r := (net.nodes v).openChat uuid model messages committee connected
    { net.setNode v r.1 with requests := net.requests ++ [r.2.toValue] }
  | .request v payload => net.setNode v ((net.nodes v).onInferRequest payload)
  | .response v payload => net.setNode v ((net.nodes v).onInferResponse payload)
  | .start v job => net.perform v ((net.nodes v).startJob job)
  | .answer v job runtime => net.perform v ((net.nodes v).answerJob job runtime)
  | .retire v job seconds uuid now =>
    net.setNode v ((net.nodes v).retireJob job seconds uuid now)
  | .collect v chat => net.setNode v ((net.nodes v).collectChat chat)
  | .close v chat => net.setNode v ((net.nodes v).closeChat chat)
  | .protocol v op =>
    let c := (net.nodes v).coordinator
    net.setNode v { net.nodes v with coordinator := { c with consensus := (c.consensus.step op).1 } }
  | .foreignRequest payload => { net with requests := net.requests ++ [payload] }
  | .foreignResponse payload => { net with responses := net.responses ++ [payload] }

omit [Crates] [RustText] [FloatText]

/-- Request ids are random, payloads are delivered once they are published, and the others
keep to names and request ids of their own. -/
def Admits (ids : Finset String) : InferenceAction → Prop
  | .ask v uuid _ _ _ _ => v ∈ ids ∧
    ∀ p ∈ net.requests, ∀ r, InferenceRequest.fromValue p = some r → r.requestId ≠ uuid
  | .request v payload => v ∈ ids ∧ payload ∈ net.requests
  | .response v payload => v ∈ ids ∧ payload ∈ net.responses
  | .start v _ | .answer v _ _ | .retire v _ _ _ _ | .collect v _ | .close v _ | .protocol v _ =>
    v ∈ ids
  | .foreignRequest payload =>
    ∀ r, InferenceRequest.fromValue payload = some r →
      ∀ v ∈ ids, ∀ chat ∈ (net.nodes v).chats, r.requestId ≠ chat.request.requestId
  | .foreignResponse payload =>
    ∀ r, InferenceResponse.fromValue payload = some r → r.nodeId ∉ ids

/-- The member that is set. -/
@[simp] theorem setNode_nodes_self (v : String) (f : FanOut) : (net.setNode v f).nodes v = f :=
  Function.update_self ..

/-- The others stay. -/
theorem setNode_nodes_of_ne {v w : String} (f : FanOut) (h : w ≠ v) :
    (net.setNode v f).nodes w = net.nodes w := Function.update_of_ne h ..

end InferenceNet

/-- The member that an action is of, if it is of one. -/
def InferenceAction.actor : InferenceAction → Option String
  | .ask v _ _ _ _ _ | .request v _ | .response v _ | .start v _ | .answer v _ _
  | .retire v _ _ _ _ | .collect v _ | .close v _ | .protocol v _ => some v
  | .foreignRequest _ | .foreignResponse _ => none

/-- The network of the given members. -/
def inferenceMachine [Crates] [RustText] [FloatText] (ids : Finset String) :
    Machine InferenceNet InferenceAction where
  admits net := net.Admits ids
  step net := net.step

/-- The network where anybody publishes anything, and anything is delivered. -/
def openMachine [Crates] [RustText] [FloatText] (ids : Finset String) :
    Machine InferenceNet InferenceAction where
  admits _ a := ∀ v ∈ a.actor, v ∈ ids
  step net := net.step

/-! ## Members -/

/-- A chat, the channel that it reads, and what it has made of it. -/
structure ChatSound (responses : Set Json) (v : String) (channel : List InferenceResponse)
    (chat : Chat) : Prop where
  origin : chat.request.origin = v
  heard : ∀ r ∈ channel, r.requestId = chat.request.requestId ∧ r.nodeId ≠ v ∧
    ∃ p ∈ responses, InferenceResponse.fromValue p = some r
  read_le : chat.read ≤ channel.length
  collected : chat.collected = collectAll v (channel.take chat.read)
  going : chat.collecting = true → chat.expected = 0 ∨ chat.collected.seen.card < chat.expected
  bounded : chat.expected = 0 ∨ chat.collected.seen.card ≤ chat.expected

namespace ChatSound

variable {responses : Set Json} {v : String} {channel : List InferenceResponse} {chat : Chat}

/-- A chat that was just opened is sound. -/
theorem opened {request : InferenceRequest} (horigin : request.origin = v) (expected : ℕ) :
    ChatSound responses v [] ⟨request, expected, 0, .start, true⟩ where
  origin := horigin
  heard _ hr := absurd hr List.not_mem_nil
  read_le := le_rfl
  collected := rfl
  going _ := Nat.eq_zero_or_pos _
  bounded := .inr (Nat.zero_le _)

/-- A chat that is sound stays so when more is published. -/
theorem mono {responses' : Set Json} (h : ChatSound responses v channel chat)
    (hsub : responses ⊆ responses') : ChatSound responses' v channel chat :=
  { h with
    heard := fun r hr =>
      ⟨(h.heard r hr).1, (h.heard r hr).2.1, (h.heard r hr).2.2.imp fun _ hp => ⟨hsub hp.1, hp.2⟩⟩ }

/-- A response more comes through the channel. -/
theorem receive (h : ChatSound responses v channel chat) {p : Json} {r : InferenceResponse}
    (hp : p ∈ responses) (hr : InferenceResponse.fromValue p = some r)
    (hid : r.requestId = chat.request.requestId) (hown : r.nodeId ≠ v) :
    ChatSound responses v (channel ++ [r]) chat :=
  { h with
    heard := by
      intro r' hr'
      rcases List.mem_append.mp hr' with hold | hnew
      · exact h.heard r' hold
      · rw [List.mem_singleton.mp hnew]
        exact ⟨hid, hown, p, hp, hr⟩
    read_le := by
      rw [List.length_append]
      exact Nat.le_add_right_of_le h.read_le
    collected := by
      rw [List.take_append_of_le_length h.read_le]
      exact h.collected }

/-- A turn of the loop. -/
theorem advance (h : ChatSound responses v channel chat) {r : InferenceResponse}
    (hr : channel[chat.read]? = some r) (hgoing : chat.collecting = true) :
    ChatSound responses v channel
      (chat.advance (collectTurn v chat.expected chat.collected r)) := by
  obtain ⟨hlt, hget⟩ := List.getElem?_eq_some_iff.mp hr
  have htake : channel.take (chat.read + 1) = channel.take chat.read ++ [r] := by
    rw [List.take_add_one, hr, Option.toList_some]
  refine ⟨h.origin, h.heard, hlt, ?_, ?_, ?_⟩
  · show (collectTurn v chat.expected chat.collected r).1 =
      collectAll v (channel.take (chat.read + 1))
    rw [htake, collectAll_concat, ← h.collected, collectTurn_fst]
  all_goals
    rcases collectTurn_cases v chat.expected chat.collected r with ⟨-, heq⟩ | ⟨-, hnew, heq⟩
  · intro _
    rw [heq]
    exact h.going hgoing
  · rw [heq]
    intro hon
    have hcard : ¬(0 < chat.expected ∧ chat.expected ≤ (chat.collected.take r).seen.card) := by
      simpa [Chat.advance, imp_iff_not_or] using hon
    show chat.expected = 0 ∨ (chat.collected.take r).seen.card < chat.expected
    omega
  · rw [heq]
    exact h.bounded
  · -- the loop was going on, so there was room for one node more
    rw [heq]
    show chat.expected = 0 ∨ (insert r.nodeId chat.collected.seen).card ≤ chat.expected
    rw [Finset.card_insert_of_notMem hnew]
    have := h.going hgoing
    omega

/-- It stays so when it stops to collect. -/
theorem stop (h : ChatSound responses v channel chat) :
    ChatSound responses v channel { chat with collecting := false } :=
  { h with going := fun hon => absurd hon Bool.false_ne_true }

end ChatSound

/-- What a member holds comes from payloads that it was given. -/
structure Grounded (requests responses : Set Json) (v : String) (config : InferenceConfig)
    (f : FanOut) : Prop where
  named : f.nodeId = v
  config_eq : f.config = config
  paired : f.channels.length = f.chats.length
  routed : ∀ (id : String) (k : ℕ), f.inferTx[id]? = some k →
    ∃ chat, f.chats[k]? = some chat ∧ chat.request.requestId = id
  asked : ∀ chat ∈ f.chats, chat.request.toValue ∈ requests
  chats : ∀ (k : ℕ) (chat : Chat), f.chats[k]? = some chat →
    ChatSound responses v (f.channels.getD k []) chat
  working : ∀ job ∈ f.jobs, ∃ p ∈ requests, takenOn v p = some job.request

namespace Grounded

variable {requests responses : Set Json} {v : String} {config : InferenceConfig} {f : FanOut}

/-- A member that is grounded stays so when more is published. -/
theorem mono {requests' responses' : Set Json} (h : Grounded requests responses v config f)
    (hreq : requests ⊆ requests') (hres : responses ⊆ responses') :
    Grounded requests' responses' v config f :=
  { h with
    asked := fun chat hchat => hreq (h.asked chat hchat)
    chats := fun k chat hchat => (h.chats k chat hchat).mono hres
    working := fun job hjob => (h.working job hjob).imp fun _ hp => ⟨hreq hp.1, hp.2⟩ }

/-- A member stays grounded with other threads, if each of them is for a request that it took. -/
theorem withJobs (h : Grounded requests responses v config f) {slots : ℕ} {jobs : List Job}
    (hjobs : ∀ job ∈ jobs, ∃ p ∈ requests, takenOn v p = some job.request) :
    Grounded requests responses v config { f with slots, jobs } :=
  { h with working := hjobs }

/-- A thread that goes on works on the same request. -/
theorem working_set (h : Grounded requests responses v config f) {i : ℕ} {old new : Job}
    (hold : f.jobs[i]? = some old) (hsame : new.request = old.request) :
    ∀ job ∈ f.jobs.set i new, ∃ p ∈ requests, takenOn v p = some job.request := by
  intro job hjob
  rcases List.mem_or_eq_of_mem_set hjob with hmem | rfl
  · exact h.working job hmem
  · rw [hsame]
    exact h.working old (List.mem_of_getElem? hold)

/-- A thread that ends leaves the others. -/
theorem working_erase (h : Grounded requests responses v config f) (i : ℕ) :
    ∀ job ∈ f.jobs.eraseIdx i, ∃ p ∈ requests, takenOn v p = some job.request :=
  fun job hjob => h.working job (List.mem_of_mem_eraseIdx hjob)

/-- A request that is delivered may be taken on. -/
theorem onInferRequest (h : Grounded requests responses v config f) {p : Json}
    (hp : p ∈ requests) : Grounded requests responses v config (f.onInferRequest p) := by
  rw [onInferRequest_eq]
  refine { h with working := ?_ }
  intro job hjob
  rcases List.mem_append.mp hjob with hold | hnew
  · exact h.working job hold
  · obtain ⟨r, hr, rfl⟩ := List.mem_map.mp hnew
    rw [Option.mem_toList, h.named] at hr
    exact ⟨p, hp, hr⟩

/-- A response that is delivered may be passed to a chat. -/
theorem onInferResponse (h : Grounded requests responses v config f) {p : Json}
    (hp : p ∈ responses) : Grounded requests responses v config (f.onInferResponse p) := by
  rcases onInferResponse_cases f p with heq | ⟨r, k, hr, hown, htx, heq⟩
  · rw [heq]
    exact h
  · rw [heq]
    obtain ⟨target, htarget, hid⟩ := h.routed _ _ htx
    refine { h with paired := ?_, chats := ?_ }
    · rw [List.length_modify]
      exact h.paired
    · intro j chat hchat
      have hchannel : (f.channels.modify k (· ++ [r])).getD j [] =
          if k = j then f.channels.getD j [] ++ [r] else f.channels.getD j [] := by
        obtain ⟨hlt, -⟩ := List.getElem?_eq_some_iff.mp hchat
        rw [← h.paired] at hlt
        simp only [List.getD_eq_getElem?_getD, List.getElem?_modify,
          List.getElem?_eq_getElem hlt]
        split_ifs <;> simp
      rw [hchannel]
      split_ifs with hk
      · subst hk
        obtain rfl : target = chat := by
          rw [htarget] at hchat
          exact Option.some.inj hchat
        rw [h.named] at hown
        exact (h.chats k target hchat).receive hp hr hid.symm hown
      · exact h.chats j chat hchat

/-- A new chat publishes its request. -/
theorem openChat (h : Grounded requests responses v config f) (uuid model : String)
    (messages : List InferenceTurn) (committee connected : ℕ) :
    Grounded
      (insert (f.openChat uuid model messages committee connected).2.toValue requests) responses v
      config (f.openChat uuid model messages committee connected).1 := by
  generalize hrequest : (f.openChat uuid model messages committee connected).2 = request
  have hid : request.requestId = uuid := by rw [← hrequest]; rfl
  have horigin : request.origin = v := by rw [← hrequest, ← h.named]; rfl
  have hstate : (f.openChat uuid model messages committee connected).1 = { f with
      inferTx := f.inferTx.insert uuid f.channels.length
      channels := f.channels ++ [[]]
      chats := f.chats ++ [⟨request, expectedPeers committee connected, 0, .start, true⟩] } := by
    rw [← hrequest]
    rfl
  rw [hstate]
  have hm := h.mono (Set.subset_insert request.toValue requests) (Set.Subset.refl responses)
  refine ⟨h.named, h.config_eq, ?_, ?_, ?_, ?_, hm.working⟩
  · simp [h.paired]
  · intro id k hk
    dsimp only at hk ⊢
    rw [Std.ExtTreeMap.getElem?_insert] at hk
    split_ifs at hk with heq
    · cases hk
      refine ⟨_, by rw [h.paired, List.getElem?_concat_length], ?_⟩
      rw [hid]
      exact Std.LawfulEqOrd.eq_of_compare heq
    · obtain ⟨chat, hchat, hchatId⟩ := h.routed id k hk
      exact ⟨chat, by rw [List.getElem?_append_left (List.getElem?_eq_some_iff.mp hchat).1, hchat],
        hchatId⟩
  · intro chat hchat
    rcases List.mem_append.mp hchat with hold | hnew
    · exact hm.asked chat hold
    · rw [List.mem_singleton.mp hnew]
      exact Set.mem_insert _ _
  · intro k chat hchat
    dsimp only at hchat ⊢
    by_cases hk : k < f.chats.length
    · rw [List.getElem?_append_left hk] at hchat
      rw [List.getD_append _ _ _ _ (by rw [h.paired]; exact hk)]
      exact hm.chats k chat hchat
    · rw [List.getElem?_append_right (not_lt.mp hk)] at hchat
      obtain ⟨hlast, rfl⟩ := List.getElem?_eq_some_iff.mp hchat
      have hk : k = f.channels.length := by
        rw [h.paired]
        simp only [List.length_singleton] at hlast
        omega
      subst hk
      simp only [h.paired, Nat.sub_self, List.getElem_cons_zero]
      rw [← h.paired, List.getD_append_right _ _ _ _ le_rfl, Nat.sub_self]
      exact .opened horigin _

/-- A thread starts, or answers that the member is busy. -/
theorem startJob (h : Grounded requests responses v config f) (i : ℕ) :
    Grounded requests responses v config (f.startJob i).1 ∧
      ∀ a ∈ (f.startJob i).2, a.node = v ∧ (∃ p ∈ requests, takenOn v p = some a.request) ∧
        a.result = .error busy := by
  rcases startJob_cases f i with heq | ⟨r, hjob, -, heq⟩ | ⟨r, hjob, -, heq⟩ <;> rw [heq]
  · exact ⟨h, fun a ha => absurd ha (by simp)⟩
  · refine ⟨h.withJobs (h.working_erase i), ?_⟩
    rintro a ⟨⟩
    exact ⟨h.named, h.working _ (List.mem_of_getElem? hjob), rfl⟩
  · exact ⟨h.withJobs (h.working_set hjob rfl), fun a ha => absurd ha (by simp)⟩

/-- A thread answers with what the member makes of the request. -/
theorem answerJob (h : Grounded requests responses v config f) (i : ℕ) (runtime : Runtime) :
    Grounded requests responses v config (f.answerJob i runtime).1 ∧
      ∀ a ∈ (f.answerJob i runtime).2, a.node = v ∧
        (∃ p ∈ requests, takenOn v p = some a.request) ∧
        completeForRequest config v a.request runtime = some a.result := by
  rcases answerJob_cases f i runtime with heq | ⟨r, hjob, -, heq⟩ | ⟨r, result, hjob, hdone, heq⟩ <;>
    rw [heq]
  · exact ⟨h, fun a ha => absurd ha (by simp)⟩
  · exact ⟨h.withJobs (h.working_erase i), fun a ha => absurd ha (by simp)⟩
  · refine ⟨h.withJobs (h.working_set hjob rfl), ?_⟩
    rintro a ⟨⟩
    rw [h.config_eq, h.named] at hdone
    exact ⟨h.named, h.working _ (List.mem_of_getElem? hjob), hdone⟩

/-- A thread that ends leaves its member grounded. -/
theorem retireJob [Crates] [RustText] [FloatText] (h : Grounded requests responses v config f)
    (i : ℕ) (seconds : FiniteFloat) (uuid now : String) :
    Grounded requests responses v config (f.retireJob i seconds uuid now) := by
  rcases retireJob_cases f i seconds uuid now with heq | ⟨r, result, c, hjob, hc, heq⟩ <;> rw [heq]
  · exact h
  · exact { h with
      named := (congrArg NodeIdentity.nodeId hc).trans h.named
      working := h.working_erase i }

/-- A chat is replaced by one of the same request. -/
theorem setChat (h : Grounded requests responses v config f) {i : ℕ} {old new : Chat}
    (hold : f.chats[i]? = some old) (hsame : new.request = old.request)
    (hnew : ChatSound responses v (f.channels.getD i []) new) :
    Grounded requests responses v config { f with chats := f.chats.set i new } := by
  obtain ⟨hlt, -⟩ := List.getElem?_eq_some_iff.mp hold
  refine { h with paired := ?_, routed := ?_, asked := ?_, chats := ?_ }
  · rw [List.length_set]
    exact h.paired
  · intro id k hk
    obtain ⟨chat, hchat, hid⟩ := h.routed id k hk
    by_cases hik : i = k
    · subst hik
      rw [hold] at hchat
      cases hchat
      exact ⟨new, List.getElem?_set_self hlt, by rw [hsame, hid]⟩
    · exact ⟨chat, by rw [List.getElem?_set_ne hik, hchat], hid⟩
  · intro chat hchat
    rcases List.mem_or_eq_of_mem_set hchat with hmem | rfl
    · exact h.asked chat hmem
    · rw [hsame]
      exact h.asked old (List.mem_of_getElem? hold)
  · intro k chat hchat
    by_cases hik : i = k
    · subst hik
      rw [List.getElem?_set_self hlt] at hchat
      cases hchat
      exact hnew
    · rw [List.getElem?_set_ne hik] at hchat
      exact h.chats k chat hchat

/-- So does a chat that reads a response. -/
theorem collectChat (h : Grounded requests responses v config f) (i : ℕ) :
    Grounded requests responses v config (f.collectChat i) := by
  rcases collectChat_cases f i with heq | ⟨chat, r, hchat, hr, hgoing, heq⟩ <;> rw [heq]
  · exact h
  · rw [h.named]
    exact h.setChat hchat rfl ((h.chats i chat hchat).advance hr hgoing)

/-- So does a chat that is closed. -/
theorem closeChat (h : Grounded requests responses v config f) (i : ℕ) :
    Grounded requests responses v config (f.closeChat i) := by
  rcases closeChat_cases f i with heq | ⟨chat, hchat, heq⟩ <;> rw [heq]
  · exact h
  · have hset : Grounded requests responses v config
        { f with chats := f.chats.set i { chat with collecting := false } } :=
      h.setChat hchat rfl (h.chats i chat hchat).stop
    refine { hset with routed := ?_ }
    intro id k hk
    rw [Std.ExtTreeMap.getElem?_erase] at hk
    split_ifs at hk
    exact hset.routed id k hk

/-- So does any operation of the consensus. -/
theorem protocol [Crates] (h : Grounded requests responses v config f) (consensus : Node) :
    Grounded requests responses v config
      { f with coordinator := { f.coordinator with consensus } } := { h with }

/-- A member that does not act stays as it is, and one that acts stays grounded. -/
theorem setNode {net : InferenceNet} (h : Grounded requests responses v config (net.nodes v))
    {w : String} (hf : w = v → Grounded requests responses v config f) :
    Grounded requests responses v config ((net.setNode w f).nodes v) := by
  by_cases hwv : v = w
  · subst hwv
    rw [InferenceNet.setNode_nodes_self]
    exact hf rfl
  · rw [InferenceNet.setNode_nodes_of_ne net f hwv]
    exact h

/-- Whatever happens in the network, a member is grounded in some payloads. -/
theorem step [Crates] [RustText] [FloatText] {net : InferenceNet}
    (h : Grounded Set.univ Set.univ v config (net.nodes v)) (a : InferenceAction) :
    Grounded Set.univ Set.univ v config ((net.step a).nodes v) := by
  cases a with
  | ask w uuid model messages committee connected =>
    refine h.setNode fun hw => ?_
    subst hw
    exact (h.openChat uuid model messages committee connected).mono (Set.subset_univ _)
      (Set.subset_univ _)
  | request w payload =>
    refine h.setNode fun hw => ?_
    subst hw
    exact h.onInferRequest (Set.mem_univ _)
  | response w payload =>
    refine h.setNode fun hw => ?_
    subst hw
    exact h.onInferResponse (Set.mem_univ _)
  | start w job =>
    refine h.setNode fun hw => ?_
    subst hw
    exact (h.startJob job).1
  | answer w job runtime =>
    refine h.setNode fun hw => ?_
    subst hw
    exact (h.answerJob job runtime).1
  | retire w job seconds uuid now =>
    refine h.setNode fun hw => ?_
    subst hw
    exact h.retireJob job seconds uuid now
  | collect w i =>
    refine h.setNode fun hw => ?_
    subst hw
    exact h.collectChat i
  | close w i =>
    refine h.setNode fun hw => ?_
    subst hw
    exact h.closeChat i
  | protocol w op =>
    refine h.setNode fun hw => ?_
    subst hw
    exact h.protocol _
  | foreignRequest payload => exact h
  | foreignResponse payload => exact h

end Grounded

/-! ## The network -/

/-- Members are grounded, the requests of their chats are told apart by their ids, and what
was published under the name of a member is an answer of it. -/
structure NetSound (ids : Finset String) (config : String → InferenceConfig) (net : InferenceNet) :
    Prop where
  grounded : ∀ v ∈ ids,
    Grounded {p | p ∈ net.requests} {p | p ∈ net.responses} v (config v) (net.nodes v)
  unique : ∀ v ∈ ids, ∀ chat ∈ (net.nodes v).chats, ∀ p ∈ net.requests, ∀ r,
    InferenceRequest.fromValue p = some r → r.requestId = chat.request.requestId →
      r = chat.request
  answered : ∀ p ∈ net.responses, ∀ r, InferenceResponse.fromValue p = some r →
    r.nodeId ∈ ids → ∃ a ∈ net.answers, r = a.response
  honest : ∀ a ∈ net.answers, a.node ∈ ids ∧
    (∃ p ∈ net.requests, takenOn a.node p = some a.request) ∧
    (a.result = .error busy ∨
      ∃ runtime, completeForRequest (config a.node) a.node a.request runtime = some a.result)

/-- All members are new, and nothing is published. -/
structure InferenceNet.Start (ids : Finset String) (config : String → InferenceConfig)
    (net : InferenceNet) : Prop where
  members : ∀ v ∈ ids, ∃ c gpu, c.identity.nodeId = v ∧ net.nodes v = FanOut.new c (config v) gpu
  requests : net.requests = []
  responses : net.responses = []
  answers : net.answers = []

/-- A new member is grounded. -/
theorem grounded_new {v : String} {c : ExodusCoordinator} {config : InferenceConfig} {gpu : Bool}
    (hc : c.identity.nodeId = v) (requests responses : Set Json) :
    Grounded requests responses v config (FanOut.new c config gpu) where
  named := hc
  config_eq := rfl
  paired := rfl
  routed id k hk := by simp [FanOut.new] at hk
  asked chat hchat := absurd hchat List.not_mem_nil
  chats k chat hchat := by simp [FanOut.new] at hchat
  working job hjob := absurd hjob List.not_mem_nil

/-- After every run of a network that starts anew the members are grounded in some payloads. -/
theorem grounded_run [Crates] [RustText] [FloatText] {ids : Finset String}
    {config : String → InferenceConfig} {net : InferenceNet} (hstart : net.Start ids config)
    (actions : List InferenceAction) {v : String} (hv : v ∈ ids) :
    Grounded Set.univ Set.univ v (config v) (((inferenceMachine ids).run net actions).nodes v) := by
  induction actions using List.reverseRecOn with
  | nil =>
    obtain ⟨c, gpu, hc, hnode⟩ := hstart.members v hv
    rw [Machine.run_nil, hnode]
    exact grounded_new hc _ _
  | append_singleton past a ih =>
    rw [Machine.run_concat]
    exact ih.step a

namespace NetSound

variable {ids : Finset String} {config : String → InferenceConfig} {net : InferenceNet}

/-- A network that starts anew is sound. -/
theorem of_start (h : InferenceNet.Start ids config net) : NetSound ids config net := by
  refine ⟨?_, ?_, ?_, ?_⟩
  · intro v hv
    obtain ⟨c, gpu, hc, hnode⟩ := h.members v hv
    rw [hnode]
    exact grounded_new hc _ _
  · intro v hv chat hchat p hp
    rw [h.requests] at hp
    exact absurd hp List.not_mem_nil
  · intro p hp
    rw [h.responses] at hp
    exact absurd hp List.not_mem_nil
  · intro a ha
    rw [h.answers] at ha
    exact absurd ha List.not_mem_nil

/-- A member goes on; its chats keep their requests. -/
theorem setNode (h : NetSound ids config net) {v : String} {f : FanOut}
    (hf : Grounded {p | p ∈ net.requests} {p | p ∈ net.responses} v (config v) f)
    (hchats : ∀ chat ∈ f.chats, ∃ old ∈ (net.nodes v).chats, chat.request = old.request) :
    NetSound ids config (net.setNode v f) := by
  refine ⟨?_, ?_, h.answered, h.honest⟩
  · intro w hw
    by_cases hwv : w = v
    · subst hwv
      rw [InferenceNet.setNode_nodes_self]
      exact hf
    · rw [InferenceNet.setNode_nodes_of_ne net f hwv]
      exact h.grounded w hw
  · intro w hw chat hchat p hp r hr hid
    by_cases hwv : w = v
    · subst hwv
      rw [InferenceNet.setNode_nodes_self] at hchat
      obtain ⟨old, hold, hsame⟩ := hchats chat hchat
      rw [hsame] at hid ⊢
      exact h.unique w hw old hold p hp r hr hid
    · rw [InferenceNet.setNode_nodes_of_ne net f hwv] at hchat
      exact h.unique w hw chat hchat p hp r hr hid

/-- Honest answers are published. -/
theorem publish (h : NetSound ids config net) {answers : List Answer}
    (ha : ∀ a ∈ answers, a.node ∈ ids ∧
      (∃ p ∈ net.requests, takenOn a.node p = some a.request) ∧
      (a.result = .error busy ∨
        ∃ runtime, completeForRequest (config a.node) a.node a.request runtime = some a.result)) :
    NetSound ids config (net.publish answers) := by
  refine ⟨?_, h.unique, ?_, ?_⟩
  · intro v hv
    exact (h.grounded v hv).mono (Set.Subset.refl _) fun _ hp => List.mem_append_left _ hp
  · intro p hp r hr hid
    rcases List.mem_append.mp hp with hold | hnew
    · obtain ⟨a, ha, heq⟩ := h.answered p hold r hr hid
      exact ⟨a, List.mem_append_left _ ha, heq⟩
    · obtain ⟨a, ha, rfl⟩ := List.mem_map.mp hnew
      rw [inferenceResponse_fromValue_toValue] at hr
      exact ⟨a, List.mem_append_right _ ha, (Option.some.inj hr).symm⟩
  · intro a hmem
    rcases List.mem_append.mp hmem with hold | hnew
    · exact h.honest a hold
    · exact ha a hnew

/-- A chat of a member asks under a new request id. -/
theorem ask (h : NetSound ids config net) {v uuid : String} (hv : v ∈ ids)
    (hfresh : ∀ p ∈ net.requests, ∀ r, InferenceRequest.fromValue p = some r → r.requestId ≠ uuid)
    (model : String) (messages : List InferenceTurn) (committee connected : ℕ) :
    NetSound ids config
      { net.setNode v ((net.nodes v).openChat uuid model messages committee connected).1 with
        requests := net.requests ++
          [((net.nodes v).openChat uuid model messages committee connected).2.toValue] } := by
  have hopened := (h.grounded v hv).openChat uuid model messages committee connected
  have hchats : ∀ chat ∈ ((net.nodes v).openChat uuid model messages committee connected).1.chats,
      chat ∈ (net.nodes v).chats ∨
        chat.request = ((net.nodes v).openChat uuid model messages committee connected).2 := by
    intro chat hchat
    refine (List.mem_append.mp hchat).imp_right fun hnew => ?_
    rw [List.mem_singleton.mp hnew]
    rfl
  have hid : ((net.nodes v).openChat uuid model messages committee connected).2.requestId = uuid :=
    rfl
  generalize (net.nodes v).openChat uuid model messages committee connected = opened
    at hopened hchats hid ⊢
  have hsub : net.requests ⊆ net.requests ++ [opened.2.toValue] := List.subset_append_left _ _
  -- the request of an earlier chat has another id
  have hearlier : ∀ w ∈ ids, ∀ chat ∈ (net.nodes w).chats, uuid ≠ chat.request.requestId := by
    intro w hw chat hchat heq
    exact hfresh _ ((h.grounded w hw).asked chat hchat) chat.request
      (inferenceRequest_fromValue_toValue _) heq.symm
  refine ⟨?_, ?_, h.answered, ?_⟩
  · intro w hw
    by_cases hwv : w = v
    · subst hwv
      dsimp only
      rw [InferenceNet.setNode_nodes_self]
      refine hopened.mono (fun p hp => ?_) (Set.Subset.refl _)
      rcases Set.mem_insert_iff.mp hp with rfl | hold
      · exact List.mem_append_right _ (List.mem_singleton_self _)
      · exact hsub hold
    · dsimp only
      rw [InferenceNet.setNode_nodes_of_ne net _ hwv]
      exact (h.grounded w hw).mono (fun _ hp => hsub hp) (Set.Subset.refl _)
  · intro w hw chat hchat p hp r hr heq
    dsimp only at hchat hp
    have hcases : chat ∈ (net.nodes w).chats ∨ w = v ∧ chat.request = opened.2 := by
      by_cases hwv : w = v
      · subst hwv
        rw [InferenceNet.setNode_nodes_self] at hchat
        exact (hchats chat hchat).imp_right fun hc => ⟨rfl, hc⟩
      · rw [InferenceNet.setNode_nodes_of_ne net _ hwv] at hchat
        exact .inl hchat
    rcases List.mem_append.mp hp with hold | hnew <;> rcases hcases with hchat | ⟨-, hopen⟩
    · exact h.unique w hw chat hchat p hold r hr heq
    · rw [hopen, hid] at heq
      exact absurd heq (hfresh p hold r hr)
    · rw [List.mem_singleton.mp hnew, inferenceRequest_fromValue_toValue] at hr
      cases hr
      exact absurd (hid.symm.trans heq) (hearlier w hw chat hchat)
    · rw [List.mem_singleton.mp hnew, inferenceRequest_fromValue_toValue] at hr
      cases hr
      exact hopen.symm
  · intro a ha
    obtain ⟨hmember, ⟨p, hp, htaken⟩, hresult⟩ := h.honest a ha
    exact ⟨hmember, ⟨p, hsub hp, htaken⟩, hresult⟩

/-- It stays sound when others publish a request under an id of their own. -/
theorem foreignRequest (h : NetSound ids config net) {payload : Json}
    (hother : ∀ r, InferenceRequest.fromValue payload = some r →
      ∀ v ∈ ids, ∀ chat ∈ (net.nodes v).chats, r.requestId ≠ chat.request.requestId) :
    NetSound ids config { net with requests := net.requests ++ [payload] } := by
  refine ⟨?_, ?_, h.answered, ?_⟩
  · intro v hv
    exact (h.grounded v hv).mono (fun _ hp => List.mem_append_left _ hp) (Set.Subset.refl _)
  · intro v hv chat hchat p hp r hr heq
    rcases List.mem_append.mp hp with hold | hnew
    · exact h.unique v hv chat hchat p hold r hr heq
    · rw [List.mem_singleton.mp hnew] at hr
      exact absurd heq (hother r hr v hv chat hchat)
  · intro a ha
    obtain ⟨hmember, ⟨p, hp, htaken⟩, hresult⟩ := h.honest a ha
    exact ⟨hmember, ⟨p, List.mem_append_left _ hp, htaken⟩, hresult⟩

/-- It stays sound when others publish a response under a name of their own. -/
theorem foreignResponse (h : NetSound ids config net) {payload : Json}
    (hother : ∀ r, InferenceResponse.fromValue payload = some r → r.nodeId ∉ ids) :
    NetSound ids config { net with responses := net.responses ++ [payload] } := by
  refine ⟨?_, h.unique, ?_, h.honest⟩
  · intro v hv
    exact (h.grounded v hv).mono (Set.Subset.refl _) fun _ hp => List.mem_append_left _ hp
  · intro p hp r hr hid
    rcases List.mem_append.mp hp with hold | hnew
    · exact h.answered p hold r hr hid
    · rw [List.mem_singleton.mp hnew] at hr
      exact absurd hid (hother r hr)

variable [Crates] [RustText] [FloatText]

/-- It stays sound when an admitted action is taken. -/
theorem step (h : NetSound ids config net) {a : InferenceAction} (ha : net.Admits ids a) :
    NetSound ids config (net.step a) := by
  cases a with
  | ask v uuid model messages committee connected =>
    exact h.ask ha.1 ha.2 model messages committee connected
  | request v payload =>
    refine h.setNode ((h.grounded v ha.1).onInferRequest ha.2) fun chat hchat => ?_
    rw [onInferRequest_eq] at hchat
    exact ⟨chat, hchat, rfl⟩
  | response v payload =>
    refine h.setNode ((h.grounded v ha.1).onInferResponse ha.2) fun chat hchat => ⟨chat, ?_, rfl⟩
    rcases onInferResponse_cases (net.nodes v) payload with heq | ⟨r, k, -, -, -, heq⟩ <;>
      rwa [heq] at hchat
  | start v job =>
    have hv := h.grounded v ha
    have hset := h.setNode (hv.startJob job).1 fun chat hchat => ⟨chat, by
      rcases startJob_cases (net.nodes v) job with heq | ⟨r, -, -, heq⟩ | ⟨r, -, -, heq⟩ <;>
        rwa [heq] at hchat, rfl⟩
    refine hset.publish fun a hmem => ?_
    obtain ⟨rfl, htaken, hresult⟩ := (hv.startJob job).2 a (Option.mem_toList.mp hmem)
    exact ⟨ha, htaken, .inl hresult⟩
  | answer v job runtime =>
    have hv := h.grounded v ha
    have hset := h.setNode (hv.answerJob job runtime).1 fun chat hchat => ⟨chat, by
      rcases answerJob_cases (net.nodes v) job runtime with heq | ⟨r, -, -, heq⟩ |
        ⟨r, result, -, -, heq⟩ <;> rwa [heq] at hchat, rfl⟩
    refine hset.publish fun a hmem => ?_
    obtain ⟨rfl, htaken, hresult⟩ := (hv.answerJob job runtime).2 a (Option.mem_toList.mp hmem)
    exact ⟨ha, htaken, .inr ⟨runtime, hresult⟩⟩
  | retire v job seconds uuid now =>
    refine h.setNode ((h.grounded v ha).retireJob job seconds uuid now) fun chat hchat =>
      ⟨chat, ?_, rfl⟩
    rcases retireJob_cases (net.nodes v) job seconds uuid now with heq |
      ⟨r, result, c, -, -, heq⟩ <;> rwa [heq] at hchat
  | collect v i =>
    refine h.setNode ((h.grounded v ha).collectChat i) fun chat hchat => ?_
    rcases collectChat_cases (net.nodes v) i with heq | ⟨old, r, hold, -, -, heq⟩ <;>
      rw [heq] at hchat
    · exact ⟨chat, hchat, rfl⟩
    · rcases List.mem_or_eq_of_mem_set hchat with hmem | rfl
      · exact ⟨chat, hmem, rfl⟩
      · exact ⟨old, List.mem_of_getElem? hold, rfl⟩
  | close v i =>
    refine h.setNode ((h.grounded v ha).closeChat i) fun chat hchat => ?_
    rcases closeChat_cases (net.nodes v) i with heq | ⟨old, hold, heq⟩ <;> rw [heq] at hchat
    · exact ⟨chat, hchat, rfl⟩
    · rcases List.mem_or_eq_of_mem_set hchat with hmem | rfl
      · exact ⟨chat, hmem, rfl⟩
      · exact ⟨old, List.mem_of_getElem? hold, rfl⟩
  | protocol v op =>
    exact h.setNode ((h.grounded v ha).protocol _) fun chat hchat => ⟨chat, hchat, rfl⟩
  | foreignRequest payload => exact h.foreignRequest ha
  | foreignResponse payload => exact h.foreignResponse ha

/-- Every legal run of a network that starts anew is sound. -/
theorem of_legal {actions : List InferenceAction} (hstart : net.Start ids config)
    (h : (inferenceMachine ids).Legal net actions) :
    NetSound ids config ((inferenceMachine ids).run net actions) :=
  h.invariant (of_start hstart) fun _ _ hnet hadmits => hnet.step hadmits

end NetSound

end Exodus.Interface
