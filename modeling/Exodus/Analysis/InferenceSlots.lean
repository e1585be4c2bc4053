import Exodus.Analysis.InferenceFanOut
import Exodus.Library.Pool

/-!
# Requests and slots of a member

Every request that a member takes on is answered once, over every run, whatever is delivered
and whatever the order in which its threads go on: the requests taken on are, up to order, those
it has answered and those its threads still work on (`requests_answered_once`).  A thread works
in a slot, there are as many slots as are configured, and the answer "busy" is given when all
of them are taken and not otherwise (`slots_conserved`).
-/

set_option autoImplicit false

namespace Exodus.Analysis

open Exodus.Library Exodus.Model Exodus.Interface

/-! ## Bookkeeping -/

/-- The requests that a member has taken on, in the order of their arrival. -/
def acceptedBy (v : String) (actions : List InferenceAction) : List InferenceRequest :=
  actions.filterMap fun a =>
    match a with
    | .request w payload => if w = v then takenOn v payload else none
    | _ => none

/-- The requests that a member has answered. -/
def answeredBy (v : String) (answers : List Answer) : List InferenceRequest :=
  (answers.filter fun a => a.node = v).map Answer.request

/-- The request that a thread has not answered yet. -/
def unanswered : Job → Option InferenceRequest
  | .spawned request | .running request => some request
  | .answered _ _ => none

/-- The requests that the threads of a member still work on. -/
def openRequests (f : FanOut) : List InferenceRequest := f.jobs.filterMap unanswered

/-- The thread has a slot. -/
def holdsSlot : Job → Bool
  | .spawned _ => false
  | .running _ | .answered _ _ => true

/-- The answers of two lists. -/
theorem answeredBy_append (v : String) (answers more : List Answer) :
    answeredBy v (answers ++ more) = answeredBy v answers ++ answeredBy v more := by
  simp [answeredBy]

/-- Answers that are all of the node. -/
theorem answeredBy_own {v : String} {answers : List Answer} (h : ∀ a ∈ answers, a.node = v) :
    answeredBy v answers = answers.map Answer.request := by
  rw [answeredBy, List.filter_eq_self.mpr]
  simpa using h

/-- Answers that are none of the node's. -/
theorem answeredBy_other {v : String} {answers : List Answer} (h : ∀ a ∈ answers, a.node ≠ v) :
    answeredBy v answers = [] := by
  rw [answeredBy, List.filter_eq_nil_iff.mpr, List.map_nil]
  simpa using h

/-! ## Threads -/

section Threads

variable (f : FanOut)

/-- A thread that starts answers its request or goes on with it. -/
theorem startJob_open (i : ℕ) : (openRequests f).Perm
    ((f.startJob i).2.toList.map Answer.request ++ openRequests (f.startJob i).1) := by
  rcases startJob_cases f i with heq | ⟨r, hjob, -, heq⟩ | ⟨r, hjob, -, heq⟩ <;> rw [heq]
  · exact .refl _
  · exact filterMap_eraseIdx_perm unanswered hjob
  · exact (filterMap_eraseIdx_perm unanswered hjob).trans
      (filterMap_set_perm unanswered hjob (.running r)).symm

/-- A completion that does not panic answers its request. -/
theorem answerJob_open (i : ℕ) (runtime : Runtime) (hpos : 1 ≤ f.config.maxTokens) :
    (openRequests f).Perm ((f.answerJob i runtime).2.toList.map Answer.request ++
      openRequests (f.answerJob i runtime).1) := by
  rcases answerJob_cases f i runtime with heq | ⟨r, -, hpanic, -⟩ | ⟨r, result, hjob, -, heq⟩
  · rw [heq]
    exact .refl _
  · have hdone := completeForRequest_isSome hpos f.nodeId r runtime
    rw [hpanic] at hdone
    exact absurd hdone Bool.false_ne_true
  · rw [heq]
    have hset := filterMap_set_perm unanswered hjob (.answered r result)
    exact (filterMap_eraseIdx_perm unanswered hjob).trans (.cons r hset.symm)

/-- A request that is taken on is open. -/
theorem onInferRequest_open (payload : Json) :
    openRequests (f.onInferRequest payload) =
      openRequests f ++ (takenOn f.nodeId payload).toList := by
  rw [onInferRequest_eq, openRequests, openRequests, List.filterMap_append]
  congr 1
  cases takenOn f.nodeId payload <;> rfl

/-- A response touches no thread. -/
theorem onInferResponse_jobs (payload : Json) : (f.onInferResponse payload).jobs = f.jobs ∧
    (f.onInferResponse payload).slots = f.slots := by
  rcases onInferResponse_cases f payload with heq | ⟨r, k, -, -, -, heq⟩ <;> rw [heq] <;>
    exact ⟨rfl, rfl⟩

/-- Nor does a chat that reads. -/
theorem collectChat_jobs (i : ℕ) : (f.collectChat i).jobs = f.jobs ∧
    (f.collectChat i).slots = f.slots := by
  rcases collectChat_cases f i with heq | ⟨chat, r, -, -, -, heq⟩ <;> rw [heq] <;>
    exact ⟨rfl, rfl⟩

/-- Nor does one that is closed. -/
theorem closeChat_jobs (i : ℕ) : (f.closeChat i).jobs = f.jobs ∧
    (f.closeChat i).slots = f.slots := by
  rcases closeChat_cases f i with heq | ⟨chat, -, heq⟩ <;> rw [heq] <;> exact ⟨rfl, rfl⟩

/-- All slots, the free ones and those of the threads. -/
def slotTotal : ℕ := f.slots + f.jobs.countP holdsSlot

/-- A thread that has not started is sent away when no slot is free. -/
theorem startJob_isSome {i : ℕ} {r : InferenceRequest} (hjob : f.jobs[i]? = some (.spawned r)) :
    (f.startJob i).2.isSome = decide (f.slots = 0) := by
  unfold FanOut.startJob
  rw [hjob]
  dsimp only
  split_ifs with hslots
  · exact (decide_eq_true hslots).symm
  · exact (decide_eq_false hslots).symm

/-- A thread that starts takes its slot from the free ones. -/
theorem startJob_slots (i : ℕ) : slotTotal (f.startJob i).1 = slotTotal f := by
  unfold slotTotal
  rcases startJob_cases f i with heq | ⟨r, hjob, -, heq⟩ | ⟨r, hjob, hfree, heq⟩ <;> rw [heq]
  · have herase := countP_eraseIdx_add holdsSlot hjob
    simp only [holdsSlot, Bool.false_eq_true, if_false, Nat.add_zero] at herase
    dsimp only
    rw [herase]
  · have hset := countP_set_add holdsSlot hjob (.running r)
    simp only [holdsSlot, Bool.false_eq_true, if_false, if_true, Nat.add_zero] at hset
    dsimp only
    omega

/-- One that answers keeps its slot or gives it back. -/
theorem answerJob_slots (i : ℕ) (runtime : Runtime) :
    slotTotal (f.answerJob i runtime).1 = slotTotal f := by
  unfold slotTotal
  rcases answerJob_cases f i runtime with heq | ⟨r, hjob, -, heq⟩ | ⟨r, result, hjob, -, heq⟩ <;>
    rw [heq]
  · have herase := countP_eraseIdx_add holdsSlot hjob
    simp only [holdsSlot, if_true] at herase
    dsimp only
    omega
  · have hset := countP_set_add holdsSlot hjob (.answered r result)
    simp only [holdsSlot, if_true] at hset
    dsimp only
    omega

variable [Crates] [RustText] [FloatText]

/-- One that ends had answered. -/
theorem retireJob_open (i : ℕ) (seconds : FiniteFloat) (uuid now : String) :
    (openRequests f).Perm (openRequests (f.retireJob i seconds uuid now)) := by
  rcases retireJob_cases f i seconds uuid now with heq | ⟨r, result, c, hjob, -, heq⟩ <;> rw [heq]
  exact filterMap_eraseIdx_perm unanswered hjob

/-- One that ends gives its slot back. -/
theorem retireJob_slots (i : ℕ) (seconds : FiniteFloat) (uuid now : String) :
    slotTotal (f.retireJob i seconds uuid now) = slotTotal f := by
  unfold slotTotal
  rcases retireJob_cases f i seconds uuid now with heq | ⟨r, result, c, hjob, -, heq⟩ <;> rw [heq]
  have herase := countP_eraseIdx_add holdsSlot hjob
  simp only [holdsSlot, if_true] at herase
  dsimp only
  omega

end Threads

/-! ## Runs -/

section Runs

variable [Crates] [RustText] [FloatText] {ids : Finset String}
  {config : String → InferenceConfig} {net : InferenceNet} {actions : List InferenceAction}
  {v : String}

/-- The requests taken on are those answered and those still open. -/
def Balanced (v : String) (past : List InferenceAction) (net : InferenceNet) : Prop :=
  (acceptedBy v past).Perm (answeredBy v net.answers ++ openRequests (net.nodes v))

section Balance

omit [Crates] [RustText] [FloatText]

variable {past : List InferenceAction} {w : String} {f : FanOut}

/-- Another action may be another request that is taken on. -/
theorem acceptedBy_concat (v : String) (past : List InferenceAction) (a : InferenceAction) :
    acceptedBy v (past ++ [a]) = acceptedBy v past ++ acceptedBy v [a] :=
  List.filterMap_append

/-- A member that keeps its threads. -/
theorem setNode_jobs (hf : f.jobs = (net.nodes w).jobs) (v : String) :
    ((net.setNode w f).nodes v).jobs = (net.nodes v).jobs := by
  by_cases hvw : v = w
  · subst hvw
    rw [InferenceNet.setNode_nodes_self, hf]
  · rw [InferenceNet.setNode_nodes_of_ne net f hvw]

/-- Neither the threads of the member nor the answers change. -/
theorem Balanced.same {net' : InferenceNet} {a : InferenceAction} (h : Balanced v past net)
    (ha : acceptedBy v [a] = []) (hjobs : (net'.nodes v).jobs = (net.nodes v).jobs)
    (hanswers : net'.answers = net.answers) : Balanced v (past ++ [a]) net' := by
  unfold Balanced openRequests
  rw [acceptedBy_concat, ha, List.append_nil, hjobs, hanswers]
  exact h

/-- A member goes on; what it has taken on before is answered or passed on. -/
theorem Balanced.go {net' : InferenceNet} {answers : List Answer} {a : InferenceAction}
    (h : Balanced v past net) (ha : acceptedBy v [a] = [])
    (hnodes : net'.nodes = (net.setNode w f).nodes) (hanswers : net'.answers = net.answers ++ answers)
    (hown : ∀ x ∈ answers, x.node = w)
    (hopen : (openRequests (net.nodes w)).Perm (answers.map Answer.request ++ openRequests f)) :
    Balanced v (past ++ [a]) net' := by
  unfold Balanced
  rw [acceptedBy_concat, ha, List.append_nil, hanswers, hnodes, answeredBy_append]
  by_cases hvw : v = w
  · subst hvw
    rw [InferenceNet.setNode_nodes_self, answeredBy_own hown, List.append_assoc]
    exact h.trans (hopen.append_left _)
  · have hother : ∀ x ∈ answers, x.node ≠ v := by
      intro x hx
      rw [hown x hx]
      exact Ne.symm hvw
    rw [InferenceNet.setNode_nodes_of_ne net f hvw, answeredBy_other hother, List.append_nil]
    exact h

end Balance

/-- Every action keeps the balance of the requests. -/
theorem Balanced.step {past : List InferenceAction} {a : InferenceAction}
    (h : Balanced v past net)
    (hsound : ∀ w ∈ ids, Grounded Set.univ Set.univ w (config w) (net.nodes w))
    (hpos : ∀ w ∈ ids, 1 ≤ (config w).maxTokens) (ha : ∀ w ∈ a.actor, w ∈ ids) :
    Balanced v (past ++ [a]) (net.step a) := by
  cases a with
  | ask w uuid model messages committee connected =>
    refine h.same rfl ?_ rfl
    apply setNode_jobs
    rfl
  | request w payload =>
    have hnamed := (hsound w (ha w rfl)).named
    unfold Balanced
    rw [acceptedBy_concat]
    by_cases hwv : w = v
    · subst hwv
      have hnode : (net.step (.request w payload)).nodes w =
          (net.nodes w).onInferRequest payload := net.setNode_nodes_self w _
      have hnew : acceptedBy w [.request w payload] = (takenOn w payload).toList := by
        cases htaken : takenOn w payload <;> simp [acceptedBy, htaken]
      rw [hnode, hnew, onInferRequest_open, hnamed, ← List.append_assoc]
      exact h.append_right _
    · have hnode : (net.step (.request w payload)).nodes v = net.nodes v :=
        net.setNode_nodes_of_ne _ (Ne.symm hwv)
      have hnone : acceptedBy v [.request w payload] = [] := by simp [acceptedBy, hwv]
      rw [hnode, hnone, List.append_nil]
      exact h
  | response w payload => exact h.same rfl (setNode_jobs (onInferResponse_jobs _ payload).1 v) rfl
  | start w job =>
    refine h.go rfl rfl rfl (fun x hx => ?_) (startJob_open _ job)
    exact (((hsound w (ha w rfl)).startJob job).2 x (Option.mem_toList.mp hx)).1
  | answer w job runtime =>
    refine h.go rfl rfl rfl (fun x hx => ?_) (answerJob_open _ job runtime ?_)
    · exact (((hsound w (ha w rfl)).answerJob job runtime).2 x (Option.mem_toList.mp hx)).1
    · rw [(hsound w (ha w rfl)).config_eq]
      exact hpos w (ha w rfl)
  | retire w job seconds uuid now =>
    exact h.go rfl rfl (List.append_nil _).symm (fun x hx => absurd hx List.not_mem_nil)
      (retireJob_open _ job seconds uuid now)
  | collect w i => exact h.same rfl (setNode_jobs (collectChat_jobs _ i).1 v) rfl
  | close w i => exact h.same rfl (setNode_jobs (closeChat_jobs _ i).1 v) rfl
  | protocol w op =>
    refine h.same rfl ?_ rfl
    apply setNode_jobs
    rfl
  | foreignRequest payload => exact h.same rfl rfl rfl
  | foreignResponse payload => exact h.same rfl rfl rfl

/-- Over every run of the members, whatever is delivered to them, the requests that a member
has taken on are, each as often as it was taken on, those it has answered and those its threads
still work on. -/
theorem requests_answered_once (hstart : net.Start ids config)
    (hactors : ∀ a ∈ actions, ∀ w ∈ a.actor, w ∈ ids)
    (hpos : ∀ w ∈ ids, 1 ≤ (config w).maxTokens) (hv : v ∈ ids) :
    (acceptedBy v actions).Perm
      (answeredBy v ((inferenceMachine ids).run net actions).answers ++
        openRequests (((inferenceMachine ids).run net actions).nodes v)) := by
  have hlegal : (openMachine ids).Legal net actions :=
    Machine.legal_of_forall net fun a ha _ => hactors a ha
  refine (hlegal.history (P := fun past t =>
    (∀ w ∈ ids, Grounded Set.univ Set.univ w (config w) (t.nodes w)) ∧ Balanced v past t)
    ⟨fun w hw => grounded_run hstart [] hw, ?_⟩ fun past t a ht ha =>
      ⟨fun w hw => (ht.1 w hw).step a, ht.2.step ht.1 hpos ha⟩).2
  obtain ⟨c, gpu, -, hnode⟩ := hstart.members v hv
  unfold Balanced
  rw [hstart.answers, hnode]
  exact .refl _

/-! ## Slots -/

omit [Crates] [RustText] [FloatText] in
/-- A member that keeps its slots. -/
theorem setNode_slotTotal {w : String} {f : FanOut} (hf : slotTotal f = slotTotal (net.nodes w))
    (v : String) : slotTotal ((net.setNode w f).nodes v) = slotTotal (net.nodes v) := by
  by_cases hvw : v = w
  · subst hvw
    rw [InferenceNet.setNode_nodes_self, hf]
  · rw [InferenceNet.setNode_nodes_of_ne net f hvw]

omit [Crates] [RustText] [FloatText] in
/-- The slots are counted from the threads and the free ones. -/
theorem slotTotal_congr {f f' : FanOut} (h : f'.jobs = f.jobs ∧ f'.slots = f.slots) :
    slotTotal f' = slotTotal f := by
  rw [slotTotal, slotTotal, h.1, h.2]

/-- No action makes or loses a slot. -/
theorem step_slotTotal (a : InferenceAction) (v : String) :
    slotTotal ((net.step a).nodes v) = slotTotal (net.nodes v) := by
  cases a with
  | ask w uuid model messages committee connected =>
    apply setNode_slotTotal
    rfl
  | request w payload =>
    refine setNode_slotTotal ?_ v
    rw [onInferRequest_eq, slotTotal, slotTotal, List.countP_append]
    cases takenOn (net.nodes w).nodeId payload <;> rfl
  | response w payload =>
    exact setNode_slotTotal (slotTotal_congr (onInferResponse_jobs _ payload)) v
  | start w job => exact setNode_slotTotal (startJob_slots _ job) v
  | answer w job runtime => exact setNode_slotTotal (answerJob_slots _ job runtime) v
  | retire w job seconds uuid now =>
    exact setNode_slotTotal (retireJob_slots _ job seconds uuid now) v
  | collect w i => exact setNode_slotTotal (slotTotal_congr (collectChat_jobs _ i)) v
  | close w i => exact setNode_slotTotal (slotTotal_congr (closeChat_jobs _ i)) v
  | protocol w op =>
    apply setNode_slotTotal
    rfl
  | foreignRequest payload => rfl
  | foreignResponse payload => rfl

/-- After every run the slots of a member are accounted for: the free ones and those of its
threads are as many as configured, at least one; and a thread that starts next is sent away as
busy exactly when all slots are taken. -/
theorem slots_conserved (hstart : net.Start ids config) (hv : v ∈ ids) :
    (((inferenceMachine ids).run net actions).nodes v).slots +
        (((inferenceMachine ids).run net actions).nodes v).jobs.countP holdsSlot =
      max (config v).maxConcurrentInference 1 ∧
    ∀ (i : ℕ) (r : InferenceRequest),
      (((inferenceMachine ids).run net actions).nodes v).jobs[i]? = some (.spawned r) →
      ((((inferenceMachine ids).run net actions).nodes v).startJob i).2.isSome =
        decide ((((inferenceMachine ids).run net actions).nodes v).jobs.countP holdsSlot =
          max (config v).maxConcurrentInference 1) := by
  have htotal : slotTotal (((inferenceMachine ids).run net actions).nodes v) =
      max (config v).maxConcurrentInference 1 := by
    induction actions using List.reverseRecOn with
    | nil =>
      obtain ⟨c, gpu, -, hnode⟩ := hstart.members v hv
      rw [Machine.run_nil, hnode]
      rfl
    | append_singleton past a ih =>
      rw [Machine.run_concat]
      exact (step_slotTotal a v).trans ih
  generalize ((inferenceMachine ids).run net actions).nodes v = f at htotal ⊢
  refine ⟨htotal, fun i r hjob => ?_⟩
  rw [startJob_isSome f hjob, decide_eq_decide]
  unfold slotTotal at htotal
  omega

end Runs

end Exodus.Analysis

/-! ## On the sample -/

namespace Exodus.Analysis

open Exodus.Library Exodus.Model Exodus.Interface Exodus.Sample

/-- After the exchange the question reaches the second member once more. -/
def askedTwice : List InferenceAction := exchange ++ [.request "b" question.toValue]

/-- The second member has taken on the question twice and answered it once, and a thread of it
works on the other. -/
theorem duo_answered : acceptedBy "b" askedTwice = [question, question] ∧
    answeredBy "b" ((inferenceMachine duo).run duoNet askedTwice).answers = [question] ∧
    (acceptedBy "b" askedTwice).Perm
      (answeredBy "b" ((inferenceMachine duo).run duoNet askedTwice).answers ++
        openRequests (((inferenceMachine duo).run duoNet askedTwice).nodes "b")) := by
  refine ⟨rfl, rfl, requests_answered_once duoNet_start ?_ (fun w _ => by decide) b_mem_duo⟩
  simp [askedTwice, exchange, InferenceAction.actor, duo]

/-- Its thread still has the one slot. -/
theorem duo_slots : (((inferenceMachine duo).run duoNet exchange).nodes "b").slots = 0 ∧
    (((inferenceMachine duo).run duoNet exchange).nodes "b").slots +
        (((inferenceMachine duo).run duoNet exchange).nodes "b").jobs.countP holdsSlot = 1 :=
  ⟨rfl, (slots_conserved duoNet_start b_mem_duo).1⟩

end Exodus.Analysis
