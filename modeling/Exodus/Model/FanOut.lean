import Exodus.Model.Coordinator
import Exodus.Model.ModelNames
import Exodus.Model.Replies

/-!
# `coordinator.rs` and `api.rs`: distributed inference

A chat broadcasts its prompt under a request id and opens a channel for the responses.  A
node that receives a request starts a thread; the thread takes one of the slots or answers
that the node is busy, runs the completion, publishes one response and records the work as a
claim.  Responses are routed to the channel of their request id, and the chat collects one of
each node until it has heard from the expected number of peers or its deadline is over.

`FanOut` is the part of the coordinator that takes part in this, with its threads and chats.
A channel is the list of everything sent into it, and a chat knows how far it has read.  The
runtime that completes a prompt, the file system, elapsed times and random ids are arguments.
-/

set_option autoImplicit false

namespace Exodus.Model

open Exodus.Library

/-! ## Messages -/

structure InferenceTurn where
  role : String
  content : String
deriving DecidableEq

structure InferenceRequest where
  requestId : String
  origin : String
  model : String
  maxTokens : Int64
  messages : List InferenceTurn
deriving DecidableEq

structure InferenceResponse where
  requestId : String
  nodeId : String
  reply : String
  error : Option String
deriving DecidableEq

namespace InferenceTurn

def toValue (t : InferenceTurn) : Json := .obj [("content", .str t.content), ("role", .str t.role)]

def fromValue (v : Json) : Option InferenceTurn := do
  let f ← v.structFields ["role", "content"]
  let role ← Json.required f 0 Json.asStr
  let content ← Json.required f 1 Json.asStr
  return { role, content }

end InferenceTurn

namespace InferenceRequest

def toValue (r : InferenceRequest) : Json :=
  .obj [
    ("max_tokens", .int r.maxTokens.toInt),
    ("messages", .arr (r.messages.map InferenceTurn.toValue)),
    ("model", .str r.model),
    ("origin", .str r.origin),
    ("request_id", .str r.requestId)]

def fieldNames : List String := ["request_id", "origin", "model", "max_tokens", "messages"]

def fromValue (v : Json) : Option InferenceRequest := do
  let f ← v.structFields fieldNames
  let requestId ← Json.required f 0 Json.asStr
  let origin ← Json.required f 1 Json.asStr
  let model ← Json.required f 2 Json.asStr
  let maxTokens ← Json.required f 3 Json.asI64
  let messages ← Json.required f 4 (Json.asList InferenceTurn.fromValue)
  return { requestId, origin, model, maxTokens, messages }

end InferenceRequest

/-- An `Option<String>`. -/
def optionalText : Json → Option (Option String)
  | .null => some none
  | .str s => some (some s)
  | _ => none

namespace InferenceResponse

def toValue (r : InferenceResponse) : Json :=
  .obj [
    ("error", r.error.elim .null .str),
    ("node_id", .str r.nodeId),
    ("reply", .str r.reply),
    ("request_id", .str r.requestId)]

def fieldNames : List String := ["request_id", "node_id", "reply", "error"]

def fromValue (v : Json) : Option InferenceResponse := do
  let f ← v.structFields fieldNames
  let requestId ← Json.required f 0 Json.asStr
  let nodeId ← Json.required f 1 Json.asStr
  let reply ← Json.required f 2 Json.asStr
  let error ← Json.optional f 3 none optionalText
  return { requestId, nodeId, reply, error }

end InferenceResponse

/-! ## Completions -/

/-- The part of `ExodusConfig` that inference reads. -/
structure InferenceConfig where
  inference : Bool
  maxTokens : Int64
  maxConcurrentInference : ℕ
  modelsDir : String

/-- `PathBuf::join` with a relative name. -/
def pathJoin (dir name : String) : String :=
  if dir.isEmpty || dir.toList.getLast? = some '/' then dir ++ name else dir ++ "/" ++ name

/-- What a completion meets: the files that exist, and the runtime with its path, turns and
number of tokens. -/
structure Runtime where
  isFile : String → Bool
  complete : String → List InferenceTurn → Int64 → Except String String

/-- `clamp(1, max)`, where 1 is at most the maximum. -/
def clampTokens (tokens max : Int64) : Int64 :=
  if tokens < 1 then 1 else if max < tokens then max else tokens

/-- `complete_for_request`; `none` is the panic of `clamp` when its bounds are crossed. -/
def completeForRequest (config : InferenceConfig) (nodeId : String) (request : InferenceRequest)
    (runtime : Runtime) : Option (Except String String) :=
  if !config.inference then
    some (.ok ("[node:" ++ nodeId ++ "] distributed stub (inference disabled)"))
  else if request.model.isEmpty || request.model.contains '/' || request.model.contains '\\' ||
      request.model.startsWith "." then
    some (.error ("invalid model name '" ++ request.model ++ "'"))
  else
    let path := pathJoin config.modelsDir request.model
    if !runtime.isFile path then some (.error ("model file not present: " ++ path))
    else if config.maxTokens < 1 then none
    else
      let tokens := clampTokens request.maxTokens config.maxTokens
      some (runtime.complete path request.messages (clampTokens tokens config.maxTokens))

def busy : String := "node busy: too many concurrent inferences"

/-- What a node answers to a request. -/
structure Answer where
  node : String
  request : InferenceRequest
  result : Except String String

/-- The response that is published for an answer. -/
def Answer.response (a : Answer) : InferenceResponse where
  requestId := a.request.requestId
  nodeId := a.node
  reply := match a.result with | .ok reply => reply | .error _ => ""
  error := match a.result with | .ok _ => none | .error e => some e

/-! ## Collecting responses -/

/-- What the loop of `chat_response` has collected. -/
structure Collected where
  seen : Finset String
  peersResponded : ℕ
  peerReplies : List (String × String)
  peerErrors : List (String × String)

def Collected.start : Collected := ⟨∅, 0, [], []⟩

/-- A response of a node that has not been heard before. -/
def Collected.take (c : Collected) (response : InferenceResponse) : Collected where
  seen := insert response.nodeId c.seen
  peersResponded := c.peersResponded + 1
  peerReplies :=
    if response.error = none then c.peerReplies ++ [(response.nodeId, response.reply)]
    else c.peerReplies
  peerErrors := c.peerErrors ++ response.error.toList.map fun e => (response.nodeId, e)

/-- One turn of the loop; the flag says whether it goes on. -/
def collectTurn (nodeId : String) (expected : ℕ) (c : Collected) (response : InferenceResponse) :
    Collected × Bool :=
  if response.nodeId = nodeId then (c, true)
  else if response.nodeId ∈ c.seen then (c, true)
  else
    let c := c.take response
    (c, !(decide (0 < expected) && decide (expected ≤ c.seen.card)))

/-- How many peers a chat waits for: the committee without the node, or one if the transport
has a connection. -/
def expectedPeers (committee connected : ℕ) : ℕ :=
  let known := committee - 1
  if 0 < known then known else if 0 < connected then 1 else 0

/-- The text of a chat that has no reply: why the local run and the peers failed. -/
def noCompletion (localError : Option String) (peerErrors : List (String × String)) : String :=
  let reasons := (localError.toList.map fun e => "local: " ++ e) ++
    peerErrors.map fun p => p.1 ++ ": " ++ p.2
  "No completion was produced." ++
    if reasons = [] then " Check that the model exits and that the runtime supports it."
    else (if reasons.length = 1 then " " else " Details: ") ++ " | ".intercalate reasons

/-- The end of `chat_response`: who is selected, the reply, and how many agree. -/
def chatReply [UnicodeTables] (localResult : Except String String) (c : Collected) :
    String × String × ℕ :=
  let chosen := pickAgreedReply localResult.toOption c.peerReplies
  let localError := match localResult with | .ok _ => none | .error e => some e
  (chosen.1, if chosen.2.1.isEmpty then noCompletion localError c.peerErrors else chosen.2.1,
    chosen.2.2)

/-! ## The coordinator's part -/

/-- A thread of `run_inference_request`. -/
inductive Job where
  | spawned (request : InferenceRequest)
  /-- it has a slot -/
  | running (request : InferenceRequest)
  /-- its response is published, and it still has the slot -/
  | answered (request : InferenceRequest) (result : Except String String)

def Job.request : Job → InferenceRequest
  | .spawned request | .running request | .answered request _ => request

/-- A chat that has broadcast its request, with the number of responses it has read. -/
structure Chat where
  request : InferenceRequest
  expected : ℕ
  read : ℕ
  collected : Collected
  collecting : Bool

/-- One response more has been read. -/
def Chat.advance (chat : Chat) (turn : Collected × Bool) : Chat :=
  { chat with read := chat.read + 1, collected := turn.1, collecting := turn.2 }

structure FanOut where
  coordinator : ExodusCoordinator
  config : InferenceConfig
  gpuAvailable : Bool
  /-- request ids and their channels -/
  inferTx : HashMap ℕ
  channels : List (List InferenceResponse)
  slots : ℕ
  jobs : List Job
  chats : List Chat

namespace FanOut

def nodeId (f : FanOut) : String := f.coordinator.identity.nodeId

/-- The state at the end of `ExodusCoordinator::new`. -/
def new (coordinator : ExodusCoordinator) (config : InferenceConfig) (gpuAvailable : Bool) :
    FanOut where
  coordinator
  config
  gpuAvailable
  inferTx := ∅
  channels := []
  slots := max config.maxConcurrentInference 1
  jobs := []
  chats := []

/-- `request_inference`: the request that is published; the new channel is the last one. -/
def requestInference (f : FanOut) (requestId model : String) (maxTokens : Int64)
    (messages : List InferenceTurn) : FanOut × InferenceRequest :=
  ({ f with inferTx := f.inferTx.insert requestId f.channels.length, channels := f.channels ++ [[]] },
    { requestId, origin := f.nodeId, model, maxTokens, messages })

def dropInference (f : FanOut) (requestId : String) : FanOut :=
  { f with inferTx := f.inferTx.erase requestId }

def onInferResponse (f : FanOut) (value : Json) : FanOut :=
  match InferenceResponse.fromValue value with
  | none => f
  | some response =>
    if response.nodeId = f.nodeId then f
    else
      match f.inferTx[response.requestId]? with
      | none => f
      | some k => { f with channels := f.channels.modify k (· ++ [response]) }

def onInferRequest (f : FanOut) (value : Json) : FanOut :=
  match InferenceRequest.fromValue value with
  | none => f
  | some request =>
    if request.origin = f.nodeId then f else { f with jobs := f.jobs ++ [.spawned request] }

/-! ### Threads -/

/-- The thread takes a slot, or answers that there is none. -/
def startJob (f : FanOut) (i : ℕ) : FanOut × Option Answer :=
  match f.jobs[i]? with
  | some (.spawned request) =>
    if f.slots = 0 then
      ({ f with jobs := f.jobs.eraseIdx i }, some ⟨f.nodeId, request, .error busy⟩)
    else ({ f with slots := f.slots - 1, jobs := f.jobs.set i (.running request) }, none)
  | _ => (f, none)

/-- The thread runs the completion and publishes its response; a panic ends it. -/
def answerJob (f : FanOut) (i : ℕ) (runtime : Runtime) : FanOut × Option Answer :=
  match f.jobs[i]? with
  | some (.running request) =>
    match completeForRequest f.config f.nodeId request runtime with
    | none => ({ f with slots := f.slots + 1, jobs := f.jobs.eraseIdx i }, none)
    | some result =>
      ({ f with jobs := f.jobs.set i (.answered request result) },
        some ⟨f.nodeId, request, result⟩)
  | _ => (f, none)

variable [Crates] [RustText] [FloatText]

/-- The seconds of a claim are at least a thousandth. -/
def atLeastMilli (seconds : FiniteFloat) : FiniteFloat :=
  if seconds.1 < 0.001 then ⟨0.001, rfl⟩ else seconds

/-- `tier_string` -/
def tierString (gpuAvailable : Bool) : String :=
  if gpuAvailable then DeviceTier.gpuNvidia.name else DeviceTier.cpu.name

/-- The contribution of a completion by a model with the given parameters. -/
def inferenceContribution (gpuAvailable : Bool) (model : String) (promptChars replyChars : ℕ)
    (seconds paramsB flopsEstimate : FiniteFloat) : Contribution where
  modelId := model
  paramsB
  precision := (modelPrecision model).name
  promptTokens := estimateTokens promptChars
  completionTokens := estimateTokens replyChars
  computeSeconds := atLeastMilli seconds
  flopsEstimate
  deviceTier := tierString gpuAvailable
  workType := "text_generation"
  startedAt := none
  endedAt := none

/-- `record_inference_claim`.  A figure that is not finite fails the FLOPS check after its
number has been taken. -/
def recordInferenceClaim (f : FanOut) (model : String) (promptChars replyChars : ℕ)
    (seconds : FiniteFloat) (uuid now : String) : FanOut :=
  if !f.config.inference then f
  else
    match modelParamsB model with
    | none => f
    | some paramsB =>
      let flops := estimatedFlops paramsB (modelPrecision model) (estimateTokens promptChars)
        (estimateTokens replyChars)
      if h : paramsB.isFinite = true ∧ flops.isFinite = true then
        let r := inferenceContribution f.gpuAvailable model promptChars replyChars seconds
          ⟨paramsB, h.1⟩ ⟨flops, h.2⟩
        { f with coordinator := (f.coordinator.submitContribution r uuid now).1 }
      else { f with coordinator := { f.coordinator with seq := f.coordinator.seq + 1 } }

/-- The characters of all turns. -/
def promptChars (messages : List InferenceTurn) : ℕ :=
  (messages.map fun m => m.content.length).sum

/-- The thread records its claim and gives the slot back. -/
def retireJob (f : FanOut) (i : ℕ) (seconds : FiniteFloat) (uuid now : String) : FanOut :=
  match f.jobs[i]? with
  | some (.answered request result) =>
    let recorded := match result with
      | .ok reply =>
        f.recordInferenceClaim request.model (promptChars request.messages) reply.length seconds
          uuid now
      | .error _ => f
    { recorded with slots := f.slots + 1, jobs := f.jobs.eraseIdx i }
  | _ => f

/-! ### Chats -/

omit [Crates] [RustText] [FloatText]

/-- The fan-out of `chat_response`, up to its loop. -/
def openChat (f : FanOut) (uuid model : String) (messages : List InferenceTurn)
    (committee connected : ℕ) : FanOut × InferenceRequest :=
  let asked := f.requestInference uuid model f.config.maxTokens messages
  let chat : Chat := ⟨asked.2, expectedPeers committee connected, 0, .start, true⟩
  ({ asked.1 with chats := f.chats ++ [chat] }, asked.2)

/-- One turn of the loop of a chat, if its channel holds a response that is not read yet. -/
def collectChat (f : FanOut) (i : ℕ) : FanOut :=
  match f.chats[i]? with
  | none => f
  | some chat =>
    match (f.channels.getD i [])[chat.read]? with
    | none => f
    | some response =>
      if chat.collecting then
        let turn := collectTurn f.nodeId chat.expected chat.collected response
        { f with chats := f.chats.set i (chat.advance turn) }
      else f

/-- The deadline is over or the loop has ended: the chat drops its request. -/
def closeChat (f : FanOut) (i : ℕ) : FanOut :=
  match f.chats[i]? with
  | none => f
  | some chat =>
    { f with chats := f.chats.set i { chat with collecting := false } }.dropInference
      chat.request.requestId

end FanOut

end Exodus.Model
