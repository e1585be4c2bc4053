import Exodus.Interface.InferenceNet
import Exodus.Interface.SampleChain

/-!
# Two sample members for prompts

Two members without a runtime, a question that the first one asks, and the stub that the second
one answers with.
-/

set_option autoImplicit false

namespace Exodus.Sample

open Exodus.Library Exodus.Model Exodus.Interface

/-- ASCII only, and no names of models with numbers. -/
scoped instance plainText : RustText where
  toLowercase s := s
  fromUtf8Lossy bytes := String.ofList (bytes.map fun b => Char.ofNat b.toNat)

/-- No text is a number. -/
scoped instance noNumbers : FloatText where
  parseF64 _ := none

/-- The members. -/
def duo : Finset String := {"a", "b"}

/-- No runtime, and one thread at a time. -/
def stubConfig : InferenceConfig where
  inference := false
  maxTokens := 16
  maxConcurrentInference := 1
  modelsDir := "models"

/-- The members, each on a coordinator that has just started. -/
noncomputable def duoNet : InferenceNet where
  nodes v := FanOut.new
    (ExodusCoordinator.new ⟨v, [], ""⟩ ChainStore.empty config (ambient "t1")) stubConfig false
  requests := []
  responses := []
  answers := []

/-- Nothing has been asked yet. -/
theorem duoNet_start : duoNet.Start duo fun _ => stubConfig where
  members _ _ := ⟨_, false, rfl, rfl⟩
  requests := rfl
  responses := rfl
  answers := rfl

/-- What the first member asks. -/
def question : InferenceRequest := ⟨"r1", "a", "m", 16, [⟨"user", "hi"⟩]⟩

/-- A runtime without models. -/
def stubRuntime : Runtime := ⟨fun _ => false, fun _ _ _ => .error ""⟩

/-- What the second member makes of the question. -/
def stubAnswer : Answer := ⟨"b", question, .ok "[node:b] distributed stub (inference disabled)"⟩

/-- The first member is one. -/
theorem a_mem_duo : "a" ∈ duo := by decide

/-- So is the second. -/
theorem b_mem_duo : "b" ∈ duo := by decide

end Exodus.Sample
