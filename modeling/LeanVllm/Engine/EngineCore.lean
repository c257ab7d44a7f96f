import LeanVllm.Engine.CoreClient

/-!
# The engine core

`EngineCore` runs an engine in a process of its own: it takes queued requests,
steps and sends the outputs.  An exception that ends it is announced; a process
that is killed says nothing.
-/

namespace LeanVllm

open Collections Transition

/-- The core's process.  `origin` records the call a sequence was built for and
nothing reads it. -/
structure EngineCore where
  engine : LLMEngine
  running : Bool := true
  alive : Bool := true
  origin : SeqId → CallId := fun _ => 0
  output : Channel CoreOutput := {}

namespace EngineCore

/-- The end of `run_engine_core` on an exception. -/
def raised (core : EngineCore) (error : String) : EngineCore :=
  { core with alive := false, output := core.output.send (.dead error) }

/-- The error an admission is answered with. -/
def refusal : Except Fault RequestId → Option Fault
  | .ok _ => none
  | .error fault => some fault

/-- `_handle`. -/
def handle (cfg : Config) (core : EngineCore) (arrivalTime : Nat) : CoreInput → EngineCore
  | .add call requestId prompt params =>
      let added := core.engine.addRequest cfg prompt params (some requestId) arrivalTime
      { core with
        engine := added.1
        origin := Function.update core.origin core.engine.scheduler.counter call
        output := core.output.send (.added call requestId (refusal added.2)) }
  | .abort requestId reason =>
      match core.engine.abortRequest cfg requestId reason with
      | .ok ended => { core with engine := ended.1 }
      | .error fault => core.raised (reprStr fault)
  | .shutdown => { core with running := false }

/-- A step, with the outputs sent if there are any. -/
def step (cfg : Config) (core : EngineCore) (env : StepEnv) : EngineCore :=
  match core.engine.step cfg env with
  | .ok stepped =>
      { core with
        engine := stepped.1
        output :=
          if stepped.2 = [] then core.output
          else core.output.send
            (.outputs (stepped.2.map fun output => (core.origin output.1, output.2))) }
  | .error fault => core.raised (reprStr fault)

end EngineCore

end LeanVllm
