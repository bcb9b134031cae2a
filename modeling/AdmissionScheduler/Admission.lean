import AdmissionScheduler.Redis
import AdmissionScheduler.Trace

/-!
# Admission

`AdmissionController.admit` and the `_store_payload` that the routes run after
it, as a machine that stops at every await. Both submission endpoints make the
same call; they differ in the priorities they let through.
-/

namespace AdmissionScheduler

def AppConfig.maxQueueDepth (c : AppConfig) (model : String) : Int :=
  match c.modelConfigFor model with
  | some mc => mc.maxQueueDepth
  | none => 0

def AppConfig.maxConcurrency (c : AppConfig) (model : String) : Int :=
  match c.modelConfigFor model with
  | some mc => mc.maxConcurrency
  | none => 0

def estimateDrain (queueDepth : Nat) (maxConcurrency : Int) : Int :=
  if maxConcurrency < 1 then 60 else max 5 ((queueDepth : Int) / max 1 maxConcurrency * 10)

/-! ## Priority and score -/

/-- A value that `* PRIORITY_MULTIPLIER + enqueue_ns` accepts; the others raise. -/
def Json.asNum : Json → Option PyNum
  | .int n => some (.int n)
  | .bool b => some (.bool b)
  | .float x => some (.float x)
  | .null | .str _ | .arr _ | .obj _ => none

def Submission.effectivePriority (sub : Submission) (mc : ModelConfig) : Json :=
  match sub.priority with
  | .null => .int mc.priority
  | p => p

def Submission.number (sub : Submission) (c : AppConfig) : Option PyNum :=
  (c.modelConfigFor sub.model).bind fun mc => (sub.effectivePriority mc).asNum

def priorityMultiplier : Nat := 1000000000000

/-- `float(n)`; `none` is the `OverflowError`. -/
def floatOfInt (n : Int) : Option Double :=
  match Double.ofInt n with
  | .finite u => some (.finite u)
  | .inf _ | .nan => none

/-- The composite score at clock reading `now` (nanoseconds) and sequence number `seq`. -/
def PyNum.score (p : PyNum) (now seq : Nat) : Option Double :=
  let ofInt (n : Int) := floatOfInt (n * priorityMultiplier + (now % priorityMultiplier : Nat) + (seq % 1000 : Nat))
  match p with
  | .int n => ofInt n
  | .bool b => ofInt (if b then 1 else 0)
  | .float x =>
    some (((x.toDouble.mul (.ofInt priorityMultiplier)).add (.ofInt (now % priorityMultiplier : Nat))).add
      (.ofInt (seq % 1000 : Nat)))

/-! ## The call -/

inductive AdmissionOutcome where
  | queued (j : String) (positionInQueue : Nat)
  | rejected (j : String) (estimatedDrain : Int)
  | idempotentHit (j : String)
  deriving DecidableEq

inductive Admit where
  | idle
  | lookup (sub : Submission) (h : String)
  | naming (sub : Submission)
  | sequencing (sub : Submission) (j : String)
  | enqueueing (sub : Submission) (j text : String) (score : Double) (ts : Nat)
  | refusing (sub : Submission) (j : String)
  | recording (sub : Submission) (j h : String)
  | ranking (sub : Submission) (j : String)
  | sizing (sub : Submission) (j : String) (position : Nat)
  | storing (sub : Submission) (j : String) (position : Nat)
  | done (sub : Submission) (outcome : AdmissionOutcome)
  | raised
  deriving DecidableEq

inductive AdmitAct where
  | submit (sub : Submission)
  /-- `uuid7()` returns. -/
  | name (j : String)
  | go
  | fail (took : Bool)
  deriving DecidableEq

/-- The hash of a truthy idempotency key. -/
def Submission.keyHash (sub : Submission) (sha256 : String → String) : Option String :=
  match sub.idempotencyKey with
  | some key => if key = "" then none else some (sha256 key)
  | none => none

namespace Admit

section
variable (c : AppConfig) (sha256 : String → String) (r : Redis)

def enqueueOutcome (sub : Submission) (j text : String) (score : Double) (ts : Nat) : Redis.Enqueued :=
  r.enqueueOutcome sub.model j score (c.maxQueueDepth sub.model)
    (fieldValues sub.model text ts sub.caller sub.requestId)

def serve : Admit → Redis
  | sequencing sub _ => r.incrSeq sub.model
  | enqueueing sub j text score ts => r.enqueueJob sub.model j score (enqueueOutcome c r sub j text score ts)
  | recording _ j h => r.setIdem h j
  | storing sub j _ => r.hset j fun h => { h with payloadJson := some sub.payload }
  | _ => r

def served : Admit → List Event
  | enqueueing sub j text score ts =>
    match enqueueOutcome c r sub j text score ts with
    | .full | .refused => []
    | .misfiled => [.misfiled sub.model j]
    | .done _ => [.enqueued sub.model j score sub]
  | storing _ j _ => [.stored j]
  | _ => []

def resume : Admit → Option (Admit × List Event)
  | lookup sub h =>
    match r.idem h with
    | some e => some (done sub (.idempotentHit e.value), [.metric (.admission sub.model "idempotent_hit")])
    | none => some (naming sub, [])
  | sequencing sub j =>
    match sub.number c with
    | none => some (raised, [])
    | some p =>
      match p.score r.now (r.seq sub.model + 1) with
      | none => some (raised, [])
      | some score => some (enqueueing sub j p.text score r.now, [])
  | enqueueing sub j text score ts =>
    match enqueueOutcome c r sub j text score ts with
    | .full => some (refusing sub j, [])
    | .refused | .misfiled => some (raised, [])
    | .done _ =>
      match sub.keyHash sha256 with
      | some h => some (recording sub j h, [])
      | none => some (ranking sub j, [])
  | refusing sub j =>
    some (done sub (.rejected j (estimateDrain (r.queue sub.model).card (c.maxConcurrency sub.model))),
      [.emitted .rejected j, .metric (.admission sub.model "rejected")])
  | recording sub j _ => some (ranking sub j, [])
  | ranking sub j =>
    some (sizing sub j (((r.queue sub.model).rank? j).getD 0), [.metric (.admission sub.model "queued")])
  | sizing sub j position => some (storing sub j position, [.emitted .queued j])
  | storing sub j position => some (done sub (.queued j position), [])
  | idle | naming _ | done .. | raised => none

def onError : Admit → Option (Admit × List Event)
  | storing sub j position => some (done sub (.queued j position), [.metric (.redisError "store_payload")])
  | lookup .. | sequencing .. | enqueueing .. | refusing .. | recording .. | ranking .. | sizing .. =>
    some (raised, [])
  | idle | naming _ | done .. | raised => none

def step (a : Admit) : AdmitAct → Option (Redis × Admit × List Event)
  | .submit sub =>
    match a with
    | idle =>
      match c.modelConfigFor sub.model, sub.keyHash sha256 with
      | none, _ => some (r, raised, [])
      | some _, some h => some (r, lookup sub h, [])
      | some _, none => some (r, naming sub, [])
    | _ => none
  | .name j =>
    match a with
    | naming sub => some (r, sequencing sub j, [])
    | _ => none
  | .go => (a.resume c sha256 r).map fun (a', es) => (a.serve c r, a', es ++ a.served c r)
  | .fail took =>
    (a.onError).map fun (a', es) =>
      (if took then a.serve c r else r, a', es ++ if took then a.served c r else [])

end

/-- The job a call has named and not yet enqueued. -/
def unborn : Admit → Option String
  | sequencing _ j | enqueueing _ j _ _ _ => some j
  | _ => none

def sub : Admit → Option Submission
  | lookup sub _ | naming sub | sequencing sub _ | enqueueing sub .. | refusing sub _ | recording sub .. | ranking sub _
  | sizing sub .. | storing sub .. | done sub _ => some sub
  | idle | raised => none

def admitted : Admit → Option (Submission × String)
  | recording sub j _ | ranking sub j | sizing sub j _ | storing sub j _ | done sub (.queued j _) => some (sub, j)
  | _ => none

end Admit

end AdmissionScheduler
