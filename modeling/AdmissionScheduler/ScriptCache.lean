import AdmissionScheduler.System

/-!
# Scripts and the script cache of the server

A process loads its three scripts when it starts and from then on only sends
`EVALSHA`. The server runs a script as long as it has it; a restart that keeps
the data empties the cache, and a script that is not there is the `RedisError`
`NOSCRIPT`, without effect.
-/

namespace AdmissionScheduler

inductive Script where
  | claimSlot
  | cancelQueued
  | enqueueJob
  deriving DecidableEq, Repr

def Script.all : Finset Script := {.claimSlot, .cancelQueued, .enqueueJob}

inductive ScriptCall where
  | claimSlot (m j : String) (ts : Nat)
  | cancelQueued (m j : String) (ts : Nat)
  | enqueueJob (m j : String) (score : Double) (maxDepth : Int) (fieldValues : List Text)

def ScriptCall.script : ScriptCall → Script
  | claimSlot .. => .claimSlot
  | cancelQueued .. => .cancelQueued
  | enqueueJob .. => .enqueueJob

inductive ScriptReply where
  | value (n : Nat)
  /-- A command of the script raises. -/
  | error
  | noScript
  deriving DecidableEq, Repr

def Redis.Enqueued.reply : Enqueued → ScriptReply
  | full => .value 0
  | refused | misfiled => .error
  | done _ => .value 1

def Redis.eval (r : Redis) : ScriptCall → Redis × ScriptReply
  | .claimSlot m j ts => if r.slotFree m then (r.claimSlot m j ts, .value 1) else (r, .value 0)
  | .cancelQueued m j ts => if j ∈ r.queue m then (r.cancelQueued m j ts, .value 1) else (r, .value 0)
  | .enqueueJob m j score maxDepth values =>
    let outcome := r.enqueueOutcome m j score maxDepth values
    (r.enqueueJob m j score outcome, outcome.reply)

/-- `EVALSHA` on a server that has the scripts of `cache`. -/
def Redis.evalsha (r : Redis) (cache : Finset Script) (call : ScriptCall) : Redis × ScriptReply :=
  if call.script ∈ cache then r.eval call else (r, .noScript)

/-! ## The awaits that send `EVALSHA` -/

def Pc.call (m : String) : Pc → Option ScriptCall
  | claiming j ts => some (.claimSlot m j ts)
  | _ => none

def Cancel.call : Cancel → Option ScriptCall
  | script j m ts => some (.cancelQueued m j ts)
  | _ => none

def Admit.call (c : AppConfig) : Admit → Option ScriptCall
  | enqueueing sub j text score ts =>
    some (.enqueueJob sub.model j score (c.maxQueueDepth sub.model)
      (fieldValues sub.model text ts sub.caller sub.requestId))
  | _ => none

def AdmitAct.takes : AdmitAct → Bool
  | .go | .fail true => true
  | .submit _ | .name _ | .fail false => false

section
variable {ι : Type}

def Action.runs (c : AppConfig) (s : State ι) : Action ι → Option ScriptCall
  | .worker i b => if b.takes then (s.workers i).pc.call (s.workers i).model else none
  | .cancel k b => if b.takes then (s.cancels k).call else none
  | .admission k b => if b.takes then (s.admits k).call c else none
  | .watch .. | .check .. | .tick _ => none

/-- Workers are started by `_startup`, after `load_all`. -/
def Action.loads : Action ι → Bool
  | .worker _ .start => true
  | _ => false

structure Scripted (ι : Type) where
  state : State ι
  cache : Finset Script

inductive ScriptedAct (ι : Type) where
  | act (a : Action ι)
  /-- The server restarts with its data. -/
  | restart
  deriving DecidableEq

variable [DecidableEq ι] (d : Deployment ι)

def Scripted.step (T : Scripted ι) : ScriptedAct ι → Option (Scripted ι)
  | .act a =>
    if ∀ call ∈ a.runs d.config T.state, call.script ∈ T.cache then
      (AdmissionScheduler.step d T.state a).map fun s =>
        { state := s, cache := if a.loads then Script.all else T.cache }
    else none
  | .restart => some { T with cache := ∅ }

def scripted : Machine (Scripted ι) (ScriptedAct ι) where
  init := { state := initState d, cache := Script.all }
  step := Scripted.step d

/-- The scheduler process goes on without being started anew. -/
def ongoing (_ : Scripted ι) : ScriptedAct ι → Prop
  | .act a => a.loads = false
  | .restart => True

end

end AdmissionScheduler
