import AdmissionScheduler.Redis
import AdmissionScheduler.Trace

/-!
# Dispatcher workers

`DispatcherWorker.run` and `_wait_for_slot_and_claim` as a machine that stops at
every await. At most one command is pending; it takes effect in one step with
the code up to the next await. A command may also fail, or its task be
cancelled, in either case with or without the command having taken effect.
-/

namespace AdmissionScheduler

/-- How a call of `LiteLLMForwarder.forward` ends, with `str(exc)`. -/
inductive Outcome where
  | ok (response : Json)
  | httpStatus (code : Int) (message : String)
  | timeout (message : String)
  | connect (message : String)
  | other (message : String)
  deriving DecidableEq

inductive Verdict where
  | completed (response : Json)
  | failed (cls : ErrorClass) (message : String) (httpStatus : Option Int)
  | cancelled
  deriving DecidableEq

/-- What follows `_release_slot`: return, re-raise `CancelledError`, or publish in `_cleanup_slot`. -/
inductive After where
  | ret
  | reraise
  | announce
  deriving DecidableEq

inductive Pc where
  | poll
  | popping
  | waitSlot (j : String)
  | claiming (j : String) (ts : Nat)
  | tracking (j : String) (t : Nat)
  | fetching (j : String)
  | forwarding (j : String) (info : JobInfo)
  | marking (j : String) (info : JobInfo) (v : Verdict) (ts : Nat)
  | publishing (j : String) (info : JobInfo) (v : Verdict)
  | releasing (j : String) (next : After)
  | cleaning (j : String) (ts : Nat)
  | announcing (j : String)
  | exited
  | crashed
  deriving DecidableEq

structure Worker where
  model : String
  stop : Bool := false
  pc : Pc := .poll
  deriving DecidableEq

inductive WorkerAct where
  /-- The pending command or local step succeeds. -/
  | go
  /-- The pending command raises `RedisError`. -/
  | fail (took : Bool)
  | respond (o : Outcome)
  /-- `BZPOPMIN` times out. -/
  | timeout
  /-- `stop()` sets the event. -/
  | stop
  /-- `stop()` has waited long enough and cancels the task. -/
  | cancel (took : Bool)
  /-- The process dies. -/
  | kill
  | start
  deriving DecidableEq

/-- The pending command takes effect on the server. -/
def WorkerAct.takes : WorkerAct → Bool
  | .go | .fail true | .cancel true => true
  | .fail false | .respond _ | .timeout | .stop | .cancel false | .kill | .start => false

/-! ## Results of a forward -/

def Verdict.status : Verdict → JobStatus
  | .completed _ => .completed
  | .failed .. => .failed
  | .cancelled => .cancelled

/-- The first field that `_mark_completed` reads with `.get` from something else than a dict. -/
def attributeError (x : Json) : String := "'" ++ x.typeName ++ "' object has no attribute 'get'"

/-- `_mark_completed` reads `response.get("usage") or {}` before it writes anything. -/
def Outcome.verdict : Outcome → Verdict
  | .ok (.obj kvs) =>
    match (Json.field? kvs "usage").getD .null with
    | .obj _ => .completed (.obj kvs)
    | usage => if usage.truthy then .failed .backend5xx (attributeError usage) none else .completed (.obj kvs)
  | .ok response => .failed .backend5xx (attributeError response) none
  | .httpStatus code message =>
    .failed (if code = 429 then .backend429 else .backend5xx) message (some code)
  | .timeout message => .failed .backendTimeout message none
  | .connect message => .failed .networkError message none
  | .other message => .failed .backend5xx message none

def Verdict.write (v : Verdict) (ts : Nat) (h : JobHash) : JobHash :=
  match v with
  | .completed response =>
    { h with status := some .completed, completeTs := some ts, responseBlob := some response }
  | .failed cls message code =>
    { h with
      status := some .failed
      completeTs := some ts
      errorClass := some cls
      errorMessage := some (String.ofList (message.toList.take 500))
      httpStatus := match code with | some c => some c | none => h.httpStatus }
  | .cancelled => { h with status := some .cancelled, completeTs := some ts }

def Verdict.report (j : String) (info : JobInfo) : Verdict → List Event
  | .completed _ =>
    [.emitted .completed j, .metric (.backendDuration info.model), .metric (.requestDuration info.model),
      .metric (.queueWait info.model)]
  | .failed cls _ _ => [.emitted .failed j, .metric (.failure info.model cls)]
  | .cancelled => [.emitted .cancelled j, .metric (.cancel info.model)]

/-! ## The hash a worker fetches -/

/-- `int(priority_str) if priority_str else 5`; `none` is the `ValueError`. -/
def parsePriority (text : String) : Option Int := if text = "" then some 5 else pyInt text

def JobHash.info (h : JobHash) (model : String) : Option JobInfo :=
  (parsePriority (h.priority.getD "")).map fun priority =>
    { requestId := h.requestId.getD "", model := if h.model.getD "" = "" then model else h.model.getD "",
      caller := h.caller.getD "", priority }

def JobHash.payload (h : JobHash) : Json := h.payloadJson.getD (.obj [])

/-! ## Steps -/

namespace Pc

section
variable (c : AppConfig) (m : String) (r : Redis)

/-- The pending command takes effect. -/
def serve : Pc → Redis
  | popping => r.popQueue m
  | claiming j ts => if r.slotFree m then r.claimSlot m j ts else r
  | tracking j t => r.track m j t (c.leaseTtl m)
  | marking j _ v ts => r.finish j (v.write ts)
  | releasing j _ => r.releaseSlot m j
  | cleaning j ts =>
    r.hset j fun h => { h with status := some .failed, errorClass := some .workerCrash, completeTs := some ts }
  | _ => r

/-- What the command did on the server; a reply may not have arrived. -/
def served (reply : Bool) : Pc → List Event
  | popping => match r.firstQueued m with | some j => [.popped m j] | none => []
  | claiming j _ => if r.slotFree m then [if reply then .claimed m j else .leaked m j] else []
  | releasing j _ => [.decremented m j]
  | publishing j _ v => [.published j v.status]
  | announcing j => [.published j .failed]
  | _ => []

def afterRelease (j : String) : After → Pc
  | .ret => poll
  | .reraise => exited
  | .announce => announcing j

def afterReport (j : String) (v : Verdict) : Pc := releasing j (if v = .cancelled then .reraise else .ret)

/-- The code from the reply to the next await, with what it logs, counts and forwards;
`none` where there is no command to reply. -/
def resume (stop : Bool) : Pc → Option (Pc × List Event)
  | poll => some (if stop then exited else popping, [])
  | popping => (r.firstQueued m).map fun j => (waitSlot j, [])
  | waitSlot j => some (if stop then exited else claiming j r.now, [])
  | claiming j _ => some (if r.slotFree m then tracking j r.now else waitSlot j, [])
  | tracking j _ => some (fetching j, [])
  | fetching j =>
    match r.job j with
    | none => some (releasing j .ret, [])
    | some e =>
      match e.value.info m with
      | none => some (crashed, [])
      | some info =>
        some (forwarding j info,
          [.forwarded m j e.value.payload, .metric (.queueWait info.model), .emitted .dispatched j])
  | marking j info v _ => some (publishing j info v, [])
  | publishing j info v => some (afterReport j v, v.report j info)
  | releasing j next => some (afterRelease j next, [])
  | cleaning j _ => some (releasing j .announce, [])
  | announcing _ => some (poll, [])
  | forwarding .. | exited | crashed => none

def onError : Pc → Option (Pc × List Event)
  | popping => some (poll, [.metric (.redisError "bzpopmin")])
  | claiming j _ => some (waitSlot j, [.metric (.redisError "evalsha_claim_slot")])
  | tracking j _ => some (fetching j, [.metric (.redisError "lease_set")])
  | fetching j => some (cleaning j r.now, [.metric (.redisError "job_hgetall")])
  | marking j info v _ =>
    let op := match v with
      | .completed _ => "mark_completed" | .failed .. => "mark_failed" | .cancelled => "mark_cancelled"
    some (publishing j info v, [.metric (.redisError op)])
  | publishing j info v => some (afterReport j v, v.report j info ++ [.metric (.redisError "publish")])
  | releasing j next => some (afterRelease j next, [.metric (.redisError "release_slot")])
  | cleaning j _ => some (releasing j .announce, [])
  | announcing _ => some (poll, [.metric (.redisError "publish")])
  | poll | waitSlot _ | forwarding .. | exited | crashed => none

/-- Where `CancelledError` leads from an await. -/
def interrupt : Pc → Option Pc
  | forwarding j info => some (marking j info .cancelled r.now)
  | marking j info v _ | publishing j info v =>
    match v with
    -- still inside the `try` around the forward
    | .completed _ => some (marking j info .cancelled r.now)
    | .failed .. | .cancelled => some (releasing j .reraise)
  | exited | crashed => none
  | _ => some exited

end

end Pc

def Worker.step (c : AppConfig) (r : Redis) (w : Worker) : WorkerAct → Option (Redis × Worker × List Event)
  | .go => (w.pc.resume w.model r w.stop).map fun (pc, es) =>
    (w.pc.serve c w.model r, { w with pc }, es ++ w.pc.served w.model r true)
  | .fail took => (w.pc.onError r).map fun (pc, es) =>
    (if took then w.pc.serve c w.model r else r, { w with pc },
      es ++ if took then w.pc.served w.model r false else [])
  | .respond o =>
    match w.pc with
    | .forwarding j info => some (r, { w with pc := .marking j info o.verdict r.now }, [])
    | _ => none
  | .timeout =>
    if w.pc = .popping ∧ r.firstQueued w.model = none then some (r, { w with pc := .poll }, []) else none
  | .stop => some (r, { w with stop := true }, [])
  | .cancel took =>
    if w.stop then
      (w.pc.interrupt r).map fun pc =>
        (if took then w.pc.serve c w.model r else r, { w with pc },
          if took then w.pc.served w.model r false else [])
    else none
  | .kill => some (r, { w with pc := .exited }, [])
  | .start =>
    if w.pc = .exited ∨ w.pc = .crashed then some (r, { w with pc := .poll, stop := false }, []) else none

/-! ## What a worker holds -/

namespace Pc

def job : Pc → Option String
  | waitSlot j | claiming j _ | tracking j _ | fetching j | forwarding j _ | marking j .. | publishing j ..
  | releasing j _ | cleaning j _ | announcing j => some j
  | poll | popping | exited | crashed => none

/-- The job popped and not yet claimed. -/
def unclaimed : Pc → Option String
  | waitSlot j | claiming j _ => some j
  | _ => none

/-- The job whose slot the worker will give back. -/
def slot : Pc → Option String
  | tracking j _ | fetching j | forwarding j _ | marking j .. | publishing j .. | releasing j _ | cleaning j _ =>
    some j
  | _ => none

/-- The job between its claim and the return of its forward. -/
def running : Pc → Option String
  | tracking j _ | fetching j | forwarding j _ => some j
  | _ => none

end Pc

end AdmissionScheduler
