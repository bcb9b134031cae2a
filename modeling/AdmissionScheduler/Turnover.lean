import AdmissionScheduler.System
import AdmissionScheduler.Recording

/-!
# Status writes and metrics

What the steps of a run contribute to the counters: which terminal status a step
writes and for which model, which transition it counts, and the dispatches that
it logs. The counter that goes with a status is incremented by a later step of
the same handler.
-/

namespace AdmissionScheduler

inductive Handler (ι : Type) where
  | worker (i : ι)
  | admission (k : Nat)
  | cancel (k : Nat)
  | watch (k : Nat)
  | check (k : Nat)
  | clock
  deriving DecidableEq

structure Contribution (ι : Type) where
  handler : Handler ι
  /-- The model and the terminal status it writes to a job. -/
  writes : Option (String × JobStatus)
  /-- The model and the terminal status it counts. -/
  reports : Option (String × JobStatus)
  /-- The model and the job whose dispatch it logs. -/
  dispatches : Option (String × String)

section
variable {ι : Type}

def Action.handler : Action ι → Handler ι
  | .worker i _ => .worker i
  | .admission k _ => .admission k
  | .cancel k _ => .cancel k
  | .watch k _ => .watch k
  | .check k _ => .check k
  | .tick _ => .clock

def Pc.writes (m : String) : Pc → Option (String × JobStatus)
  | marking _ info v _ => some (info.model, v.status)
  | cleaning _ _ => some (m, .failed)
  | _ => none

/-- What the worker counts when its pending command has replied or failed. -/
def Pc.counts : Pc → Option (String × JobStatus)
  | publishing _ info v => some (info.model, v.status)
  | _ => none

def Worker.writes (w : Worker) (b : WorkerAct) : Option (String × JobStatus) :=
  if b.takes then w.pc.writes w.model else none

def Worker.reports (w : Worker) : WorkerAct → Option (String × JobStatus)
  | .go | .fail _ => w.pc.counts
  | _ => none

def Worker.dispatches (r : Redis) (w : Worker) : WorkerAct → Option (String × String)
  | .go =>
    match w.pc with
    | .fetching j => ((r.job j).bind fun e => e.value.info w.model).map fun info => (info.model, j)
    | _ => none
  | _ => none

def Cancel.writes (r : Redis) (p : Cancel) (b : CancelAct) : Option (String × JobStatus) :=
  match p with
  | script j m _ => if b.takes = true ∧ j ∈ r.queue m then some (m, .cancelled) else none
  | _ => none

/-- Only after a reply: the handler catches no error. -/
def Cancel.reports (p : Cancel) : CancelAct → Option (String × JobStatus)
  | .go => match p with | announcing _ m => some (m, .cancelled) | _ => none
  | _ => none

def Watcher.writes (p : Watcher) (b : WatchAct) : Option (String × JobStatus) :=
  match p with
  | reclaiming m _ _ _ => if b.takes then some (m, .failed) else none
  | _ => none

def Watcher.counts : Watcher → Option (String × JobStatus)
  | announcing m _ _ => some (m, .failed)
  | _ => none

def Watcher.reports (p : Watcher) : WatchAct → Option (String × JobStatus)
  | .go | .fail _ => p.counts
  | .scan _ | .cancel _ => none

def Action.writes (s : State ι) : Action ι → Option (String × JobStatus)
  | .worker i b => (s.workers i).writes b
  | .cancel k b => (s.cancels k).writes s.redis b
  | .watch k b => (s.watchers k).writes b
  | .admission .. | .check .. | .tick _ => none

def Action.reports (s : State ι) : Action ι → Option (String × JobStatus)
  | .worker i b => (s.workers i).reports b
  | .cancel k b => (s.cancels k).reports b
  | .watch k b => (s.watchers k).reports b
  | .admission .. | .check .. | .tick _ => none

def Action.dispatches (s : State ι) : Action ι → Option (String × String)
  | .worker i b => (s.workers i).dispatches s.redis b
  | .admission .. | .cancel .. | .watch .. | .check .. | .tick _ => none

def contribution (s : State ι) (a : Action ι) : Contribution ι where
  handler := a.handler
  writes := a.writes s
  reports := a.reports s
  dispatches := a.dispatches s

def accounted [DecidableEq ι] (d : Deployment ι) : Machine (State ι × List (Contribution ι)) (Action ι) :=
  (system d).recording contribution

end

/-! ## Handlers between write and count -/

/-- A cancel request counts two replies after its script. -/
def Cancel.owes : Cancel → Option (String × JobStatus)
  | expiring _ m | announcing _ m => some (m, .cancelled)
  | _ => none

/-- Whether the handler has written the status to a job of the model and has not counted it. -/
def owed {ι : Type} (m : String) (st : JobStatus) (s : State ι) : Handler ι → Nat
  | .worker i => if (s.workers i).pc.counts = some (m, st) then 1 else 0
  | .cancel k => if (s.cancels k).owes = some (m, st) then 1 else 0
  | .watch k => if (s.watchers k).counts = some (m, st) then 1 else 0
  | .admission _ | .check _ | .clock => 0

/-- The step writes a failure or a cancellation only on the way to its count, and leaves no count out. -/
def Worker.countsOnce (w : Worker) (b : WorkerAct) : Bool :=
  match w.pc, b with
  | .marking _ _ (.completed _) _, _ | .publishing _ _ (.completed _), _ => true
  | .marking .., .fail took => took
  | .marking .., .cancel took => !took
  | .publishing .., .cancel _ | .publishing .., .kill => false
  | .cleaning .., b => !b.takes
  | _, _ => true

def Cancel.countsOnce (r : Redis) (p : Cancel) (b : CancelAct) : Bool :=
  match p, b with
  | .script j m _, .fail took => !took || decide (j ∉ r.queue m)
  | .expiring .., .fail _ | .announcing .., .fail _ => false
  | _, _ => true

def Watcher.countsOnce (p : Watcher) (b : WatchAct) : Bool :=
  match p, b with
  | .reclaiming .., .fail took | .reclaiming .., .cancel took => !took
  | .announcing .., .cancel _ => false
  | _, _ => true

def countsOnce {ι : Type} (s : State ι) : Action ι → Bool
  | .worker i b => (s.workers i).countsOnce b
  | .cancel k b => (s.cancels k).countsOnce s.redis b
  | .watch k b => (s.watchers k).countsOnce b
  | .admission .. | .check .. | .tick _ => true

/-! ## Counters -/

def Event.waits (m : String) : Event → Bool
  | .metric (.queueWait m') => m' = m
  | _ => false

def Event.counts (m : String) (st : JobStatus) : Event → Bool
  | .metric (.requestDuration m') => st = .completed ∧ m' = m
  | .metric (.failure m' _) => st = .failed ∧ m' = m
  | .metric (.cancel m') => st = .cancelled ∧ m' = m
  | _ => false

def queueWaitSeconds (m : String) (t : List Event) : Nat := t.countP (Event.waits m)

/-- `failure_total`, over all error classes. -/
def failureTotal (m : String) (t : List Event) : Nat := t.countP (Event.counts m .failed)

def cancelTotal (m : String) (t : List Event) : Nat := t.countP (Event.counts m .cancelled)

section
variable {ι : Type} (l : List (Contribution ι)) (m : String) (st : JobStatus)

def written : Nat := l.countP fun c => c.writes = some (m, st)

def completions : Nat := l.countP fun c => c.reports = some (m, .completed)

def dispatched : Finset String := ((l.filterMap Contribution.dispatches).filter fun q => q.1 = m).map Prod.snd |>.toFinset

end

end AdmissionScheduler
