import AdmissionScheduler.Redis
import AdmissionScheduler.Trace

/-!
# Lease watchers

`_scan_model` and `_reclaim_if_orphaned` as a machine that stops at every await
at which a cancellation makes a difference, and as one function, which is what a
scan does when nothing runs beside it. The three reads of the caller's data after
a reclaim are one step: what they return only fills the event.
-/

namespace AdmissionScheduler

inductive Watcher where
  | idle
  | ranging (m : String) (cutoff : Int)
  | checking (m j : String) (rest : List String)
  | reclaiming (m j : String) (rest : List String) (ts : Nat)
  | announcing (m j : String) (rest : List String)
  | describing (m j : String) (rest : List String)
  deriving DecidableEq

inductive WatchAct where
  | scan (m : String)
  | go
  | fail (took : Bool)
  /-- `stop()` has waited long enough and cancels the task. -/
  | cancel (took : Bool)
  deriving DecidableEq

def WatchAct.takes : WatchAct → Bool
  | .go | .fail true | .cancel true => true
  | .scan _ | .fail false | .cancel false => false

def AppConfig.cutoff (c : AppConfig) (m : String) (now : Nat) : Int := now - c.leaseTtl m

/-- `ZRANGEBYSCORE inflight 0 cutoff` -/
def Redis.candidates (r : Redis) (m : String) (cutoff : Int) : List String := (r.inflight m).rangeByScore 0 cutoff

namespace Watcher

section
variable (c : AppConfig) (r : Redis)

def next (m : String) : List String → Watcher
  | [] => idle
  | j :: rest => checking m j rest

def serve : Watcher → Redis
  | reclaiming m j _ ts => r.reclaim m j ts
  | _ => r

def served : Watcher → List Event
  | reclaiming m j _ _ => [.decremented m j]
  | announcing _ j _ => [.published j .failed]
  | _ => []

def counted (m : String) : List Event := [.metric (.failure m .workerCrash), .metric (.workerCrash m)]

def resume : Watcher → Option (Watcher × List Event)
  | ranging m cutoff => some (next m (r.candidates m cutoff), [])
  | checking m j rest => some (if (r.lease j).isSome then next m rest else reclaiming m j rest r.now, [])
  | reclaiming m j rest _ => some (announcing m j rest, [])
  | announcing m j rest => some (describing m j rest, counted m)
  | describing m j rest => some (next m rest, [.emitted .workerCrash j])
  | idle => none

def onError : Watcher → Option (Watcher × List Event)
  | ranging _ _ => some (idle, [.metric (.redisError "zrangebyscore_inflight")])
  | checking m _ rest => some (next m rest, [.metric (.redisError "lease_exists_check")])
  | reclaiming m _ rest _ => some (next m rest, [.metric (.redisError "lease_reclaim_write")])
  | announcing m j rest => some (describing m j rest, counted m ++ [.metric (.redisError "lease_reclaim_publish")])
  | describing m j rest => some (next m rest, [.emitted .workerCrash j])
  | idle => none

def step (w : Watcher) : WatchAct → Option (Redis × Watcher × List Event)
  | .scan m =>
    match w with
    | idle => if m ∈ c.allModelNames then some (r, ranging m (c.cutoff m r.now), []) else none
    | _ => none
  | .go => (w.resume r).map fun (w', es) => (w.serve r, w', es ++ w.served)
  | .fail took =>
    (w.onError).map fun (w', es) =>
      (if took then w.serve r else r, w', es ++ if took then w.served else [])
  | .cancel took =>
    if w = idle then none
    else some (if took then w.serve r else r, idle, if took then w.served else [])

end

def pending : Watcher → Option (String × List String)
  | checking m j rest | reclaiming m j rest _ => some (m, j :: rest)
  | announcing m _ rest | describing m _ rest => some (m, rest)
  | idle | ranging .. => none

end Watcher

/-! ## A scan by itself -/

def Redis.reclaimIfOrphaned (r : Redis) (m j : String) : Redis :=
  if (r.lease j).isSome then r else r.reclaim m j r.now

def Redis.scanModel (r : Redis) (c : AppConfig) (m : String) : Redis :=
  (r.candidates m (c.cutoff m r.now)).foldl (fun r j => r.reclaimIfOrphaned m j) r

end AdmissionScheduler
