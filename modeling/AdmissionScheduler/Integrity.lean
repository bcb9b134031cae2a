import AdmissionScheduler.Redis
import AdmissionScheduler.Trace

/-!
# Integrity checks

`_check_model` as a machine. Its two reads are gathered, so Redis may serve
them in either order and other commands may fall between them.
-/

namespace AdmissionScheduler

inductive Checker where
  | idle
  | reading (m : String) (actual : Option Nat) (recorded : Option Int)
  | resetting (m : String) (actual : Nat) (recorded : Int)
  deriving DecidableEq

inductive CheckAct where
  | check (m : String)
  /-- `ZCARD inflight` is served. -/
  | card
  /-- `GET in_use` is served. -/
  | get
  | go
  | fail (took : Bool)
  /-- `stop()` has waited long enough and cancels the task. -/
  | cancel (took : Bool)
  deriving DecidableEq

def CheckAct.takes : CheckAct → Bool
  | .go | .fail true | .cancel true => true
  | .check _ | .card | .get | .fail false | .cancel false => false

/-- `recorded > actual + 2` -/
def drifted (recorded : Int) (actual : Nat) : Bool := (actual : Int) + 2 < recorded

namespace Checker

section
variable (c : AppConfig) (r : Redis)

def afterRead (m : String) : Option Nat → Option Int → Checker
  | some actual, some recorded => if drifted recorded actual then resetting m actual recorded else idle
  | actual, recorded => reading m actual recorded

def serve : Checker → Redis
  | resetting m actual _ => r.setInUse m actual
  | _ => r

def served : Checker → List Event
  | resetting m actual _ => [.reset m actual]
  | _ => []

def step (k : Checker) : CheckAct → Option (Redis × Checker × List Event)
  | .check m =>
    match k with
    | idle => if m ∈ c.allModelNames then some (r, reading m none none, []) else none
    | _ => none
  | .card =>
    match k with
    | reading m none recorded => some (r, afterRead m (some (r.inflight m).card) recorded, [])
    | _ => none
  | .get =>
    match k with
    | reading m actual none => some (r, afterRead m actual (some (r.inUseOf m)), [])
    | _ => none
  | .go =>
    match k with
    | resetting m actual recorded =>
      some (k.serve r, idle, [.driftCorrected m recorded actual, .metric (.redisError "drift_correction")] ++ k.served)
    | _ => none
  | .fail took =>
    match k with
    | idle => none
    | reading .. => some (r, idle, [.metric (.redisError "integrity_read")])
    | resetting .. =>
      some (if took then k.serve r else r, idle,
        [.metric (.redisError "integrity_write")] ++ if took then k.served else [])
  | .cancel took =>
    if k = idle then none
    else some (if took then k.serve r else r, idle, if took then k.served else [])

end

end Checker

def Redis.checkModel (r : Redis) (m : String) : Redis :=
  if drifted (r.inUseOf m) (r.inflight m).card then r.setInUse m (r.inflight m).card else r

end AdmissionScheduler
