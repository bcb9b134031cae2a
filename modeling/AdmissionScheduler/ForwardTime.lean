import AdmissionScheduler.System

/-!
# Time inside a forward

The running system with a clock for each forward in progress. `httpx.Timeout(t)`
bounds each of its four phases by `t` on its own, so time passes only as far as
no phase in progress lasts longer.
-/

namespace AdmissionScheduler

inductive Phase where
  | pool
  | connect
  | write
  | read
  deriving DecidableEq, Repr

namespace Phase

def next : Phase → Option Phase
  | pool => some connect
  | connect => some write
  | write => some read
  | read => none

def left : Phase → Nat
  | pool => 4
  | connect => 3
  | write => 2
  | read => 1

end Phase

def AppConfig.phaseTimeout (c : AppConfig) (model : String) : Nat := (c.syncTimeout model).toNat * second

def AppConfig.forwardTime (c : AppConfig) (model : String) : Nat := Phase.pool.left * c.phaseTimeout model

def Pc.inForward : Pc → Bool
  | forwarding .. => true
  | _ => false

structure Timed (ι : Type) where
  state : State ι
  /-- The phase of the worker's forward in progress, and when it began. -/
  phase : ι → Phase
  since : ι → Nat

inductive TimedAct (ι : Type) where
  | act (a : Action ι)
  /-- The forward of a worker goes on to its next phase. -/
  | advance (i : ι)
  deriving DecidableEq

section
variable {ι : Type} [Fintype ι] [DecidableEq ι] (d : Deployment ι)

def Timed.inTime (T : Timed ι) : Action ι → Bool
  | .tick δ =>
    decide (∀ i, (T.state.workers i).pc.inForward = true →
      T.state.redis.now + δ ≤ T.since i + d.config.phaseTimeout (T.state.workers i).model)
  | _ => true

def Timed.step (T : Timed ι) : TimedAct ι → Option (Timed ι)
  | .act a =>
    if T.inTime d a then
      (AdmissionScheduler.step d T.state a).map fun s =>
        let begins i := (s.workers i).pc.inForward && !(T.state.workers i).pc.inForward
        { state := s
          phase := fun i => if begins i then .pool else T.phase i
          since := fun i => if begins i then s.redis.now else T.since i }
    else none
  | .advance i =>
    match (T.state.workers i).pc.inForward, (T.phase i).next with
    | true, some p =>
      some { T with phase := Function.update T.phase i p, since := Function.update T.since i T.state.redis.now }
    | _, _ => none

def timed : Machine (Timed ι) (TimedAct ι) where
  init := { state := initState d, phase := fun _ => .pool, since := fun _ => 0 }
  step := Timed.step d

end

end AdmissionScheduler
