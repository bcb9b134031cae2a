import AdmissionScheduler.JobHash
import AdmissionScheduler.SortedSet
import Mathlib.Data.String.Basic
import Mathlib.Logic.Function.Basic
import Mathlib.Tactic.Common

/-!
# The shared store

The keys of `redis_keys.py` as one map per key function, and the commands that
touch them: the three Lua scripts, the pipelines and the single commands, each
an atomic change of the store. A key with a TTL is gone once its time has come.
-/

namespace AdmissionScheduler

structure Entry (α : Type) where
  value : α
  expireAt : Option Nat := none

def Entry.alive {α : Type} (now : Nat) (e : Entry α) : Bool :=
  match e.expireAt with
  | some t => now < t
  | none => true

/-- `now` is the Unix time in nanoseconds, which scores in `inflight` also are. -/
structure Redis where
  now : Nat
  inUse : String → Option Int
  capacity : String → Option Int
  queue : String → SortedSet Double String
  inflight : String → SortedSet Int String
  dlq : String → Finset String
  seq : String → Nat
  job : String → Option (Entry JobHash)
  lease : String → Option Nat
  idem : String → Option (Entry String)

def jobTerminalTtl : Nat := 3600 * second

def idemTtl : Nat := 86400 * second

namespace Redis

section
variable (r : Redis)

def hashOf (j : String) : JobHash := ((r.job j).map Entry.value).getD {}

def status (j : String) : Option JobStatus := (r.job j).bind fun e => e.value.status

def inUseOf (m : String) : Int := (r.inUse m).getD 0

/-! ## Single commands -/

/-- `HSET`; it creates the hash where there is none and keeps its TTL where there is one. -/
def hset (j : String) (f : JobHash → JobHash) : Redis :=
  { r with job := Function.update r.job j (some ⟨f (r.hashOf j), (r.job j).bind Entry.expireAt⟩) }

def expire (j : String) (ttl : Nat) : Redis :=
  { r with job := Function.update r.job j ((r.job j).map fun e => ⟨e.value, some (r.now + ttl)⟩) }

def addInUse (m : String) (δ : Int) : Redis :=
  { r with inUse := Function.update r.inUse m (some (r.inUseOf m + δ)) }

def setInUse (m : String) (n : Int) : Redis := { r with inUse := Function.update r.inUse m (some n) }

def incrSeq (m : String) : Redis := { r with seq := Function.update r.seq m (r.seq m + 1) }

def setIdem (h j : String) : Redis :=
  { r with idem := Function.update r.idem h (some ((r.idem h).getD ⟨j, some (r.now + idemTtl)⟩)) }

/-- What `BZPOPMIN` leaves when the queue is not empty. -/
def popQueue (m : String) : Redis :=
  { r with queue := Function.update r.queue m (((r.queue m).popMin?.map fun p => p.2.2).getD (r.queue m)) }

def addQueued (m j : String) (score : Double) : Redis :=
  { r with queue := Function.update r.queue m ((r.queue m).add j score) }

def removeQueued (m j : String) : Redis := { r with queue := Function.update r.queue m ((r.queue m).remove j) }

def removeInflight (m j : String) : Redis :=
  { r with inflight := Function.update r.inflight m ((r.inflight m).remove j) }

def firstQueued (m : String) : Option String := (r.queue m).popMin?.map fun p => p.2.1

/-! ## Lua scripts -/

def slotFree (m : String) : Bool :=
  match r.capacity m with
  | some capacity => r.inUseOf m < capacity
  | none => false

def claimSlot (m j : String) (ts : Nat) : Redis :=
  (r.addInUse m 1).hset j fun h => { h with status := some .dispatched, dispatchTs := some ts }

def cancelQueued (m j : String) (ts : Nat) : Redis :=
  (r.removeQueued m j).hset j fun h => { h with status := some .cancelled, completeTs := some ts }

inductive Enqueued where
  | full
  -- Redis refuses a `nan` score
  | refused
  -- the job is in the queue, but `HSET` had an odd number of arguments
  | misfiled
  | done (h : JobHash)
  deriving DecidableEq

def enqueueOutcome (m j : String) (score : Double) (maxDepth : Int) (values : List Text) : Enqueued :=
  if maxDepth ≤ (r.queue m).card then .full
  else if score = .nan then .refused
  else
    match enqueuedHash values (r.hashOf j) with
    | some h => .done h
    | none => .misfiled

def enqueueJob (m j : String) (score : Double) : Enqueued → Redis
  | .full | .refused => r
  | .misfiled => r.addQueued m j score
  | .done h => (r.addQueued m j score).hset j fun _ => h

/-! ## Pipelines -/

def track (m j : String) (t ttl : Nat) : Redis :=
  { r with
    lease := Function.update r.lease j (some (r.now + ttl))
    inflight := Function.update r.inflight m ((r.inflight m).add j t) }

/-- `HSET` of a terminal status with its `EXPIRE`. -/
def finish (j : String) (f : JobHash → JobHash) : Redis := (r.hset j f).expire j jobTerminalTtl

def releaseSlot (m j : String) : Redis :=
  { (r.addInUse m (-1)).removeInflight m j with lease := Function.update r.lease j none }

/-- The transaction of `_reclaim_if_orphaned`. -/
def reclaim (m j : String) (ts : Nat) : Redis :=
  { (((r.finish j fun h =>
      { h with status := some .failed, errorClass := some .workerCrash, completeTs := some ts }).addInUse m
        (-1)).removeInflight m j) with dlq := Function.update r.dlq m (insert j (r.dlq m)) }

/-! ## Time -/

def tick (d : Nat) : Redis :=
  { r with
    now := r.now + d
    job := fun j => (r.job j).filter fun e => e.alive (r.now + d)
    lease := fun j => (r.lease j).filter fun t => r.now + d < t
    idem := fun h => (r.idem h).filter fun e => e.alive (r.now + d) }

/-! ## Other jobs' hashes -/

variable {r} {m j k : String} {f : JobHash → JobHash} {ts : Nat}

theorem hset_job_ne (h : k ≠ j) : (r.hset j f).job k = r.job k := by simp [hset, h]

theorem expire_job_ne {ttl : Nat} (h : k ≠ j) : (r.expire j ttl).job k = r.job k := by simp [expire, h]

theorem claimSlot_job_ne (h : k ≠ j) : (r.claimSlot m j ts).job k = r.job k :=
  hset_job_ne (r := r.addInUse m 1) h

theorem cancelQueued_job_ne (h : k ≠ j) : (r.cancelQueued m j ts).job k = r.job k :=
  hset_job_ne (r := r.removeQueued m j) h

theorem finish_job_ne (h : k ≠ j) : (r.finish j f).job k = r.job k :=
  (expire_job_ne h).trans (hset_job_ne h)

theorem reclaim_job_ne (h : k ≠ j) : (r.reclaim m j ts).job k = r.job k := finish_job_ne h

theorem enqueueJob_job_ne {score : Double} {e : Enqueued} (h : k ≠ j) :
    (r.enqueueJob m j score e).job k = r.job k := by
  cases e with
  | full | refused | misfiled => rfl
  | done h₀ => exact hset_job_ne (r := r.addQueued m j score) (f := fun _ => h₀) h

end

end Redis

end AdmissionScheduler
