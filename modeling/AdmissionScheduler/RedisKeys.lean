import AdmissionScheduler.Redis
import Mathlib.Logic.Function.Basic

/-!
# Redis keys

The key functions of `redis_keys.py`. All keys share one space of strings, built
by concatenation with names nobody checks; still no two calls give the same
string unless they are the same function on the same argument. So the flat store
is one map per key function, which is how `Redis` has it.
-/

namespace AdmissionScheduler

def slotsInUseKey (model : String) : String := s!"slots:{model}:in_use"

def slotsCapacityKey (model : String) : String := s!"slots:{model}:capacity"

def queueKey (model : String) : String := s!"queue:{model}"

/-- Also what `CLAIM_SLOT_SCRIPT` and the workers put together by hand. -/
def jobKey (jobId : String) : String := s!"job:{jobId}"

def idemKey (sha256Hash : String) : String := s!"idem:{sha256Hash}"

def leaseKey (jobId : String) : String := s!"lease:{jobId}"

def inflightKey (model : String) : String := s!"inflight:{model}"

def dlqKey (model : String) : String := s!"dlq:{model}"

def seqKey (model : String) : String := s!"seq:{model}"

def jobDoneChannel (jobId : String) : String := s!"job_done:{jobId}"

/-- A call of a key function. -/
inductive Key where
  | slotsInUse (model : String)
  | slotsCapacity (model : String)
  | queue (model : String)
  | job (jobId : String)
  | idem (sha256Hash : String)
  | lease (jobId : String)
  | inflight (model : String)
  | dlq (model : String)
  | seq (model : String)
  | jobDone (jobId : String)
  deriving DecidableEq, Repr

namespace Key

def name : Key → String
  | slotsInUse m => slotsInUseKey m
  | slotsCapacity m => slotsCapacityKey m
  | queue m => queueKey m
  | job j => jobKey j
  | idem h => idemKey h
  | lease j => leaseKey j
  | inflight m => inflightKey m
  | dlq m => dlqKey m
  | seq m => seqKey m
  | jobDone j => jobDoneChannel j

theorem inUse_ne_capacity (m m' : List Char) : m ++ ":in_use".toList ≠ m' ++ ":capacity".toList := by
  intro h
  have := congrArg List.getLast? h
  simp at this

/-- The ten key functions are jointly injective. -/
theorem name_injective : Function.Injective name := by
  intro a b h
  have hl := congrArg String.toList h
  cases a <;> cases b <;>
    simp [name, slotsInUseKey, slotsCapacityKey, queueKey, jobKey, idemKey, leaseKey, inflightKey, dlqKey, seqKey,
      jobDoneChannel, toString] at hl
  case slotsInUse.slotsCapacity => exact absurd hl (inUse_ne_capacity _ _)
  case slotsCapacity.slotsInUse => exact absurd hl.symm (inUse_ne_capacity _ _)
  all_goals rw [String.toList_injective hl]

def model : Key → Option String
  | slotsInUse m | slotsCapacity m | queue m | inflight m | dlq m | seq m => some m
  | job _ | idem _ | lease _ | jobDone _ => none

def jobId : Key → Option String
  | job j | lease j => some j
  | slotsInUse _ | slotsCapacity _ | queue _ | idem _ | inflight _ | dlq _ | seq _ | jobDone _ => none

theorem model_of_jobId {key : Key} {j : String} (h : key.jobId = some j) : key.model = none := by
  cases key <;> first | rfl | cases h

def Of (st : String → Option String) (m : String) (key : Key) : Prop :=
  key.model = some m ∨ ∃ j, key.jobId = some j ∧ st j = some m

end Key

/-- What the store holds at a key; a channel holds nothing. -/
inductive Value where
  | counter (n : Option Int)
  | queue (z : SortedSet Double String)
  | hash (h : Option (Entry JobHash))
  | text (e : Option (Entry String))
  | lease (expireAt : Option Nat)
  | inflight (z : SortedSet Int String)
  | set (z : Finset String)
  | sequence (n : Nat)
  | channel

namespace Redis

def value (r : Redis) : Key → Value
  | .slotsInUse m => .counter (r.inUse m)
  | .slotsCapacity m => .counter (r.capacity m)
  | .queue m => .queue (r.queue m)
  | .job j => .hash (r.job j)
  | .idem h => .text (r.idem h)
  | .lease j => .lease (r.lease j)
  | .inflight m => .inflight (r.inflight m)
  | .dlq m => .set (r.dlq m)
  | .seq m => .sequence (r.seq m)
  | .jobDone _ => .channel

/-- The flat store, from strings. -/
noncomputable def flat (r : Redis) : String → Option Value :=
  Function.extend Key.name (fun key => some (r.value key)) fun _ => none

/-- Names being injective, a string leads to the value of its one key. -/
theorem flat_name (r : Redis) (key : Key) : r.flat key.name = some (r.value key) :=
  Key.name_injective.extend_apply _ _ key

end Redis

end AdmissionScheduler
