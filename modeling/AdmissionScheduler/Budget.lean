import AdmissionScheduler.Machine
import AdmissionScheduler.Redis
import Mathlib.Data.Finset.Insert

/-!
# The token budget

`orchestrator/budget.py`: one counter for each role and day in a Redis of its
own, incremented before a call to the model, corrected after it, and put back
when the increment went over the cap. Any number of calls run side by side; each
stops at every command, and any command may fail. Amounts are `int`, so nothing
keeps them positive.
-/

namespace AdmissionScheduler.Budget

structure Role where
  name : String
  dailyTokenCap : Int
  deriving DecidableEq

/-- `_key`; the day is the ISO text of a date. -/
def key (roleName day : String) : String := s!"kola:tokens:{roleName}:{day}"

structure Reservation where
  role : String
  key : String
  reserved : Int
  deriving DecidableEq

/-! ## The counters -/

structure Counters where
  now : Nat
  value : String → Option (Entry Int)

def ttl : Nat := 60 * 60 * 48 * second

/-- What Redis takes as an integer. -/
def Fits (n : Int) : Prop := -2 ^ 63 ≤ n ∧ n < 2 ^ 63

instance (n : Int) : Decidable (Fits n) := inferInstanceAs (Decidable (_ ∧ _))

namespace Counters

variable (c : Counters)

def used (k : String) : Int := ((c.value k).map Entry.value).getD 0

def incrby (k : String) (n : Int) : Option Counters :=
  if Fits n ∧ Fits (c.used k + n) then
    some { c with value := Function.update c.value k (some ⟨c.used k + n, (c.value k).bind Entry.expireAt⟩) }
  else none

def expire (k : String) : Counters :=
  { c with value := Function.update c.value k ((c.value k).map fun e => ⟨e.value, some (c.now + ttl)⟩) }

def tick (δ : Nat) : Counters where
  now := c.now + δ
  value k := (c.value k).filter fun e => e.alive (c.now + δ)

end Counters

/-! ## A call and its commit -/

inductive Call where
  | idle
  -- in `check_and_reserve`, at each of its commands
  | reserving (role : Role) (key : String) (expected : Int)
  | expiring (role : Role) (key : String) (expected newTotal : Int)
  | rollingBack (role : Role) (key : String) (expected newTotal : Int)
  -- `check_and_reserve` has returned or raised
  | granted (res : Reservation)
  | exceeded (message : String)
  | unavailable
  -- in `commit`
  | committing (res : Reservation) (actual : Int)
  | committed (res : Reservation) (actual : Int)
  /-- The correction failed and was logged. -/
  | uncorrected (res : Reservation) (actual : Int)
  | raised
  deriving DecidableEq

inductive RedisFault where
  /-- `ConnectionError` or `TimeoutError`, which the module catches. -/
  | connection
  | other
  deriving DecidableEq

def exceededMessage (role : Role) (expected newTotal : Int) : String :=
  s!"role={role.name} cap={role.dailyTokenCap} déjà={newTotal - expected} reserved={expected}"

namespace Call

def serve (c : Counters) : Call → Option Counters
  | reserving _ k expected => c.incrby k expected
  | expiring _ k _ _ => some (c.expire k)
  | rollingBack _ k expected _ => c.incrby k (-expected)
  | committing res actual => c.incrby res.key (actual - res.reserved)
  | idle | granted _ | exceeded _ | unavailable | committed .. | uncorrected .. | raised => none

def resume (c : Counters) : Call → Call
  | reserving role k expected => expiring role k expected (c.used k)
  | expiring role k expected newTotal =>
    if newTotal > role.dailyTokenCap then rollingBack role k expected newTotal else granted ⟨role.name, k, expected⟩
  | rollingBack role _ expected newTotal => exceeded (exceededMessage role expected newTotal)
  | committing res actual => committed res actual
  | p => p

def onError : RedisFault → Call → Option Call
  | .connection, reserving .. | .connection, expiring .. => some unavailable
  | .connection, rollingBack role _ expected newTotal => some (exceeded (exceededMessage role expected newTotal))
  | .connection, committing res actual => some (uncorrected res actual)
  | .other, reserving .. | .other, expiring .. | .other, rollingBack .. | .other, committing .. => some raised
  | _, idle | _, granted _ | _, exceeded _ | _, unavailable | _, committed .. | _, uncorrected .. | _, raised => none

/-- `commit`, which returns at once when there is nothing to correct. -/
def commit (actual : Int) : Call → Option Call
  | granted res => some (if actual - res.reserved = 0 then committed res actual else committing res actual)
  | _ => none

end Call

/-! ## All calls together -/

structure State where
  counters : Counters
  calls : Nat → Call
  /-- The calls that have begun. -/
  begun : Finset Nat

inductive Action where
  | reserve (n : Nat) (role : Role) (expected : Int)
  | commit (n : Nat) (actual : Int)
  | go (n : Nat)
  | fail (n : Nat) (fault : RedisFault) (took : Bool)
  | tick (δ : Nat)
  deriving DecidableEq

def initState : State where
  counters := ⟨0, fun _ => none⟩
  calls _ := .idle
  begun := ∅

/-- `today` gives the ISO text of `date.today()`. -/
def step (today : Nat → String) (s : State) : Action → Option State
  | .reserve n role expected =>
    match s.calls n with
    | .idle =>
      some { s with
        calls := Function.update s.calls n (.reserving role (key role.name (today s.counters.now)) expected)
        begun := insert n s.begun }
    | _ => none
  | .commit n actual => ((s.calls n).commit actual).map fun p => { s with calls := Function.update s.calls n p }
  | .go n =>
    ((s.calls n).serve s.counters).map fun c =>
      { s with counters := c, calls := Function.update s.calls n ((s.calls n).resume c) }
  | .fail n fault took =>
    ((s.calls n).onError fault).map fun p =>
      { s with
        counters := if took then ((s.calls n).serve s.counters).getD s.counters else s.counters
        calls := Function.update s.calls n p }
  | .tick δ => some { s with counters := s.counters.tick δ }

def system (today : Nat → String) : Machine State Action where
  init := initState
  step := step today

end AdmissionScheduler.Budget
