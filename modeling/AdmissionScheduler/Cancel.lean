import AdmissionScheduler.Redis
import AdmissionScheduler.Trace

/-!
# Cancel requests

`cancel_job` as a machine that stops at every await. It decides on the hash it
reads first; the script repeats the test for a queued job, the plain `HSET` of
`cancelling` repeats none.
-/

namespace AdmissionScheduler

inductive Cancel where
  | idle
  | reading (j : String)
  | script (j m : String) (ts : Nat)
  | expiring (j m : String)
  | announcing (j m : String)
  | marking (j : String)
  | done (j : String) (status : Option JobStatus)
  | raised
  deriving DecidableEq

inductive CancelAct where
  | request (j : String)
  | go
  | fail (took : Bool)
  deriving DecidableEq

def CancelAct.takes : CancelAct → Bool
  | .go | .fail true => true
  | .request _ | .fail false => false

namespace Cancel

section
variable (r : Redis)

def serve : Cancel → Redis
  | script j m ts => if j ∈ r.queue m then r.cancelQueued m j ts else r
  | expiring j _ => r.expire j jobTerminalTtl
  | marking j => r.hset j fun h => { h with status := some .cancelling }
  | _ => r

def served : Cancel → List Event
  | script j m _ => if j ∈ r.queue m then [.cancelledQueued m j] else []
  | announcing j _ => [.published j .cancelled]
  | _ => []

def resume : Cancel → Option (Cancel × List Event)
  | reading j =>
    match r.job j with
    -- 404
    | none => some (raised, [])
    | some e =>
      let m := if e.value.model.getD "" = "" then "unknown" else e.value.model.getD ""
      if (e.value.status.map JobStatus.terminal).getD false then some (done j e.value.status, [])
      else if e.value.status = some .queued then some (script j m r.now, [])
      else some (marking j, [])
  | script j m _ => some (if j ∈ r.queue m then expiring j m else marking j, [])
  | expiring j m => some (announcing j m, [])
  | announcing j m => some (done j (some .cancelled), [.metric (.cancel m)])
  | marking j => some (done j (some .cancelling), [])
  | idle | done .. | raised => none

def onError : Cancel → Option Cancel
  | reading _ | script .. | expiring .. | announcing .. | marking _ => some raised
  | idle | done .. | raised => none

def step (a : Cancel) : CancelAct → Option (Redis × Cancel × List Event)
  | .request j =>
    match a with
    | idle => some (r, reading j, [])
    | _ => none
  | .go => (a.resume r).map fun (a', es) => (a.serve r, a', es ++ a.served r)
  | .fail took => (a.onError).map fun a' => (if took then a.serve r else r, a', if took then a.served r else [])

end

end Cancel

end AdmissionScheduler
