import AdmissionScheduler.JobHash
import AdmissionScheduler.Lifecycle

/-!
# What happens to a job

The trace of a run records, newest first, what each step did: the moves of jobs
through the queue and the workers, the changes of a slot counter, what is
published, logged and counted. The moves make up the lifecycle of a job: it is
enqueued, then either cancelled in the queue or popped, claimed and forwarded.
-/

namespace AdmissionScheduler

/-- A header value; HTTP allows no NUL in one. -/
abbrev Header := { s : String // '\x00' ∉ s.toList }

/-- A request as `admit` receives it; a `null` priority is `None`. -/
structure Submission where
  requestId : String
  model : String
  payload : Json
  priority : Json
  caller : String
  idempotencyKey : Option String
  requestId_plain : Plain requestId
  caller_plain : Plain caller
  deriving DecidableEq

def callerOf : Option Header → { s : String // Plain s }
  | some ⟨s, hs⟩ => if h : s = "" then ⟨"unknown", by decide⟩ else ⟨s, h, hs⟩
  | none => ⟨"unknown", by decide⟩

/-- `POST /v1/chat/completions`: the priority is any JSON value the metadata holds. -/
def chatCompletions (requestId : { s : String // Plain s }) (model : String) (payload : Json)
    (metadata : Option (List (String × Json))) (xCaller : Option Header) (idempotencyKey : Option String) :
    Submission where
  requestId := requestId
  model := model
  payload := payload
  priority :=
    match metadata with
    | none | some [] => .null
    | some kvs => (Json.field? kvs "priority").getD .null
  caller := callerOf xCaller
  idempotencyKey := idempotencyKey
  requestId_plain := requestId.2
  caller_plain := (callerOf xCaller).2

/-- `POST /jobs`: the schema has narrowed the priority to an integer. -/
def submitJob (requestId : { s : String // Plain s }) (model : String) (payload : Json) (priority : Option Int)
    (xCaller : Option Header) (idempotencyKey : Option String) : Submission where
  requestId := requestId
  model := model
  payload := payload
  priority := match priority with | some n => .int n | none => .null
  caller := callerOf xCaller
  idempotencyKey := idempotencyKey
  requestId_plain := requestId.2
  caller_plain := (callerOf xCaller).2

def chatRequest (payload priority : Json) (idempotencyKey : Option String) : Submission :=
  ⟨"req", "chat", payload, priority, "unknown", idempotencyKey, by decide, by decide⟩

def otherRequest : Submission := ⟨"req", "other", .obj [], .null, "unknown", none, by decide, by decide⟩

def chatWithPriority (priority : Json) : Submission :=
  chatCompletions ⟨"req", by decide⟩ "chat" (.obj []) (some [("priority", priority)]) none none

/-- The fields of a job hash that the dispatcher reads for its logs. -/
structure JobInfo where
  requestId : String
  model : String
  caller : String
  priority : Int
  deriving DecidableEq, Repr

inductive Metric where
  | admission (model result : String)
  | queueWait (model : String)
  | requestDuration (model : String)
  | backendDuration (model : String)
  | failure (model : String) (cls : ErrorClass)
  | cancel (model : String)
  | workerCrash (model : String)
  | redisError (operation : String)
  deriving DecidableEq, Repr

inductive Event where
  | enqueued (m j : String) (score : Double) (sub : Submission)
  -- the script added the job to the queue and then failed in its `HSET`
  | misfiled (m j : String)
  | stored (j : String)
  | popped (m j : String)
  | claimed (m j : String)
  -- the script claimed a slot and its reply was lost
  | leaked (m j : String)
  | forwarded (m j : String) (payload : Json)
  | cancelledQueued (m j : String)
  | decremented (m j : String)
  | reset (m : String) (value : Int)
  | published (j : String) (status : JobStatus)
  | emitted (type : EventType) (j : String)
  | driftCorrected (m : String) (recorded actual : Int)
  | metric (x : Metric)
  deriving DecidableEq

/-! ## Lifecycle -/

inductive Stage where
  | unborn
  | queued (m : String)
  | popped (m : String)
  | claimed (m : String)
  | forwarded (m : String)
  | cancelled (m : String)
  deriving DecidableEq, Repr

def Stage.rank : Stage → Nat
  | .unborn => 0
  | .queued _ => 1
  | .popped _ | .cancelled _ => 2
  | .claimed _ => 3
  | .forwarded _ => 4

def Event.move : Event → Option (String × Stage × Stage)
  | .enqueued m j _ _ | .misfiled m j => some (j, .unborn, .queued m)
  | .popped m j => some (j, .queued m, .popped m)
  | .claimed m j => some (j, .popped m, .claimed m)
  | .forwarded m j _ => some (j, .claimed m, .forwarded m)
  | .cancelledQueued m j => some (j, .queued m, .cancelled m)
  | _ => none

def jobLifecycle : Lifecycle Event String Stage where
  init := .unborn
  move := Event.move
  rank := Stage.rank
  rank_lt {e} := by
    intro k s t h
    cases e <;> simp only [Event.move, Option.some.injEq, Prod.mk.injEq, reduceCtorEq] at h <;>
      obtain ⟨-, rfl, rfl⟩ := h <;> simp [Stage.rank]

def stage (t : List Event) : String → Stage := jobLifecycle.stage t

abbrev LegalTrace (t : List Event) : Prop := jobLifecycle.Legal t

def Created (t : List Event) (j : String) (sub : Submission) : Prop := ∃ m x, .enqueued m j x sub ∈ t

def Event.creates (j : String) (sub : Submission) : Event → Bool
  | .enqueued _ k _ sub' => k = j ∧ sub' = sub
  | _ => false

theorem any_creates {t : List Event} {j : String} {sub : Submission} :
    t.any (Event.creates j sub) = true ↔ Created t j sub := by
  rw [List.any_eq_true]
  constructor
  · rintro ⟨e, he, hc⟩
    cases e <;> simp only [Event.creates, Bool.false_eq_true, decide_eq_true_eq] at hc
    obtain ⟨rfl, rfl⟩ := hc
    exact ⟨_, _, he⟩
  · rintro ⟨m, x, hx⟩
    exact ⟨_, hx, by simp [Event.creates]⟩

instance (t : List Event) (j : String) (sub : Submission) : Decidable (Created t j sub) :=
  decidable_of_iff _ any_creates

theorem Created.unique {t : List Event} (hl : LegalTrace t) {j : String} {sub sub' : Submission}
    (h : Created t j sub) (h' : Created t j sub') : sub = sub' := by
  obtain ⟨m, x, hx⟩ := h
  obtain ⟨m', x', hx'⟩ := h'
  have := Lifecycle.crosses_unique (n := 0) (k := j) hl hx hx' (Lifecycle.crosses_iff.mpr ⟨_, _, rfl, rfl⟩)
    (Lifecycle.crosses_iff.mpr ⟨_, _, rfl, rfl⟩)
  cases this; rfl

theorem Created.born {t : List Event} (hl : LegalTrace t) {j : String} {sub : Submission} (h : Created t j sub) :
    stage t j ≠ .unborn := by
  obtain ⟨m, x, hx⟩ := h
  have rank : (1 : Nat) ≤ (stage t j).rank := Lifecycle.rank_le_of_mem (L := jobLifecycle) hl hx rfl
  intro hu
  rw [hu] at rank; cases rank

/-- How often a slot was claimed for the job, and how often one was given back for it. -/
def claims (m j : String) (t : List Event) : Nat := t.count (.claimed m j)

def releases (m j : String) (t : List Event) : Nat := t.count (.decremented m j)

/-- Slots of the model claimed so far and not given back, by the history. -/
def outstanding (m : String) : List Event → Finset String
  | [] => ∅
  | .claimed m' j :: t => if m' = m then insert j (outstanding m t) else outstanding m t
  | .decremented m' j :: t => if m' = m then (outstanding m t).erase j else outstanding m t
  | _ :: t => outstanding m t

end AdmissionScheduler
