import AdmissionScheduler.PyValue
import Mathlib.Data.Fin.VecNotation
import Mathlib.Data.Fintype.Basic

/-!
# Job states and configuration

The enumerations of `app/state.py` and the validated configuration of
`app/config.py`. A `ModelConfig` carries what its validators check, so no other
value of it exists; `DefaultsConfig` is not validated until a model falls back
on it. Times are nanoseconds.
-/

namespace AdmissionScheduler

inductive JobStatus where
  | queued
  | dispatched
  | completed
  | failed
  | timeout
  | cancelled
  | rejected
  | cancelling
  deriving DecidableEq, Repr

namespace JobStatus

def value : JobStatus → String
  | queued => "queued"
  | dispatched => "dispatched"
  | completed => "completed"
  | failed => "failed"
  | timeout => "timeout"
  | cancelled => "cancelled"
  | rejected => "rejected"
  | cancelling => "cancelling"

def all : List JobStatus := [queued, dispatched, completed, failed, timeout, cancelled, rejected, cancelling]

/-- The status a text names; any other text is treated by the code as no status at all. -/
def parse (s : String) : Option JobStatus := all.find? fun st => st.value = s

theorem parse_value (st : JobStatus) : parse st.value = some st := by cases st <;> decide

def terminal : JobStatus → Bool
  | completed | failed | cancelled | timeout | rejected => true
  | queued | dispatched | cancelling => false

end JobStatus

inductive EventType where
  | queued
  | dispatched
  | completed
  | failed
  | cancelled
  | rejected
  | workerCrash
  deriving DecidableEq, Repr

inductive ErrorClass where
  | backend5xx
  | backendTimeout
  | backend429
  | networkError
  | workerCrash
  deriving DecidableEq, Repr

def second : Nat := 1000000000

structure ModelConfig where
  maxConcurrency : Int
  maxQueueDepth : Int
  syncTimeoutSeconds : Int
  priority : Int
  priority_in_range : priority ∈ [1, 3, 5, 7, 9]
  concurrency_pos : 1 ≤ maxConcurrency
  depth_pos : 1 ≤ maxQueueDepth

def ModelConfig.validate (maxConcurrency maxQueueDepth syncTimeoutSeconds priority : Int) :
    Option ModelConfig :=
  if h : priority ∈ [1, 3, 5, 7, 9] ∧ 1 ≤ maxConcurrency ∧ 1 ≤ maxQueueDepth then
    some ⟨maxConcurrency, maxQueueDepth, syncTimeoutSeconds, priority, h.1, h.2.1, h.2.2⟩
  else none

/-- `max(sync_timeout_seconds, 60) + 30`, the lease TTL and the reclaim cutoff. -/
def ModelConfig.leaseTtl (c : ModelConfig) : Nat := (max c.syncTimeoutSeconds 60 + 30).toNat * second

structure DefaultsConfig where
  maxConcurrency : Int
  maxQueueDepth : Int
  syncTimeoutSeconds : Int
  priority : Int

/-- The enqueue script joins texts with NUL, so a configured name holds none. -/
structure AppConfig where
  defaults : DefaultsConfig
  models : List (String × ModelConfig)
  nodup : (models.map Prod.fst).Nodup
  plain : ∀ m ∈ models.map Prod.fst, '\x00' ∉ m.toList

namespace AppConfig

def modelConfigFor (c : AppConfig) (model : String) : Option ModelConfig :=
  match c.models.lookup model with
  | some mc => some mc
  | none =>
    ModelConfig.validate c.defaults.maxConcurrency c.defaults.maxQueueDepth c.defaults.syncTimeoutSeconds
      c.defaults.priority

def allModelNames (c : AppConfig) : List String := c.models.map Prod.fst

/-- The lease TTL of a worker or watcher of the model; both exist only for configured models. -/
def leaseTtl (c : AppConfig) (model : String) : Nat :=
  match c.modelConfigFor model with
  | some mc => mc.leaseTtl
  | none => 0

/-- The `sync_timeout_seconds` of the model; requests are admitted only where there is one. -/
def syncTimeout (c : AppConfig) (model : String) : Int :=
  match c.modelConfigFor model with
  | some mc => mc.syncTimeoutSeconds
  | none => 0

/-- The value `_startup` writes to the capacity key of each configured model. -/
def capacityOf (c : AppConfig) (model : String) : Option Int :=
  (c.models.lookup model).map ModelConfig.maxConcurrency

theorem capacityOf_isSome {c : AppConfig} {model : String} :
    (c.capacityOf model).isSome = true ↔ model ∈ c.allModelNames := by
  simp only [capacityOf, Option.isSome_map, List.lookup_isSome_iff, allModelNames, List.mem_map, beq_iff_eq]
  constructor
  · rintro ⟨p, hp, rfl⟩; exact ⟨p, hp, rfl⟩
  · rintro ⟨p, hp, rfl⟩; exact ⟨p, hp, rfl⟩

theorem capacity_pos {c : AppConfig} {model : String} {cap : Int} (h : c.capacityOf model = some cap) :
    1 ≤ cap := by
  obtain ⟨mc, -, rfl⟩ := Option.map_eq_some_iff.mp h
  exact mc.concurrency_pos

end AppConfig

def AppConfig.ofModel (model : String) (mc : ModelConfig) (h : '\x00' ∉ model.toList) : AppConfig where
  defaults := ⟨3, 50, 120, 5⟩
  models := [(model, mc)]
  nodup := List.nodup_singleton _
  plain m hm := by rw [List.map_singleton, List.mem_singleton] at hm; rw [hm]; exact h

/-- What the running system is made of: the configuration, the model each
worker task serves, and the hash of idempotency keys. -/
structure Deployment (ι : Type) where
  config : AppConfig
  workerModel : ι → String
  configured : ∀ i, workerModel i ∈ config.allModelNames
  sha256 : String → String

def twoWorkers (maxConcurrency : Int) (h : 1 ≤ maxConcurrency) : Deployment (Fin 2) where
  config := .ofModel "chat" ⟨maxConcurrency, 50, 60, 5, by decide, h, by decide⟩ (by decide)
  workerModel _ := "chat"
  configured _ := List.mem_singleton_self _
  sha256 := id

def chatWorkers (n : Nat) (maxConcurrency maxQueueDepth : Int) (hc : 1 ≤ maxConcurrency) (hq : 1 ≤ maxQueueDepth) :
    Deployment (Fin n) where
  config := .ofModel "chat" ⟨maxConcurrency, maxQueueDepth, 60, 5, by decide, hc, hq⟩ (by decide)
  workerModel _ := "chat"
  configured _ := List.mem_singleton_self _
  sha256 := id

def oneWorker (syncTimeoutSeconds : Int) : Deployment (Fin 1) where
  config := .ofModel "chat" ⟨3, 50, syncTimeoutSeconds, 5, by decide, by decide, by decide⟩ (by decide)
  workerModel _ := "chat"
  configured _ := List.mem_singleton_self _
  sha256 := id

/-- Two models whose names look like parts of keys, with one worker each. -/
def twoModels : Deployment (Fin 2) where
  config :=
    { defaults := ⟨3, 50, 120, 5⟩
      models := [("chat", ⟨1, 50, 60, 5, by decide, by decide, by decide⟩),
        ("chat:in_use", ⟨1, 1, 60, 5, by decide, by decide, by decide⟩)]
      nodup := by decide
      plain := by decide }
  workerModel := ![ "chat", "chat:in_use"]
  configured := by decide
  sha256 := id

def chatOnly : AppConfig := .ofModel "chat" ⟨3, 50, 60, 5, by decide, by decide, by decide⟩ (by decide)

end AdmissionScheduler
