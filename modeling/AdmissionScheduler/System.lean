import AdmissionScheduler.Machine
import AdmissionScheduler.Holdings
import AdmissionScheduler.Dispatcher
import AdmissionScheduler.Admission
import AdmissionScheduler.Cancel
import AdmissionScheduler.LeaseWatcher
import AdmissionScheduler.Integrity

/-!
# The running system

One store shared by a family of dispatcher workers and by any number of
admissions, cancel requests, lease scans and integrity checks. A step of the
system is a step of one of them, or time passing.
-/

namespace AdmissionScheduler

structure State (ι : Type) where
  redis : Redis
  workers : ι → Worker
  admits : Nat → Admit
  cancels : Nat → Cancel
  watchers : Nat → Watcher
  checkers : Nat → Checker
  /-- The job ids that `uuid7()` has returned. -/
  issued : List String
  /-- What has happened, newest first. -/
  trace : List Event

inductive Action (ι : Type) where
  | worker (i : ι) (a : WorkerAct)
  | admission (k : Nat) (a : AdmitAct)
  | cancel (k : Nat) (a : CancelAct)
  | watch (k : Nat) (a : WatchAct)
  | check (k : Nat) (a : CheckAct)
  | tick (d : Nat)
  deriving DecidableEq

def AppConfig.initRedis (c : AppConfig) : Redis where
  now := 0
  inUse m := (c.capacityOf m).map fun _ => 0
  capacity := c.capacityOf
  queue _ := .empty
  inflight _ := .empty
  dlq _ := ∅
  seq _ := 0
  job _ := none
  lease _ := none
  idem _ := none

def Action.elapsed {ι : Type} : Action ι → Nat
  | .tick δ => δ
  | .worker .. | .admission .. | .cancel .. | .watch .. | .check .. => 0

def AdmitAct.issues : AdmitAct → List String
  | .name j => [j]
  | .submit _ | .go | .fail _ => []

section
variable {ι : Type} [DecidableEq ι] (d : Deployment ι)

def initState : State ι where
  redis := d.config.initRedis
  workers i := { model := d.workerModel i }
  admits _ := .idle
  cancels _ := .idle
  watchers _ := .idle
  checkers _ := .idle
  issued := []
  trace := []

/-- Job ids are fresh: `uuid7()` never returns one twice. -/
def step (s : State ι) : Action ι → Option (State ι)
  | .worker i a =>
    ((s.workers i).step d.config s.redis a).map fun (redis, w, es) =>
      { s with redis, workers := Function.update s.workers i w, trace := es ++ s.trace }
  | .admission k a =>
    if ∀ j ∈ a.issues, j ∉ s.issued then
      ((s.admits k).step d.config d.sha256 s.redis a).map fun (redis, p, es) =>
        { s with redis, admits := Function.update s.admits k p, issued := a.issues ++ s.issued, trace := es ++ s.trace }
    else none
  | .cancel k a =>
    ((s.cancels k).step s.redis a).map fun (redis, p, es) =>
      { s with redis, cancels := Function.update s.cancels k p, trace := es ++ s.trace }
  | .watch k a =>
    ((s.watchers k).step d.config s.redis a).map fun (redis, p, es) =>
      { s with redis, watchers := Function.update s.watchers k p, trace := es ++ s.trace }
  | .check k a =>
    ((s.checkers k).step d.config s.redis a).map fun (redis, p, es) =>
      { s with redis, checkers := Function.update s.checkers k p, trace := es ++ s.trace }
  | .tick δ => some { s with redis := s.redis.tick δ }

def system : Machine (State ι) (Action ι) where
  init := initState d
  step := step d

/-! ## What a step leaves alone -/

variable {d} {s s' : State ι}

theorem events_of_step {a : Action ι} (h : step d s a = some s') : ∃ es, s'.trace = es ++ s.trace := by
  cases a with
  | worker i b | cancel k b | watch k b | check k b =>
    simp only [step, Option.map_eq_some_iff] at h
    obtain ⟨-, -, rfl⟩ := h; exact ⟨_, rfl⟩
  | admission k b =>
    simp only [step, Option.ite_none_right_eq_some, Option.map_eq_some_iff] at h
    obtain ⟨-, -, -, rfl⟩ := h; exact ⟨_, rfl⟩
  | tick δ => cases h; exact ⟨[], rfl⟩

theorem mem_of_step {a : Action ι} (h : step d s a = some s') {e : Event} (he : e ∈ s.trace) : e ∈ s'.trace := by
  obtain ⟨es, hes⟩ := events_of_step h
  rw [hes]; exact List.mem_append_right _ he

theorem Created.step {a : Action ι} (h : step d s a = some s') {j : String} {sub : Submission}
    (hc : Created s.trace j sub) : Created s'.trace j sub := by
  obtain ⟨m, x, hx⟩ := hc
  exact ⟨m, x, mem_of_step h hx⟩

/-- A party changes only by a step of its own. -/
theorem worker_of_step {a : Action ι} (h : step d s a = some s') (i : ι) :
    (∀ b, a ≠ .worker i b) ∧ s'.workers i = s.workers i ∨
      ∃ b es, a = .worker i b ∧ (s.workers i).step d.config s.redis b = some (s'.redis, s'.workers i, es) ∧
        s'.trace = es ++ s.trace := by
  cases a with
  | worker l b =>
    simp only [step, Option.map_eq_some_iff] at h
    obtain ⟨⟨r', p', es⟩, hp, rfl⟩ := h
    by_cases hk : i = l
    · subst hk; exact .inr ⟨b, es, rfl, by simpa using hp, rfl⟩
    · exact .inl ⟨fun _ e => hk (Action.worker.inj e).1.symm, Function.update_of_ne hk _ _⟩
  | admission l b =>
    simp only [step, Option.ite_none_right_eq_some, Option.map_eq_some_iff] at h
    obtain ⟨_, _, _, rfl⟩ := h; exact .inl ⟨nofun, rfl⟩
  | cancel l b | watch l b | check l b =>
    simp only [step, Option.map_eq_some_iff] at h
    obtain ⟨_, _, rfl⟩ := h; exact .inl ⟨nofun, rfl⟩
  | tick δ => cases h; exact .inl ⟨nofun, rfl⟩

theorem admit_of_step {a : Action ι} (h : step d s a = some s') (k : Nat) : s'.admits k = s.admits k ∨
    ∃ b es, a = .admission k b ∧ (s.admits k).step d.config d.sha256 s.redis b = some (s'.redis, s'.admits k, es) ∧
      s'.trace = es ++ s.trace := by
  cases a with
  | admission l b =>
    simp only [step, Option.ite_none_right_eq_some, Option.map_eq_some_iff] at h
    obtain ⟨-, ⟨r', p', es⟩, hp, rfl⟩ := h
    by_cases hk : k = l
    · subst hk; exact .inr ⟨b, es, rfl, by simpa using hp, rfl⟩
    · exact .inl (Function.update_of_ne hk _ _)
  | worker l b | cancel l b | watch l b | check l b =>
    simp only [step, Option.map_eq_some_iff] at h
    obtain ⟨_, _, rfl⟩ := h; exact .inl rfl
  | tick δ => cases h; exact .inl rfl

theorem cancel_of_step {a : Action ι} (h : step d s a = some s') (k : Nat) : s'.cancels k = s.cancels k ∨
    ∃ b es, a = .cancel k b ∧ (s.cancels k).step s.redis b = some (s'.redis, s'.cancels k, es) ∧
      s'.trace = es ++ s.trace := by
  cases a with
  | cancel l b =>
    simp only [step, Option.map_eq_some_iff] at h
    obtain ⟨⟨r', p', es⟩, hp, rfl⟩ := h
    by_cases hk : k = l
    · subst hk; exact .inr ⟨b, es, rfl, by simpa using hp, rfl⟩
    · exact .inl (Function.update_of_ne hk _ _)
  | admission l b =>
    simp only [step, Option.ite_none_right_eq_some, Option.map_eq_some_iff] at h
    obtain ⟨_, _, _, rfl⟩ := h; exact .inl rfl
  | worker l b | watch l b | check l b =>
    simp only [step, Option.map_eq_some_iff] at h
    obtain ⟨_, _, rfl⟩ := h; exact .inl rfl
  | tick δ => cases h; exact .inl rfl

theorem watcher_of_step {a : Action ι} (h : step d s a = some s') (k : Nat) :
    (∀ b, a ≠ .watch k b) ∧ s'.watchers k = s.watchers k ∨
      ∃ b es, a = .watch k b ∧ (s.watchers k).step d.config s.redis b = some (s'.redis, s'.watchers k, es) ∧
        s'.trace = es ++ s.trace := by
  cases a with
  | watch l b =>
    simp only [step, Option.map_eq_some_iff] at h
    obtain ⟨⟨r', p', es⟩, hp, rfl⟩ := h
    by_cases hk : k = l
    · subst hk; exact .inr ⟨b, es, rfl, by simpa using hp, rfl⟩
    · exact .inl ⟨fun _ e => hk (Action.watch.inj e).1.symm, Function.update_of_ne hk _ _⟩
  | admission l b =>
    simp only [step, Option.ite_none_right_eq_some, Option.map_eq_some_iff] at h
    obtain ⟨_, _, _, rfl⟩ := h; exact .inl ⟨nofun, rfl⟩
  | worker l b | cancel l b | check l b =>
    simp only [step, Option.map_eq_some_iff] at h
    obtain ⟨_, _, rfl⟩ := h; exact .inl ⟨nofun, rfl⟩
  | tick δ => cases h; exact .inl ⟨nofun, rfl⟩

theorem checker_of_step {a : Action ι} (h : step d s a = some s') (k : Nat) : s'.checkers k = s.checkers k ∨
    ∃ b es, a = .check k b ∧ (s.checkers k).step d.config s.redis b = some (s'.redis, s'.checkers k, es) ∧
      s'.trace = es ++ s.trace := by
  cases a with
  | check l b =>
    simp only [step, Option.map_eq_some_iff] at h
    obtain ⟨⟨r', p', es⟩, hp, rfl⟩ := h
    by_cases hk : k = l
    · subst hk; exact .inr ⟨b, es, rfl, by simpa using hp, rfl⟩
    · exact .inl (Function.update_of_ne hk _ _)
  | admission l b =>
    simp only [step, Option.ite_none_right_eq_some, Option.map_eq_some_iff] at h
    obtain ⟨_, _, _, rfl⟩ := h; exact .inl rfl
  | worker l b | cancel l b | watch l b =>
    simp only [step, Option.map_eq_some_iff] at h
    obtain ⟨_, _, rfl⟩ := h; exact .inl rfl
  | tick δ => cases h; exact .inl rfl

end

def admitRun {ι : Type} (k : Nat) (sub : Submission) (j : String) : List (Action ι) :=
  [.admission k (.submit sub), .admission k (.name j)] ++ List.replicate 5 (.admission k .go)

def reclaimRun {ι : Type} : List (Action ι) := .watch 0 (.scan "chat") :: List.replicate 3 (.watch 0 .go)

end AdmissionScheduler
