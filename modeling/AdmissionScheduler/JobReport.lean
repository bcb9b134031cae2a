import AdmissionScheduler.QueueReport
import AdmissionScheduler.SyncSound

/-!
# The job report

`GET /jobs/{job_id}` reads the hash, asks for its TTL and, when the job is
completed, reads the response. The three commands are separate, and the system
goes on between them.
-/

namespace AdmissionScheduler

/-- `int(max(0.0, till - since) * 1000)`; `none` is an exception. -/
def durationMs (since till : Nat) : Option Int :=
  let gap := (timestamp till).sub (timestamp since)
  ((if Double.finite 0 < gap then gap else .finite 0).mul (.ofInt 1000)).toInt?

/-- `wait_ms` and `runtime_ms`; an exception leaves what is not computed yet at `None`. -/
def JobHash.timings (h : JobHash) : Option Int × Option Int :=
  match h.enqueueTs, h.dispatchTs, h.completeTs with
  | some t, some u, some v => ((durationMs t u), (durationMs t u).bind fun _ => durationMs u v)
  | some t, some u, none => (durationMs t u, none)
  | none, some u, some v => (none, durationMs u v)
  | _, none, _ | none, some _, none => (none, none)

/-- A status of `none` is shown as `unknown`. -/
structure JobStatusResponse where
  jobId : String
  status : Option JobStatus
  model : Option String
  priority : Int
  enqueueTs : Option Nat
  dispatchTs : Option Nat
  completeTs : Option Nat
  waitMs : Option Int
  runtimeMs : Option Int
  errorClass : Option ErrorClass
  errorMessage : Option String
  httpStatus : Option Int
  result : Option (List (String × Json))
  deriving DecidableEq

inductive Poll where
  | idle
  | reading (j : String)
  | checking (j : String) (h : JobHash)
  | loading (j : String) (h : JobHash)
  | done (j : String) (response : JobStatusResponse)
  /-- 404 -/
  | notFound (j : String)
  /-- 410 -/
  | gone (j : String)
  /-- An exception of the handler itself; 500. -/
  | raised (j : String) (h : JobHash) (blob : Option Json)
  /-- `RedisError`, which nothing catches; 500. -/
  | failed (j : String)
  deriving DecidableEq

inductive PollAct where
  | request (j : String)
  | go
  | fail
  deriving DecidableEq

namespace Poll

/-- The end of `get_job`: `int` may refuse the priority, and the schema any result that is not an object. -/
def report (j : String) (h : JobHash) (blob : Option Json) : Poll :=
  let response (priority : Int) (result : Option (List (String × Json))) : Poll := done j
    { jobId := j, status := h.status, model := h.model, priority, enqueueTs := h.enqueueTs, dispatchTs := h.dispatchTs,
      completeTs := h.completeTs, waitMs := h.timings.1, runtimeMs := h.timings.2, errorClass := h.errorClass,
      errorMessage := h.errorMessage, httpStatus := h.httpStatus, result }
  match parsePriority (h.priority.getD ""), blob with
  | some priority, none => response priority none
  | some priority, some (.obj kvs) => response priority (some kvs)
  | none, _ | some _, some _ => raised j h blob

def resume (r : Redis) : Poll → Option Poll
  | reading j =>
    match r.job j with
    | none => some (notFound j)
    | some e => some (checking j e.value)
  | checking j h =>
    match r.job j with
    -- `TTL` says `-2`
    | none => some (gone j)
    | some _ => some (if h.status = some .completed then loading j h else report j h none)
  | loading j h => some (report j h (r.loadResponseBlob j))
  | idle | done .. | notFound _ | gone _ | raised .. | failed _ => none

def step (r : Redis) (p : Poll) : PollAct → Option Poll
  | .request j => if p = idle then some (reading j) else none
  | .go => p.resume r
  | .fail =>
    match p with
    | reading j | checking j _ | loading j _ => some (failed j)
    | idle | done .. | notFound _ | gone _ | raised .. | failed _ => none

end Poll

structure Polled (ι : Type) where
  state : State ι
  polls : Nat → Poll

inductive PolledAct (ι : Type) where
  | run (a : Action ι)
  | poll (k : Nat) (a : PollAct)
  deriving DecidableEq

section
variable {ι : Type} [DecidableEq ι] (d : Deployment ι)

def Polled.step (P : Polled ι) : PolledAct ι → Option (Polled ι)
  | .run a => (AdmissionScheduler.step d P.state a).map fun s => { P with state := s }
  | .poll k a => ((P.polls k).step P.state.redis a).map fun p => { P with polls := Function.update P.polls k p }

def polling : Machine (Polled ι) (PolledAct ι) where
  init := { state := initState d, polls := fun _ => .idle }
  step := Polled.step d

end

/-! ## Timings -/

section
variable {since till : Nat} {n : Int}

theorem durationMs_nonneg (h : durationMs since till = some n) : 0 ≤ n := by
  rw [durationMs, ofInt_thousand] at h
  obtain ⟨m, hm, rfl⟩ := Double.toInt_eq_some h
  have hzero : Double.mul (.finite 0) (.finite thousand) = .finite 0 := by decide +kernel
  have hpos : (0 : Int) < thousand := by decide +kernel
  have hle : 0 ≤ m := by
    split at hm
    · rename_i hgap
      obtain ⟨v, -, hv, -⟩ := Double.finite_of_mul hm
      rw [hv] at hm hgap
      exact Double.mul_mono hpos (Double.finite_lt_finite.mp hgap).le hzero hm
    · rw [hzero] at hm
      cases hm
      exact Int.le_refl 0
  exact Int.tdiv_nonneg hle (Int.pow_nonneg (by decide))

theorem JobHash.timings_nonneg (h : JobHash) :
    (∀ n, h.timings.1 = some n → 0 ≤ n) ∧ ∀ n, h.timings.2 = some n → 0 ≤ n := by
  have hnone : ∀ n : Int, none = some n → 0 ≤ n := by
    intro n hn
    cases hn
  have hms : ∀ (since till : Nat) (n : Int), durationMs since till = some n → 0 ≤ n := fun _ _ _ => durationMs_nonneg
  unfold timings
  split <;> dsimp only
  · refine ⟨hms _ _, fun n hn => ?_⟩
    obtain ⟨-, -, hn⟩ := Option.bind_eq_some_iff.mp hn
    exact hms _ _ n hn
  · exact ⟨hms _ _, hnone⟩
  · exact ⟨hnone, hms _ _⟩
  · exact ⟨hnone, hnone⟩
  · exact ⟨hnone, hnone⟩

end

/-! ## The response in the hash -/

section
variable {ι : Type} [DecidableEq ι] {d : Deployment ι} {s s' t : State ι} {j : String}

theorem Outcome.verdict_obj {o : Outcome} {x : Json} (h : o.verdict = .completed x) : ∃ kvs, x = .obj kvs := by
  cases o with
  | ok response =>
    have hstatus : (Outcome.ok response).verdict.status = .completed := by rw [h]; rfl
    have hv := Outcome.verdict_completed hstatus
    rw [hv] at h
    cases h
    cases x with
    | obj kvs => exact ⟨kvs, rfl⟩
    | null | bool | int | float | str | arr => cases hv
  | httpStatus | timeout | connect | other => cases h

theorem Worker.step_completing {c : AppConfig} {r r' : Redis} {w w' : Worker} {b : WorkerAct} {es : List Event}
    {info : JobInfo} {x : Json} {ts : Nat} (h : w.step c r b = some (r', w', es))
    (hpc : w'.pc = .marking j info (.completed x) ts) : w.pc = w'.pc ∨ ∃ o : Outcome, o.verdict = .completed x := by
  obtain ⟨m, stop, pc⟩ := w
  cases b with
  | go =>
    simp only [Worker.step, Option.map_eq_some_iff] at h
    obtain ⟨⟨pc', es'⟩, hr, h⟩ := h
    simp only [Prod.mk.injEq] at h
    obtain ⟨-, rfl, -⟩ := h
    cases hpc
    cases pc with
    | poll => cases stop <;> cases hr
    | popping =>
      obtain ⟨k, -, he⟩ := Option.map_eq_some_iff.mp hr
      cases he
    | waitSlot k => cases stop <;> cases hr
    | claiming k t =>
      simp only [Pc.resume] at hr
      split at hr <;> cases hr
    | fetching k =>
      simp only [Pc.resume] at hr
      split at hr
      · cases hr
      · split at hr <;> cases hr
    | releasing k next => cases next <;> cases hr
    | tracking | marking | publishing | cleaning | announcing | forwarding | exited | crashed => cases hr
  | fail took =>
    simp only [Worker.step, Option.map_eq_some_iff] at h
    obtain ⟨⟨pc', es'⟩, hr, h⟩ := h
    simp only [Prod.mk.injEq] at h
    obtain ⟨-, rfl, -⟩ := h
    cases hpc
    cases pc with
    | releasing k next => cases next <;> cases hr
    | _ => cases hr
  | cancel took =>
    simp only [Worker.step, Option.ite_none_right_eq_some, Option.map_eq_some_iff] at h
    obtain ⟨-, pc', hr, h⟩ := h
    simp only [Prod.mk.injEq] at h
    obtain ⟨-, rfl, -⟩ := h
    cases hpc
    cases pc with
    | marking k info v t | publishing k info v => cases v <;> cases hr
    | _ => cases hr
  | respond o =>
    cases pc with
    | forwarding k info =>
      cases h
      have hv : (Pc.marking k info o.verdict r.now) = .marking j _ (.completed x) ts := hpc
      cases hv' : o.verdict with
      | completed y =>
        rw [hv'] at hv
        cases hv
        exact .inr ⟨o, hv'⟩
      | failed | cancelled =>
        rw [hv'] at hv
        cases hv
    | _ => cases h
  | timeout | start =>
    simp only [step, Option.ite_none_right_eq_some] at h
    obtain ⟨-, h⟩ := h
    cases h
    cases hpc
  | stop =>
    cases h
    exact .inl rfl
  | kill =>
    cases h
    cases hpc

theorem completing_obj (h : (system d).Reach Machine.Any s) : ∀ i j info x ts,
    (s.workers i).pc = .marking j info (.completed x) ts → ∃ kvs, x = .obj kvs := by
  refine h.invariant (I := fun s => ∀ i j info x ts, (s.workers i).pc = .marking j info (.completed x) ts →
    ∃ kvs, x = .obj kvs) ?_ ?_
  · intro i j info x ts hpc
    cases hpc
  · rintro u a v - hu - hs i j info x ts hpc
    rcases worker_of_step hs i with ⟨-, hw⟩ | ⟨b, es, -, hw, -⟩
    · rw [hw] at hpc
      exact hu i j info x ts hpc
    · rcases Worker.step_completing hw hpc with heq | ⟨o, ho⟩
      · exact hu i j info x ts (heq.trans hpc)
      · exact Outcome.verdict_obj ho

/-- A response in the hash was recorded as a completion, and is an object. -/
theorem response_recorded (h : (system d).Reach Machine.Any s) {x : Json} (hb : s.redis.loadResponseBlob j = some x) :
    ∃ u v kvs, x = .obj kvs ∧ (system d).Reach Machine.Any u ∧ Records d u v j x ∧
      (system d).Leads Machine.Any v s := by
  obtain ⟨u, v, hr, hrec, hl⟩ := recorded_of_responseBlob h hb
  obtain ⟨i, b, info, ts, hpc, -, -⟩ := id hrec
  obtain ⟨kvs, hx⟩ := completing_obj hr i j info x ts hpc
  exact ⟨u, v, kvs, hx, hr, hrec, hl⟩

theorem blob_of_job {e : Entry JobHash} {r : Redis} (he : r.job j = some e) :
    r.loadResponseBlob j = e.value.responseBlob := by
  rw [Redis.loadResponseBlob, Redis.hashOf, he]
  rfl

theorem blob_step {a : Action ι} (hl : Life s) (h : step d s a = some s')
    (hb : (s.redis.loadResponseBlob j).isSome = true) :
    (s'.redis.loadResponseBlob j).isSome = true ∨ s'.redis.job j = none := by
  have hw := hash_write (j := j) hl h
  have hkept : ∀ {e : Entry JobHash}, s'.redis.job j = some e → e.value.responseBlob = s.redis.loadResponseBlob j →
      (s'.redis.loadResponseBlob j).isSome = true := by
    intro e he hr
    rw [blob_of_job he, hr]
    exact hb
  generalize hx : s'.redis.job j = x at hw
  cases hw with
  | keep =>
    left
    have heq : s'.redis.loadResponseBlob j = s.redis.loadResponseBlob j := by
      rw [Redis.loadResponseBlob, Redis.hashOf, hx]
      rfl
    rw [heq]
    exact hb
  | purge => exact .inr rfl
  | mark act takes pc =>
    rename_i i b info v ts
    left
    cases v with
    | completed y =>
      rw [blob_of_job hx]
      rfl
    | failed | cancelled => exact hkept hx rfl
  | claim | clean | cancelled | cancelling | reclaim | store => exact .inl (hkept hx rfl)
  | expire act pc =>
    cases he : s.redis.job j with
    | none => exact .inr rfl
    | some e =>
      refine .inl (hkept (e := ⟨e.value, some (s.redis.now + jobTerminalTtl)⟩) (by rw [hx, he]; rfl) ?_)
      exact (blob_of_job he).symm
  | enqueue act pc absent =>
    rw [Redis.loadResponseBlob, Redis.hashOf, absent] at hb
    cases hb

theorem blob_leads (h : (system d).Reach Machine.Any s) (hb : (s.redis.loadResponseBlob j).isSome = true)
    (hl : (system d).Leads Machine.Any s t) : (t.redis.loadResponseBlob j).isSome = true ∨
      ∃ u, (system d).Leads Machine.Any s u ∧ u.redis.job j = none ∧ (system d).Leads Machine.Any u t := by
  induction hl with
  | refl => exact .inl hb
  | step hl hok hs ih =>
    rcases ih with hb | ⟨u, hu, hnone, hut⟩
    · rcases blob_step (life (h.leads hl)) hs hb with hb | hnone
      · exact .inl hb
      · exact .inr ⟨_, hl.step hok hs, hnone, .refl⟩
    · exact .inr ⟨u, hu, hnone, hut.step hok hs⟩

theorem completed_blob (h : (system d).Reach Machine.Any s) : ∀ j, s.redis.status j = some .completed →
    (s.redis.loadResponseBlob j).isSome = true := by
  refine h.invariant (I := fun s => ∀ j, s.redis.status j = some .completed →
    (s.redis.loadResponseBlob j).isSome = true) ?_ ?_
  · intro j hj
    cases hj
  · rintro u a v hr hu - hs j hj
    have hw := status_write (j := j) (life hr) (priorities hr) hs
    rw [hj] at hw
    generalize hx : some JobStatus.completed = x at hw
    cases hw with
    | keep =>
      rcases blob_step (life hr) hs (hu j hx.symm) with hb | hnone
      · exact hb
      · rw [Redis.status, hnone] at hj
        cases hj
    | @mark i b info v ts act takes pc =>
      cases v with
      | completed y =>
        have hrec : Records d u _ j y := ⟨i, b, info, ts, pc, takes, act ▸ hs⟩
        rw [(hrec.outOfReach hr).2.1]
        rfl
      | failed | cancelled => cases hx
    | purge | claim | clean | cancelled | cancelling | reclaim | enqueue => cases hx

/-! ## What a reply says -/

/-- The system was in a state of `φ` on its way to `s`. -/
def Passed (d : Deployment ι) (φ : State ι → Prop) (s : State ι) : Prop :=
  ∃ u, (system d).Reach Machine.Any u ∧ φ u ∧ (system d).Leads Machine.Any u s

theorem Passed.now {φ : State ι → Prop} (h : (system d).Reach Machine.Any s) (hs : φ s) : Passed d φ s :=
  ⟨s, h, hs, .refl⟩

theorem Passed.leads {φ : State ι → Prop} (h : Passed d φ s) (hl : (system d).Leads Machine.Any s t) :
    Passed d φ t := by
  obtain ⟨u, hu, hφ, hus⟩ := h
  exact ⟨u, hu, hφ, hus.trans hl⟩

def Found (j : String) (h : JobHash) (s : State ι) : Prop := ∃ e, s.redis.job j = some e ∧ e.value = h

def Missing (j : String) (s : State ι) : Prop := s.redis.job j = none

/-- The response shows the hash `h`, apart from the result. -/
structure JobStatusResponse.Shows (x : JobStatusResponse) (j : String) (h : JobHash) : Prop where
  jobId : x.jobId = j
  status : x.status = h.status
  model : x.model = h.model
  priority : parsePriority (h.priority.getD "") = some x.priority
  times : x.enqueueTs = h.enqueueTs ∧ x.dispatchTs = h.dispatchTs ∧ x.completeTs = h.completeTs
  timings : (x.waitMs, x.runtimeMs) = h.timings
  errors : x.errorClass = h.errorClass ∧ x.errorMessage = h.errorMessage ∧ x.httpStatus = h.httpStatus

/-- The response is about one state of the job; its result is the one recorded for the job, and is missing from
a completed job only when the hash went meanwhile. -/
structure Report (d : Deployment ι) (s : State ι) (j : String) (x : JobStatusResponse) (h : JobHash) : Prop where
  found : Passed d (Found j h) s
  shows : x.Shows j h
  result : ∀ kvs, x.result = some kvs → h.status = some .completed ∧
    Passed d (fun u => ∃ v, Records d u v j (.obj kvs) ∧ (system d).Leads Machine.Any v s) s
  missing : x.result = none → h.status = some .completed → Passed d (fun u => Passed d (Found j h) u ∧ Missing j u) s
  timings : (∀ n, x.waitMs = some n → 0 ≤ n) ∧ ∀ n, x.runtimeMs = some n → 0 ≤ n

def Honest (d : Deployment ι) (s : State ι) : Poll → Prop
  | .idle | .reading _ | .failed _ => True
  | .checking j h => Passed d (Found j h) s
  | .loading j h => Passed d (Found j h) s ∧ h.status = some .completed
  | .done j x => ∃ h, Report d s j x h
  | .notFound j => Passed d (Missing j) s
  | .gone j => ∃ h, Passed d (fun u => Passed d (Found j h) u ∧ Missing j u) s
  | .raised j h _ => Passed d (Found j h) s ∧ ∃ sub, Created s.trace j sub ∧ sub.integerPriority = false

theorem Created.leads {sub : Submission} (h : Created s.trace j sub) (hl : (system d).Leads Machine.Any s t) :
    Created t.trace j sub :=
  hl.invariant (I := fun u => Created u.trace j sub) h fun _ _ _ _ hc _ hs => hc.step hs

theorem Honest.leads {p : Poll} (h : Honest d s p) (hl : (system d).Leads Machine.Any s t) : Honest d t p := by
  cases p with
  | idle | reading | failed => trivial
  | checking j h₀ => exact Passed.leads h hl
  | loading j h₀ => exact ⟨h.1.leads hl, h.2⟩
  | notFound j => exact Passed.leads h hl
  | gone j =>
    obtain ⟨h₀, hp⟩ := h
    exact ⟨h₀, hp.leads hl⟩
  | raised j h₀ blob =>
    obtain ⟨hf, sub, hc, hi⟩ := h
    exact ⟨hf.leads hl, sub, hc.leads hl, hi⟩
  | done j x =>
    obtain ⟨h₀, hrep⟩ := h
    refine ⟨h₀, hrep.found.leads hl, hrep.shows, fun kvs hx => ?_, fun hx hc => (hrep.missing hx hc).leads hl,
      hrep.timings⟩
    obtain ⟨hc, u, hu, ⟨v, hrec, hvs⟩, hus⟩ := hrep.result kvs hx
    exact ⟨hc, u, hu, ⟨v, hrec, hvs.trans hl⟩, hus.trans hl⟩

theorem noninteger_of_found {h₀ : JobHash} (hf : Passed d (Found j h₀) s)
    (hp : parsePriority (h₀.priority.getD "") = none) : ∃ sub, Created s.trace j sub ∧ sub.integerPriority = false := by
  obtain ⟨u, hu, ⟨e, he, rfl⟩, hus⟩ := hf
  cases ht : e.value.priority with
  | none =>
    rw [ht] at hp
    cases hp
  | some text =>
    obtain ⟨sub, n, hc, hn, scored, rfl⟩ := (priorities hu).stored j e text he ht
    refine ⟨sub, hc.leads hus, ?_⟩
    have hparse := parse_number hn scored
    rw [ht] at hp
    rw [← hparse]
    exact congrArg Option.isSome hp

theorem report_honest {h₀ : JobHash} {blob : Option Json} (hf : Passed d (Found j h₀) s)
    (hsome : ∀ x, blob = some x → h₀.status = some .completed ∧ ∃ kvs, x = .obj kvs ∧
      Passed d (fun u => ∃ v, Records d u v j (.obj kvs) ∧ (system d).Leads Machine.Any v s) s)
    (hnone : blob = none → h₀.status = some .completed → Passed d (fun u => Passed d (Found j h₀) u ∧ Missing j u) s) :
    Honest d s (Poll.report j h₀ blob) := by
  unfold Poll.report
  cases hp : parsePriority (h₀.priority.getD "") with
  | none => exact ⟨hf, noninteger_of_found hf hp⟩
  | some priority =>
    cases blob with
    | none =>
      refine ⟨h₀, hf, ⟨rfl, rfl, rfl, hp, ⟨rfl, rfl, rfl⟩, rfl, rfl, rfl, rfl⟩, ?_, fun _ => hnone rfl,
        h₀.timings_nonneg⟩
      intro kvs hx
      cases hx
    | some x =>
      obtain ⟨hc, kvs, rfl, hrec⟩ := hsome x rfl
      refine ⟨h₀, hf, ⟨rfl, rfl, rfl, hp, ⟨rfl, rfl, rfl⟩, rfl, rfl, rfl, rfl⟩, ?_, ?_, h₀.timings_nonneg⟩
      · intro kvs' hx
        cases hx
        exact ⟨hc, hrec⟩
      · intro hx
        cases hx

theorem honest_step {p p' : Poll} {a : PollAct} (hr : (system d).Reach Machine.Any s) (hp : Honest d s p)
    (h : p.step s.redis a = some p') : Honest d s p' := by
  cases a with
  | request j =>
    simp only [Poll.step, Option.ite_none_right_eq_some] at h
    obtain ⟨-, heq⟩ := h
    cases heq
    trivial
  | fail =>
    cases p <;> cases h <;> trivial
  | go =>
    cases p with
    | reading j =>
      simp only [Poll.step, Poll.resume] at h
      split at h
      · rename_i hmiss
        cases h
        exact Passed.now hr hmiss
      · rename_i e he
        cases h
        exact Passed.now hr ⟨e, he, rfl⟩
    | checking j h₀ =>
      simp only [Poll.step, Poll.resume] at h
      split at h
      · rename_i hmiss
        cases h
        exact ⟨h₀, Passed.now hr ⟨hp, hmiss⟩⟩
      · cases h
        by_cases hc : h₀.status = some .completed
        · rw [if_pos hc]
          exact ⟨hp, hc⟩
        · rw [if_neg hc]
          exact report_honest hp (fun x hx => by cases hx) fun _ hc' => absurd hc' hc
    | loading j h₀ =>
      cases h
      obtain ⟨hf, hc⟩ := hp
      refine report_honest hf (fun x hx => ?_) fun hx _ => ?_
      · obtain ⟨u, v, kvs, rfl, hu, hrec, hvs⟩ := response_recorded hr hx
        obtain ⟨i, b, -, -, -, -, hs⟩ := id hrec
        have hus : (system d).Leads Machine.Any u s :=
          (Machine.Leads.step (a := .worker i b) .refl trivial hs).trans hvs
        exact ⟨hc, kvs, rfl, u, hu, ⟨v, hrec, hvs⟩, hus⟩
      · obtain ⟨u, hu, ⟨e, he, rfl⟩, hus⟩ := id hf
        have hb : (u.redis.loadResponseBlob j).isSome = true :=
          completed_blob hu j (by rw [Redis.status, he]; exact hc)
        rcases blob_leads hu hb hus with hb' | ⟨w, huw, hmiss, hws⟩
        · rw [hx] at hb'
          cases hb'
        · exact ⟨w, hu.leads huw, ⟨⟨u, hu, ⟨e, he, rfl⟩, huw⟩, hmiss⟩, hws⟩
    | idle | done | notFound | gone | raised | failed => cases h

/-- Polling changes nothing, and every answer of it is true. -/
theorem poll_honest {P : Polled ι} (h : (polling d).Reach Machine.Any P) :
    (system d).Reach Machine.Any P.state ∧ ∀ k, Honest d P.state (P.polls k) := by
  refine h.invariant (I := fun P => (system d).Reach Machine.Any P.state ∧ ∀ k, Honest d P.state (P.polls k)) ?_ ?_
  · exact ⟨.refl, fun _ => trivial⟩
  · rintro Q a Q' - ⟨hr, hq⟩ - hs
    cases a with
    | run b =>
      obtain ⟨s', hs', rfl⟩ := Option.map_eq_some_iff.mp hs
      exact ⟨hr.next trivial hs', fun k => (hq k).leads (.step .refl trivial hs')⟩
    | poll k b =>
      obtain ⟨p, hp, rfl⟩ := Option.map_eq_some_iff.mp hs
      refine ⟨hr, fun l => ?_⟩
      by_cases hl : l = k
      · subst hl
        change Honest d Q.state (Function.update Q.polls l p l)
        rw [Function.update_self]
        exact honest_step hr (hq l) hp
      · change Honest d Q.state (Function.update Q.polls k p l)
        rw [Function.update_of_ne hl]
        exact hq l

end

def Poll.response? : Poll → Option JobStatusResponse
  | .done _ x => some x
  | _ => none

/-- A poller finds the job completed and gets the response of the backend. -/
theorem poll_honest_run : ∃ P : Polled (Fin 2), (polling (twoWorkers 1 (Int.le_refl 1))).Reach Machine.Any P ∧
    (P.polls 0).response?.map (fun x => (x.status, x.result)) =
        some (some .completed, some [("choices", .arr [.str "hi"])]) ∧
      (system (twoWorkers 1 (Int.le_refl 1))).Reach Machine.Any P.state ∧
        ∀ k, Honest (twoWorkers 1 (Int.le_refl 1)) P.state (P.polls k) := by
  obtain ⟨P, hr, hdone⟩ := (polling (twoWorkers 1 (Int.le_refl 1))).reach_of_exec Machine.Any
    ((answers (0 : Fin 2) (.obj [("choices", .arr [.str "hi"])]) ++ [Action.worker 0 .go]).map PolledAct.run ++
      [PolledAct.poll 0 (.request "a"), .poll 0 .go, .poll 0 .go, .poll 0 .go])
    (fun P => (P.polls 0).response?.map (fun x => (x.status, x.result)) =
      some (some .completed, some [("choices", .arr [.str "hi"])])) (by decide +kernel)
  have hh := poll_honest hr
  exact ⟨P, hr, hdone, hh.1, hh.2⟩

end AdmissionScheduler
