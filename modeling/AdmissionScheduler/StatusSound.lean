import AdmissionScheduler.PrioritySound

/-!
# The status of a job

Six writers set the status field, most of them long after they read it. A
terminal status stays as long as three of them still find what they decided on;
and a queued job stays in its queue or in a worker's hands as long as no worker
stops with one in hand.
-/

namespace AdmissionScheduler

def Redis.ended (r : Redis) (j : String) : Bool := ((r.status j).map JobStatus.terminal).getD false

/-- The job whose outcome the worker has still to write. -/
def Pc.unmarked : Pc → Option String
  | waitSlot j | claiming j _ | tracking j _ | fetching j | forwarding j _ | marking j .. | cleaning j _ => some j
  | poll | popping | publishing .. | releasing .. | announcing _ | exited | crashed => none

theorem Redis.status_eq {r : Redis} {j : String} {e : Entry JobHash} (h : r.job j = some e) :
    r.status j = e.value.status := by
  rw [status, h]; rfl

theorem not_early_of_cancelled {t : List Event} (hl : LegalTrace t) {m j : String} (h : .cancelledQueued m j ∈ t) :
    ¬(stage t j).Early := by
  have rank : 1 < (stage t j).rank :=
    Lifecycle.lt_of_crosses (L := jobLifecycle) hl h (Lifecycle.crosses_iff.mpr ⟨_, _, rfl, rfl⟩)
  rintro (hs | ⟨m', hs⟩ | ⟨m', hs⟩)
  · rw [hs] at rank; cases rank
  · rw [hs] at rank; exact absurd rank (Nat.lt_irrefl _)
  · obtain ⟨e, he, y, hm⟩ := Lifecycle.exists_move_of_stage (L := jobLifecycle) hs nofun
    cases e <;> cases hm
    exact not_popped_of_cancelled hl h he

section
variable {c : AppConfig} {r r' : Redis} {w w' : Worker} {b : WorkerAct} {es : List Event} {j : String}

/-- How a worker comes to have a job's outcome to write. -/
inductive Worker.Unmarked (r r' : Redis) (w : Worker) (b : WorkerAct) (j : String) : Prop
  | still (redis : r' = r) (pc : w.pc.unmarked = some j)
  | pop (pc : w.pc = .popping) (first : r.firstQueued w.model = some j)
  | before (pc : w.pc.unmarked = some j) (marking : ∀ info v ts, w.pc ≠ .marking j info v ts)
      (cleaning : ∀ ts, w.pc ≠ .cleaning j ts)
  | remark {info x ts took} (act : b = .cancel took) (pc : w.pc = .marking j info (.completed x) ts)
  | unmark {info x took} (act : b = .cancel took) (pc : w.pc = .publishing j info (.completed x))

def Pc.decides : Pc → Bool
  | marking .. | cleaning .. => true
  | _ => false

theorem Worker.Unmarked.of_before {m : String} {stop : Bool} {pc : Pc} (hj : pc.unmarked = some j)
    (hp : pc.decides = false) : Worker.Unmarked r r' ⟨m, stop, pc⟩ b j := by
  refine .before hj ?_ ?_
  · intro info v ts he
    subst he; cases hp
  · intro ts he
    subst he; cases hp

theorem Worker.step_unmarked (h : w.step c r b = some (r', w', es)) (hj : w'.pc.unmarked = some j) :
    Worker.Unmarked r r' w b j := by
  obtain ⟨m, stop, pc⟩ := w
  cases b with
  | go =>
    simp only [Worker.step, Option.map_eq_some_iff] at h
    obtain ⟨⟨pc', es'⟩, hr, h⟩ := h
    simp only [Prod.mk.injEq] at h
    obtain ⟨-, rfl, -⟩ := h
    cases pc with
    | poll => cases hr; cases stop <;> cases hj
    | popping =>
      obtain ⟨k, hk, he⟩ := Option.map_eq_some_iff.mp hr
      cases he; cases hj; exact .pop rfl hk
    | waitSlot k => cases hr; cases stop <;> cases hj; exact .of_before rfl rfl
    | claiming k ts =>
      cases hr
      cases hf : r.slotFree m <;> simp only [hf] at hj <;> cases hj <;> exact .of_before rfl rfl
    | tracking k t => cases hr; cases hj; exact .of_before rfl rfl
    | fetching k =>
      simp only [Pc.resume] at hr
      split at hr
      · cases hr; cases hj
      · split at hr <;> cases hr <;> cases hj
        exact .of_before rfl rfl
    | releasing k next => cases hr; cases next <;> cases hj
    | marking | publishing | cleaning | announcing => cases hr; cases hj
    | forwarding | exited | crashed => cases hr
  | fail took =>
    simp only [Worker.step, Option.map_eq_some_iff] at h
    obtain ⟨⟨pc', es'⟩, hr, h⟩ := h
    simp only [Prod.mk.injEq] at h
    obtain ⟨-, rfl, -⟩ := h
    cases pc with
    | claiming k ts | tracking k t | fetching k => cases hr; cases hj; exact .of_before rfl rfl
    | releasing k next => cases hr; cases next <;> cases hj
    | popping | marking | publishing | cleaning | announcing => cases hr; cases hj
    | poll | waitSlot | forwarding | exited | crashed => cases hr
  | cancel took =>
    simp only [Worker.step, Option.ite_none_right_eq_some, Option.map_eq_some_iff] at h
    obtain ⟨-, pc', hr, h⟩ := h
    simp only [Prod.mk.injEq] at h
    obtain ⟨-, rfl, -⟩ := h
    cases pc with
    | forwarding k info => cases hr; cases hj; exact .of_before rfl rfl
    | marking k info v ts => cases v <;> cases hr <;> cases hj; exact .remark rfl rfl
    | publishing k info v => cases v <;> cases hr <;> cases hj; exact .unmark rfl rfl
    | exited | crashed => cases hr
    | _ => cases hr; cases hj
  | respond o =>
    cases pc <;> cases h
    cases hj; exact .of_before rfl rfl
  | timeout =>
    simp only [step, Option.ite_none_right_eq_some] at h
    obtain ⟨-, h⟩ := h; cases h; cases hj
  | stop => cases h; exact .still rfl hj
  | kill => cases h; cases hj
  | start =>
    simp only [step, Option.ite_none_right_eq_some] at h
    obtain ⟨-, h⟩ := h; cases h; cases hj

end

/-! ## Who writes the status -/

section
variable {ι : Type} [DecidableEq ι] {d : Deployment ι} {s s' : State ι} {a : Action ι} {j : String}

/-- What a step does to the status of a job, by writer. -/
inductive StatusWrite (s : State ι) (a : Action ι) (s' : State ι) (j : String) : Option JobStatus → Prop
  | keep : StatusWrite s a s' j (s.redis.status j)
  | purge (gone : s'.redis.job j = none) : StatusWrite s a s' j none
  | claim {i b ts} (act : a = .worker i b) (pc : (s.workers i).pc = .claiming j ts) :
    StatusWrite s a s' j (some .dispatched)
  | mark {i b info v ts} (act : a = .worker i b) (takes : b.takes = true)
      (pc : (s.workers i).pc = .marking j info v ts) : StatusWrite s a s' j (some v.status)
  | clean {i b ts} (act : a = .worker i b) (pc : (s.workers i).pc = .cleaning j ts) :
    StatusWrite s a s' j (some .failed)
  | cancelled {k b m} (act : a = .cancel k b) (mem : j ∈ s.redis.queue m)
      (event : .cancelledQueued m j ∈ s'.trace) : StatusWrite s a s' j (some .cancelled)
  | cancelling {k b} (act : a = .cancel k b) (takes : b.takes = true) (pc : s.cancels k = .marking j) :
    StatusWrite s a s' j (some .cancelling)
  | reclaim {k b m rest ts} (act : a = .watch k b) (takes : b.takes = true)
      (pc : s.watchers k = .reclaiming m j rest ts) : StatusWrite s a s' j (some .failed)
  | enqueue (unborn : stage s.trace j = .unborn) (absent : s.redis.job j = none)
      (created : ∃ sub, Created s'.trace j sub) : StatusWrite s a s' j (some .queued)

theorem status_write (hl : Life s) (hp : Priorities d.config s) (h : step d s a = some s') :
    StatusWrite s a s' j (s'.redis.status j) := by
  have hw := hash_write (j := j) hl h
  rw [Redis.status]
  generalize hx : s'.redis.job j = x at hw
  cases hw with
  | keep => exact .keep
  | purge => exact .purge hx
  | claim act takes pc => exact .claim act pc
  | @mark i b info v ts act takes pc =>
    have : (s.redis.finished j (v.write ts)).value.status = some v.status := v.write_status _ _
    rw [Option.bind_some, this]; exact .mark act takes pc
  | clean act takes pc => exact .clean act pc
  | cancelled act pc mem event => exact .cancelled act mem event
  | @expire k b m act pc =>
    have : ((s.redis.job j).map fun e => (⟨e.value, some (s.redis.now + jobTerminalTtl)⟩ : Entry JobHash)).bind
        (fun e => e.value.status) = s.redis.status j := by
      rw [Redis.status]; cases s.redis.job j <;> rfl
    rw [this]; exact .keep
  | cancelling act takes pc => exact .cancelling act takes pc
  | reclaim act takes pc => exact .reclaim act takes pc
  | store act pc =>
    have : (s.redis.hashOf j).status = s.redis.status j := by
      rw [Redis.status, Redis.hashOf]; cases s.redis.job j <;> rfl
    rw [Option.bind_some, Redis.written, this]; exact .keep
  | @enqueue k b sub text x ts h₀ act pc absent hash event =>
    obtain ⟨n, -, -, -, rfl⟩ := hp.text k sub j text x ts pc
    have := (enqueuedHash_fields (plain_text n) sub.caller_plain sub.requestId_plain hash).1
    rw [Option.bind_some, this]
    exact .enqueue (hl.unborn k j (by rw [pc]; rfl)).2 absent ⟨sub, _, _, event⟩

end

/-! ## Terminal statuses stay -/

section
variable {ι : Type} [Fintype ι] [DecidableEq ι] {d : Deployment ι} {s s' : State ι} {a : Action ι} {j : String}

/-- The writers that decided earlier still find what they decided on: `cancelling` is not written over a
terminal status, a reclaim neither over another one nor under a worker that has the outcome still to
write, and no task is cancelled between writing `completed` and releasing the slot. -/
def settled (s : State ι) : Action ι → Bool
  | .cancel k b =>
    match s.cancels k with
    | .marking j => !b.takes || !s.redis.ended j
    | _ => true
  | .watch k b =>
    match s.watchers k with
    | .reclaiming _ j _ _ =>
      !b.takes || (!s.redis.ended j || s.redis.status j = some .failed) && decide (∀ i, (s.workers i).pc.unmarked ≠ some j)
    | _ => true
  | .worker i (.cancel took) =>
    match (s.workers i).pc with
    | .marking _ _ (.completed _) _ => !took
    | .publishing j _ (.completed _) => !s.redis.ended j
    | _ => true
  | _ => true

structure Unended (s : State ι) : Prop where
  early : ∀ j, (stage s.trace j).Early → s.redis.ended j = false
  unmarked : ∀ i j, (s.workers i).pc.unmarked = some j → s.redis.ended j = false

theorem Redis.ended_of_status {r : Redis} {st : JobStatus} (h : r.status j = some st) : r.ended j = st.terminal := by
  rw [ended, h]; rfl

theorem Redis.ended_congr {r r' : Redis} (h : r'.status j = r.status j) : r'.ended j = r.ended j := by
  rw [ended, ended, h]

omit [Fintype ι] in
theorem early_step (hl : Life s) (hp : Priorities d.config s) (hu : Unended s) (h : step d s a = some s')
    (hj : (stage s'.trace j).Early) : s'.redis.ended j = false := by
  have early := early_of_step hl h hj
  have hw := status_write (j := j) hl hp h
  generalize hx : s'.redis.status j = x at hw
  cases hw with
  | keep => rw [Redis.ended_congr hx]; exact hu.early j early
  | purge => rw [Redis.ended, hx]; rfl
  | claim | cancelling | enqueue => rw [Redis.ended_of_status hx]; rfl
  | @mark i _ _ _ _ act takes pc | @clean i _ _ act pc =>
    exact absurd early ((hl.worker i).claimed_of_slot (by rw [pc]; rfl)).not_early
  | cancelled act mem event => exact absurd hj (not_early_of_cancelled (life_step hl h).legal event)
  | @reclaim k b m rest ts act takes pc =>
    exact absurd early (hl.pending k m (j :: rest) (by rw [pc]; rfl) j (List.mem_cons_self ..)).not_early

omit [Fintype ι] in
theorem unmarked_job {pc : Pc} (h : pc.unmarked = some j) : pc.job = some j := by
  cases pc <;> first | exact h | cases h

theorem unmarked_step (hl : Life s) (hp : Priorities d.config s) (hu : Unended s) (ha : settled s a = true)
    (h : step d s a = some s') {i : ι} (hj : (s'.workers i).pc.unmarked = some j) : s'.redis.ended j = false := by
  have hw := status_write (j := j) hl hp h
  generalize hx : s'.redis.status j = x at hw
  rcases worker_of_step h i with ⟨hne, hs⟩ | ⟨b, es, rfl, hs, -⟩
  · rw [hs] at hj
    have hi := unmarked_job hj
    cases hw with
    | keep => rw [Redis.ended_congr hx]; exact hu.unmarked i j hj
    | purge => rw [Redis.ended, hx]; rfl
    | claim | cancelling | enqueue => rw [Redis.ended_of_status hx]; rfl
    | @mark k b _ _ _ act takes pc | @clean k b _ act pc =>
      have : k = i := hl.exclusive k i j (show (s.workers k).pc.job = some j by rw [pc]; rfl) hi
      exact absurd act (this ▸ hne b)
    | cancelled act mem event => exact absurd ((hl.queue _ j).mp mem) ((hl.worker i).ne_queued hi)
    | reclaim act takes pc =>
      subst act
      simp only [settled, pc, takes, Bool.not_true, Bool.false_or, Bool.and_eq_true, decide_eq_true_eq] at ha
      exact absurd hj (ha.2 i)
  · have own : s.redis.ended j = false → (∀ info v ts, b.takes = true → (s.workers i).pc ≠ .marking j info v ts) →
        (∀ ts, (s.workers i).pc ≠ .cleaning j ts) → s'.redis.ended j = false := by
      intro he hm hc
      cases hw with
      | keep => rw [Redis.ended_congr hx]; exact he
      | purge => rw [Redis.ended, hx]; rfl
      | claim | cancelling | enqueue => rw [Redis.ended_of_status hx]; rfl
      | mark act takes pc => cases act; exact absurd pc (hm _ _ _ takes)
      | clean act pc => cases act; exact absurd pc (hc _)
      | cancelled act => cases act
      | reclaim act => cases act
    cases Worker.step_unmarked hs hj with
    | still redis pc => rw [redis]; exact hu.unmarked i j pc
    | pop pc first =>
      exact own (hu.early j (.inr (.inl ⟨_, (hl.queue _ j).mp (Redis.firstQueued_mem first)⟩)))
        (by rw [pc]; nofun) (by rw [pc]; nofun)
    | before pc marking cleaning => exact own (hu.unmarked i j pc) (fun _ _ _ _ => marking _ _ _) cleaning
    | @remark info x ts took act pc =>
      subst act
      simp only [settled, pc, Bool.not_eq_true'] at ha
      subst ha
      exact own (hu.unmarked i j (by rw [pc]; rfl)) nofun (by rw [pc]; nofun)
    | unmark act pc =>
      subst act
      simp only [settled, pc, Bool.not_eq_true'] at ha
      exact own ha (by rw [pc]; nofun) (by rw [pc]; nofun)

omit [Fintype ι] [DecidableEq ι] in
theorem unended_init : Unended (initState d) where
  early j _ := rfl
  unmarked i j h := by cases h

theorem unended (h : (system d).Reach (fun s a => settled s a = true) s) : Unended s :=
  h.invariant unended_init fun _ _ _ hr hu ha hs => {
    early := fun _ => early_step (life hr) (priorities hr) hu hs
    unmarked := fun _ _ => unmarked_step (life hr) (priorities hr) hu ha hs }

theorem terminal_step (hl : Life s) (hp : Priorities d.config s) (hu : Unended s) (ha : settled s a = true)
    (h : step d s a = some s') {st : JobStatus} (hst : s.redis.status j = some st) (terminal : st.terminal = true)
    (exists' : (s'.redis.job j).isSome) : s'.redis.status j = some st := by
  have hw := status_write (j := j) hl hp h
  have ended : s.redis.ended j = true := (Redis.ended_of_status hst).trans terminal
  have no_worker : ∀ {i}, (s.workers i).pc.unmarked ≠ some j := fun {i} hi => by
    rw [hu.unmarked i j hi] at ended; cases ended
  generalize s'.redis.status j = x at hw ⊢
  cases hw with
  | keep => exact hst
  | purge gone => rw [gone] at exists'; cases exists'
  | @claim i _ _ act pc | @mark i _ _ _ _ act takes pc | @clean i _ _ act pc =>
    exact absurd (by rw [pc]; rfl) (no_worker (i := i))
  | cancelled act mem event =>
    rw [hu.early j (.inr (.inl ⟨_, (hl.queue _ j).mp mem⟩))] at ended; cases ended
  | cancelling act takes pc => subst act; simp [settled, pc, takes, ended] at ha
  | reclaim act takes pc =>
    subst act
    simp only [settled, pc, takes, ended, Bool.not_true, Bool.false_or, Bool.and_eq_true, decide_eq_true_eq] at ha
    rw [← hst, ha.1]
  | enqueue unborn absent => rw [Redis.status, absent] at hst; cases hst

/-- While those writers still find what they decided on, a terminal status stays as long as the hash does. -/
theorem terminal_absorbing (h : (system d).Reach (fun s a => settled s a = true) s) {t : State ι} {st : JobStatus}
    (hst : s.redis.status j = some st) (terminal : st.terminal = true)
    (hl : (system d).Leads (fun u a => settled u a = true ∧ (u.redis.job j).isSome) s t)
    (ht : (t.redis.job j).isSome) : t.redis.status j = some st := by
  have stays : (t.redis.job j).isSome → t.redis.status j = some st := by
    refine hl.invariant (I := fun t => (t.redis.job j).isSome → t.redis.status j = some st) (fun _ => hst) ?_
    intro u a v hu ih ha hs hv
    have hr := h.leads (hu.mono fun _ _ ha => ha.1)
    exact terminal_step (life hr) (priorities hr) (unended hr) ha.1 hs (ih ha.2) terminal hv
  exact stays ht

end

/-- A cancel request reads that the job is running; the job completes; then the request writes `cancelling`. -/
theorem terminal_overwritten : ¬∀ s t j st, (system (twoWorkers 1 (Int.le_refl 1))).Reach Machine.Any s →
    s.redis.status j = some st → st.terminal = true →
    (system (twoWorkers 1 (Int.le_refl 1))).Leads (fun u _ => (u.redis.job j).isSome) s t → (t.redis.job j).isSome →
    t.redis.status j = some st := by
  intro h
  obtain ⟨s, hr, hst, hl⟩ := (system (twoWorkers 1 (Int.le_refl 1))).reach_of_exec Machine.Any
    (admitRun 0 (chatRequest (.obj []) .null none) "a" ++ List.replicate 6 (.worker 0 .go) ++
      [.cancel 0 (.request "a"), .cancel 0 .go, .worker 0 (.respond (.ok (.obj []))), .worker 0 .go])
    (fun s => s.redis.status "a" = some .completed ∧
      ((system (twoWorkers 1 (Int.le_refl 1))).exec (fun u _ => (u.redis.job "a").isSome) s [.cancel 0 .go]).any
        (fun t => t.redis.status "a" = some .cancelling) = true) (by decide +kernel)
  obtain ⟨t, ht, hc⟩ := Machine.leads_of_any hl
  have exists' : (t.redis.job "a").isSome := by
    cases hj : t.redis.job "a" with
    | none => rw [Redis.status, hj] at hc; cases hc
    | some e => rfl
  have := h s t "a" .completed hr hst rfl ht exists'
  rw [hc] at this; cases this

/-- A cancel request that comes after the job has completed leaves it as it is. -/
theorem terminal_absorbing_run : ∃ s t, (system (twoWorkers 1 (Int.le_refl 1))).Reach (fun s a => settled s a = true) s ∧
    (system (twoWorkers 1 (Int.le_refl 1))).Leads (fun u a => settled u a = true ∧ (u.redis.job "a").isSome) s t ∧
    t.cancels 0 = .done "a" (some .completed) ∧ t.redis.status "a" = some .completed := by
  obtain ⟨s, hr, hst, hl⟩ := (system (twoWorkers 1 (Int.le_refl 1))).reach_of_exec (fun s a => settled s a = true)
    (admitRun 0 (chatRequest (.obj []) .null none) "a" ++ List.replicate 6 (.worker 0 .go) ++
      [.worker 0 (.respond (.ok (.obj []))), .worker 0 .go])
    (fun s => s.redis.status "a" = some .completed ∧
      ((system (twoWorkers 1 (Int.le_refl 1))).exec (fun u a => settled u a = true ∧ (u.redis.job "a").isSome) s
        ([.cancel 0 (.request "a"), .cancel 0 .go] ++ List.replicate 2 (.worker 0 .go))).any
        (fun t => (t.redis.job "a").isSome ∧ t.cancels 0 = .done "a" (some .completed)) = true) (by decide +kernel)
  obtain ⟨t, ht, exists', hd⟩ := Machine.leads_of_any hl
  exact ⟨s, t, hr, ht, hd, terminal_absorbing hr hst rfl ht exists'⟩

/-! ## Queued jobs and stopping workers -/

section
variable {c : AppConfig} {r r' : Redis} {w w' : Worker} {b : WorkerAct} {es : List Event} {j : String}

/-- How a worker comes to have a popped job no longer in its hands. -/
inductive Worker.Parted (r : Redis) (w : Worker) (b : WorkerAct) (j : String) : Prop
  | claimed {ts} (act : b = .go) (pc : w.pc = .claiming j ts) (free : r.slotFree w.model = true)
  | stopped (act : b = .go) (pc : w.pc = .waitSlot j) (stop : w.stop = true)
  | cancelled {took} (act : b = .cancel took)
  | killed (act : b = .kill)

theorem Worker.step_parted (h : w.step c r b = some (r', w', es)) (hj : w.pc.unclaimed = some j) :
    w'.pc.unclaimed = some j ∨ Worker.Parted r w b j := by
  obtain ⟨m, stop, pc⟩ := w
  cases b with
  | go =>
    simp only [Worker.step, Option.map_eq_some_iff] at h
    obtain ⟨⟨pc', es'⟩, hr, h⟩ := h
    simp only [Prod.mk.injEq] at h
    obtain ⟨-, rfl, -⟩ := h
    cases pc <;> cases hj <;> cases hr
    · cases stop
      · exact .inl rfl
      · exact .inr (.stopped rfl rfl rfl)
    · cases hf : r.slotFree m
      · exact .inl (by simp [Pc.unclaimed])
      · exact .inr (.claimed rfl rfl hf)
  | fail took =>
    simp only [Worker.step, Option.map_eq_some_iff] at h
    obtain ⟨⟨pc', es'⟩, hr, h⟩ := h
    simp only [Prod.mk.injEq] at h
    obtain ⟨-, rfl, -⟩ := h
    cases pc <;> cases hj <;> cases hr
    exact .inl rfl
  | cancel took => exact .inr (.cancelled rfl)
  | kill => exact .inr (.killed rfl)
  | stop => cases h; exact .inl hj
  | respond o => cases pc <;> cases hj <;> cases h
  | timeout =>
    simp only [step, Option.ite_none_right_eq_some] at h
    obtain ⟨⟨hp, -⟩, -⟩ := h
    rw [hp] at hj; cases hj
  | start =>
    simp only [step, Option.ite_none_right_eq_some] at h
    obtain ⟨hp, -⟩ := h
    rcases hp with hp | hp <;> rw [hp] at hj <;> cases hj

end

section
variable {ι : Type} [DecidableEq ι] {d : Deployment ι} {s s' : State ι} {a : Action ι} {j : String}

omit [DecidableEq ι] in
def undisturbed : Action ι → Bool
  | .worker _ .kill | .worker _ (.fail _) => false
  | _ => true

omit [DecidableEq ι] in
/-- No worker ends with a job in hand that still has the status `queued`, nor while one is on its way to it. -/
def handsBack (s : State ι) : Action ι → Bool
  | .worker i .go =>
    match (s.workers i).pc with
    | .waitSlot j => !(s.workers i).stop || s.redis.status j ≠ some .queued
    | _ => true
  | .worker i (.cancel took) =>
    match (s.workers i).pc with
    | .popping => !took || (s.redis.firstQueued (s.workers i).model).all fun j => s.redis.status j ≠ some .queued
    | .waitSlot j => s.redis.status j ≠ some .queued
    | .claiming j _ => s.redis.status j ≠ some .queued || took && s.redis.slotFree (s.workers i).model
    | _ => true
  | _ => true

theorem Redis.claimSlot_status (r : Redis) (m j : String) (ts : Nat) :
    (r.claimSlot m j ts).status j = some .dispatched := by
  rw [status, claimSlot, hset_job]; rfl

theorem Redis.cancelQueued_status (r : Redis) (m j : String) (ts : Nat) :
    (r.cancelQueued m j ts).status j = some .cancelled := by
  rw [status, cancelQueued, hset_job]; rfl

structure Waiting (s : State ι) : Prop where
  place : ∀ j, s.redis.status j = some .queued → ∃ m, stage s.trace j = .queued m ∨ stage s.trace j = .popped m
  held : ∀ j m, stage s.trace j = .popped m → s.redis.status j = some .queued → ∃ i, (s.workers i).pc.unclaimed = some j

theorem place_step (hl : Life s) (hp : Priorities d.config s)
    (hw : s.redis.status j = some .queued → ∃ m, stage s.trace j = .queued m ∨ stage s.trace j = .popped m)
    (h : step d s a = some s') (hj : s'.redis.status j = some .queued) :
    ∃ m, stage s'.trace j = .queued m ∨ stage s'.trace j = .popped m := by
  have hm := stage_move (j := j) hl h
  have hst := status_write (j := j) hl hp h
  generalize hx : s'.redis.status j = x at hst
  rw [hj] at hx
  cases hst with
  | keep =>
    obtain ⟨m, hs⟩ := hw hx.symm
    generalize stage s'.trace j = y at hm ⊢
    cases hm with
    | keep => exact ⟨m, hs⟩
    | enqueue => exact ⟨_, .inl rfl⟩
    | pop => exact ⟨_, .inr rfl⟩
    | claim act pc free was redis => rw [redis, Redis.claimSlot_status] at hj; cases hj
    | forward act pc was redis => rcases hs with hs | hs <;> rw [was] at hs <;> cases hs
    | cancelled act pc was redis => rw [redis, Redis.cancelQueued_status] at hj; cases hj
  | enqueue unborn absent created =>
    have born : stage s'.trace j ≠ .unborn := fun hu => by
      rw [Redis.status, (life_step hl h).absent j hu] at hj; cases hj
    generalize stage s'.trace j = y at hm born ⊢
    cases hm with
    | keep => exact absurd unborn born
    | enqueue => exact ⟨_, .inl rfl⟩
    | pop act takes pc first was | claim act pc free was | forward act pc was | cancelled act pc was =>
      rw [unborn] at was; cases was
  | @mark i b info v => cases v <;> cases hx
  | purge | claim | clean | cancelled | cancelling | reclaim => cases hx

theorem placed {ok : State ι → Action ι → Prop} (h : (system d).Reach ok s) (hj : s.redis.status j = some .queued) :
    ∃ m, stage s.trace j = .queued m ∨ stage s.trace j = .popped m := by
  refine h.invariant (I := fun s => s.redis.status j = some .queued →
    ∃ m, stage s.trace j = .queued m ∨ stage s.trace j = .popped m) (fun h => by (cases h)) ?_ hj
  intro u a v hr hu _ hs hv
  exact place_step (life hr) (priorities hr) hu hs hv

theorem held_step (hl : Life s) (hp : Priorities d.config s) (hw : Waiting s) (ha : undisturbed a = true)
    (hh : handsBack s a = true) (h : step d s a = some s') {m : String} (hm : stage s'.trace j = .popped m)
    (hj : s'.redis.status j = some .queued) : ∃ i, (s'.workers i).pc.unclaimed = some j := by
  have hmove := stage_move (j := j) hl h
  have before : s.redis.status j = some .queued := by
    have hst := status_write (j := j) hl hp h
    generalize hx : s'.redis.status j = x at hst
    rw [hj] at hx
    cases hst with
    | keep => exact hx.symm
    | enqueue unborn =>
      generalize stage s'.trace j = y at hmove hm
      cases hmove with
      | keep => rw [unborn] at hm; cases hm
      | pop act takes pc first was => rw [unborn] at was; cases was
      | enqueue | claim | forward | cancelled => cases hm
    | @mark i b info v => cases v <;> cases hx
    | purge | claim | clean | cancelled | cancelling | reclaim => cases hx
  generalize hx : stage s'.trace j = x at hmove
  rw [hm] at hx
  cases hmove with
  | keep =>
    obtain ⟨i, hi⟩ := hw.held j m hx.symm before
    refine ⟨i, ?_⟩
    rcases worker_of_step h i with ⟨-, hs⟩ | ⟨b, es, rfl, hs, -⟩
    · rw [hs]; exact hi
    rcases Worker.step_parted hs hi with hi' | hi'
    · exact hi'
    exfalso
    cases hi' with
    | @claimed ts act pc free =>
      subst act
      have := Worker.redis_of_takes hs rfl
      rw [this, pc, Pc.serve, if_pos free, Redis.claimSlot_status] at hj; cases hj
    | stopped act pc stop => subst act; simp [handsBack, pc, stop, before] at hh
    | @cancelled took act =>
      subst act
      cases hpc : (s.workers i).pc <;> rw [hpc] at hi <;> cases hi
      · simp [handsBack, hpc, before] at hh
      · simp only [handsBack, hpc, before, ne_eq, not_true, decide_false, Bool.false_or, Bool.and_eq_true] at hh
        obtain ⟨rfl, free⟩ := hh
        have := Worker.redis_of_takes hs rfl
        rw [this, hpc, Pc.serve, if_pos free, Redis.claimSlot_status] at hj; cases hj
    | killed act => subst act; cases ha
  | @pop i b act takes pc first was redis =>
    subst act
    refine ⟨i, ?_⟩
    rcases worker_of_step h i with ⟨hne, -⟩ | ⟨b', es, hb, hs, -⟩
    · exact absurd rfl (hne b)
    cases hb
    cases b with
    | go =>
      simp only [Worker.step, pc, Pc.resume, first, Option.map_some, Option.some.injEq, Prod.mk.injEq] at hs
      rw [← hs.2.1]; rfl
    | cancel took =>
      cases took
      · cases takes
      · simp [handsBack, pc, first, before] at hh
    | fail took => cases ha
    | respond | timeout | stop | kill | start => cases takes
  | enqueue | claim | forward | cancelled => cases hx

theorem waiting (h : (system d).Reach (fun s a => undisturbed a = true ∧ handsBack s a = true) s) : Waiting s :=
  h.invariant ⟨fun j h => by (cases h), fun j m h => by (cases h)⟩ fun u a v hr hw ha hs => {
    place := fun _ => place_step (life hr) (priorities hr) (hw.place _) hs
    held := fun _ _ => held_step (life hr) (priorities hr) hw ha.1 ha.2 hs }

/-- As long as no worker ends with a queued job in hand, every job with the status `queued` is in the
queue of its model or in the hands of a worker that has not ended. -/
theorem queued_not_lost (h : (system d).Reach (fun s a => undisturbed a = true ∧ handsBack s a = true) s)
    (hj : s.redis.status j = some .queued) :
    (∃ m, jobModel s j = some m ∧ j ∈ s.redis.queue m) ∨ ∃ i, (s.workers i).pc.job = some j := by
  obtain ⟨m, hs | hs⟩ := (waiting h).place j hj
  · exact .inl ⟨m, by rw [jobModel, hs]; rfl, ((life h).queue m j).mpr hs⟩
  · obtain ⟨i, hi⟩ := (waiting h).held j m hs hj
    refine .inr ⟨i, ?_⟩
    cases hpc : (s.workers i).pc <;> rw [hpc] at hi <;> cases hi <;> rfl

end

/-- A worker is told to stop while its job waits for a slot, and ends. -/
theorem queued_lost : ¬∀ s, (system (twoWorkers 1 (Int.le_refl 1))).Reach (fun _ a => undisturbed a = true) s → ∀ j,
    s.redis.status j = some .queued →
      (∃ m, jobModel s j = some m ∧ j ∈ s.redis.queue m) ∨ ∃ i, (s.workers i).pc.job = some j := by
  intro h
  obtain ⟨s, hr, hst, hm, hq, hw⟩ := (system (twoWorkers 1 (Int.le_refl 1))).reach_of_exec
    (fun _ a => undisturbed a = true)
    (admitRun 0 (chatRequest (.obj []) .null none) "a" ++ List.replicate 2 (.worker 0 .go) ++
      [.worker 0 .stop, .worker 0 .go])
    (fun s => s.redis.status "a" = some .queued ∧ jobModel s "a" = some "chat" ∧ "a" ∉ s.redis.queue "chat" ∧
      ∀ i, (s.workers i).pc.job ≠ some "a") (by decide +kernel)
  rcases h s hr "a" hst with ⟨m, hm', hq'⟩ | ⟨i, hi⟩
  · rw [hm] at hm'; cases hm'; exact hq hq'
  · exact hw i hi

/-- A worker is told to stop while it forwards; the other job is still in the queue. -/
theorem queued_not_lost_run : ∃ s, (system (twoWorkers 1 (Int.le_refl 1))).Reach
    (fun s a => undisturbed a = true ∧ handsBack s a = true) s ∧ (s.workers 0).pc = .exited ∧
      s.redis.status "b" = some .queued ∧
      ((∃ m, jobModel s "b" = some m ∧ "b" ∈ s.redis.queue m) ∨ ∃ i, (s.workers i).pc.job = some "b") := by
  obtain ⟨s, hr, pc, hst⟩ := (system (twoWorkers 1 (Int.le_refl 1))).reach_of_exec
    (fun s a => undisturbed a = true ∧ handsBack s a = true)
    (admitRun 0 (chatRequest (.obj []) .null none) "a" ++ admitRun 1 (chatRequest (.obj []) .null none) "b" ++
      List.replicate 6 (.worker 0 .go) ++ [.worker 0 .stop, .worker 0 (.cancel false)] ++ List.replicate 3 (.worker 0 .go))
    (fun s => (s.workers 0).pc = .exited ∧ s.redis.status "b" = some .queued) (by decide +kernel)
  exact ⟨s, hr, pc, hst, queued_not_lost hr hst⟩

end AdmissionScheduler
