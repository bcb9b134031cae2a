import AdmissionScheduler.StatusSound
import AdmissionScheduler.Isolation

/-!
# Released jobs have an outcome

A worker writes the outcome of its job in one command and releases the slot in
another, whether the first has failed or not. As long as that write takes effect
and no task ends with a dispatched job that is not in flight, no dispatched job
is out of sight of the lease watcher.
-/

namespace AdmissionScheduler

/-- The job whose slot the worker is about to release. -/
def Pc.written : Pc → Option String
  | publishing j .. | releasing j _ => some j
  | _ => none

/-- The action goes past the write of an outcome, and the write takes no effect. -/
def Pc.misses : Pc → WorkerAct → Bool
  | marking .., .fail took | cleaning .., .fail took => !took
  | marking _ _ v _, .cancel took =>
    match v with
    -- `cancelled` is written in its stead
    | .completed _ => false
    | .failed .. | .cancelled => !took
  | _, _ => false

def Worker.ends (r : Redis) (w : Worker) : WorkerAct → Bool
  | .kill => true
  | .cancel _ => w.pc.interrupt r = some .exited
  | .go =>
    match w.pc.resume w.model r w.stop with
    | some (.exited, _) | some (.crashed, _) => true
    | _ => false
  | _ => false

def Worker.effect (c : AppConfig) (r : Redis) (w : Worker) (b : WorkerAct) : Redis :=
  if b.takes then w.pc.serve c w.model r else r

/-- The lease watcher can find the job, or has no reason to. -/
def Redis.onRecord (r : Redis) (m j : String) : Bool := r.status j ≠ some .dispatched || j ∈ r.inflight m

section
variable {c : AppConfig} {r r' : Redis} {w w' : Worker} {b : WorkerAct} {es : List Event} {j : String}

theorem Pc.written_job {pc : Pc} (h : pc.written = some j) : pc.job = some j := by
  cases pc <;> first | exact h | cases h

theorem Worker.step_eq_effect (h : w.step c r b = some (r', w', es)) : r' = w.effect c r b := by
  unfold effect
  split
  · exact redis_of_takes h ‹_›
  · rcases step_redis h with hr | ⟨takes, -⟩
    · exact hr
    · exact absurd takes ‹_›

/-- What becomes of a job whose outcome is not yet written. -/
theorem Worker.step_away (h : w.step c r b = some (r', w', es)) (hj : w.pc.unmarked = some j) :
    w'.pc.unmarked = some j ∨ w'.pc.written = some j ∨ w.ends r b = true := by
  obtain ⟨m, stop, pc⟩ := w
  cases b with
  | go =>
    simp only [step, Option.map_eq_some_iff, Prod.mk.injEq] at h
    obtain ⟨⟨pc', es'⟩, hr, -, rfl, -⟩ := h
    cases pc with
    | waitSlot k => cases hr; cases hj; cases stop <;> simp [ends, Pc.resume, Pc.unmarked]
    | claiming k ts => cases hr; cases hj; cases hf : r.slotFree m <;> exact .inl rfl
    | tracking k t => cases hr; exact .inl hj
    | fetching k =>
      cases hj
      cases hk : r.job j with
      | none => simp only [Pc.resume, hk] at hr; cases hr; exact .inr (.inl rfl)
      | some e =>
        simp only [Pc.resume, hk] at hr
        split at hr <;> cases hr
        · rename_i hn; exact .inr (.inr (by simp [ends, Pc.resume, hk, hn]))
        · exact .inl rfl
    | marking k info v ts => cases hr; exact .inr (.inl hj)
    | cleaning k ts => cases hr; exact .inr (.inl hj)
    | forwarding => cases hr
    | _ => cases hj
  | fail took =>
    simp only [step, Option.map_eq_some_iff, Prod.mk.injEq] at h
    obtain ⟨⟨pc', es'⟩, hr, -, rfl, -⟩ := h
    cases pc with
    | claiming | tracking | fetching => cases hr; exact .inl hj
    | marking | cleaning => cases hr; exact .inr (.inl hj)
    | waitSlot | forwarding => cases hr
    | _ => cases hj
  | cancel took =>
    simp only [step, Option.ite_none_right_eq_some, Option.map_eq_some_iff, Prod.mk.injEq] at h
    obtain ⟨-, pc', hr, -, rfl, -⟩ := h
    cases pc with
    | forwarding k info => cases hr; exact .inl hj
    | marking k info v ts => cases v <;> cases hr <;> [exact .inl hj; exact .inr (.inl hj); exact .inr (.inl hj)]
    | waitSlot | claiming | tracking | fetching | cleaning => exact .inr (.inr (by simp [ends, Pc.interrupt]))
    | _ => cases hj
  | respond o =>
    simp only [step] at h
    split at h <;> cases h
    exact .inl hj
  | timeout =>
    simp only [step, Option.ite_none_right_eq_some] at h
    obtain ⟨⟨hp, -⟩, -⟩ := h
    rw [hp] at hj; cases hj
  | stop => cases h; exact .inl hj
  | kill => exact .inr (.inr rfl)
  | start =>
    simp only [step, Option.ite_none_right_eq_some] at h
    obtain ⟨hp, -⟩ := h
    rcases hp with hp | hp <;> rw [hp] at hj <;> cases hj

/-- How a worker comes to be about to release a slot. -/
inductive Worker.Written (r : Redis) (w : Worker) (b : WorkerAct) (j : String) : Prop
  | still (pc : w.pc.written = some j)
  | marked {info v ts} (pc : w.pc = .marking j info v ts) (takes : b.takes = true)
  | cleaned {ts} (pc : w.pc = .cleaning j ts) (takes : b.takes = true)
  | absent (pc : w.pc = .fetching j) (hash : r.job j = none)
  | missed (misses : w.pc.misses b = true)

theorem Worker.step_written (h : w.step c r b = some (r', w', es)) (hj : w'.pc.written = some j) :
    Worker.Written r w b j := by
  obtain ⟨m, stop, pc⟩ := w
  cases b with
  | go =>
    simp only [step, Option.map_eq_some_iff, Prod.mk.injEq] at h
    obtain ⟨⟨pc', es'⟩, hr, -, rfl, -⟩ := h
    cases pc with
    | poll | waitSlot => cases hr; cases stop <;> cases hj
    | popping =>
      obtain ⟨k, -, hk⟩ := Option.map_eq_some_iff.mp hr
      cases hk; cases hj
    | claiming k ts => cases hr; cases hf : r.slotFree m <;> simp only [hf] at hj <;> cases hj
    | fetching k =>
      simp only [Pc.resume] at hr
      split at hr
      · rename_i hk; cases hr; cases hj; exact .absent rfl hk
      · split at hr <;> cases hr <;> cases hj
    | marking k info v ts => cases hr; cases hj; exact .marked rfl rfl
    | publishing k info v => cases hr; exact .still hj
    | releasing k next => cases hr; cases next <;> cases hj
    | cleaning k ts => cases hr; cases hj; exact .cleaned rfl rfl
    | tracking | announcing => cases hr; cases hj
    | forwarding | exited | crashed => cases hr
  | fail took =>
    simp only [step, Option.map_eq_some_iff, Prod.mk.injEq] at h
    obtain ⟨⟨pc', es'⟩, hr, -, rfl, -⟩ := h
    cases pc with
    | marking k info v ts =>
      cases hr; cases hj
      cases took <;> [exact .missed rfl; exact .marked rfl rfl]
    | publishing k info v => cases hr; exact .still hj
    | releasing k next => cases hr; cases next <;> cases hj
    | cleaning k ts =>
      cases hr; cases hj
      cases took <;> [exact .missed rfl; exact .cleaned rfl rfl]
    | popping | claiming | tracking | fetching | announcing => cases hr; cases hj
    | poll | waitSlot | forwarding | exited | crashed => cases hr
  | cancel took =>
    simp only [step, Option.ite_none_right_eq_some, Option.map_eq_some_iff, Prod.mk.injEq] at h
    obtain ⟨-, pc', hr, -, rfl, -⟩ := h
    cases pc with
    | marking k info v ts =>
      cases v <;> cases hr <;> cases hj <;> cases took <;>
        first | exact .missed rfl | exact .marked rfl rfl
    | publishing k info v => cases v <;> cases hr <;> cases hj <;> exact .still rfl
    | exited | crashed => cases hr
    | _ => cases hr; cases hj
  | respond o =>
    simp only [step] at h
    split at h <;> cases h
    cases hj
  | timeout | start =>
    simp only [step, Option.ite_none_right_eq_some] at h
    obtain ⟨-, h⟩ := h; cases h; cases hj
  | stop => cases h; exact .still hj
  | kill => cases h; cases hj

end

/-! ## Leaving the inflight set -/

section
variable {c : AppConfig} {r : Redis} {j m n : String}

theorem Pc.serve_inflight_kept {pc : Pc} (h : j ∈ r.inflight n) (hp : ∀ next, pc ≠ .releasing j next) :
    j ∈ (pc.serve c m r).inflight n := by
  cases pc with
  | tracking k t =>
    simp only [serve, Redis.track, Function.update_apply]
    split
    · rename_i hn; rw [SortedSet.mem_add]; exact .inr (hn ▸ h)
    · exact h
  | releasing k next =>
    simp only [serve, Redis.releaseSlot, Redis.removeInflight, Redis.addInUse, Function.update_apply]
    split
    · rename_i hn
      rw [SortedSet.mem_remove]
      exact ⟨fun hk => hp next (hk ▸ rfl), hn ▸ h⟩
    · exact h
  | claiming k ts => simp only [serve]; split <;> exact h
  | _ => exact h

theorem Watcher.serve_inflight_kept {p : Watcher} (h : j ∈ r.inflight n)
    (hp : ∀ m' rest ts, p ≠ .reclaiming m' j rest ts) : j ∈ (p.serve r).inflight n := by
  cases p with
  | reclaiming m' k rest ts =>
    simp only [serve, Redis.reclaim, Redis.removeInflight, Function.update_apply]
    split
    · rename_i hn
      rw [SortedSet.mem_remove]
      exact ⟨fun hk => hp m' rest ts (hk ▸ rfl), hn ▸ h⟩
    · exact h
  | _ => exact h

end

section
variable {ι : Type} [DecidableEq ι] {d : Deployment ι} {s s' : State ι} {a : Action ι} {i : ι} {j m : String}

/-- A job leaves the inflight set by a release or by a reclaim. -/
theorem inflight_of_step (h : step d s a = some s') (hj : j ∈ s.redis.inflight m) : j ∈ s'.redis.inflight m ∨
    (∃ i b next, a = .worker i b ∧ (s.workers i).pc = .releasing j next) ∨
    ∃ m' ts, s'.redis = s.redis.reclaim m' j ts := by
  cases a with
  | worker i b =>
    simp only [step, Option.map_eq_some_iff] at h
    obtain ⟨⟨r', w', es⟩, hw, rfl⟩ := h
    rcases Worker.step_redis hw with hr | ⟨-, hr⟩ <;> simp only [hr]
    · exact .inl hj
    by_cases hp : ∃ next, (s.workers i).pc = .releasing j next
    · obtain ⟨next, hp⟩ := hp; exact .inr (.inl ⟨i, b, next, rfl, hp⟩)
    · exact .inl (Pc.serve_inflight_kept hj fun next hn => hp ⟨next, hn⟩)
  | admission k b =>
    simp only [step, Option.ite_none_right_eq_some, Option.map_eq_some_iff] at h
    obtain ⟨-, ⟨r', p', es⟩, hp, rfl⟩ := h
    simp only [(Admit.step_slots hp).2.1]; exact .inl hj
  | cancel k b =>
    simp only [step, Option.map_eq_some_iff] at h
    obtain ⟨⟨r', p', es⟩, hp, rfl⟩ := h
    simp only [(Cancel.step_slots hp).2.1]; exact .inl hj
  | watch k b =>
    simp only [step, Option.map_eq_some_iff] at h
    obtain ⟨⟨r', p', es⟩, hp, rfl⟩ := h
    rcases Watcher.step_redis hp with hr | ⟨-, hr⟩ <;> simp only [hr]
    · exact .inl hj
    by_cases hp : ∃ m' rest ts, s.watchers k = .reclaiming m' j rest ts
    · obtain ⟨m', rest, ts, hp⟩ := hp; exact .inr (.inr ⟨m', ts, by rw [hp]; rfl⟩)
    · exact .inl (Watcher.serve_inflight_kept hj fun m' rest ts hn => hp ⟨m', rest, ts, hn⟩)
  | check k b =>
    simp only [step, Option.map_eq_some_iff] at h
    obtain ⟨⟨r', p', es⟩, hp, rfl⟩ := h
    rcases Checker.step_redis hp with hr | ⟨-, hr⟩ <;> simp only [hr]
    · exact .inl hj
    · simp only [(Checker.serve_frame (s.checkers k) s.redis).2.1]; exact .inl hj
  | tick δ => cases h; exact .inl hj

end

/-! ## Runs that write every outcome -/

section
variable {ι : Type} [Fintype ι] [DecidableEq ι] {d : Deployment ι} {s s' : State ι} {a : Action ι} {i : ι} {j m : String}

/-- No write of an outcome is missed, no task ends with a dispatched job that is not in flight, and no
cancel request writes `cancelling` over an outcome before the slot is released. -/
def finalises (d : Deployment ι) (s : State ι) : Action ι → Bool
  | .worker i b =>
    let w := s.workers i
    !w.pc.misses b && w.pc.unmarked.all fun j => !w.ends s.redis b || (w.effect d.config s.redis b).onRecord w.model j
  | .cancel k b =>
    match s.cancels k with
    | .marking j => !b.takes || decide (∀ i, (s.workers i).pc.written ≠ some j)
    | _ => true
  | _ => true

/-- Before a slot is released the job has an outcome; and the lease watcher can find every dispatched job
that no worker has in hand. -/
structure Finalising (s : State ι) : Prop where
  written : ∀ i j, (s.workers i).pc.written = some j → ∀ st, s.redis.status j = some st → st.terminal = true
  traced : ∀ j, s.redis.status j = some .dispatched →
    (∃ i, (s.workers i).pc.unmarked = some j) ∨ ∃ m, j ∈ s.redis.inflight m

theorem Redis.finish_status (r : Redis) (j : String) (v : Verdict) (ts : Nat) :
    (r.finish j (v.write ts)).status j = some v.status := by
  rw [status, finish_job]; exact v.write_status _ _

theorem Redis.reclaim_status (r : Redis) (m j : String) (ts : Nat) : (r.reclaim m j ts).status j = some .failed := by
  have : (r.reclaim m j ts).job j = some (r.finished j fun h =>
      { h with status := some .failed, errorClass := some .workerCrash, completeTs := some ts }) := finish_job _ _ _
  rw [status, this]; rfl

theorem written_step (hl : Life s) (hp : Priorities d.config s) (hf : Finalising s) (ha : finalises d s a = true)
    (h : step d s a = some s') (hj : (s'.workers i).pc.written = some j) {st : JobStatus}
    (hst : s'.redis.status j = some st) : st.terminal = true := by
  have hw := status_write (j := j) hl hp h
  rw [hst] at hw
  generalize hx : some st = x at hw
  rcases worker_of_step h i with ⟨hne, hs⟩ | ⟨b, es, rfl, hs, -⟩
  · rw [hs] at hj
    have hi := Pc.written_job hj
    have other : ∀ {k b}, a = .worker k b → (s.workers k).pc.job ≠ some j := by
      rintro k b rfl hk
      exact absurd rfl (hl.exclusive k i j hk hi ▸ hne b)
    cases hw with
    | keep => exact hf.written i j hj st hx.symm
    | purge | enqueue unborn =>
      first | (cases hx; done) | exact absurd unborn ((hl.worker i).ne_unborn hi)
    | claim act pc => exact absurd (by rw [pc]; rfl) (other act)
    | mark act takes pc => exact absurd (by rw [pc]; rfl) (other act)
    | clean act pc => exact absurd (by rw [pc]; rfl) (other act)
    | cancelled act mem => exact absurd ((hl.queue _ j).mp mem) ((hl.worker i).ne_queued hi)
    | cancelling act takes pc => subst act; simp [finalises, pc, takes] at ha; exact absurd hj (ha i)
    | reclaim => cases hx; rfl
  · have effect := Worker.step_eq_effect hs
    cases Worker.step_written hs hj with
    | still pc =>
      cases hw with
      | keep => exact hf.written i j pc st hx.symm
      | purge => cases hx
      | claim act pc' | mark act takes pc' | clean act pc' => cases act; rw [pc'] at pc; cases pc
      | cancelled act | cancelling act | reclaim act => cases act
      | enqueue unborn => exact absurd unborn ((hl.worker i).ne_unborn (Pc.written_job pc))
    | @marked info v ts pc takes =>
      rw [effect, Worker.effect, if_pos takes, pc, Pc.serve, Redis.finish_status] at hst
      cases hst; exact v.terminal
    | @cleaned ts pc takes =>
      rw [effect, Worker.effect, if_pos takes, pc, Pc.serve, Redis.status, Redis.hset_job] at hst
      cases hst; rfl
    | absent pc hash =>
      rw [effect, Worker.effect, pc, Redis.status] at hst
      simp [Pc.serve, hash] at hst
    | missed misses => simp [finalises, misses] at ha

theorem traced_step (hl : Life s) (hp : Priorities d.config s) (hf : Finalising s) (ha : finalises d s a = true)
    (h : step d s a = some s') (hj : s'.redis.status j = some .dispatched) :
    (∃ i, (s'.workers i).pc.unmarked = some j) ∨ ∃ m, j ∈ s'.redis.inflight m := by
  have own : ∀ {i}, (s.workers i).pc.unmarked = some j →
      (∃ i, (s'.workers i).pc.unmarked = some j) ∨ ∃ m, j ∈ s'.redis.inflight m := by
    intro i hi
    rcases worker_of_step h i with ⟨-, hs⟩ | ⟨b, es, rfl, hs, -⟩
    · exact .inl ⟨i, by rw [hs]; exact hi⟩
    rcases Worker.step_away hs hi with hi' | hi' | ends
    · exact .inl ⟨i, hi'⟩
    · exact absurd (written_step hl hp hf ha h hi' hj) nofun
    · have record : s'.redis.onRecord (s.workers i).model j = true := by
        rw [Worker.step_eq_effect hs]
        simp only [finalises, hi, Option.all_some, ends, Bool.not_true, Bool.false_or, Bool.and_eq_true] at ha
        exact ha.2
      simp only [Redis.onRecord, hj, ne_eq, not_true, decide_false, Bool.false_or, decide_eq_true_eq] at record
      exact .inr ⟨_, record⟩
  have hw := status_write (j := j) hl hp h
  generalize hx : s'.redis.status j = x at hw
  rw [hj] at hx
  cases hw with
  | keep =>
    rcases hf.traced j hx.symm with ⟨i, hi⟩ | ⟨m, hm⟩
    · exact own hi
    rcases inflight_of_step h hm with hm' | ⟨i, b, next, rfl, pc⟩ | ⟨m', ts, hr⟩
    · exact .inr ⟨m, hm'⟩
    · exact absurd (hf.written i j (by rw [pc]; rfl) _ hx.symm) nofun
    · rw [hr, Redis.reclaim_status] at hj; cases hj
  | @claim i b ts act pc => exact own (i := i) (by rw [pc]; rfl)
  | @mark i b info v => cases v <;> cases hx
  | purge | clean | cancelled | cancelling | reclaim | enqueue => cases hx

theorem finalising (h : (system d).Reach (fun s a => finalises d s a = true) s) : Finalising s :=
  h.invariant ⟨fun i j h => by (cases h), fun j h => by (cases h)⟩ fun u a v hr hf ha hs => {
    written := fun _ _ hj _ => written_step (life hr) (priorities hr) hf ha hs hj
    traced := fun _ => traced_step (life hr) (priorities hr) hf ha hs }

/-- As long as the outcome of every job is written and no task ends with a dispatched job that is not in flight,
a job whose slot is released has a terminal status, and every dispatched job is held by a live worker or in flight. -/
theorem released_finalised (h : (system d).Reach (fun s a => finalises d s a = true) s) :
    (∀ i j next b s', (s.workers i).pc = .releasing j next → b.takes = true → step d s (.worker i b) = some s' →
      ∀ st, s'.redis.status j = some st → st.terminal = true) ∧
    ∀ j, s.redis.status j = some .dispatched →
      (∃ i, (s.workers i).pc.job = some j) ∨ ∃ m, jobModel s j = some m ∧ j ∈ s.redis.inflight m := by
  have hf := finalising h
  refine ⟨fun i j next b s' pc takes hs st hst => ?_, fun j hj => ?_⟩
  · rcases worker_of_step hs i with ⟨hne, -⟩ | ⟨b', es, hb, hw, -⟩
    · exact absurd rfl (hne b)
    · cases hb
      rw [Worker.redis_of_takes hw takes, pc] at hst
      exact hf.written i j (by rw [pc]; rfl) st hst
  · rcases hf.traced j hj with ⟨i, hi⟩ | ⟨m, hm⟩
    · exact .inl ⟨i, unmarked_job hi⟩
    · exact .inr ⟨m, ((life h).inflight m j hm).model, hm⟩

end

/-- A worker's commands may fail, without effect; no worker is stopped, cancelled or killed. -/
def onlyFailures {ι : Type} : Action ι → Bool
  | .worker _ b =>
    match b with
    | .go | .respond _ | .timeout | .fail false => true
    | .fail true | .stop | .cancel _ | .kill | .start => false
  | _ => true

/-- The pipeline of `_mark_completed` fails, and the slot is released: the job stays dispatched for good. -/
theorem released_unfinalised : ¬∀ s, (system (twoWorkers 1 (Int.le_refl 1))).Reach (fun _ a => onlyFailures a = true) s →
    (∀ i j next b s', (s.workers i).pc = .releasing j next → b.takes = true →
      step (twoWorkers 1 (Int.le_refl 1)) s (.worker i b) = some s' → ∀ st, s'.redis.status j = some st → st.terminal = true) ∧
    ∀ j, s.redis.status j = some .dispatched →
      (∃ i, (s.workers i).pc.job = some j) ∨ ∃ m, jobModel s j = some m ∧ j ∈ s.redis.inflight m := by
  intro h
  obtain ⟨s, hr, hst, hw, model, hm⟩ := (system (twoWorkers 1 (Int.le_refl 1))).reach_of_exec
    (fun _ a => onlyFailures a = true)
    (admitRun 0 (chatRequest (.obj []) .null none) "a" ++ List.replicate 6 (.worker 0 .go) ++
      [.worker 0 (.respond (.ok (.obj []))), .worker 0 (.fail false), .worker 0 .go, .worker 0 .go])
    (fun s => s.redis.status "a" = some .dispatched ∧ (∀ i, (s.workers i).pc.job ≠ some "a") ∧
      jobModel s "a" = some "chat" ∧ "a" ∉ s.redis.inflight "chat") (by decide +kernel)
  rcases (h s hr).2 "a" hst with ⟨i, hi⟩ | ⟨m, hm', hj⟩
  · exact hw i hi
  · rw [model] at hm'; cases hm'; exact hm hj

/-- The inflight entry and the fetch fail; the job is marked failed before its slot is released. -/
theorem released_finalised_run : ∃ s, (system (twoWorkers 1 (Int.le_refl 1))).Reach
    (fun s a => finalises (twoWorkers 1 (Int.le_refl 1)) s a = true) s ∧ (s.workers 0).pc = .releasing "a" .announce ∧
    (∀ i j next b s', (s.workers i).pc = .releasing j next → b.takes = true →
      step (twoWorkers 1 (Int.le_refl 1)) s (.worker i b) = some s' → ∀ st, s'.redis.status j = some st → st.terminal = true) ∧
    ∀ j, s.redis.status j = some .dispatched →
      (∃ i, (s.workers i).pc.job = some j) ∨ ∃ m, jobModel s j = some m ∧ j ∈ s.redis.inflight m := by
  obtain ⟨s, hr, pc⟩ := (system (twoWorkers 1 (Int.le_refl 1))).reach_of_exec
    (fun s a => finalises (twoWorkers 1 (Int.le_refl 1)) s a = true)
    (admitRun 0 (chatRequest (.obj []) .null none) "a" ++ List.replicate 4 (.worker 0 .go) ++
      [.worker 0 (.fail false), .worker 0 (.fail false), .worker 0 .go])
    (fun s => (s.workers 0).pc = .releasing "a" .announce) (by decide +kernel)
  exact ⟨s, hr, pc, released_finalised hr⟩

end AdmissionScheduler
