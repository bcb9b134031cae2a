import AdmissionScheduler.QueueSound
import AdmissionScheduler.RedisKeys

/-!
# Models do not interfere

A pending command touches only keys of its party's model and of its party's job,
and that job belongs to the same model. So a run of steps for one model leaves
the keys of every other model, and of its jobs, as they are.
-/

namespace AdmissionScheduler

theorem Stage.Moves.model {x y : Stage} (h : x.Moves y) {m : String} (hx : x.model = some m) : y.model = some m := by
  obtain ⟨e, j, he⟩ := h
  cases e <;> cases he <;> first | exact hx | cases hx

theorem Stage.Claimed.model {m : String} {x : Stage} (h : x.Claimed m) : x.model = some m := by
  rcases h with rfl | rfl <;> rfl

/-! ## What a command touches -/

namespace Redis

section
variable {r : Redis} {m j : String} {key : Key}

theorem value_hset {f : JobHash → JobHash} (h : key.jobId ≠ some j) : (r.hset j f).value key = r.value key := by
  cases key with
  | job k => simp only [value, hset]; rw [Function.update_of_ne fun e => h (congrArg some e)]
  | _ => rfl

theorem value_expire {ttl : Nat} (h : key.jobId ≠ some j) : (r.expire j ttl).value key = r.value key := by
  cases key with
  | job k => simp only [value, expire]; rw [Function.update_of_ne fun e => h (congrArg some e)]
  | _ => rfl

theorem value_finish {f : JobHash → JobHash} (h : key.jobId ≠ some j) : (r.finish j f).value key = r.value key :=
  (value_expire h).trans (value_hset h)

theorem value_addInUse {δ : Int} (h : key.model ≠ some m) : (r.addInUse m δ).value key = r.value key := by
  cases key with
  | slotsInUse k => simp only [value, addInUse]; rw [Function.update_of_ne fun e => h (congrArg some e)]
  | _ => rfl

theorem value_setInUse {n : Int} (h : key.model ≠ some m) : (r.setInUse m n).value key = r.value key := by
  cases key with
  | slotsInUse k => simp only [value, setInUse]; rw [Function.update_of_ne fun e => h (congrArg some e)]
  | _ => rfl

theorem value_incrSeq (h : key.model ≠ some m) : (r.incrSeq m).value key = r.value key := by
  cases key with
  | seq k => simp only [value, incrSeq]; rw [Function.update_of_ne fun e => h (congrArg some e)]
  | _ => rfl

theorem value_popQueue (h : key.model ≠ some m) : (r.popQueue m).value key = r.value key := by
  cases key with
  | queue k => simp only [value, popQueue]; rw [Function.update_of_ne fun e => h (congrArg some e)]
  | _ => rfl

theorem value_addQueued {x : Double} (h : key.model ≠ some m) : (r.addQueued m j x).value key = r.value key := by
  cases key with
  | queue k => simp only [value, addQueued]; rw [Function.update_of_ne fun e => h (congrArg some e)]
  | _ => rfl

theorem value_removeQueued (h : key.model ≠ some m) : (r.removeQueued m j).value key = r.value key := by
  cases key with
  | queue k => simp only [value, removeQueued]; rw [Function.update_of_ne fun e => h (congrArg some e)]
  | _ => rfl

theorem value_removeInflight (h : key.model ≠ some m) : (r.removeInflight m j).value key = r.value key := by
  cases key with
  | inflight k => simp only [value, removeInflight]; rw [Function.update_of_ne fun e => h (congrArg some e)]
  | _ => rfl

theorem value_track {t ttl : Nat} (hm : key.model ≠ some m) (hj : key.jobId ≠ some j) :
    (r.track m j t ttl).value key = r.value key := by
  cases key with
  | inflight k => simp only [value, track]; rw [Function.update_of_ne fun e => hm (congrArg some e)]
  | lease k => simp only [value, track]; rw [Function.update_of_ne fun e => hj (congrArg some e)]
  | _ => rfl

theorem value_releaseSlot (hm : key.model ≠ some m) (hj : key.jobId ≠ some j) :
    (r.releaseSlot m j).value key = r.value key := by
  rw [← value_addInUse (r := r) (δ := -1) hm, ← value_removeInflight (r := r.addInUse m (-1)) (j := j) hm]
  cases key with
  | lease k => simp only [value, releaseSlot]; rw [Function.update_of_ne fun e => hj (congrArg some e)]; rfl
  | _ => rfl

theorem value_reclaim {ts : Nat} (hm : key.model ≠ some m) (hj : key.jobId ≠ some j) :
    (r.reclaim m j ts).value key = r.value key := by
  let f : JobHash → JobHash := fun h =>
    { h with status := some .failed, errorClass := some .workerCrash, completeTs := some ts }
  rw [← value_finish (r := r) (f := f) hj, ← value_addInUse (r := r.finish j f) (δ := -1) hm,
    ← value_removeInflight (r := (r.finish j f).addInUse m (-1)) (j := j) hm]
  cases key with
  | dlq k => simp only [value, reclaim]; rw [Function.update_of_ne fun e => hm (congrArg some e)]; rfl
  | _ => rfl

theorem value_setIdem {h : String} (hk : ∀ h, key ≠ .idem h) : (r.setIdem h j).value key = r.value key := by
  cases key with
  | idem k => exact absurd rfl (hk k)
  | _ => rfl

end

end Redis

section
variable {c : AppConfig} {r : Redis} {m : String} {key : Key}

theorem Pc.serve_value {pc : Pc} (hm : key.model ≠ some m) (hj : ∀ k, pc.job = some k → key.jobId ≠ some k) :
    (pc.serve c m r).value key = r.value key := by
  cases pc with
  | popping => exact Redis.value_popQueue hm
  | claiming j ts =>
    simp only [serve]
    split
    · exact (Redis.value_hset (r := r.addInUse m 1) (hj j rfl)).trans (Redis.value_addInUse hm)
    · rfl
  | tracking j t => exact Redis.value_track hm (hj j rfl)
  | marking j info v ts => exact Redis.value_finish (hj j rfl)
  | releasing j next => exact Redis.value_releaseSlot hm (hj j rfl)
  | cleaning j ts => simp only [serve]; exact Redis.value_hset (hj j rfl)
  | _ => rfl

def Admit.job : Admit → Option String
  | enqueueing _ j _ _ _ | storing _ j _ => some j
  | _ => none

theorem Admit.serve_value {p : Admit} (hm : ∀ sub, p.sub = some sub → key.model ≠ some sub.model)
    (hj : ∀ k, p.job = some k → key.jobId ≠ some k) (hi : ∀ h, key ≠ .idem h) :
    (p.serve c r).value key = r.value key := by
  cases p with
  | sequencing sub j => exact Redis.value_incrSeq (hm sub rfl)
  | enqueueing sub j text x ts =>
    have hq : (r.addQueued sub.model j x).value key = r.value key := Redis.value_addQueued (hm sub rfl)
    simp only [serve]
    cases enqueueOutcome c r sub j text x ts with
    | full | refused => rfl
    | misfiled => exact hq
    | done h => simp only [Redis.enqueueJob]; exact (Redis.value_hset (hj j rfl)).trans hq
  | recording sub j h => exact Redis.value_setIdem hi
  | storing sub j position => simp only [serve]; exact Redis.value_hset (hj j rfl)
  | _ => rfl

/-- The script touches the queue it is pointed at only when it finds the job there. -/
theorem Cancel.serve_value {p : Cancel} (hm : ∀ j m, p.job = some j → j ∈ r.queue m → key.model ≠ some m)
    (hj : ∀ k, p.job = some k → key.jobId ≠ some k) : (p.serve r).value key = r.value key := by
  cases p with
  | script j m ts =>
    simp only [serve]
    split
    · rename_i mem
      exact (Redis.value_hset (r := r.removeQueued m j) (hj j rfl)).trans (Redis.value_removeQueued (hm j m rfl mem))
    · rfl
  | expiring j m => exact Redis.value_expire (hj j rfl)
  | marking j => simp only [serve]; exact Redis.value_hset (hj j rfl)
  | _ => rfl

def Watcher.model : Watcher → Option String
  | ranging m _ | checking m .. | reclaiming m .. | announcing m .. | describing m .. => some m
  | idle => none

theorem Watcher.serve_value {p : Watcher} (hm : ∀ m, p.model = some m → key.model ≠ some m)
    (hj : ∀ q, p.pending = some q → ∀ k ∈ q.2, key.jobId ≠ some k) : (p.serve r).value key = r.value key := by
  cases p with
  | reclaiming m j rest ts => exact Redis.value_reclaim (hm m rfl) (hj _ rfl j (List.mem_cons_self ..))
  | _ => rfl

def Checker.model : Checker → Option String
  | reading m .. | resetting m .. => some m
  | idle => none

theorem Checker.serve_value {p : Checker} (hm : ∀ m, p.model = some m → key.model ≠ some m) :
    (p.serve r).value key = r.value key := by
  cases p with
  | resetting m n recorded => exact Redis.value_setInUse (hm m rfl)
  | _ => rfl

end

/-! ## Steps for one model -/

section
variable {ι : Type} [DecidableEq ι] {d : Deployment ι} {s s' t : State ι} {a : Action ι}

omit [DecidableEq ι] in
/-- The model a step is for: the worker's, the request's, the cancelled job's, the scan's or the check's. -/
def actionModel (s : State ι) : Action ι → Option String
  | .worker i _ => some (s.workers i).model
  | .admission k _ => (s.admits k).sub.map Submission.model
  | .cancel k _ => (s.cancels k).job.bind fun j => (stage s.trace j).model
  | .watch k _ => (s.watchers k).model
  | .check k _ => (s.checkers k).model
  | .tick _ => none

omit [DecidableEq ι] in
/-- The step is for the model, or for none yet; time does not pass. -/
def onlyFor (m : String) (s : State ι) : Action ι → Bool
  | .tick _ => false
  | a => (actionModel s a).all (· = m)

theorem jobModel_step (hl : Life s) (h : step d s a = some s') {j m : String} (hj : jobModel s j = some m) :
    jobModel s' j = some m := by
  obtain ⟨es, hes⟩ := events_of_step h
  have legal := (life_step hl h).legal
  rw [jobModel, hes] at *
  exact Lifecycle.stage_append_keep (L := jobLifecycle) (P := fun x => x.model = some m)
    (fun hm hx => Stage.Moves.model ⟨_, _, hm⟩ hx) legal hj

/-- A call that has enqueued its job knows it by the model of its request. -/
theorem admitted_model {ok : State ι → Action ι → Prop} (h : (system d).Reach ok s) {k : Nat} {q : Submission × String}
    (hq : (s.admits k).admitted = some q) : jobModel s q.2 = some q.1.model := by
  refine h.invariant (I := fun s => ∀ q, (s.admits k).admitted = some q → jobModel s q.2 = some q.1.model)
    (fun q hq => by cases hq) ?_ q hq
  intro u a v hr hu _ hs q hq
  rcases admit_of_step hs k with hk | ⟨b, es, -, hk, ht⟩
  · exact jobModel_step (life hr) hs (hu q (hk ▸ hq))
  · cases Admit.step_turn hk with
    | quiet moves queue unborn admitted => exact jobModel_step (life hr) hs (hu q (admitted q hq))
    | file pc moves queue unborn admitted =>
      rw [(admitted q hq).1, jobModel, ht, stage, Lifecycle.stage_append_move (L := jobLifecycle) moves,
        Function.update_self]
      rfl

omit [DecidableEq ι] in
theorem Life.jobModel_worker (hl : Life s) {i : ι} {j : String} (hj : (s.workers i).pc.job = some j) :
    jobModel s j = some (s.workers i).model := by
  rcases (hl.worker i).popped_or_claimed hj with h | h
  · rw [jobModel, h]; rfl
  · exact h.model

theorem isolated_step (hr : (system d).Reach Machine.Any s) {A B : String} (hAB : A ≠ B) (ha : onlyFor A s a = true)
    (h : step d s a = some s') {key : Key} (hk : key.Of (jobModel s) B) : s'.redis.value key = s.redis.value key := by
  have hl := life hr
  have model : ∀ {m}, m = A → key.model ≠ some m := by
    rintro m rfl hm
    rcases hk with hk | ⟨j, hj, -⟩
    · exact hAB (Option.some.inj (hm.symm.trans hk))
    · rw [Key.model_of_jobId hj] at hm; cases hm
  have job : ∀ {j}, jobModel s j ≠ some B → key.jobId ≠ some j := by
    rintro j hne hj
    rcases hk with hk | ⟨j', hj', hB⟩
    · rw [Key.model_of_jobId hj] at hk; cases hk
    · rw [hj', Option.some.injEq] at hj; exact hne (hj ▸ hB)
  have record : ∀ h, key ≠ .idem h := by
    rintro h rfl
    rcases hk with hk | ⟨j, hj, -⟩ <;> [cases hk; cases hj]
  cases a with
  | worker i b =>
    simp only [step, Option.map_eq_some_iff] at h
    obtain ⟨⟨r', w', es⟩, hw, rfl⟩ := h
    simp only [onlyFor, actionModel, Option.all_some, decide_eq_true_eq] at ha
    rcases Worker.step_redis hw with rfl | ⟨-, rfl⟩
    · rfl
    · refine Pc.serve_value (model ha) fun j hj => job ?_
      rw [hl.jobModel_worker hj, ha, ne_eq, Option.some.injEq]; exact hAB
  | admission k b =>
    simp only [step, Option.ite_none_right_eq_some, Option.map_eq_some_iff] at h
    obtain ⟨-, ⟨r', p', es⟩, hp, rfl⟩ := h
    have own : ∀ sub, (s.admits k).sub = some sub → sub.model = A := fun sub hs => by
      simpa [onlyFor, actionModel, hs] using ha
    rcases Admit.step_effect hp with rfl | ⟨rfl, -⟩
    · rfl
    · refine Admit.serve_value (fun sub hs => model (own sub hs)) (fun j hj => job ?_) record
      cases hc : s.admits k <;> rw [hc] at hj <;> cases hj
      · rw [jobModel, (hl.unborn k j (by rw [hc]; rfl)).2]; intro h; cases h
      · rename_i sub position
        rw [admitted_model hr (k := k) (q := (sub, j)) (by rw [hc]; rfl), own sub (by rw [hc]; rfl), ne_eq,
          Option.some.injEq]
        exact hAB
  | cancel k b =>
    simp only [step, Option.map_eq_some_iff] at h
    obtain ⟨⟨r', p', es⟩, hp, rfl⟩ := h
    have own : ∀ j m, (s.cancels k).job = some j → jobModel s j = some m → m = A := fun j m hj hm => by
      rw [jobModel] at hm
      simpa [onlyFor, actionModel, hj, hm] using ha
    rcases Cancel.step_effect hp with rfl | ⟨-, rfl, -⟩
    · rfl
    · refine Cancel.serve_value (fun j m hj hm => model (own j m hj ?_)) fun j hj => job fun hB => hAB (own j B hj hB).symm
      rw [jobModel, (hl.queue m j).mp hm]; rfl
  | watch k b =>
    simp only [step, Option.map_eq_some_iff] at h
    obtain ⟨⟨r', p', es⟩, hp, rfl⟩ := h
    have own : ∀ m, (s.watchers k).model = some m → m = A := fun m hm => by
      simpa [onlyFor, actionModel, hm] using ha
    rcases Watcher.step_redis hp with rfl | ⟨-, rfl⟩
    · rfl
    · refine Watcher.serve_value (fun m hm => model (own m hm)) fun q hq j hj => job ?_
      rw [jobModel, (hl.pending k q.1 q.2 hq j hj).model, own q.1 ?_, ne_eq, Option.some.injEq]
      · exact hAB
      · cases hc : s.watchers k <;> rw [hc] at hq <;> cases hq <;> rfl
  | check k b =>
    simp only [step, Option.map_eq_some_iff] at h
    obtain ⟨⟨r', p', es⟩, hp, rfl⟩ := h
    rcases Checker.step_redis hp with rfl | ⟨-, rfl⟩
    · rfl
    · exact Checker.serve_value fun m hm => model (by simpa [onlyFor, actionModel, hm] using ha)
  | tick δ => cases ha

theorem isolated_run (hr : (system d).Reach Machine.Any s) {A B : String} (hAB : A ≠ B)
    (hl : (system d).Leads (fun s a => onlyFor A s a = true) s t) :
    (∀ j, jobModel s j = some B → jobModel t j = some B) ∧
      ∀ key : Key, key.Of (jobModel s) B → t.redis.value key = s.redis.value key := by
  refine hl.invariant (I := fun t => (∀ j, jobModel s j = some B → jobModel t j = some B) ∧
    ∀ key : Key, key.Of (jobModel s) B → t.redis.value key = s.redis.value key) ⟨fun _ h => h, fun _ _ => rfl⟩ ?_
  intro u a v hu ⟨hj, hv⟩ ha hs
  have hru := hr.leads hu.any
  refine ⟨fun j h => jobModel_step (life hru) hs (hj j h), fun key hk => ?_⟩
  rw [isolated_step hru hAB ha hs (hk.imp id fun ⟨j, hkj, h⟩ => ⟨j, hkj, hj j h⟩), hv key hk]

/-- The key functions are jointly injective, and steps for one model leave the keys of another and of its
jobs as they are; so they change neither whether its next admission is rejected nor whether its next
claim succeeds. -/
theorem model_isolation : Function.Injective Key.name ∧ ∀ s t : State ι, (system d).Reach Machine.Any s → ∀ A B, A ≠ B →
    (system d).Leads (fun s a => onlyFor A s a = true) s t →
      (∀ key : Key, key.Of (jobModel s) B → t.redis.flat key.name = s.redis.flat key.name) ∧
      t.redis.slotFree B = s.redis.slotFree B ∧
      ∀ sub j text x ts, sub.model = B → (Admit.enqueueOutcome d.config t.redis sub j text x ts = .full ↔
        Admit.enqueueOutcome d.config s.redis sub j text x ts = .full) := by
  refine ⟨Key.name_injective, fun s t hr A B hAB hl => ?_⟩
  have same := (isolated_run hr hAB hl).2
  have own : ∀ key : Key, key.model = some B → t.redis.value key = s.redis.value key := fun _ hk => same _ (.inl hk)
  have inUse : t.redis.inUse B = s.redis.inUse B := Value.counter.inj (own (.slotsInUse B) rfl)
  have capacity : t.redis.capacity B = s.redis.capacity B := Value.counter.inj (own (.slotsCapacity B) rfl)
  have queue : t.redis.queue B = s.redis.queue B := Value.queue.inj (own (.queue B) rfl)
  refine ⟨fun key hk => by rw [Redis.flat_name, Redis.flat_name, same key hk], ?_, ?_⟩
  · rw [Redis.slotFree, Redis.slotFree, capacity, Redis.inUseOf, Redis.inUseOf, inUse]
  · rintro sub j text x ts rfl
    rw [Admit.enqueueOutcome, Admit.enqueueOutcome, Redis.enqueueOutcome_full, Redis.enqueueOutcome_full, queue]

end

/-- A request of `chat` is admitted and gets the only slot; the other model still has its own. -/
theorem model_isolation_run : ∃ s t, (system twoModels).Reach Machine.Any s ∧
    (system twoModels).Leads (fun s a => onlyFor "chat" s a = true) s t ∧ t.redis.slotFree "chat" = false ∧
      jobModel s "b" = some "chat:in_use" ∧
      t.redis.flat (queueKey "chat:in_use") = s.redis.flat (queueKey "chat:in_use") ∧
      t.redis.flat (jobKey "b") = s.redis.flat (jobKey "b") ∧
      t.redis.slotFree "chat:in_use" = s.redis.slotFree "chat:in_use" := by
  obtain ⟨s, hr, hb, hl⟩ := (system twoModels).reach_of_exec Machine.Any
    (admitRun 0 { chatRequest (.obj []) .null none with model := "chat:in_use" } "b" ++
      [.admission 1 (.submit (chatRequest (.obj []) .null none)), .admission 1 (.name "a")])
    (fun s => jobModel s "b" = some "chat:in_use" ∧
      ((system twoModels).exec (fun s a => onlyFor "chat" s a = true) s
        (List.replicate 5 (.admission 1 .go) ++ List.replicate 5 (.worker 0 .go))).any
        (fun t => t.redis.slotFree "chat" = false) = true) (by decide +kernel)
  obtain ⟨t, ht, hf⟩ := Machine.leads_of_any hl
  obtain ⟨same, free, -⟩ := model_isolation.2 s t hr "chat" "chat:in_use" (by decide) ht
  exact ⟨s, t, hr, ht, hf, hb, same (.queue "chat:in_use") (.inl rfl), same (.job "b") (.inr ⟨"b", rfl, hb⟩), free⟩

end AdmissionScheduler
