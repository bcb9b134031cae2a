import AdmissionScheduler.System

/-!
# What a step of each party does

For each party: the moves its steps make in the lifecycle, the stage of the job
it holds, and the parts of the store its pending command leaves alone.
-/

namespace AdmissionScheduler

/-- The job has been claimed by a worker of the model. -/
def Stage.Claimed (m : String) (x : Stage) : Prop := x = .claimed m ∨ x = .forwarded m

/-! ## Workers -/

/-- The stage of the job in the hands of a worker of `m`. -/
def Pc.At (m : String) (x : Stage) : Pc → Prop
  | waitSlot _ | claiming .. => x = .popped m
  | tracking .. | fetching _ | cleaning .. => x = .claimed m
  | forwarding .. | marking .. | publishing .. => x = .forwarded m
  | releasing .. | announcing _ => x.Claimed m
  | poll | popping | exited | crashed => True

def Pc.Sound (st : String → Stage) (m : String) (pc : Pc) : Prop := ∀ j, pc.job = some j → pc.At m (st j)

theorem Pc.Sound.congr {st st' : String → Stage} {m : String} {pc : Pc} (hs : pc.Sound st m)
    (h : ∀ j, pc.job = some j → st' j = st j) : pc.Sound st' m := by
  intro j hj; rw [h j hj]; exact hs j hj

theorem Pc.Sound.popped_or_claimed {st : String → Stage} {m : String} {pc : Pc} (h : pc.Sound st m) {j : String}
    (hj : pc.job = some j) : st j = .popped m ∨ (st j).Claimed m := by
  have ha := h j hj
  unfold Stage.Claimed
  cases pc <;> simp only [job, reduceCtorEq] at hj <;> simp only [At, Stage.Claimed] at ha <;> simp [ha]

theorem slot_job {pc : Pc} {j : String} (h : pc.slot = some j) : pc.job = some j := by
  cases pc <;> first | exact h | cases h

theorem Pc.Sound.claimed_of_slot {st : String → Stage} {m : String} {pc : Pc} (h : pc.Sound st m) {j : String}
    (hj : pc.slot = some j) : (st j).Claimed m := by
  have ha := h j (slot_job hj)
  unfold Stage.Claimed
  cases pc <;> simp only [slot, reduceCtorEq] at hj <;> simp only [At, Stage.Claimed] at ha <;> simp [ha]

theorem Pc.Sound.ne_unborn {st : String → Stage} {m : String} {pc : Pc} (h : pc.Sound st m) {j : String}
    (hj : pc.job = some j) : st j ≠ .unborn := by
  rcases h.popped_or_claimed hj with h | h | h <;> rw [h] <;> (intro h; cases h)

theorem Pc.Sound.ne_queued {st : String → Stage} {m m' : String} {pc : Pc} (h : pc.Sound st m) {j : String}
    (hj : pc.job = some j) : st j ≠ .queued m' := by
  rcases h.popped_or_claimed hj with h | h | h <;> rw [h] <;> (intro h; cases h)

section
variable {c : AppConfig} {r r' : Redis} {w w' : Worker} {a : WorkerAct} {es : List Event}

theorem Verdict.report_moves (v : Verdict) (j : String) (info : JobInfo) :
    (v.report j info).filterMap Event.move = [] := by
  cases v <;> rfl

inductive Worker.Turn (a : WorkerAct) (r r' : Redis) (w w' : Worker) (es : List Event) : Prop
  | quiet (moves : es.filterMap Event.move = []) (queue : r'.queue = r.queue)
      (job : ∀ j, w'.pc.job = some j → w.pc.job = some j)
      (sound : ∀ x, w.pc.At w.model x → w'.pc.At w.model x)
  | pop {j} (first : r.firstQueued w.model = some j)
      (moves : es.filterMap Event.move = [(j, .queued w.model, .popped w.model)])
      (redis : r' = r.popQueue w.model) (pc : w.pc = .popping)
      (pc' : w'.pc = .waitSlot j ∨ w'.pc.job = none)
  | claim {j ts t} (act : a = .go) (pc : w.pc = .claiming j ts) (pc' : w'.pc = .tracking j t)
      (moves : es.filterMap Event.move = [(j, .popped w.model, .claimed w.model)])
      (redis : r' = r.claimSlot w.model j ts) (free : r.slotFree w.model = true)
  | forward {j info e} (act : a = .go) (pc : w.pc = .fetching j) (pc' : w'.pc = .forwarding j info)
      (moves : es.filterMap Event.move = [(j, .claimed w.model, .forwarded w.model)]) (redis : r' = r)
      (hash : r.job j = some e) (payload : ∀ m k p, .forwarded m k p ∈ es → m = w.model ∧ k = j ∧ p = e.value.payload)

theorem Worker.turn_go (h : w.step c r .go = some (r', w', es)) : Worker.Turn .go r r' w w' es := by
  obtain ⟨m, stop, pc⟩ := w
  simp only [Worker.step, Option.map_eq_some_iff] at h
  obtain ⟨⟨pc', es'⟩, hr, h⟩ := h
  simp only [Prod.mk.injEq] at h
  obtain ⟨rfl, rfl, rfl⟩ := h
  cases pc with
  | poll => cases hr; exact .quiet rfl rfl (by cases stop <;> simp [Pc.job]) (by cases stop <;> simp [Pc.At])
  | popping =>
    simp only [Pc.resume, Option.map_eq_some_iff, Prod.mk.injEq] at hr
    obtain ⟨j, hj, rfl, rfl⟩ := hr
    exact .pop hj (by simp [Pc.served, hj, Event.move]) rfl rfl (.inl rfl)
  | waitSlot j => cases hr; exact .quiet rfl rfl (by cases stop <;> simp [Pc.job]) (by cases stop <;> simp [Pc.At])
  | claiming j ts =>
    cases hr
    cases hf : r.slotFree m with
    | true => exact .claim (t := r.now) rfl rfl rfl (by simp [Pc.served, hf, Event.move]) (by simp [Pc.serve, hf]) hf
    | false => exact .quiet (by simp [Pc.served, hf]) (by simp [Pc.serve, hf]) (by simp [Pc.job]) (by simp [Pc.At])
  | fetching j =>
    simp only [Pc.resume] at hr
    split at hr
    · cases hr; exact .quiet rfl rfl (by simp [Pc.job]) (by simp +contextual [Pc.At, Stage.Claimed])
    · rename_i e he
      split at hr <;> cases hr
      · exact .quiet rfl rfl (by simp [Pc.job]) (by simp [Pc.At])
      · exact .forward rfl rfl rfl rfl rfl he (by simp +contextual [Pc.served])
  | marking j info v ts => cases hr; exact .quiet rfl rfl (fun _ h => h) (fun _ h => h)
  | publishing j info v =>
    cases hr
    refine .quiet ?_ rfl (fun _ h => h) (by simp +contextual [Pc.At, Pc.afterReport, Stage.Claimed])
    rw [List.filterMap_append, v.report_moves]; rfl
  | releasing j next =>
    cases hr
    refine .quiet rfl rfl ?_ ?_ <;> cases next <;> simp +contextual [Pc.afterRelease, Pc.job, Pc.At]
  | tracking j t => cases hr; exact .quiet rfl rfl (fun _ h => h) (fun _ h => h)
  | cleaning j ts => cases hr; exact .quiet rfl rfl (fun _ h => h) (fun _ h => .inl h)
  | announcing j => cases hr; exact .quiet rfl rfl (by simp [Pc.job]) (by simp [Pc.At])
  | forwarding j info => cases hr
  | exited => cases hr
  | crashed => cases hr

/-- Without its reply a command moves a job only if it is a pop. -/
theorem Pc.served_moves (pc : Pc) (m : String) :
    (pc.served m r false).filterMap Event.move = [] ∧ (pc.serve c m r).queue = r.queue ∨
      pc = .popping ∧ ∃ j, r.firstQueued m = some j ∧
        (pc.served m r false).filterMap Event.move = [(j, .queued m, .popped m)] := by
  cases pc with
  | popping =>
    cases hj : r.firstQueued m with
    | none =>
      refine .inl ⟨by simp [served, hj], ?_⟩
      have hp : (r.queue m).popMin? = none := by simpa [Redis.firstQueued] using hj
      simp [serve, Redis.popQueue, hp]
    | some j => exact .inr ⟨rfl, j, rfl, by simp [served, hj, Event.move]⟩
  | claiming j ts =>
    left
    cases hf : r.slotFree m <;> simp [served, serve, hf, Event.move, Redis.claimSlot, Redis.hset, Redis.addInUse]
  | _ => exact .inl ⟨rfl, rfl⟩

/-- A command whose reply is lost: at most a pop of a job that nobody then holds. -/
theorem Pc.lost_turn {m : String} {pc pc' : Pc} (took : Bool) {stop : Bool} {es : List Event}
    (hes : es.filterMap Event.move = []) (hjob : ∀ j, pc'.job = some j → pc.job = some j)
    (hat : ∀ x, pc.At m x → pc'.At m x) :
    Worker.Turn a r (if took then pc.serve c m r else r) ⟨m, stop, pc⟩ ⟨m, stop, pc'⟩
      (es ++ if took then pc.served m r false else []) := by
  cases took with
  | false => exact .quiet (by simpa using hes) rfl hjob hat
  | true =>
    rcases pc.served_moves (c := c) (r := r) m with ⟨hs, hq⟩ | ⟨rfl, j, hj, hs⟩
    · exact .quiet (by simp [hes, hs]) hq hjob hat
    · refine .pop hj (by simp [hes, hs]) rfl rfl (.inr ?_)
      cases hn : pc'.job with
      | none => rfl
      | some k => exact absurd (hjob k hn) (by intro h; cases h)

theorem Worker.turn_fail {took : Bool} (h : w.step c r (.fail took) = some (r', w', es)) :
    Worker.Turn (.fail took) r r' w w' es := by
  obtain ⟨m, stop, pc⟩ := w
  simp only [Worker.step, Option.map_eq_some_iff] at h
  obtain ⟨⟨pc', es'⟩, hr, h⟩ := h
  simp only [Prod.mk.injEq] at h
  obtain ⟨rfl, rfl, rfl⟩ := h
  cases pc with
  | releasing j next =>
    cases hr
    apply Pc.lost_turn took rfl <;> cases next <;> simp +contextual [Pc.afterRelease, Pc.job, Pc.At]
  | publishing j info v =>
    cases hr
    apply Pc.lost_turn took
    · rw [List.filterMap_append, v.report_moves]; rfl
    · exact fun _ h => h
    · simp +contextual [Pc.At, Pc.afterReport, Stage.Claimed]
  | poll | waitSlot j | forwarding j info | exited | crashed => cases hr
  | _ => cases hr; exact Pc.lost_turn took rfl (by simp [Pc.job]) (by simp +contextual [Pc.At, Stage.Claimed])

theorem Worker.turn_cancel {took : Bool} (h : w.step c r (.cancel took) = some (r', w', es)) :
    Worker.Turn (.cancel took) r r' w w' es := by
  obtain ⟨m, stop, pc⟩ := w
  simp only [Worker.step, Option.ite_none_right_eq_some, Option.map_eq_some_iff] at h
  obtain ⟨-, pc', hr, h⟩ := h
  simp only [Prod.mk.injEq] at h
  obtain ⟨rfl, rfl, rfl⟩ := h
  have key : ∀ {pc₁ : Pc}, (∀ j, pc₁.job = some j → pc.job = some j) → (∀ x, pc.At m x → pc₁.At m x) →
      Worker.Turn (.cancel took) r (if took then pc.serve c m r else r) ⟨m, stop, pc⟩ ⟨m, stop, pc₁⟩
        (if took then pc.served m r false else []) := fun hj ha =>
    Pc.lost_turn took (show ([] : List Event).filterMap Event.move = [] from rfl) hj ha
  cases pc with
  | marking j info v ts | publishing j info v =>
    cases v <;> cases hr <;> exact key (by simp [Pc.job]) (by simp +contextual [Pc.At, Stage.Claimed])
  | exited | crashed => cases hr
  | _ => cases hr; exact key (by simp [Pc.job]) (by simp +contextual [Pc.At, Stage.Claimed])

theorem Worker.step_turn (h : w.step c r a = some (r', w', es)) : Worker.Turn a r r' w w' es := by
  cases a with
  | go => exact turn_go h
  | fail took => exact turn_fail h
  | cancel took => exact turn_cancel h
  | respond o =>
    obtain ⟨m, stop, pc⟩ := w
    cases pc <;> cases h
    exact .quiet rfl rfl (fun _ h => h) (fun _ h => h)
  | timeout =>
    simp only [step, Option.ite_none_right_eq_some] at h
    obtain ⟨-, h⟩ := h
    cases h; exact .quiet rfl rfl (by simp [Pc.job]) (by simp [Pc.At])
  | stop => cases h; exact .quiet rfl rfl (fun _ h => h) (fun _ h => h)
  | kill => cases h; exact .quiet rfl rfl (by simp [Pc.job]) (by simp [Pc.At])
  | start =>
    simp only [step, Option.ite_none_right_eq_some] at h
    obtain ⟨-, h⟩ := h
    cases h; exact .quiet rfl rfl (by simp [Pc.job]) (by simp [Pc.At])

theorem Worker.step_redis (h : w.step c r a = some (r', w', es)) :
    r' = r ∨ a.takes = true ∧ r' = w.pc.serve c w.model r := by
  cases a with
  | go =>
    simp only [step, Option.map_eq_some_iff, Prod.mk.injEq] at h
    obtain ⟨-, -, rfl, -⟩ := h; exact .inr ⟨rfl, rfl⟩
  | fail took =>
    simp only [step, Option.map_eq_some_iff, Prod.mk.injEq] at h
    obtain ⟨-, -, rfl, -⟩ := h; cases took <;> simp [WorkerAct.takes]
  | cancel took =>
    simp only [step, Option.ite_none_right_eq_some, Option.map_eq_some_iff, Prod.mk.injEq] at h
    obtain ⟨-, -, -, rfl, -⟩ := h; cases took <;> simp [WorkerAct.takes]
  | respond o =>
    simp only [step] at h
    split at h <;> cases h; exact .inl rfl
  | timeout | start =>
    simp only [step, Option.ite_none_right_eq_some] at h
    obtain ⟨-, h⟩ := h; cases h; exact .inl rfl
  | stop | kill => cases h; exact .inl rfl

theorem Worker.redis_of_takes (h : w.step c r a = some (r', w', es)) (ha : a.takes = true) :
    r' = w.pc.serve c w.model r := by
  cases a with
  | go =>
    simp only [step, Option.map_eq_some_iff, Prod.mk.injEq] at h
    obtain ⟨-, -, rfl, -⟩ := h; rfl
  | fail took =>
    simp only [step, Option.map_eq_some_iff, Prod.mk.injEq] at h
    obtain ⟨-, -, rfl, -⟩ := h; cases took <;> [cases ha; rfl]
  | cancel took =>
    simp only [step, Option.ite_none_right_eq_some, Option.map_eq_some_iff, Prod.mk.injEq] at h
    obtain ⟨-, -, -, rfl, -⟩ := h; cases took <;> [cases ha; rfl]
  | respond | timeout | stop | kill | start => cases ha

theorem Worker.step_model (h : w.step c r a = some (r', w', es)) : w'.model = w.model := by
  cases a with
  | go | fail took =>
    simp only [step, Option.map_eq_some_iff, Prod.mk.injEq] at h
    obtain ⟨-, -, -, rfl, -⟩ := h; rfl
  | cancel took =>
    simp only [step, Option.ite_none_right_eq_some, Option.map_eq_some_iff, Prod.mk.injEq] at h
    obtain ⟨-, -, -, -, rfl, -⟩ := h; rfl
  | respond o =>
    simp only [step] at h
    split at h <;> cases h; rfl
  | timeout | start =>
    simp only [step, Option.ite_none_right_eq_some] at h
    obtain ⟨-, h⟩ := h; cases h; rfl
  | stop | kill => cases h; rfl

theorem Pc.serve_inflight {m m' j : String} {pc : Pc} (h : j ∈ (pc.serve c m r).inflight m') :
    j ∈ r.inflight m' ∨ m' = m ∧ ∃ t, pc = .tracking j t := by
  cases pc with
  | tracking k t =>
    simp only [serve, Redis.track, Function.update_apply] at h
    split at h
    · rename_i hm
      rw [SortedSet.mem_add] at h
      rcases h with rfl | h
      · exact .inr ⟨hm, t, rfl⟩
      · rw [hm]; exact .inl h
    · exact .inl h
  | releasing k next =>
    simp only [serve, Redis.releaseSlot, Redis.removeInflight, Redis.addInUse, Function.update_apply] at h
    split at h
    · rename_i hm; rw [SortedSet.mem_remove] at h; rw [hm]; exact .inl h.2
    · exact .inl h
  | claiming k ts =>
    simp only [serve] at h
    split at h <;> exact .inl h
  | _ => exact .inl h

theorem Pc.serve_capacity (pc : Pc) (m : String) : (pc.serve c m r).capacity = r.capacity := by
  cases pc with
  | claiming j ts => simp only [serve]; split <;> rfl
  | _ => rfl

theorem Pc.serve_idem (pc : Pc) (m : String) : (pc.serve c m r).idem = r.idem := by
  cases pc with
  | claiming j ts => simp only [serve]; split <;> rfl
  | _ => rfl

theorem Pc.serve_job {m j : String} {pc : Pc} (h : pc.job ≠ some j) : (pc.serve c m r).job j = r.job j := by
  have hne : ∀ {k : String}, pc.job = some k → j ≠ k := fun hk e => h (e ▸ hk)
  cases pc with
  | claiming k ts =>
    simp only [serve]
    split
    · exact Redis.claimSlot_job_ne (hne rfl)
    · rfl
  | marking k info v ts => exact Redis.finish_job_ne (hne rfl)
  | cleaning k ts => simp only [serve]; exact Redis.hset_job_ne (hne rfl)
  | _ => rfl

end

/-! ## Admissions -/

section
variable {c : AppConfig} {sha256 : String → String} {r r' : Redis} {p p' : Admit} {a : AdmitAct} {es : List Event}

inductive Admit.Turn (r r' : Redis) (p p' : Admit) (a : AdmitAct) (es : List Event) : Prop
  | quiet (moves : es.filterMap Event.move = []) (queue : r'.queue = r.queue)
      (unborn : ∀ j, p'.unborn = some j → p.unborn = some j ∨ a = .name j)
      (admitted : ∀ q, p'.admitted = some q → p.admitted = some q)
      (job : ∀ j, (∀ q, p.admitted = some q → q.2 ≠ j) → r'.job j = r.job j)
  | file {sub j text score ts} (pc : p = .enqueueing sub j text score ts)
      (moves : es.filterMap Event.move = [(j, .unborn, .queued sub.model)])
      (queue : r'.queue = (r.addQueued sub.model j score).queue)
      (unborn : p'.unborn = none)
      (admitted : ∀ q, p'.admitted = some q → q = (sub, j) ∧ .enqueued sub.model j score sub ∈ es)
      (job : ∀ k, k ≠ j → r'.job k = r.job k)

theorem Admit.step_effect (h : p.step c sha256 r a = some (r', p', es)) :
    r' = r ∨ r' = p.serve c r ∧ ∀ e ∈ p.served c r, e ∈ es := by
  cases a with
  | submit sub =>
    simp only [step] at h
    split at h
    · split at h <;> cases h <;> exact .inl rfl
    · cases h
  | name j => simp only [step] at h; split at h <;> cases h; exact .inl rfl
  | go =>
    simp only [step, Option.map_eq_some_iff, Prod.mk.injEq] at h
    obtain ⟨-, -, rfl, -, rfl⟩ := h
    exact .inr ⟨rfl, fun e he => List.mem_append_right _ he⟩
  | fail took =>
    simp only [step, Option.map_eq_some_iff, Prod.mk.injEq] at h
    obtain ⟨-, -, rfl, -, rfl⟩ := h
    cases took
    · exact .inl rfl
    · exact .inr ⟨rfl, fun e he => List.mem_append_right _ he⟩

theorem Admit.step_sub (h : p.step c sha256 r a = some (r', p', es)) {sub : Submission} (hs : p'.sub = some sub) :
    p.sub = some sub ∨ a = .submit sub := by
  cases a with
  | submit sub₀ =>
    simp only [step] at h
    split at h
    · split at h <;> cases h <;> cases hs <;> exact .inr rfl
    · cases h
  | name j => simp only [step] at h; split at h <;> cases h; exact .inl hs
  | go =>
    simp only [step, Option.map_eq_some_iff, Prod.mk.injEq] at h
    obtain ⟨⟨p₁, es₁⟩, hr, -, rfl, -⟩ := h
    left
    cases p with
    | lookup | sequencing | enqueueing =>
      simp only [resume] at hr
      (repeat' split at hr) <;> cases hr <;> first | exact hs | cases hs
    | refusing | recording | ranking | sizing | storing => cases hr; exact hs
    | idle | naming | done | raised => cases hr
  | fail took =>
    simp only [step, Option.map_eq_some_iff, Prod.mk.injEq] at h
    obtain ⟨⟨p₁, es₁⟩, hr, -, rfl, -⟩ := h
    left
    cases p <;> cases hr <;> first | exact hs | cases hs

theorem Admit.serve_slots : (p.serve c r).inUse = r.inUse ∧ (p.serve c r).inflight = r.inflight ∧
    (p.serve c r).capacity = r.capacity := by
  cases p with
  | enqueueing sub j text score ts =>
    simp only [serve]
    cases enqueueOutcome c r sub j text score ts <;> exact ⟨rfl, rfl, rfl⟩
  | _ => exact ⟨rfl, rfl, rfl⟩

theorem Admit.step_slots (h : p.step c sha256 r a = some (r', p', es)) :
    r'.inUse = r.inUse ∧ r'.inflight = r.inflight ∧ r'.capacity = r.capacity := by
  rcases step_effect h with rfl | ⟨rfl, -⟩
  · exact ⟨rfl, rfl, rfl⟩
  · exact serve_slots

/-- The enqueue script either leaves the queue as it is or puts the job there. -/
theorem Admit.enqueue_turn {sub : Submission} {j text : String} {score : Double} {ts : Nat}
    (hes : es.filterMap Event.move = []) (hu : p'.unborn = none)
    (hq : ∀ q, p'.admitted = some q → q = (sub, j) ∧ ∃ h, enqueueOutcome c r sub j text score ts = .done h) :
    Admit.Turn r ((enqueueing sub j text score ts).serve c r) (.enqueueing sub j text score ts) p' a
      (es ++ (enqueueing sub j text score ts).served c r) := by
  cases ho : enqueueOutcome c r sub j text score ts with
  | full | refused =>
    refine .quiet (by simp [served, ho, hes]) (by simp [serve, ho, Redis.enqueueJob]) ?_ ?_
      (fun _ _ => by simp [serve, ho, Redis.enqueueJob])
    · intro k hk; rw [hu] at hk; cases hk
    · intro q h; obtain ⟨-, h₀, hd⟩ := hq q h; rw [ho] at hd; cases hd
  | misfiled =>
    refine .file rfl (by simp [served, ho, hes, Event.move]) (by simp [serve, ho, Redis.enqueueJob]) hu ?_
      fun k hk => by simp only [serve]; exact Redis.enqueueJob_job_ne hk
    intro q h; obtain ⟨-, h₀, hd⟩ := hq q h; rw [ho] at hd; cases hd
  | done h =>
    exact .file rfl (by simp [served, ho, hes, Event.move]) (by simp [serve, ho, Redis.enqueueJob, Redis.hset]) hu
      (fun q h => ⟨(hq q h).1, List.mem_append_right _ (by simp [served, ho])⟩)
      fun k hk => by simp only [serve]; exact Redis.enqueueJob_job_ne hk

theorem Admit.step_turn (h : p.step c sha256 r a = some (r', p', es)) : Admit.Turn r r' p p' a es := by
  cases a with
  | submit sub =>
    simp only [step] at h
    split at h
    · split at h <;> cases h <;> exact .quiet rfl rfl of_none of_none fun _ _ => rfl
    · cases h
  | name j =>
    simp only [step] at h
    split at h <;> cases h
    exact .quiet rfl rfl (fun k hk => .inr (by cases hk; rfl)) of_none fun _ _ => rfl
  | go =>
    simp only [step, Option.map_eq_some_iff, Prod.mk.injEq] at h
    obtain ⟨⟨p₁, es₁⟩, hr, rfl, rfl, rfl⟩ := h
    cases p with
    | enqueueing sub j text score ts =>
      simp only [resume] at hr
      split at hr
      · cases hr; exact enqueue_turn rfl rfl of_none
      · cases hr; exact enqueue_turn rfl rfl of_none
      · cases hr; exact enqueue_turn rfl rfl of_none
      · rename_i h₀ ho
        split at hr <;> cases hr <;> exact enqueue_turn rfl rfl fun q hq => ⟨(Option.some.inj hq).symm, h₀, ho⟩
    | storing sub j position =>
      cases hr
      refine .quiet rfl rfl of_none (fun _ h => h) fun k hk => ?_
      simp only [serve]; exact Redis.hset_job_ne (fun e => hk _ rfl e.symm)
    | lookup sub h =>
      simp only [resume] at hr
      split at hr <;> cases hr <;> exact .quiet rfl rfl of_none of_none fun _ _ => rfl
    | sequencing sub j =>
      simp only [resume] at hr
      split at hr
      · cases hr; exact .quiet rfl rfl of_none of_none fun _ _ => rfl
      · split at hr <;> cases hr
        · exact .quiet rfl rfl of_none of_none fun _ _ => rfl
        · exact .quiet rfl rfl (fun _ h => .inl h) of_none fun _ _ => rfl
    | refusing sub j => cases hr; exact .quiet rfl rfl of_none of_none fun _ _ => rfl
    | recording sub j h | ranking sub j | sizing sub j position =>
      cases hr; exact .quiet rfl rfl of_none (fun _ h => h) fun _ _ => rfl
    | idle | naming sub | done sub outcome | raised => cases hr
  | fail took =>
    simp only [step, Option.map_eq_some_iff, Prod.mk.injEq] at h
    obtain ⟨⟨p₁, es₁⟩, hr, rfl, rfl, rfl⟩ := h
    cases p with
    | enqueueing sub j text score ts =>
      cases hr
      cases took with
      | false => exact .quiet rfl rfl of_none of_none fun _ _ => rfl
      | true => exact enqueue_turn rfl rfl of_none
    | storing sub j position =>
      cases hr
      refine .quiet (by cases took <;> rfl) (by cases took <;> rfl) of_none (fun _ h => h) fun k hk => ?_
      cases took with
      | false => rfl
      | true => simp only [serve, if_true]; exact Redis.hset_job_ne (fun e => hk _ rfl e.symm)
    | idle | naming sub | done sub outcome | raised => cases hr
    | _ => cases hr; cases took <;> exact .quiet rfl rfl of_none of_none fun _ _ => rfl

end

/-! ## Cancel requests -/

/-- What a cancel request knows of its job once it has read the hash. -/
def Cancel.At (x : Stage) : Cancel → Prop
  | script .. | marking _ => x ≠ .unborn
  | expiring _ m => x = .cancelled m
  | idle | reading _ | announcing .. | done .. | raised => True

def Cancel.job : Cancel → Option String
  | script j _ _ | expiring j _ | marking j => some j
  | idle | reading _ | announcing .. | done .. | raised => none

def Cancel.Sound (st : String → Stage) (p : Cancel) : Prop := ∀ j, p.job = some j → p.At (st j)

section
variable {r r' : Redis} {p p' : Cancel} {a : CancelAct} {es : List Event}

inductive Cancel.Turn (r r' : Redis) (p p' : Cancel) (es : List Event) : Prop
  | quiet (moves : es.filterMap Event.move = []) (queue : r'.queue = r.queue)
      (job : ∀ j, p'.job = some j → (p.job = some j ∧ ∀ x, p.At x → p'.At x) ∨
        ((r.job j).isSome ∧ ∀ x, x ≠ .unborn → p'.At x))
  | take {j m ts} (pc : p = .script j m ts) (mem : j ∈ r.queue m)
      (moves : es.filterMap Event.move = [(j, .queued m, .cancelled m)])
      (redis : r' = r.cancelQueued m j ts) (pc' : p' = .expiring j m ∨ p' = .raised)

theorem Cancel.step_effect (h : p.step r a = some (r', p', es)) :
    r' = r ∨ a.takes = true ∧ r' = p.serve r ∧ ∀ e ∈ p.served r, e ∈ es := by
  cases a with
  | request j => simp only [step] at h; split at h <;> cases h; exact .inl rfl
  | go =>
    simp only [step, Option.map_eq_some_iff, Prod.mk.injEq] at h
    obtain ⟨-, -, rfl, -, rfl⟩ := h; exact .inr ⟨rfl, rfl, fun _ => List.mem_append_right _⟩
  | fail took =>
    simp only [step, Option.map_eq_some_iff, Prod.mk.injEq] at h
    obtain ⟨-, -, rfl, -, rfl⟩ := h; cases took <;> simp [CancelAct.takes]

theorem Cancel.redis_of_takes (h : p.step r a = some (r', p', es)) (ha : a.takes = true) : r' = p.serve r := by
  cases a with
  | request j => cases ha
  | go =>
    simp only [step, Option.map_eq_some_iff, Prod.mk.injEq] at h
    obtain ⟨-, -, rfl, -⟩ := h; rfl
  | fail took =>
    simp only [step, Option.map_eq_some_iff, Prod.mk.injEq] at h
    obtain ⟨-, -, rfl, -⟩ := h; cases took <;> [cases ha; rfl]

theorem Cancel.step_slots (h : p.step r a = some (r', p', es)) :
    r'.inUse = r.inUse ∧ r'.inflight = r.inflight ∧ r'.capacity = r.capacity := by
  rcases step_effect h with rfl | ⟨-, rfl, -⟩
  · exact ⟨rfl, rfl, rfl⟩
  · cases p with
    | script j m ts => simp only [serve]; split <;> exact ⟨rfl, rfl, rfl⟩
    | _ => exact ⟨rfl, rfl, rfl⟩

theorem Cancel.serve_idem : (p.serve r).idem = r.idem := by
  cases p with
  | script j m ts => simp only [serve]; split <;> rfl
  | _ => rfl

theorem Cancel.serve_job {j : String} (h : p.job ≠ some j) : (p.serve r).job j = r.job j := by
  have hne : ∀ {k : String}, p.job = some k → j ≠ k := fun hk e => h (e ▸ hk)
  cases p with
  | script k m ts =>
    simp only [serve]
    split
    · exact Redis.cancelQueued_job_ne (hne rfl)
    · rfl
  | expiring k m => exact Redis.expire_job_ne (hne rfl)
  | marking k => simp only [serve]; exact Redis.hset_job_ne (hne rfl)
  | _ => rfl

theorem Cancel.step_turn (h : p.step r a = some (r', p', es)) : Cancel.Turn r r' p p' es := by
  cases a with
  | request j =>
    simp only [step] at h
    split at h <;> cases h
    exact .quiet rfl rfl of_none
  | go =>
    simp only [step, Option.map_eq_some_iff, Prod.mk.injEq] at h
    obtain ⟨⟨p₁, es₁⟩, hr, rfl, rfl, rfl⟩ := h
    cases p with
    | reading j =>
      simp only [resume] at hr
      split at hr
      · cases hr; exact .quiet rfl rfl of_none
      · rename_i e he
        have hsome : (r.job j).isSome := by simp [he]
        split at hr
        · cases hr; exact .quiet rfl rfl of_none
        · split at hr <;> cases hr
          · exact .quiet rfl rfl fun k hk => .inr ⟨by cases hk; exact hsome, fun _ h => h⟩
          · exact .quiet rfl rfl fun k hk => .inr ⟨by cases hk; exact hsome, fun _ h => h⟩
    | script j m ts =>
      cases hr
      by_cases hm : j ∈ r.queue m
      · exact .take rfl hm (by simp [served, hm, Event.move]) (by simp [serve, hm]) (.inl (by simp [hm]))
      · simp only [hm, if_false, List.nil_append]
        exact .quiet (by simp [served, hm]) (by simp [serve, hm]) fun _ h => .inl ⟨h, fun _ h => h⟩
    | expiring j m => cases hr; exact .quiet rfl rfl of_none
    | announcing j m => cases hr; exact .quiet rfl rfl of_none
    | marking j => cases hr; exact .quiet rfl rfl of_none
    | idle | done j status | raised => cases hr
  | fail took =>
    simp only [step, Option.map_eq_some_iff, Prod.mk.injEq] at h
    obtain ⟨p₁, hr, rfl, rfl, rfl⟩ := h
    cases p with
    | script j m ts =>
      cases hr
      by_cases hm : took = true ∧ j ∈ r.queue m
      · obtain ⟨rfl, hm⟩ := hm
        exact .take rfl hm (by simp [served, hm, Event.move]) (by simp [serve, hm]) (.inr rfl)
      · refine .quiet ?_ ?_ of_none <;> cases took
        · rfl
        · simp at hm; simp [served, hm]
        · rfl
        · simp at hm; simp [serve, hm]
    | idle | done j status | raised => cases hr
    | _ => cases hr; cases took <;> exact .quiet rfl rfl of_none

end

/-! ## Lease scans and integrity checks -/

section
variable {c : AppConfig} {r r' : Redis} {p p' : Watcher} {a : WatchAct} {es : List Event}

/-- A task that is cancelled ends; its command may have been served. -/
theorem Watcher.step_cancel {took : Bool} (h : p.step c r (.cancel took) = some (r', p', es)) :
    p' = idle ∧ r' = (if took then p.serve r else r) ∧ es = if took then p.served else [] := by
  simp only [step, Option.ite_none_left_eq_some, Option.some.injEq, Prod.mk.injEq] at h
  obtain ⟨-, hr, hp, he⟩ := h
  exact ⟨hp.symm, hr.symm, he.symm⟩

theorem Watcher.step_redis (h : p.step c r a = some (r', p', es)) : r' = r ∨ a.takes = true ∧ r' = p.serve r := by
  cases a with
  | scan m =>
    simp only [step] at h
    split at h
    · split at h <;> cases h; exact .inl rfl
    · cases h
  | go =>
    simp only [step, Option.map_eq_some_iff, Prod.mk.injEq] at h
    obtain ⟨-, -, rfl, -⟩ := h; exact .inr ⟨rfl, rfl⟩
  | fail took =>
    simp only [step, Option.map_eq_some_iff, Prod.mk.injEq] at h
    obtain ⟨-, -, rfl, -⟩ := h; cases took <;> simp [WatchAct.takes]
  | cancel took =>
    obtain ⟨-, rfl, -⟩ := step_cancel h
    cases took <;> simp [WatchAct.takes]

theorem Watcher.redis_of_takes (h : p.step c r a = some (r', p', es)) (ha : a.takes = true) : r' = p.serve r := by
  cases a with
  | scan m => cases ha
  | go =>
    simp only [step, Option.map_eq_some_iff, Prod.mk.injEq] at h
    obtain ⟨-, -, rfl, -⟩ := h; rfl
  | fail took =>
    simp only [step, Option.map_eq_some_iff, Prod.mk.injEq] at h
    obtain ⟨-, -, rfl, -⟩ := h; cases took <;> [cases ha; rfl]
  | cancel took =>
    obtain ⟨-, rfl, -⟩ := step_cancel h
    cases took <;> [cases ha; rfl]

theorem Watcher.step_moves (h : p.step c r a = some (r', p', es)) : es.filterMap Event.move = [] := by
  cases a with
  | scan m =>
    simp only [step] at h
    split at h
    · split at h <;> cases h; rfl
    · cases h
  | go =>
    simp only [step, Option.map_eq_some_iff, Prod.mk.injEq] at h
    obtain ⟨⟨p₁, es₁⟩, hr, -, -, rfl⟩ := h
    cases p <;> cases hr <;> rfl
  | fail took =>
    simp only [step, Option.map_eq_some_iff, Prod.mk.injEq] at h
    obtain ⟨⟨p₁, es₁⟩, hr, -, -, rfl⟩ := h
    cases p <;> cases hr <;> cases took <;> rfl
  | cancel took =>
    obtain ⟨-, -, rfl⟩ := step_cancel h
    cases p <;> cases took <;> rfl

theorem Watcher.serve_queue : (p.serve r).queue = r.queue := by cases p <;> rfl

theorem Watcher.serve_capacity : (p.serve r).capacity = r.capacity := by cases p <;> rfl

theorem Watcher.serve_idem : (p.serve r).idem = r.idem := by cases p <;> rfl

theorem Watcher.serve_inflight {m j : String} (h : j ∈ (p.serve r).inflight m) : j ∈ r.inflight m := by
  cases p with
  | reclaiming m' k rest ts =>
    simp only [serve, Redis.reclaim, Redis.removeInflight, Function.update_apply] at h
    split at h
    · rename_i hm; rw [SortedSet.mem_remove] at h; rw [hm]; exact h.2
    · exact h
  | _ => exact h

theorem Watcher.serve_job {k : String} (h : ∀ q, p.pending = some q → k ∉ q.2) : (p.serve r).job k = r.job k := by
  cases p with
  | reclaiming m j rest ts =>
    exact Redis.reclaim_job_ne fun e => h _ rfl (by subst e; exact List.mem_cons_self ..)
  | _ => rfl

theorem Watcher.pending_next (m : String) (js : List String) {q : String × List String}
    (h : (next m js).pending = some q) : q = (m, js) := by
  cases js with
  | nil => cases h
  | cons j rest => exact (Option.some.inj h).symm

/-- The jobs a scan has still to look at were in flight when it read them. -/
theorem Watcher.step_pending (h : p.step c r a = some (r', p', es)) {m k : String} {js : List String}
    (hp : p'.pending = some (m, js)) (hk : k ∈ js) :
    (∃ js', p.pending = some (m, js') ∧ k ∈ js') ∨ k ∈ r.inflight m := by
  have step_next : ∀ {m₀ : String} {js₀ : List String}, p' = next m₀ js₀ → m₀ = m ∧ k ∈ js₀ := by
    rintro m₀ js₀ rfl
    cases pending_next m₀ js₀ hp
    exact ⟨rfl, hk⟩
  cases a with
  | scan m₀ =>
    simp only [step] at h
    split at h
    · split at h <;> cases h; cases hp
    · cases h
  | go =>
    simp only [step, Option.map_eq_some_iff, Prod.mk.injEq] at h
    obtain ⟨⟨p₁, es₁⟩, hr, -, rfl, -⟩ := h
    cases p with
    | idle => cases hr
    | ranging m₀ cutoff =>
      cases hr
      obtain ⟨rfl, hk⟩ := step_next rfl
      exact .inr (SortedSet.mem_of_rangeByScore hk)
    | checking m₀ j rest =>
      cases hr
      by_cases hl : (r.lease j).isSome
      · obtain ⟨rfl, hk⟩ := step_next (if_pos hl)
        exact .inl ⟨_, rfl, List.mem_cons_of_mem _ hk⟩
      · simp only [hl] at hp
        cases hp; exact .inl ⟨_, rfl, hk⟩
    | reclaiming m₀ j rest ts => cases hr; cases hp; exact .inl ⟨_, rfl, List.mem_cons_of_mem _ hk⟩
    | announcing m₀ j rest => cases hr; cases hp; exact .inl ⟨_, rfl, hk⟩
    | describing m₀ j rest =>
      cases hr
      obtain ⟨rfl, hk⟩ := step_next rfl
      exact .inl ⟨_, rfl, hk⟩
  | fail took =>
    simp only [step, Option.map_eq_some_iff, Prod.mk.injEq] at h
    obtain ⟨⟨p₁, es₁⟩, hr, -, rfl, -⟩ := h
    cases p with
    | idle => cases hr
    | ranging m₀ cutoff => cases hr; cases hp
    | checking m₀ j rest | reclaiming m₀ j rest ts =>
      cases hr
      obtain ⟨rfl, hk⟩ := step_next rfl
      exact .inl ⟨_, rfl, List.mem_cons_of_mem _ hk⟩
    | announcing m₀ j rest => cases hr; cases hp; exact .inl ⟨_, rfl, hk⟩
    | describing m₀ j rest =>
      cases hr
      obtain ⟨rfl, hk⟩ := step_next rfl
      exact .inl ⟨_, rfl, hk⟩
  | cancel took =>
    obtain ⟨rfl, -⟩ := step_cancel h
    cases hp

end

section
variable {c : AppConfig} {r r' : Redis} {p p' : Checker} {a : CheckAct} {es : List Event}

theorem Checker.step_cancel {took : Bool} (h : p.step c r (.cancel took) = some (r', p', es)) :
    p' = idle ∧ r' = (if took then p.serve r else r) ∧ es = if took then p.served else [] := by
  simp only [step, Option.ite_none_left_eq_some, Option.some.injEq, Prod.mk.injEq] at h
  obtain ⟨-, hr, hp, he⟩ := h
  exact ⟨hp.symm, hr.symm, he.symm⟩

theorem Checker.step_redis (h : p.step c r a = some (r', p', es)) : r' = r ∨ a.takes = true ∧ r' = p.serve r := by
  cases a with
  | check m =>
    simp only [step] at h
    split at h
    · split at h <;> cases h; exact .inl rfl
    · cases h
  | card | get => simp only [step] at h; split at h <;> cases h; exact .inl rfl
  | go => simp only [step] at h; split at h <;> cases h; exact .inr ⟨rfl, rfl⟩
  | fail took => cases p <;> cases h <;> cases took <;> simp [CheckAct.takes]
  | cancel took =>
    obtain ⟨-, rfl, -⟩ := step_cancel h
    cases took <;> simp [CheckAct.takes]

theorem Checker.step_moves (h : p.step c r a = some (r', p', es)) : es.filterMap Event.move = [] := by
  cases a with
  | check m =>
    simp only [step] at h
    split at h
    · split at h <;> cases h; rfl
    · cases h
  | card | get => simp only [step] at h; split at h <;> cases h; rfl
  | go => simp only [step] at h; split at h <;> cases h; rfl
  | fail took => cases p <;> cases h <;> cases took <;> rfl
  | cancel took =>
    obtain ⟨-, -, rfl⟩ := step_cancel h
    cases p <;> cases took <;> rfl

theorem Checker.serve_frame (p : Checker) (r : Redis) :
    (p.serve r).queue = r.queue ∧ (p.serve r).inflight = r.inflight ∧ (p.serve r).job = r.job ∧
      (p.serve r).idem = r.idem ∧ (p.serve r).capacity = r.capacity := by
  cases p <;> exact ⟨rfl, rfl, rfl, rfl, rfl⟩

end

end AdmissionScheduler
