import AdmissionScheduler.Turnover
import AdmissionScheduler.ReleaseSound

/-!
# The metrics and the statuses

`queue_wait_seconds` is observed at the dispatch and once more for a completed
job. `failure_total` and `cancel_total` are incremented by a later step than the
one that writes the status, and agree with the writes as long as every handler
that has written gets to its count and counts nothing that it has not written.
-/

namespace AdmissionScheduler

/-! ## What the events of a step count -/

/-- Neither a metric of a transition nor the log of a dispatch. -/
def Event.silent : Event → Bool
  | .metric (.queueWait _) | .metric (.requestDuration _) | .metric (.failure ..) | .metric (.cancel _)
  | .emitted .dispatched _ => false
  | _ => true

theorem Event.waits_of_silent {e : Event} (h : e.silent = true) (m : String) : e.waits m = false := by
  cases e with
  | metric x => cases x <;> first | rfl | cases h
  | _ => rfl

theorem Event.counts_of_silent {e : Event} (h : e.silent = true) (m : String) (st : JobStatus) :
    e.counts m st = false := by
  cases e with
  | metric x => cases x <;> first | rfl | cases h
  | _ => rfl

theorem countP_waits_of_silent {es : List Event} (h : ∀ e ∈ es, e.silent = true) (m : String) :
    es.countP (Event.waits m) = 0 :=
  List.countP_eq_zero.mpr fun e he => by simp [Event.waits_of_silent (h e he)]

theorem countP_counts_of_silent {es : List Event} (h : ∀ e ∈ es, e.silent = true) (m : String) (st : JobStatus) :
    es.countP (Event.counts m st) = 0 :=
  List.countP_eq_zero.mpr fun e he => by simp [Event.counts_of_silent (h e he)]

theorem count_logged_of_silent {es : List Event} (h : ∀ e ∈ es, e.silent = true) (j : String) :
    es.count (.emitted .dispatched j) = 0 :=
  List.count_eq_zero.mpr fun he => by have := h _ he; cases this

theorem Pc.served_silent (pc : Pc) (m : String) (r : Redis) (reply : Bool) : ∀ e ∈ pc.served m r reply, e.silent = true := by
  cases pc with
  | popping => simp only [served]; split <;> simp [Event.silent]
  | claiming j ts => simp only [served]; split <;> cases reply <;> simp [Event.silent]
  | releasing | publishing | announcing => simp [served, Event.silent]
  | _ => simp [served]

theorem countP_waits_report (j : String) (info : JobInfo) (v : Verdict) (m : String) :
    (v.report j info).countP (Event.waits m) = if (info.model, v.status) = (m, .completed) then 1 else 0 := by
  cases v <;> simp [Verdict.report, Verdict.status, Event.waits, List.countP_cons]

theorem countP_counts_report (j : String) (info : JobInfo) (v : Verdict) (m : String) (st : JobStatus) :
    (v.report j info).countP (Event.counts m st) = if (info.model, v.status) = (m, st) then 1 else 0 := by
  cases v <;> cases st <;> simp [Verdict.report, Verdict.status, Event.counts, List.countP_cons]

section
variable {c : AppConfig} {r r' : Redis} {w w' : Worker} {b : WorkerAct} {es : List Event} {m : String} {st : JobStatus}

/-- What the events of a worker's step say about metrics. -/
inductive Worker.Speaks (r : Redis) (w : Worker) (b : WorkerAct) (es : List Event) : Prop
  | silent (events : ∀ e ∈ es, e.silent = true) (reports : w.reports b = none) (dispatches : w.dispatches r b = none)
  | dispatch {j p} {info : JobInfo} (events : es = [.forwarded w.model j p, .metric (.queueWait info.model), .emitted .dispatched j])
      (reports : w.reports b = none) (dispatches : w.dispatches r b = some (info.model, j))
  | report {j rest} {info : JobInfo} {v : Verdict} (events : es = v.report j info ++ rest) (quiet : ∀ e ∈ rest, e.silent = true)
      (reports : w.reports b = some (info.model, v.status)) (dispatches : w.dispatches r b = none)

theorem Worker.step_speaks (h : w.step c r b = some (r', w', es)) : Worker.Speaks r w b es := by
  obtain ⟨m, stop, pc⟩ := w
  cases b with
  | go =>
    simp only [Worker.step, Option.map_eq_some_iff] at h
    obtain ⟨⟨pc', es'⟩, hr, h⟩ := h
    simp only [Prod.mk.injEq] at h
    obtain ⟨-, -, rfl⟩ := h
    have served := pc.served_silent m r true
    cases pc with
    | poll | waitSlot | claiming | tracking | marking | releasing | cleaning | announcing =>
      cases hr; exact .silent served rfl rfl
    | popping =>
      obtain ⟨k, -, he⟩ := Option.map_eq_some_iff.mp hr
      cases he; exact .silent served rfl rfl
    | fetching k =>
      simp only [Pc.resume] at hr
      split at hr
      · rename_i gone
        cases hr
        exact .silent served rfl (by simp only [dispatches, gone, Option.bind_none, Option.map_none])
      · rename_i e he
        split at hr <;> rename_i hi <;> cases hr
        · exact .silent served rfl (by simp only [dispatches, he, Option.bind_some, hi, Option.map_none])
        · exact .dispatch rfl rfl (by simp only [dispatches, he, Option.bind_some, hi, Option.map_some])
    | publishing k info v => cases hr; exact .report rfl served rfl rfl
    | forwarding | exited | crashed => cases hr
  | fail took =>
    simp only [Worker.step, Option.map_eq_some_iff] at h
    obtain ⟨⟨pc', es'⟩, hr, h⟩ := h
    simp only [Prod.mk.injEq] at h
    obtain ⟨-, -, rfl⟩ := h
    have served : ∀ e ∈ (if took then pc.served m r false else []), e.silent = true := by
      cases took with
      | false => simp
      | true => exact pc.served_silent m r false
    have error {op : String} : ∀ e ∈ Event.metric (.redisError op) :: if took then pc.served m r false else [],
        e.silent = true := List.forall_mem_cons.mpr ⟨rfl, served⟩
    cases pc with
    | popping | claiming | tracking | fetching | marking | releasing | announcing =>
      cases hr; exact .silent error rfl rfl
    | cleaning => cases hr; exact .silent served rfl rfl
    | publishing k info v =>
      cases hr
      exact .report (by rw [List.append_assoc]; rfl) error rfl rfl
    | poll | waitSlot | forwarding | exited | crashed => cases hr
  | cancel took =>
    simp only [Worker.step, Option.ite_none_right_eq_some, Option.map_eq_some_iff, Prod.mk.injEq] at h
    obtain ⟨-, pc', -, -, -, rfl⟩ := h
    refine .silent ?_ rfl rfl
    cases took with
    | false => simp
    | true => exact pc.served_silent m r false
  | respond o => cases pc <;> cases h; exact .silent (by simp) rfl rfl
  | timeout | start =>
    simp only [step, Option.ite_none_right_eq_some] at h
    obtain ⟨-, h⟩ := h; cases h; exact .silent (by simp) rfl rfl
  | stop | kill => cases h; exact .silent (by simp) rfl rfl

/-- A worker observes a wait when it dispatches a job and when it counts a completed one. -/
theorem Worker.step_waits (h : w.step c r b = some (r', w', es)) :
    es.countP (Event.waits m) = (if (w.dispatches r b).map Prod.fst = some m then 1 else 0) +
      if w.reports b = some (m, .completed) then 1 else 0 := by
  cases Worker.step_speaks h with
  | silent events reports dispatches => rw [countP_waits_of_silent events, reports, dispatches]; rfl
  | dispatch events reports dispatches =>
    rw [events, reports, dispatches]
    simp [Event.waits, List.countP_cons]
  | report events quiet reports dispatches =>
    rw [events, List.countP_append, countP_waits_of_silent quiet, countP_waits_report, reports, dispatches]
    simp

theorem Worker.step_logs (h : w.step c r b = some (r', w', es)) (j : String) :
    es.count (.emitted .dispatched j) = if (w.dispatches r b).map Prod.snd = some j then 1 else 0 := by
  cases Worker.step_speaks h with
  | silent events reports dispatches => rw [count_logged_of_silent events, dispatches]; rfl
  | dispatch events reports dispatches =>
    rw [events, dispatches]
    simp [List.count_cons]
  | @report k rest info v events quiet reports dispatches =>
    have report : (v.report k info).count (.emitted .dispatched j) = 0 := by
      cases v <;> simp [Verdict.report]
    rw [events, List.count_append, count_logged_of_silent quiet, report, dispatches]; rfl

theorem Worker.step_counts (h : w.step c r b = some (r', w', es)) :
    es.countP (Event.counts m st) = if w.reports b = some (m, st) then 1 else 0 := by
  cases Worker.step_speaks h with
  | silent events reports => rw [countP_counts_of_silent events, reports]; rfl
  | dispatch events reports =>
    rw [events, reports]
    simp [Event.counts]
  | report events quiet reports =>
    rw [events, List.countP_append, countP_counts_of_silent quiet, countP_counts_report, reports]
    simp

end

theorem Cancel.step_counts {r r' : Redis} {p p' : Cancel} {b : CancelAct} {es : List Event}
    (h : p.step r b = some (r', p', es)) (m : String) (st : JobStatus) (l : String) :
    es.countP (Event.waits m) = 0 ∧ es.countP (Event.counts m st) = (if p.reports b = some (m, st) then 1 else 0) ∧
      es.count (.emitted .dispatched l) = 0 := by
  cases b with
  | request j => cases p <;> cases h; exact ⟨rfl, rfl, rfl⟩
  | go =>
    cases p with
    | announcing j m' =>
      cases h
      cases st <;> simp [Cancel.served, reports, Event.waits, Event.counts, List.countP_cons]
    | reading j =>
      simp only [Cancel.step, Cancel.resume, Option.map_eq_some_iff] at h
      obtain ⟨⟨p₁, es₁⟩, hr, h⟩ := h
      simp only [Prod.mk.injEq] at h
      obtain ⟨-, -, rfl⟩ := h
      have : es₁ = [] := by
        split at hr
        · cases hr; rfl
        · split at hr
          · cases hr; rfl
          · split at hr <;> cases hr <;> rfl
      rw [this]; exact ⟨rfl, rfl, rfl⟩
    | script j m' ts =>
      cases h
      simp only [Cancel.served, reports]
      split <;> exact ⟨rfl, rfl, rfl⟩
    | expiring | marking => cases h; exact ⟨rfl, rfl, rfl⟩
    | idle | done | raised => cases h
  | fail took =>
    have quiet : ∀ e ∈ (if took then p.served r else []), e.silent = true := by
      cases took with
      | false => simp
      | true =>
        cases p with
        | script j m' ts => simp only [Cancel.served, if_true]; split <;> simp [Event.silent]
        | announcing => simp [Cancel.served, Event.silent]
        | _ => simp [Cancel.served]
    simp only [Cancel.step, Option.map_eq_some_iff, Prod.mk.injEq] at h
    obtain ⟨-, -, -, -, rfl⟩ := h
    exact ⟨countP_waits_of_silent quiet m, countP_counts_of_silent quiet m st, count_logged_of_silent quiet l⟩

theorem Watcher.step_counts {c : AppConfig} {r r' : Redis} {p p' : Watcher} {b : WatchAct} {es : List Event}
    (h : p.step c r b = some (r', p', es)) (m : String) (st : JobStatus) (l : String) :
    es.countP (Event.waits m) = 0 ∧ es.countP (Event.counts m st) = (if p.reports b = some (m, st) then 1 else 0) ∧
      es.count (.emitted .dispatched l) = 0 := by
  cases b with
  | scan m' =>
    simp only [Watcher.step] at h
    split at h
    · split at h <;> cases h; exact ⟨rfl, rfl, rfl⟩
    · cases h
  | go =>
    cases p with
    | announcing m' j rest =>
      cases h
      cases st <;> simp [Watcher.served, Watcher.counted, reports, Watcher.counts, Event.waits, Event.counts, List.countP_cons]
    | ranging | checking | reclaiming | describing => cases h; exact ⟨rfl, rfl, rfl⟩
    | idle => cases h
  | fail took =>
    cases p with
    | announcing m' j rest =>
      cases h
      cases took <;> cases st <;>
        simp [Watcher.served, Watcher.counted, reports, Watcher.counts, Event.waits, Event.counts, List.countP_cons]
    | ranging | checking | reclaiming | describing => cases took <;> cases h <;> exact ⟨rfl, rfl, rfl⟩
    | idle => cases h
  | cancel took =>
    obtain ⟨-, -, rfl⟩ := Watcher.step_cancel h
    cases p <;> cases took <;> exact ⟨rfl, rfl, rfl⟩

theorem Admit.served_silent (c : AppConfig) (r : Redis) (p : Admit) : ∀ e ∈ p.served c r, e.silent = true := by
  cases p with
  | enqueueing sub j text score ts => simp only [Admit.served]; split <;> simp [Event.silent]
  | storing => simp [Admit.served, Event.silent]
  | _ => simp [Admit.served]

theorem Admit.step_silent {c : AppConfig} {sha256 : String → String} {r r' : Redis} {p p' : Admit} {b : AdmitAct}
    {es : List Event} (h : p.step c sha256 r b = some (r', p', es)) : ∀ e ∈ es, e.silent = true := by
  cases b with
  | submit sub =>
    simp only [Admit.step] at h
    split at h
    · split at h <;> cases h <;> simp
    · cases h
  | name j => cases p <;> cases h; simp
  | go =>
    simp only [Admit.step, Option.map_eq_some_iff, Prod.mk.injEq] at h
    obtain ⟨⟨p₁, es₁⟩, hr, -, -, rfl⟩ := h
    refine List.forall_mem_append.mpr ⟨?_, p.served_silent c r⟩
    cases p with
    | lookup sub key =>
      simp only [Admit.resume] at hr
      split at hr <;> cases hr <;> simp [Event.silent]
    | sequencing sub j =>
      simp only [Admit.resume] at hr
      split at hr
      · cases hr; simp
      · split at hr <;> cases hr <;> simp
    | enqueueing sub j text score ts =>
      simp only [Admit.resume] at hr
      split at hr
      · cases hr; simp
      · cases hr; simp
      · cases hr; simp
      · split at hr <;> cases hr <;> simp
    | refusing | recording | ranking | sizing | storing => cases hr; simp [Event.silent]
    | idle | naming | done | raised => cases hr
  | fail took =>
    simp only [Admit.step, Option.map_eq_some_iff, Prod.mk.injEq] at h
    obtain ⟨⟨p₁, es₁⟩, hr, -, -, rfl⟩ := h
    refine List.forall_mem_append.mpr ⟨?_, ?_⟩
    · cases p <;> cases hr <;> simp [Event.silent]
    · cases took with
      | false => simp
      | true => exact p.served_silent c r

theorem Checker.step_silent {c : AppConfig} {r r' : Redis} {p p' : Checker} {b : CheckAct} {es : List Event}
    (h : p.step c r b = some (r', p', es)) : ∀ e ∈ es, e.silent = true := by
  cases b with
  | check m =>
    simp only [Checker.step] at h
    split at h
    · split at h <;> cases h; simp
    · cases h
  | card | get =>
    simp only [Checker.step] at h
    split at h <;> cases h; simp
  | go => cases p <;> cases h; simp [Checker.served, Event.silent]
  | fail took => cases p <;> cases took <;> cases h <;> simp [Checker.served, Event.silent]
  | cancel took =>
    obtain ⟨-, -, rfl⟩ := Checker.step_cancel h
    cases p <;> cases took <;> simp [Checker.served, Event.silent]

section
variable {ι : Type} [DecidableEq ι] {d : Deployment ι} {s s' : State ι} {a : Action ι} {m : String} {st : JobStatus}

/-- What a step adds to the counters. -/
theorem counters_of_step (h : step d s a = some s') (m : String) (st : JobStatus) :
    queueWaitSeconds m s'.trace = queueWaitSeconds m s.trace +
        (if (a.dispatches s).map Prod.fst = some m then 1 else 0) +
        (if a.reports s = some (m, .completed) then 1 else 0) ∧
      s'.trace.countP (Event.counts m st) = s.trace.countP (Event.counts m st) +
        if a.reports s = some (m, st) then 1 else 0 := by
  unfold queueWaitSeconds
  cases a with
  | worker i b =>
    simp only [step, Option.map_eq_some_iff] at h
    obtain ⟨⟨r', w', es⟩, hw, rfl⟩ := h
    rw [List.countP_append, List.countP_append, Worker.step_waits hw, Worker.step_counts hw]
    exact ⟨(Nat.add_comm _ _).trans (Nat.add_assoc _ _ _).symm, Nat.add_comm _ _⟩
  | cancel k b =>
    simp only [step, Option.map_eq_some_iff] at h
    obtain ⟨⟨r', p', es⟩, hp, rfl⟩ := h
    have completed : (Action.cancel k b).reports s ≠ some (m, .completed) := by
      show (s.cancels k).reports b ≠ _
      unfold Cancel.reports; split
      · split <;> simp
      · simp
    rw [List.countP_append, List.countP_append, (Cancel.step_counts hp m st "").1, (Cancel.step_counts hp m st "").2.1,
      if_neg completed]
    exact ⟨Nat.zero_add _, Nat.add_comm _ _⟩
  | watch k b =>
    simp only [step, Option.map_eq_some_iff] at h
    obtain ⟨⟨r', p', es⟩, hp, rfl⟩ := h
    have completed : (Action.watch k b).reports s ≠ some (m, .completed) := by
      show (s.watchers k).reports b ≠ _
      unfold Watcher.reports Watcher.counts; cases s.watchers k <;> cases b <;> simp
    rw [List.countP_append, List.countP_append, (Watcher.step_counts hp m st "").1, (Watcher.step_counts hp m st "").2.1,
      if_neg completed]
    exact ⟨Nat.zero_add _, Nat.add_comm _ _⟩
  | admission k b =>
    simp only [step, Option.ite_none_right_eq_some, Option.map_eq_some_iff] at h
    obtain ⟨-, ⟨r', p', es⟩, hp, rfl⟩ := h
    have quiet := Admit.step_silent hp
    rw [List.countP_append, List.countP_append, countP_waits_of_silent quiet, countP_counts_of_silent quiet]
    exact ⟨Nat.zero_add _, Nat.zero_add _⟩
  | check k b =>
    simp only [step, Option.map_eq_some_iff] at h
    obtain ⟨⟨r', p', es⟩, hp, rfl⟩ := h
    have quiet := Checker.step_silent hp
    rw [List.countP_append, List.countP_append, countP_waits_of_silent quiet, countP_counts_of_silent quiet]
    exact ⟨Nat.zero_add _, Nat.zero_add _⟩
  | tick δ => cases h; exact ⟨rfl, rfl⟩

/-- The dispatches that a step logs. -/
theorem logs_of_step (h : step d s a = some s') (j : String) : s'.trace.count (.emitted .dispatched j) =
    s.trace.count (.emitted .dispatched j) + if (a.dispatches s).map Prod.snd = some j then 1 else 0 := by
  cases a with
  | worker i b =>
    simp only [step, Option.map_eq_some_iff] at h
    obtain ⟨⟨r', w', es⟩, hw, rfl⟩ := h
    rw [List.count_append, Worker.step_logs hw]
    exact Nat.add_comm _ _
  | cancel k b =>
    simp only [step, Option.map_eq_some_iff] at h
    obtain ⟨⟨r', p', es⟩, hp, rfl⟩ := h
    rw [List.count_append, (Cancel.step_counts hp "" .failed j).2.2]
    exact Nat.zero_add _
  | watch k b =>
    simp only [step, Option.map_eq_some_iff] at h
    obtain ⟨⟨r', p', es⟩, hp, rfl⟩ := h
    rw [List.count_append, (Watcher.step_counts hp "" .failed j).2.2]
    exact Nat.zero_add _
  | admission k b =>
    simp only [step, Option.ite_none_right_eq_some, Option.map_eq_some_iff] at h
    obtain ⟨-, ⟨r', p', es⟩, hp, rfl⟩ := h
    rw [List.count_append, count_logged_of_silent (Admit.step_silent hp)]
    exact Nat.zero_add _
  | check k b =>
    simp only [step, Option.map_eq_some_iff] at h
    obtain ⟨⟨r', p', es⟩, hp, rfl⟩ := h
    rw [List.count_append, count_logged_of_silent (Checker.step_silent hp)]
    exact Nat.zero_add _
  | tick δ => cases h; rfl

end

/-! ## Writes and counts of one handler -/

section
variable {c : AppConfig} {r r' : Redis} {es : List Event} {q : String × JobStatus}

theorem Worker.step_owes {w w' : Worker} {b : WorkerAct} (hq : q.2 ≠ .completed) (ok : w.countsOnce b = true)
    (h : w.step c r b = some (r', w', es)) :
    (if w'.pc.counts = some q then 1 else 0) + (if w.reports b = some q then 1 else 0) =
      (if w.pc.counts = some q then 1 else 0) + if w.writes b = some q then 1 else 0 := by
  obtain ⟨m, stop, pc⟩ := w
  -- an outcome that is completed is not the one in question
  have other {info : JobInfo} {x : Json} : ((info.model, (Verdict.completed x).status) = q) = False :=
    eq_false fun h => hq (by rw [← h]; rfl)
  cases b with
  | go =>
    simp only [Worker.step, Option.map_eq_some_iff, Prod.mk.injEq] at h
    obtain ⟨⟨pc', es'⟩, hr, -, rfl, -⟩ := h
    cases pc with
    | poll | waitSlot => cases hr; cases stop <;> rfl
    | popping =>
      obtain ⟨k, -, he⟩ := Option.map_eq_some_iff.mp hr
      cases he; rfl
    | claiming j ts => cases hr; simp only; split <;> rfl
    | fetching j =>
      simp only [Pc.resume] at hr
      split at hr
      · cases hr; rfl
      · split at hr <;> cases hr <;> rfl
    | releasing j next => cases hr; cases next <;> rfl
    | tracking | announcing => cases hr; rfl
    | marking j info v ts => cases hr; exact Nat.add_comm _ _
    | publishing j info v => cases hr; exact Nat.add_comm _ _
    | cleaning => cases ok
    | forwarding | exited | crashed => cases hr
  | fail took =>
    simp only [Worker.step, Option.map_eq_some_iff, Prod.mk.injEq] at h
    obtain ⟨⟨pc', es'⟩, hr, -, rfl, -⟩ := h
    cases pc with
    | popping | claiming | tracking | fetching | announcing => cases hr; cases took <;> rfl
    | releasing j next => cases hr; cases next <;> cases took <;> rfl
    | marking j info v ts =>
      cases hr
      cases v with
      | completed x => cases took <;> simp [Pc.counts, Worker.reports, Worker.writes, Pc.writes, WorkerAct.takes, other]
      | failed | cancelled =>
        simp only [Worker.countsOnce] at ok
        subst ok; exact Nat.add_comm _ _
    | publishing j info v =>
      cases hr
      cases took <;> exact Nat.add_comm _ _
    | cleaning =>
      cases hr
      cases took with
      | false => rfl
      | true => cases ok
    | poll | waitSlot | forwarding | exited | crashed => cases hr
  | cancel took =>
    simp only [Worker.step, Option.ite_none_right_eq_some, Option.map_eq_some_iff, Prod.mk.injEq] at h
    obtain ⟨-, pc', hr, -, rfl, -⟩ := h
    cases pc with
    | marking j info v ts =>
      cases v with
      | completed x =>
        cases hr
        cases took <;> simp [Pc.counts, Worker.reports, Worker.writes, Pc.writes, WorkerAct.takes, other]
      | failed | cancelled =>
        cases hr
        simp only [Worker.countsOnce, Bool.not_eq_true'] at ok
        subst ok; rfl
    | publishing j info v =>
      cases v with
      | completed x =>
        cases hr
        cases took <;> simp [Pc.counts, Worker.reports, Worker.writes, Pc.writes, WorkerAct.takes, other]
      | failed | cancelled => cases ok
    | cleaning j ts =>
      cases hr
      cases took with
      | false => rfl
      | true => cases ok
    | exited | crashed => cases hr
    | poll | popping | waitSlot | claiming | tracking | fetching | forwarding | releasing | announcing =>
      cases hr; cases took <;> rfl
  | respond o => cases pc <;> cases h; rfl
  | timeout =>
    simp only [step, Option.ite_none_right_eq_some] at h
    obtain ⟨⟨rfl, -⟩, h⟩ := h; cases h; rfl
  | start =>
    simp only [step, Option.ite_none_right_eq_some] at h
    obtain ⟨rfl | rfl, h⟩ := h <;> cases h <;> rfl
  | stop => cases h; rfl
  | kill =>
    cases h
    cases pc with
    | publishing j info v =>
      cases v with
      | completed x => simp [Pc.counts, Worker.reports, Worker.writes, WorkerAct.takes, other]
      | failed | cancelled => cases ok
    | _ => rfl

theorem Cancel.step_owes {p p' : Cancel} {b : CancelAct} (ok : p.countsOnce r b = true)
    (h : p.step r b = some (r', p', es)) :
    (if p'.owes = some q then 1 else 0) + (if p.reports b = some q then 1 else 0) =
      (if p.owes = some q then 1 else 0) + if p.writes r b = some q then 1 else 0 := by
  cases b with
  | request j => cases p <;> cases h; rfl
  | go =>
    simp only [Cancel.step, Option.map_eq_some_iff, Prod.mk.injEq] at h
    obtain ⟨⟨p₁, es₁⟩, hr, -, rfl, -⟩ := h
    cases p with
    | reading j =>
      simp only [Cancel.resume] at hr
      split at hr
      · cases hr; rfl
      · split at hr
        · cases hr; rfl
        · split at hr <;> cases hr <;> rfl
    | script j m ts =>
      cases hr
      by_cases hm : j ∈ r.queue m
      · simp [hm, Cancel.owes, Cancel.writes, Cancel.reports, CancelAct.takes]
      · simp [hm, Cancel.owes, Cancel.writes, Cancel.reports]
    | expiring j m => cases hr; rfl
    | announcing j m => cases hr; exact Nat.add_comm _ _
    | marking j => cases hr; rfl
    | idle | done | raised => cases hr
  | fail took =>
    simp only [Cancel.step, Option.map_eq_some_iff, Prod.mk.injEq] at h
    obtain ⟨p₁, hr, -, rfl, -⟩ := h
    cases p with
    | script j m ts =>
      cases hr
      cases took with
      | false => simp [Cancel.owes, Cancel.writes, Cancel.reports, CancelAct.takes]
      | true =>
        have hm : j ∉ r.queue m := by simpa [Cancel.countsOnce] using ok
        simp [hm, Cancel.owes, Cancel.writes, Cancel.reports]
    | expiring | announcing => cases ok
    | reading | marking => cases hr; rfl
    | idle | done | raised => cases hr

theorem Watcher.next_counts (m : String) (js : List String) : (next m js).counts = none := by cases js <;> rfl

theorem Watcher.step_owes {p p' : Watcher} {b : WatchAct} (ok : p.countsOnce b = true)
    (h : p.step c r b = some (r', p', es)) :
    (if p'.counts = some q then 1 else 0) + (if p.reports b = some q then 1 else 0) =
      (if p.counts = some q then 1 else 0) + if p.writes b = some q then 1 else 0 := by
  cases b with
  | scan m =>
    simp only [Watcher.step] at h
    split at h
    · split at h <;> cases h; rfl
    · cases h
  | go =>
    simp only [Watcher.step, Option.map_eq_some_iff, Prod.mk.injEq] at h
    obtain ⟨⟨p₁, es₁⟩, hr, -, rfl, -⟩ := h
    cases p with
    | ranging m cutoff => cases hr; rw [Watcher.next_counts]; rfl
    | checking m j rest =>
      cases hr
      simp only
      split
      · rw [Watcher.next_counts]; rfl
      · rfl
    | reclaiming m j rest ts => cases hr; exact Nat.add_comm _ _
    | announcing m j rest => cases hr; exact Nat.add_comm _ _
    | describing m j rest => cases hr; rw [Watcher.next_counts]; rfl
    | idle => cases hr
  | fail took =>
    simp only [Watcher.step, Option.map_eq_some_iff, Prod.mk.injEq] at h
    obtain ⟨⟨p₁, es₁⟩, hr, -, rfl, -⟩ := h
    cases p with
    | ranging m cutoff => cases hr; rfl
    | checking m j rest => cases hr; rw [Watcher.next_counts]; rfl
    | reclaiming m j rest ts =>
      cases hr
      cases took with
      | false => rw [Watcher.next_counts]; rfl
      | true => cases ok
    | announcing m j rest => cases hr; exact Nat.add_comm _ _
    | describing m j rest => cases hr; rw [Watcher.next_counts]; rfl
    | idle => cases hr
  | cancel took =>
    obtain ⟨rfl, -⟩ := Watcher.step_cancel h
    cases p with
    | reclaiming m j rest ts =>
      cases took with
      | false => rfl
      | true => cases ok
    | announcing => cases ok
    | idle | ranging | checking | describing => rfl

end

section
variable {ι : Type} [DecidableEq ι] {d : Deployment ι} {s s' : State ι} {a : Action ι} {m : String} {st : JobStatus}

def writer (m : String) (st : JobStatus) (b : Contribution ι) : Option (Handler ι) :=
  if b.writes = some (m, st) then some b.handler else none

def reporter (m : String) (st : JobStatus) (b : Contribution ι) : Option (Handler ι) :=
  if b.reports = some (m, st) then some b.handler else none

omit [DecidableEq ι] in
theorem count_toList_ite [DecidableEq (Handler ι)] {P : Prop} [Decidable P] (x p : Handler ι) :
    (if P then some x else none).toList.count p = if x = p then if P then 1 else 0 else 0 := by
  by_cases hP : P
  · by_cases hx : x = p <;> simp [hP, hx]
  · simp [hP]

theorem owed_other (h : step d s a = some s') {p : Handler ι} (other : a.handler ≠ p) : owed m st s' p = owed m st s p := by
  cases p with
  | worker i =>
    rcases worker_of_step h i with ⟨-, same⟩ | ⟨b, -, rfl, -⟩
    · simp only [owed, same]
    · exact absurd rfl other
  | cancel k =>
    rcases cancel_of_step h k with same | ⟨b, -, rfl, -⟩
    · simp only [owed, same]
    · exact absurd rfl other
  | watch k =>
    rcases watcher_of_step h k with ⟨-, same⟩ | ⟨b, -, rfl, -⟩
    · simp only [owed, same]
    · exact absurd rfl other
  | admission | check | clock => rfl

/-- What a step opens and closes for a handler. -/
theorem owed_step (hst : st ≠ .completed) (ok : countsOnce s a = true) (h : step d s a = some s') (p : Handler ι) :
    owed m st s' p + (reporter m st (contribution s a)).toList.count p =
      owed m st s p + (writer m st (contribution s a)).toList.count p := by
  unfold reporter writer
  rw [count_toList_ite, count_toList_ite]
  by_cases own : (contribution s a).handler = p
  · rw [if_pos own, if_pos own]
    subst own
    cases a with
    | worker i b =>
      rcases worker_of_step h i with ⟨other, -⟩ | ⟨b', es, hb, hw, -⟩
      · exact absurd rfl (other b)
      · cases hb; exact Worker.step_owes hst ok hw
    | cancel k b =>
      simp only [step, Option.map_eq_some_iff] at h
      obtain ⟨⟨r', p', es⟩, hp, hs⟩ := h
      obtain rfl : s'.cancels k = p' := by rw [← hs]; exact Function.update_self ..
      exact Cancel.step_owes ok hp
    | watch k b =>
      rcases watcher_of_step h k with ⟨other, -⟩ | ⟨b', es, hb, hp, -⟩
      · exact absurd rfl (other b)
      · cases hb; exact Watcher.step_owes ok hp
    | admission | check | tick => rfl
  · rw [if_neg own, if_neg own, owed_other h own]

/-! ## The counters of a run -/

variable {l : List (Contribution ι)} {ok : State ι → Action ι → Prop}

omit [DecidableEq ι] in
theorem countP_contribution {γ : Type} [DecidableEq γ] (f : Contribution ι → Option γ) (q : γ) (b : Contribution ι)
    (l : List (Contribution ι)) : (b :: l).countP (fun c => f c = some q) =
      l.countP (fun c => f c = some q) + if f b = some q then 1 else 0 := by
  simp [List.countP_cons]

/-- Each counter is the number of the steps that count. -/
theorem counter_eq (h : (accounted d).Reach (fun s a => ok s.1 a) (s, l)) :
    s.trace.countP (Event.counts m st) = l.countP fun b => b.reports = some (m, st) := by
  refine h.invariant (I := fun s => s.1.trace.countP (Event.counts m st) = s.2.countP fun b => b.reports = some (m, st))
    rfl fun u a v _ hu _ hs => ?_
  obtain ⟨hs, hl⟩ := Machine.recording_step hs
  rw [hl, countP_contribution Contribution.reports, (counters_of_step hs m st).2, hu]
  rfl

/-- The waits observed are one for each dispatch and one more for each completion that is counted. -/
theorem waits_eq (h : (accounted d).Reach (fun s a => ok s.1 a) (s, l)) :
    queueWaitSeconds m s.trace = l.countP (fun b => b.dispatches.map Prod.fst = some m) + completions l m := by
  refine h.invariant (I := fun s => queueWaitSeconds m s.1.trace =
    s.2.countP (fun b => b.dispatches.map Prod.fst = some m) + completions s.2 m) rfl fun u a v _ hu _ hs => ?_
  obtain ⟨hs, hl⟩ := Machine.recording_step hs
  unfold completions at hu ⊢
  rw [hl, countP_contribution Contribution.reports, countP_contribution fun b => b.dispatches.map Prod.fst,
    (counters_of_step hs m .completed).1, hu]
  exact (Nat.add_assoc _ _ _).trans (Nat.add_add_add_comm _ _ _ _)

theorem logged_eq (h : (accounted d).Reach (fun s a => ok s.1 a) (s, l)) (j : String) :
    s.trace.count (.emitted .dispatched j) = l.countP fun b => b.dispatches.map Prod.snd = some j := by
  refine h.invariant (I := fun s => s.1.trace.count (.emitted .dispatched j) =
    s.2.countP fun b => b.dispatches.map Prod.snd = some j) rfl fun u a v _ hu _ hs => ?_
  obtain ⟨hs, hl⟩ := Machine.recording_step hs
  rw [hl, countP_contribution fun b => b.dispatches.map Prod.snd, logs_of_step hs, hu]
  rfl

/-- The jobs that count as dispatched are those whose dispatch is in the log. -/
theorem exists_mem_dispatched (h : (accounted d).Reach (fun s a => ok s.1 a) (s, l)) (j : String) :
    (∃ m, j ∈ dispatched l m) ↔ .emitted .dispatched j ∈ s.trace := by
  rw [← List.count_pos_iff, logged_eq h, List.countP_pos_iff]
  simp only [dispatched, List.mem_toFinset, List.mem_map, List.mem_filter, List.mem_filterMap, decide_eq_true_eq,
    Option.map_eq_some_iff]
  constructor
  · rintro ⟨m, q, ⟨⟨b, hb, hq⟩, -⟩, rfl⟩
    exact ⟨b, hb, q, hq, rfl⟩
  · rintro ⟨b, hb, q, hq, rfl⟩
    exact ⟨q.1, q, ⟨⟨b, hb, hq⟩, rfl⟩, rfl⟩

/-- A job whose dispatch is logged has been forwarded in that step. -/
theorem rank_of_dispatch (hl : Life s) (h : step d s a = some s') {q : String × String} (hq : a.dispatches s = some q) :
    (stage s.trace q.2).rank < 4 ∧ 4 ≤ (stage s'.trace q.2).rank := by
  cases a with
  | worker i b =>
    rcases worker_of_step h i with ⟨other, -⟩ | ⟨b', es, hb, hw, trace⟩
    · exact absurd rfl (other b)
    cases hb
    simp only [Action.dispatches] at hq
    cases Worker.step_speaks hw with
    | silent _ _ dispatches => rw [dispatches] at hq; cases hq
    | report _ _ _ dispatches => rw [dispatches] at hq; cases hq
    | @dispatch j p info events reports dispatches =>
      rw [dispatches] at hq
      cases hq
      have pc : (s.workers i).pc = .fetching j := by
        cases b <;> simp only [Worker.dispatches] at dispatches <;> try cases dispatches
        cases pc : (s.workers i).pc <;> rw [pc] at dispatches <;> try cases dispatches
        simp only [Option.map_eq_some_iff] at dispatches
        obtain ⟨_, -, e⟩ := dispatches
        rw [(Prod.mk.inj e).2]
      have was := hl.worker i j (by rw [pc]; rfl)
      rw [pc] at was
      have forwarded : .forwarded (s.workers i).model j p ∈ s'.trace := by rw [trace, events]; simp
      refine ⟨?_, Lifecycle.rank_le_of_mem (L := jobLifecycle) (life_step hl h).legal forwarded rfl⟩
      show (stage s.trace j).rank < 4
      rw [show stage s.trace j = .claimed _ from was]
      exact Nat.lt_succ_self 3
  | admission | cancel | watch | check | tick => cases hq

theorem rank_dispatched (h : (accounted d).Reach (fun s a => ok s.1 a) (s, l)) :
    (∀ q ∈ l.filterMap Contribution.dispatches, 4 ≤ (stage s.trace q.2).rank) ∧
      ((l.filterMap Contribution.dispatches).map Prod.snd).Nodup := by
  refine h.invariant (I := fun s => (∀ q ∈ s.2.filterMap Contribution.dispatches, 4 ≤ (stage s.1.trace q.2).rank) ∧
    ((s.2.filterMap Contribution.dispatches).map Prod.snd).Nodup) ⟨by simp [accounted, Machine.recording], by
      simp [accounted, Machine.recording]⟩ fun u a v hr hu _ hs => ?_
  obtain ⟨hs, hl⟩ := Machine.recording_step hs
  have life := life hr.forget
  obtain ⟨es, trace⟩ := events_of_step hs
  have legal := (life_step life hs).legal
  have keep : ∀ j, 4 ≤ (stage u.1.trace j).rank → 4 ≤ (stage v.1.trace j).rank := by
    intro j hj
    rw [trace] at legal ⊢
    exact Lifecycle.stage_append_keep (L := jobLifecycle) (P := fun x => 4 ≤ x.rank)
      (fun hm hx => hx.trans (jobLifecycle.rank_lt hm).le) legal hj
  cases hq : a.dispatches u.1 with
  | none =>
    have same : v.2.filterMap Contribution.dispatches = u.2.filterMap Contribution.dispatches := by
      rw [hl]; exact List.filterMap_cons_none hq
    rw [same]
    exact ⟨fun q hq => keep _ (hu.1 q hq), hu.2⟩
  | some q =>
    have more : v.2.filterMap Contribution.dispatches = q :: u.2.filterMap Contribution.dispatches := by
      rw [hl]; exact List.filterMap_cons_some hq
    obtain ⟨before, after⟩ := rank_of_dispatch life hs hq
    rw [more, List.map_cons, List.nodup_cons]
    refine ⟨List.forall_mem_cons.mpr ⟨after, fun q hq => keep _ (hu.1 q hq)⟩, fun mem => ?_, hu.2⟩
    obtain ⟨q', hq', same⟩ := List.mem_map.mp mem
    exact absurd (same ▸ hu.1 q' hq') (Nat.not_le.mpr before)

/-- Every job is dispatched at most once. -/
theorem card_dispatched (h : (accounted d).Reach (fun s a => ok s.1 a) (s, l)) :
    (dispatched l m).card = l.countP fun b => b.dispatches.map Prod.fst = some m := by
  have nodup := (rank_dispatched h).2
  unfold dispatched
  rw [List.toFinset_card_of_nodup (nodup.sublist (List.filter_sublist.map _)), List.length_map,
    ← List.countP_eq_length_filter, List.countP_filterMap]
  refine List.countP_congr fun b _ => ?_
  cases b.dispatches <;> simp

/-! ## The writes and the store -/

omit [DecidableEq ι] in
theorem Redis.expire_status (r : Redis) (j j' : String) (ttl : Nat) : (r.expire j ttl).status j' = r.status j' := by
  by_cases hj : j' = j
  · subst hj
    simp only [status, expire, Function.update_self]
    cases r.job j' <;> rfl
  · rw [status, status, expire_job_ne hj]

/-- A status that is written is the status of a job afterwards. -/
theorem status_of_writes (h : step d s a = some s') (hw : a.writes s = some (m, st)) :
    ∃ j, s'.redis.status j = some st := by
  cases a with
  | worker i b =>
    simp only [step, Option.map_eq_some_iff] at h
    obtain ⟨⟨r', w', es⟩, hs, rfl⟩ := h
    simp only [Action.writes, Worker.writes, Option.ite_none_right_eq_some] at hw
    obtain ⟨takes, hw⟩ := hw
    simp only [Worker.redis_of_takes hs takes]
    cases pc : (s.workers i).pc <;> rw [pc] at hw <;> cases hw
    · exact ⟨_, Redis.finish_status ..⟩
    · exact ⟨_, by rw [Pc.serve, Redis.status, Redis.hset_job]; rfl⟩
  | cancel k b =>
    simp only [step, Option.map_eq_some_iff] at h
    obtain ⟨⟨r', p', es⟩, hs, rfl⟩ := h
    simp only [Action.writes] at hw
    cases pc : s.cancels k <;> rw [pc] at hw hs <;>
      simp only [Cancel.writes, Option.ite_none_right_eq_some, reduceCtorEq] at hw
    obtain ⟨⟨takes, mem⟩, hw⟩ := hw
    cases hw
    simp only [Cancel.redis_of_takes hs takes, Cancel.serve, if_pos mem]
    exact ⟨_, Redis.cancelQueued_status ..⟩
  | watch k b =>
    simp only [step, Option.map_eq_some_iff] at h
    obtain ⟨⟨r', p', es⟩, hs, rfl⟩ := h
    simp only [Action.writes] at hw
    cases pc : s.watchers k <;> rw [pc] at hw hs <;>
      simp only [Watcher.writes, Option.ite_none_right_eq_some, reduceCtorEq] at hw
    obtain ⟨takes, hw⟩ := hw
    cases hw
    simp only [Watcher.redis_of_takes hs takes]
    exact ⟨_, Redis.reclaim_status ..⟩
  | admission | check | tick => cases hw

/-- A job gets a terminal status that it did not have only from a step that writes it. -/
theorem writes_of_status (hl : Life s) (hp : Priorities d.config s) (h : step d s a = some s') {j : String}
    (ht : st.terminal = true) (was : s.redis.status j ≠ some st) (now : s'.redis.status j = some st) :
    ∃ m, a.writes s = some (m, st) := by
  have hw := status_write (j := j) hl hp h
  rw [now] at hw
  generalize hx : some st = x at hw
  cases hw with
  | keep => exact absurd hx.symm was
  | purge | claim | cancelling | enqueue => cases hx <;> cases ht
  | mark act takes pc =>
    cases hx; subst act
    simp only [Action.writes, Worker.writes, takes, pc, if_true]
    exact ⟨_, rfl⟩
  | @clean i b ts act pc =>
    cases hx; subst act
    simp only [step, Option.map_eq_some_iff] at h
    obtain ⟨⟨r', w', es⟩, hs, rfl⟩ := h
    rcases Worker.step_redis hs with rfl | ⟨takes, -⟩
    · exact absurd now was
    · simp only [Action.writes, Worker.writes, takes, pc, if_true]
      exact ⟨_, rfl⟩
  | @cancelled k b m act =>
    cases hx; subst act
    simp only [step, Option.map_eq_some_iff] at h
    obtain ⟨⟨r', p', es⟩, hs, rfl⟩ := h
    rcases Cancel.step_effect hs with rfl | ⟨takes, rfl, -⟩
    · exact absurd now was
    have own : (s.cancels k).job = some j := by
      by_contra hj
      exact was (by rw [← now, Redis.status, Redis.status, Cancel.serve_job hj])
    cases pc : s.cancels k with
    | script j' m' ts =>
      rw [pc] at now own
      cases own
      by_cases mem : j ∈ s.redis.queue m'
      · refine ⟨m', ?_⟩
        simp only [Action.writes, pc, Cancel.writes, takes, mem, and_self, if_true]
      · rw [Cancel.serve, if_neg mem] at now
        exact absurd now was
    | marking j' =>
      rw [pc] at now own
      cases own
      rw [Cancel.serve, Redis.status, Redis.hset_job] at now
      cases now
    | expiring j' m' =>
      rw [pc] at now
      exact absurd ((Redis.expire_status ..).symm.trans now) was
    | _ => rw [pc] at now; exact absurd now was
  | reclaim act takes pc =>
    cases hx; subst act
    simp only [Action.writes, pc, Watcher.writes, takes, if_true]
    exact ⟨_, rfl⟩

/-! ## Every transition is counted once -/

/-- As long as every step counts once, a counter agrees with the writes whenever no handler is between the two. -/
theorem counted_eq_written (hst : st ≠ .completed) (once : ∀ s a, ok s a → countsOnce s a = true)
    (h : (accounted d).Reach (fun s a => ok s.1 a) (s, l)) (rest : ∀ p, owed m st s p = 0) :
    s.trace.countP (Event.counts m st) = written l m st := by
  have init : ∀ p, owed m st (system d).init p = 0 := by
    intro p; cases p <;> rfl
  have balance : (l.filterMap (writer m st)).length = (l.filterMap (reporter m st)).length :=
    h.length_opens init (fun s a _ _ ha hs p => owed_step hst (once s a ha) hs p) rest
  rw [List.length_filterMap_eq_countP, List.length_filterMap_eq_countP] at balance
  rw [counter_eq h, written]
  have opens : l.countP (fun b => (writer m st b).isSome) = l.countP fun b => b.writes = some (m, st) :=
    List.countP_congr fun b _ => by unfold writer; split <;> simp_all
  have closes : l.countP (fun b => (reporter m st b).isSome) = l.countP fun b => b.reports = some (m, st) :=
    List.countP_congr fun b _ => by unfold reporter; split <;> simp_all
  rw [← opens, ← closes, balance]

end

/-- The waits agree with the dispatched jobs in every run, as long as no completion is counted; the failures
and the cancellations agree with the writes in every run whose steps count once. -/
theorem metrics_exact {ι : Type} [DecidableEq ι] (d : Deployment ι) :
    (∀ s l, (accounted d).Reach Machine.Any (s, l) → ∀ m,
      queueWaitSeconds m s.trace = (dispatched l m).card ↔ completions l m = 0) ∧
    ∀ s l, (accounted d).Reach (fun s a => countsOnce s.1 a = true) (s, l) → ∀ m,
      ((∀ p, owed m .failed s p = 0) → failureTotal m s.trace = written l m .failed) ∧
        ((∀ p, owed m .cancelled s p = 0) → cancelTotal m s.trace = written l m .cancelled) := by
  constructor
  · intro s l h m
    have h : (accounted d).Reach (fun s a => Machine.Any s.1 a) (s, l) := h
    rw [waits_eq h, card_dispatched h]
    exact Nat.add_eq_left
  · intro s l h m
    have once : ∀ (s : State ι) a, countsOnce s a = true → countsOnce s a = true := fun _ _ ha => ha
    exact ⟨counted_eq_written (by simp) once h, counted_eq_written (by simp) once h⟩

/-! ## Runs -/

section
variable {ι : Type} [DecidableEq ι] {d : Deployment ι} {s : State ι} {l : List (Contribution ι)} {ok : State ι → Action ι → Prop}

/-- At most one cancel request and one watcher take part. -/
def fewHandlers {ι : Type} : Action ι → Bool
  | .cancel k _ | .watch k _ => k = 0
  | _ => true

theorem owed_absent {p : Handler ι} (away : ∀ s a, ok s a → a.handler ≠ p) (h : (accounted d).Reach (fun s a => ok s.1 a) (s, l))
    (m : String) (st : JobStatus) : owed m st s p = 0 := by
  refine h.invariant (I := fun s => owed m st s.1 p = 0) (by cases p <;> rfl) fun u a v _ hu ha hs => ?_
  rw [owed_other (Machine.recording_step hs).1 (away _ _ ha), hu]

/-- When few handlers take part, only the workers and the two of them can be between a write and its count. -/
theorem settled_of_few (few : ∀ s a, ok s a → fewHandlers a = true) (h : (accounted d).Reach (fun s a => ok s.1 a) (s, l))
    (workers : ∀ i, (s.workers i).pc.counts = none) (cancel : (s.cancels 0).owes = none)
    (watcher : (s.watchers 0).counts = none) (m : String) (st : JobStatus) (p : Handler ι) : owed m st s p = 0 := by
  cases p with
  | worker i => simp only [owed, workers i, reduceCtorEq, if_false]
  | cancel k =>
    by_cases hk : k = 0
    · simp only [owed, hk, cancel, reduceCtorEq, if_false]
    · refine owed_absent (fun u a ha other => ?_) h m st
      have := few u a ha
      cases a <;> cases other
      exact hk (of_decide_eq_true this)
  | watch k =>
    by_cases hk : k = 0
    · simp only [owed, hk, watcher, reduceCtorEq, if_false]
    · refine owed_absent (fun u a ha other => ?_) h m st
      have := few u a ha
      cases a <;> cases other
      exact hk (of_decide_eq_true this)
  | admission | check | clock => rfl

end

/-- A job is completed, one is cleaned up, and one is cancelled by a request that then fails. -/
def miscounts {ι : Type} (i : ι) : List (Action ι) :=
  admitRun 0 (chatRequest (.obj []) .null none) "a" ++ List.replicate 6 (.worker i .go) ++
    [.worker i (.respond (.ok (.obj [])))] ++ List.replicate 3 (.worker i .go) ++
    admitRun 1 (chatRequest (.obj []) .null none) "b" ++ List.replicate 5 (.worker i .go) ++ [.worker i (.fail false)] ++
    List.replicate 3 (.worker i .go) ++
    admitRun 2 (chatRequest (.obj []) .null none) "c" ++
      [.cancel 0 (.request "c"), .cancel 0 .go, .cancel 0 .go, .cancel 0 (.fail false)]

/-- In one run none of the three counters agrees: two waits for one dispatch, no failure for one job that is set to
`failed` and no cancellation for one that is set to `cancelled`. -/
theorem transitions_miscounted : ¬∀ s l, (accounted (oneWorker 300)).Reach Machine.Any (s, l) → ∀ m,
    (∀ st p, owed m st s p = 0) → queueWaitSeconds m s.trace = (dispatched l m).card ∨
      failureTotal m s.trace = written l m .failed ∨ cancelTotal m s.trace = written l m .cancelled := by
  intro h
  obtain ⟨⟨s, l⟩, hr, workers, cancel, watcher, waits, failures, cancels⟩ := (accounted (oneWorker 300)).reach_of_exec
    (fun _ a => fewHandlers a = true) (miscounts 0)
    (fun s => (∀ i, (s.1.workers i).pc.counts = none) ∧ (s.1.cancels 0).owes = none ∧ (s.1.watchers 0).counts = none ∧
      queueWaitSeconds "chat" s.1.trace ≠ (dispatched s.2 "chat").card ∧
      failureTotal "chat" s.1.trace ≠ written s.2 "chat" .failed ∧
      cancelTotal "chat" s.1.trace ≠ written s.2 "chat" .cancelled) (by decide +kernel)
  have few : ∀ (_ : State (Fin 1)) (a : Action (Fin 1)), fewHandlers a = true → fewHandlers a = true := fun _ _ ha => ha
  have rest := settled_of_few few hr workers cancel watcher "chat"
  rcases h s l (hr.any) "chat" rest with hw | hf | hc
  · exact waits hw
  · exact failures hf
  · exact cancels hc

/-- A job whose forward fails and one that is cancelled while it is queued are counted once. -/
theorem metrics_exact_run : ∃ s l, (accounted (oneWorker 300)).Reach (fun s a => countsOnce s.1 a = true) (s, l) ∧
    written l "chat" .failed = 1 ∧ written l "chat" .cancelled = 1 ∧
    queueWaitSeconds "chat" s.trace = (dispatched l "chat").card ∧
    failureTotal "chat" s.trace = written l "chat" .failed ∧ cancelTotal "chat" s.trace = written l "chat" .cancelled := by
  obtain ⟨⟨s, l⟩, hr, workers, cancel, watcher, failed, cancelled, completed⟩ :=
    (accounted (oneWorker 300)).reach_of_exec (fun s a => countsOnce s.1 a = true ∧ fewHandlers a = true)
      (admitRun 0 (chatRequest (.obj []) .null none) "a" ++ List.replicate 6 (.worker 0 .go) ++
        [.worker 0 (.respond (.connect "refused"))] ++ List.replicate 3 (.worker 0 .go) ++
        admitRun 1 (chatRequest (.obj []) .null none) "b" ++ .cancel 0 (.request "b") :: List.replicate 4 (.cancel 0 .go))
      (fun s => (∀ i, (s.1.workers i).pc.counts = none) ∧ (s.1.cancels 0).owes = none ∧ (s.1.watchers 0).counts = none ∧
        written s.2 "chat" .failed = 1 ∧ written s.2 "chat" .cancelled = 1 ∧ completions s.2 "chat" = 0) (by decide +kernel)
  have few : ∀ (u : State (Fin 1)) (a : Action (Fin 1)), countsOnce u a = true ∧ fewHandlers a = true →
      fewHandlers a = true := fun _ _ ha => ha.2
  have rest := settled_of_few few hr workers cancel watcher "chat"
  have once : (accounted (oneWorker 300)).Reach (fun s a => countsOnce s.1 a = true) (s, l) := hr.mono fun _ _ ha => ha.1
  have counts := (metrics_exact (oneWorker 300)).2 s l once "chat"
  exact ⟨s, l, once, failed, cancelled,
    ((metrics_exact (oneWorker 300)).1 s l (hr.any) "chat").mpr completed,
    counts.1 (rest .failed), counts.2 (rest .cancelled)⟩

end AdmissionScheduler
