import AdmissionScheduler.QueueSound

/-!
# How many go first

`admit` answers with the position of the job in its queue. From then on, and for
as long as the job waits, the queue loses at most that many jobs to the workers,
and one more for each job that came in after and went ahead of it.
-/

namespace AdmissionScheduler

def Event.pops (m : String) : Event → Bool
  | .popped n _ => n = m
  | _ => false

/-- A job comes in that goes, or may go, ahead of `j` with score `x`; of a misfiled one the trace has no score. -/
def Event.mayPass (m : String) (x : Double) (j : String) : Event → Bool
  | .enqueued n k y _ => n = m ∧ Before (y, k) (x, j)
  | .misfiled n _ => n = m
  | _ => false

theorem pops_eq {m : String} {es : List Event} :
    es.countP (Event.pops m) = (es.filterMap Event.move).countP fun q => q.2.2 = .popped m := by
  rw [List.countP_filterMap]
  congr
  funext e
  cases e <;> simp [Event.pops, Event.move]

/-- From `s` to `t` the job stays in the queue; the jobs popped and those still ahead are no more than were ahead
and have come in ahead. -/
def Overtaken {ι : Type} (m : String) (x : Double) (j : String) (s t : State ι) : Prop :=
  ∃ es, t.trace = es ++ s.trace ∧ (x, j) ∈ (t.redis.queue m).entries ∧
    es.countP (Event.pops m) + (t.redis.queue m).ahead x j ≤
      (s.redis.queue m).ahead x j + es.countP (Event.mayPass m x j)

section
variable {ι : Type} {m j : String} {x : Double} {s s' t : State ι} {es : List Event}

theorem Overtaken.refl (hx : (x, j) ∈ (s.redis.queue m).entries) : Overtaken m x j s s := by
  refine ⟨[], rfl, hx, ?_⟩
  rw [List.countP_nil, List.countP_nil, Nat.zero_add, Nat.add_zero]

theorem Overtaken.trans (h : Overtaken m x j s s') (h' : Overtaken m x j s' t) : Overtaken m x j s t := by
  obtain ⟨es, htrace, -, hle⟩ := h
  obtain ⟨es', htrace', hx, hle'⟩ := h'
  refine ⟨es' ++ es, by rw [htrace', htrace, List.append_assoc], hx, ?_⟩
  rw [List.countP_append, List.countP_append]
  omega

theorem Overtaken.still (hx : (x, j) ∈ (s.redis.queue m).entries) (trace : s'.trace = es ++ s.trace)
    (moves : (es.filterMap Event.move).countP (fun q => q.2.2 = .popped m) = 0)
    (queue : s'.redis.queue m = s.redis.queue m) : Overtaken m x j s s' := by
  refine ⟨es, trace, queue ▸ hx, ?_⟩
  rw [pops_eq, moves, queue]
  omega

theorem Overtaken.pop {k : String} {y : Double} {q : SortedSet Double String} (hx : (x, j) ∈ (s.redis.queue m).entries)
    (hj : j ∈ s'.redis.queue m) (trace : s'.trace = es ++ s.trace)
    (moves : es.filterMap Event.move = [(k, .queued m, .popped m)]) (min : (s.redis.queue m).popMin? = some (y, k, q))
    (queue : s'.redis.queue m = q) : Overtaken m x j s s' := by
  subst queue
  have stays : (x, j) ∈ (s'.redis.queue m).entries := by
    rw [SortedSet.entries_of_popMin min] at hx
    rcases List.mem_cons.mp hx with he | hx
    · cases he
      exact absurd hj (SortedSet.popped_notMem min)
    · exact hx
  refine ⟨es, trace, stays, ?_⟩
  rw [pops_eq, moves, SortedSet.ahead_of_popMin min stays, List.countP_singleton]
  simp only [decide_true, if_true]
  omega

theorem Overtaken.add {k : String} {y : Double} (hx : (x, j) ∈ (s.redis.queue m).entries) (hne : k ≠ j)
    (trace : s'.trace = es ++ s.trace) (moves : es.filterMap Event.move = [(k, .unborn, .queued m)])
    (queue : s'.redis.queue m = (s.redis.queue m).add k y)
    (arrives : Before (y, k) (x, j) → ∃ e ∈ es, Event.mayPass m x j e = true) : Overtaken m x j s s' := by
  have stays : (x, j) ∈ ((s.redis.queue m).add k y).entries := by
    have hmem : j ∈ (s.redis.queue m).add k y := SortedSet.mem_add.mpr (.inr ((SortedSet.mem_iff _).mpr ⟨x, hx⟩))
    obtain ⟨y', hy⟩ := (SortedSet.mem_iff _).mp hmem
    rcases SortedSet.mem_entries_add hy with he | he
    · cases he
      exact absurd rfl hne
    · exact SortedSet.score_unique he hx ▸ hy
  refine ⟨es, trace, queue ▸ stays, ?_⟩
  rw [pops_eq, moves, queue, List.countP_singleton, if_neg (by simp), Nat.zero_add]
  refine SortedSet.ahead_add_le.trans (Nat.add_le_add_left ?_ _)
  split
  · exact List.countP_pos_iff.mpr (arrives ‹_›)
  · exact Nat.zero_le _

theorem Overtaken.remove {k : String} (hx : (x, j) ∈ (s.redis.queue m).entries) (hj : j ∈ s'.redis.queue m)
    (trace : s'.trace = es ++ s.trace) (moves : es.filterMap Event.move = [(k, .queued m, .cancelled m)])
    (queue : s'.redis.queue m = (s.redis.queue m).remove k) : Overtaken m x j s s' := by
  rw [queue] at hj
  have stays : (x, j) ∈ ((s.redis.queue m).remove k).entries :=
    List.mem_filter.mpr ⟨hx, decide_eq_true (SortedSet.mem_remove.mp hj).1⟩
  refine ⟨es, trace, queue ▸ stays, ?_⟩
  rw [pops_eq, moves, queue, List.countP_singleton, if_neg (by simp), Nat.zero_add]
  exact Nat.le_add_right_of_le SortedSet.ahead_remove_le

end

section
variable {ι : Type} [DecidableEq ι] {d : Deployment ι} {s s' t : State ι} {a : Action ι} {m j : String} {x : Double}

/-- One step of whoever it is, while the job stays in the queue. -/
theorem overtaken_step (hl : Life s) (h : step d s a = some s') (hx : (x, j) ∈ (s.redis.queue m).entries)
    (hj : j ∈ s'.redis.queue m) : Overtaken m x j s s' := by
  cases a with
  | worker i b =>
    simp only [step, Option.map_eq_some_iff] at h
    obtain ⟨⟨r', w', es⟩, hw, rfl⟩ := h
    cases Worker.step_turn hw with
    | quiet moves queue => exact .still hx rfl (by rw [moves]; rfl) (congrFun queue m)
    | pop first moves redis =>
      obtain ⟨⟨y, k, q⟩, min, rfl⟩ := Option.map_eq_some_iff.mp first
      by_cases hm : (s.workers i).model = m
      · subst hm
        exact .pop hx hj rfl moves min (by simp [redis, Redis.popQueue, min])
      · exact .still hx rfl (by simp [moves, hm]) (by simp [redis, Redis.popQueue, Ne.symm hm])
    | claim act pc pc' moves redis => exact .still hx rfl (by rw [moves]; rfl) (by rw [redis]; rfl)
    | forward act pc pc' moves redis => exact .still hx rfl (by rw [moves]; rfl) (by rw [redis])
  | admission k b =>
    simp only [step, Option.ite_none_right_eq_some, Option.map_eq_some_iff] at h
    obtain ⟨-, ⟨r', p', es⟩, hp, rfl⟩ := h
    cases Admit.step_turn hp with
    | quiet moves queue => exact .still hx rfl (by rw [moves]; rfl) (congrFun queue m)
    | @file sub k' text y ts pc moves queue =>
      by_cases hm : sub.model = m
      · subst hm
        have hne : k' ≠ j := by
          rintro rfl
          have queued := (hl.queue _ _).mp ((SortedSet.mem_iff _).mpr ⟨x, hx⟩)
          rw [(hl.unborn k k' (by rw [pc]; rfl)).2] at queued
          cases queued
        have added : r'.queue sub.model = (s.redis.queue sub.model).add k' y := by
          rw [queue]
          simp [Redis.addQueued]
        rcases Admit.step_effect hp with rfl | ⟨hr, served⟩
        · exact .still hx rfl (by rw [moves]; rfl) rfl
        rw [pc] at hr served
        cases ho : Admit.enqueueOutcome d.config s.redis sub k' text y ts with
        | full | refused =>
          refine .still hx rfl (by rw [moves]; rfl) ?_
          simp only [hr, Admit.serve, ho, Redis.enqueueJob]
        | misfiled =>
          have logged := served (.misfiled sub.model k') (by simp [Admit.served, ho])
          exact .add hx hne rfl moves added fun _ => ⟨_, logged, by simp [Event.mayPass]⟩
        | done hash =>
          have logged := served (.enqueued sub.model k' y sub) (by simp [Admit.served, ho])
          exact .add hx hne rfl moves added fun hb => ⟨_, logged, by simp [Event.mayPass, hb]⟩
      · exact .still hx rfl (by rw [moves]; rfl) (by rw [queue]; simp [Redis.addQueued, Ne.symm hm])
  | cancel k b =>
    simp only [step, Option.map_eq_some_iff] at h
    obtain ⟨⟨r', p', es⟩, hp, rfl⟩ := h
    cases Cancel.step_turn hp with
    | quiet moves queue => exact .still hx rfl (by rw [moves]; rfl) (congrFun queue m)
    | @take k' n ts pc mem moves redis =>
      by_cases hm : n = m
      · subst hm
        exact .remove hx hj rfl moves (by simp [redis, Redis.cancelQueued, Redis.hset, Redis.removeQueued])
      · refine .still hx rfl (by rw [moves]; rfl) ?_
        simp [redis, Redis.cancelQueued, Redis.hset, Redis.removeQueued, Ne.symm hm]
  | watch k b =>
    simp only [step, Option.map_eq_some_iff] at h
    obtain ⟨⟨r', p', es⟩, hp, rfl⟩ := h
    refine .still hx rfl (by rw [Watcher.step_moves hp]; rfl) ?_
    rcases Watcher.step_redis hp with rfl | ⟨-, rfl⟩
    · rfl
    · exact congrFun Watcher.serve_queue m
  | check k b =>
    simp only [step, Option.map_eq_some_iff] at h
    obtain ⟨⟨r', p', es⟩, hp, rfl⟩ := h
    refine .still hx rfl (by rw [Checker.step_moves hp]; rfl) ?_
    rcases Checker.step_redis hp with rfl | ⟨-, rfl⟩
    · rfl
    · exact congrFun (Checker.serve_frame (s.checkers k) s.redis).1 m
  | tick δ => cases h; exact .refl hx

/-- A job comes into its queue once. -/
theorem was_queued_of_step (hl : Life s) (h : step d s a = some s') (hb : stage s.trace j ≠ .unborn)
    (hj : j ∈ s'.redis.queue m) : j ∈ s.redis.queue m := by
  have queued := ((life_step hl h).queue m j).mp hj
  rw [hl.queue]
  have moved := stage_move (j := j) hl h
  generalize stage s'.trace j = y at moved queued
  cases moved with
  | keep => exact queued
  | enqueue act pc was => exact absurd was hb
  | pop | claim | forward | cancelled => cases queued

theorem was_queued_of_leads (hr : (system d).Reach Machine.Any s) (hl : (system d).Leads Machine.Any s t)
    (hb : stage s.trace j ≠ .unborn) (hj : j ∈ t.redis.queue m) : j ∈ s.redis.queue m := by
  refine hl.invariant (I := fun u => j ∈ u.redis.queue m → j ∈ s.redis.queue m) id (fun u b v hu ih _ hs hv => ?_) hj
  exact ih (was_queued_of_step (life (hr.leads hu)) hs (born_of_leads hr hu hb) hv)

/-- However the steps fall, a queued job is overtaken only by jobs that come in with a smaller score. -/
theorem overtaking_bounded (hr : (system d).Reach Machine.Any s) (hl : (system d).Leads Machine.Any s t)
    (hx : (x, j) ∈ (s.redis.queue m).entries) (hj : j ∈ t.redis.queue m) : Overtaken m x j s t := by
  have hb : stage s.trace j ≠ .unborn := by
    rw [((life hr).queue m j).mp ((SortedSet.mem_iff _).mpr ⟨x, hx⟩)]
    exact nofun
  refine hl.invariant (I := fun u => j ∈ u.redis.queue m → Overtaken m x j s u) (fun _ => .refl hx)
    (fun u b v hu ih _ hs hv => ?_) hj
  have lu := life (hr.leads hu)
  have before := ih (was_queued_of_step lu hs (born_of_leads hr hu hb) hv)
  have hxu : (x, j) ∈ (u.redis.queue m).entries := by
    obtain ⟨-, -, hxu, -⟩ := before
    exact hxu
  exact before.trans (overtaken_step lu hs hxu hv)

/-- **The position bounds the wait.** A call reads the position `n` of its job. For as long as the job waits in its
queue, the jobs popped since then and the jobs still ahead are together at most `n` and the jobs that have come in
since and may go ahead. -/
theorem position_bounds_wait {k : Nat} {sub : Submission} {u : State ι} (hr : (system d).Reach Machine.Any s)
    (pc : s.admits k = .ranking sub j) (h : step d s (.admission k .go) = some u)
    (hl : (system d).Leads Machine.Any u t) (hj : j ∈ t.redis.queue sub.model) :
    ∃ n x i es, u.admits k = .sizing sub j n ∧ (x, j) ∈ (u.redis.queue sub.model).entries ∧
      (t.redis.queue sub.model).rank? j = some i ∧ t.trace = es ++ u.trace ∧
      es.countP (Event.pops sub.model) + i ≤ n + es.countP (Event.mayPass sub.model x j) := by
  have next : (system d).step s (.admission k .go) = some u := h
  have hu : (system d).Reach Machine.Any u := hr.next trivial next
  have read : u.redis = s.redis ∧ u.admits k = .sizing sub j (((s.redis.queue sub.model).rank? j).getD 0) := by
    simp only [step, AdmitAct.issues, pc, Admit.step, Admit.resume, Option.map_some, List.not_mem_nil, false_implies,
      implies_true, if_true, Option.some.injEq] at h
    subst h
    exact ⟨rfl, Function.update_self ..⟩
  have born : stage u.trace j ≠ .unborn := (life hu).admitted k (sub, j) (by rw [read.2]; rfl)
  obtain ⟨x, hx⟩ := (SortedSet.mem_iff _).mp (was_queued_of_leads hu hl born hj)
  obtain ⟨es, trace, hxt, hle⟩ := overtaking_bounded hu hl hx hj
  have rank : (s.redis.queue sub.model).rank? j = some ((u.redis.queue sub.model).ahead x j) := by
    rw [← read.1]
    exact SortedSet.rank?_eq hx
  refine ⟨_, x, _, es, read.2, hx, SortedSet.rank?_eq hxt, trace, ?_⟩
  rw [rank]
  exact hle

end

/-- `b` is told position 1; a worker takes `a`, and `c` comes in with a smaller score. -/
theorem position_bounds_wait_run : ∃ u t n x i es,
    (system (twoWorkers 1 (Int.le_refl 1))).Leads Machine.Any u t ∧
    u.admits 1 = .sizing (chatRequest (.obj []) .null none) "b" n ∧ t.trace = es ++ u.trace ∧
      (t.redis.queue "chat").rank? "b" = some i ∧
      es.countP (Event.pops "chat") + i ≤ n + es.countP (Event.mayPass "chat" x "b") := by
  obtain ⟨s, hr, pc, hs⟩ := (system (twoWorkers 1 (Int.le_refl 1))).reach_of_exec Machine.Any
    (admitRun 0 (chatRequest (.obj []) .null none) "a" ++ (admitRun 1 (chatRequest (.obj []) .null none) "b").take 4)
    (fun s => s.admits 1 = .ranking (chatRequest (.obj []) .null none) "b" ∧
      ((step (twoWorkers 1 (Int.le_refl 1)) s (.admission 1 .go)).any fun u =>
        ((system (twoWorkers 1 (Int.le_refl 1))).exec Machine.Any u
          (List.replicate 2 (.worker 0 .go) ++ admitRun 2 (chatRequest (.obj []) (.int 1) none) "c")).any
            fun t => decide ("b" ∈ t.redis.queue "chat")) = true) (by decide +kernel)
  obtain ⟨u, hu, ht⟩ := (Option.any_eq_true _ _).mp hs
  obtain ⟨t, ht, hb⟩ := (Option.any_eq_true _ _).mp ht
  have hl := Machine.leads_of_exec ht
  obtain ⟨n, x, i, es, read, -, rank, trace, hle⟩ := position_bounds_wait hr pc hu hl (of_decide_eq_true hb)
  exact ⟨u, t, n, x, i, es, hl, read, trace, rank, hle⟩

end AdmissionScheduler
