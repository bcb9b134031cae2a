import AdmissionScheduler.StatusSound
import AdmissionScheduler.QueueSound

/-!
# Acknowledged cancels

A request that took its job out of the queue has the last word on it. One that
only marked the job `cancelling` has it when no worker can get at the job any
more: nothing tells the worker that has it.
-/

namespace AdmissionScheduler

/-- The job that the worker may still claim, forward or complete. -/
def Worker.undecided (w : Worker) : Option String :=
  match w.pc with
  | .waitSlot j => if w.stop then none else some j
  | .claiming j _ | .tracking j _ | .fetching j | .forwarding j _ | .marking j _ (.completed _) _ => some j
  | _ => none

/-- The job can neither be popped by a worker nor claimed, forwarded or completed by the one that has it. -/
structure OutOfReach {ι : Type} (s : State ι) (j : String) : Prop where
  queued : ∀ i, stage s.trace j ≠ .queued (s.workers i).model
  undecided : ∀ i, (s.workers i).undecided ≠ some j

theorem Worker.undecided_job {w : Worker} {j : String} (h : w.undecided = some j) : w.pc.job = some j := by
  obtain ⟨m, stop, pc⟩ := w
  cases pc with
  | waitSlot k => cases stop <;> cases h; rfl
  | marking k info v ts => cases v <;> cases h; rfl
  | claiming | tracking | fetching | forwarding => exact h
  | _ => cases h

theorem Worker.step_undecided {c : AppConfig} {r r' : Redis} {w w' : Worker} {b : WorkerAct} {es : List Event}
    {j : String} (h : w.step c r b = some (r', w', es)) (hj : w'.undecided = some j) :
    w.undecided = some j ∨ w.pc = .popping ∧ r.firstQueued w.model = some j := by
  obtain ⟨m, stop, pc⟩ := w
  cases b with
  | go =>
    simp only [Worker.step, Option.map_eq_some_iff] at h
    obtain ⟨⟨pc', es'⟩, hr, h⟩ := h
    simp only [Prod.mk.injEq] at h
    obtain ⟨-, rfl, -⟩ := h
    cases pc with
    | poll => cases hr; cases stop <;> cases hj
    | popping =>
      obtain ⟨k, hk, he⟩ := Option.map_eq_some_iff.mp hr
      cases he
      cases stop <;> cases hj
      exact .inr ⟨rfl, hk⟩
    | waitSlot k => cases hr; cases stop <;> cases hj; exact .inl rfl
    | claiming k ts =>
      cases hr
      cases hf : r.slotFree m <;> simp only [hf] at hj
      · cases stop <;> cases hj; exact .inl rfl
      · cases hj; exact .inl rfl
    | tracking k t => cases hr; cases hj; exact .inl rfl
    | fetching k =>
      simp only [Pc.resume] at hr
      split at hr
      · cases hr; cases hj
      · split at hr <;> cases hr <;> cases hj
        exact .inl rfl
    | releasing k next => cases hr; cases next <;> cases hj
    | marking | publishing | cleaning | announcing => cases hr; cases hj
    | forwarding | exited | crashed => cases hr
  | fail took =>
    simp only [Worker.step, Option.map_eq_some_iff] at h
    obtain ⟨⟨pc', es'⟩, hr, h⟩ := h
    simp only [Prod.mk.injEq] at h
    obtain ⟨-, rfl, -⟩ := h
    cases pc with
    | claiming k ts => cases hr; cases stop <;> cases hj; exact .inl rfl
    | tracking k t => cases hr; cases hj; exact .inl rfl
    | releasing k next => cases hr; cases next <;> cases hj
    | popping | fetching | marking | publishing | cleaning | announcing => cases hr; cases hj
    | poll | waitSlot | forwarding | exited | crashed => cases hr
  | cancel took =>
    simp only [Worker.step, Option.ite_none_right_eq_some, Option.map_eq_some_iff] at h
    obtain ⟨-, pc', hr, h⟩ := h
    simp only [Prod.mk.injEq] at h
    obtain ⟨-, rfl, -⟩ := h
    cases pc with
    | marking k info v ts | publishing k info v => cases v <;> cases hr <;> cases hj
    | exited | crashed => cases hr
    | _ => cases hr; cases hj
  | respond o =>
    cases pc <;> cases h
    rename_i k info
    left
    cases hv : o.verdict <;> simp only [undecided, hv] at hj <;> cases hj
    rfl
  | timeout | start =>
    simp only [step, Option.ite_none_right_eq_some] at h
    obtain ⟨-, h⟩ := h; cases h; cases hj
  | stop =>
    cases h
    cases pc with
    | marking k info v ts => cases v <;> cases hj; exact .inl rfl
    | claiming | tracking | fetching | forwarding => exact .inl hj
    | _ => cases hj
  | kill => cases h; cases hj

section
variable {ι : Type} [DecidableEq ι] {d : Deployment ι} {s s' t : State ι} {a : Action ι} {j : String}

theorem outOfReach_step (hl : Life s) (hb : stage s.trace j ≠ .unborn) (ho : OutOfReach s j)
    (h : step d s a = some s') : OutOfReach s' j := by
  have hm := stage_move (j := j) hl h
  have queued : ∀ i, stage s'.trace j ≠ .queued (s.workers i).model := by
    generalize stage s'.trace j = x at hm ⊢
    cases hm with
    | keep => exact ho.queued
    | enqueue act pc was => exact absurd was hb
    | pop | claim | forward | cancelled => nofun
  refine ⟨fun i => ?_, fun i hi => ?_⟩ <;> rcases worker_of_step h i with ⟨-, hs⟩ | ⟨b, es, -, hs, -⟩
  · rw [hs]; exact queued i
  · rw [Worker.step_model hs]; exact queued i
  · exact ho.undecided i (hs ▸ hi)
  · rcases Worker.step_undecided hs hi with hu | ⟨-, first⟩
    · exact ho.undecided i hu
    · exact ho.queued i ((hl.queue _ _).mp (Redis.firstQueued_mem first))

def Redis.called (r : Redis) (j : String) : Bool := r.status j = some .dispatched || r.status j = some .completed

theorem outOfReach_status (hl : Life s) (hp : Priorities d.config s) (hb : stage s.trace j ≠ .unborn)
    (ho : OutOfReach s j) (h : step d s a = some s') (hc : s.redis.called j = false) :
    s'.redis.called j = false := by
  have hw := status_write (j := j) hl hp h
  simp only [Redis.called] at hc ⊢
  generalize s'.redis.status j = x at hw ⊢
  cases hw with
  | keep => exact hc
  | @claim i b ts act pc => exact absurd (by rw [Worker.undecided, pc]) (ho.undecided i)
  | @mark i b info v ts act takes pc =>
    cases v with
    | completed => exact absurd (by rw [Worker.undecided, pc]) (ho.undecided i)
    | failed | cancelled => rfl
  | enqueue unborn => exact absurd unborn hb
  | purge | clean | cancelled | cancelling | reclaim => rfl

theorem outOfReach_forward (hl : Life s) (ho : OutOfReach s j) (h : step d s a = some s') :
    forwards s'.trace j = forwards s.trace j := by
  rw [forwards_eq (life_step hl h).legal, forwards_eq hl.legal]
  have hm := stage_move (j := j) hl h
  generalize stage s'.trace j = x at hm ⊢
  cases hm with
  | keep => rfl
  | @forward i act pc was redis => exact absurd (by rw [Worker.undecided, pc]) (ho.undecided i)
  | enqueue act pc was | pop act takes pc first was redis | claim act pc free was redis | cancelled act pc was redis =>
    rw [was]; rfl

/-- From here on the job is neither forwarded nor given the status `dispatched` or `completed`. -/
def Final (d : Deployment ι) (s : State ι) (j : String) : Prop :=
  ∀ t, (system d).Leads Machine.Any s t →
    forwards t.trace j = forwards s.trace j ∧ t.redis.status j ≠ some .dispatched ∧ t.redis.status j ≠ some .completed

theorem final_of_outOfReach (h : (system d).Reach Machine.Any s) (hb : stage s.trace j ≠ .unborn) (ho : OutOfReach s j)
    (hc : s.redis.called j = false) : Final d s j := by
  intro t ht
  have : OutOfReach t j ∧ t.redis.called j = false ∧ forwards t.trace j = forwards s.trace j := by
    refine ht.invariant (I := fun t => OutOfReach t j ∧ t.redis.called j = false ∧
      forwards t.trace j = forwards s.trace j) ⟨ho, hc, rfl⟩ fun u a v hu ⟨ho, hc, hf⟩ _ hs => ?_
    have hr := h.leads hu
    have hb := born_of_leads h hu hb
    exact ⟨outOfReach_step (life hr) hb ho hs, outOfReach_status (life hr) (priorities hr) hb ho hs hc,
      (outOfReach_forward (life hr) ho hs).trans hf⟩
  obtain ⟨-, hc, hf⟩ := this
  simp only [Redis.called, Bool.or_eq_false_iff, decide_eq_false_iff_not] at hc
  exact ⟨hf, hc⟩

/-! ## Jobs cancelled in the queue -/

omit [DecidableEq ι] in
theorem outOfReach_of_cancelled (hl : Life s) {m : String} (hj : stage s.trace j = .cancelled m) : OutOfReach s j where
  queued i := by rw [hj]; nofun
  undecided i hi := by
    rcases (hl.worker i).popped_or_claimed (Worker.undecided_job hi) with h | h | h <;> rw [hj] at h <;> cases h

/-- What is known of a job that was cancelled in the queue, and of a request that did it. -/
structure Withdrawn (s : State ι) : Prop where
  status : ∀ j m, stage s.trace j = .cancelled m → s.redis.called j = false
  announcing : ∀ k j m, s.cancels k = .announcing j m → stage s.trace j = .cancelled m

theorem cancelled_of_step (hl : Life s) (h : step d s a = some s') {m : String} (hj : stage s.trace j = .cancelled m) :
    stage s'.trace j = .cancelled m := by
  have hm := stage_move (j := j) hl h
  generalize stage s'.trace j = x at hm ⊢
  cases hm with
  | keep => exact hj
  | enqueue act pc was | pop act takes pc first was redis | claim act pc free was redis | forward act pc was redis
  | cancelled act pc was redis =>
    rw [hj] at was; cases was

theorem Cancel.step_announcing {r r' : Redis} {p : Cancel} {b : CancelAct} {es : List Event} {m : String}
    (h : p.step r b = some (r', .announcing j m, es)) : p = .expiring j m := by
  cases b with
  | request k => simp only [step] at h; split at h <;> cases h
  | go =>
    simp only [step, Option.map_eq_some_iff, Prod.mk.injEq] at h
    obtain ⟨⟨p₁, es₁⟩, hr, -, rfl, -⟩ := h
    cases p with
    | reading => simp only [resume] at hr; (repeat' split at hr) <;> cases hr
    | script => simp only [resume] at hr; split at hr <;> cases hr
    | expiring => cases hr; rfl
    | announcing | marking => cases hr
    | idle | done | raised => cases hr
  | fail took =>
    simp only [step, Option.map_eq_some_iff, Prod.mk.injEq] at h
    obtain ⟨p₁, hr, -, rfl, -⟩ := h
    cases p <;> cases hr

theorem withdrawn {ok : State ι → Action ι → Prop} (h : (system d).Reach ok s) : Withdrawn s := by
  refine h.invariant ⟨fun _ _ h => by (cases h), fun _ _ _ h => by (cases h)⟩ fun u a v hr hw _ hs => ?_
  have hl := life hr
  refine ⟨fun j m hj => ?_, fun k j m hk => ?_⟩
  · have hm := stage_move (j := j) hl hs
    generalize hx : stage v.trace j = x at hm
    rw [hj] at hx
    cases hm with
    | keep =>
      exact outOfReach_status hl (priorities hr) (by rw [← hx]; nofun) (outOfReach_of_cancelled hl hx.symm) hs
        (hw.status j m hx.symm)
    | @cancelled k b m' ts act pc was redis =>
      have : v.redis.status j = some .cancelled := by
        rw [redis, Redis.status]
        simp [Redis.cancelQueued, Redis.hset]
      rw [Redis.called, this]; rfl
    | enqueue | pop | claim | forward => cases hx
  · rcases cancel_of_step hs k with hk' | ⟨b, es, -, hk', -⟩
    · exact cancelled_of_step hl hs (hw.announcing k j m (hk' ▸ hk))
    · rw [hk] at hk'
      have pc := Cancel.step_announcing hk'
      have := hl.cancel k j (by rw [pc]; rfl)
      rw [pc] at this
      exact cancelled_of_step hl hs this

/-- Once a request has answered `cancelled` for a job it took out of the queue, or `cancelling` for one
that no worker will claim, forward or complete, the job is neither forwarded nor dispatched nor completed. -/
theorem acknowledged_final (h : (system d).Reach Machine.Any s) {k : Nat} (hs : step d s (.cancel k .go) = some s')
    (ack : (∃ m, s.cancels k = .announcing j m) ∨ s.cancels k = .marking j ∧ OutOfReach s j) : Final d s' j := by
  have hl := life h
  have hr' : (system d).Reach Machine.Any s' := h.next (a := .cancel k .go) trivial hs
  rcases ack with ⟨m, pc⟩ | ⟨pc, ho⟩
  · have hj := cancelled_of_step hl hs ((withdrawn h).announcing k j m pc)
    exact final_of_outOfReach hr' (by rw [hj]; nofun) (outOfReach_of_cancelled (life hr') hj)
      ((withdrawn hr').status j m hj)
  · have hb : stage s.trace j ≠ .unborn := by
      have := hl.cancel k j (by rw [pc]; rfl)
      rwa [pc] at this
    refine final_of_outOfReach hr' (born_of_step hl hs hb) (outOfReach_step hl hb ho hs) ?_
    simp only [step, Cancel.step, pc, Cancel.resume, Option.map_some, Option.some.injEq] at hs
    subst hs
    have : ((Cancel.marking j).serve s.redis).status j = some .cancelling := by
      rw [Redis.status, Cancel.serve, Redis.hset_job]; rfl
    simp only [Redis.called, this]; rfl

end

def cancelReads : List (Action (Fin 2)) := [.cancel 0 (.request "a"), .cancel 0 .go]

/-- A request answers `cancelling` for a job that waits for a slot; the worker then claims and forwards it. -/
theorem acknowledged_forwarded : ¬∀ s s' k j, (system (twoWorkers 1 (Int.le_refl 1))).Reach Machine.Any s →
    s.cancels k = .marking j → step (twoWorkers 1 (Int.le_refl 1)) s (.cancel k .go) = some s' →
    Final (twoWorkers 1 (Int.le_refl 1)) s' j := by
  intro h
  obtain ⟨s, hr, pc, hs⟩ := (system (twoWorkers 1 (Int.le_refl 1))).reach_of_exec Machine.Any
    (admitRun 0 (chatRequest (.obj []) .null none) "a" ++ cancelReads ++ List.replicate 2 (.worker 0 .go) ++
      [.cancel 0 .go])
    (fun s => s.cancels 0 = .marking "a" ∧ ((step (twoWorkers 1 (Int.le_refl 1)) s (.cancel 0 .go)).any fun s' =>
      forwards s'.trace "a" = 0 ∧ ((system (twoWorkers 1 (Int.le_refl 1))).exec Machine.Any s'
        (List.replicate 4 (.worker 0 .go))).any fun t => forwards t.trace "a" = 1) = true) (by decide +kernel)
  obtain ⟨s', hs, hf⟩ := (Option.any_eq_true _ _).mp hs
  obtain ⟨hf, ht⟩ := of_decide_eq_true hf
  obtain ⟨t, ht, hf'⟩ := Machine.leads_of_any ht
  have := (h s s' 0 "a" hr pc hs t ht).1
  rw [hf, hf'] at this; cases this

/-- The worker with the job was killed; the job that is now marked stays unfinished. -/
theorem acknowledged_final_run : ∃ s s', (system (twoWorkers 1 (Int.le_refl 1))).Reach Machine.Any s ∧
    step (twoWorkers 1 (Int.le_refl 1)) s (.cancel 0 .go) = some s' ∧ s'.cancels 0 = .done "a" (some .cancelling) ∧
      Final (twoWorkers 1 (Int.le_refl 1)) s' "a" := by
  obtain ⟨s, hr, pc, hq, hu, hs⟩ := (system (twoWorkers 1 (Int.le_refl 1))).reach_of_exec Machine.Any
    (admitRun 0 (chatRequest (.obj []) .null none) "a" ++ List.replicate 4 (.worker 0 .go) ++ [.worker 0 .kill] ++
      cancelReads)
    (fun s => s.cancels 0 = .marking "a" ∧ (∀ i, stage s.trace "a" ≠ .queued (s.workers i).model) ∧
      (∀ i, (s.workers i).undecided ≠ some "a") ∧ ((step (twoWorkers 1 (Int.le_refl 1)) s (.cancel 0 .go)).any fun s' =>
        s'.cancels 0 = .done "a" (some .cancelling)) = true) (by decide +kernel)
  obtain ⟨s', hs, hd⟩ := (Option.any_eq_true _ _).mp hs
  exact ⟨s, s', hr, hs, of_decide_eq_true hd, acknowledged_final hr hs (.inr ⟨pc, hq, hu⟩)⟩

end AdmissionScheduler
