import AdmissionScheduler.Commands
import AdmissionScheduler.SlotSound

/-!
# Where a job is

A job is in one queue, in one worker's hands or past its claim, and never in two
of these at a time. The dead letters of a model are jobs that one of its workers
claimed and whose slot a lease scan gave back.
-/

namespace AdmissionScheduler

variable {ι : Type} [DecidableEq ι] {d : Deployment ι} {s s' : State ι}

/-! ## Dead letters -/

theorem Pc.serve_dlq (c : AppConfig) (r : Redis) (pc : Pc) (m : String) : (pc.serve c m r).dlq = r.dlq := by
  cases pc with
  | claiming j ts =>
    simp only [serve]
    split <;> rfl
  | _ => rfl

theorem Admit.serve_dlq (c : AppConfig) (r : Redis) (p : Admit) : (p.serve c r).dlq = r.dlq := by
  cases p with
  | enqueueing sub j text score ts =>
    simp only [serve]
    cases enqueueOutcome c r sub j text score ts <;> rfl
  | _ => rfl

theorem Cancel.serve_dlq (r : Redis) (p : Cancel) : (p.serve r).dlq = r.dlq := by
  cases p with
  | script j m ts =>
    simp only [serve]
    split <;> rfl
  | _ => rfl

theorem Checker.serve_dlq (r : Redis) (p : Checker) : (p.serve r).dlq = r.dlq := by cases p <;> rfl

theorem Watcher.serve_dlq {r : Redis} {p : Watcher} {m j : String} (h : j ∈ (p.serve r).dlq m) :
    j ∈ r.dlq m ∨ ∃ rest ts, p = .reclaiming m j rest ts := by
  cases p with
  | reclaiming m' k rest ts =>
    by_cases hm : m = m'
    · subst hm
      simp only [serve, Redis.reclaim, Function.update_self, Finset.mem_insert] at h
      rcases h with rfl | h
      · exact .inr ⟨rest, ts, rfl⟩
      · exact .inl h
    · simp only [serve, Redis.reclaim, Function.update_of_ne hm] at h
      exact .inl h
  | _ => exact .inl h

omit [DecidableEq ι] in
theorem Life.claimed_event (hl : Life s) {m j : String} (h : (stage s.trace j).Claimed m) :
    .claimed m j ∈ s.trace := by
  rcases h with h | h
  · obtain ⟨e, he, y, hm⟩ := Lifecycle.exists_move_of_stage (L := jobLifecycle) h nofun
    cases e <;> cases hm
    exact he
  · obtain ⟨e, he, y, hm⟩ := Lifecycle.exists_move_of_stage (L := jobLifecycle) h nofun
    cases e <;> cases hm
    exact claimed_of_forwarded hl.legal he

theorem stage_of_claimed {t : List Event} (hl : LegalTrace t) {m j : String} (h : .claimed m j ∈ t) :
    (stage t j).Claimed m := by
  have hrank : (3 : Nat) ≤ (stage t j).rank := Lifecycle.rank_le_of_mem (L := jobLifecycle) hl h rfl
  have hsame : ∀ m', .claimed m' j ∈ t → m' = m := by
    intro m' h'
    have huniq := Lifecycle.crosses_unique (n := 2) (k := j) hl h' h (Lifecycle.crosses_iff.mpr ⟨_, _, rfl, rfl⟩)
      (Lifecycle.crosses_iff.mpr ⟨_, _, rfl, rfl⟩)
    cases huniq
    rfl
  cases hs : stage t j with
  | claimed m' =>
    obtain ⟨e, he, y, hm⟩ := Lifecycle.exists_move_of_stage (L := jobLifecycle) hs nofun
    cases e <;> cases hm
    rw [hsame m' he]
    exact .inl rfl
  | forwarded m' =>
    obtain ⟨e, he, y, hm⟩ := Lifecycle.exists_move_of_stage (L := jobLifecycle) hs nofun
    cases e <;> cases hm
    rw [hsame m' (claimed_of_forwarded hl he)]
    exact .inr rfl
  | unborn | queued m' | popped m' | cancelled m' =>
    rw [hs] at hrank
    simp [Stage.rank] at hrank

/-- The job was claimed for the model, and a slot was given back for it. -/
def DeadLetter (s : State ι) (m j : String) : Prop := .claimed m j ∈ s.trace ∧ .decremented m j ∈ s.trace

theorem DeadLetter.step {a : Action ι} {m j : String} (hd : DeadLetter s m j)
    (h : AdmissionScheduler.step d s a = some s') : DeadLetter s' m j := ⟨mem_of_step h hd.1, mem_of_step h hd.2⟩

theorem deadLetter_step {a : Action ι} (hl : Life s) (hd : ∀ m j, j ∈ s.redis.dlq m → DeadLetter s m j)
    (h : step d s a = some s') : ∀ m j, j ∈ s'.redis.dlq m → DeadLetter s' m j := by
  have hserved := storeAfter_of_step h
  generalize s'.redis = r at hserved
  intro m j hj
  cases hserved with
  | quiet => exact (hd m j hj).step h
  | worker i =>
    rw [Pc.serve_dlq] at hj
    exact (hd m j hj).step h
  | admission k =>
    rw [Admit.serve_dlq] at hj
    exact (hd m j hj).step h
  | cancel k =>
    rw [Cancel.serve_dlq] at hj
    exact (hd m j hj).step h
  | check k =>
    rw [Checker.serve_dlq] at hj
    exact (hd m j hj).step h
  | tick δ => exact (hd m j hj).step h
  | watch k events =>
    rcases Watcher.serve_dlq hj with hold | ⟨rest, ts, hpc⟩
    · exact (hd m j hold).step h
    · have hclaimed := hl.pending k m (j :: rest) (by rw [hpc]; rfl) j (.head _)
      exact ⟨mem_of_step h (hl.claimed_event hclaimed), events _ (by rw [hpc]; exact .head _)⟩

theorem deadLetters (h : (system d).Reach Machine.Any s) : ∀ m j, j ∈ s.redis.dlq m → DeadLetter s m j := by
  refine h.invariant (I := fun s => ∀ m j, j ∈ s.redis.dlq m → DeadLetter s m j) ?_ ?_
  · intro m j hj
    simp [system, initState, AppConfig.initRedis] at hj
  · intro u a v hr hd _ hs
    exact deadLetter_step (life hr) hd hs

/-! ## Places -/

/-- The job has been taken up by the model: it is in flight or a dead letter. -/
def TakenUp (r : Redis) (m j : String) : Prop := j ∈ r.inflight m ∨ j ∈ r.dlq m

structure Placed (s : State ι) (j : String) : Prop where
  /-- In a queue it is nowhere else. -/
  queue : ∀ m, j ∈ s.redis.queue m → (∀ m', j ∈ s.redis.queue m' → m' = m) ∧ (∀ i, (s.workers i).pc.job ≠ some j) ∧
    ∀ m', ¬TakenUp s.redis m' j
  /-- No two workers have it. -/
  hands : ∀ i k, (s.workers i).pc.job = some j → (s.workers k).pc.job = some j → i = k
  /-- No two models take it up, and a worker that has it works for the model that did. -/
  model : ∀ m, TakenUp s.redis m j → (∀ m', TakenUp s.redis m' j → m' = m) ∧
    ∀ i, (s.workers i).pc.job = some j → (s.workers i).model = m
  /-- A dead letter was claimed, and its slot given back. -/
  dead : ∀ m, j ∈ s.redis.dlq m → DeadLetter s m j

theorem Stage.Claimed.inj {m m' : String} {x : Stage} (h : x.Claimed m) (h' : x.Claimed m') : m' = m := by
  rcases h with rfl | rfl <;> rcases h' with h' | h' <;> cases h' <;> rfl

/-- A job is never in two places. -/
theorem one_place (h : (system d).Reach Machine.Any s) (j : String) : Placed s j := by
  have hl := life h
  have htaken : ∀ m, TakenUp s.redis m j → (stage s.trace j).Claimed m := by
    rintro m (hj | hj)
    · exact hl.inflight m j hj
    · exact stage_of_claimed hl.legal (deadLetters h m j hj).1
  refine ⟨fun m hm => ?_, fun i k => hl.exclusive i k j, fun m hm => ?_, fun m => deadLetters h m j⟩
  · have hq := (hl.queue m j).mp hm
    refine ⟨fun m' hm' => ?_, fun i hi => (hl.worker i).ne_queued hi hq, fun m' hm' => ?_⟩
    · have hq' := (hl.queue m' j).mp hm'
      rw [hq] at hq'
      cases hq'
      rfl
    · have hc := htaken m' hm'
      rw [hq] at hc
      rcases hc with hc | hc <;> cases hc
  · refine ⟨fun m' hm' => (htaken m hm).inj (htaken m' hm'), fun i hi => ?_⟩
    rcases (hl.worker i).popped_or_claimed hi with hp | hp
    · have hc := htaken m hm
      rw [hp] at hc
      rcases hc with hc | hc <;> cases hc
    · exact (htaken m hm).inj hp

/-- The scan makes a dead letter of the job that worker `0` is still forwarding. -/
theorem one_place_run : ∃ s, (system (twoWorkers 1 (Int.le_refl 1))).Reach Machine.Any s ∧ TakenUp s.redis "chat" "a" ∧
    DeadLetter s "chat" "a" ∧ (s.workers 0).pc.job = some "a" ∧ Placed s "a" := by
  obtain ⟨s, hr, hdead, hpc⟩ := (system (twoWorkers 1 (Int.le_refl 1))).reach_of_exec Machine.Any
    (leaseLapses 0 ++ reclaimRun)
    (fun s => "a" ∈ s.redis.dlq "chat" ∧ (s.workers 0).pc.job = some "a") (by decide +kernel)
  have hp := one_place hr "a"
  exact ⟨s, hr, .inr hdead, hp.dead "chat" hdead, hpc, hp⟩

end AdmissionScheduler
