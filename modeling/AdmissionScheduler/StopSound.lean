import AdmissionScheduler.ReleaseSound

/-!
# Stopping a worker

`stop()` cancels the worker task at whatever await it has come to. After that the
task writes at most `cancelled`, publishes, releases the slot and ends; how often
the slot has been released then, and which status the job has, is fixed by the
state right after the cancellation.
-/

namespace AdmissionScheduler

/-- The status a cancelled job is to end with: the one recorded, otherwise `cancelled`. -/
def Redis.due (r : Redis) (j : String) : JobStatus :=
  match r.status j with
  | some st => if st.terminal then st else .cancelled
  | none => .cancelled

theorem Redis.status_due_iff {r : Redis} {j : String} : r.status j = some (r.due j) ↔ r.ended j = true := by
  unfold due ended
  cases r.status j with
  | none => simp
  | some st => cases st <;> decide

/-- The job between a successful `claim_slot` and the end of `_wait_for_slot_and_claim`. -/
def Pc.claimed : Pc → Option String
  | tracking j _ | fetching j | forwarding j _ | marking j .. | publishing j .. | releasing j _ | cleaning j _
  | announcing j => some j
  | poll | popping | waitSlot _ | claiming .. | exited | crashed => none

/-- A cancellation at this await loses neither the slot nor the status, when the slot of the job has
been given back `released` times. -/
def Pc.stopSafe (r : Redis) (released : Nat) (took : Bool) : Pc → Prop
  | forwarding j _ | publishing j _ (.completed _) => released = 0 ∧ r.due j = .cancelled
  | marking j _ (.completed _) _ => released = 0 ∧ took = false ∧ r.due j = .cancelled
  | marking j _ (.failed ..) _ | marking j _ .cancelled _ => released = 0 ∧ (took = true ∨ r.ended j = true)
  | publishing j _ (.failed ..) | publishing j _ .cancelled => released = 0 ∧ r.ended j = true
  | releasing j _ => released + took.toNat = 1 ∧ r.ended j = true
  -- outside the `try`: somebody else must have released the slot
  | tracking j _ | fetching j => released = 1 ∧ r.ended j = true
  | cleaning j _ => released = 1 ∧ (took = true ∨ r.ended j = true)
  -- the slot has been released before
  | announcing j => released = 1 ∧ r.ended j = true
  | poll | popping | waitSlot _ | claiming .. | exited | crashed => True

section
variable {ι : Type} [DecidableEq ι] {d : Deployment ι} {i : ι} {j m : String} {s s' : State ι}

/-- The worker's commands succeed, and the others leave the job's status and slot alone. -/
def unimpeded (d : Deployment ι) (i : ι) (m j : String) (s : State ι) (a : Action ι) : Prop :=
  a = .worker i .go ∨ (∀ b, a ≠ .worker i b) ∧ ∀ s', step d s a = some s' →
    s'.redis.status j = s.redis.status j ∧ releases m j s'.trace = releases m j s.trace

def Pc.draining (j : String) : Pc → Bool
  | marking k _ .cancelled _ | publishing k _ .cancelled | releasing k .reraise => k = j
  | exited => true
  | _ => false

/-- How often the slot will have been released and which status the job will have. -/
def outlook (i : ι) (m j : String) (s : State ι) : Nat × Option JobStatus :=
  match (s.workers i).pc with
  | .marking .. => (releases m j s.trace + 1, some .cancelled)
  | .publishing .. | .releasing .. => (releases m j s.trace + 1, s.redis.status j)
  | _ => (releases m j s.trace, s.redis.status j)

theorem draining_go (hd : (s.workers i).pc.draining j = true) (hs : step d s (.worker i .go) = some s') :
    (s'.workers i).model = (s.workers i).model ∧ (s'.workers i).pc.draining j = true ∧
      outlook i (s.workers i).model j s' = outlook i (s.workers i).model j s := by
  simp only [step, Worker.step, Option.map_eq_some_iff] at hs
  obtain ⟨-, ⟨⟨pc', es⟩, hr, rfl⟩, rfl⟩ := hs
  cases pc : (s.workers i).pc with
  | marking k info v ts =>
    cases v with
    | cancelled =>
      obtain rfl : k = j := by rw [pc] at hd; exact of_decide_eq_true hd
      rw [pc] at hr; cases hr
      have written : (s.redis.finish k (Verdict.cancelled.write ts)).status k = some .cancelled :=
        Redis.finish_status _ _ _ _
      refine ⟨by simp, by simp [Pc.draining], ?_⟩
      simp only [outlook, pc, Function.update_self, Pc.serve, Pc.served, written]
      rfl
    | completed | failed => rw [pc] at hd; cases hd
  | publishing k info v =>
    cases v with
    | cancelled =>
      obtain rfl : k = j := by rw [pc] at hd; exact of_decide_eq_true hd
      rw [pc] at hr; cases hr
      refine ⟨by simp, by simp [Pc.draining, Pc.afterReport], ?_⟩
      simp only [outlook, pc, Function.update_self, Pc.serve, Pc.served, Pc.afterReport]
      rfl
    | completed | failed => rw [pc] at hd; cases hd
  | releasing k next =>
    cases next with
    | reraise =>
      obtain rfl : k = j := by rw [pc] at hd; exact of_decide_eq_true hd
      rw [pc] at hr; cases hr
      refine ⟨by simp, by simp [Pc.draining, Pc.afterRelease], ?_⟩
      simp only [outlook, pc, Function.update_self, Pc.serve, Pc.served, Pc.afterRelease]
      simp [releases, Redis.status, Redis.releaseSlot, Redis.removeInflight, Redis.addInUse]
    | ret | announce => rw [pc] at hd; cases hd
  | exited => rw [pc] at hr; cases hr
  | _ => rw [pc] at hd; cases hd

theorem draining_step {a : Action ι} (hm : (s.workers i).model = m) (hd : (s.workers i).pc.draining j = true)
    (ok : unimpeded d i m j s a) (hs : step d s a = some s') :
    (s'.workers i).model = m ∧ (s'.workers i).pc.draining j = true ∧ outlook i m j s' = outlook i m j s := by
  subst hm
  rcases ok with rfl | ⟨other, quiet⟩
  · exact draining_go hd hs
  · obtain ⟨status, released⟩ := quiet s' hs
    rcases worker_of_step hs i with ⟨-, same⟩ | ⟨b, -, rfl, -⟩
    · rw [same]
      refine ⟨rfl, hd, ?_⟩
      simp only [outlook, same, status, released]
    · exact absurd rfl (other b)

/-- The task comes to its end by its own steps. -/
theorem draining_ends (hd : (s.workers i).pc.draining j = true) :
    ∃ t, (system d).Leads (unimpeded d i m j) s t ∧ (t.workers i).pc = .exited := by
  have go {u : State ι} {pc' : Pc} {es : List Event}
      (hr : (u.workers i).pc.resume (u.workers i).model u.redis (u.workers i).stop = some (pc', es)) :
      ∃ v, (system d).step u (.worker i .go) = some v ∧ (v.workers i).pc = pc' := by
    simp only [system, step, Worker.step, hr, Option.map_some]
    exact ⟨_, rfl, by simp⟩
  have released {u : State ι} (pc : (u.workers i).pc = .releasing j .reraise) :
      ∃ t, (system d).Leads (unimpeded d i m j) u t ∧ (t.workers i).pc = .exited := by
    obtain ⟨t, hs, end_⟩ := go (u := u) (by rw [pc]; rfl)
    exact ⟨t, .step .refl (.inl rfl) hs, end_⟩
  have published {u : State ι} {info : JobInfo} (pc : (u.workers i).pc = .publishing j info .cancelled) :
      ∃ t, (system d).Leads (unimpeded d i m j) u t ∧ (t.workers i).pc = .exited := by
    obtain ⟨v, hs, pc'⟩ := go (u := u) (by rw [pc]; rfl)
    obtain ⟨t, ht, done⟩ := released pc'
    exact ⟨t, (Machine.Leads.refl.step (.inl rfl) hs).trans ht, done⟩
  cases pc : (s.workers i).pc with
  | marking k info v ts =>
    cases v with
    | cancelled =>
      obtain rfl : k = j := by rw [pc] at hd; exact of_decide_eq_true hd
      obtain ⟨v, hs, pc'⟩ := go (u := s) (by rw [pc]; rfl)
      obtain ⟨t, ht, done⟩ := published pc'
      exact ⟨t, (Machine.Leads.refl.step (.inl rfl) hs).trans ht, done⟩
    | completed | failed => rw [pc] at hd; cases hd
  | publishing k info v =>
    cases v with
    | cancelled =>
      obtain rfl : k = j := by rw [pc] at hd; exact of_decide_eq_true hd
      exact published pc
    | completed | failed => rw [pc] at hd; cases hd
  | releasing k next =>
    cases next with
    | reraise =>
      obtain rfl : k = j := by rw [pc] at hd; exact of_decide_eq_true hd
      exact released pc
    | ret | announce => rw [pc] at hd; cases hd
  | exited => exact ⟨s, .refl, pc⟩
  | _ => rw [pc] at hd; cases hd

theorem outlook_of_end {t : State ι} (hd : (s.workers i).pc.draining j = true)
    (h : (system d).Leads (unimpeded d i (s.workers i).model j) s t) (pc : (t.workers i).pc = .exited) :
    (releases (s.workers i).model j t.trace, t.redis.status j) = outlook i (s.workers i).model j s := by
  have kept := h.invariant
    (I := fun u => (u.workers i).model = (s.workers i).model ∧ (u.workers i).pc.draining j = true ∧
      outlook i (s.workers i).model j u = outlook i (s.workers i).model j s)
    ⟨rfl, hd, rfl⟩ fun u a v _ hu ok hs => by
      obtain ⟨hm, hd, same⟩ := hu
      obtain ⟨hm', hd', same'⟩ := draining_step hm hd ok hs
      exact ⟨hm', hd', same'.trans same⟩
  rw [← kept.2.2, outlook, pc]

/-! ## The cancellation -/

/-- The state right after the cancellation. -/
theorem of_cancel {took : Bool} (hs : step d s (.worker i (.cancel took)) = some s') :
    ∃ pc', (s.workers i).pc.interrupt s.redis = some pc' ∧ (s'.workers i).pc = pc' ∧
      (s'.workers i).model = (s.workers i).model ∧
      s'.redis = (if took then (s.workers i).pc.serve d.config (s.workers i).model s.redis else s.redis) ∧
      s'.trace = (if took then (s.workers i).pc.served (s.workers i).model s.redis false else []) ++ s.trace := by
  simp only [step, Worker.step, Option.map_eq_some_iff, Option.ite_none_right_eq_some] at hs
  obtain ⟨-, ⟨-, pc', hp, rfl⟩, rfl⟩ := hs
  exact ⟨pc', hp, by simp, by simp, rfl, rfl⟩

theorem draining_of_cancel {took : Bool} (hj : (s.workers i).pc.claimed = some j)
    (hs : step d s (.worker i (.cancel took)) = some s') : (s'.workers i).pc.draining j = true := by
  obtain ⟨pc', hp, hpc, -⟩ := of_cancel hs
  rw [hpc]
  cases pc : (s.workers i).pc with
  | marking k info v ts | publishing k info v =>
    rw [pc] at hj hp; cases hj
    cases v <;> cases hp <;> exact decide_eq_true rfl
  | forwarding k info => rw [pc] at hj hp; cases hj; cases hp; exact decide_eq_true rfl
  | tracking | fetching | releasing | cleaning | announcing => rw [pc] at hp; cases hp; rfl
  | poll | popping | waitSlot | claiming | exited | crashed => rw [pc] at hj; cases hj

theorem outlook_of_cancel {took : Bool} (hj : (s.workers i).pc.claimed = some j)
    (hs : step d s (.worker i (.cancel took)) = some s') :
    outlook i (s.workers i).model j s' = (1, some (s'.redis.due j)) ↔
      (s.workers i).pc.stopSafe s.redis (releases (s.workers i).model j s.trace) took := by
  obtain ⟨pc', hp, hpc, -, redis, trace⟩ := of_cancel hs
  have silent (h : (s.workers i).pc.served (s.workers i).model s.redis false =
      [] ∨ ∃ st, (s.workers i).pc.served (s.workers i).model s.redis false = [.published j st]) :
      releases (s.workers i).model j s'.trace = releases (s.workers i).model j s.trace := by
    rw [trace]
    rcases h with h | ⟨st, h⟩ <;> rw [h] <;> cases took <;> rfl
  have unchanged (h : ((s.workers i).pc.serve d.config (s.workers i).model s.redis).job = s.redis.job) :
      s'.redis.ended j = s.redis.ended j ∧ s'.redis.due j = s.redis.due j ∧
        s'.redis.status j = s.redis.status j := by
    have job : s'.redis.job = s.redis.job := by rw [redis]; cases took <;> [rfl; exact h]
    simp only [Redis.ended, Redis.due, Redis.status, job, and_self]
  cases pc : (s.workers i).pc with
  | tracking k t | fetching k | announcing k =>
    rw [pc] at hj hp silent unchanged; cases hj; cases hp
    obtain ⟨ended, -⟩ := unchanged rfl
    simp only [outlook, hpc, Prod.mk.injEq, Redis.status_due_iff, silent (by simp [Pc.served]), ended, Pc.stopSafe]
  | forwarding k info =>
    rw [pc] at hj hp silent unchanged; cases hj; cases hp
    obtain ⟨-, due, -⟩ := unchanged rfl
    simp only [outlook, hpc, Prod.mk.injEq, silent (.inl rfl), due, Pc.stopSafe, Option.some.injEq, Nat.add_eq_right]
    exact and_congr_right' eq_comm
  | marking k info v ts =>
    rw [pc] at hj hp silent unchanged redis; cases hj
    have still := silent (.inl rfl)
    cases took with
    | false =>
      simp only [Bool.false_eq_true, if_false] at redis
      cases v with
      | completed response =>
        cases hp
        simp only [outlook, hpc, Prod.mk.injEq, still, redis, Pc.stopSafe, Option.some.injEq, Nat.add_eq_right, true_and]
        exact and_congr_right' eq_comm
      | failed | cancelled =>
        cases hp
        simp only [outlook, hpc, Prod.mk.injEq, Redis.status_due_iff, still, redis, Pc.stopSafe, Nat.add_eq_right,
          Bool.false_eq_true, false_or]
    | true =>
      have status : s'.redis.status j = some v.status := by
        rw [redis]; exact Redis.finish_status _ _ _ _
      cases v with
      | completed response =>
        cases hp
        have due : s'.redis.due j = .completed := by rw [Redis.due, status]; rfl
        simp [outlook, hpc, due, Pc.stopSafe]
      | failed | cancelled =>
        cases hp
        have ended : s'.redis.ended j = true := by rw [Redis.ended, status]; rfl
        simp only [outlook, hpc, Prod.mk.injEq, Redis.status_due_iff, still, ended, Pc.stopSafe, Nat.add_eq_right, true_or]
  | publishing k info v =>
    rw [pc] at hj hp silent unchanged; cases hj
    obtain ⟨ended, due, -⟩ := unchanged rfl
    cases v with
    | completed response =>
      cases hp
      simp only [outlook, hpc, Prod.mk.injEq, silent (.inr ⟨_, rfl⟩), due, Pc.stopSafe, Option.some.injEq, Nat.add_eq_right]
      exact and_congr_right' eq_comm
    | failed | cancelled =>
      cases hp
      simp only [outlook, hpc, Prod.mk.injEq, Redis.status_due_iff, silent (.inr ⟨_, rfl⟩), ended, Pc.stopSafe,
        Nat.add_eq_right]
  | releasing k next =>
    rw [pc] at hj hp trace unchanged; cases hj; cases hp
    obtain ⟨ended, -⟩ := unchanged rfl
    have released : releases (s.workers i).model j s'.trace = releases (s.workers i).model j s.trace + took.toNat := by
      rw [trace]; cases took <;> simp [releases, Pc.served]
    simp only [outlook, hpc, Prod.mk.injEq, Redis.status_due_iff, released, ended, Pc.stopSafe]
  | cleaning k ts =>
    rw [pc] at hj hp silent unchanged redis; cases hj; cases hp
    have ended : s'.redis.ended j = true ↔ took = true ∨ s.redis.ended j = true := by
      rw [redis]
      cases took with
      | false => simp
      | true => simp [Pc.serve, Redis.ended, Redis.status, Redis.hset, JobStatus.terminal]
    simp only [outlook, hpc, Prod.mk.injEq, Redis.status_due_iff, silent (.inl rfl), ended, Pc.stopSafe]
  | poll | popping | waitSlot | claiming | exited | crashed => rw [pc] at hj; cases hj

/-- A worker that is cancelled after a claim always comes to its end, and has released the slot exactly
once and left the due status then if and only if the await was a safe one. -/
theorem stop_releases {took : Bool} (hj : (s.workers i).pc.claimed = some j)
    (hs : step d s (.worker i (.cancel took)) = some s') :
    (∃ t, (system d).Leads (unimpeded d i (s.workers i).model j) s' t ∧ (t.workers i).pc = .exited) ∧
      ((∀ t, (system d).Leads (unimpeded d i (s.workers i).model j) s' t → (t.workers i).pc = .exited →
        releases (s.workers i).model j t.trace = 1 ∧ t.redis.status j = some (s'.redis.due j)) ↔
      (s.workers i).pc.stopSafe s.redis (releases (s.workers i).model j s.trace) took) := by
  obtain ⟨-, -, -, model, -⟩ := of_cancel hs
  have hd := draining_of_cancel hj hs
  have ends := draining_ends (d := d) (m := (s.workers i).model) hd
  refine ⟨ends, ?_⟩
  rw [← outlook_of_cancel hj hs]
  constructor
  · intro h
    obtain ⟨t, ht, pc⟩ := ends
    obtain ⟨once, status⟩ := h t ht pc
    rw [← model] at ht once ⊢
    rw [← outlook_of_end hd ht pc, once, status]
  · intro h t ht pc
    rw [← model] at ht h ⊢
    have final := outlook_of_end hd ht pc
    rw [h] at final
    exact Prod.mk.inj final

end

/-- A request is admitted, and worker `i` is told to stop after `n` steps. -/
def stopAfter {ι : Type} (i : ι) (n : Nat) : List (Action ι) :=
  admitRun 0 (chatRequest (.obj []) .null none) "a" ++ List.replicate n (.worker i .go) ++ [.worker i .stop]

/-- Cancelled while it fetches the hash the worker ends and keeps the slot. -/
theorem stop_leaks : ¬∀ s, (system (twoWorkers 1 (Int.le_refl 1))).Reach Machine.Any s → ∀ i j took s',
    (s.workers i).pc.claimed = some j → step (twoWorkers 1 (Int.le_refl 1)) s (.worker i (.cancel took)) = some s' →
    ∀ t, (system (twoWorkers 1 (Int.le_refl 1))).Leads
        (unimpeded (twoWorkers 1 (Int.le_refl 1)) i (s.workers i).model j) s' t → (t.workers i).pc = .exited →
      releases (s.workers i).model j t.trace = 1 ∧ t.redis.status j = some (s'.redis.due j) := by
  intro h
  obtain ⟨s, hr, hj, hs⟩ := (system (twoWorkers 1 (Int.le_refl 1))).reach_of_exec Machine.Any (stopAfter 0 5)
    (fun s => (s.workers 0).pc.claimed = some "a" ∧
      (step (twoWorkers 1 (Int.le_refl 1)) s (.worker 0 (.cancel false))).any (fun s' =>
        decide ((s'.workers 0).pc = .exited ∧ releases (s.workers 0).model "a" s'.trace = 0)) = true) (by decide +kernel)
  obtain ⟨s', hs', leak⟩ := (Option.any_eq_true _ _).mp hs
  obtain ⟨pc, never⟩ := of_decide_eq_true leak
  have once := (h s hr 0 "a" false s' hj hs' s' .refl pc).1
  rw [never] at once; cases once

/-- Cancelled in its forward it releases the slot and marks the job cancelled. -/
theorem stop_releases_run : ∃ s s' t, (system (twoWorkers 1 (Int.le_refl 1))).Reach Machine.Any s ∧
    step (twoWorkers 1 (Int.le_refl 1)) s (.worker 0 (.cancel false)) = some s' ∧
    (system (twoWorkers 1 (Int.le_refl 1))).Leads
      (unimpeded (twoWorkers 1 (Int.le_refl 1)) 0 (s.workers 0).model "a") s' t ∧
    (t.workers 0).pc = .exited ∧ releases (s.workers 0).model "a" t.trace = 1 ∧
    t.redis.status "a" = some .cancelled := by
  obtain ⟨s, hr, pc, never, due, hs⟩ := (system (twoWorkers 1 (Int.le_refl 1))).reach_of_exec Machine.Any (stopAfter 0 6)
    (fun s => (s.workers 0).pc = .forwarding "a" ⟨"req", "chat", "unknown", 5⟩ ∧
      releases (s.workers 0).model "a" s.trace = 0 ∧ s.redis.due "a" = .cancelled ∧
      (step (twoWorkers 1 (Int.le_refl 1)) s (.worker 0 (.cancel false))).any (fun s' =>
        decide (s'.redis.due "a" = .cancelled)) = true) (by decide +kernel)
  obtain ⟨s', hs', due'⟩ := (Option.any_eq_true _ _).mp hs
  obtain ⟨⟨t, ht, ended⟩, safe⟩ := stop_releases (j := "a") (by rw [pc]; rfl) hs'
  obtain ⟨once, status⟩ := safe.mpr (by rw [pc]; exact ⟨never, due⟩) t ht ended
  rw [of_decide_eq_true due'] at status
  exact ⟨s, s', t, hr, hs', ht, ended, once, status⟩

end AdmissionScheduler
