import AdmissionScheduler.ScriptCache
import AdmissionScheduler.DispatchSound

/-!
# What a restart of the server does to the scripts

`EVALSHA` is `EVAL` exactly while the server has the script. Nothing but the start
of a process brings a script back, so after a restart no worker ever claims again;
with the claim script in the cache a running worker gets to a claim by its own steps.
-/

namespace AdmissionScheduler

/-! ## Single calls -/

/-- The answer of a script is never `NOSCRIPT`. -/
theorem Redis.eval_ne_noScript (r : Redis) (call : ScriptCall) : (r.eval call).2 ≠ .noScript := by
  cases call with
  | claimSlot m j ts | cancelQueued m j ts => simp only [eval]; split <;> simp
  | enqueueJob m j score maxDepth values =>
    simp only [eval]
    cases r.enqueueOutcome m j score maxDepth values <;> simp [Enqueued.reply]

theorem Redis.evalsha_eq_iff {r : Redis} {cache : Finset Script} {call : ScriptCall} :
    r.evalsha cache call = r.eval call ↔ call.script ∈ cache := by
  unfold evalsha
  split
  · exact ⟨fun _ => ‹_›, fun _ => rfl⟩
  · constructor
    · intro h
      exact absurd (congrArg Prod.snd h).symm (r.eval_ne_noScript call)
    · intro h; contradiction

/-- The awaits do to the store what their scripts do. -/
theorem serve_of_call {c : AppConfig} {r : Redis} :
    (∀ pc m call, Pc.call m pc = some call → pc.serve c m r = (r.eval call).1) ∧
      (∀ k call, Cancel.call k = some call → k.serve r = (r.eval call).1) ∧
      ∀ p call, Admit.call c p = some call → p.serve c r = (r.eval call).1 := by
  refine ⟨fun pc m call h => ?_, fun k call h => ?_, fun p call h => ?_⟩
  · cases pc <;> cases h
    simp only [Pc.serve, Redis.eval]; split <;> rfl
  · cases k <;> cases h
    simp only [Cancel.serve, Redis.eval]; split <;> rfl
  · cases p <;> cases h
    rfl

section
variable {ι : Type} [DecidableEq ι] {d : Deployment ι} {s s' : State ι} {T U : Scripted ι} {i : ι} {m j : String}

/-! ## Without the script -/

/-- A job counts as claimed only after the script has run for it. -/
theorem claiming_of_claimed {a : Action ι} (hl : Life s) (h : step d s a = some s') (new : .claimed m j ∈ s'.trace)
    (old : .claimed m j ∉ s.trace) : ∃ i ts, a = .worker i .go ∧ (s.workers i).pc = .claiming j ts := by
  have legal := (life_step hl h).legal
  have rank : (3 : Nat) ≤ (stage s'.trace j).rank := Lifecycle.rank_le_of_mem (L := jobLifecycle) legal new rfl
  -- the claim of `j` that the history has is the one of `m`
  have before {m' : String} (hm : .claimed m' j ∈ s.trace) : False := by
    have := Lifecycle.crosses_unique (n := 2) (k := j) legal new (mem_of_step h hm)
      (Lifecycle.crosses_iff.mpr ⟨_, _, rfl, rfl⟩) (Lifecycle.crosses_iff.mpr ⟨_, _, rfl, rfl⟩)
    cases this; exact old hm
  have claimed {m' : String} (was : stage s.trace j = .claimed m') : False := by
    obtain ⟨e, he, x, hx⟩ := Lifecycle.exists_move_of_stage (L := jobLifecycle) was (by simp [jobLifecycle])
    cases e <;> cases hx
    exact before he
  have move := stage_move (j := j) hl h
  generalize stage s'.trace j = x at move rank
  cases move with
  | keep =>
    cases was : stage s.trace j with
    | claimed m' => exact (claimed was).elim
    | forwarded m' =>
      obtain ⟨e, he, x, hx⟩ := Lifecycle.exists_move_of_stage (L := jobLifecycle) was (by simp [jobLifecycle])
      cases e <;> cases hx
      exact (before (claimed_of_forwarded hl.legal he)).elim
    | unborn | queued | popped | cancelled => rw [was] at rank; simp [Stage.rank] at rank
  | claim act pc => exact ⟨_, _, act, pc⟩
  | forward act pc was => exact (claimed was).elim
  | enqueue | pop | cancelled => simp [Stage.rank] at rank

theorem base_reach {ok : Scripted ι → ScriptedAct ι → Prop} (h : (scripted d).Reach ok T) :
    (system d).Reach Machine.Any T.state := by
  refine h.simulate (N := system d) Scripted.state rfl fun S b U _ _ hs => ?_
  cases b with
  | act a =>
    simp only [scripted, Scripted.step, Option.ite_none_right_eq_some, Option.map_eq_some_iff] at hs
    obtain ⟨-, s, hs, rfl⟩ := hs
    exact Machine.Leads.refl.step (a := a) trivial hs
  | restart => cases hs; exact .refl

/-- Without the claim script no job is claimed until a process starts. -/
theorem never_claims (h : (scripted d).Reach Machine.Any T) (gone : .claimSlot ∉ T.cache)
    (hU : (scripted d).Leads ongoing T U) (old : .claimed m j ∉ T.state.trace) : .claimed m j ∉ U.state.trace := by
  refine (hU.invariant (I := fun S => .claimSlot ∉ S.cache ∧ .claimed m j ∉ S.state.trace) ⟨gone, old⟩
    fun S b V hS ⟨gone, old⟩ ok hs => ?_).2
  cases b with
  | restart => cases hs; exact ⟨Finset.notMem_empty _, old⟩
  | act a =>
    simp only [scripted, Scripted.step, Option.ite_none_right_eq_some, Option.map_eq_some_iff] at hs
    obtain ⟨loaded, s, hs, rfl⟩ := hs
    have kept : a.loads = false := ok
    refine ⟨by simpa only [kept, Bool.false_eq_true, if_false] using gone, fun new => ?_⟩
    have hl := life (base_reach (h.leads hS.any))
    obtain ⟨i, ts, rfl, pc⟩ := claiming_of_claimed hl hs new old
    exact gone (loaded (.claimSlot (S.state.workers i).model j ts) (by simp [Action.runs, pc, WorkerAct.takes, Pc.call]))

/-! ## With the script -/

def alone (i : ι) : State ι → Action ι → Prop := fun _ a => ∃ b, a = .worker i b ∧ b ≠ .start

/-- A worker runs no other script than that of its claim. -/
theorem lift_alone (loaded : .claimSlot ∈ T.cache) (h : (system d).Leads (alone i) T.state s) :
    (scripted d).Leads ongoing T { T with state := s } := by
  induction h with
  | refl => exact .refl
  | @step u a v hu ok hs ih =>
    obtain ⟨b, rfl, start⟩ := ok
    have loads : (Action.worker i b).loads = false := by cases b <;> first | rfl | exact absurd rfl start
    have runs : ∀ call ∈ (Action.worker i b).runs d.config u, call.script ∈ T.cache := by
      intro call hc
      simp only [Action.runs, Option.mem_def] at hc
      split at hc
      · cases pc : (u.workers i).pc <;> rw [pc] at hc <;> cases hc
        exact loaded
      · cases hc
    refine ih.step (show ongoing _ (.act (.worker i b)) from loads) ?_
    simp only [scripted, Scripted.step]
    rw [if_pos runs, loads]
    simp only [system] at hs
    rw [hs]; rfl

omit [DecidableEq ι] in
/-- A worker with a job in hand gets back to its loop; where the hash may kill it, the `HGETALL` fails. -/
theorem returns_of_engaged {r : Redis} {w : Worker} (he : w.pc.engaged r = true) :
    w.pc.Returns d.config (fun b => b ≠ .start) w.model w.stop r := by
  have fetching {r : Redis} {k : String} :
      Pc.Returns d.config (fun b => b ≠ .start) w.model w.stop r (.fetching k) := by
    obtain ⟨l, r', es, hl, hrun, spares⟩ : Pc.Returns d.config (fun b => b ≠ .start) w.model w.stop r (.cleaning k r.now) :=
      Pc.returns_cleaning (by decide)
    exact ⟨.fail false :: l, r', _, List.forall_mem_cons.mpr ⟨by decide, hl⟩, Worker.run_cons rfl hrun, spares⟩
  cases pc : w.pc with
  | tracking k t => exact Pc.returns_go (by decide) rfl rfl fetching
  | fetching k => exact fetching
  | forwarding k info => exact Pc.returns_forwarding (by decide) (o := .timeout "") (by decide)
  | _ => rw [pc] at he; cases he

/-- A running worker gets to a claim. -/
theorem claims_alone {ok : State ι → Action ι → Prop} (h : (system d).Reach ok s) (running : (s.workers i).Running)
    (free : s.redis.slotFree (s.workers i).model = true) (first : s.redis.firstQueued (s.workers i).model = some j) :
    ∃ t, (system d).Leads (alone i) s t ∧ (∃ k ts, (t.workers i).pc = .claiming k ts) ∧
      (t.workers i).model = (s.workers i).model ∧ t.redis.slotFree (t.workers i).model = true := by
  have can {u : State ι} (hu : (system d).Leads (alone i) s u) (hm : (u.workers i).model = (s.workers i).model)
      (hc : CanClaim d u i) : ∃ t, (system d).Leads (alone i) s t ∧ (∃ k ts, (t.workers i).pc = .claiming k ts) ∧
      (t.workers i).model = (s.workers i).model ∧ t.redis.slotFree (t.workers i).model = true := by
    obtain ⟨t, ht, pc, free⟩ := hc
    have ht' : (system d).Leads (alone i) u t := ht.mono fun _ _ ha => ⟨.go, ha, by decide⟩
    refine ⟨t, hu.trans ht', pc, ?_, free⟩
    rw [model_const (h.any.leads (hu.trans ht').any) i, model_const h i]
  cases he : (s.workers i).pc.engaged s.redis with
  | false => exact can .refl rfl (canClaim_of_not_engaged h running he free first)
  | true =>
    obtain ⟨u, hu, hw, spares⟩ : ∃ u, (system d).Leads (alone i) s u ∧ _ :=
      leads_of_returns (fun b hb _ => ⟨b, rfl, hb⟩) (returns_of_engaged he)
    exact can hu (by rw [hw]) (canClaim_of_poll (by rw [hw]) (by rw [hw]; exact running.stop)
      (by rw [hw]; exact spares.slotFree free) (j := j) (by rw [hw]; exact spares.firstQueued.trans first))

/-- What a claim of a free slot adds to the history. -/
theorem claim_of_claiming {ts : Nat} (pc : (s.workers i).pc = .claiming j ts)
    (free : s.redis.slotFree (s.workers i).model = true) :
    ∃ t, (system d).step s (.worker i .go) = some t ∧ t.trace = .claimed (s.workers i).model j :: s.trace := by
  simp only [system, step, Worker.step, pc, Pc.resume, Pc.served, free, if_true, Option.map_some]
  exact ⟨_, rfl, rfl⟩

def ClaimsLater (d : Deployment ι) (m : String) (T : Scripted ι) : Prop :=
  ∃ U j, (scripted d).Leads ongoing T U ∧ .claimed m j ∈ U.state.trace ∧ .claimed m j ∉ T.state.trace

/-- `EVALSHA` agrees with `EVAL` if and only if the server has the script; and with a running worker, a job
in its queue and a free slot some continuation claims the slot if and only if it has the claim script. -/
theorem evalsha_agrees (d : Deployment ι) :
    (∀ (r : Redis) cache call, r.evalsha cache call = r.eval call ↔ call.script ∈ cache) ∧
      ∀ T, (scripted d).Reach Machine.Any T → ∀ i, (T.state.workers i).Running →
        ∀ j ∈ T.state.redis.queue (T.state.workers i).model, T.state.redis.slotFree (T.state.workers i).model = true →
          (ClaimsLater d (T.state.workers i).model T ↔ .claimSlot ∈ T.cache) := by
  refine ⟨fun r cache call => Redis.evalsha_eq_iff, fun T h i running j queued free => ⟨?_, fun loaded => ?_⟩⟩
  · rintro ⟨U, k, hU, new, old⟩
    by_contra gone
    exact never_claims h gone hU old new
  · have hr := base_reach h
    obtain ⟨k, first⟩ : ∃ k, T.state.redis.firstQueued (T.state.workers i).model = some k := by
      rw [← Option.ne_none_iff_exists']
      intro hn
      rw [Redis.firstQueued, Option.map_eq_none_iff, SortedSet.popMin_eq_none] at hn
      exact hn j queued
    obtain ⟨t, ht, ⟨l, ts, pc⟩, model, free'⟩ := claims_alone hr running free first
    obtain ⟨u, hu, trace⟩ := claim_of_claiming (d := d) pc free'
    have run : (system d).Leads (alone i) T.state u := ht.step ⟨.go, rfl, by decide⟩ hu
    have legal := (life (hr.leads run.any)).legal
    refine ⟨{ T with state := u }, l, lift_alone loaded run, by rw [trace, model]; exact List.mem_cons_self .., ?_⟩
    intro old
    have once := claims_le_one legal (t.workers i).model l
    rw [← model] at old
    have still : .claimed (t.workers i).model l ∈ t.trace :=
      ht.invariant (I := fun v => .claimed (t.workers i).model l ∈ v.trace) old fun _ _ _ _ hv _ hs => mem_of_step hs hv
    have counted : 0 < claims (t.workers i).model l t.trace := List.count_pos_iff.mpr still
    rw [trace, claims, List.count_cons_self] at once
    exact absurd once (by rw [← claims]; omega)

end

def restarted : List (ScriptedAct (Fin 2)) :=
  (admitRun 0 (chatRequest (.obj []) .null none) "a").map .act ++ [.restart]

/-- After a restart of the server the workers of a process that goes on never claim again. -/
theorem restart_stalls : ¬∀ T, (scripted (twoWorkers 1 (Int.le_refl 1))).Reach Machine.Any T → ∀ i,
    (T.state.workers i).Running → ∀ j ∈ T.state.redis.queue (T.state.workers i).model,
      T.state.redis.slotFree (T.state.workers i).model = true →
        ClaimsLater (twoWorkers 1 (Int.le_refl 1)) (T.state.workers i).model T := by
  intro h
  obtain ⟨T, hr, stop, alive, mem, free, gone⟩ := (scripted (twoWorkers 1 (Int.le_refl 1))).reach_of_exec Machine.Any
    restarted
    (fun T => (T.state.workers 0).stop = false ∧
      ((T.state.workers 0).pc ≠ .exited ∧ (T.state.workers 0).pc ≠ .crashed) ∧
      "a" ∈ T.state.redis.queue (T.state.workers 0).model ∧ T.state.redis.slotFree (T.state.workers 0).model = true ∧
      .claimSlot ∉ T.cache) (by decide +kernel)
  obtain ⟨U, j, hU, new, old⟩ := h T hr 0 ⟨stop, alive⟩ "a" mem free
  exact never_claims hr gone hU old new

/-- With the scripts loaded a queued job is claimed. -/
theorem evalsha_agrees_run : ∃ T, (scripted (twoWorkers 1 (Int.le_refl 1))).Reach Machine.Any T ∧
    "a" ∈ T.state.redis.queue (T.state.workers 0).model ∧
      ClaimsLater (twoWorkers 1 (Int.le_refl 1)) (T.state.workers 0).model T := by
  obtain ⟨T, hr, stop, alive, mem, free, loaded⟩ := (scripted (twoWorkers 1 (Int.le_refl 1))).reach_of_exec Machine.Any
    ((admitRun 0 (chatRequest (.obj []) .null none) "a").map .act)
    (fun T => (T.state.workers 0).stop = false ∧
      ((T.state.workers 0).pc ≠ .exited ∧ (T.state.workers 0).pc ≠ .crashed) ∧
      "a" ∈ T.state.redis.queue (T.state.workers 0).model ∧ T.state.redis.slotFree (T.state.workers 0).model = true ∧
      .claimSlot ∈ T.cache) (by decide +kernel)
  exact ⟨T, hr, mem, ((evalsha_agrees _).2 T hr 0 ⟨stop, alive⟩ "a" mem free).mpr loaded⟩

end AdmissionScheduler
