import AdmissionScheduler.DispatchSound
import AdmissionScheduler.StatusSound
import AdmissionScheduler.Isolation

/-!
# Who serves a queue

Admission accepts every model name and falls back on the defaults for one that
is not configured; `_startup` creates a capacity key and a worker for the
configured ones only. A job of a configured model can always be dispatched; one
of another model never is.
-/

namespace AdmissionScheduler

def AppConfig.startup (c : AppConfig) (sha256 : String → String) :
    Deployment { m : String // m ∈ c.allModelNames } where
  config := c
  workerModel := Subtype.val
  configured i := i.2
  sha256 := sha256

section
variable {ι : Type}

/-- No Redis command fails, no worker is stopped, killed or cancelled, and priorities are integers or absent. -/
def faultless : Action ι → Bool
  | .worker _ b => b.smooth && b ≠ .stop
  | .admission _ (.submit sub) => sub.integerPriority
  | .admission _ (.fail _) | .cancel _ (.fail _) | .watch _ (.fail _) | .check _ (.fail _) => false
  | _ => true

theorem faultless_admitsIntegral : AdmitsIntegral (ι := ι) (fun _ a => faultless a = true) := fun _ _ _ h => h

/-! ## Workers that keep running -/

theorem Pc.resume_exited {pc : Pc} {m : String} {r : Redis} {stop : Bool} {es : List Event}
    (h : pc.resume m r stop = some (.exited, es)) : stop = true ∨ pc.leaving = true := by
  cases pc with
  | poll | waitSlot => cases stop <;> cases h; exact .inl rfl
  | popping =>
    obtain ⟨j, -, hj⟩ := Option.map_eq_some_iff.mp h
    cases hj
  | claiming => simp only [resume] at h; split at h <;> cases h
  | fetching j =>
    simp only [resume] at h
    split at h
    · cases h
    · split at h <;> cases h
  | releasing j next => cases next <;> cases h; exact .inr rfl
  | tracking | forwarding | marking | publishing | cleaning | announcing | exited | crashed => cases h

variable [DecidableEq ι] {d : Deployment ι} {s s' t : State ι} {a : Action ι} {i : ι} {m j : String}

theorem running_step (h : (system d).Reach (fun _ a => faultless a = true) s) (ha : faultless a = true)
    (hs : step d s a = some s') (hw : (s.workers i).Running) : (s'.workers i).Running := by
  rcases worker_of_step hs i with ⟨-, hw'⟩ | ⟨b, es, rfl, hw', -⟩
  · rw [hw']; exact hw
  cases b with
  | go =>
    have alive := not_crashed faultless_admitsIntegral h hs
    simp only [Worker.step, Option.map_eq_some_iff, Prod.mk.injEq] at hw'
    obtain ⟨⟨pc', es'⟩, hr, -, hw', -⟩ := hw'
    rw [← hw'] at alive ⊢
    refine ⟨hw.stop, fun hp => ?_, alive⟩
    simp only at hp
    subst hp
    rcases Pc.resume_exited hr with hstop | hl
    · rw [hw.stop] at hstop; cases hstop
    · have := stop_of_leaving h hl
      rw [hw.stop] at this; cases this
  | respond o =>
    simp only [Worker.step] at hw'
    split at hw'
    · simp only [Option.some.injEq, Prod.mk.injEq] at hw'
      rw [← hw'.2.1]; exact ⟨hw.stop, (by intro h; cases h), (by intro h; cases h)⟩
    · cases hw'
  | timeout =>
    simp only [Worker.step, Option.ite_none_right_eq_some, Option.some.injEq, Prod.mk.injEq] at hw'
    obtain ⟨-, -, hw', -⟩ := hw'
    rw [← hw']; exact ⟨hw.stop, (by intro h; cases h), (by intro h; cases h)⟩
  | start =>
    simp only [Worker.step, Option.ite_none_right_eq_some, Option.some.injEq, Prod.mk.injEq] at hw'
    obtain ⟨-, -, hw', -⟩ := hw'
    rw [← hw']; exact ⟨rfl, (by intro h; cases h), (by intro h; cases h)⟩
  | fail | stop | cancel | kill => cases ha

theorem running (h : (system d).Reach (fun _ a => faultless a = true) s) (i : ι) : (s.workers i).Running :=
  h.invariant (I := fun s => (s.workers i).Running) ⟨rfl, nofun, nofun⟩ fun _ _ _ hr hw ha hs =>
    running_step hr ha hs hw

theorem held_of_popped (h : (system d).Reach (fun _ a => faultless a = true) s) (hj : stage s.trace j = .popped m) :
    ∃ i, (s.workers i).pc.unclaimed = some j := by
  refine h.invariant (I := fun s => stage s.trace j = .popped m → ∃ i, (s.workers i).pc.unclaimed = some j)
    (fun h => by (cases h)) (fun u a v hr hu ha hs hv => ?_) hj
  have hm := stage_move (j := j) (life hr) hs
  generalize hx : stage v.trace j = x at hm
  rw [hv] at hx
  cases hm with
  | keep =>
    obtain ⟨i, hi⟩ := hu hx.symm
    refine ⟨i, ?_⟩
    rcases worker_of_step hs i with ⟨-, hw⟩ | ⟨b, es, rfl, hw, trace⟩
    · rw [hw]; exact hi
    rcases Worker.step_parted hw hi with hi' | hi'
    · exact hi'
    cases hi' with
    | @claimed ts act pc free =>
      subst act
      simp only [Worker.step, pc, Pc.resume, Pc.served, free, if_true, Option.map_some, Option.some.injEq,
        Prod.mk.injEq, List.nil_append] at hw
      rw [trace, ← hw.2.2] at hv
      cases (Lifecycle.stage_cons_self (L := jobLifecycle) rfl).symm.trans hv
    | stopped act pc stop => rw [(running hr i).stop] at stop; cases stop
    | cancelled act => subst act; cases ha
    | killed act => subst act; cases ha
  | @pop i b act takes pc first was redis =>
    subst act
    change step d u (.worker i b) = some v at hs
    refine ⟨i, ?_⟩
    rcases worker_of_step hs i with ⟨hne, -⟩ | ⟨b', es, hb, hw, -⟩
    · exact absurd rfl (hne b)
    cases hb
    cases b with
    | go =>
      simp only [Worker.step, pc, Pc.resume, first, Option.map_some, Option.some.injEq, Prod.mk.injEq] at hw
      rw [← hw.2.1]; rfl
    | fail | cancel => cases ha
    | respond | timeout | stop | kill | start => cases takes
  | enqueue | claim | forward | cancelled => cases hx

end

/-! ## The slots of a model with one worker -/

/-- A check of `m` has read a counter of at most 1, so it has no drift to correct. -/
def Checker.Low (m : String) : Checker → Prop
  | reading m' _ recorded => m' = m → ∀ u, recorded = some u → u ≤ 1
  | resetting m' .. => m' ≠ m
  | idle => True

theorem Checker.afterRead_low {m m' : String} {actual : Option Nat} {recorded : Option Int}
    (h : m' = m → ∀ u, recorded = some u → u ≤ 1) : (afterRead m' actual recorded).Low m := by
  cases actual with
  | none => exact h
  | some n =>
    cases recorded with
    | none => exact h
    | some u =>
      simp only [afterRead]
      split
      · rename_i hd
        intro hm
        have := h hm u rfl
        have := of_decide_eq_true hd
        omega
      · trivial

theorem Checker.step_low {c : AppConfig} {r r' : Redis} {p p' : Checker} {b : CheckAct} {es : List Event} {m : String}
    (h : p.step c r b = some (r', p', es)) (hp : p.Low m) (hu : r.inUseOf m ≤ 1) : p'.Low m := by
  cases b with
  | check m' =>
    simp only [step] at h
    split at h
    · split at h <;> cases h; exact fun _ _ h => by cases h
    · cases h
  | card => simp only [step] at h; split at h <;> cases h; exact afterRead_low hp
  | get =>
    simp only [step] at h
    split at h <;> cases h
    exact afterRead_low fun hm u hr => by cases hr; rw [hm]; exact hu
  | go => simp only [step] at h; split at h <;> cases h; trivial
  | fail took => cases p <;> cases h <;> trivial
  | cancel took =>
    obtain ⟨rfl, -⟩ := step_cancel h
    trivial

section
variable {ι : Type} [Fintype ι] [DecidableEq ι] {d : Deployment ι} {s s' : State ι} {a : Action ι} {i : ι} {m : String}

theorem attended_of_cause (h : (system d).Reach (fun _ a => faultless a = true) s) (ha : faultless a = true)
    (hs : step d s a = some s') (low : ∀ k, (s.checkers k).Low m) {p : SlotPool String} {x : SlotAct String}
    (hx : SlotCause m s a s' p x) : p.Attended x := by
  cases hx with
  | claim act pc fresh => exact fresh
  | register | release | reclaim => trivial
  | leak act rough => subst act; simp [faultless, rough] at ha
  | abandon act rough =>
    subst act
    rcases rough with rough | ⟨rfl, hc⟩
    · simp [faultless, rough] at ha
    · exact not_crashed faultless_admitsIntegral h hs hc
  | @reset k b n recorded act takes pc =>
    have := low k
    rw [pc] at this; exact this rfl

omit [DecidableEq ι] in
theorem held_le_one (one : ∀ k, (s.workers k).model = m → k = i) : (heldSlots m s).card ≤ 1 :=
  card_holdings_le_one (i := i) fun k j hk => by
    simp only [Worker.slotOf, Option.ite_none_right_eq_some] at hk
    exact one k hk.1

/-- With one worker for the model, each slot in use is held by the worker, and no check resets the counter. -/
theorem inUse_le_held (one : ∀ k, d.workerModel k = m → k = i)
    (h : (system d).Reach (fun _ a => faultless a = true) s) : s.redis.inUseOf m ≤ (heldSlots m s).card := by
  have both : (SlotPool.machine (d.config.slots m)).Reach SlotPool.Attended (pool m s) ∧ ∀ k, (s.checkers k).Low m := by
    have start : pool m (system d).init = .empty := pool_init
    refine h.invariant (I := fun s => (SlotPool.machine (d.config.slots m)).Reach SlotPool.Attended (pool m s) ∧
      ∀ k, (s.checkers k).Low m) ⟨by rw [start]; exact .refl, fun _ => trivial⟩ ?_
    rintro u a v hr ⟨hp, low⟩ ha hs
    refine ⟨hp.leads (pool_step (life hr) (capacity_const hr) hs fun p x hx => attended_of_cause hr ha hs low hx), ?_⟩
    have inUse : u.redis.inUseOf m ≤ (heldSlots m u).card := SlotPool.inUse_le_held hp
    have held : (heldSlots m u).card ≤ 1 := held_le_one fun k hk => one k ((model_const hr k).symm.trans hk)
    intro k
    rcases checker_of_step hs k with hk | ⟨b, es, -, hk, -⟩
    · rw [hk]; exact low k
    · exact Checker.step_low hk (low k) (by omega)
  exact SlotPool.inUse_le_held both.1

theorem slotFree_of_idle (hm : d.workerModel i = m) (one : ∀ k, d.workerModel k = m → k = i)
    (h : (system d).Reach (fun _ a => faultless a = true) s) (idle : (s.workers i).pc.slot = none) :
    s.redis.slotFree m = true := by
  have none_held : heldSlots m s = ∅ := by
    rw [Finset.eq_empty_iff_forall_notMem]
    intro j hj
    obtain ⟨k, hk, hs⟩ := mem_heldSlots.mp hj
    rw [one k ((model_const h k).symm.trans hk), idle] at hs; cases hs
  have inUse := inUse_le_held one h
  rw [none_held, Finset.card_empty] at inUse
  obtain ⟨c, hc⟩ := Option.isSome_iff_exists.mp (AppConfig.capacityOf_isSome.mpr (hm ▸ d.configured i))
  have := AppConfig.capacity_pos hc
  rw [Redis.slotFree, capacity_const h, hc]
  exact decide_eq_true (by omega)

end

/-! ## A worker gets to every job of its queue -/

section
variable {ι : Type} [DecidableEq ι] {d : Deployment ι} {s t : State ι} {i : ι} {m j : String}

def Served (d : Deployment ι) (s : State ι) (j : String) : Prop :=
  ∃ t, (system d).Leads (fun _ a => faultless a = true) s t ∧ t.redis.status j = some .dispatched

theorem Served.of_leads (h : (system d).Leads (fun _ a => faultless a = true) s t) (hj : Served d t j) :
    Served d s j := by
  obtain ⟨u, hu, hst⟩ := hj
  exact ⟨u, h.trans hu, hst⟩

/-- Without failures the system can get to a state with `P` while the queues stay as they are. -/
def Gets (d : Deployment ι) (s : State ι) (P : State ι → Prop) : Prop :=
  ∃ t, (system d).Leads (fun _ a => faultless a = true) s t ∧ t.redis.queue = s.redis.queue ∧ P t

theorem claims_of_unclaimed (h : (system d).Reach (fun _ a => faultless a = true) s)
    (hj : (s.workers i).pc.unclaimed = some j) (free : s.redis.slotFree (s.workers i).model = true) :
    Gets d s fun t => (∃ x, (t.workers i).pc = .tracking j x) ∧ t.redis.status j = some .dispatched := by
  have claim : ∀ {u : State ι} {ts : Nat}, (u.workers i).pc = .claiming j ts →
      u.redis.slotFree (u.workers i).model = true →
      Gets d u fun t => (∃ x, (t.workers i).pc = .tracking j x) ∧ t.redis.status j = some .dispatched := by
    intro u ts pc free
    have hr : (u.workers i).pc.resume (u.workers i).model u.redis (u.workers i).stop =
        some (.tracking j u.redis.now, []) := by rw [pc, Pc.resume, if_pos free]
    obtain ⟨t, ht, hw, hr⟩ := leads_itself (d := d) hr
    rw [pc, Pc.serve, if_pos free] at hr
    exact ⟨t, ht.mono fun _ _ ha => by rw [ha]; rfl, by rw [hr]; rfl, ⟨_, by rw [hw]⟩,
      by rw [hr]; exact Redis.claimSlot_status ..⟩
  cases pc : (s.workers i).pc with
  | waitSlot k =>
    rw [pc] at hj; cases hj
    have hr : (s.workers i).pc.resume (s.workers i).model s.redis (s.workers i).stop =
        some (.claiming j s.redis.now, []) := by rw [pc, (running h i).stop]; rfl
    obtain ⟨t, ht, hw, hr⟩ := leads_itself (d := d) hr
    rw [pc] at hr
    obtain ⟨u, hu, hq, hp⟩ := claim (u := t) (by rw [hw]) (by rw [hw, hr]; exact free)
    exact ⟨u, .trans (ht.mono fun _ _ ha => by rw [ha]; rfl) hu, hq.trans (by rw [hr]; rfl), hp⟩
  | claiming k ts => rw [pc] at hj; cases hj; exact claim pc free
  | _ => rw [pc] at hj; cases hj

/-- A worker without a popped job gets back to its queue. -/
theorem pops_of_claimed (h : (system d).Reach (fun _ a => faultless a = true) s)
    (hu : (s.workers i).pc.unclaimed = none) : Gets d s fun t => (t.workers i).pc = .popping := by
  have alive := running h i
  by_cases hp : (s.workers i).pc = .popping
  · exact ⟨s, .refl, rfl, hp⟩
  have parses := parses faultless_admitsIntegral h
  have staying := staying h alive.stop
  have back : (s.workers i).pc.Returns d.config (fun a => a = .go ∨ a = .respond (.ok (.obj []))) (s.workers i).model
      (s.workers i).stop s.redis := by
    cases he : (s.workers i).pc.engaged s.redis with
    | false => exact returns_of_not_engaged (.inl rfl) he staying hu ⟨hp, alive.alive⟩
    | true =>
      cases pc : (s.workers i).pc with
      | tracking k x => exact Pc.returns_tracking (.inl rfl) (.inr rfl) parses
      | fetching k => exact Pc.returns_fetching (.inl rfl) (.inr rfl) parses
      | forwarding k info => exact Pc.returns_forwarding (.inl rfl) (.inr rfl)
      | _ => rw [pc] at he; cases he
  obtain ⟨t, ht, hw, spares⟩ : ∃ t, (system d).Leads (fun _ a => faultless a = true) s t ∧ _ :=
    leads_of_returns (fun a ha _ => by rcases ha with rfl | rfl <;> rfl) back
  have poll : (t.workers i).pc.resume (t.workers i).model t.redis (t.workers i).stop = some (.popping, []) := by
    rw [hw, alive.stop]; rfl
  obtain ⟨u, hu, hw', hr⟩ := leads_itself (d := d) poll
  exact ⟨u, .trans ht (hu.mono fun _ _ ha => by rw [ha]; rfl), by rw [hr, hw]; exact spares.queue,
    show (u.workers i).pc = .popping by rw [hw']⟩

end

section
variable {ι : Type} [Fintype ι] [DecidableEq ι] {d : Deployment ι} {s t : State ι} {i : ι} {m j : String}

theorem pops (hm : d.workerModel i = m) (one : ∀ k, d.workerModel k = m → k = i)
    (h : (system d).Reach (fun _ a => faultless a = true) s) : Gets d s fun t => (t.workers i).pc = .popping := by
  cases hu : (s.workers i).pc.unclaimed with
  | none => exact pops_of_claimed h hu
  | some k =>
    have free := slotFree_of_idle hm one h (Pc.slot_of_unclaimed hu)
    obtain ⟨t, ht, hq, ⟨x, pc⟩, -⟩ := claims_of_unclaimed h hu (by rw [model_const h, hm]; exact free)
    obtain ⟨u, hu, hq', hp⟩ := pops_of_claimed (i := i) (h.leads ht) (by rw [pc]; rfl)
    exact ⟨u, ht.trans hu, hq'.trans hq, hp⟩

theorem served_of_unclaimed (hm : d.workerModel i = m) (one : ∀ k, d.workerModel k = m → k = i)
    (h : (system d).Reach (fun _ a => faultless a = true) s) (hj : (s.workers i).pc.unclaimed = some j) :
    Served d s j := by
  have free := slotFree_of_idle hm one h (Pc.slot_of_unclaimed hj)
  obtain ⟨t, ht, -, -, hst⟩ := claims_of_unclaimed h hj (by rw [model_const h, hm]; exact free)
  exact ⟨t, ht, hst⟩

/-- The worker pops one job after the other; the induction is on the length of the queue. -/
theorem served_of_queued (hm : d.workerModel i = m) (one : ∀ k, d.workerModel k = m → k = i) : ∀ {s : State ι},
    (system d).Reach (fun _ a => faultless a = true) s → j ∈ s.redis.queue m → Served d s j
  | s, h, hj => by
    obtain ⟨t, ht, hq, pc⟩ := pops hm one h
    have ht' := h.leads ht
    have model := (model_const ht' i).trans hm
    cases hp : (t.redis.queue m).popMin? with
    | none => rw [hq] at hp; exact absurd hj (SortedSet.popMin_eq_none.mp hp j)
    | some p =>
      obtain ⟨x, k, q⟩ := p
      have first : t.redis.firstQueued m = some k := by rw [Redis.firstQueued, hp]; rfl
      have pop : (t.workers i).pc.resume (t.workers i).model t.redis (t.workers i).stop = some (.waitSlot k, []) := by
        rw [pc, Pc.resume, model, first]; rfl
      obtain ⟨u, hu, hw, hr⟩ := leads_itself (d := d) pop
      have run : (system d).Leads (fun _ a => faultless a = true) s u :=
        ht.trans (hu.mono fun _ _ ha => by rw [ha]; rfl)
      have queue : u.redis.queue m = q := by
        rw [hr, pc, Pc.serve, model]; simp [Redis.popQueue, hp]
      refine .of_leads run ?_
      by_cases hk : j = k
      · subst hk
        exact served_of_unclaimed hm one (h.leads run) (by rw [hw]; rfl)
      · have shorter : (u.redis.queue m).card < (s.redis.queue m).card := by
          have := SortedSet.card_of_popMin hp
          rw [← hq, queue]; omega
        have rest : j ∈ u.redis.queue m := by
          rw [← hq] at hj
          rw [queue]
          exact ((SortedSet.mem_of_popMin hp j).mp hj).resolve_left hk
        exact served_of_queued hm one (h.leads run) rest
  termination_by s => (s.redis.queue m).card

end

/-! ## Models without a worker -/

section
variable {ι : Type} [DecidableEq ι] {d : Deployment ι} {s t : State ι} {m j : String} {ok : State ι → Action ι → Prop}

theorem worker_of_dispatched (h : (system d).Reach ok s) (hj : s.redis.status j = some .dispatched) :
    ∃ i, jobModel s j = some (d.workerModel i) := by
  refine h.invariant (I := fun s => s.redis.status j = some .dispatched → ∃ i, jobModel s j = some (d.workerModel i))
    (fun h => by (cases h)) (fun u a v hr hu _ hs hv => ?_) hj
  have hst := status_write (j := j) (life hr) (priorities hr) hs
  generalize hx : v.redis.status j = x at hst
  rw [hv] at hx
  cases hst with
  | keep =>
    obtain ⟨i, hi⟩ := hu hx.symm
    exact ⟨i, jobModel_step (life hr) hs hi⟩
  | @claim i b ts act pc =>
    refine ⟨i, jobModel_step (life hr) hs ?_⟩
    rw [← model_const hr i]
    exact (life hr).jobModel_worker (by rw [pc]; rfl)
  | @mark i b info v => cases v <;> cases hx
  | purge | clean | cancelled | cancelling | reclaim | enqueue => cases hx

theorem jobModel_of_leads (h : (system d).Reach ok s) (hl : (system d).Leads ok s t) (hj : jobModel s j = some m) :
    jobModel t j = some m :=
  hl.invariant (I := fun t => jobModel t j = some m) hj fun _ _ _ hu ih _ hs => jobModel_step (life (h.leads hu)) hs ih

theorem configured_of_dispatched (h : (system d).Reach ok s) (hl : (system d).Leads ok s t) (hj : jobModel s j = some m)
    (hst : t.redis.status j = some .dispatched) : m ∈ d.config.allModelNames := by
  obtain ⟨i, hi⟩ := worker_of_dispatched (h.leads hl) hst
  rw [jobModel_of_leads h hl hj, Option.some.injEq] at hi
  rw [hi]; exact d.configured i

end

/-- After a run without failures, the capacity key, the worker and a continuation in which the waiting job is
dispatched are there if and only if its model is configured. -/
theorem consumer_iff {c : AppConfig} {sha256 : String → String} {s : State { m : String // m ∈ c.allModelNames }}
    (h : (system (c.startup sha256)).Reach (fun _ a => faultless a = true) s) {m j : String}
    (hj : stage s.trace j = .queued m ∨ stage s.trace j = .popped m) :
    ((s.redis.capacity m).isSome = true ↔ m ∈ c.allModelNames) ∧
      ((∃ i, (s.workers i).model = m) ↔ m ∈ c.allModelNames) ∧
      (Served (c.startup sha256) s j ↔ m ∈ c.allModelNames) := by
  refine ⟨?_, ⟨?_, ?_⟩, ?_, fun hm => ?_⟩
  · rw [capacity_const h]; exact AppConfig.capacityOf_isSome
  · rintro ⟨i, rfl⟩
    rw [model_const h i]; exact i.2
  · exact fun hm => ⟨⟨m, hm⟩, model_const h _⟩
  · rintro ⟨t, ht, hst⟩
    have model : jobModel s j = some m := by rcases hj with hj | hj <;> rw [jobModel, hj] <;> rfl
    exact configured_of_dispatched h ht model hst
  · have serves : (c.startup sha256).workerModel ⟨m, hm⟩ = m := rfl
    have one : ∀ k, (c.startup sha256).workerModel k = m → k = ⟨m, hm⟩ := fun k hk => Subtype.ext hk
    rcases hj with hj | hj
    · exact served_of_queued serves one h (((life h).queue m j).mpr hj)
    · obtain ⟨i, hi⟩ := held_of_popped h hj
      have popped := (life h).worker i j (Pc.unclaimed_job hi)
      have own : (s.workers i).model = m := by
        have := Pc.unclaimed_at hi popped
        rw [hj] at this; cases this; rfl
      have := one i ((model_const h i).symm.trans own)
      subst this
      exact served_of_unclaimed serves one h hi

/-- Its job is admitted under the defaults and never gets out of the queue. -/
theorem never_served : ¬∀ s, (system (chatOnly.startup id)).Reach (fun _ a => faultless a = true) s → ∀ m,
    ∀ j ∈ s.redis.queue m, ∃ t, (system (chatOnly.startup id)).Leads Machine.Any s t ∧
      t.redis.status j = some .dispatched := by
  intro h
  obtain ⟨s, hr, mem, model⟩ := (system (chatOnly.startup id)).reach_of_exec (fun _ a => faultless a = true)
    (admitRun 0 otherRequest "a") (fun s => "a" ∈ s.redis.queue "other" ∧ jobModel s "a" = some "other")
    (by decide +kernel)
  obtain ⟨t, ht, hst⟩ := h s hr "other" "a" mem
  exact absurd (configured_of_dispatched hr.any ht model hst) (by decide)

theorem consumer_iff_run : ∃ s, (system (chatOnly.startup id)).Reach (fun _ a => faultless a = true) s ∧
    ((s.redis.capacity "chat").isSome = true ↔ "chat" ∈ chatOnly.allModelNames) ∧
      ((∃ i, (s.workers i).model = "chat") ↔ "chat" ∈ chatOnly.allModelNames) ∧
      (Served (chatOnly.startup id) s "a" ↔ "chat" ∈ chatOnly.allModelNames) := by
  obtain ⟨s, hr, hj⟩ := (system (chatOnly.startup id)).reach_of_exec (fun _ a => faultless a = true)
    (admitRun 0 (chatRequest (.obj []) .null none) "a") (fun s => stage s.trace "a" = .queued "chat") (by decide +kernel)
  exact ⟨s, hr, consumer_iff hr (.inl hj)⟩

end AdmissionScheduler
