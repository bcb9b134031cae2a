import AdmissionScheduler.SlotSound

/-!
# When a worker gets back to its queue

A worker handles one job at a time: between a claim and the return of the
forward it neither pops nor claims, whatever the capacity of its model. From
every other place it gets back to its loop by its own steps, with the queue as
it was and no more slots in use.
-/

namespace AdmissionScheduler

/-! ## Ways back to the loop -/

theorem Redis.Parses.hset {r : Redis} (h : r.Parses) (j : String) {f : JobHash → JobHash}
    (hf : ∀ h, (f h).priority = h.priority) : (r.hset j f).Parses := by
  intro k e he
  by_cases hk : k = j
  · subst hk
    rw [hset_job, Option.some.injEq] at he
    subst he
    simp only [written, hf]
    cases hj : r.job k with
    | none => simp [hashOf, hj, parsePriority]
    | some e => rw [hashOf_eq hj]; exact h k e hj
  · rw [hset_job_ne hk] at he; exact h k e he

theorem Redis.Parses.expire {r : Redis} (h : r.Parses) (j : String) (ttl : Nat) : (r.expire j ttl).Parses := by
  intro k e he
  by_cases hk : k = j
  · subst hk
    simp only [Redis.expire, Function.update_self, Option.map_eq_some_iff] at he
    obtain ⟨e₀, he₀, rfl⟩ := he
    exact h k e₀ he₀
  · rw [expire_job_ne hk] at he; exact h k e he

theorem Pc.serve_parses {c : AppConfig} {r : Redis} (h : r.Parses) (pc : Pc) (m : String) :
    (pc.serve c m r).Parses := by
  cases pc with
  | claiming j ts =>
    simp only [serve]
    split
    · exact Redis.Parses.hset (r := r.addInUse m 1) h j fun _ => rfl
    · exact h
  | marking j info v ts => exact (h.hset j fun _ => by cases v <;> rfl).expire j _
  | cleaning j ts => simp only [serve]; exact h.hset j fun _ => rfl
  | _ => exact h

structure Redis.Spares (m : String) (r r' : Redis) : Prop where
  queue : r'.queue = r.queue
  capacity : r'.capacity = r.capacity
  inUse : r'.inUseOf m ≤ r.inUseOf m

theorem Redis.Spares.refl (m : String) (r : Redis) : r.Spares m r := ⟨rfl, rfl, le_rfl⟩

theorem Redis.Spares.trans {m : String} {r r' r'' : Redis} (h : r.Spares m r') (h' : r'.Spares m r'') :
    r.Spares m r'' :=
  ⟨h'.queue.trans h.queue, h'.capacity.trans h.capacity, h'.inUse.trans h.inUse⟩

theorem Redis.Spares.slotFree {m : String} {r r' : Redis} (h : r.Spares m r') (hf : r.slotFree m = true) :
    r'.slotFree m = true := by
  simp only [Redis.slotFree, h.capacity] at *
  split at hf
  · have := h.inUse
    simp only [decide_eq_true_eq] at *; omega
  · cases hf

theorem Redis.Spares.firstQueued {m : String} {r r' : Redis} (h : r.Spares m r') :
    r'.firstQueued m = r.firstQueued m := by
  simp only [Redis.firstQueued, h.queue]

namespace Pc

def spares : Pc → Bool
  | popping | claiming .. => false
  | _ => true

theorem serve_spares {c : AppConfig} {m : String} {r : Redis} {pc : Pc} (h : pc.spares = true) :
    r.Spares m (pc.serve c m r) := by
  cases pc with
  | popping | claiming => cases h
  | releasing j next =>
    refine ⟨rfl, rfl, ?_⟩
    simp only [serve, Redis.releaseSlot, Redis.removeInflight, Redis.addInUse, Redis.inUseOf, Function.update_self,
      Option.getD_some]
    omega
  | _ => exact ⟨rfl, rfl, le_rfl⟩

/-- `CancelledError` is on its way to the end of the task. -/
def leaving : Pc → Bool
  | marking _ _ v _ | publishing _ _ v => v = .cancelled
  | releasing _ next => next = .reraise
  | _ => false

/-- By own steps that meet `act`, a worker at this place gets back to its loop. -/
def Returns (c : AppConfig) (act : WorkerAct → Prop) (m : String) (stop : Bool) (r : Redis) (pc : Pc) : Prop :=
  ∃ l r' es, (∀ a ∈ l, act a) ∧ Worker.run c r ⟨m, stop, pc⟩ l = some (r', ⟨m, stop, .poll⟩, es) ∧ r.Spares m r'

section
variable {c : AppConfig} {act : WorkerAct → Prop} {m j : String} {stop : Bool} {r : Redis} {info : JobInfo} {v : Verdict}
  {ts : Nat}

theorem returns_poll : Returns c act m stop r .poll := ⟨[], r, [], by simp, rfl, .refl m r⟩

theorem returns_go {pc pc' : Pc} {es : List Event} (go : act .go) (hr : pc.resume m r stop = some (pc', es))
    (hs : pc.spares = true) (h : Returns c act m stop (pc.serve c m r) pc') : Returns c act m stop r pc := by
  obtain ⟨l, r', es', hl, hrun, spares⟩ := h
  have first : Worker.step c r ⟨m, stop, pc⟩ .go = some (pc.serve c m r, ⟨m, stop, pc'⟩, es ++ pc.served m r true) := by
    simp only [Worker.step, hr, Option.map_some]
  exact ⟨.go :: l, r', _, List.forall_mem_cons.mpr ⟨go, hl⟩, Worker.run_cons first hrun, (serve_spares hs).trans spares⟩

theorem returns_announcing (go : act .go) : Returns c act m stop r (.announcing j) :=
  returns_go go rfl rfl returns_poll

theorem returns_releasing (go : act .go) {next : After} (h : next ≠ .reraise) :
    Returns c act m stop r (.releasing j next) := by
  cases next with
  | ret => exact returns_go go rfl rfl returns_poll
  | reraise => exact absurd rfl h
  | announce => exact returns_go go rfl rfl (returns_announcing go)

theorem returns_cleaning (go : act .go) : Returns c act m stop r (.cleaning j ts) :=
  returns_go go rfl rfl (returns_releasing go (by decide))

theorem returns_publishing (go : act .go) (h : v ≠ .cancelled) : Returns c act m stop r (.publishing j info v) :=
  returns_go go rfl rfl (by rw [afterReport, if_neg h]; exact returns_releasing go (by decide))

theorem returns_marking (go : act .go) (h : v ≠ .cancelled) : Returns c act m stop r (.marking j info v ts) :=
  returns_go go rfl rfl (returns_publishing go h)

theorem returns_forwarding (go : act .go) {o : Outcome} (respond : act (.respond o)) :
    Returns c act m stop r (.forwarding j info) := by
  have mark : Returns c act m stop r (.marking j info o.verdict r.now) := returns_marking go o.verdict_ne_cancelled
  obtain ⟨l, r', es', hl, hrun, spares⟩ := mark
  exact ⟨.respond o :: l, r', _, List.forall_mem_cons.mpr ⟨respond, hl⟩, Worker.run_cons rfl hrun, spares⟩

theorem returns_fetching_absent (go : act .go) (h : r.job j = none) : Returns c act m stop r (.fetching j) := by
  have fetch : (Pc.fetching j).resume m r stop = some (.releasing j .ret, []) := by rw [resume, h]
  exact returns_go go fetch rfl (returns_releasing go (by decide))

theorem returns_tracking_absent (go : act .go) {t : Nat} (h : r.job j = none) :
    Returns c act m stop r (.tracking j t) :=
  returns_go go rfl rfl (returns_fetching_absent go h)

theorem resume_fetching (m : String) (stop : Bool) {e : Entry JobHash} (he : r.job j = some e) (hp : r.Parses) :
    ∃ info es, (Pc.fetching j).resume m r stop = some (.forwarding j info, es) := by
  obtain ⟨n, hn⟩ := Option.ne_none_iff_exists'.mp (hp j e he)
  simp [resume, he, JobHash.info, hn]

theorem returns_fetching (go : act .go) {o : Outcome} (respond : act (.respond o)) (hp : r.Parses) :
    Returns c act m stop r (.fetching j) := by
  cases he : r.job j with
  | none => exact returns_fetching_absent go he
  | some e =>
    obtain ⟨info, es, hr⟩ := resume_fetching m stop he hp
    exact returns_go go hr rfl (returns_forwarding go respond)

theorem returns_tracking (go : act .go) {o : Outcome} (respond : act (.respond o)) (hp : r.Parses) {t : Nat} :
    Returns c act m stop r (.tracking j t) :=
  returns_go go rfl rfl (returns_fetching go respond hp)

end

/-! ## Engaged workers -/

/-- The worker will forward its job, or is forwarding it. -/
def engaged (r : Redis) : Pc → Bool
  | tracking j _ | fetching j => (r.job j).isSome
  | forwarding .. => true
  | _ => false

def dispatches (m : String) (r : Redis) : Pc → Bool
  | popping => (r.firstQueued m).isSome
  | claiming .. => r.slotFree m
  | _ => false

/-- By itself an engaged worker gets to the forward, unless the priority of its job kills it. -/
theorem resume_engaged {c : AppConfig} {m : String} {r : Redis} {pc pc' : Pc} {stop : Bool} {es : List Event}
    (h : pc.engaged r = true ∨ pc = .crashed) (hr : pc.resume m r stop = some (pc', es)) :
    pc'.engaged (pc.serve c m r) = true ∨ pc' = .crashed := by
  rcases h with h | rfl
  · cases pc with
    | tracking j t => cases hr; exact .inl h
    | fetching j =>
      obtain ⟨e, he⟩ := Option.isSome_iff_exists.mp h
      simp only [resume, he] at hr
      split at hr <;> cases hr
      · exact .inr rfl
      · exact .inl rfl
    | forwarding j info => cases hr
    | _ => cases h
  · cases hr

theorem not_dispatches {m : String} {r : Redis} {pc : Pc} (h : pc.engaged r = true ∨ pc = .crashed) :
    pc.dispatches m r = false := by
  rcases h with h | rfl
  · cases pc <;> first | rfl | cases h
  · rfl

end Pc

section
variable {ι : Type} [DecidableEq ι] {d : Deployment ι} {s s' t : State ι} {i : ι} {m : String}

omit [DecidableEq ι] in
def itself (i : ι) : State ι → Action ι → Prop := fun _ a => a = .worker i .go

/-- Without waiting for a forward, worker `i` gets to a pop from a queue with a job or to a claim of a free slot. -/
def CanDispatch (d : Deployment ι) (s : State ι) (i : ι) : Prop :=
  ∃ t, (system d).Leads (itself i) s t ∧ (t.workers i).pc.dispatches (t.workers i).model t.redis = true

theorem engaged_step (h : (s.workers i).pc.engaged s.redis = true ∨ (s.workers i).pc = .crashed)
    (hs : step d s (.worker i .go) = some s') :
    (s'.workers i).pc.engaged s'.redis = true ∨ (s'.workers i).pc = .crashed := by
  simp only [step, Worker.step, Option.map_eq_some_iff] at hs
  obtain ⟨-, ⟨⟨pc', es⟩, hr, rfl⟩, rfl⟩ := hs
  simp only [Function.update_self]
  exact Pc.resume_engaged h hr

theorem not_canDispatch (h : (s.workers i).pc.engaged s.redis = true) : ¬CanDispatch d s i := by
  rintro ⟨t, ht, hd⟩
  have := ht.invariant (I := fun t => (t.workers i).pc.engaged t.redis = true ∨ (t.workers i).pc = .crashed) (.inl h)
    fun u a v _ hu ha hs => engaged_step hu (ha ▸ hs)
  rw [Pc.not_dispatches this] at hd; cases hd

/-! ## Workers on their way out -/

theorem Pc.resume_leaving {pc pc' : Pc} {r : Redis} {stop : Bool} {es : List Event}
    (hr : pc.resume m r stop = some (pc', es)) (h : pc'.leaving = true) : pc.leaving = true := by
  cases pc with
  | marking j info v ts => cases hr; exact h
  | publishing j info v =>
    cases hr
    by_cases hv : v = .cancelled
    · simp [leaving, hv]
    · simp [leaving, afterReport, hv] at h
  | releasing j next => cases hr; cases next <;> cases h
  | popping =>
    obtain ⟨j, -, hj⟩ := Option.map_eq_some_iff.mp hr
    cases hj; cases h
  | fetching j =>
    simp only [resume] at hr
    split at hr
    · cases hr; cases h
    · split at hr <;> cases hr <;> cases h
  | poll | waitSlot => cases stop <;> cases hr <;> cases h
  | claiming j ts => cases hf : r.slotFree m <;> simp only [resume, hf] at hr <;> cases hr <;> cases h
  | tracking | cleaning | announcing => cases hr; cases h
  | forwarding | exited | crashed => cases hr

theorem Pc.onError_leaving {pc pc' : Pc} {r : Redis} {es : List Event} (hr : pc.onError r = some (pc', es))
    (h : pc'.leaving = true) : pc.leaving = true := by
  cases pc with
  | marking j info v ts => cases hr; exact h
  | publishing j info v =>
    cases hr
    by_cases hv : v = .cancelled
    · simp [leaving, hv]
    · simp [leaving, afterReport, hv] at h
  | releasing j next => cases hr; cases next <;> cases h
  | popping | claiming | tracking | fetching | cleaning | announcing => cases hr; cases h
  | poll | waitSlot | forwarding | exited | crashed => cases hr

/-- Only a worker that was told to stop has its task cancelled. -/
theorem Worker.step_leaving {c : AppConfig} {r r' : Redis} {w w' : Worker} {b : WorkerAct} {es : List Event}
    (h : w.step c r b = some (r', w', es)) (hw : w.pc.leaving = true → w.stop = true) (hl : w'.pc.leaving = true) :
    w'.stop = true := by
  cases b with
  | go =>
    simp only [step, Option.map_eq_some_iff, Prod.mk.injEq] at h
    obtain ⟨⟨pc', es'⟩, hr, -, rfl, -⟩ := h
    exact hw (Pc.resume_leaving hr hl)
  | fail took =>
    simp only [step, Option.map_eq_some_iff, Prod.mk.injEq] at h
    obtain ⟨⟨pc', es'⟩, hr, -, rfl, -⟩ := h
    exact hw (Pc.onError_leaving hr hl)
  | cancel took =>
    simp only [step, Option.ite_none_right_eq_some, Option.map_eq_some_iff, Prod.mk.injEq] at h
    obtain ⟨hs, pc', -, -, rfl, -⟩ := h
    exact hs
  | respond o =>
    simp only [step] at h
    split at h <;> cases h
    exact absurd (of_decide_eq_true hl) o.verdict_ne_cancelled
  | timeout | start =>
    simp only [step, Option.ite_none_right_eq_some] at h
    obtain ⟨-, h⟩ := h; cases h; cases hl
  | stop => cases h; rfl
  | kill => cases h; cases hl

theorem stop_of_leaving {ok : State ι → Action ι → Prop} (h : (system d).Reach ok s)
    (hl : (s.workers i).pc.leaving = true) : (s.workers i).stop = true := by
  refine h.invariant (I := fun s => (s.workers i).pc.leaving = true → (s.workers i).stop = true) (fun h => by (cases h))
    (fun u a v _ hu _ hs hv => ?_) hl
  rcases worker_of_step hs i with ⟨-, hw⟩ | ⟨b, es, -, hw, -⟩
  · rw [hw] at hv ⊢; exact hu hv
  · exact Worker.step_leaving hw hu hv

theorem staying {ok : State ι → Action ι → Prop} (h : (system d).Reach ok s) (hs : (s.workers i).stop = false) :
    (s.workers i).pc.leaving = false := by
  by_contra hl
  have := stop_of_leaving h (by simpa using hl)
  rw [hs] at this; cases this

theorem model_const {ok : State ι → Action ι → Prop} (h : (system d).Reach ok s) (i : ι) :
    (s.workers i).model = d.workerModel i := by
  refine h.invariant (I := fun s => (s.workers i).model = d.workerModel i) rfl fun u a v _ hu _ hs => ?_
  rcases worker_of_step hs i with ⟨-, hw⟩ | ⟨b, es, -, hw, -⟩
  · rw [hw]; exact hu
  · exact (Worker.step_model hw).trans hu

/-! ## Back to the loop -/

theorem leads_of_returns {ok : State ι → Action ι → Prop} {act : WorkerAct → Prop}
    (hok : ∀ a, act a → ∀ u, ok u (.worker i a))
    (h : (s.workers i).pc.Returns d.config act (s.workers i).model (s.workers i).stop s.redis) :
    ∃ t, (system d).Leads ok s t ∧ t.workers i = { s.workers i with pc := .poll } ∧
      s.redis.Spares (s.workers i).model t.redis := by
  obtain ⟨l, r', es, hl, hrun, spares⟩ := h
  exact ⟨_, leads_of_run (fun a ha => hok a (hl a ha)) hrun, by simp, spares⟩

omit [DecidableEq ι] in
/-- A worker that has neither a job to claim nor one to forward gets back to its loop. -/
theorem returns_of_not_engaged {act : WorkerAct → Prop} (go : act .go) {w : Worker} {r : Redis}
    (he : w.pc.engaged r = false) (hl : w.pc.leaving = false) (hu : w.pc.unclaimed = none)
    (alive : w.pc ≠ .popping ∧ w.pc ≠ .exited ∧ w.pc ≠ .crashed) :
    w.pc.Returns d.config act w.model w.stop r := by
  cases hp : w.pc with
  | poll => exact Pc.returns_poll
  | popping => exact absurd hp alive.1
  | exited => exact absurd hp alive.2.1
  | crashed => exact absurd hp alive.2.2
  | waitSlot | claiming => rw [hp] at hu; cases hu
  | tracking j t =>
    rw [hp] at he
    exact Pc.returns_tracking_absent go (by simpa [Pc.engaged] using he)
  | fetching j =>
    rw [hp] at he
    exact Pc.returns_fetching_absent go (by simpa [Pc.engaged] using he)
  | forwarding => rw [hp] at he; cases he
  | marking j info v ts => rw [hp] at hl; exact Pc.returns_marking go (of_decide_eq_false hl)
  | publishing j info v => rw [hp] at hl; exact Pc.returns_publishing go (of_decide_eq_false hl)
  | releasing j next => rw [hp] at hl; exact Pc.returns_releasing go (of_decide_eq_false hl)
  | cleaning j ts => exact Pc.returns_cleaning go
  | announcing j => exact Pc.returns_announcing go

theorem leads_go {ok : State ι → Action ι → Prop} (hok : ∀ u, ok u (.worker i .go)) {pc : Pc} {es : List Event}
    (hr : (s.workers i).pc.resume (s.workers i).model s.redis (s.workers i).stop = some (pc, es)) :
    ∃ t, (system d).Leads ok s t ∧ t.workers i = { s.workers i with pc } ∧
      t.redis = (s.workers i).pc.serve d.config (s.workers i).model s.redis := by
  have run : (s.workers i).run d.config s.redis [.go] = some ((s.workers i).pc.serve d.config (s.workers i).model s.redis,
      { s.workers i with pc }, es ++ (s.workers i).pc.served (s.workers i).model s.redis true) := by
    simp [Worker.run, Worker.step, hr]
  exact ⟨_, leads_of_run (by simpa using hok) run, by simp, rfl⟩

theorem leads_itself {pc : Pc} {es : List Event}
    (hr : (s.workers i).pc.resume (s.workers i).model s.redis (s.workers i).stop = some (pc, es)) :
    ∃ t, (system d).Leads (itself i) s t ∧ t.workers i = { s.workers i with pc } ∧
      t.redis = (s.workers i).pc.serve d.config (s.workers i).model s.redis :=
  leads_go (by intro u; rfl) hr

/-! ## Work conservation -/

def CanClaim (d : Deployment ι) (s : State ι) (i : ι) : Prop :=
  ∃ t, (system d).Leads (itself i) s t ∧ (∃ j ts, (t.workers i).pc = .claiming j ts) ∧
    t.redis.slotFree (t.workers i).model = true

theorem CanClaim.of_leads (h : (system d).Leads (itself i) s t) (hc : CanClaim d t i) : CanClaim d s i := by
  obtain ⟨u, hu, hp⟩ := hc
  exact ⟨u, h.trans hu, hp⟩

theorem CanClaim.canDispatch (h : CanClaim d s i) : CanDispatch d s i := by
  obtain ⟨t, ht, ⟨j, ts, pc⟩, free⟩ := h
  exact ⟨t, ht, by rw [pc]; exact free⟩

theorem canClaim_of_waitSlot {j : String} (pc : (s.workers i).pc = .waitSlot j) (stop : (s.workers i).stop = false)
    (free : s.redis.slotFree (s.workers i).model = true) : CanClaim d s i := by
  have claim : (s.workers i).pc.resume (s.workers i).model s.redis (s.workers i).stop =
      some (.claiming j s.redis.now, []) := by rw [pc, stop]; rfl
  obtain ⟨t, ht, hw, hr⟩ := leads_itself (d := d) claim
  exact ⟨t, ht, ⟨j, _, by rw [hw]⟩, by rw [hw, hr, pc]; exact free⟩

theorem canClaim_of_popping (pc : (s.workers i).pc = .popping) (stop : (s.workers i).stop = false)
    (free : s.redis.slotFree (s.workers i).model = true) {j : String}
    (first : s.redis.firstQueued (s.workers i).model = some j) : CanClaim d s i := by
  have pop : (s.workers i).pc.resume (s.workers i).model s.redis (s.workers i).stop = some (.waitSlot j, []) := by
    rw [pc, Pc.resume, first]; rfl
  obtain ⟨t, ht, hw, hr⟩ := leads_itself (d := d) pop
  exact .of_leads ht (canClaim_of_waitSlot (by rw [hw]) (by rw [hw]; exact stop) (by rw [hw, hr, pc]; exact free))

theorem canClaim_of_poll (pc : (s.workers i).pc = .poll) (stop : (s.workers i).stop = false)
    (free : s.redis.slotFree (s.workers i).model = true) {j : String}
    (first : s.redis.firstQueued (s.workers i).model = some j) : CanClaim d s i := by
  have poll : (s.workers i).pc.resume (s.workers i).model s.redis (s.workers i).stop = some (.popping, []) := by
    rw [pc, stop]; rfl
  obtain ⟨t, ht, hw, hr⟩ := leads_itself (d := d) poll
  exact .of_leads ht (canClaim_of_popping (j := j) (by rw [hw]) (by rw [hw]; exact stop)
    (by rw [hw, hr, pc]; exact free) (by rw [hw, hr, pc]; exact first))

structure Worker.Running (w : Worker) : Prop where
  stop : w.stop = false
  alive : w.pc ≠ .exited ∧ w.pc ≠ .crashed

theorem canClaim_of_not_engaged {ok : State ι → Action ι → Prop} (h : (system d).Reach ok s)
    (running : (s.workers i).Running) (he : (s.workers i).pc.engaged s.redis = false)
    (free : s.redis.slotFree (s.workers i).model = true) {j : String}
    (first : s.redis.firstQueued (s.workers i).model = some j) : CanClaim d s i := by
  have staying := staying h running.stop
  by_cases hp : (s.workers i).pc = .popping
  · exact canClaim_of_popping hp running.stop free first
  cases hu : (s.workers i).pc.unclaimed with
  | some k =>
    cases pc : (s.workers i).pc with
    | waitSlot k => exact canClaim_of_waitSlot pc running.stop free
    | claiming k ts => exact ⟨s, .refl, ⟨k, ts, pc⟩, free⟩
    | _ => rw [pc] at hu; cases hu
  | none =>
    have back : (s.workers i).pc.Returns d.config (fun a => a = .go) (s.workers i).model (s.workers i).stop s.redis :=
      returns_of_not_engaged (by rfl) he staying hu ⟨hp, running.alive⟩
    obtain ⟨t, ht, hw, spares⟩ : ∃ t, (system d).Leads (itself i) s t ∧ _ :=
      leads_of_returns (fun a ha _ => congrArg _ ha) back
    exact .of_leads ht (canClaim_of_poll (by rw [hw]) (by rw [hw]; exact running.stop)
      (by rw [hw]; exact spares.slotFree free) (j := j) (by rw [hw]; exact spares.firstQueued.trans first))

/-! ## Jobs at the backend -/

def CanForward (d : Deployment ι) (s : State ι) (i : ι) : Prop :=
  ∃ t, (system d).Leads (itself i) s t ∧ ∃ j info, (t.workers i).pc = .forwarding j info

theorem CanForward.of_leads (h : (system d).Leads (itself i) s t) (hc : CanForward d t i) : CanForward d s i := by
  obtain ⟨u, hu, hp⟩ := hc
  exact ⟨u, h.trans hu, hp⟩

theorem parses_of_itself (h : (system d).Leads (itself i) s t) (hp : s.redis.Parses) : t.redis.Parses := by
  refine h.invariant (I := fun t => t.redis.Parses) hp fun u a v _ hu ha hs => ?_
  rcases worker_of_step hs i with ⟨hne, -⟩ | ⟨b, es, -, hw, -⟩
  · exact absurd ha (hne _)
  · rcases Worker.step_redis hw with hr | ⟨-, hr⟩ <;> rw [hr]
    · exact hu
    · exact Pc.serve_parses hu _ _

theorem canForward_of_fetching {j : String} (pc : (s.workers i).pc = .fetching j) (he : (s.redis.job j).isSome)
    (hp : s.redis.Parses) : CanForward d s i := by
  obtain ⟨e, he⟩ := Option.isSome_iff_exists.mp he
  obtain ⟨info, es, hr⟩ := Pc.resume_fetching (s.workers i).model (s.workers i).stop he hp
  obtain ⟨t, ht, hw, -⟩ := leads_itself (d := d) (pc ▸ hr)
  exact ⟨t, ht, j, info, by rw [hw]⟩

theorem canForward_of_tracking {j : String} {x : Nat} (pc : (s.workers i).pc = .tracking j x)
    (he : (s.redis.job j).isSome) (hp : s.redis.Parses) : CanForward d s i := by
  have track : (s.workers i).pc.resume (s.workers i).model s.redis (s.workers i).stop = some (.fetching j, []) := by
    rw [pc]; rfl
  obtain ⟨t, ht, hw, hr⟩ := leads_itself (d := d) track
  exact .of_leads ht (canForward_of_fetching (by rw [hw]) (by rw [hr, pc]; exact he) (parses_of_itself ht hp))

theorem canForward_of_engaged (he : (s.workers i).pc.engaged s.redis = true) (hp : s.redis.Parses) :
    CanForward d s i := by
  cases pc : (s.workers i).pc with
  | tracking j x => rw [pc] at he; exact canForward_of_tracking pc he hp
  | fetching j => rw [pc] at he; exact canForward_of_fetching pc he hp
  | forwarding j info => exact ⟨s, .refl, j, info, pc⟩
  | _ => rw [pc] at he; cases he

theorem canForward_of_canClaim (h : CanClaim d s i) (hp : s.redis.Parses) : CanForward d s i := by
  obtain ⟨t, ht, ⟨j, ts, pc⟩, free⟩ := h
  have claim : (t.workers i).pc.resume (t.workers i).model t.redis (t.workers i).stop =
      some (.tracking j t.redis.now, []) := by rw [pc, Pc.resume, if_pos free]
  obtain ⟨u, hu, hw, hr⟩ := leads_itself (d := d) claim
  rw [pc, Pc.serve, if_pos free] at hr
  have hash : (u.redis.job j).isSome := by rw [hr, Redis.claimSlot, Redis.hset_job]; rfl
  exact .of_leads (ht.trans hu) (canForward_of_tracking (by rw [hw]) hash (parses_of_itself (ht.trans hu) hp))

end

/-- The job that `LiteLLMForwarder.forward` was called for. -/
def Pc.atBackend : Pc → Option String
  | forwarding j _ => some j
  | _ => none

section
variable {ι : Type} [Fintype ι] [DecidableEq ι] {d : Deployment ι} {s : State ι} {i : ι} {m : String}

omit [DecidableEq ι] in
def forwardingJobs (m : String) (s : State ι) : Finset String :=
  holdings (fun w : Worker => if w.model = m then w.pc.atBackend else none) s.workers

theorem forwarding_le_one {ok : State ι → Action ι → Prop} (one : ∀ k, d.workerModel k = m → k = i)
    (h : (system d).Reach ok s) : (forwardingJobs m s).card ≤ 1 := by
  refine card_holdings_le_one (i := i) fun k j hk => one k ?_
  simp only [Option.ite_none_right_eq_some] at hk
  exact (model_const h k).symm.trans hk.1

/-- With one worker for the model, a job in its queue and a slot free: a pop or a claim needs no forward to
return if and only if the worker has no job to forward; and as many jobs as there are slots are ever at
the backend at once if and only if there is one slot. -/
theorem work_conserving_iff (hm : d.workerModel i = m) (one : ∀ k, d.workerModel k = m → k = i) {c : Int}
    (hc : d.config.capacityOf m = some c) (h : (system d).Reach Machine.Any s) (running : (s.workers i).Running)
    {j : String} (queued : j ∈ s.redis.queue m) (free : s.redis.inUseOf m < c) :
    (CanDispatch d s i ↔ (s.workers i).pc.engaged s.redis = false) ∧
      (s.redis.Parses → ((∃ t, (system d).Leads Machine.Any s t ∧ c ≤ (forwardingJobs m t).card) ↔ c = 1)) := by
  have model := (model_const h i).trans hm
  have slot : s.redis.slotFree (s.workers i).model = true := by
    rw [model, Redis.slotFree, capacity_const h, hc]; exact decide_eq_true free
  obtain ⟨k, first⟩ : ∃ k, s.redis.firstQueued (s.workers i).model = some k := by
    rw [← Option.ne_none_iff_exists', model]
    intro hn
    rw [Redis.firstQueued, Option.map_eq_none_iff, SortedSet.popMin_eq_none] at hn
    exact hn j queued
  have claims : (s.workers i).pc.engaged s.redis = false → CanClaim d s i := fun he =>
    canClaim_of_not_engaged h running he slot first
  refine ⟨⟨fun hd => ?_, fun he => (claims he).canDispatch⟩, fun hp => ⟨?_, ?_⟩⟩
  · by_contra he
    exact not_canDispatch (by simpa using he) hd
  · rintro ⟨t, ht, hct⟩
    have := forwarding_le_one one (h.leads ht)
    have := AppConfig.capacity_pos hc
    omega
  · rintro rfl
    have forward : CanForward d s i := by
      cases he : (s.workers i).pc.engaged s.redis with
      | true => exact canForward_of_engaged he hp
      | false => exact canForward_of_canClaim (claims he) hp
    obtain ⟨t, ht, k, info, pc⟩ := forward
    have mem : k ∈ forwardingJobs m t :=
      mem_holdings.mpr ⟨i, by rw [if_pos ((model_const (h.leads ht.any) i).trans hm), pc]; rfl⟩
    exact ⟨t, ht.any, by exact_mod_cast Finset.card_pos.mpr ⟨k, mem⟩⟩

end

def forwardFirst : List (Action (Fin 1)) :=
  admitRun 0 (chatRequest (.obj []) .null none) "a" ++ admitRun 1 (chatRequest (.obj []) .null none) "b" ++
    List.replicate 6 (.worker 0 .go)

/-- The second job waits for the first forward to return, with a slot free. -/
theorem not_work_conserving : ¬∀ s, (system (chatWorkers 1 2 50 (by decide) (by decide))).Reach Machine.Any s →
    (s.workers 0).Running → ∀ j ∈ s.redis.queue "chat", s.redis.inUseOf "chat" < 2 →
      CanDispatch (chatWorkers 1 2 50 (by decide) (by decide)) s 0 := by
  intro h
  obtain ⟨s, hr, stop, alive, mem, free, he⟩ := (system (chatWorkers 1 2 50 (by decide) (by decide))).reach_of_exec
    Machine.Any forwardFirst
    (fun s => (s.workers 0).stop = false ∧ ((s.workers 0).pc ≠ .exited ∧ (s.workers 0).pc ≠ .crashed) ∧
      "b" ∈ s.redis.queue "chat" ∧ s.redis.inUseOf "chat" < 2 ∧ (s.workers 0).pc.engaged s.redis = true)
    (by decide +kernel)
  exact not_canDispatch he (h s hr ⟨stop, alive⟩ "b" mem free)

/-- Once the first forward has returned, the worker gets to the second job. -/
theorem work_conserving_iff_run : ∃ s, (system (chatWorkers 1 2 50 (by decide) (by decide))).Reach Machine.Any s ∧
    (s.workers 0).pc.engaged s.redis = false ∧
      (CanDispatch (chatWorkers 1 2 50 (by decide) (by decide)) s 0 ↔ (s.workers 0).pc.engaged s.redis = false) ∧
      (s.redis.Parses → ((∃ t, (system (chatWorkers 1 2 50 (by decide) (by decide))).Leads Machine.Any s t ∧
        (2 : Int) ≤ (forwardingJobs "chat" t).card) ↔ (2 : Int) = 1)) := by
  obtain ⟨s, hr, stop, alive, mem, free, he⟩ := (system (chatWorkers 1 2 50 (by decide) (by decide))).reach_of_exec
    Machine.Any (forwardFirst ++ [.worker 0 (.respond (.ok (.obj [])))])
    (fun s => (s.workers 0).stop = false ∧ ((s.workers 0).pc ≠ .exited ∧ (s.workers 0).pc ≠ .crashed) ∧
      "b" ∈ s.redis.queue "chat" ∧ s.redis.inUseOf "chat" < 2 ∧ (s.workers 0).pc.engaged s.redis = false)
    (by decide +kernel)
  exact ⟨s, hr, he,
    work_conserving_iff (i := 0) rfl (fun k _ => Subsingleton.elim k 0) (by decide) hr ⟨stop, alive⟩ mem free⟩

end AdmissionScheduler
