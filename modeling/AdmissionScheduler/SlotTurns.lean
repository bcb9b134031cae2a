import AdmissionScheduler.LifecycleSound
import AdmissionScheduler.SlotPool

/-!
# The slots of a model as a pool

`pool m s` reads the slot pool of a model off a state: the counter, the slots
that workers hold, the inflight set, and what the trace says was claimed and
given back. Each step of the system is then a few steps of the pool, and
`SlotCause` says which.
-/

namespace AdmissionScheduler

/-! ## Slot events -/

def Event.isSlot : Event → Bool
  | .claimed .. | .decremented .. => true
  | _ => false

def Event.slotOf (m : String) : Event → Bool
  | .claimed m' _ | .decremented m' _ => m' = m
  | _ => false

theorem filter_slotOf (m : String) (es : List Event) :
    es.filter (Event.slotOf m) = (es.filter Event.isSlot).filter (Event.slotOf m) := by
  rw [List.filter_filter]
  congr 1
  funext e
  cases e <;> simp [Event.slotOf, Event.isSlot]

theorem outstanding_filter (m : String) (es t : List Event) :
    outstanding m (es ++ t) = outstanding m (es.filter (Event.slotOf m) ++ t) := by
  induction es with
  | nil => rfl
  | cons e es ih =>
    rw [List.filter_cons]
    cases e with
    | claimed m' j | decremented m' j => by_cases hm : m' = m <;> simp [Event.slotOf, outstanding, hm, ih]
    | _ => simpa [Event.slotOf, outstanding] using ih

theorem claims_filter (m j : String) (es t : List Event) :
    claims m j (es ++ t) = claims m j (es.filter (Event.slotOf m)) + claims m j t := by
  rw [claims, claims, List.count_filter (by simp [Event.slotOf]), List.count_append]; rfl

theorem releases_filter (m j : String) (es t : List Event) :
    releases m j (es ++ t) = releases m j (es.filter (Event.slotOf m)) + releases m j t := by
  rw [releases, releases, List.count_filter (by simp [Event.slotOf]), List.count_append]; rfl

/-! ## Workers -/

def WorkerAct.smooth : WorkerAct → Bool
  | .go | .respond _ | .timeout | .stop | .start => true
  | .fail _ | .cancel _ | .kill => false

section
variable {c : AppConfig} {r r' : Redis} {w w' : Worker} {a : WorkerAct} {es : List Event}

inductive Worker.SlotTurn (a : WorkerAct) (r r' : Redis) (w w' : Worker) (es : List Event) : Prop
  | skip (inUse : r'.inUse = r.inUse) (inflight : r'.inflight = r.inflight) (slot : w'.pc.slot = w.pc.slot)
      (events : es.filter Event.isSlot = [])
  | claim {j ts} (act : a = .go) (pc : w.pc = .claiming j ts) (after : w'.pc.slot = some j)
      (free : r.slotFree w.model = true) (inUse : r'.inUse = (r.addInUse w.model 1).inUse)
      (inflight : r'.inflight = r.inflight) (events : es.filter Event.isSlot = [.claimed w.model j])
  | leak (act : a.smooth = false) (free : r.slotFree w.model = true)
      (inUse : r'.inUse = (r.addInUse w.model 1).inUse) (inflight : r'.inflight = r.inflight)
      (slot : w'.pc.slot = w.pc.slot) (events : es.filter Event.isSlot = [])
  | track {j t} (before : w.pc.slot = some j)
      (after : w'.pc.slot = some j ∨ w'.pc.slot = none ∧ a.smooth = false) (inUse : r'.inUse = r.inUse)
      (inflight : r'.inflight = Function.update r.inflight w.model ((r.inflight w.model).add j t))
      (events : es.filter Event.isSlot = [])
  | release {j} (before : w.pc.slot = some j) (after : w'.pc.slot = none)
      (inUse : r'.inUse = (r.addInUse w.model (-1)).inUse) (inflight : r'.inflight = (r.removeInflight w.model j).inflight)
      (events : es.filter Event.isSlot = [.decremented w.model j])
  | abandon {j} (before : w.pc.slot = some j) (after : w'.pc.slot = none)
      (act : a.smooth = false ∨ a = .go ∧ w'.pc = .crashed) (inUse : r'.inUse = r.inUse) (inflight : r'.inflight = r.inflight)
      (events : es.filter Event.isSlot = [])

theorem Verdict.report_slots (v : Verdict) (j : String) (info : JobInfo) :
    (v.report j info).filter Event.isSlot = [] := by
  cases v <;> rfl

theorem Worker.slot_go (h : w.step c r .go = some (r', w', es)) : Worker.SlotTurn .go r r' w w' es := by
  obtain ⟨m, stop, pc⟩ := w
  simp only [Worker.step, Option.map_eq_some_iff] at h
  obtain ⟨⟨pc', es'⟩, hr, h⟩ := h
  simp only [Prod.mk.injEq] at h
  obtain ⟨rfl, rfl, rfl⟩ := h
  cases pc with
  | poll | waitSlot j => cases hr; exact .skip rfl rfl (by cases stop <;> rfl) rfl
  | popping =>
    simp only [Pc.resume, Option.map_eq_some_iff, Prod.mk.injEq] at hr
    obtain ⟨j, hj, rfl, rfl⟩ := hr
    exact .skip rfl rfl rfl (by simp [Pc.served, hj, Event.isSlot])
  | claiming j ts =>
    cases hr
    cases hf : r.slotFree m with
    | true =>
      exact .claim rfl rfl (by simp [Pc.slot]) hf (by simp [Pc.serve, hf, Redis.claimSlot, Redis.hset])
        (by simp [Pc.serve, hf, Redis.claimSlot, Redis.hset, Redis.addInUse]) (by simp [Pc.served, hf, Event.isSlot])
    | false =>
      exact .skip (by simp [Pc.serve, hf]) (by simp [Pc.serve, hf]) (by simp [Pc.slot]) (by simp [Pc.served, hf])
  | fetching j =>
    simp only [Pc.resume] at hr
    split at hr
    · cases hr; exact .skip rfl rfl rfl rfl
    · split at hr <;> cases hr
      · exact .abandon rfl rfl (.inr ⟨rfl, rfl⟩) rfl rfl rfl
      · exact .skip rfl rfl rfl rfl
  | publishing j info v =>
    cases hr
    refine .skip rfl rfl rfl ?_
    rw [List.filter_append, v.report_slots]; rfl
  | releasing j next =>
    cases hr
    exact .release rfl (by cases next <;> rfl) rfl rfl rfl
  | tracking j t => cases hr; exact .track rfl (.inl rfl) rfl rfl rfl
  | marking | cleaning | announcing => cases hr; exact .skip rfl rfl rfl rfl
  | forwarding | exited | crashed => cases hr

/-- A command that may have taken effect and whose reply is lost. -/
theorem Pc.lost_slots {m : String} {pc pc' : Pc} {took stop : Bool} (ha : a.smooth = false)
    (hes : es.filter Event.isSlot = [])
    (keep : pc'.slot = pc.slot ∨ pc'.slot = none) (released : ∀ j next, pc = .releasing j next → pc'.slot = none) :
    Worker.SlotTurn a r (if took then pc.serve c m r else r) ⟨m, stop, pc⟩ ⟨m, stop, pc'⟩
      (es ++ if took then pc.served m r false else []) := by
  have lost : ∀ {r₁ : Redis} {es₁ : List Event}, r₁.inUse = r.inUse → r₁.inflight = r.inflight →
      es₁.filter Event.isSlot = [] → Worker.SlotTurn a r r₁ ⟨m, stop, pc⟩ ⟨m, stop, pc'⟩ es₁ := by
    intro r₁ es₁ hu hi he
    rcases keep with hk | hk
    · exact .skip hu hi hk he
    · cases hs : pc.slot with
      | none => exact .skip hu hi (hk.trans hs.symm) he
      | some j => exact .abandon hs hk (.inl ha) hu hi he
  cases took with
  | false => exact lost rfl rfl (by simpa using hes)
  | true =>
    simp only [if_true]
    cases pc with
    | claiming j ts =>
      have hk : pc'.slot = none := keep.elim id id
      cases hf : r.slotFree m with
      | true =>
        exact .leak ha hf (by simp [serve, hf, Redis.claimSlot, Redis.hset])
          (by simp [serve, hf, Redis.claimSlot, Redis.hset, Redis.addInUse]) hk
          (by simp [served, hf, hes, Event.isSlot])
      | false => exact lost (by simp [serve, hf]) (by simp [serve, hf]) (by simp [served, hf, hes])
    | tracking j t =>
      refine .track rfl ?_ rfl rfl (by simpa [served] using hes)
      exact keep.imp id fun hk => ⟨hk, ha⟩
    | releasing j next => exact .release rfl (released j next rfl) rfl rfl (by simp [served, hes, Event.isSlot])
    | popping => exact lost rfl rfl (by simp only [served]; split <;> simp [hes, Event.isSlot])
    | _ => exact lost rfl rfl (by simp [served, hes, Event.isSlot])

theorem Worker.slot_fail {took : Bool} (h : w.step c r (.fail took) = some (r', w', es)) :
    Worker.SlotTurn (.fail took) r r' w w' es := by
  obtain ⟨m, stop, pc⟩ := w
  simp only [Worker.step, Option.map_eq_some_iff] at h
  obtain ⟨⟨pc', es'⟩, hr, h⟩ := h
  simp only [Prod.mk.injEq] at h
  obtain ⟨rfl, rfl, rfl⟩ := h
  cases pc with
  | releasing j next =>
    cases hr
    exact Pc.lost_slots rfl rfl (.inr (by cases next <;> rfl)) fun _ _ _ => by cases next <;> rfl
  | publishing j info v =>
    cases hr
    refine Pc.lost_slots rfl ?_ (.inl rfl) (by intro _ _ h; cases h)
    rw [List.filter_append, v.report_slots]; rfl
  | poll | waitSlot | forwarding | exited | crashed => cases hr
  | _ => cases hr; exact Pc.lost_slots rfl rfl (.inl rfl) (by intro _ _ h; cases h)

theorem Worker.slot_cancel {took : Bool} (h : w.step c r (.cancel took) = some (r', w', es)) :
    Worker.SlotTurn (.cancel took) r r' w w' es := by
  obtain ⟨m, stop, pc⟩ := w
  simp only [Worker.step, Option.ite_none_right_eq_some, Option.map_eq_some_iff] at h
  obtain ⟨-, pc', hr, h⟩ := h
  simp only [Prod.mk.injEq] at h
  obtain ⟨rfl, rfl, rfl⟩ := h
  have key : ∀ {pc₁ : Pc}, (pc₁.slot = pc.slot ∨ pc₁.slot = none) →
      (∀ j next, pc = .releasing j next → pc₁.slot = none) →
      Worker.SlotTurn (.cancel took) r (if took then pc.serve c m r else r) ⟨m, stop, pc⟩ ⟨m, stop, pc₁⟩
        (if took then pc.served m r false else []) := fun hk hr =>
    Pc.lost_slots rfl (show ([] : List Event).filter Event.isSlot = [] from rfl) hk hr
  cases pc with
  | marking j info v ts | publishing j info v => cases v <;> cases hr <;> exact key (.inl rfl) (by intro _ _ h; cases h)
  | forwarding j info => cases hr; exact key (.inl rfl) (by intro _ _ h; cases h)
  | exited | crashed => cases hr
  | _ => cases hr; exact key (.inr rfl) fun _ _ _ => rfl

theorem Worker.step_slots (h : w.step c r a = some (r', w', es)) : Worker.SlotTurn a r r' w w' es := by
  cases a with
  | go => exact slot_go h
  | fail took => exact slot_fail h
  | cancel took => exact slot_cancel h
  | respond o =>
    obtain ⟨m, stop, pc⟩ := w
    cases pc <;> cases h
    exact .skip rfl rfl rfl rfl
  | timeout =>
    simp only [step, Option.ite_none_right_eq_some] at h
    obtain ⟨⟨hp, -⟩, h⟩ := h
    cases h; exact .skip rfl rfl (by rw [hp]; rfl) rfl
  | stop => cases h; exact .skip rfl rfl rfl rfl
  | kill =>
    cases h
    cases hs : w.pc.slot with
    | none => exact .skip rfl rfl hs.symm rfl
    | some j => exact .abandon hs rfl (.inl rfl) rfl rfl rfl
  | start =>
    simp only [step, Option.ite_none_right_eq_some] at h
    obtain ⟨hp, h⟩ := h
    cases h; exact .skip rfl rfl (by rcases hp with hp | hp <;> rw [hp] <;> rfl) rfl

end

/-! ## The other parties -/

theorem Admit.events_slots {c : AppConfig} {sha256 : String → String} {r r' : Redis} {p p' : Admit} {a : AdmitAct}
    {es : List Event} (h : p.step c sha256 r a = some (r', p', es)) : es.filter Event.isSlot = [] := by
  have served : (p.served c r).filter Event.isSlot = [] := by
    cases p with
    | enqueueing => simp only [Admit.served]; split <;> rfl
    | _ => rfl
  cases a with
  | submit sub =>
    simp only [step] at h
    split at h
    · split at h <;> cases h <;> rfl
    · cases h
  | name j => simp only [step] at h; split at h <;> cases h; rfl
  | go =>
    simp only [step, Option.map_eq_some_iff, Prod.mk.injEq] at h
    obtain ⟨⟨p₁, es₁⟩, hr, -, -, rfl⟩ := h
    rw [List.filter_append, served]
    cases p with
    | lookup | sequencing | enqueueing =>
      simp only [resume] at hr
      (repeat' split at hr) <;> cases hr <;> rfl
    | refusing | recording | ranking | sizing | storing => cases hr; rfl
    | idle | naming | done | raised => cases hr
  | fail took =>
    simp only [step, Option.map_eq_some_iff, Prod.mk.injEq] at h
    obtain ⟨⟨p₁, es₁⟩, hr, -, -, rfl⟩ := h
    have lost : (if took then p.served c r else []).filter Event.isSlot = [] := by
      cases took
      · rfl
      · exact served
    rw [List.filter_append, lost]
    cases p <;> cases hr <;> rfl

theorem Cancel.events_slots {r r' : Redis} {p p' : Cancel} {a : CancelAct} {es : List Event}
    (h : p.step r a = some (r', p', es)) : es.filter Event.isSlot = [] := by
  have served : (p.served r).filter Event.isSlot = [] := by
    cases p with
    | script => simp only [Cancel.served]; split <;> rfl
    | _ => rfl
  cases a with
  | request j => simp only [step] at h; split at h <;> cases h; rfl
  | go =>
    simp only [step, Option.map_eq_some_iff, Prod.mk.injEq] at h
    obtain ⟨⟨p₁, es₁⟩, hr, -, -, rfl⟩ := h
    rw [List.filter_append, served]
    cases p with
    | reading => simp only [resume] at hr; (repeat' split at hr) <;> cases hr <;> rfl
    | script | expiring | announcing | marking => cases hr; rfl
    | idle | done | raised => cases hr
  | fail took =>
    simp only [step, Option.map_eq_some_iff, Prod.mk.injEq] at h
    obtain ⟨p₁, hr, -, -, rfl⟩ := h
    cases took
    · rfl
    · exact served

/-- A lease scan touches slots only by a reclaim that takes effect. -/
theorem Watcher.step_slots {c : AppConfig} {r r' : Redis} {p p' : Watcher} {a : WatchAct} {es : List Event}
    (h : p.step c r a = some (r', p', es)) : r' = r ∧ es.filter Event.isSlot = [] ∨
      ∃ m j rest ts, a.takes = true ∧ p = .reclaiming m j rest ts ∧ r' = r.reclaim m j ts ∧
        es.filter Event.isSlot = [.decremented m j] := by
  cases a with
  | scan m =>
    simp only [step] at h
    split at h
    · split at h <;> cases h; exact .inl ⟨rfl, rfl⟩
    · cases h
  | go =>
    simp only [step, Option.map_eq_some_iff, Prod.mk.injEq] at h
    obtain ⟨⟨p₁, es₁⟩, hr, rfl, -, rfl⟩ := h
    cases p with
    | reclaiming m j rest ts => cases hr; exact .inr ⟨m, j, rest, ts, rfl, rfl, rfl, rfl⟩
    | idle => cases hr
    | ranging | checking | announcing | describing => cases hr; exact .inl ⟨rfl, rfl⟩
  | fail took =>
    simp only [step, Option.map_eq_some_iff, Prod.mk.injEq] at h
    obtain ⟨⟨p₁, es₁⟩, hr, rfl, -, rfl⟩ := h
    cases p with
    | reclaiming m j rest ts =>
      cases hr
      cases took
      · exact .inl ⟨rfl, rfl⟩
      · exact .inr ⟨m, j, rest, ts, rfl, rfl, rfl, rfl⟩
    | idle => cases hr
    | ranging | checking | announcing | describing => cases hr; cases took <;> exact .inl ⟨rfl, rfl⟩
  | cancel took =>
    obtain ⟨-, rfl, rfl⟩ := step_cancel h
    cases p with
    | reclaiming m j rest ts =>
      cases took
      · exact .inl ⟨rfl, rfl⟩
      · exact .inr ⟨m, j, rest, ts, rfl, rfl, rfl, rfl⟩
    | idle | ranging | checking | announcing | describing => cases took <;> exact .inl ⟨rfl, rfl⟩

/-- An integrity check touches slots only by a reset that takes effect. -/
theorem Checker.step_slots {c : AppConfig} {r r' : Redis} {p p' : Checker} {a : CheckAct} {es : List Event}
    (h : p.step c r a = some (r', p', es)) : es.filter Event.isSlot = [] ∧ (r' = r ∨
      ∃ m n recorded, a.takes = true ∧ p = .resetting m n recorded ∧ r' = r.setInUse m n) := by
  cases a with
  | check m =>
    simp only [step] at h
    split at h
    · split at h <;> cases h; exact ⟨rfl, .inl rfl⟩
    · cases h
  | card | get => simp only [step] at h; split at h <;> cases h; exact ⟨rfl, .inl rfl⟩
  | go =>
    simp only [step] at h
    split at h
    · cases h; exact ⟨rfl, .inr ⟨_, _, _, rfl, rfl, rfl⟩⟩
    · cases h
  | fail took =>
    cases p with
    | idle => cases h
    | reading => cases h; exact ⟨rfl, .inl rfl⟩
    | resetting m n recorded =>
      cases h
      cases took
      · exact ⟨rfl, .inl rfl⟩
      · exact ⟨rfl, .inr ⟨_, _, _, rfl, rfl, rfl⟩⟩
  | cancel took =>
    obtain ⟨-, rfl, rfl⟩ := step_cancel h
    cases p with
    | idle | reading => cases took <;> exact ⟨rfl, .inl rfl⟩
    | resetting m n recorded =>
      cases took
      · exact ⟨rfl, .inl rfl⟩
      · exact ⟨rfl, .inr ⟨_, _, _, rfl, rfl, rfl⟩⟩

/-! ## The pool of a model -/

def Worker.slotOf (m : String) (w : Worker) : Option String := if w.model = m then w.pc.slot else none

section
variable {ι : Type} [Fintype ι] [DecidableEq ι] {d : Deployment ι} {s s' : State ι} {m : String} {a : Action ι}

omit [DecidableEq ι] in
def heldSlots (m : String) (s : State ι) : Finset String := holdings (Worker.slotOf m) s.workers

omit [DecidableEq ι] in
def pool (m : String) (s : State ι) : SlotPool String where
  inUse := s.redis.inUseOf m
  held := heldSlots m s
  registered := (s.redis.inflight m).members
  out := outstanding m s.trace
  claims j := claims m j s.trace
  releases j := releases m j s.trace

def AppConfig.slots (c : AppConfig) (m : String) : Int := (c.capacityOf m).getD 0

/-- Why the pool of `m` takes a step when the system takes the step from `s` to `s'`. -/
inductive SlotCause (m : String) (s : State ι) (a : Action ι) (s' : State ι) : SlotPool String → SlotAct String → Prop
  | claim {i j ts} (act : a = .worker i .go) (pc : (s.workers i).pc = .claiming j ts) (fresh : j ∉ heldSlots m s) :
    SlotCause m s a s' (pool m s) (.claim j)
  | leak {p i b} (act : a = .worker i b) (rough : b.smooth = false) : SlotCause m s a s' p .leak
  | register {p j} : SlotCause m s a s' p (.register j)
  | release {p j} : SlotCause m s a s' p (.release j)
  | abandon {p i b j} (act : a = .worker i b)
      (rough : b.smooth = false ∨ b = .go ∧ (s'.workers i).pc = .crashed) : SlotCause m s a s' p (.abandon j)
  | reclaim {k b j rest ts} (act : a = .watch k b) (takes : b.takes = true)
      (pc : s.watchers k = .reclaiming m j rest ts) : SlotCause m s a s' (pool m s) (.reclaim j)
  | reset {k b n recorded} (act : a = .check k b) (takes : b.takes = true)
      (pc : s.checkers k = .resetting m n recorded) : SlotCause m s a s' (pool m s) (.reset n)

omit [DecidableEq ι] in
theorem mem_heldSlots {j : String} :
    j ∈ heldSlots m s ↔ ∃ i, (s.workers i).model = m ∧ (s.workers i).pc.slot = some j := by
  simp [heldSlots, Worker.slotOf]

omit [Fintype ι] [DecidableEq ι] in
theorem Life.exclusive_slots (hl : Life s) : Exclusive (Worker.slotOf m) s.workers := by
  intro i k j hi hk
  simp only [Worker.slotOf, Option.ite_none_right_eq_some] at hi hk
  exact hl.exclusive i k j (slot_job hi.2) (slot_job hk.2)

omit [DecidableEq ι] in
/-- The pool after events that claim and give back no slot of the model. -/
theorem pool_quiet {es : List Event} (trace : s'.trace = es ++ s.trace) (events : es.filter (Event.slotOf m) = []) :
    pool m s' = { pool m s with inUse := s'.redis.inUseOf m, held := heldSlots m s',
                                registered := (s'.redis.inflight m).members } := by
  have out : outstanding m s'.trace = outstanding m s.trace := by rw [trace, outstanding_filter, events]; rfl
  have hc : ∀ k, claims m k s'.trace = claims m k s.trace := fun k => by
    rw [trace, claims_filter, events]; simp [claims]
  have hr : ∀ k, releases m k s'.trace = releases m k s.trace := fun k => by
    rw [trace, releases_filter, events]; simp [releases]
  exact SlotPool.ext rfl rfl rfl out (funext hc) (funext hr)

omit [DecidableEq ι] in
theorem pool_claimed {es : List Event} {j : String} (trace : s'.trace = es ++ s.trace)
    (events : es.filter (Event.slotOf m) = [.claimed m j]) :
    pool m s' =
      { pool m s with inUse := s'.redis.inUseOf m, held := heldSlots m s',
                      registered := (s'.redis.inflight m).members, out := insert j (pool m s).out,
                      claims := Function.update (pool m s).claims j ((pool m s).claims j + 1) } := by
  have out : outstanding m s'.trace = insert j (outstanding m s.trace) := by
    rw [trace, outstanding_filter, events]; simp [outstanding]
  have hc : ∀ k, claims m k s'.trace = Function.update (pool m s).claims j ((pool m s).claims j + 1) k := fun k => by
    rw [trace, claims_filter, events, Function.update_apply]
    by_cases hk : k = j
    · subst hk; simp [pool, claims, Nat.add_comm]
    · simp [pool, claims, hk, Ne.symm hk]
  have hr : ∀ k, releases m k s'.trace = releases m k s.trace := fun k => by
    rw [trace, releases_filter, events]; simp [releases]
  exact SlotPool.ext rfl rfl rfl out (funext hc) (funext hr)

omit [DecidableEq ι] in
theorem pool_decremented {es : List Event} {j : String} (trace : s'.trace = es ++ s.trace)
    (events : es.filter (Event.slotOf m) = [.decremented m j]) :
    pool m s' =
      { pool m s with inUse := s'.redis.inUseOf m, held := heldSlots m s',
                      registered := (s'.redis.inflight m).members, out := (pool m s).out.erase j,
                      releases := Function.update (pool m s).releases j ((pool m s).releases j + 1) } := by
  have out : outstanding m s'.trace = (outstanding m s.trace).erase j := by
    rw [trace, outstanding_filter, events]; simp [outstanding]
  have hc : ∀ k, claims m k s'.trace = claims m k s.trace := fun k => by
    rw [trace, claims_filter, events]; simp [claims]
  have hr : ∀ k, releases m k s'.trace =
      Function.update (pool m s).releases j ((pool m s).releases j + 1) k := fun k => by
    rw [trace, releases_filter, events, Function.update_apply]
    by_cases hk : k = j
    · subst hk; simp [pool, releases, Nat.add_comm]
    · simp [pool, releases, hk, Ne.symm hk]
  exact SlotPool.ext rfl rfl rfl out (funext hc) (funext hr)

theorem Redis.inUseOf_congr {r r' : Redis} (h : r'.inUse = r.inUse) : r'.inUseOf m = r.inUseOf m := by
  rw [inUseOf, h]; rfl

theorem Redis.inUseOf_add {r r' : Redis} {δ : Int} (h : r'.inUse = (r.addInUse m δ).inUse) :
    r'.inUseOf m = r.inUseOf m + δ := by
  rw [inUseOf, h]; simp [addInUse]

theorem Redis.inUseOf_add_ne {r r' : Redis} {m' : String} {δ : Int} (h : r'.inUse = (r.addInUse m' δ).inUse)
    (hm : m ≠ m') : r'.inUseOf m = r.inUseOf m := by
  rw [inUseOf, h]; simp [addInUse, inUseOf, hm]

omit [Fintype ι] [DecidableEq ι] in
theorem Redis.lt_slots {r : Redis} (hcap : r.capacity = d.config.capacityOf) (h : r.slotFree m = true) :
    r.inUseOf m < d.config.slots m := by
  rw [slotFree, hcap] at h
  unfold AppConfig.slots
  split at h
  · rename_i c hc
    rw [hc]; simpa using h
  · cases h

theorem pool_own {i : ι} {b : WorkerAct} {r' : Redis} {w' : Worker} {es : List Event}
    {ok : SlotPool String → SlotAct String → Prop} (hl : Life s) (hcap : s.redis.capacity = d.config.capacityOf)
    (hm : (s.workers i).model = m) (hm' : w'.model = m) (h : Worker.SlotTurn b s.redis r' (s.workers i) w' es)
    (hs' : s' = { s with redis := r', workers := Function.update s.workers i w', trace := es ++ s.trace })
    (hok : ∀ p x, SlotCause m s (.worker i b) s' p x → ok p x) :
    (SlotPool.machine (d.config.slots m)).Leads ok (pool m s) (pool m s') := by
  have redis : s'.redis = r' := by rw [hs']
  have trace : s'.trace = es ++ s.trace := by rw [hs']
  have slot : Worker.slotOf m (s.workers i) = (s.workers i).pc.slot := if_pos hm
  have slot' : Worker.slotOf m w' = w'.pc.slot := if_pos hm'
  have held : heldSlots m s' = holdings (Worker.slotOf m) (Function.update s.workers i w') := by rw [hs']; rfl
  have quiet : es.filter Event.isSlot = [] → es.filter (Event.slotOf m) = [] := fun he => by
    rw [filter_slotOf, he]; rfl
  cases h with
  | skip inUse inflight same events =>
    rw [pool_quiet trace (quiet events), redis, Redis.inUseOf_congr inUse, inflight, held,
      holdings_same (by rw [slot, slot', same])]
    exact .refl
  | @claim j ts act pc after free inUse inflight events =>
    rw [hm] at free inUse events
    have before : (s.workers i).pc.slot = none := by rw [pc]; rfl
    have fresh : j ∉ heldSlots m s := by
      intro hj
      obtain ⟨k, -, hk⟩ := mem_heldSlots.mp hj
      have := hl.exclusive k i j (slot_job hk) (show (s.workers i).pc.job = some j by rw [pc]; rfl)
      rw [this, before] at hk; cases hk
    refine .step .refl (hok _ _ (.claim (by rw [act]) pc fresh)) ?_
    have events' : es.filter (Event.slotOf m) = [.claimed m j] := by
      rw [filter_slotOf, events]; simp [Event.slotOf]
    rw [pool_claimed trace events', redis, Redis.inUseOf_add inUse, inflight, held,
      holdings_acquire (slot.trans before) (slot'.trans after)]
    exact if_pos (Redis.lt_slots hcap free)
  | leak act free inUse inflight same events =>
    rw [hm] at free inUse
    refine .step .refl (hok _ _ (.leak rfl act)) ?_
    rw [pool_quiet trace (quiet events), redis, Redis.inUseOf_add inUse, inflight, held,
      holdings_same (by rw [slot, slot', same])]
    exact if_pos (Redis.lt_slots hcap free)
  | @track j t before after inUse inflight events =>
    rw [hm] at inflight
    have mem : j ∈ (pool m s).held := mem_heldSlots.mpr ⟨i, hm, before⟩
    have registered : (r'.inflight m).members = insert j (s.redis.inflight m).members := by
      rw [inflight, Function.update_self, SortedSet.members_add]
    have first : (SlotPool.machine (d.config.slots m)).Leads ok (pool m s)
        { pool m s with registered := insert j (s.redis.inflight m).members } :=
      .step .refl (hok _ _ .register) (if_pos mem)
    rw [pool_quiet trace (quiet events), redis, Redis.inUseOf_congr inUse, registered, held]
    rcases after with after | ⟨after, rough⟩
    · rw [holdings_same (by rw [slot, slot', before, after])]
      exact first
    · rw [holdings_release hl.exclusive_slots (slot.trans before) (slot'.trans after)]
      exact first.step (hok _ _ (.abandon rfl (.inl rough))) (if_pos mem)
  | @release j before after inUse inflight events =>
    rw [hm] at inUse inflight events
    have mem : j ∈ (pool m s).held := mem_heldSlots.mpr ⟨i, hm, before⟩
    refine .step .refl (hok _ (.release j) .release) ?_
    have events' : es.filter (Event.slotOf m) = [.decremented m j] := by
      rw [filter_slotOf, events]; simp [Event.slotOf]
    have registered : (r'.inflight m).members = (s.redis.inflight m).members.erase j := by
      rw [inflight]; simp [Redis.removeInflight]
    rw [pool_decremented trace events', redis, Redis.inUseOf_add inUse, registered, held,
      holdings_release hl.exclusive_slots (slot.trans before) (slot'.trans after)]
    exact if_pos mem
  | @abandon j before after act inUse inflight events =>
    have mem : j ∈ (pool m s).held := mem_heldSlots.mpr ⟨i, hm, before⟩
    have rough : b.smooth = false ∨ b = .go ∧ (s'.workers i).pc = .crashed := by
      rw [hs']; simpa using act
    refine .step .refl (hok _ (.abandon j) (.abandon rfl rough)) ?_
    rw [pool_quiet trace (quiet events), redis, Redis.inUseOf_congr inUse, inflight, held,
      holdings_release hl.exclusive_slots (slot.trans before) (slot'.trans after)]
    exact if_pos mem

theorem pool_other {i : ι} {b : WorkerAct} {r' : Redis} {w' : Worker} {es : List Event}
    (hm : (s.workers i).model ≠ m) (hm' : w'.model ≠ m) (h : Worker.SlotTurn b s.redis r' (s.workers i) w' es)
    (hs' : s' = { s with redis := r', workers := Function.update s.workers i w', trace := es ++ s.trace }) :
    pool m s' = pool m s := by
  have redis : s'.redis = r' := by rw [hs']
  have trace : s'.trace = es ++ s.trace := by rw [hs']
  have held : heldSlots m s' = heldSlots m s := by
    rw [hs']; exact holdings_same (by rw [Worker.slotOf, Worker.slotOf, if_neg hm, if_neg hm'])
  have events : es.filter (Event.slotOf m) = [] := by
    rw [filter_slotOf]
    cases h with
    | skip _ _ _ events | claim _ _ _ _ _ _ events | leak _ _ _ _ _ events | track _ _ _ _ events
    | release _ _ _ _ events | abandon _ _ _ _ _ events => rw [events]; simp [Event.slotOf, hm]
  have inUse : r'.inUseOf m = s.redis.inUseOf m := by
    cases h with
    | skip h | track _ _ h | abandon _ _ _ h => exact Redis.inUseOf_congr h
    | claim _ _ _ _ h | leak _ _ h | release _ _ h => exact Redis.inUseOf_add_ne h (Ne.symm hm)
  have inflight : r'.inflight m = s.redis.inflight m := by
    cases h with
    | skip _ h | claim _ _ _ _ _ h | leak _ _ _ h | abandon _ _ _ _ h => rw [h]
    | track _ _ _ h => rw [h, Function.update_of_ne (Ne.symm hm)]
    | release _ _ _ h => rw [h]; exact Function.update_of_ne (Ne.symm hm) _ _
  rw [pool_quiet trace events, redis, inUse, inflight, held]; rfl

theorem pool_watch {k : Nat} {b : WatchAct} {ok : SlotPool String → SlotAct String → Prop}
    (h : step d s (.watch k b) = some s') (hok : ∀ p x, SlotCause m s (.watch k b) s' p x → ok p x) :
    (SlotPool.machine (d.config.slots m)).Leads ok (pool m s) (pool m s') := by
  simp only [step, Option.map_eq_some_iff] at h
  obtain ⟨⟨r', p', es⟩, hp, hs'⟩ := h
  have redis : s'.redis = r' := by rw [← hs']
  have trace : s'.trace = es ++ s.trace := by rw [← hs']
  have held : heldSlots m s' = heldSlots m s := by rw [← hs']; rfl
  rcases Watcher.step_slots hp with ⟨hr, events⟩ | ⟨m', j, rest, ts, takes, pc, hr, events⟩
  · rw [pool_quiet trace (by rw [filter_slotOf, events]; rfl), redis, hr, held]; exact .refl
  · have inUse : r'.inUse = (s.redis.addInUse m' (-1)).inUse := by rw [hr]; rfl
    by_cases hm : m' = m
    · subst hm
      have registered : (r'.inflight m').members = (s.redis.inflight m').members.erase j := by
        rw [hr, ← SortedSet.members_remove]; simp [Redis.reclaim, Redis.removeInflight, Redis.addInUse]; rfl
      refine .step .refl (hok _ _ (.reclaim rfl takes pc)) ?_
      have events' : es.filter (Event.slotOf m') = [.decremented m' j] := by
        rw [filter_slotOf, events]; simp [Event.slotOf]
      rw [pool_decremented trace events', redis, Redis.inUseOf_add inUse, registered, held]
      rfl
    · have events' : es.filter (Event.slotOf m) = [] := by
        rw [filter_slotOf, events]; simp [Event.slotOf, hm]
      have inflight : r'.inflight m = s.redis.inflight m := by
        rw [hr]; exact Function.update_of_ne (Ne.symm hm) _ _
      rw [pool_quiet trace events', redis, Redis.inUseOf_add_ne inUse (Ne.symm hm), inflight, held]
      exact .refl

theorem pool_check {k : Nat} {b : CheckAct} {ok : SlotPool String → SlotAct String → Prop}
    (h : step d s (.check k b) = some s') (hok : ∀ p x, SlotCause m s (.check k b) s' p x → ok p x) :
    (SlotPool.machine (d.config.slots m)).Leads ok (pool m s) (pool m s') := by
  simp only [step, Option.map_eq_some_iff] at h
  obtain ⟨⟨r', p', es⟩, hp, hs'⟩ := h
  have redis : s'.redis = r' := by rw [← hs']
  have trace : s'.trace = es ++ s.trace := by rw [← hs']
  have held : heldSlots m s' = heldSlots m s := by rw [← hs']; rfl
  obtain ⟨events, effect⟩ := Checker.step_slots hp
  rw [pool_quiet trace (by rw [filter_slotOf, events]; rfl), redis, held]
  rcases effect with hr | ⟨m', n, recorded, takes, pc, hr⟩
  · rw [hr]; exact .refl
  · by_cases hm : m' = m
    · subst hm
      refine .step .refl (hok _ _ (.reset rfl takes pc)) ?_
      rw [hr]
      simp [SlotPool.machine, SlotPool.step, Redis.setInUse, Redis.inUseOf, pool]
    · have inUse : r'.inUseOf m = s.redis.inUseOf m := by
        rw [hr]; simp [Redis.inUseOf, Redis.setInUse, Ne.symm hm]
      rw [inUse, hr]; exact .refl

/-- A step of the system is some steps of the pool, each for a cause. -/
theorem pool_step {ok : SlotPool String → SlotAct String → Prop} (hl : Life s)
    (hcap : s.redis.capacity = d.config.capacityOf)
    (h : step d s a = some s') (hok : ∀ p x, SlotCause m s a s' p x → ok p x) :
    (SlotPool.machine (d.config.slots m)).Leads ok (pool m s) (pool m s') := by
  have other : ∀ {es : List Event}, s'.trace = es ++ s.trace → es.filter Event.isSlot = [] →
      s'.redis.inUse = s.redis.inUse → s'.redis.inflight = s.redis.inflight → heldSlots m s' = heldSlots m s →
      (SlotPool.machine (d.config.slots m)).Leads ok (pool m s) (pool m s') := by
    intro es trace events inUse inflight held
    rw [pool_quiet trace (by rw [filter_slotOf, events]; rfl), Redis.inUseOf_congr inUse, inflight, held]
    exact .refl
  cases a with
  | worker i b =>
    simp only [step, Option.map_eq_some_iff] at h
    obtain ⟨⟨r', w', es⟩, hw, hs'⟩ := h
    have model := Worker.step_model hw
    by_cases hm : (s.workers i).model = m
    · exact pool_own hl hcap hm (model.trans hm) (Worker.step_slots hw) hs'.symm hok
    · rw [pool_other hm (by rw [model]; exact hm) (Worker.step_slots hw) hs'.symm]; exact .refl
  | admission k b =>
    simp only [step, Option.ite_none_right_eq_some, Option.map_eq_some_iff] at h
    obtain ⟨-, ⟨r', p', es⟩, hp, rfl⟩ := h
    obtain ⟨inUse, inflight, -⟩ := Admit.step_slots hp
    exact other rfl (Admit.events_slots hp) inUse inflight rfl
  | cancel k b =>
    simp only [step, Option.map_eq_some_iff] at h
    obtain ⟨⟨r', p', es⟩, hp, rfl⟩ := h
    obtain ⟨inUse, inflight, -⟩ := Cancel.step_slots hp
    exact other rfl (Cancel.events_slots hp) inUse inflight rfl
  | watch k b => exact pool_watch h hok
  | check k b => exact pool_check h hok
  | tick δ => cases h; exact other (List.nil_append _).symm rfl rfl rfl rfl

omit [Fintype ι] in
/-- Only a worker that tracks its job adds an entry to an inflight set. -/
theorem entry_of_step (h : step d s a = some s') {x : Int} {j : String}
    (he : (x, j) ∈ (s'.redis.inflight m).entries) : (x, j) ∈ (s.redis.inflight m).entries ∨
      ∃ i b t, a = .worker i b ∧ b.takes = true ∧ (s.workers i).pc = .tracking j t ∧ x = t ∧ m = (s.workers i).model := by
  cases a with
  | worker i b =>
    simp only [step, Option.map_eq_some_iff] at h
    obtain ⟨⟨r', w', es⟩, hw, rfl⟩ := h
    rcases Worker.step_redis hw with rfl | ⟨takes, rfl⟩
    · exact .inl he
    cases pc : (s.workers i).pc with
    | claiming k ts => simp only [pc, Pc.serve] at he; split at he <;> exact .inl he
    | tracking k t =>
      simp only [pc, Pc.serve, Redis.track, Function.update_apply] at he
      split at he
      · rename_i hm
        rcases SortedSet.mem_entries_add he with hp | he
        · cases hp; exact .inr ⟨i, b, t, rfl, takes, pc, rfl, hm⟩
        · exact .inl (hm ▸ he)
      · exact .inl he
    | releasing k next =>
      simp only [pc, Pc.serve, Redis.releaseSlot, Redis.removeInflight, Redis.addInUse, Function.update_apply] at he
      split at he
      · rename_i hm; exact .inl (hm ▸ SortedSet.mem_entries_remove he)
      · exact .inl he
    | _ => rw [pc] at he; exact .inl he
  | admission k b =>
    simp only [step, Option.ite_none_right_eq_some, Option.map_eq_some_iff] at h
    obtain ⟨-, ⟨r', p', es⟩, hp, rfl⟩ := h
    simp only [(Admit.step_slots hp).2.1] at he; exact .inl he
  | cancel k b =>
    simp only [step, Option.map_eq_some_iff] at h
    obtain ⟨⟨r', p', es⟩, hp, rfl⟩ := h
    simp only [(Cancel.step_slots hp).2.1] at he; exact .inl he
  | watch k b =>
    simp only [step, Option.map_eq_some_iff] at h
    obtain ⟨⟨r', p', es⟩, hp, rfl⟩ := h
    rcases Watcher.step_redis hp with rfl | ⟨-, rfl⟩
    · exact .inl he
    cases pc : s.watchers k with
    | reclaiming m' k' rest ts =>
      simp only [pc, Watcher.serve, Redis.reclaim, Redis.removeInflight, Function.update_apply] at he
      split at he
      · rename_i hm; exact .inl (hm ▸ SortedSet.mem_entries_remove he)
      · exact .inl he
    | _ => rw [pc] at he; exact .inl he
  | check k b =>
    simp only [step, Option.map_eq_some_iff] at h
    obtain ⟨⟨r', p', es⟩, hp, rfl⟩ := h
    rcases Checker.step_redis hp with rfl | ⟨-, rfl⟩
    · exact .inl he
    · simp only [(Checker.serve_frame (s.checkers k) s.redis).2.1] at he; exact .inl he
  | tick δ => cases h; exact .inl he

omit [Fintype ι] in
theorem now_of_step (h : step d s a = some s') : s'.redis.now = s.redis.now + a.elapsed := by
  cases a with
  | worker i b =>
    simp only [step, Option.map_eq_some_iff] at h
    obtain ⟨⟨r', w', es⟩, hw, rfl⟩ := h
    rcases Worker.step_redis hw with rfl | ⟨-, rfl⟩
    · rfl
    · cases hp : (s.workers i).pc with
      | claiming k ts => simp only [Pc.serve]; split <;> rfl
      | _ => rfl
  | admission k b =>
    simp only [step, Option.ite_none_right_eq_some, Option.map_eq_some_iff] at h
    obtain ⟨-, ⟨r', p', es⟩, hp, rfl⟩ := h
    rcases Admit.step_effect hp with rfl | ⟨rfl, -⟩
    · rfl
    · cases hp : s.admits k with
      | enqueueing sub j text score ts => simp only [Admit.serve, Redis.enqueueJob]; split <;> rfl
      | _ => rfl
  | cancel k b =>
    simp only [step, Option.map_eq_some_iff] at h
    obtain ⟨⟨r', p', es⟩, hp, rfl⟩ := h
    rcases Cancel.step_effect hp with rfl | ⟨-, rfl, -⟩
    · rfl
    · cases hp : s.cancels k with
      | script j m ts => simp only [Cancel.serve]; split <;> rfl
      | _ => rfl
  | watch k b =>
    simp only [step, Option.map_eq_some_iff] at h
    obtain ⟨⟨r', p', es⟩, hp, rfl⟩ := h
    rcases Watcher.step_redis hp with rfl | ⟨-, rfl⟩
    · rfl
    · cases s.watchers k <;> rfl
  | check k b =>
    simp only [step, Option.map_eq_some_iff] at h
    obtain ⟨⟨r', p', es⟩, hp, rfl⟩ := h
    rcases Checker.step_redis hp with rfl | ⟨-, rfl⟩
    · rfl
    · cases s.checkers k <;> rfl
  | tick δ => cases h; rfl

omit [Fintype ι] in
theorem capacity_of_step (h : step d s a = some s') : s'.redis.capacity = s.redis.capacity := by
  cases a with
  | worker i b =>
    simp only [step, Option.map_eq_some_iff] at h
    obtain ⟨⟨r', w', es⟩, hw, rfl⟩ := h
    rcases Worker.step_redis hw with h | ⟨-, h⟩ <;> simp only [h]
    exact Pc.serve_capacity _ _
  | admission k b =>
    simp only [step, Option.ite_none_right_eq_some, Option.map_eq_some_iff] at h
    obtain ⟨-, ⟨r', p', es⟩, hp, rfl⟩ := h
    exact (Admit.step_slots hp).2.2
  | cancel k b =>
    simp only [step, Option.map_eq_some_iff] at h
    obtain ⟨⟨r', p', es⟩, hp, rfl⟩ := h
    exact (Cancel.step_slots hp).2.2
  | watch k b =>
    simp only [step, Option.map_eq_some_iff] at h
    obtain ⟨⟨r', p', es⟩, hp, rfl⟩ := h
    rcases Watcher.step_redis hp with h | ⟨-, h⟩ <;> simp only [h]
    exact Watcher.serve_capacity
  | check k b =>
    simp only [step, Option.map_eq_some_iff] at h
    obtain ⟨⟨r', p', es⟩, hp, rfl⟩ := h
    rcases Checker.step_redis hp with h | ⟨-, h⟩ <;> simp only [h]
    exact (Checker.serve_frame (s.checkers k) s.redis).2.2.2.2
  | tick δ => cases h; rfl

omit [Fintype ι] in
theorem capacity_const {ok : State ι → Action ι → Prop} (h : (system d).Reach ok s) :
    s.redis.capacity = d.config.capacityOf :=
  h.invariant (I := fun s => s.redis.capacity = d.config.capacityOf) rfl fun _ _ _ _ ih _ hs =>
    (capacity_of_step hs).trans ih

omit [DecidableEq ι] in
theorem pool_init : pool m (initState d) = .empty := by
  have held : heldSlots m (initState d) = ∅ := by
    ext j; simp [mem_heldSlots, initState, Pc.slot]
  have inUse : (initState d).redis.inUseOf m = 0 := by
    simp only [initState, AppConfig.initRedis, Redis.inUseOf]
    cases d.config.capacityOf m <;> rfl
  rw [pool, held, inUse]; rfl

/-- A run of the system, seen at one model, is a run of the slot pool. -/
theorem pool_reach {ok : State ι → Action ι → Prop} {ok' : SlotPool String → SlotAct String → Prop}
    (hok : ∀ s a s', (system d).Reach ok s → ok s a → step d s a = some s' → ∀ p x, SlotCause m s a s' p x → ok' p x)
    (h : (system d).Reach ok s) : (SlotPool.machine (d.config.slots m)).Reach ok' (pool m s) :=
  h.simulate (pool m) pool_init fun _ _ _ hr ha hs => pool_step (life hr) (capacity_const hr) hs (hok _ _ _ hr ha hs)

end

end AdmissionScheduler
