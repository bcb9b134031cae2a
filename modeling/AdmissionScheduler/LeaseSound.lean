import AdmissionScheduler.ForwardTime
import AdmissionScheduler.DispatchSound

/-!
# The lease and the forward

The lease is `max(t, 60) + 30` seconds, a forward lasts up to `4 * t`. A worker
inside a forward is no candidate of a scan as long as its inflight entry is at
least the rest of the phases away from the cutoff; that holds when the forward
begins, if `4 * t` is less than the lease and the commands between the clock
reading for the entry and the forward use up no more than the difference.
-/

namespace AdmissionScheduler

/-! ## Seconds -/

theorem AppConfig.modelConfigFor_of_mem {c : AppConfig} {m : String} (hm : m ∈ c.allModelNames) :
    ∃ mc, c.modelConfigFor m = some mc := by
  obtain ⟨cap, hc⟩ := Option.isSome_iff_exists.mp (capacityOf_isSome.mpr hm)
  obtain ⟨mc, hmc, -⟩ := Option.map_eq_some_iff.mp hc
  exact ⟨mc, by rw [modelConfigFor, hmc]⟩

theorem AppConfig.forwardTime_le_iff {c : AppConfig} {m : String} (hm : m ∈ c.allModelNames) :
    c.forwardTime m ≤ c.leaseTtl m ↔ c.syncTimeout m ≤ 22 := by
  obtain ⟨mc, hmc⟩ := modelConfigFor_of_mem hm
  simp only [forwardTime, phaseTimeout, syncTimeout, leaseTtl, hmc, Phase.left, ModelConfig.leaseTtl, second]
  omega

theorem AppConfig.forwardTime_lt {c : AppConfig} {m : String} (hm : m ∈ c.allModelNames) (ht : c.syncTimeout m ≤ 22) :
    c.forwardTime m < c.leaseTtl m := by
  obtain ⟨mc, hmc⟩ := modelConfigFor_of_mem hm
  simp only [syncTimeout, hmc] at ht
  simp only [forwardTime, phaseTimeout, syncTimeout, leaseTtl, hmc, Phase.left, ModelConfig.leaseTtl, second]
  omega

/-! ## The way into a forward -/

section
variable {c : AppConfig} {r r' : Redis} {w w' : Worker} {b : WorkerAct} {es : List Event} {j : String}

/-- From which await a worker comes to track its job, to fetch its hash and to forward it. -/
structure Worker.Approach (r r' : Redis) (w w' : Worker) : Prop where
  tracking : ∀ j t, w'.pc = .tracking j t →
    w.pc = .tracking j t ∧ r' = r ∨ t = r.now ∧ ∃ ts, w.pc = .claiming j ts
  fetching : ∀ j, w'.pc = .fetching j → w.pc = .fetching j ∧ r' = r ∨ ∃ t, w.pc = .tracking j t
  forwarding : ∀ j info, w'.pc = .forwarding j info → w.pc = .forwarding j info ∧ r' = r ∨ w.pc = .fetching j

def Pc.elsewhere : Pc → Bool
  | tracking .. | fetching _ | forwarding .. => false
  | _ => true

theorem Worker.Approach.of_elsewhere (h : w'.pc.elsewhere = true) : Worker.Approach r r' w w' where
  tracking _ _ hj := by rw [hj] at h; cases h
  fetching _ hj := by rw [hj] at h; cases h
  forwarding _ _ hj := by rw [hj] at h; cases h

theorem Worker.Approach.of_same (h : w'.pc = w.pc) : Worker.Approach r r w w' where
  tracking _ _ hj := .inl ⟨h ▸ hj, rfl⟩
  fetching _ hj := .inl ⟨h ▸ hj, rfl⟩
  forwarding _ _ hj := .inl ⟨h ▸ hj, rfl⟩

theorem Worker.step_approach (h : w.step c r b = some (r', w', es)) : Worker.Approach r r' w w' := by
  obtain ⟨m, stop, pc⟩ := w
  cases b with
  | go =>
    simp only [Worker.step, Option.map_eq_some_iff] at h
    obtain ⟨⟨pc', es'⟩, hr, h⟩ := h
    simp only [Prod.mk.injEq] at h
    obtain ⟨-, rfl, -⟩ := h
    cases pc with
    | poll | waitSlot => cases hr; cases stop <;> exact .of_elsewhere rfl
    | popping =>
      obtain ⟨k, -, he⟩ := Option.map_eq_some_iff.mp hr
      cases he; exact .of_elsewhere rfl
    | claiming k ts =>
      cases hr
      cases hf : r.slotFree m with
      | true =>
        exact ⟨fun j t hj => (by cases hj; exact .inr ⟨rfl, ts, rfl⟩), fun _ hj => (by cases hj), fun _ _ hj => (by cases hj)⟩
      | false => exact .of_elsewhere rfl
    | tracking k t =>
      cases hr
      exact ⟨fun _ _ hj => (by cases hj), fun j hj => (by cases hj; exact .inr ⟨t, rfl⟩), fun _ _ hj => (by cases hj)⟩
    | fetching k =>
      simp only [Pc.resume] at hr
      split at hr
      · cases hr; exact .of_elsewhere rfl
      · split at hr <;> cases hr
        · exact .of_elsewhere rfl
        · exact ⟨fun _ _ hj => (by cases hj), fun _ hj => (by cases hj), fun j info hj => (by cases hj; exact .inr rfl)⟩
    | releasing k next => cases hr; cases next <;> exact .of_elsewhere rfl
    | marking | publishing | cleaning | announcing => cases hr; exact .of_elsewhere rfl
    | forwarding | exited | crashed => cases hr
  | fail took =>
    simp only [Worker.step, Option.map_eq_some_iff] at h
    obtain ⟨⟨pc', es'⟩, hr, h⟩ := h
    simp only [Prod.mk.injEq] at h
    obtain ⟨-, rfl, -⟩ := h
    cases pc with
    | tracking k t =>
      cases hr
      exact ⟨fun _ _ hj => (by cases hj), fun j hj => (by cases hj; exact .inr ⟨t, rfl⟩), fun _ _ hj => (by cases hj)⟩
    | releasing k next => cases hr; cases next <;> exact .of_elsewhere rfl
    | popping | claiming | fetching | marking | publishing | cleaning | announcing => cases hr; exact .of_elsewhere rfl
    | poll | waitSlot | forwarding | exited | crashed => cases hr
  | cancel took =>
    simp only [Worker.step, Option.ite_none_right_eq_some, Option.map_eq_some_iff] at h
    obtain ⟨-, pc', hr, h⟩ := h
    simp only [Prod.mk.injEq] at h
    obtain ⟨-, rfl, -⟩ := h
    cases pc with
    | marking k info v ts | publishing k info v => cases v <;> cases hr <;> exact .of_elsewhere rfl
    | exited | crashed => cases hr
    | _ => cases hr; exact .of_elsewhere rfl
  | respond o => cases pc <;> cases h; exact .of_elsewhere rfl
  | timeout | start =>
    simp only [step, Option.ite_none_right_eq_some] at h
    obtain ⟨-, h⟩ := h; cases h; exact .of_elsewhere rfl
  | stop => cases h; exact .of_same rfl
  | kill => cases h; exact .of_elsewhere rfl

end

/-! ## The invariant -/

section
variable {ι : Type} [Fintype ι] [DecidableEq ι] {d : Deployment ι} {i : ι} {T U : Timed ι}

/-- A forward that began now would end before the lease that runs from `x`. -/
def inLease (c : AppConfig) (m : String) (now : Nat) (x : Int) : Prop :=
  (now : Int) + c.forwardTime m < x + c.leaseTtl m

instance (c : AppConfig) (m : String) (now : Nat) (x : Int) : Decidable (inLease c m now x) :=
  inferInstanceAs (Decidable (_ < _))

/-- After `δ` the forward that the worker is about to begin would still end before its lease. -/
def Worker.prompt (c : AppConfig) (r : Redis) (w : Worker) (δ : Nat) : Bool :=
  match w.pc with
  | .tracking _ x => inLease c w.model (r.now + δ) x
  | .fetching j => (r.inflight w.model).entries.all fun p => p.2 ≠ j || inLease c w.model (r.now + δ) p.1
  | _ => true

/-- No time passes that would let a forward that worker `i` has not begun outlive its lease. -/
def prompt (d : Deployment ι) (i : ι) (T : Timed ι) : TimedAct ι → Bool
  | .act (.tick δ) => (T.state.workers i).prompt d.config T.state.redis δ
  | _ => true

structure Leased (d : Deployment ι) (i : ι) (T : Timed ι) : Prop where
  phase : (T.state.workers i).pc.inForward = true →
    T.state.redis.now ≤ T.since i + d.config.phaseTimeout (d.workerModel i)
  tracking : ∀ j x, (T.state.workers i).pc = .tracking j x →
    (∀ m, j ∉ T.state.redis.inflight m) ∧ inLease d.config (d.workerModel i) T.state.redis.now x
  fetching : ∀ j, (T.state.workers i).pc = .fetching j → ∀ m x, (x, j) ∈ (T.state.redis.inflight m).entries →
    m = d.workerModel i ∧ inLease d.config m T.state.redis.now x
  forwarding : ∀ j info, (T.state.workers i).pc = .forwarding j info →
    ∀ m x, (x, j) ∈ (T.state.redis.inflight m).entries → m = d.workerModel i ∧
      (T.since i : Int) + (T.phase i).left * d.config.phaseTimeout m < x + d.config.leaseTtl m

theorem leased_advance {k : ι} (h : Leased d i T) (hs : T.step d (.advance k) = some U) : Leased d i U := by
  simp only [Timed.step] at hs
  split at hs <;> cases hs
  rename_i p inForward next
  by_cases hki : i = k
  · subst hki
    refine ⟨fun _ => ?_, h.tracking, h.fetching, fun j info pc m x hx => ?_⟩
    · simp only [Function.update_self]; exact Nat.le_add_right _ _
    · obtain ⟨rfl, before⟩ := h.forwarding j info pc m x hx
      have now := h.phase inForward
      have left : (T.phase i).left = p.left + 1 := by
        revert next; cases T.phase i <;> intro next <;> cases next <;> rfl
      refine ⟨rfl, ?_⟩
      rw [left] at before
      simp only [Function.update_self]
      push_cast at before ⊢
      rw [Int.add_mul] at before
      omega
  · refine ⟨fun begun => ?_, h.tracking, h.fetching, fun j info pc m x hx => ?_⟩
    · simp only [Function.update_of_ne hki]; exact h.phase begun
    · simp only [Function.update_of_ne hki]; exact h.forwarding j info pc m x hx

omit [Fintype ι] in
/-- Who has added the entry of a job in the hands of worker `i`. -/
theorem entry_of_job {s s' : State ι} {a : Action ι} (hl : Life s) (h : step d s a = some s') {j m : String}
    {x : Int} (hj : (s.workers i).pc.job = some j) (he : (x, j) ∈ (s'.redis.inflight m).entries) :
    (x, j) ∈ (s.redis.inflight m).entries ∨
      ∃ b t, a = .worker i b ∧ (s.workers i).pc = .tracking j t ∧ x = t ∧ m = (s.workers i).model := by
  rcases entry_of_step h he with he | ⟨k, b, t, act, -, pc, hx, hm⟩
  · exact .inl he
  · obtain rfl : k = i := hl.exclusive k i j (by show (s.workers k).pc.job = some j; rw [pc]; rfl) hj
    exact .inr ⟨b, t, act, pc, hx, hm⟩

theorem inLease_later {c : AppConfig} {m : String} {now : Nat} {x : Int} {ι : Type} {a : Action ι}
    (h : inLease c m now x) (tick : ∀ δ, a = .tick δ → inLease c m (now + δ) x) : inLease c m (now + a.elapsed) x := by
  cases a with
  | tick δ => exact tick δ rfl
  | worker | admission | cancel | watch | check => exact h

theorem leased_act {a : Action ι} (hr : (system d).Reach Machine.Any T.state)
    (short : d.config.syncTimeout (d.workerModel i) ≤ 22) (h : Leased d i T)
    (ok : prompt d i T (.act a) = true) (hs : T.step d (.act a) = some U) : Leased d i U := by
  have hl := life hr
  simp only [Timed.step, Option.ite_none_right_eq_some, Option.map_eq_some_iff] at hs
  obtain ⟨inTime, s, hs, rfl⟩ := hs
  have now := now_of_step hs
  have model := model_const hr
  have hr' : (system d).Reach Machine.Any s := hr.next (a := a) trivial hs
  -- time passes only between the steps of the workers
  have early : ∀ {δ}, a = .tick δ → (T.state.workers i).prompt d.config T.state.redis δ = true := by
    rintro δ rfl
    exact ok
  refine ⟨fun hi => ?_, fun j x hi => ?_, fun j hi m x hx => ?_, fun j info hi m x hx => ?_⟩
  · by_cases begun : (T.state.workers i).pc.inForward = true
    · simp only [begun, Bool.not_true, Bool.and_false, Bool.false_eq_true, if_false, now]
      cases a with
      | tick δ =>
        have := of_decide_eq_true inTime i begun
        rw [model] at this; exact this
      | worker | admission | cancel | watch | check => exact h.phase begun
    · simp only [hi, begun, Bool.not_false, Bool.and_self, if_true]; exact Nat.le_add_right _ _
  · rcases worker_of_step hs i with ⟨other, same⟩ | ⟨b, es, act, hw, -⟩
    · rw [same] at hi
      obtain ⟨absent, lease⟩ := h.tracking j x hi
      refine ⟨fun m hm => ?_, ?_⟩
      · obtain ⟨y, hy⟩ := (SortedSet.mem_iff _).mp hm
        rcases entry_of_job hl hs (by rw [hi]; rfl) hy with hy | ⟨b, -, act, -⟩
        · exact absent m ((SortedSet.mem_iff _).mpr ⟨y, hy⟩)
        · exact other b act
      · rw [now]
        refine inLease_later lease fun δ tick => ?_
        have := early tick
        rw [Worker.prompt, hi, model] at this
        exact of_decide_eq_true this
    · have unmoved : a.elapsed = 0 := by rw [act]; rfl
      rcases (Worker.step_approach hw).tracking j x hi with ⟨pc, redis⟩ | ⟨rfl, ts, pc⟩
      · rw [redis]; exact h.tracking j x pc
      · have popped : stage T.state.trace j = .popped (T.state.workers i).model := by
          have := hl.worker i j (by rw [pc]; rfl)
          rwa [pc] at this
        refine ⟨fun m hm => ?_, ?_⟩
        · obtain ⟨y, hy⟩ := (SortedSet.mem_iff _).mp hm
          rcases entry_of_job hl hs (by rw [pc]; rfl) hy with hy | ⟨_, _, -, pc', -⟩
          · rcases hl.inflight m j ((SortedSet.mem_iff _).mpr ⟨y, hy⟩) with hc | hc <;> rw [popped] at hc <;> cases hc
          · rw [pc] at pc'; cases pc'
        · have := AppConfig.forwardTime_lt (d.configured i) short
          rw [now, unmoved, inLease]; omega
  · rcases worker_of_step hs i with ⟨other, same⟩ | ⟨b, es, act, hw, -⟩
    · rw [same] at hi
      rcases entry_of_job hl hs (by rw [hi]; rfl) hx with hx | ⟨b, -, act, -⟩
      · obtain ⟨rfl, lease⟩ := h.fetching j hi m x hx
        refine ⟨rfl, ?_⟩
        rw [now]
        refine inLease_later lease fun δ tick => ?_
        have := early tick
        rw [Worker.prompt, hi, model] at this
        have := List.all_eq_true.mp this _ hx
        simpa using this
      · exact absurd act (other b)
    · have unmoved : a.elapsed = 0 := by rw [act]; rfl
      rcases (Worker.step_approach hw).fetching j hi with ⟨pc, redis⟩ | ⟨t, pc⟩
      · rw [redis] at hx ⊢; exact h.fetching j pc m x hx
      · obtain ⟨absent, lease⟩ := h.tracking j t pc
        rcases entry_of_job hl hs (by rw [pc]; rfl) hx with hx | ⟨b', t', -, pc', rfl, hm⟩
        · exact absurd ((SortedSet.mem_iff _).mpr ⟨x, hx⟩) (absent m)
        · rw [pc] at pc'; cases pc'
          rw [now, unmoved, hm, model]; exact ⟨rfl, lease⟩
  · rcases worker_of_step hs i with ⟨other, same⟩ | ⟨b, es, act, hw, -⟩
    · rw [same] at hi
      have begun : (T.state.workers i).pc.inForward = true := by rw [hi]; rfl
      simp only [begun, Bool.not_true, Bool.and_false, Bool.false_eq_true, if_false]
      rcases entry_of_job hl hs (by rw [hi]; rfl) hx with hx | ⟨b, -, act, -⟩
      · exact h.forwarding j info hi m x hx
      · exact absurd act (other b)
    · have unmoved : a.elapsed = 0 := by rw [act]; rfl
      rcases (Worker.step_approach hw).forwarding j info hi with ⟨pc, redis⟩ | pc
      · have begun : (T.state.workers i).pc.inForward = true := by rw [pc]; rfl
        simp only [begun, Bool.not_true, Bool.and_false, Bool.false_eq_true, if_false]
        rw [redis] at hx; exact h.forwarding j info pc m x hx
      · have begins : ((s.workers i).pc.inForward && !(T.state.workers i).pc.inForward) = true := by
          rw [hi, pc]; rfl
        simp only [begins, if_true]
        rcases entry_of_job hl hs (by rw [pc]; rfl) hx with hx | ⟨_, _, -, pc', -⟩
        · obtain ⟨hm, lease⟩ := h.fetching j pc m x hx
          refine ⟨hm, ?_⟩
          rw [now, unmoved]
          simpa [inLease, AppConfig.forwardTime] using lease
        · rw [pc] at pc'; cases pc'

theorem timed_reach {ok : Timed ι → TimedAct ι → Prop} (h : (timed d).Reach ok T) :
    (system d).Reach Machine.Any T.state := by
  refine h.simulate (N := system d) Timed.state rfl fun S b U _ _ hs => ?_
  cases b with
  | act a =>
    simp only [timed, Timed.step, Option.ite_none_right_eq_some, Option.map_eq_some_iff] at hs
    obtain ⟨-, s, hs, rfl⟩ := hs
    exact Machine.Leads.refl.step (a := a) trivial hs
  | advance i =>
    simp only [timed, Timed.step] at hs
    split at hs <;> cases hs
    exact .refl

theorem leased (short : d.config.syncTimeout (d.workerModel i) ≤ 22)
    (h : (timed d).Reach (fun T b => prompt d i T b = true) T) : Leased d i T := by
  refine h.invariant (I := Leased d i) ?_ fun S b U hr hu ok hs => ?_
  · exact ⟨fun hi => (by cases hi), fun j x hi => (by cases hi), fun j hi => (by cases hi),
      fun j info hi => (by cases hi)⟩
  · cases b with
    | act a => exact leased_act (timed_reach hr) short hu ok hs
    | advance k => exact leased_advance hu hs

/-! ## Scans -/

/-- Only the start of a scan leads to `ZRANGEBYSCORE`. -/
theorem Watcher.step_ranging {c : AppConfig} {r r' : Redis} {w : Watcher} {b : WatchAct} {m : String} {cutoff : Int}
    {es : List Event} (h : w.step c r b = some (r', .ranging m cutoff, es)) : cutoff = c.cutoff m r.now := by
  have next (m' : String) (js : List String) : next m' js ≠ .ranging m cutoff := by cases js <;> simp [Watcher.next]
  cases b with
  | scan m' =>
    simp only [step] at h
    split at h
    · split at h <;> cases h; rfl
    · cases h
  | go =>
    simp only [step, Option.map_eq_some_iff, Prod.mk.injEq] at h
    obtain ⟨⟨w', es'⟩, hr, -, rfl, -⟩ := h
    cases w with
    | ranging m' _ => exact absurd (Prod.mk.inj (Option.some.inj hr)).1 (next _ _)
    | checking m' j rest =>
      have hw := (Prod.mk.inj (Option.some.inj hr)).1
      split at hw
      · exact absurd hw (next _ _)
      · cases hw
    | describing m' j rest => exact absurd (Prod.mk.inj (Option.some.inj hr)).1 (next _ _)
    | idle | reclaiming | announcing => cases hr
  | fail took =>
    simp only [step, Option.map_eq_some_iff, Prod.mk.injEq] at h
    obtain ⟨⟨w', es'⟩, hr, -, rfl, -⟩ := h
    cases w with
    | checking | reclaiming | describing => exact absurd (Prod.mk.inj (Option.some.inj hr)).1 (next _ _)
    | idle | ranging | announcing => cases hr
  | cancel took => cases (step_cancel h).1

omit [Fintype ι] in
/-- The cutoff of a scan is not later than that of a scan that begins now. -/
theorem cutoff_le {ok : State ι → Action ι → Prop} {s : State ι} (h : (system d).Reach ok s) {k : Nat} {m : String}
    {cutoff : Int} (pc : s.watchers k = .ranging m cutoff) : cutoff ≤ d.config.cutoff m s.redis.now := by
  refine h.invariant (I := fun s => s.watchers k = .ranging m cutoff → cutoff ≤ d.config.cutoff m s.redis.now)
    (fun pc => by cases pc) (fun u a v _ hu _ hs pc => ?_) pc
  have now := now_of_step hs
  have later : d.config.cutoff m u.redis.now ≤ d.config.cutoff m v.redis.now := by
    simp only [AppConfig.cutoff, now]; omega
  rcases watcher_of_step hs k with ⟨-, same⟩ | ⟨b, es, rfl, hw, -⟩
  · exact (hu (same ▸ pc)).trans later
  · rw [pc] at hw
    exact (Watcher.step_ranging hw).le.trans later

/-- No candidate of a scan is in a forward. -/
theorem Leased.not_candidate (hr : (timed d).Reach (fun T b => prompt d i T b = true) T) (h : Leased d i T) {k : Nat}
    {m : String} {cutoff : Int} (scan : T.state.watchers k = .ranging m cutoff) {j : String}
    (hj : j ∈ T.state.redis.candidates m cutoff) {info : JobInfo} :
    (T.state.workers i).pc ≠ .forwarding j info := by
  intro pc
  obtain ⟨x, entry, -, old⟩ := SortedSet.mem_rangeByScore.mp hj
  obtain ⟨hm, lease⟩ := h.forwarding j info pc m x entry
  have phase := h.phase (by rw [pc]; rfl)
  rw [← hm] at phase
  have cutoff := cutoff_le (timed_reach hr) scan
  have left : 1 ≤ (T.phase i).left := by cases T.phase i <;> decide
  have : d.config.phaseTimeout m ≤ (T.phase i).left * d.config.phaseTimeout m := Nat.le_mul_of_pos_left _ left
  simp only [AppConfig.cutoff] at cutoff
  omega

/-- A forward ends before its lease exactly for a timeout of at most 22 s. Then a worker inside a
forward is no candidate of a scan, as long as the commands before the forward are prompt. -/
theorem lease_outlives (d : Deployment ι) (i : ι) :
    (d.config.forwardTime (d.workerModel i) ≤ d.config.leaseTtl (d.workerModel i) ↔
      d.config.syncTimeout (d.workerModel i) ≤ 22) ∧
    (d.config.syncTimeout (d.workerModel i) ≤ 22 → ∀ T, (timed d).Reach (fun T b => prompt d i T b = true) T →
      ∀ k m cutoff, T.state.watchers k = .ranging m cutoff →
        ∀ j ∈ T.state.redis.candidates m cutoff, ∀ info, (T.state.workers i).pc ≠ .forwarding j info) := by
  refine ⟨AppConfig.forwardTime_le_iff (d.configured i), fun short T h k m cutoff scan j hj info => ?_⟩
  exact (leased short h).not_candidate h scan hj

end

/-- Worker `i` claims a job, every phase of its forward takes `δ`, and a scan begins. -/
def slowForward {ι : Type} (i : ι) (δ : Nat) : List (TimedAct ι) :=
  (admitRun 0 (chatRequest (.obj []) .null none) "a" ++ List.replicate 6 (Action.worker i .go)).map .act ++
    [.act (.tick δ), .advance i, .act (.tick δ), .advance i, .act (.tick δ), .advance i, .act (.tick δ),
      .act (.watch 0 (.scan "chat"))]

/-- With the default timeout of 120 s a forward may last 480 s, and is a candidate after 150 s. -/
theorem forward_outlives_lease : ¬((oneWorker 120).config.forwardTime ((oneWorker 120).workerModel 0) ≤
    (oneWorker 120).config.leaseTtl ((oneWorker 120).workerModel 0) ∧
    ∀ T, (timed (oneWorker 120)).Reach (fun T b => prompt (oneWorker 120) 0 T b = true) T → ∀ k m cutoff,
      T.state.watchers k = .ranging m cutoff → ∀ j ∈ T.state.redis.candidates m cutoff, ∀ info,
        (T.state.workers 0).pc ≠ .forwarding j info) := by
  intro h
  obtain ⟨T, hr, scan, hj, hf, pc⟩ := (timed (oneWorker 120)).reach_of_exec
    (fun T b => prompt (oneWorker 120) 0 T b = true) (slowForward 0 (120 * second))
    (fun T => T.state.watchers 0 = .ranging "chat" (330 * second) ∧
      "a" ∈ T.state.redis.candidates "chat" (330 * second) ∧
      (T.state.workers 0).pc.inForward = true ∧ (T.state.workers 0).pc.job = some "a") (by decide +kernel)
  have elsewhere := h.2 T hr 0 "chat" (330 * second) scan "a" hj
  cases hpc : (T.state.workers 0).pc with
  | forwarding j info =>
    rw [hpc] at pc; cases pc
    exact elsewhere info hpc
  | _ => rw [hpc] at hf; cases hf

/-- With a timeout of 20 s a forward of 80 s is no candidate. -/
theorem lease_outlives_run : ∃ T, (timed (oneWorker 20)).Reach (fun T b => prompt (oneWorker 20) 0 T b = true) T ∧
    (T.state.workers 0).pc.job = some "a" ∧ T.state.redis.now = 80 * second ∧
    T.state.watchers 0 = .ranging "chat" (-10 * second) ∧
    ∀ j ∈ T.state.redis.candidates "chat" (-10 * second), ∀ info, (T.state.workers 0).pc ≠ .forwarding j info := by
  obtain ⟨T, hr, hj, now, scan⟩ := (timed (oneWorker 20)).reach_of_exec
    (fun T b => prompt (oneWorker 20) 0 T b = true) (slowForward 0 (20 * second))
    (fun T => (T.state.workers 0).pc.job = some "a" ∧ T.state.redis.now = 80 * second ∧
      T.state.watchers 0 = .ranging "chat" (-10 * second)) (by decide +kernel)
  exact ⟨T, hr, hj, now, scan, (lease_outlives (oneWorker 20) 0).2 (by decide) T hr 0 "chat" _ scan⟩

end AdmissionScheduler
