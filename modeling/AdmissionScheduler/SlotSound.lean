import AdmissionScheduler.PrioritySound
import AdmissionScheduler.SlotTurns

/-!
# Slot accounting

What the counter of a model is worth. Without losses and repairs it is exact.
A lease reclaim decrements it without looking at it, and an integrity check sets
it to what it read before: both are harmless exactly as long as they concern
slots that no live worker will give back himself.
-/

namespace AdmissionScheduler

section
variable {ι : Type} [Fintype ι] [DecidableEq ι] {d : Deployment ι} {s s' : State ι} {m : String} {a : Action ι}

omit [DecidableEq ι] in
def runningJobs (m : String) (s : State ι) : Finset String :=
  holdings (fun w : Worker => if w.model = m then w.pc.running else none) s.workers

omit [DecidableEq ι] in
def owedSlots (m : String) (s : State ι) : Finset String := heldSlots m s ∪ (s.redis.inflight m).members

/-! ## Guards -/

/-- No reclaim takes effect on a job of `m` that has left the inflight set or that a live worker holds. -/
def safeReclaim (m : String) (s : State ι) : Action ι → Bool
  | .watch k b =>
    match s.watchers k with
    | .reclaiming m' j _ _ => !(b.takes && m' = m) || decide (j ∈ s.redis.inflight m ∧ j ∉ heldSlots m s)
    | _ => true
  | _ => true

/-- No reset of `m` takes effect below the slots that are held or in flight. -/
def safeReset (m : String) (s : State ι) : Action ι → Bool
  | .check k b =>
    match s.checkers k with
    | .resetting m' n _ => !(b.takes && m' = m) || decide ((owedSlots m s).card ≤ n)
    | _ => true
  | _ => true

/-- No reset takes effect. -/
def noReset (s : State ι) : Action ι → Bool
  | .check k b =>
    match s.checkers k with
    | .resetting .. => !b.takes
    | _ => true
  | _ => true

omit [DecidableEq ι] in
theorem safe_reclaim {k : Nat} {b : WatchAct} {j : String} {rest : List String} {ts : Nat}
    (hr : safeReclaim m s (.watch k b) = true) (takes : b.takes = true)
    (pc : s.watchers k = .reclaiming m j rest ts) : (pool m s).Safe (.reclaim j) := by
  have : j ∈ s.redis.inflight m ∧ j ∉ heldSlots m s := by simpa [safeReclaim, pc, takes] using hr
  exact this

omit [DecidableEq ι] in
theorem safe_of_cause (hr : safeReclaim m s a = true) (hk : safeReset m s a = true) {p : SlotPool String}
    {x : SlotAct String} (hx : SlotCause m s a s' p x) : p.Safe x := by
  cases hx with
  | claim | leak | register | release | abandon => trivial
  | reclaim act takes pc => subst act; exact safe_reclaim hr takes pc
  | @reset k b n recorded act takes pc =>
    subst act
    have : (owedSlots m s).card ≤ n := by simpa [safeReset, pc, takes] using hk
    exact Int.ofNat_le.mpr this

omit [DecidableEq ι] in
theorem counted_of_cause (hr : safeReclaim m s a = true) (hk : noReset s a = true) {p : SlotPool String}
    {x : SlotAct String} (hx : SlotCause m s a s' p x) : p.Counted x := by
  cases hx with
  | claim | leak | register | release | abandon => exact ⟨trivial, nofun⟩
  | reclaim act takes pc => subst act; exact ⟨safe_reclaim hr takes pc, nofun⟩
  | reset act takes pc => subst act; simp [noReset, pc, takes] at hk

/-! ## Capacity at the backend -/

omit [DecidableEq ι] in
theorem running_subset_held : runningJobs m s ⊆ heldSlots m s := by
  intro j hj
  obtain ⟨i, hi⟩ := mem_holdings.mp hj
  simp only [Option.ite_none_right_eq_some] at hi
  refine mem_heldSlots.mpr ⟨i, hi.1, ?_⟩
  cases hp : (s.workers i).pc <;> rw [hp] at hi <;> obtain ⟨-, hi⟩ := hi <;> cases hi <;> rfl

/-- While repairs concern only slots that no worker will give back, no more jobs of a model run at the
backend than it has slots. -/
theorem running_le_capacity {c : Int} (hc : d.config.capacityOf m = some c)
    (h : (system d).Reach (fun s a => safeReclaim m s a = true ∧ safeReset m s a = true) s) :
    (runningJobs m s).card ≤ c := by
  have hs : d.config.slots m = c := by rw [AppConfig.slots, hc]; rfl
  have hp : (SlotPool.machine (d.config.slots m)).Reach SlotPool.Safe (pool m s) :=
    pool_reach (fun _ _ _ _ ha _ _ _ hx => safe_of_cause ha.1 ha.2 hx) h
  have hb := SlotPool.bounded (by rw [hs]; have := AppConfig.capacity_pos hc; omega) hp
  have owed : runningJobs m s ⊆ (pool m s).owed := running_subset_held.trans Finset.subset_union_left
  have := Finset.card_le_card owed
  have := hb.capacity
  rw [hs] at this
  omega

/-! ## Releases -/

theorem claims_le_one {t : List Event} (hl : LegalTrace t) (m j : String) : claims m j t ≤ 1 := by
  refine Nat.le_trans ?_ (Lifecycle.count_crosses_le_one (n := 2) (k := j) hl)
  rw [claims, List.count]
  refine List.countP_mono_left fun e _ he => ?_
  cases eq_of_beq he
  exact Lifecycle.crosses_iff.mpr ⟨_, _, rfl, rfl⟩

/-- While each reclaim is of an inflight job without a live worker, every claim is released at most
once and the counter stays nonnegative. -/
theorem released_once (h : (system d).Reach (fun s a => safeReclaim m s a = true ∧ noReset s a = true) s) :
    (∀ j, claims m j s.trace ≤ 1 ∧ releases m j s.trace ≤ claims m j s.trace) ∧ 0 ≤ s.redis.inUseOf m := by
  have hp := pool_reach (m := m) (fun _ _ _ _ ha _ _ _ hx => counted_of_cause ha.1 ha.2 hx) h
  have hb := SlotPool.balanced hp
  exact ⟨fun j => ⟨claims_le_one (life h).legal m j, hb.releases j⟩, (Int.natCast_nonneg _).trans hb.inUse⟩

end

/-- Two requests are admitted, worker `i` forwards the first and its lease expires. -/
def leaseLapses {ι : Type} (i : ι) : List (Action ι) :=
  admitRun 0 (chatRequest (.obj []) .null none) "a" ++ admitRun 1 (chatRequest (.obj []) .null none) "b" ++
    List.replicate 6 (.worker i .go) ++ [.tick (90 * second)]

/-- The watcher reclaims the slot of a job that is still being forwarded, and a second job gets it. -/
theorem running_exceeds_capacity : ¬∀ s, (system (twoWorkers 1 (Int.le_refl 1))).Reach Machine.Any s → ∀ m c,
    (twoWorkers 1 (Int.le_refl 1)).config.capacityOf m = some c → (runningJobs m s).card ≤ c := by
  intro h
  obtain ⟨s, hr, hs⟩ := (system (twoWorkers 1 (Int.le_refl 1))).reach_of_exec Machine.Any
    (leaseLapses 0 ++ reclaimRun ++ List.replicate 6 (.worker 1 .go))
    (fun s => (runningJobs "chat" s).card = 2) (by decide +kernel)
  have := h s hr "chat" 1 (by decide)
  rw [hs] at this
  exact absurd this (by decide)

/-- The first worker is killed, its slot reclaimed, and the second job runs alone. -/
theorem running_le_capacity_run : ∃ s, (system (twoWorkers 1 (Int.le_refl 1))).Reach
    (fun s a => safeReclaim "chat" s a = true ∧ safeReset "chat" s a = true) s ∧
      runningJobs "chat" s = {"b"} ∧ (runningJobs "chat" s).card ≤ (1 : Int) := by
  obtain ⟨s, hr, hs⟩ := (system (twoWorkers 1 (Int.le_refl 1))).reach_of_exec
    (fun s a => safeReclaim "chat" s a = true ∧ safeReset "chat" s a = true)
    (leaseLapses 0 ++ [.worker 0 .kill] ++ reclaimRun ++ List.replicate 6 (.worker 1 .go))
    (fun s => runningJobs "chat" s = {"b"}) (by decide +kernel)
  exact ⟨s, hr, hs, running_le_capacity (by decide) hr⟩

/-- The reclaim and then the worker give the same slot back. -/
theorem released_twice : ¬∀ s, (system (twoWorkers 1 (Int.le_refl 1))).Reach (fun s a => noReset s a = true) s → ∀ m,
    (∀ j, claims m j s.trace ≤ 1 ∧ releases m j s.trace ≤ claims m j s.trace) ∧ 0 ≤ s.redis.inUseOf m := by
  intro h
  obtain ⟨s, hr, hs⟩ := (system (twoWorkers 1 (Int.le_refl 1))).reach_of_exec (fun s a => noReset s a = true)
    (leaseLapses 0 ++ reclaimRun ++ [.worker 0 (.respond (.ok (.obj [])))] ++ List.replicate 3 (.worker 0 .go))
    (fun s => claims "chat" "a" s.trace = 1 ∧ releases "chat" "a" s.trace = 2 ∧ s.redis.inUseOf "chat" = -1)
    (by decide +kernel)
  have := (h s hr "chat").2
  rw [hs.2.2] at this
  exact absurd this (by decide)

theorem released_once_run : ∃ s,
    (system (twoWorkers 1 (Int.le_refl 1))).Reach (fun s a => safeReclaim "chat" s a = true ∧ noReset s a = true) s ∧
      releases "chat" "a" s.trace = 1 ∧
      (∀ j, claims "chat" j s.trace ≤ 1 ∧ releases "chat" j s.trace ≤ claims "chat" j s.trace) ∧
      0 ≤ s.redis.inUseOf "chat" := by
  obtain ⟨s, hr, hs⟩ := (system (twoWorkers 1 (Int.le_refl 1))).reach_of_exec
    (fun s a => safeReclaim "chat" s a = true ∧ noReset s a = true)
    (leaseLapses 0 ++ [.worker 0 .kill] ++ reclaimRun) (fun s => releases "chat" "a" s.trace = 1) (by decide +kernel)
  exact ⟨s, hr, hs, released_once hr⟩

/-! ## Normal operation -/

section
variable {ι : Type} [DecidableEq ι] {d : Deployment ι} {s s' : State ι} {a : Action ι}

omit [DecidableEq ι] in
/-- No worker is killed or cancelled, no command fails, priorities are integers or absent, and nothing
is reclaimed or reset. -/
def calm (s : State ι) : Action ι → Bool
  | .worker _ b => b.smooth
  | .admission _ b =>
    match b with
    | .submit sub => sub.integerPriority
    | .fail _ => false
    | .name _ | .go => true
  | .cancel _ b =>
    match b with
    | .fail _ => false
    | .request _ | .go => true
  | .watch k b =>
    match s.watchers k with
    | .reclaiming .. => !b.takes
    | _ => true
  | .check k b =>
    match s.checkers k with
    | .resetting .. => !b.takes
    | _ => true
  | .tick _ => true

structure Integral (s : State ι) : Prop where
  call : ∀ k sub, (s.admits k).sub = some sub → sub.integerPriority = true
  created : ∀ j sub, Created s.trace j sub → sub.integerPriority = true

theorem integral_step (hl : Life s) (hi : Integral s)
    (ha : ∀ k sub, a = .admission k (.submit sub) → sub.integerPriority = true) (h : step d s a = some s') :
    Integral s' where
  call k sub hk := by
    rcases admit_of_step h k with hs | ⟨b, es, rfl, hs, -⟩
    · rw [hs] at hk; exact hi.call k sub hk
    · rcases Admit.step_sub hs hk with hk | rfl
      · exact hi.call k sub hk
      · exact ha k sub rfl
  created j sub hc := by
    rcases created_of_step hl h hc with hc | ⟨k, b, text, x, ts, h₀, -, pc, -⟩
    · exact hi.created j sub hc
    · exact hi.call k sub (by rw [pc]; rfl)

omit [DecidableEq ι] in
theorem integral_init : Integral (initState d) where
  call k sub h := by cases h
  created j sub h := by obtain ⟨_, _, h⟩ := h; cases h

def AdmitsIntegral (ok : State ι → Action ι → Prop) : Prop :=
  ∀ s k sub, ok s (.admission k (.submit sub)) → sub.integerPriority = true

omit [DecidableEq ι] in
theorem calm_admitsIntegral : AdmitsIntegral (ι := ι) (fun s a => calm s a = true) := fun _ _ _ h => h

variable {ok : State ι → Action ι → Prop}

theorem integral (hok : AdmitsIntegral ok) (h : (system d).Reach ok s) : Integral s :=
  h.invariant integral_init fun _ _ _ hr hi ha hs =>
    integral_step (life hr) hi (fun _ _ act => hok _ _ _ (act ▸ ha)) hs

def Redis.Parses (r : Redis) : Prop :=
  ∀ j e, r.job j = some e → parsePriority (e.value.priority.getD "") ≠ none

theorem parses (hok : AdmitsIntegral ok) (h : (system d).Reach ok s) : s.redis.Parses := by
  intro j e he hn
  cases hp : e.value.priority with
  | none => rw [hp] at hn; cases hn
  | some t =>
    obtain ⟨sub, n, hc, hnum, scored, rfl⟩ := (priorities h).stored j e t he hp
    have := parse_number hnum scored
    rw [(integral hok h).created j sub hc] at this
    rw [hp, Option.getD_some] at hn
    rw [hn] at this; cases this

/-- A worker crashes only on a hash whose priority does not parse. -/
theorem Pc.resume_crashed {pc : Pc} {m : String} {r : Redis} {stop : Bool} {es : List Event}
    (h : pc.resume m r stop = some (.crashed, es)) : ∃ j e, r.job j = some e ∧ e.value.info m = none := by
  cases pc with
  | fetching j =>
    simp only [resume] at h
    split at h
    · cases h
    · rename_i e he
      split at h
      · rename_i hn; exact ⟨j, e, he, hn⟩
      · cases h
  | poll | waitSlot => cases stop <;> cases h
  | popping =>
    obtain ⟨j, -, hj⟩ := Option.map_eq_some_iff.mp h
    cases hj
  | claiming => simp only [resume] at h; split at h <;> cases h
  | releasing j next => cases next <;> cases h
  | tracking | forwarding | marking | publishing | cleaning | announcing | exited | crashed => cases h

theorem not_crashed (hok : AdmitsIntegral ok) (h : (system d).Reach ok s) {i : ι}
    (hs : step d s (.worker i .go) = some s') : (s'.workers i).pc ≠ .crashed := by
  simp only [step, Worker.step, Option.map_eq_some_iff] at hs
  obtain ⟨-, ⟨⟨pc', es⟩, hr, rfl⟩, rfl⟩ := hs
  simp only [Function.update_self]
  rintro rfl
  obtain ⟨j, e, he, hn⟩ := Pc.resume_crashed hr
  exact parses hok h j e he (JobHash.info_eq_none.mp hn)

end

section
variable {ι : Type} [Fintype ι] [DecidableEq ι] {d : Deployment ι} {s s' : State ι} {m : String} {a : Action ι}

theorem calm_of_cause (hr : (system d).Reach (fun s a => calm s a = true) s) (ha : calm s a = true)
    (h : step d s a = some s') {p : SlotPool String} {x : SlotAct String} (hx : SlotCause m s a s' p x) : p.Calm x := by
  cases hx with
  | claim act pc fresh => exact fresh
  | register | release => trivial
  | leak act rough => subst act; rw [calm, rough] at ha; cases ha
  | abandon act rough =>
    subst act
    rcases rough with rough | ⟨rfl, hc⟩
    · rw [calm, rough] at ha; cases ha
    · exact not_crashed calm_admitsIntegral hr h hc
  | reclaim act takes pc => subst act; simp [calm, pc, takes] at ha
  | reset act takes pc => subst act; simp [calm, pc, takes] at ha

/-- In normal operation the counter of a model is the number of jobs claimed and not yet released,
within the capacity; every inflight job is one of them; and nothing is left when no worker has a job. -/
theorem slots_exact {c : Int} (hc : d.config.capacityOf m = some c)
    (h : (system d).Reach (fun s a => calm s a = true) s) :
    s.redis.inUseOf m = (outstanding m s.trace).card ∧ 0 ≤ s.redis.inUseOf m ∧ s.redis.inUseOf m ≤ c ∧
      (∀ j ∈ s.redis.inflight m, j ∈ outstanding m s.trace) ∧
      ((∀ i, (s.workers i).model = m → (s.workers i).pc.job = none) →
        s.redis.inUseOf m = 0 ∧ ∀ j, j ∉ s.redis.inflight m) := by
  have hs : d.config.slots m = c := by rw [AppConfig.slots, hc]; rfl
  have hp : (SlotPool.machine (d.config.slots m)).Reach SlotPool.Calm (pool m s) :=
    pool_reach (fun _ _ _ hr ha hs _ _ hx => calm_of_cause hr ha hs hx) h
  obtain ⟨inUse, capacity, registered, out⟩ :=
    SlotPool.exact (by rw [hs]; have := AppConfig.capacity_pos hc; omega) hp
  rw [hs] at capacity
  have inflight : ∀ j ∈ s.redis.inflight m, j ∈ heldSlots m s := fun j hj => registered hj
  change s.redis.inUseOf m = (heldSlots m s).card at inUse
  change outstanding m s.trace = heldSlots m s at out
  refine ⟨by rw [out]; exact inUse, by omega, capacity, fun j hj => by rw [out]; exact inflight j hj, fun idle => ?_⟩
  have none : heldSlots m s = ∅ := by
    rw [Finset.eq_empty_iff_forall_notMem]
    intro j hj
    obtain ⟨i, hm, hi⟩ := mem_heldSlots.mp hj
    have := slot_job hi
    rw [idle i hm] at this; cases this
  rw [none] at inUse inflight
  exact ⟨inUse, fun j hj => absurd (inflight j hj) (Finset.notMem_empty j)⟩

end

/-- One job has been forwarded and released, the other is waiting for the next worker. -/
theorem slots_exact_run : ∃ s, (system (twoWorkers 1 (Int.le_refl 1))).Reach (fun s a => calm s a = true) s ∧
    (∀ i, (s.workers i).pc.job = none) ∧ releases "chat" "a" s.trace = 1 ∧
      s.redis.inUseOf "chat" = (outstanding "chat" s.trace).card ∧ 0 ≤ s.redis.inUseOf "chat" ∧
      s.redis.inUseOf "chat" ≤ 1 ∧ (∀ j ∈ s.redis.inflight "chat", j ∈ outstanding "chat" s.trace) ∧
      ((∀ i, (s.workers i).model = "chat" → (s.workers i).pc.job = none) →
        s.redis.inUseOf "chat" = 0 ∧ ∀ j, j ∉ s.redis.inflight "chat") := by
  obtain ⟨s, hr, hi, hs⟩ := (system (twoWorkers 1 (Int.le_refl 1))).reach_of_exec (fun s a => calm s a = true)
    (leaseLapses 0 ++ [.worker 0 (.respond (.timeout "slow"))] ++ List.replicate 3 (.worker 0 .go))
    (fun s => (∀ i, (s.workers i).pc.job = none) ∧ releases "chat" "a" s.trace = 1) (by decide +kernel)
  exact ⟨s, hr, hi, hs, slots_exact (by decide) hr⟩

end AdmissionScheduler
