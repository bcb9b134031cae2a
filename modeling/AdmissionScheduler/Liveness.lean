import AdmissionScheduler.Drain
import AdmissionScheduler.RecoverySound

/-!
# No dead ends

Whatever has happened, the queue of a model can still be served. Workers that hold
a slot give it back, leases run out, scans and checks put the slots in order, a
worker comes back to its loop and takes the jobs one by one. Only leaked slots can
stand against it, those in use that no worker holds and that are not in flight: as
many as make up the whole capacity, and no more than the check tolerates.
-/

namespace AdmissionScheduler

/-! ## Steps without a failure -/

/-- A command succeeds, a forward or a `BZPOPMIN` ends, a task that was told to stop is cancelled, one that has ended
is started again. -/
inductive WorkerAct.Ordinary : WorkerAct → Prop
  | go : Ordinary .go
  | respond (o : Outcome) : Ordinary (.respond o)
  | timeout : Ordinary .timeout
  | cancel : Ordinary (.cancel false)
  | start : Ordinary .start

inductive Repairs {ι : Type} : Action ι → Prop
  | tick (δ : Nat) : Repairs (.tick δ)
  | scan (k : Nat) (m : String) : Repairs (.watch k (.scan m))
  | watch (k : Nat) : Repairs (.watch k .go)
  | check (k : Nat) (m : String) : Repairs (.check k (.check m))
  | read (k : Nat) {b : CheckAct} (hb : b = .card ∨ b = .get ∨ b = .go) : Repairs (.check k b)

def Returning {ι : Type} (s : State ι) (a : Action ι) : Prop :=
  ∃ k b, a = .worker k b ∧ (b = .go ∨ ∃ o, b = .respond o) ∧ (s.workers k).pc.slot ≠ none

/-- No request comes in, and besides worker `i` only those work that hold a slot. -/
def Unfailing {ι : Type} (i : ι) (s : State ι) (a : Action ι) : Prop :=
  Repairs a ∨ (∃ b, a = .worker i b ∧ b.Ordinary) ∨ Returning s a

def integerPriorities {ι : Type} : Action ι → Bool
  | .admission _ (.submit sub) => sub.integerPriority
  | _ => true

theorem unfailing_integerPriorities {ι : Type} {i : ι} {s : State ι} {a : Action ι} (h : Unfailing i s a) :
    integerPriorities a = true := by
  rcases h with h | ⟨b, rfl, -⟩ | ⟨k, b, rfl, -⟩
  · cases h <;> rfl
  · rfl
  · rfl

/-! ## Giving slots back -/

/-- By its own steps the worker comes to give back the slot that it holds, and no queue changes on the way. -/
inductive Worker.GivesBack (c : AppConfig) : Redis → Worker → Prop
  | done {r w} (slot : w.pc.slot = none) : GivesBack c r w
  | step {r r' w w' a es} (slot : w.pc.slot ≠ none) (act : a = .go ∨ ∃ o, a = .respond o)
      (hs : w.step c r a = some (r', w', es)) (alive : w'.pc ≠ .crashed) (queue : r'.queue = r.queue)
      (h : GivesBack c r' w') : GivesBack c r w

namespace Worker

section
variable {c : AppConfig} {m j : String} {stop : Bool} {r : Redis}

theorem givesBack_go (pc' : Pc) {pc : Pc} {es : List Event} (slot : pc.slot = some j)
    (hr : pc.resume m r stop = some (pc', es)) (alive : pc' ≠ .crashed) (hs : pc.spares = true) (h : GivesBack c (pc.serve c m r) ⟨m, stop, pc'⟩) :
    GivesBack c r ⟨m, stop, pc⟩ := by
  have first : step c r ⟨m, stop, pc⟩ .go = some (pc.serve c m r, ⟨m, stop, pc'⟩, es ++ pc.served m r true) := by
    simp only [step, hr, Option.map_some]
  have held : pc.slot ≠ none := by
    rw [slot]
    exact Option.some_ne_none j
  exact .step held (.inl rfl) first alive (Pc.serve_spares hs).queue h

theorem givesBack_releasing {next : After} : GivesBack c r ⟨m, stop, .releasing j next⟩ := by
  cases next with
  | ret => exact givesBack_go .poll rfl rfl (by simp) rfl (.done rfl)
  | reraise => exact givesBack_go .exited rfl rfl (by simp) rfl (.done rfl)
  | announce => exact givesBack_go (.announcing j) rfl rfl (by simp) rfl (.done rfl)

theorem givesBack_publishing {info : JobInfo} {v : Verdict} : GivesBack c r ⟨m, stop, .publishing j info v⟩ :=
  givesBack_go (.releasing j (if v = .cancelled then .reraise else .ret)) rfl rfl (by simp) rfl
    givesBack_releasing

theorem givesBack_marking {info : JobInfo} {v : Verdict} {ts : Nat} :
    GivesBack c r ⟨m, stop, .marking j info v ts⟩ :=
  givesBack_go (.publishing j info v) rfl rfl (by simp) rfl givesBack_publishing

theorem givesBack_forwarding {info : JobInfo} : GivesBack c r ⟨m, stop, .forwarding j info⟩ :=
  .step (by simp [Pc.slot]) (.inr ⟨.ok (.obj []), rfl⟩) rfl (by simp) rfl givesBack_marking

theorem givesBack_fetching (hp : r.Parses) : GivesBack c r ⟨m, stop, .fetching j⟩ := by
  cases he : r.job j with
  | none =>
    have hr : (Pc.fetching j).resume m r stop = some (.releasing j .ret, []) := by
      rw [Pc.resume, he]
    exact givesBack_go _ rfl hr (by simp) rfl givesBack_releasing
  | some e =>
    obtain ⟨info, es, hr⟩ := Pc.resume_fetching m stop he hp
    exact givesBack_go _ rfl hr (by simp) rfl givesBack_forwarding

theorem givesBack (w : Worker) (hp : r.Parses) : GivesBack c r w := by
  obtain ⟨m, stop, pc⟩ := w
  cases pc with
  | tracking j t =>
    have tracked : (r.track m j t (c.leaseTtl m)).Parses := hp
    exact givesBack_go (.fetching j) rfl rfl (by simp) rfl (givesBack_fetching tracked)
  | fetching j => exact givesBack_fetching hp
  | forwarding j info => exact givesBack_forwarding
  | marking j info v ts => exact givesBack_marking
  | publishing j info v => exact givesBack_publishing
  | releasing j next => exact givesBack_releasing
  | cleaning j ts => exact givesBack_go (.releasing j .announce) rfl rfl (by simp) rfl givesBack_releasing
  | poll | popping | waitSlot | claiming | announcing | exited | crashed => exact .done rfl

end

end Worker

section
variable {ι : Type} [Fintype ι] [DecidableEq ι] {d : Deployment ι} {s t : State ι} {k : ι} {m : String}
  {ok : State ι → Action ι → Prop}

omit [DecidableEq ι] in
/-- The slots in use that no worker holds and that are not in flight. -/
def leaked (m : String) (s : State ι) : Int := (pool m s).leaked

theorem leaked_of_returning {b : WorkerAct} (h : (system d).Reach ok s) (hb : b = .go ∨ ∃ o, b = .respond o)
    (slot : (s.workers k).pc.slot ≠ none) (hs : step d s (.worker k b) = some t) (alive : (t.workers k).pc ≠ .crashed) :
    leaked m t = leaked m s := by
  have smooth : b.smooth ≠ false := by rcases hb with rfl | ⟨o, rfl⟩ <;> simp [WorkerAct.smooth]
  refine SlotPool.leaked_of_leads (pool_step (life h) (capacity_const h) hs fun p x hx => ?_)
  cases hx with
  | claim act pc fresh =>
    cases act
    rw [pc] at slot
    exact absurd rfl slot
  | register | release => trivial
  | leak act rough =>
    cases act
    exact absurd rough smooth
  | abandon act rough =>
    cases act
    rcases rough with rough | ⟨-, crashed⟩
    · exact absurd rough smooth
    · exact absurd crashed alive
  | reclaim act | reset act => cases act

/-- Worker `k` gives its slot back. -/
theorem exists_returned (h : (system d).Reach (fun _ a => integerPriorities a = true) s) (k : ι) (m : String) : ∃ t,
    (system d).Leads Returning s t ∧ (t.workers k).pc.slot = none ∧ (∀ l, l ≠ k → t.workers l = s.workers l) ∧
      t.redis.queue = s.redis.queue ∧ leaked m t = leaked m s := by
  have hp : s.redis.Parses := parses (fun _ _ _ h => h) h
  have back := Worker.givesBack (c := d.config) (s.workers k) hp
  clear hp
  generalize hr : s.redis = r at back
  generalize hw : s.workers k = w at back
  induction back generalizing s with
  | done slot => exact ⟨s, .refl, hw ▸ slot, fun _ _ => rfl, congrArg Redis.queue hr, rfl⟩
  | @step r r' w w' a es slot act hs alive queue back ih =>
    subst hr hw
    let u : State ι := { s with redis := r', workers := Function.update s.workers k w', trace := es ++ s.trace }
    have first : (system d).step s (.worker k a) = some u := by simp only [system, step, hs, Option.map_some, u]
    have own : u.workers k = w' := Function.update_self ..
    have allowed : integerPriorities (Action.worker k a) = true := rfl
    obtain ⟨t, leads, slot', others, queue', same⟩ := ih (h.next allowed first) rfl own
    refine ⟨t, (Machine.Leads.refl.step ⟨k, a, rfl, act, slot⟩ first).trans leads, slot', ?_, queue'.trans queue, ?_⟩
    · exact fun l hl => (others l hl).trans (Function.update_of_ne hl ..)
    · exact same.trans (leaked_of_returning h act slot first (own ▸ alive))

/-- The induction is on the workers that have still to give their slots back. -/
theorem exists_all_returned (h : (system d).Reach (fun _ a => integerPriorities a = true) s) (m : String) :
    ∀ l : List ι, ∃ t, (system d).Leads Returning s t ∧ (∀ k ∈ l, (t.workers k).pc.slot = none) ∧
      t.redis.queue = s.redis.queue ∧ leaked m t = leaked m s
  | [] => ⟨s, .refl, fun _ hk => absurd hk List.not_mem_nil, rfl, rfl⟩
  | k :: l => by
    obtain ⟨t, hst, free, queue, same⟩ := exists_all_returned h m l
    have ht : (system d).Reach (fun _ a => integerPriorities a = true) t :=
      h.leads (hst.mono fun _ _ ha => unfailing_integerPriorities (i := k) (.inr (.inr ha)))
    obtain ⟨u, htu, own, others, queue', same'⟩ := exists_returned ht k m
    refine ⟨u, hst.trans htu, fun k' hk => ?_, queue'.trans queue, same'.trans same⟩
    by_cases he : k' = k
    · rw [he]
      exact own
    · rw [others k' he]
      exact free k' (List.mem_of_ne_of_mem he hk)

omit [DecidableEq ι] in
/-- Where no worker holds a slot, what is in use beyond the jobs in flight has leaked. -/
theorem surplus_of_returned (h : ∀ k, (s.workers k).pc.slot = none) : surplus m s = leaked m s := by
  have held : heldSlots m s = ∅ := by
    refine Finset.eq_empty_of_forall_notMem fun j hj => ?_
    obtain ⟨k, -, hk⟩ := mem_heldSlots.mp hj
    rw [h k] at hk
    cases hk
  simp only [surplus, leaked, SlotPool.leaked, SlotPool.owed, pool, held, Finset.empty_union, SortedSet.card_members]

theorem exists_settled (h : (system d).Reach (fun _ a => integerPriorities a = true) s) (m : String) : ∃ t,
    (system d).Leads Returning s t ∧ t.redis.queue = s.redis.queue ∧ surplus m t = leaked m s := by
  obtain ⟨t, leads, free, queue, same⟩ := exists_all_returned h m Finset.univ.toList
  have all : ∀ k, (t.workers k).pc.slot = none := fun k => free k (Finset.mem_toList.mpr (Finset.mem_univ k))
  exact ⟨t, leads, queue, (surplus_of_returned all).trans same⟩

end

/-! ## Putting the slots in order -/

section
variable {ι : Type} [DecidableEq ι] {d : Deployment ι} {s s' t : State ι} {a : Action ι} {k : Nat} {m : String}
  {ok : State ι → Action ι → Prop}

theorem repairs_frame (ha : Repairs a) (h : step d s a = some s') :
    s'.workers = s.workers ∧ s'.redis.queue = s.redis.queue := by
  cases ha with
  | tick δ =>
    cases h
    exact ⟨rfl, rfl⟩
  | scan | watch =>
    simp only [step, Option.map_eq_some_iff] at h
    obtain ⟨⟨r', p', es⟩, hp, rfl⟩ := h
    rcases Watcher.step_redis hp with rfl | ⟨-, rfl⟩
    · exact ⟨rfl, rfl⟩
    · exact ⟨rfl, Watcher.serve_queue⟩
  | check | read =>
    simp only [step, Option.map_eq_some_iff] at h
    obtain ⟨⟨r', p', es⟩, hp, rfl⟩ := h
    rcases Checker.step_redis hp with rfl | ⟨-, rfl⟩
    · exact ⟨rfl, rfl⟩
    · exact ⟨rfl, (Checker.serve_frame _ _).1⟩

theorem repairs_leads (h : (system d).Leads (fun _ a => Repairs a) s t) :
    t.workers = s.workers ∧ t.redis.queue = s.redis.queue := by
  refine h.invariant (I := fun t => t.workers = s.workers ∧ t.redis.queue = s.redis.queue) ⟨rfl, rfl⟩
    fun u a v _ hu ha hs => ?_
  obtain ⟨workers, queue⟩ := repairs_frame ha hs
  exact ⟨workers.trans hu.1, queue.trans hu.2⟩

theorem exists_bound (ttl : Nat) (lease : String → Option Nat) : ∀ l : List (Int × String),
    ∃ δ : Nat, ∀ p ∈ l, (∀ t, lease p.2 = some t → t ≤ δ) ∧ p.1 + ttl ≤ δ
  | [] => ⟨0, fun p hp => absurd hp List.not_mem_nil⟩
  | p :: l => by
    obtain ⟨δ, hδ⟩ := exists_bound ttl lease l
    refine ⟨δ + (lease p.2).getD 0 + (p.1 + ttl).toNat, List.forall_mem_cons.mpr ⟨⟨fun t ht => ?_, by omega⟩, ?_⟩⟩
    · rw [ht, Option.getD_some]
      omega
    · intro q hq
      obtain ⟨hlease, hscore⟩ := hδ q hq
      exact ⟨fun t ht => (hlease t ht).trans (by omega), by omega⟩

omit [DecidableEq ι] in
/-- In time every lease of the model runs out. -/
theorem exists_expired (d : Deployment ι) (s : State ι) (m : String) :
    ∃ δ, Expired d m { s with redis := s.redis.tick δ } := by
  obtain ⟨δ, hδ⟩ := exists_bound (d.config.leaseTtl m) s.redis.lease (s.redis.inflight m).entries
  refine ⟨δ, fun p hp => ?_⟩
  obtain ⟨hlease, hscore⟩ := hδ p hp
  constructor
  · change (s.redis.lease p.2).filter (fun t => decide (s.redis.now + δ < t)) = none
    refine Option.filter_eq_none_iff.mpr fun t ht hlt => ?_
    have := hlease t ht
    have := of_decide_eq_true hlt
    omega
  · change p.1 ≤ ((s.redis.now + δ : Nat) : Int) - d.config.leaseTtl m
    omega

theorem spare_watcher (h : (system d).Reach ok s) : ∃ n, ∀ k, n ≤ k → s.watchers k = .idle := by
  refine h.spare State.watchers fun u a v hs => ?_
  change step d u a = some v at hs
  cases a with
  | watch l b =>
    refine ⟨l, fun k hk => ?_⟩
    rcases watcher_of_step hs k with ⟨-, he⟩ | ⟨b', es, he, -⟩
    · exact he
    · exact absurd (Action.watch.inj he).1.symm hk
  | _ =>
    refine ⟨0, fun k _ => ?_⟩
    rcases watcher_of_step hs k with ⟨-, he⟩ | ⟨b', es, he, -⟩
    · exact he
    · cases he

theorem spare_checker (h : (system d).Reach ok s) : ∃ n, ∀ k, n ≤ k → s.checkers k = .idle := by
  refine h.spare State.checkers fun u a v hs => ?_
  change step d u a = some v at hs
  cases a with
  | check l b =>
    refine ⟨l, fun k hk => ?_⟩
    rcases checker_of_step hs k with he | ⟨b', es, he, -⟩
    · exact he
    · exact absurd (Action.check.inj he).1.symm hk
  | _ =>
    refine ⟨0, fun k _ => ?_⟩
    rcases checker_of_step hs k with he | ⟨b', es, he, -⟩
    · exact he
    · cases he

theorem watch_step {b : WatchAct} {r : Redis} {p : Watcher} {es : List Event}
    (hs : (s.watchers k).step d.config s.redis b = some (r, p, es)) :
    ∃ t, (system d).step s (.watch k b) = some t ∧ t.watchers k = p := by
  let t : State ι := { s with redis := r, watchers := Function.update s.watchers k p, trace := es ++ s.trace }
  have hstep : (system d).step s (.watch k b) = some t := by simp only [system, step, hs, Option.map_some, t]
  exact ⟨t, hstep, Function.update_self ..⟩

theorem watch_go {p : Watcher} {es : List Event} (hr : (s.watchers k).resume s.redis = some (p, es)) :
    ∃ t, (system d).step s (.watch k .go) = some t ∧ t.watchers k = p := by
  have hs : (s.watchers k).step d.config s.redis .go =
      some ((s.watchers k).serve s.redis, p, es ++ (s.watchers k).served) := by
    simp only [Watcher.step, hr, Option.map_some]
  exact watch_step hs

theorem check_step {b : CheckAct} {r : Redis} {p : Checker} {es : List Event}
    (hs : (s.checkers k).step d.config s.redis b = some (r, p, es)) :
    ∃ t, (system d).step s (.check k b) = some t ∧ t.checkers k = p := by
  let t : State ι := { s with redis := r, checkers := Function.update s.checkers k p, trace := es ++ s.trace }
  have hstep : (system d).step s (.check k b) = some t := by simp only [system, step, hs, Option.map_some, t]
  exact ⟨t, hstep, Function.update_self ..⟩

/-- The induction is on the candidates that the scan has still to look at. -/
theorem scan_ends : ∀ {js : List String} {s : State ι}, s.watchers k = .next m js →
    ∃ t, (system d).Leads (fun _ a => a = .watch k .go) s t ∧ t.watchers k = .idle
  | [], s, hk => ⟨s, .refl, hk⟩
  | j :: js, s, hk => by
    have hchecking : s.watchers k = .checking m j js := hk
    obtain ⟨t, ht, hp⟩ := watch_go (d := d) (s := s) (k := k) (by rw [hchecking]; rfl)
    have first : (system d).Leads (fun _ a => a = .watch k .go) s t := Machine.Leads.refl.step rfl ht
    by_cases hl : (s.redis.lease j).isSome = true
    · rw [if_pos hl] at hp
      obtain ⟨u, hu, idle⟩ := scan_ends hp
      exact ⟨u, first.trans hu, idle⟩
    · rw [if_neg hl] at hp
      obtain ⟨t', ht', hp'⟩ := watch_go (d := d) (s := t) (k := k) (by rw [hp]; rfl)
      obtain ⟨v, hv, hpv⟩ := watch_go (d := d) (s := t') (k := k) (by rw [hp']; rfl)
      obtain ⟨w, hw, hpw⟩ := watch_go (d := d) (s := v) (k := k) (by rw [hpv]; rfl)
      obtain ⟨u, hu, idle⟩ := scan_ends hpw
      exact ⟨u, (((first.step rfl ht').step rfl hv).step rfl hw).trans hu, idle⟩

theorem exists_scan (h : (system d).Reach ok s) (hm : m ∈ d.config.allModelNames) : ∃ k s₁ t,
    step d s (.watch k (.scan m)) = some s₁ ∧ (system d).Leads (fun _ a => a = .watch k .go) s₁ t ∧
      t.watchers k = .idle := by
  obtain ⟨k, hk⟩ := spare_watcher h
  have idle : s.watchers k = .idle := hk k (Nat.le_refl k)
  obtain ⟨s₁, h₁, hp⟩ := watch_step (d := d) (s := s) (k := k) (b := .scan m) (by
    rw [idle, Watcher.step, if_pos hm])
  obtain ⟨s₂, h₂, hp⟩ := watch_go (d := d) (s := s₁) (k := k) (by
    rw [hp]
    rfl)
  obtain ⟨t, ht, idle⟩ := scan_ends hp
  have first : (system d).Leads (fun _ a => a = .watch k .go) s₁ s₂ := Machine.Leads.refl.step rfl h₂
  exact ⟨k, s₁, t, h₁, first.trans ht, idle⟩

theorem exists_check (h : (system d).Reach ok s) (hm : m ∈ d.config.allModelNames) : ∃ k s₁ t,
    step d s (.check k (.check m)) = some s₁ ∧
      (system d).Leads (fun _ a => a = .check k .card ∨ a = .check k .get ∨ a = .check k .go) s₁ t ∧
      t.checkers k = .idle := by
  obtain ⟨k, hk⟩ := spare_checker h
  have idle : s.checkers k = .idle := hk k (Nat.le_refl k)
  obtain ⟨s₁, h₁, hp⟩ := check_step (d := d) (s := s) (k := k) (b := .check m) (by
    rw [idle, Checker.step, if_pos hm])
  obtain ⟨s₂, h₂, hp⟩ := check_step (d := d) (s := s₁) (k := k) (b := .card) (by
    rw [hp]
    rfl)
  obtain ⟨s₃, h₃, hp⟩ := check_step (d := d) (s := s₂) (k := k) (b := .get) (by
    rw [hp]
    rfl)
  have reads : (system d).Leads (fun _ a => a = .check k .card ∨ a = .check k .get ∨ a = .check k .go) s₁ s₃ :=
    (Machine.Leads.refl.step (.inl rfl) h₂).step (.inr (.inl rfl)) h₃
  by_cases hd : drifted (s₂.redis.inUseOf m) (s₁.redis.inflight m).card = true
  · have hreset : s₃.checkers k = .resetting m (s₁.redis.inflight m).card (s₂.redis.inUseOf m) := by
      rw [hp]
      exact if_pos hd
    obtain ⟨t, ht, hp⟩ := check_step (d := d) (s := s₃) (k := k) (b := .go) (by
      rw [hreset]
      rfl)
    exact ⟨k, s₁, t, h₁, reads.step (.inr (.inr rfl)) ht, hp⟩
  · have hidle : s₃.checkers k = .idle := by
      rw [hp]
      exact if_neg hd
    exact ⟨k, s₁, s₃, h₁, reads, hidle⟩

theorem Repaired.leads {u : State ι} (h : Repaired d m s u) : (system d).Leads (fun _ a => Repairs a) s u := by
  obtain ⟨k, l, s₁, t, t₁, scan, hs, -, check, ht, -⟩ := h
  have scanned : (system d).Leads (fun _ a => Repairs a) s s₁ := Machine.Leads.refl.step (.scan k m) scan
  have checked : (system d).Leads (fun _ a => Repairs a) t t₁ := Machine.Leads.refl.step (.check l m) check
  have looks : (system d).Leads (fun _ a => Repairs a) s₁ t := by
    refine hs.mono fun _ a ha => ?_
    subst ha
    exact .watch k
  have reads : (system d).Leads (fun _ a => Repairs a) t₁ u := by
    refine ht.mono fun _ a ha => ?_
    rcases ha with rfl | rfl | rfl
    · exact .read l (.inl rfl)
    · exact .read l (.inr (.inl rfl))
    · exact .read l (.inr (.inr rfl))
  exact ((scanned.trans looks).trans checked).trans reads

/-- The surplus of slots is what a scan leaves in use, and a check sets it back when it is beyond the tolerance. -/
theorem repaired_free {u : State ι} {c : Int} (h : (system d).Reach ok s) (hc : d.config.capacityOf m = some c)
    (he : Expired d m s) (hs : surplus m s < c ∨ 2 < surplus m s) (hu : Repaired d m s u) :
    u.redis.slotFree m = true := by
  obtain ⟨k, l, s₁, t, t₁, scan, leads, idle, check, leads', idle'⟩ := hu
  obtain ⟨inUse, inflight, capacity⟩ := scanModel_slots h he
  obtain ⟨-, capacity', inUse'⟩ := (s.redis.scanModel d.config m).checkModel_slots m
  have hu : u.redis = (s.redis.scanModel d.config m).checkModel m := by
    rw [check_redis check leads' idle', scan_redis scan leads idle]
  have card : ((s.redis.scanModel d.config m).inflight m).card = 0 := by
    rw [← SortedSet.card_members, inflight, Finset.card_empty]
  have pos := AppConfig.capacity_pos hc
  rw [hu, Redis.slotFree, capacity', capacity, capacity_const h, hc, inUse', card, inUse]
  refine decide_eq_true ?_
  simp only [drifted, decide_eq_true_eq]
  split <;> omega

theorem exists_repaired (h : (system d).Reach ok s) (hm : m ∈ d.config.allModelNames) : ∃ u, Repaired d m s u := by
  obtain ⟨k, s₁, t, scan, leads, idle⟩ := exists_scan h hm
  have first : (system d).step s (.watch k (.scan m)) = some s₁ := scan
  have scanned : (system d).Leads Machine.Any s t := (Machine.Leads.refl.step trivial first).trans leads.any
  obtain ⟨l, t₁, u, check, leads', idle'⟩ := exists_check (h.any.leads scanned) hm
  exact ⟨u, k, l, s₁, t, t₁, scan, leads, idle, check, leads', idle'⟩

theorem exists_free {c : Int} (h : (system d).Reach ok s) (hc : d.config.capacityOf m = some c)
    (hs : surplus m s < c ∨ 2 < surplus m s) :
    ∃ u, (system d).Leads (fun _ a => Repairs a) s u ∧ u.redis.slotFree m = true := by
  have hm : m ∈ d.config.allModelNames := AppConfig.capacityOf_isSome.mp (by rw [hc]; rfl)
  obtain ⟨δ, expired⟩ := exists_expired d s m
  have tick : (system d).step s (.tick δ) = some { s with redis := s.redis.tick δ } := rfl
  have hreach : (system d).Reach Machine.Any { s with redis := s.redis.tick δ } := h.any.next trivial tick
  obtain ⟨u, hu⟩ := exists_repaired hreach hm
  exact ⟨u, (Machine.Leads.refl.step (.tick δ) tick).trans hu.leads, repaired_free hreach hc expired hs hu⟩

end

/-! ## The worker's way back -/

section
variable {c : AppConfig} {f : String → Outcome} {r r' r'' : Redis} {w w' w'' : Worker} {m j : String} {stop : Bool}
  {pc : Pc} {l l' : List WorkerAct} {es es' : List Event}

theorem Worker.run_append : ∀ {l : List WorkerAct} {r : Redis} {w : Worker} {es : List Event},
    run c r w l = some (r', w', es) → run c r' w' l' = some (r'', w'', es') →
    run c r w (l ++ l') = some (r'', w'', es' ++ es)
  | [], r, w, es, h, h' => by
    cases h
    rw [List.append_nil]
    exact h'
  | a :: l, r, w, es, h, h' => by
    obtain ⟨⟨r₁, w₁, es₁⟩, h₁, h⟩ := Option.bind_eq_some_iff.mp h
    obtain ⟨⟨r₂, w₂, es₂⟩, h₂, heq⟩ := Option.map_eq_some_iff.mp h
    cases heq
    rw [← List.append_assoc]
    exact run_cons h₁ (run_append h₂ h')

/-- By ordinary steps the worker gets to its loop with a slot free, and what it takes out of the queue on the way it
handles. -/
def Worker.Resumes (c : AppConfig) (f : String → Outcome) (m : String) (r : Redis) (w : Worker) : Prop :=
  ∃ l r' es, (∀ a ∈ l, a.Ordinary) ∧ run c r w l = some (r', idleAt m, es) ∧ r'.slotFree m = true ∧
    ∀ j ∈ r.queue m, j ∈ r'.queue m ∨ r'.status j = some (f j).verdict.status

namespace Worker

theorem Resumes.run (hrun : w.run c r l = some (r', w', es)) (hl : ∀ a ∈ l, a.Ordinary)
    (hq : r'.queue m = r.queue m) (h : Resumes c f m r' w') : Resumes c f m r w := by
  obtain ⟨l', r'', es', hl', hrun', free, served⟩ := h
  refine ⟨l ++ l', r'', es' ++ es, fun a ha => ?_, run_append hrun hrun', free, hq ▸ served⟩
  exact (List.mem_append.mp ha).elim (hl a) (hl' a)

theorem Resumes.step {a : WorkerAct} (hs : w.step c r a = some (r', w', es)) (ha : a.Ordinary)
    (hq : r'.queue m = r.queue m) (h : Resumes c f m r' w') : Resumes c f m r w := by
  have hrun : w.run c r [a] = some (r', w', [] ++ es) := run_cons hs rfl
  exact h.run hrun (by simpa using ha) hq

theorem resumes_ended (free : r.slotFree m = true) (hpc : pc = .exited ∨ pc = .crashed) :
    Resumes c f m r ⟨m, stop, pc⟩ := by
  have start : step c r ⟨m, stop, pc⟩ .start = some (r, idleAt m, []) := by
    rw [step, if_pos hpc]
    rfl
  have back : Resumes c f m r (idleAt m) := ⟨[], r, [], by simp, rfl, free, fun j hj => .inl hj⟩
  exact back.step start .start rfl

theorem resumes_poll (free : r.slotFree m = true) : Resumes c f m r ⟨m, stop, .poll⟩ := by
  cases stop with
  | false => exact ⟨[], r, [], by simp, rfl, free, fun j hj => .inl hj⟩
  | true =>
    have exit : step c r ⟨m, true, .poll⟩ .go = some (r, ⟨m, true, .exited⟩, []) := rfl
    exact (resumes_ended free (.inl rfl)).step exit .go rfl

theorem resumes_of_returns (free : r.slotFree m = true) (h : pc.Returns c WorkerAct.Ordinary m stop r) :
    Resumes c f m r ⟨m, stop, pc⟩ := by
  obtain ⟨l, r', es, hl, hrun, spares⟩ := h
  exact (resumes_poll (spares.slotFree free)).run hrun hl (congrFun spares.queue m)

theorem ordinary_of_tend {a : WorkerAct} (h : a = .go ∨ ∃ o, a = .respond o) : a.Ordinary := by
  rcases h with rfl | ⟨o, rfl⟩
  · exact .go
  · exact .respond o

theorem resumes_claiming {ts : Nat} (free : r.slotFree m = true) (hp : r.Parses) :
    Resumes c f m r ⟨m, stop, .claiming j ts⟩ := by
  obtain ⟨es, htend, -⟩ := tend_claimed (c := c) (f := f) (j := j) stop ts free hp
  obtain ⟨l, hl, hrun⟩ := run_of_tend htend
  refine Resumes.run hrun (fun a ha => ordinary_of_tend (hl a ha)) rfl (resumes_poll ?_)
  rw [Redis.handled_slotFree]
  exact free

theorem resumes_waiting (free : r.slotFree m = true) (hp : r.Parses) :
    Resumes c f m r ⟨m, stop, .waitSlot j⟩ := by
  cases stop with
  | false =>
    have wait : step c r ⟨m, false, .waitSlot j⟩ .go = some (r, ⟨m, false, .claiming j r.now⟩, []) := rfl
    exact (resumes_claiming free hp).step wait .go rfl
  | true =>
    have exit : step c r ⟨m, true, .waitSlot j⟩ .go = some (r, ⟨m, true, .exited⟩, []) := rfl
    exact (resumes_ended free (.inl rfl)).step exit .go rfl

/-- A pop under way either times out, or is cancelled, or brings a job that is then handled. -/
theorem resumes_popping (free : r.slotFree m = true) (hp : r.Parses) : Resumes c f m r ⟨m, stop, .popping⟩ := by
  cases first : (r.queue m).popMin? with
  | none =>
    have empty : r.firstQueued m = none := by rw [Redis.firstQueued, first]; rfl
    have timeout : step c r ⟨m, stop, .popping⟩ .timeout = some (r, ⟨m, stop, .poll⟩, []) := by
      rw [step, if_pos ⟨rfl, empty⟩]
    exact (resumes_poll free).step timeout .timeout rfl
  | some p =>
    obtain ⟨x, j, z⟩ := p
    cases stop with
    | true =>
      have cancel : step c r ⟨m, true, .popping⟩ (.cancel false) = some (r, ⟨m, true, .exited⟩, []) := rfl
      exact (resumes_ended free (.inl rfl)).step cancel .cancel rfl
    | false =>
      obtain ⟨es, htend, -⟩ := tend_popping (c := c) (f := f) first free hp
      obtain ⟨l, hl, hrun⟩ := run_of_tend htend
      refine ⟨l, _, es, fun a ha => ordinary_of_tend (hl a ha), hrun, ?_, fun k hk => ?_⟩
      · rw [Redis.turn_eq, Redis.handled_slotFree]
        exact free
      · rcases (SortedSet.mem_of_popMin first k).mp hk with rfl | hz
        · exact .inr Redis.handled_status
        · left
          rw [Redis.turn_eq, Redis.handled_queue]
          simpa [Redis.popQueue, first] using hz

/-- A cancelled task releases its slot on its way to the end. -/
theorem resumes_leaving (free : r.slotFree m = true) (hl : pc.leaving = true) : Resumes c f m r ⟨m, stop, pc⟩ := by
  have releasing : ∀ {r : Redis} {j : String}, r.slotFree m = true →
      Resumes c f m r ⟨m, stop, .releasing j .reraise⟩ := by
    intro r j free
    have release : step c r ⟨m, stop, .releasing j .reraise⟩ .go =
        some (r.releaseSlot m j, ⟨m, stop, .exited⟩, [.decremented m j]) := rfl
    have releases : Pc.spares (.releasing j .reraise) = true := rfl
    have spares : r.Spares m (r.releaseSlot m j) := Pc.serve_spares (c := c) releases
    exact (resumes_ended (spares.slotFree free) (.inl rfl)).step release .go rfl
  have publishing : ∀ {r : Redis} {j : String} {info : JobInfo}, r.slotFree m = true →
      Resumes c f m r ⟨m, stop, .publishing j info .cancelled⟩ := by
    intro r j info free
    have publish : step c r ⟨m, stop, .publishing j info .cancelled⟩ .go = some (r, ⟨m, stop, .releasing j .reraise⟩,
        Verdict.cancelled.report j info ++ [.published j .cancelled]) := rfl
    exact (releasing free).step publish .go rfl
  cases pc with
  | marking j info v ts =>
    obtain rfl : v = .cancelled := of_decide_eq_true hl
    have mark : step c r ⟨m, stop, .marking j info .cancelled ts⟩ .go =
        some (r.finish j (Verdict.cancelled.write ts), ⟨m, stop, .publishing j info .cancelled⟩, []) := rfl
    exact (publishing (r := r.finish j (Verdict.cancelled.write ts)) free).step mark .go rfl
  | publishing j info v =>
    obtain rfl : v = .cancelled := of_decide_eq_true hl
    exact publishing free
  | releasing j next =>
    obtain rfl : next = .reraise := of_decide_eq_true hl
    exact releasing free
  | _ => cases hl

/-- Wherever the worker stands, and be it that its task has ended or was told to. -/
theorem resumes (hm : w.model = m) (free : r.slotFree m = true) (hp : r.Parses) : Resumes c f m r w := by
  obtain ⟨m', stop, pc⟩ := w
  obtain rfl : m' = m := hm
  by_cases hl : pc.leaving = true
  · exact resumes_leaving free hl
  have returning : ∀ {v : Verdict}, decide (v = .cancelled) ≠ true → v ≠ .cancelled := fun h hv => h (decide_eq_true hv)
  cases pc with
  | poll => exact resumes_poll free
  | popping => exact resumes_popping free hp
  | waitSlot j => exact resumes_waiting free hp
  | claiming j ts => exact resumes_claiming free hp
  | exited => exact resumes_ended free (.inl rfl)
  | crashed => exact resumes_ended free (.inr rfl)
  | tracking j t => exact resumes_of_returns free (Pc.returns_tracking .go (.respond (f j)) hp)
  | fetching j => exact resumes_of_returns free (Pc.returns_fetching .go (.respond (f j)) hp)
  | forwarding j info => exact resumes_of_returns free (Pc.returns_forwarding .go (.respond (f j)))
  | marking j info v ts => exact resumes_of_returns free (Pc.returns_marking .go (returning hl))
  | publishing j info v => exact resumes_of_returns free (Pc.returns_publishing .go (returning hl))
  | releasing j next => exact resumes_of_returns free (Pc.returns_releasing .go fun h => hl (decide_eq_true h))
  | cleaning j ts => exact resumes_of_returns free (Pc.returns_cleaning .go)
  | announcing j => exact resumes_of_returns free (Pc.returns_announcing .go)

end Worker

end

/-! ## Every queue can be served -/

section
variable {ι : Type} [Fintype ι] [DecidableEq ι] {d : Deployment ι} {s t u : State ι} {i : ι} {m : String}

omit [Fintype ι] [DecidableEq ι] in
theorem integerPriorities_admitsIntegral : AdmitsIntegral (ι := ι) (fun _ a => integerPriorities a = true) :=
  fun _ _ _ h => h

omit [Fintype ι] in
theorem reach_unfailing (h : (system d).Reach (fun _ a => integerPriorities a = true) s)
    (hl : (system d).Leads (Unfailing i) s t) :
    (system d).Reach (fun _ a => integerPriorities a = true) t :=
  h.leads (hl.mono fun _ _ => unfailing_integerPriorities)

omit [Fintype ι] in
/-- The worker gets back to its loop, with the jobs of the queue still there or handled. -/
theorem leads_resumes {f : String → Outcome} (h : (s.workers i).Resumes d.config f m s.redis) : ∃ t,
    (system d).Leads (Unfailing i) s t ∧ t.workers i = idleAt m ∧ t.redis.slotFree m = true ∧
      ∀ j ∈ s.redis.queue m, j ∈ t.redis.queue m ∨ t.redis.status j = some (f j).verdict.status := by
  obtain ⟨l, r, es, hl, hrun, free, served⟩ := h
  have hunfailing : ∀ a ∈ l, ∀ u : State ι, Unfailing i u (.worker i a) := fun a ha _ => .inr (.inl ⟨a, rfl, hl a ha⟩)
  exact ⟨_, leads_of_run hunfailing hrun, Function.update_self .., free, served⟩

/-- **A queue is never stuck for good.** Whatever has happened, crashes, lost replies and expired leases included, so
long as priorities are integers or absent: unless slots that leaked make up the whole capacity of the model and are
too few for the check to notice, there is a way on without a failure, by time, scans, checks, the workers that hold a
slot and one worker of the model, to a state with the queue empty, a slot free and the worker at its loop, in which
each job that was waiting has the status its own forward gives it, however the forwards end. -/
theorem queue_never_stuck (h : (system d).Reach (fun _ a => integerPriorities a = true) s)
    (hi : d.workerModel i = m) {c : Int} (hc : d.config.capacityOf m = some c)
    (hs : leaked m s < c ∨ 2 < leaked m s) (f : String → Outcome) : ∃ t,
    (system d).Leads (Unfailing i) s t ∧ (t.redis.queue m).entries = [] ∧ t.redis.slotFree m = true ∧
      t.workers i = idleAt m ∧ ∀ j ∈ s.redis.queue m, t.redis.status j = some (f j).verdict.status := by
  obtain ⟨s₁, hss₁, kept, same⟩ := exists_settled h m
  have hss₁ : (system d).Leads (Unfailing i) s s₁ := hss₁.mono fun _ _ ha => .inr (.inr ha)
  have hs₁ := reach_unfailing h hss₁
  rw [← same] at hs
  obtain ⟨u, hs₁u, free⟩ := exists_free hs₁ hc hs
  obtain ⟨workers, queue⟩ := repairs_leads hs₁u
  rw [kept] at queue
  have hsu : (system d).Leads (Unfailing i) s u := hss₁.trans (hs₁u.mono fun _ _ ha => .inl ha)
  have hu := reach_unfailing h hsu
  have hm : (u.workers i).model = m := (model_const hu i).trans hi
  have hresumes := Worker.resumes (c := d.config) (f := f) hm free (parses integerPriorities_admitsIntegral hu)
  obtain ⟨v, huv, idle, free, served⟩ := leads_resumes hresumes
  have hv := reach_unfailing hu huv
  obtain ⟨r, es, -, hvt, drained, -⟩ := queue_drained integerPriorities_admitsIntegral hv idle free f
  have hvt : (system d).Leads (Unfailing i) v { v with redis := r, trace := es ++ v.trace } := by
    refine hvt.mono fun _ a ha => ?_
    rcases ha with rfl | ⟨o, rfl⟩
    · exact .inr (.inl ⟨.go, rfl, .go⟩)
    · exact .inr (.inl ⟨.respond o, rfl, .respond o⟩)
  have hcap : r.capacity = v.redis.capacity := (capacity_const (reach_unfailing hv hvt)).trans (capacity_const hv).symm
  refine ⟨_, (hsu.trans huv).trans hvt, drained.queue, ?_, idle, fun j hj => ?_⟩
  · change r.slotFree m = true
    rw [Redis.slotFree, hcap, drained.slots]
    exact free
  · change r.status j = _
    by_cases hq : j ∈ (v.redis.queue m).entries.map Prod.snd
    · exact drained.status j hq
    · rcases served j (queue ▸ hj) with hmem | hstatus
      · exact absurd hmem hq
      · rw [Redis.status, drained.others j hq]
        exact hstatus

end

/-- One worker has claimed the only slot for its job and not yet tracked it, the other has died, and a job is waiting. -/
theorem queue_never_stuck_run : ∃ s t, (system (twoWorkers 1 (Int.le_refl 1))).Leads (Unfailing 1) s t ∧
    (s.workers 0).pc.slot = some "a" ∧ "a" ∉ s.redis.inflight "chat" ∧ (s.workers 1).pc = .exited ∧
    "b" ∈ s.redis.queue "chat" ∧ (t.redis.queue "chat").entries = [] ∧ t.redis.status "b" = some .completed := by
  obtain ⟨s, hr, held, flight, ended, queued, hs⟩ := (system (twoWorkers 1 (Int.le_refl 1))).reach_of_exec
    (fun _ a => integerPriorities a = true)
    (admitRun 0 (chatRequest (.obj []) .null none) "a" ++ admitRun 1 (chatRequest (.obj []) .null none) "b" ++
      List.replicate 4 (.worker 0 .go) ++ [.worker 1 .kill])
    (fun s => (s.workers 0).pc.slot = some "a" ∧ "a" ∉ s.redis.inflight "chat" ∧ (s.workers 1).pc = .exited ∧
      "b" ∈ s.redis.queue "chat" ∧ leaked "chat" s < 1) (by decide +kernel)
  obtain ⟨t, hl, empty, -, -, served⟩ := queue_never_stuck hr (i := 1) rfl (c := 1) (by decide) (.inl hs)
    fun _ => .ok (.obj [])
  exact ⟨s, t, hl, held, flight, ended, queued, empty, served "b" queued⟩

end AdmissionScheduler
