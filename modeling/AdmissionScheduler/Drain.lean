import AdmissionScheduler.ConsumerSound

/-!
# A worker left alone

With no other step in between, a worker at its loop takes the jobs of its queue
one after the other. What it makes of the store in one turn is computed here
from the job and the way its forward ends, and a whole queue is such turns in
the order of the queue.
-/

namespace AdmissionScheduler

/-! ## Turns -/

/-- The next step of a worker that nothing disturbs; `f` is how the forward of a job ends. -/
def Worker.attend (f : String → Outcome) (w : Worker) : WorkerAct :=
  match w.pc with
  | .forwarding j _ => .respond (f j)
  | _ => .go

def Worker.tend (c : AppConfig) (f : String → Outcome) : Nat → Redis → Worker → Option (Redis × Worker × List Event)
  | 0, r, w => some (r, w, [])
  | n + 1, r, w =>
    (w.step c r (w.attend f)).bind fun (r', w', es) =>
      (tend c f n r' w').map fun (r'', w'', es') => (r'', w'', es' ++ es)

def Redis.turn (c : AppConfig) (m j : String) (v : Verdict) (r : Redis) : Redis :=
  ((((r.popQueue m).claimSlot m j r.now).track m j r.now (c.leaseTtl m)).finish j (v.write r.now)).releaseSlot m j

def Event.sent : Event → Option (String × Json)
  | .forwarded _ j x => some (j, x)
  | _ => none

section
variable {c : AppConfig} {f : String → Outcome} {r r' r'' : Redis} {w w' w'' : Worker} {n k : Nat}
  {es es' : List Event} {m j : String} {v : Verdict}

theorem Worker.tend_succ (h : w.step c r (w.attend f) = some (r', w', es))
    (h' : tend c f n r' w' = some (r'', w'', es')) : tend c f (n + 1) r w = some (r'', w'', es' ++ es) := by
  simp only [tend, h, h', Option.bind_some, Option.map_some]

theorem Worker.tend_add : ∀ {n : Nat} {r : Redis} {w : Worker} {es : List Event},
    tend c f n r w = some (r', w', es) → tend c f k r' w' = some (r'', w'', es') →
    tend c f (n + k) r w = some (r'', w'', es' ++ es)
  | 0, r, w, es, h, h' => by
    cases h
    rw [Nat.zero_add, List.append_nil]
    exact h'
  | n + 1, r, w, es, h, h' => by
    obtain ⟨⟨r₁, w₁, es₁⟩, h₁, h⟩ := Option.bind_eq_some_iff.mp h
    obtain ⟨⟨r₂, w₂, es₂⟩, h₂, heq⟩ := Option.map_eq_some_iff.mp h
    cases heq
    rw [Nat.succ_add, ← List.append_assoc]
    exact tend_succ h₁ (tend_add h₂ h')

theorem Worker.run_of_tend : ∀ {n : Nat} {r : Redis} {w : Worker} {x : Redis × Worker × List Event},
    tend c f n r w = some x → ∃ l, (∀ a ∈ l, a = .go ∨ ∃ o, a = .respond o) ∧ run c r w l = some x
  | 0, r, w, x, h => ⟨[], (fun _ h => by cases h), h⟩
  | n + 1, r, w, x, h => by
    obtain ⟨⟨r₁, w₁, es₁⟩, h₁, h⟩ := Option.bind_eq_some_iff.mp h
    obtain ⟨⟨r₂, w₂, es₂⟩, h₂, rfl⟩ := Option.map_eq_some_iff.mp h
    obtain ⟨l, hl, hrun⟩ := run_of_tend h₂
    refine ⟨w.attend f :: l, List.forall_mem_cons.mpr ⟨?_, hl⟩, run_cons h₁ hrun⟩
    unfold attend
    split
    · exact .inr ⟨_, rfl⟩
    · exact .inl rfl

/-! ## What a turn does to the store -/

namespace Redis

def handled (c : AppConfig) (m j : String) (v : Verdict) (ts : Nat) (r : Redis) : Redis :=
  (((r.claimSlot m j ts).track m j r.now (c.leaseTtl m)).finish j (v.write r.now)).releaseSlot m j

theorem turn_eq : r.turn c m j v = (r.popQueue m).handled c m j v r.now := rfl

theorem handled_queue {ts : Nat} : (r.handled c m j v ts).queue = r.queue := rfl

theorem handled_capacity {ts : Nat} : (r.handled c m j v ts).capacity = r.capacity := rfl

theorem handled_inUseOf {ts : Nat} (p : String) : (r.handled c m j v ts).inUseOf p = r.inUseOf p := by
  by_cases hp : p = m
  · subst hp
    simp [handled, releaseSlot, removeInflight, addInUse, finish, expire, hset, track, claimSlot, inUseOf]
  · simp [handled, releaseSlot, removeInflight, addInUse, finish, expire, hset, track, claimSlot, inUseOf, hp]

theorem handled_slotFree {ts : Nat} (p : String) : (r.handled c m j v ts).slotFree p = r.slotFree p := by
  simp only [slotFree, handled_capacity, handled_inUseOf]

theorem handled_job_ne {ts : Nat} {k : String} (h : k ≠ j) : (r.handled c m j v ts).job k = r.job k :=
  (finish_job_ne h).trans (claimSlot_job_ne h)

theorem handled_status {ts : Nat} : (r.handled c m j v ts).status j = some v.status := by
  have hjob : (r.handled c m j v ts).job j = some (finished _ j (v.write r.now)) := finish_job _ j _
  rw [status, hjob]
  exact v.write_status _ _

theorem handled_parses {ts : Nat} (h : r.Parses) : (r.handled c m j v ts).Parses := by
  have hclaimed : (r.claimSlot m j ts).Parses := Parses.hset (r := r.addInUse m 1) h j fun _ => rfl
  have hmarked := Parses.hset (r := (r.claimSlot m j ts).track m j r.now (c.leaseTtl m)) hclaimed j
    (f := v.write r.now) fun _ => by cases v <;> rfl
  exact hmarked.expire j _

end Redis

/-! ## One turn -/

theorem Verdict.report_sent (info : JobInfo) : (v.report j info).filterMap Event.sent = [] := by
  cases v <;> rfl

/-- From the claim back to the loop. -/
theorem Worker.tend_claimed (stop : Bool) (ts : Nat) (free : r.slotFree m = true) (hp : r.Parses) : ∃ es,
    tend c f 7 r ⟨m, stop, .claiming j ts⟩ = some (r.handled c m j (f j).verdict ts, ⟨m, stop, .poll⟩, es) ∧
      es.filterMap Event.sent = [(j, (r.hashOf j).payload)] := by
  let dispatched : JobHash → JobHash := fun h => { h with status := some .dispatched, dispatchTs := some ts }
  let r₁ := r.claimSlot m j ts
  let r₂ := r₁.track m j r.now (c.leaseTtl m)
  let r₃ := r₂.finish j ((f j).verdict.write r.now)
  let o := (f j).verdict
  have hash : r₂.job j = some (r.written j dispatched) := Redis.hset_job (r.addInUse m 1) j dispatched
  have hparses : r₂.Parses := Redis.Parses.hset (r := r.addInUse m 1) (f := dispatched) hp j fun _ => rfl
  obtain ⟨info, hinfo⟩ : ∃ info, (r.written j dispatched).value.info m = some info := by
    refine Option.ne_none_iff_exists'.mp fun hnone => ?_
    exact hparses j _ hash (JobHash.info_eq_none.mp hnone)
  have claim : step c r ⟨m, stop, .claiming j ts⟩ .go = some (r₁, ⟨m, stop, .tracking j r.now⟩, [.claimed m j]) := by
    simp [step, Pc.resume, Pc.serve, Pc.served, free, r₁]
  have track : step c r₁ ⟨m, stop, .tracking j r.now⟩ .go = some (r₂, ⟨m, stop, .fetching j⟩, []) := rfl
  have fetch : step c r₂ ⟨m, stop, .fetching j⟩ .go = some (r₂, ⟨m, stop, .forwarding j info⟩,
      [.forwarded m j (r.hashOf j).payload, .metric (.queueWait info.model), .emitted .dispatched j]) := by
    simp only [step, Pc.resume, hash, hinfo]
    rfl
  have respond : step c r₂ ⟨m, stop, .forwarding j info⟩ (.respond (f j)) =
      some (r₂, ⟨m, stop, .marking j info o r.now⟩, []) := rfl
  have mark : step c r₂ ⟨m, stop, .marking j info o r.now⟩ .go =
      some (r₃, ⟨m, stop, .publishing j info o⟩, []) := rfl
  have publish : step c r₃ ⟨m, stop, .publishing j info o⟩ .go =
      some (r₃, ⟨m, stop, .releasing j .ret⟩, o.report j info ++ [.published j o.status]) := by
    simp only [step, Pc.resume, Pc.afterReport, o, if_neg (f j).verdict_ne_cancelled]
    rfl
  have release : step c r₃ ⟨m, stop, .releasing j .ret⟩ .go =
      some (r₃.releaseSlot m j, ⟨m, stop, .poll⟩, [.decremented m j]) := rfl
  refine ⟨_, tend_succ claim (tend_succ track (tend_succ fetch (tend_succ respond (tend_succ mark
    (tend_succ publish (tend_succ release rfl)))))), ?_⟩
  simp only [List.nil_append, List.append_nil, List.cons_append, List.append_assoc]
  rw [List.filterMap_cons_none rfl, List.filterMap_append, Verdict.report_sent]
  rfl

theorem Worker.tend_waiting (free : r.slotFree m = true) (hp : r.Parses) : ∃ es,
    tend c f 8 r ⟨m, false, .waitSlot j⟩ = some (r.handled c m j (f j).verdict r.now, ⟨m, false, .poll⟩, es) ∧
      es.filterMap Event.sent = [(j, (r.hashOf j).payload)] := by
  have wait : step c r ⟨m, false, .waitSlot j⟩ .go = some (r, ⟨m, false, .claiming j r.now⟩, []) := rfl
  obtain ⟨es, htend, hsent⟩ := tend_claimed (f := f) (j := j) false r.now free hp
  refine ⟨_, tend_succ wait htend, ?_⟩
  rw [List.append_nil]
  exact hsent

theorem Worker.tend_popping {x : Double} {z : SortedSet Double String} (first : (r.queue m).popMin? = some (x, j, z))
    (free : r.slotFree m = true) (hp : r.Parses) : ∃ es,
    tend c f 9 r ⟨m, false, .popping⟩ = some (r.turn c m j (f j).verdict, ⟨m, false, .poll⟩, es) ∧
      es.filterMap Event.sent = [(j, (r.hashOf j).payload)] := by
  have firstQueued : r.firstQueued m = some j := by rw [Redis.firstQueued, first]; rfl
  have pop : step c r ⟨m, false, .popping⟩ .go = some (r.popQueue m, ⟨m, false, .waitSlot j⟩, [.popped m j]) := by
    simp [step, Pc.resume, Pc.serve, Pc.served, firstQueued]
  obtain ⟨es, htend, hsent⟩ := tend_waiting (r := r.popQueue m) (f := f) (j := j) free hp
  refine ⟨_, tend_succ pop htend, ?_⟩
  rw [List.filterMap_append, hsent]
  rfl

/-- From the loop back to the loop, with the first job of the queue. -/
theorem Worker.tend_turn {x : Double} {z : SortedSet Double String} (first : (r.queue m).popMin? = some (x, j, z))
    (free : r.slotFree m = true) (hp : r.Parses) : ∃ es,
    tend c f 10 r ⟨m, false, .poll⟩ = some (r.turn c m j (f j).verdict, ⟨m, false, .poll⟩, es) ∧
      es.filterMap Event.sent = [(j, (r.hashOf j).payload)] := by
  have poll : step c r ⟨m, false, .poll⟩ .go = some (r, ⟨m, false, .popping⟩, []) := rfl
  obtain ⟨es, htend, hsent⟩ := tend_popping (f := f) first free hp
  refine ⟨_, tend_succ poll htend, ?_⟩
  rw [List.append_nil]
  exact hsent

/-! ## A whole queue -/

def idleAt (m : String) : Worker := ⟨m, false, .poll⟩

/-- What is true of the store once the jobs of `q` were handled, one after the other, from `r` on. -/
structure Drained (f : String → Outcome) (m : String) (q : List String) (r r' : Redis) : Prop where
  queue : (r'.queue m).entries = []
  queues : ∀ p, p ≠ m → r'.queue p = r.queue p
  slots : ∀ p, r'.inUseOf p = r.inUseOf p
  status : ∀ j ∈ q, r'.status j = some (f j).verdict.status
  others : ∀ j, j ∉ q → r'.job j = r.job j

/-- The induction is on the queue: each turn takes its first job. -/
theorem Worker.tend_queue : ∀ {l : List (Double × String)} {r : Redis}, (r.queue m).entries = l →
    r.slotFree m = true → r.Parses → ∃ r' es, tend c f (10 * l.length) r (idleAt m) = some (r', idleAt m, es) ∧
      Drained f m (l.map Prod.snd) r r' ∧
      (es.filterMap Event.sent).reverse = l.map fun p => (p.2, (r.hashOf p.2).payload)
  | [], r, hl, _, _ => by
    refine ⟨r, [], rfl, ⟨hl, fun _ _ => rfl, fun _ => rfl, ?_, fun _ _ => rfl⟩, rfl⟩
    exact fun j hj => absurd hj List.not_mem_nil
  | (x, j) :: l, r, hl, free, hp => by
    obtain ⟨z, hz, first⟩ := SortedSet.popMin_of_entries hl
    obtain ⟨es, hturn, hsent⟩ := tend_turn (c := c) (f := f) first free hp
    have hrest : ((r.turn c m j (f j).verdict).queue m).entries = l := by
      simp only [Redis.turn_eq, Redis.handled_queue, Redis.popQueue, first, Function.update_self, Option.map_some,
        Option.getD_some]
      exact hz
    have hfree : (r.turn c m j (f j).verdict).slotFree m = true := by
      rw [Redis.turn_eq, Redis.handled_slotFree]
      exact free
    have hparses : (r.turn c m j (f j).verdict).Parses := Redis.handled_parses (r := r.popQueue m) hp
    obtain ⟨r', es', htend, hdrained, hsents⟩ := tend_queue hrest hfree hparses
    have hj : j ∉ l.map Prod.snd := by
      have hnodup := (r.queue m).nodup
      rw [hl] at hnodup
      exact (List.nodup_cons.mp hnodup).1
    have hlength : 10 * ((x, j) :: l).length = 10 + 10 * l.length := by
      rw [List.length_cons, Nat.mul_succ, Nat.add_comm]
    refine ⟨r', es' ++ es, by rw [hlength]; exact tend_add hturn htend, ?_, ?_⟩
    · refine ⟨hdrained.queue, fun p hp => ?_, fun p => ?_, ?_, fun k hk => ?_⟩
      · rw [hdrained.queues p hp, Redis.turn_eq, Redis.handled_queue, Redis.popQueue]
        exact Function.update_of_ne hp _ _
      · rw [hdrained.slots, Redis.turn_eq, Redis.handled_inUseOf]
        rfl
      · intro k hk
        rcases List.mem_cons.mp hk with rfl | hk
        · rw [Redis.status, hdrained.others _ hj]
          exact Redis.handled_status
        · exact hdrained.status k hk
      · rw [List.map_cons, List.mem_cons, not_or] at hk
        rw [hdrained.others k hk.2, Redis.turn_eq, Redis.handled_job_ne hk.1]
        rfl
    · have hpayload : ∀ p ∈ l, (r.turn c m j (f j).verdict).hashOf p.2 = r.hashOf p.2 := by
        intro p hpl
        have hne : p.2 ≠ j := by
          rintro rfl
          exact hj (List.mem_map_of_mem hpl)
        rw [Redis.hashOf, Redis.turn_eq, Redis.handled_job_ne hne, Redis.hashOf]
        rfl
      rw [List.filterMap_append, hsent, List.reverse_append, hsents, List.map_cons]
      refine congrArg (_ :: ·) (List.map_congr_left fun p hpl => ?_)
      rw [hpayload p hpl]

end

/-! ## The worker in the system -/

section
variable {ι : Type} [DecidableEq ι] {d : Deployment ι} {s : State ι} {i : ι} {m : String}
  {ok : State ι → Action ι → Prop}

omit [DecidableEq ι] in
def OnlyWorker (i : ι) : State ι → Action ι → Prop := fun _ a => a = .worker i .go ∨ ∃ o, a = .worker i (.respond o)

/-- **Draining a queue.** Where priorities are integers or absent, a worker at its loop with a slot free and nobody
beside it handles its whole queue, ten steps for each job: the jobs are forwarded in the order of the queue, each
once and with the payload in its hash; each ends with the status its own forward gives it; the worker is back at its
loop and every slot is back; and the queues of the other models and all other jobs are as they were. -/
theorem queue_drained (hok : AdmitsIntegral ok) (h : (system d).Reach ok s) (idle : s.workers i = idleAt m)
    (free : s.redis.slotFree m = true) (f : String → Outcome) : ∃ r es,
    Worker.tend d.config f (10 * (s.redis.queue m).card) s.redis (s.workers i) = some (r, idleAt m, es) ∧
      (system d).Leads (OnlyWorker i) s { s with redis := r, trace := es ++ s.trace } ∧
      Drained f m ((s.redis.queue m).entries.map Prod.snd) s.redis r ∧
      (es.filterMap Event.sent).reverse =
        (s.redis.queue m).entries.map fun p => (p.2, (s.redis.hashOf p.2).payload) := by
  obtain ⟨r, es, htend, hdrained, hsent⟩ := Worker.tend_queue (c := d.config) (f := f) rfl free (parses hok h)
  rw [idle]
  refine ⟨r, es, htend, ?_, hdrained, hsent⟩
  obtain ⟨l, hl, hrun⟩ := Worker.run_of_tend htend
  rw [← idle] at hrun
  have honly : ∀ a ∈ l, ∀ u, OnlyWorker i u (.worker i a) :=
    fun a ha _ => (hl a ha).imp (congrArg _) fun ⟨o, ho⟩ => ⟨o, congrArg _ ho⟩
  have hleads := leads_of_run honly hrun
  rwa [Function.update_eq_self] at hleads

end

/-- The second job has the higher priority; its forward fails. -/
theorem queue_drained_run : ∃ s r es, (s.redis.queue "chat").entries.map Prod.snd = ["b", "a"] ∧
    Worker.tend (chatWorkers 1 1 50 (Int.le_refl 1) (by decide)).config
        (fun j => if j = "a" then .ok (.obj []) else .timeout "timed out") (10 * (s.redis.queue "chat").card) s.redis
        (s.workers 0) = some (r, idleAt "chat", es) ∧
      (system (chatWorkers 1 1 50 (Int.le_refl 1) (by decide))).Leads (OnlyWorker 0) s
        { s with redis := r, trace := es ++ s.trace } ∧
      Drained (fun j => if j = "a" then .ok (.obj []) else .timeout "timed out") "chat"
        ((s.redis.queue "chat").entries.map Prod.snd) s.redis r ∧
      (es.filterMap Event.sent).reverse =
        (s.redis.queue "chat").entries.map fun p => (p.2, (s.redis.hashOf p.2).payload) := by
  obtain ⟨s, hr, idle, free, hq⟩ := (system (chatWorkers 1 1 50 (Int.le_refl 1) (by decide))).reach_of_exec
    (fun _ a => faultless a = true)
    (admitRun 0 (chatRequest (.obj []) .null none) "a" ++ admitRun 1 (chatRequest (.obj []) (.int 1) none) "b")
    (fun s => s.workers 0 = idleAt "chat" ∧ s.redis.slotFree "chat" = true ∧
      (s.redis.queue "chat").entries.map Prod.snd = ["b", "a"]) (by decide +kernel)
  obtain ⟨r, es, hdrained⟩ := queue_drained faultless_admitsIntegral hr idle free
    fun j => if j = "a" then .ok (.obj []) else .timeout "timed out"
  exact ⟨s, r, es, hq, hdrained⟩

end AdmissionScheduler
