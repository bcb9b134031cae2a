import AdmissionScheduler.PayloadSound
import AdmissionScheduler.Rounding

/-!
# The priority of a job

`admit` writes the priority into the hash as a text, and a worker reads it back
with `int()` after it has claimed a slot. The text is always that of a number,
and `int()` takes it exactly when the number is an integer.
-/

namespace AdmissionScheduler

def Stage.Early (x : Stage) : Prop := x = .unborn ∨ (∃ m, x = .queued m) ∨ ∃ m, x = .popped m

theorem Stage.early_back {e : Event} {j : String} {x y : Stage} (h : e.move = some (j, x, y)) (hy : y.Early) :
    x.Early := by
  cases e <;> cases h <;> rcases hy with hy | ⟨m, hy⟩ | ⟨m, hy⟩ <;> cases hy
  · exact .inl rfl
  · exact .inl rfl
  · exact .inr (.inl ⟨_, rfl⟩)

theorem Stage.Claimed.not_early {m : String} {x : Stage} (h : x.Claimed m) : ¬x.Early := by
  rintro (rfl | ⟨m', rfl⟩ | ⟨m', rfl⟩) <;> rcases h with h | h <;> cases h

def PyNum.Scored (n : PyNum) : Prop := ∃ now seq x, n.score now seq = some x

/-- As an equation of functions; at an argument, unfolding would compute the rounding. -/
theorem floatOfInt_def : floatOfInt = fun n => match Double.ofInt n with
    | .finite u => some (.finite u)
    | .inf _ | .nan => none := by
  delta floatOfInt
  funext n
  generalize Double.ofInt n = z
  cases z <;> rfl

theorem floatOfInt_eq {n : Int} {x : Double} (h : floatOfInt n = some x) :
    Double.ofInt n = x ∧ ∃ u, x = .finite u := by
  rw [floatOfInt_def] at h
  beta_reduce at h
  generalize Double.ofInt n = z at h ⊢
  cases z with
  | finite u => cases h; exact ⟨rfl, u, rfl⟩
  | inf | nan => cases h

theorem natAbs_lt_of_scaled {n : Int} {a b k m : Nat} (ha : a < priorityMultiplier) (hb : b < 1000)
    (h : (n * priorityMultiplier + a + b).natAbs < 2 ^ k) (hk : 44 ≤ k) (hm : k < m) : n.natAbs < 10 ^ m := by
  have := Nat.pow_le_pow_right (show 0 < 2 by decide) hk
  unfold priorityMultiplier at ha h
  calc n.natAbs < 2 * 2 ^ k := by omega
    _ = 2 ^ (k + 1) := Nat.pow_succ'.symm
    _ ≤ 2 ^ m := Nat.pow_le_pow_right (by decide) hm
    _ ≤ 10 ^ m := Nat.pow_le_pow_left (by decide) m

/-- What makes a score is far shorter than what `int()` refuses for its length. -/
theorem PyNum.Scored.short {n : Int} (h : (PyNum.int n).Scored) : n.natAbs < 10 ^ maxStrDigits := by
  obtain ⟨now, seq, x, hx⟩ := h
  simp only [score] at hx
  obtain ⟨hx, u, rfl⟩ := floatOfInt_eq hx
  exact natAbs_lt_of_scaled (Nat.mod_lt _ (by decide)) (Nat.mod_lt _ (by decide)) (Double.lt_of_ofInt hx)
    (by decide) (by simp [maxStrDigits])

theorem Admit.step_text {c : AppConfig} {sha256 : String → String} {r r' : Redis} {p : Admit} {a : AdmitAct}
    {es : List Event} {sub : Submission} {j text : String} {x : Double} {ts : Nat}
    (h : p.step c sha256 r a = some (r', .enqueueing sub j text x ts, es)) :
    ∃ n seq, sub.number c = some n ∧ n.score ts seq = some x ∧ text = n.text := by
  cases a with
  | submit sub =>
    simp only [step] at h
    split at h
    · split at h <;> cases h
    · cases h
  | name j => simp only [step] at h; split at h <;> cases h
  | fail took =>
    simp only [step, Option.map_eq_some_iff, Prod.mk.injEq] at h
    obtain ⟨⟨p₁, es₁⟩, hr, -, rfl, -⟩ := h
    cases p <;> cases hr
  | go =>
    simp only [step, Option.map_eq_some_iff, Prod.mk.injEq] at h
    obtain ⟨⟨p₁, es₁⟩, hr, -, rfl, -⟩ := h
    cases p with
    | sequencing sub₀ j₀ =>
      simp only [resume] at hr
      split at hr
      · cases hr
      · rename_i n hn
        split at hr <;> cases hr
        rename_i hy
        exact ⟨n, _, hn, hy, rfl⟩
    | lookup | enqueueing => simp only [resume] at hr; (repeat' split at hr) <;> cases hr
    | refusing | recording | ranking | sizing | storing => cases hr
    | idle | naming | done | raised => cases hr

section
variable {ι : Type} [DecidableEq ι] {d : Deployment ι} {s s' : State ι}

theorem early_of_step {a : Action ι} (hl : Life s) (h : step d s a = some s') {j : String}
    (hj : (stage s'.trace j).Early) : (stage s.trace j).Early := by
  have hl' := (life_step hl h).legal
  obtain ⟨es, hes⟩ := events_of_step h
  rw [hes] at hj hl'
  exact Lifecycle.stage_append_back (L := jobLifecycle) (P := Stage.Early) Stage.early_back hl' hj

theorem Redis.hashOf_eq {r : Redis} {j : String} {e : Entry JobHash} (h : r.job j = some e) : r.hashOf j = e.value := by
  simp [hashOf, h]

/-- Where the priority in a hash comes from, and that a job waiting for a slot has one. -/
structure Priorities (c : AppConfig) (s : State ι) : Prop where
  text : ∀ k sub j t x ts, s.admits k = .enqueueing sub j t x ts →
    ∃ n seq, sub.number c = some n ∧ n.score ts seq = some x ∧ t = n.text
  stored : ∀ j e t, s.redis.job j = some e → e.value.priority = some t →
    ∃ sub n, Created s.trace j sub ∧ sub.number c = some n ∧ n.Scored ∧ t = n.text
  waiting : ∀ j sub, Created s.trace j sub → (stage s.trace j).Early →
    ∃ e, s.redis.job j = some e ∧ e.expireAt = none ∧ e.value.priority.isSome

omit [DecidableEq ι] in
theorem priorities_init : Priorities d.config (initState d) where
  text k sub j t x ts h := by cases h
  stored j e t h := by cases h
  waiting j sub h := by obtain ⟨m, x, h⟩ := h; cases h

theorem text_step {a : Action ι} (hp : Priorities d.config s) (h : step d s a = some s') {k : Nat} {sub : Submission}
    {j t : String} {x : Double} {ts : Nat} (hk : s'.admits k = .enqueueing sub j t x ts) :
    ∃ n seq, sub.number d.config = some n ∧ n.score ts seq = some x ∧ t = n.text := by
  rcases admit_of_step h k with hs | ⟨b, es, -, hs, -⟩
  · rw [hs] at hk; exact hp.text k sub j t x ts hk
  · rw [hk] at hs; exact Admit.step_text hs

theorem stored_step {a : Action ι} (hl : Life s) (hp : Priorities d.config s) (h : step d s a = some s') {j t : String}
    {e : Entry JobHash} (he : s'.redis.job j = some e) (ht : e.value.priority = some t) :
    ∃ sub n, Created s'.trace j sub ∧ sub.number d.config = some n ∧ n.Scored ∧ t = n.text := by
  have keep : ∀ {e₀}, s.redis.job j = some e₀ → e₀.value.priority = some t →
      ∃ sub n, Created s'.trace j sub ∧ sub.number d.config = some n ∧ n.Scored ∧ t = n.text := by
    intro e₀ he₀ ht₀
    obtain ⟨sub, n, hc, hn⟩ := hp.stored j e₀ t he₀ ht₀
    exact ⟨sub, n, hc.step h, hn⟩
  have written : (s.redis.hashOf j).priority = some t →
      ∃ sub n, Created s'.trace j sub ∧ sub.number d.config = some n ∧ n.Scored ∧ t = n.text := by
    intro hf
    cases hj : s.redis.job j with
    | none => simp [Redis.hashOf, hj] at hf
    | some e₀ => exact keep hj (by rwa [Redis.hashOf_eq hj] at hf)
  have hw := hash_write (j := j) hl h
  rw [he] at hw
  generalize hx : some e = x at hw
  cases hw with
  | keep => exact keep hx.symm ht
  | purge => cases hx
  | claim | clean | cancelled | cancelling | reclaim | store => cases hx; exact written ht
  | @mark i b info v ts act takes pc => cases hx; exact written (by rw [← ht]; cases v <;> rfl)
  | expire =>
    obtain ⟨e₀, he₀, rfl⟩ := Option.map_eq_some_iff.mp hx.symm
    exact keep he₀ ht
  | @enqueue k b sub text x ts h₀ act pc absent hash event =>
    cases hx
    obtain ⟨n, seq, hn, scored, rfl⟩ := hp.text k sub j text x ts pc
    have := (enqueuedHash_fields (plain_text n) sub.caller_plain sub.requestId_plain hash).2.1
    exact ⟨sub, n, ⟨_, _, event⟩, hn, ⟨_, _, _, scored⟩, (Option.some.inj (this.symm.trans ht)).symm⟩

theorem waiting_step {a : Action ι} (hl : Life s) (hp : Priorities d.config s) (h : step d s a = some s') {j : String}
    {sub : Submission} (hc : Created s'.trace j sub) (hj : (stage s'.trace j).Early) :
    ∃ e, s'.redis.job j = some e ∧ e.expireAt = none ∧ e.value.priority.isSome := by
  rcases created_of_step hl h hc with hc | ⟨k, b, text, x, ts, h₀, -, pc, -, hash, new⟩
  · have early := early_of_step hl h hj
    obtain ⟨e, he, ht, hpr⟩ := hp.waiting j sub hc early
    have written : ∀ {f : JobHash → JobHash}, (∀ h, (f h).priority = h.priority) →
        ∃ e', some (s.redis.written j f) = some e' ∧ e'.expireAt = none ∧ e'.value.priority.isSome := by
      intro f hf
      refine ⟨_, rfl, by simp [Redis.written, he, ht], ?_⟩
      simp only [Redis.written, Redis.hashOf_eq he, hf]; exact hpr
    have hw := hash_write (j := j) hl h
    generalize s'.redis.job j = x at hw ⊢
    cases hw with
    | keep => exact ⟨e, he, ht, hpr⟩
    | purge act old ttl => rw [he] at old; cases old; rw [ht] at ttl; cases ttl
    | claim | cancelled | cancelling | store => exact written fun _ => rfl
    | @mark i _ _ _ _ act takes pc | @clean i _ _ act takes pc =>
      exact absurd early ((hl.worker i).claimed_of_slot (by rw [pc]; rfl)).not_early
    | @reclaim k b m rest ts act takes pc =>
      exact absurd early (hl.pending k m (j :: rest) (by rw [pc]; rfl) j (List.mem_cons_self ..)).not_early
    | @expire k b m act pc =>
      have := hl.cancel k j (by rw [pc]; rfl)
      rw [pc] at this
      rcases early with h | ⟨_, h⟩ | ⟨_, h⟩ <;> rw [h] at this <;> cases this
    | enqueue act pc absent => rw [he] at absent; cases absent
  · obtain ⟨n, -, -, -, rfl⟩ := hp.text k sub j text x ts pc
    have := (enqueuedHash_fields (plain_text n) sub.caller_plain sub.requestId_plain hash).2.1
    exact ⟨_, new, rfl, by rw [this]; rfl⟩

theorem priorities {ok : State ι → Action ι → Prop} (h : (system d).Reach ok s) : Priorities d.config s :=
  h.invariant priorities_init fun _ _ _ hr hp _ hs => {
    text := fun _ _ _ _ _ _ => text_step hp hs
    stored := fun _ _ _ => stored_step (life hr) hp hs
    waiting := fun _ _ => waiting_step (life hr) hp hs }

end

/-! ## A worker by itself -/

def Worker.run (c : AppConfig) : Redis → Worker → List WorkerAct → Option (Redis × Worker × List Event)
  | r, w, [] => some (r, w, [])
  | r, w, a :: l =>
    (w.step c r a).bind fun (r', w', es) => (run c r' w' l).map fun (r'', w'', es') => (r'', w'', es' ++ es)

theorem Worker.run_cons {c : AppConfig} {r r' r'' : Redis} {w w' w'' : Worker} {a : WorkerAct} {l : List WorkerAct}
    {es es' : List Event} (h : w.step c r a = some (r', w', es)) (h' : run c r' w' l = some (r'', w'', es')) :
    run c r w (a :: l) = some (r'', w'', es' ++ es) := by
  simp only [run, h, h', Option.bind_some, Option.map_some]

section
variable {ι : Type} [DecidableEq ι] {d : Deployment ι} {s t : State ι} {i : ι} {j : String} {o : Outcome}

omit [DecidableEq ι] in
/-- Only worker `i` steps; no command fails and a forward ends with `o`. -/
def Alone (i : ι) (o : Outcome) : State ι → Action ι → Prop := fun _ a => a = .worker i .go ∨ a = .worker i (.respond o)

theorem leads_of_run {ok : State ι → Action ι → Prop} : ∀ {l : List WorkerAct} {s : State ι} {r : Redis} {w : Worker}
    {es : List Event}, (∀ a ∈ l, ∀ u, ok u (.worker i a)) → (s.workers i).run d.config s.redis l = some (r, w, es) →
    (system d).Leads ok s { s with redis := r, workers := Function.update s.workers i w, trace := es ++ s.trace }
  | [], s, r, w, es, _, h => by
    simp only [Worker.run, Option.some.injEq, Prod.mk.injEq] at h
    obtain ⟨rfl, rfl, rfl⟩ := h
    rw [Function.update_eq_self]; exact .refl
  | a :: l, s, r, w, es, hl, h => by
    obtain ⟨⟨r₁, w₁, es₁⟩, h₁, h⟩ := Option.bind_eq_some_iff.mp h
    obtain ⟨⟨r₂, w₂, es₂⟩, h₂, h⟩ := Option.map_eq_some_iff.mp h
    simp only [Prod.mk.injEq] at h
    obtain ⟨rfl, rfl, rfl⟩ := h
    have first : (system d).step s (.worker i a) =
        some { s with redis := r₁, workers := Function.update s.workers i w₁, trace := es₁ ++ s.trace } := by
      simp only [system, step, h₁, Option.map_some]
    let s₁ : State ι := { s with redis := r₁, workers := Function.update s.workers i w₁, trace := es₁ ++ s.trace }
    have rest : (system d).Leads ok s₁ _ := leads_of_run (fun b hb => hl b (List.mem_cons_of_mem _ hb))
      (show (s₁.workers i).run d.config s₁.redis l = _ by simpa [s₁] using h₂)
    simp only [s₁, Function.update_idem, ← List.append_assoc] at rest
    exact (Machine.Leads.refl.step (hl a (List.mem_cons_self ..) s) first).trans rest

/-! ## What `_wait_for_slot_and_claim` does for a job -/

/-- With outcome `o` the worker gets back to its loop, has released the slot exactly once and has
left the job in a terminal status. -/
def Handled (d : Deployment ι) (s : State ι) (i : ι) (j : String) (o : Outcome) : Prop :=
  ∃ t, (system d).Leads (Alone i o) s t ∧ (t.workers i).pc = .poll ∧
    releases (s.workers i).model j t.trace = releases (s.workers i).model j s.trace + 1 ∧
    ∃ st, t.redis.status j = some st ∧ st.terminal = true

theorem handled_of_run {l : List WorkerAct} {r : Redis} {w : Worker} {es : List Event}
    (hl : ∀ a ∈ l, a = .go ∨ a = .respond o) (h : (s.workers i).run d.config s.redis l = some (r, w, es))
    (poll : w.pc = .poll) (released : es.count (.decremented (s.workers i).model j) = 1)
    (status : ∃ st, r.status j = some st ∧ st.terminal = true) : Handled d s i j o :=
  ⟨_, leads_of_run (fun a ha _ => (hl a ha).imp (congrArg _) (congrArg _)) h, by simp [poll],
    by simp [releases, List.count_append, released, Nat.add_comm], status⟩

structure Claims (s : State ι) (i : ι) (j : String) : Prop where
  pc : (s.workers i).pc = .waitSlot j ∧ (s.workers i).stop = false ∨ ∃ ts, (s.workers i).pc = .claiming j ts
  free : s.redis.slotFree (s.workers i).model = true

theorem JobHash.info_eq_none {h : JobHash} {m : String} :
    h.info m = none ↔ parsePriority (h.priority.getD "") = none := by
  simp [info]

theorem Outcome.verdict_ne_cancelled (o : Outcome) : o.verdict ≠ .cancelled := by
  unfold verdict
  split
  · split
    · nofun
    · split <;> nofun
  all_goals nofun

theorem Verdict.terminal (v : Verdict) : v.status.terminal = true := by cases v <;> rfl

theorem Verdict.write_status (v : Verdict) (ts : Nat) (h : JobHash) : (v.write ts h).status = some v.status := by
  cases v <;> rfl

theorem Verdict.count_report (v : Verdict) (m j k : String) (info : JobInfo) :
    (v.report k info).count (.decremented m j) = 0 := by
  cases v <;> simp [report]

/-- From a claim with a free slot and a priority that parses, to the loop. -/
theorem Worker.run_handled {c : AppConfig} {r : Redis} {m j : String} {stop : Bool} {ts : Nat} {e : Entry JobHash}
    (free : r.slotFree m = true) (he : r.job j = some e) {n : Int}
    (hn : parsePriority (e.value.priority.getD "") = some n) (o : Outcome) :
    ∃ r' es, Worker.run c r ⟨m, stop, .claiming j ts⟩ [.go, .go, .go, .respond o, .go, .go, .go] =
        some (r', ⟨m, stop, .poll⟩, es) ∧
      es.count (.decremented m j) = 1 ∧ ∃ st, r'.status j = some st ∧ st.terminal = true := by
  let dispatched : JobHash → JobHash := fun h => { h with status := some .dispatched, dispatchTs := some ts }
  let r₁ := r.claimSlot m j ts
  let r₂ := r₁.track m j r.now (c.leaseTtl m)
  let r₃ := r₂.finish j (o.verdict.write r.now)
  have hash : r₂.job j = some (r.written j dispatched) := Redis.hset_job (r.addInUse m 1) j dispatched
  obtain ⟨info, hinfo⟩ : ∃ info, (r.written j dispatched).value.info m = some info := by
    simp [JobHash.info, Redis.written, Redis.hashOf_eq he, dispatched, hn]
  have status : (r₃.releaseSlot m j).status j = some o.verdict.status := by
    have : (r₃.releaseSlot m j).job j = some (r₂.finished j (o.verdict.write r.now)) := Redis.finish_job r₂ j _
    rw [Redis.status, this]
    exact o.verdict.write_status _ _
  have claim : step c r ⟨m, stop, .claiming j ts⟩ .go = some (r₁, ⟨m, stop, .tracking j r.now⟩, [.claimed m j]) := by
    simp [step, Pc.resume, Pc.serve, Pc.served, free, r₁]
  have track : step c r₁ ⟨m, stop, .tracking j r.now⟩ .go = some (r₂, ⟨m, stop, .fetching j⟩, []) := rfl
  have fetch : step c r₂ ⟨m, stop, .fetching j⟩ .go = some (r₂, ⟨m, stop, .forwarding j info⟩,
      [.forwarded m j (r.written j dispatched).value.payload, .metric (.queueWait info.model),
        .emitted .dispatched j]) := by
    simp only [step, Pc.resume, hash, hinfo]; rfl
  have respond : step c r₂ ⟨m, stop, .forwarding j info⟩ (.respond o) =
      some (r₂, ⟨m, stop, .marking j info o.verdict r.now⟩, []) := rfl
  have mark : step c r₂ ⟨m, stop, .marking j info o.verdict r.now⟩ .go =
      some (r₃, ⟨m, stop, .publishing j info o.verdict⟩, []) := rfl
  have publish : step c r₃ ⟨m, stop, .publishing j info o.verdict⟩ .go =
      some (r₃, ⟨m, stop, .releasing j .ret⟩, o.verdict.report j info ++ [.published j o.verdict.status]) := by
    simp only [step, Pc.resume, Pc.afterReport, if_neg o.verdict_ne_cancelled]; rfl
  have release : step c r₃ ⟨m, stop, .releasing j .ret⟩ .go =
      some (r₃.releaseSlot m j, ⟨m, stop, .poll⟩, [.decremented m j]) := rfl
  refine ⟨r₃.releaseSlot m j, .decremented m j :: (o.verdict.report j info ++
    [.published j o.verdict.status, .forwarded m j (r.written j dispatched).value.payload,
      .metric (.queueWait info.model), .emitted .dispatched j, .claimed m j]), ?_, ?_, _, status, o.verdict.terminal⟩
  · simp only [run, claim, track, fetch, respond, mark, publish, release, Option.bind_some, Option.map_some,
      List.nil_append, List.append_nil, List.append_assoc, List.cons_append]
  · simp [o.verdict.count_report]

/-! ## Integer priorities -/

def Submission.integerPriority (sub : Submission) : Bool :=
  match sub.priority with
  | .null | .int _ => true
  | .bool _ | .float _ | .str _ | .arr _ | .obj _ => false

theorem PyNum.text_ne (n : PyNum) : n.text ≠ "" := (plain_text n).1

/-- The worker reads the priority back exactly when it is an integer. -/
theorem parse_number {sub : Submission} {c : AppConfig} {n : PyNum} (h : sub.number c = some n) (hs : n.Scored) :
    (parsePriority n.text).isSome = sub.integerPriority := by
  obtain ⟨mc, -, hn⟩ := Option.bind_eq_some_iff.mp h
  have short : ∀ z, n = .int z → z.natAbs < 10 ^ maxStrDigits := by
    rintro z rfl
    exact hs.short
  rw [parsePriority, if_neg n.text_ne, pyInt_text n short]
  unfold Submission.effectivePriority at hn
  unfold Submission.integerPriority
  cases hp : sub.priority <;> rw [hp] at hn <;> cases hn <;> rfl

/-- The job a worker is about to claim has a hash, and the priority in it parses if and only if it is an integer. -/
theorem priority_of_claims (h : (system d).Reach Machine.Any s) {sub : Submission} (hc : Created s.trace j sub)
    (hw : Claims s i j) : ∃ e, s.redis.job j = some e ∧
      (parsePriority (e.value.priority.getD "")).isSome = sub.integerPriority := by
  have hl := life h
  have hp := priorities h
  have early : (stage s.trace j).Early := by
    rcases hw.pc with ⟨pc, -⟩ | ⟨ts, pc⟩ <;> have := hl.worker i j (by rw [pc]; rfl) <;> rw [pc] at this <;>
      exact .inr (.inr ⟨_, this⟩)
  obtain ⟨e, he, -, hpr⟩ := hp.waiting j sub hc early
  obtain ⟨text, ht⟩ := Option.isSome_iff_exists.mp hpr
  obtain ⟨sub', n, hc', hn, scored, rfl⟩ := hp.stored j e text he ht
  cases hc.unique hl.legal hc'
  exact ⟨e, he, by rw [ht]; exact parse_number hn scored⟩

theorem handled_of_integer (h : (system d).Reach Machine.Any s) {sub : Submission} (hc : Created s.trace j sub)
    (hw : Claims s i j) (hi : sub.integerPriority = true) (o : Outcome) : Handled d s i j o := by
  obtain ⟨e, he, hp⟩ := priority_of_claims h hc hw
  rw [hi] at hp
  obtain ⟨n, hn⟩ := Option.isSome_iff_exists.mp hp
  rcases hw.pc with ⟨pc, stop⟩ | ⟨ts, pc⟩
  · have hs : s.workers i = ⟨(s.workers i).model, false, .waitSlot j⟩ := by rw [← pc, ← stop]
    have first : (s.workers i).step d.config s.redis .go =
        some (s.redis, ⟨(s.workers i).model, false, .claiming j s.redis.now⟩, []) := by rw [hs]; rfl
    obtain ⟨r', es, hrun, hcount, hst⟩ := Worker.run_handled hw.free he hn o
    exact handled_of_run (by simp) (Worker.run_cons first hrun) rfl (by simpa using hcount) hst
  · have hs : s.workers i = ⟨(s.workers i).model, (s.workers i).stop, .claiming j ts⟩ := by rw [← pc]
    obtain ⟨r', es, hrun, hcount, hst⟩ := Worker.run_handled hw.free he hn o
    rw [← hs] at hrun
    exact handled_of_run (by simp) hrun rfl hcount hst

/-- A worker whose job has a priority that does not parse never gets back to its loop. -/
structure Doomed (s : State ι) (i : ι) (j : String) : Prop where
  pc : (s.workers i).pc.unclaimed = some j ∨ (∃ t, (s.workers i).pc = .tracking j t) ∨
    (s.workers i).pc = .fetching j ∨ (s.workers i).pc = .exited ∨ (s.workers i).pc = .crashed
  hash : ∃ e, s.redis.job j = some e ∧ parsePriority (e.value.priority.getD "") = none

theorem doomed_step {a : Action ι} (hd : Doomed s i j) (ha : Alone i o s a) (h : step d s a = some t) :
    Doomed t i j := by
  obtain ⟨e, he, hn⟩ := hd.hash
  have none_of : ∀ m, e.value.info m = none := fun m => JobHash.info_eq_none.mpr hn
  rcases ha with rfl | rfl
  · simp only [step, Option.map_eq_some_iff, Worker.step] at h
    obtain ⟨-, ⟨⟨pc', es⟩, hr, rfl⟩, rfl⟩ := h
    rcases hd.pc with pc | ⟨ts, pc⟩ | pc | pc | pc
    · cases hp : (s.workers i).pc <;> rw [hp] at pc hr <;> cases pc <;> cases hr
      · cases (s.workers i).stop <;> exact ⟨by simp [Pc.unclaimed], e, he, hn⟩
      · cases hf : s.redis.slotFree (s.workers i).model with
        | false => exact ⟨by simp [Pc.unclaimed], e, by simpa [Pc.serve, hf] using he, hn⟩
        | true =>
          refine ⟨by simp, _, by simp only [Pc.serve, hf, if_true]; exact Redis.hset_job (s.redis.addInUse _ 1) j _, ?_⟩
          have : (s.redis.addInUse (s.workers i).model 1).hashOf j = e.value := Redis.hashOf_eq he
          simp only [Redis.written, this]; exact hn
    · rw [pc] at hr; cases hr
      exact ⟨by simp, e, by simpa [pc, Pc.serve, Redis.track] using he, hn⟩
    · simp only [pc, Pc.resume, he, none_of, Option.some.injEq, Prod.mk.injEq] at hr
      obtain ⟨rfl, rfl⟩ := hr
      exact ⟨by simp, e, by simpa [pc, Pc.serve] using he, hn⟩
    · rw [pc] at hr; cases hr
    · rw [pc] at hr; cases hr
  · simp only [step, Option.map_eq_some_iff, Worker.step] at h
    obtain ⟨x, hx, -⟩ := h
    rcases hd.pc with pc | ⟨ts, pc⟩ | pc | pc | pc
    · cases hp : (s.workers i).pc <;> rw [hp] at pc hx <;> cases pc <;> cases hx
    all_goals rw [pc] at hx; cases hx

theorem not_handled (h : (system d).Reach Machine.Any s) {sub : Submission} (hc : Created s.trace j sub)
    (hw : Claims s i j) (hi : sub.integerPriority = false) (o : Outcome) : ¬Handled d s i j o := by
  obtain ⟨e, he, hp⟩ := priority_of_claims h hc hw
  rw [hi, Option.isSome_eq_false_iff, Option.isNone_iff_eq_none] at hp
  rintro ⟨t, ht, hpoll, -⟩
  have start : Doomed s i j := ⟨by rcases hw.pc with ⟨pc, -⟩ | ⟨ts, pc⟩ <;> simp [pc, Pc.unclaimed], e, he, hp⟩
  have := ht.invariant start fun u a v _ hd ha hs => doomed_step hd ha hs
  rcases this.pc with h | ⟨ts, h⟩ | h | h | h <;> rw [hpoll] at h <;> cases h

/-- A worker that has its job and a free slot handles the job, whatever the forward comes to, exactly
when the priority of the request is an integer or absent. -/
theorem handled_iff (h : (system d).Reach Machine.Any s) {sub : Submission} (hc : Created s.trace j sub)
    (hw : Claims s i j) (o : Outcome) : Handled d s i j o ↔ sub.integerPriority = true := by
  constructor
  · intro hh
    by_contra hi
    exact not_handled h hc hw (by simpa using hi) o hh
  · exact fun hi => handled_of_integer h hc hw hi o

end

/-- A call admits the request, and a worker pops its job while a slot is free. -/
def admitAndPop (sub : Submission) : List (Action (Fin 2)) :=
  admitRun 0 sub "a" ++ List.replicate 2 (.worker 0 .go)

/-- The worker that claims a slot for a job with priority `true` dies of a `ValueError`. -/
theorem handled_fails : ¬∀ s, (system (twoWorkers 1 (Int.le_refl 1))).Reach Machine.Any s → ∀ i j sub,
    Created s.trace j sub → Claims s i j → ∀ o, Handled (twoWorkers 1 (Int.le_refl 1)) s i j o := by
  intro h
  obtain ⟨s, hr, hc, pc, stop, free⟩ := (system (twoWorkers 1 (Int.le_refl 1))).reach_of_exec Machine.Any
    (admitAndPop (chatWithPriority (.bool true)))
    (fun s => Created s.trace "a" (chatWithPriority (.bool true)) ∧ (s.workers 0).pc = .waitSlot "a" ∧
      (s.workers 0).stop = false ∧ s.redis.slotFree (s.workers 0).model = true) (by decide +kernel)
  have hw : Claims s 0 "a" := ⟨.inl ⟨pc, stop⟩, free⟩
  exact not_handled hr hc hw rfl (.timeout "") (h s hr 0 "a" _ hc hw _)

theorem handled_iff_run : ∃ s, (system (twoWorkers 1 (Int.le_refl 1))).Reach Machine.Any s ∧
    (Handled (twoWorkers 1 (Int.le_refl 1)) s 0 "a" (.ok (.obj [])) ↔ (chatWithPriority (.int 3)).integerPriority = true) := by
  obtain ⟨s, hr, hc, pc, stop, free⟩ := (system (twoWorkers 1 (Int.le_refl 1))).reach_of_exec Machine.Any
    (admitAndPop (chatWithPriority (.int 3)))
    (fun s => Created s.trace "a" (chatWithPriority (.int 3)) ∧ (s.workers 0).pc = .waitSlot "a" ∧
      (s.workers 0).stop = false ∧ s.redis.slotFree (s.workers 0).model = true) (by decide +kernel)
  exact ⟨s, hr, handled_iff hr hc ⟨.inl ⟨pc, stop⟩, free⟩ _⟩

end AdmissionScheduler
