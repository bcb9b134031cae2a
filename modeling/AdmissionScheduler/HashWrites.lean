import AdmissionScheduler.LifecycleSound

/-!
# Who writes a job's hash, and an idempotency record

`HashWrite` lists every way in which a step can change the hash of a job: the
writer, the point at which it is, and the fields it sets. What later modules say
about a field of the hash is a case analysis over it. `IdemWrite` does the same
for an idempotency record, which only the `SET NX` of an admission writes.
-/

namespace AdmissionScheduler

namespace Redis

def written (r : Redis) (j : String) (f : JobHash → JobHash) : Entry JobHash :=
  ⟨f (r.hashOf j), (r.job j).bind Entry.expireAt⟩

def finished (r : Redis) (j : String) (f : JobHash → JobHash) : Entry JobHash :=
  ⟨f (r.hashOf j), some (r.now + jobTerminalTtl)⟩

theorem hset_job (r : Redis) (j : String) (f : JobHash → JobHash) : (r.hset j f).job j = some (r.written j f) := by
  simp [hset, written]

theorem finish_job (r : Redis) (j : String) (f : JobHash → JobHash) :
    (r.finish j f).job j = some (r.finished j f) := by
  simp [finish, expire, hset, finished]

end Redis

inductive HashWrite {ι : Type} (c : AppConfig) (s : State ι) (a : Action ι) (s' : State ι) (j : String) :
    Option (Entry JobHash) → Prop
  | keep : HashWrite c s a s' j (s.redis.job j)
  | purge {δ e t} (act : a = .tick δ) (old : s.redis.job j = some e) (ttl : e.expireAt = some t) :
    HashWrite c s a s' j none
  | claim {i b ts} (act : a = .worker i b) (takes : b.takes = true) (pc : (s.workers i).pc = .claiming j ts) :
    HashWrite c s a s' j
      (some (s.redis.written j fun h => { h with status := some .dispatched, dispatchTs := some ts }))
  | mark {i b info v ts} (act : a = .worker i b) (takes : b.takes = true) (pc : (s.workers i).pc = .marking j info v ts) :
    HashWrite c s a s' j (some (s.redis.finished j (v.write ts)))
  | clean {i b ts} (act : a = .worker i b) (takes : b.takes = true) (pc : (s.workers i).pc = .cleaning j ts) :
    HashWrite c s a s' j (some (s.redis.written j fun h =>
      { h with status := some .failed, errorClass := some .workerCrash, completeTs := some ts }))
  | cancelled {k b m ts} (act : a = .cancel k b) (pc : s.cancels k = .script j m ts) (mem : j ∈ s.redis.queue m)
      (event : .cancelledQueued m j ∈ s'.trace) :
    HashWrite c s a s' j
      (some (s.redis.written j fun h => { h with status := some .cancelled, completeTs := some ts }))
  | expire {k b m} (act : a = .cancel k b) (pc : s.cancels k = .expiring j m) :
    HashWrite c s a s' j ((s.redis.job j).map fun e => ⟨e.value, some (s.redis.now + jobTerminalTtl)⟩)
  | cancelling {k b} (act : a = .cancel k b) (takes : b.takes = true) (pc : s.cancels k = .marking j) :
    HashWrite c s a s' j (some (s.redis.written j fun h => { h with status := some .cancelling }))
  | reclaim {k b m rest ts} (act : a = .watch k b) (takes : b.takes = true) (pc : s.watchers k = .reclaiming m j rest ts) :
    HashWrite c s a s' j (some (s.redis.finished j fun h =>
      { h with status := some .failed, errorClass := some .workerCrash, completeTs := some ts }))
  | store {k b sub pos} (act : a = .admission k b) (pc : s.admits k = .storing sub j pos) :
    HashWrite c s a s' j (some (s.redis.written j fun h => { h with payloadJson := some sub.payload }))
  | enqueue {k b sub text score ts h} (act : a = .admission k b)
      (pc : s.admits k = .enqueueing sub j text score ts) (absent : s.redis.job j = none)
      (hash : enqueuedHash (fieldValues sub.model text ts sub.caller sub.requestId) {} = some h)
      (event : .enqueued sub.model j score sub ∈ s'.trace) : HashWrite c s a s' j (some ⟨h, none⟩)

section
variable {ι : Type} [DecidableEq ι] {d : Deployment ι} {s s' : State ι} {j : String}

theorem hash_worker {i : ι} {b : WorkerAct} (h : step d s (.worker i b) = some s') :
    HashWrite d.config s (.worker i b) s' j (s'.redis.job j) := by
  simp only [step, Option.map_eq_some_iff] at h
  obtain ⟨⟨r', w', es⟩, hw, rfl⟩ := h
  rcases Worker.step_redis hw with rfl | ⟨takes, rfl⟩
  · exact .keep
  by_cases hj : (s.workers i).pc.job = some j
  · simp only
    cases hp : (s.workers i).pc with
    | claiming k ts =>
      rw [hp] at hj; cases hj
      simp only [Pc.serve]
      split
      · rw [Redis.claimSlot, Redis.hset_job]; exact .claim rfl takes hp
      · exact .keep
    | marking k info v ts =>
      rw [hp] at hj; cases hj
      simp only [Pc.serve]; rw [Redis.finish_job]; exact .mark rfl takes hp
    | cleaning k ts =>
      rw [hp] at hj; cases hj
      simp only [Pc.serve]; rw [Redis.hset_job]; exact .clean rfl takes hp
    | _ => exact .keep
  · simp only [Pc.serve_job hj]; exact .keep

theorem hash_cancel {k : Nat} {b : CancelAct} (h : step d s (.cancel k b) = some s') :
    HashWrite d.config s (.cancel k b) s' j (s'.redis.job j) := by
  simp only [step, Option.map_eq_some_iff] at h
  obtain ⟨⟨r', p', es⟩, hp, rfl⟩ := h
  rcases Cancel.step_effect hp with rfl | ⟨takes, rfl, hes⟩
  · exact .keep
  by_cases hj : (s.cancels k).job = some j
  · simp only
    cases hc : s.cancels k with
    | script j' m ts =>
      rw [hc] at hj; cases hj
      simp only [Cancel.serve]
      split
      · rename_i hm
        have event : .cancelledQueued m j ∈ es := hes _ (by simp [hc, Cancel.served, hm])
        rw [Redis.cancelQueued, Redis.hset_job]; exact .cancelled rfl hc hm (List.mem_append_left _ event)
      · exact .keep
    | expiring j' m =>
      rw [hc] at hj; cases hj
      simp only [Cancel.serve, Redis.expire, Function.update_self]; exact .expire rfl hc
    | marking j' =>
      rw [hc] at hj; cases hj
      simp only [Cancel.serve]; rw [Redis.hset_job]; exact .cancelling rfl takes hc
    | _ => exact .keep
  · simp only [Cancel.serve_job hj]; exact .keep

theorem hash_watch {k : Nat} {b : WatchAct} (h : step d s (.watch k b) = some s') :
    HashWrite d.config s (.watch k b) s' j (s'.redis.job j) := by
  simp only [step, Option.map_eq_some_iff] at h
  obtain ⟨⟨r', p', es⟩, hp, rfl⟩ := h
  rcases Watcher.step_redis hp with rfl | ⟨takes, rfl⟩
  · exact .keep
  · simp only
    cases hw : s.watchers k with
    | reclaiming m j' rest ts =>
      by_cases hj : j = j'
      · subst hj
        simp only [Watcher.serve]
        have : (s.redis.reclaim m j ts).job j = some (s.redis.finished j fun h =>
            { h with status := some .failed, errorClass := some .workerCrash, completeTs := some ts }) :=
          Redis.finish_job _ _ _
        rw [this]; exact .reclaim rfl takes hw
      · simp only [Watcher.serve, Redis.reclaim_job_ne hj]; exact .keep
    | _ => exact .keep

omit [DecidableEq ι] in
/-- When the enqueue script succeeds there was no hash, and the new one is what it wrote. -/
theorem enqueue_done {k : Nat} {sub : Submission} {text : String} {score : Double} {ts : Nat} {h : JobHash}
    (hl : Life s) (pc : s.admits k = .enqueueing sub j text score ts)
    (ho : Admit.enqueueOutcome d.config s.redis sub j text score ts = .done h) :
    s.redis.job j = none ∧ enqueuedHash (fieldValues sub.model text ts sub.caller sub.requestId) {} = some h ∧
      ((s.admits k).serve d.config s.redis).job j = some ⟨h, none⟩ := by
  have absent : s.redis.job j = none := hl.absent j (hl.unborn k j (by rw [pc]; rfl)).2
  refine ⟨absent, ?_, ?_⟩
  · simp only [Admit.enqueueOutcome, Redis.enqueueOutcome, Redis.hashOf, absent, Option.map_none,
      Option.getD_none] at ho
    split at ho
    · cases ho
    · split at ho
      · cases ho
      · split at ho <;> cases ho; assumption
  · simp [pc, Admit.serve, ho, Redis.enqueueJob, Redis.hset, Redis.addQueued, absent]

theorem hash_admit {k : Nat} {b : AdmitAct} (hl : Life s) (h : step d s (.admission k b) = some s') :
    HashWrite d.config s (.admission k b) s' j (s'.redis.job j) := by
  simp only [step, Option.ite_none_right_eq_some, Option.map_eq_some_iff] at h
  obtain ⟨-, ⟨r', p', es⟩, hp, rfl⟩ := h
  rcases Admit.step_effect hp with rfl | ⟨rfl, hes⟩
  · exact .keep
  simp only
  cases ha : s.admits k with
  | enqueueing sub j' text score ts =>
    rw [ha] at hes
    cases ho : Admit.enqueueOutcome d.config s.redis sub j' text score ts with
    | full | refused | misfiled => simp only [Admit.serve, ho]; exact .keep
    | done h =>
      by_cases hj : j = j'
      · subst hj
        obtain ⟨absent, hash, new⟩ := enqueue_done hl ha ho
        rw [ha] at new
        rw [new]
        have event : .enqueued sub.model j score sub ∈ es := hes _ (by simp [Admit.served, ho])
        exact .enqueue rfl ha absent hash (List.mem_append_left _ event)
      · simp only [Admit.serve, Redis.enqueueJob_job_ne hj]; exact .keep
  | storing sub j' pos =>
    by_cases hj : j = j'
    · subst hj; simp only [Admit.serve]; rw [Redis.hset_job]; exact .store rfl ha
    · simp only [Admit.serve, Redis.hset_job_ne hj]; exact .keep
  | _ => exact .keep

theorem hash_write {a : Action ι} (hl : Life s) (h : step d s a = some s') :
    HashWrite d.config s a s' j (s'.redis.job j) := by
  cases a with
  | worker i b => exact hash_worker h
  | admission k b => exact hash_admit hl h
  | cancel k b => exact hash_cancel h
  | watch k b => exact hash_watch h
  | check k b =>
    simp only [step, Option.map_eq_some_iff] at h
    obtain ⟨⟨r', p', es⟩, hp, rfl⟩ := h
    rcases Checker.step_redis hp with rfl | ⟨-, rfl⟩
    · exact .keep
    · simp only [(Checker.serve_frame (s.checkers k) s.redis).2.2.1]; exact .keep
  | tick δ =>
    cases h
    simp only [Redis.tick]
    cases hj : s.redis.job j with
    | none => simp only [Option.filter_none]; rw [← hj]; exact .keep
    | some e =>
      cases ht : e.expireAt with
      | none =>
        simp only [Option.filter_some, Entry.alive, ht, if_true]; rw [← hj]; exact .keep
      | some t =>
        simp only [Option.filter_some, Entry.alive, ht]
        split
        · rw [← hj]; exact .keep
        · exact .purge rfl hj ht

/-! ## Idempotency records -/

omit [DecidableEq ι] in
inductive IdemWrite (s : State ι) (a : Action ι) (h : String) : Option (Entry String) → Prop
  | keep : IdemWrite s a h (s.redis.idem h)
  | purge {δ e t} (act : a = .tick δ) (old : s.redis.idem h = some e) (ttl : e.expireAt = some t)
      (due : t ≤ s.redis.now + δ) : IdemWrite s a h none
  | record {k b sub j} (act : a = .admission k b) (pc : s.admits k = .recording sub j h) (absent : s.redis.idem h = none) :
    IdemWrite s a h (some ⟨j, some (s.redis.now + idemTtl)⟩)

theorem idem_write {a : Action ι} {h : String} (hs : step d s a = some s') : IdemWrite s a h (s'.redis.idem h) := by
  cases a with
  | worker i b =>
    simp only [step, Option.map_eq_some_iff] at hs
    obtain ⟨⟨r', w', es⟩, hw, rfl⟩ := hs
    rcases Worker.step_redis hw with rfl | ⟨-, rfl⟩
    · exact .keep
    · simp only [Pc.serve_idem]; exact .keep
  | admission k b =>
    simp only [step, Option.ite_none_right_eq_some, Option.map_eq_some_iff] at hs
    obtain ⟨-, ⟨r', p', es⟩, hp, rfl⟩ := hs
    rcases Admit.step_effect hp with rfl | ⟨rfl, -⟩
    · exact .keep
    simp only
    cases ha : s.admits k with
    | recording sub j h' =>
      simp only [Admit.serve, Redis.setIdem, Function.update_apply]
      split
      · rename_i hh
        subst hh
        cases hi : s.redis.idem h with
        | none => exact .record rfl ha hi
        | some e => rw [Option.getD_some, ← hi]; exact .keep
      · exact .keep
    | enqueueing sub j text score ts =>
      simp only [Admit.serve]
      cases Admit.enqueueOutcome d.config s.redis sub j text score ts <;> exact .keep
    | _ => exact .keep
  | cancel k b =>
    simp only [step, Option.map_eq_some_iff] at hs
    obtain ⟨⟨r', p', es⟩, hp, rfl⟩ := hs
    rcases Cancel.step_effect hp with rfl | ⟨-, rfl, -⟩
    · exact .keep
    · simp only [Cancel.serve_idem]; exact .keep
  | watch k b =>
    simp only [step, Option.map_eq_some_iff] at hs
    obtain ⟨⟨r', p', es⟩, hp, rfl⟩ := hs
    rcases Watcher.step_redis hp with rfl | ⟨-, rfl⟩
    · exact .keep
    · simp only [Watcher.serve_idem]; exact .keep
  | check k b =>
    simp only [step, Option.map_eq_some_iff] at hs
    obtain ⟨⟨r', p', es⟩, hp, rfl⟩ := hs
    rcases Checker.step_redis hp with rfl | ⟨-, rfl⟩
    · exact .keep
    · simp only [(Checker.serve_frame (s.checkers k) s.redis).2.2.2.1]; exact .keep
  | tick δ =>
    cases hs
    simp only [Redis.tick]
    cases hi : s.redis.idem h with
    | none => simp only [Option.filter_none]; rw [← hi]; exact .keep
    | some e =>
      cases ht : e.expireAt with
      | none => simp only [Option.filter_some, Entry.alive, ht, if_true]; rw [← hi]; exact .keep
      | some t =>
        simp only [Option.filter_some, Entry.alive, ht, decide_eq_true_eq]
        split
        · rw [← hi]; exact .keep
        · rename_i hlt; exact .purge rfl hi ht (Nat.le_of_not_lt hlt)

/-- An idempotency record was there before the step, or the step is the `SET NX` of an admission. -/
theorem idem_of_step {a : Action ι} {h : String} {e : Entry String} (hs : step d s a = some s')
    (he : s'.redis.idem h = some e) : s.redis.idem h = some e ∨ ∃ k b sub j, a = .admission k b ∧
      s.admits k = .recording sub j h ∧ s.redis.idem h = none ∧ e = ⟨j, some (s.redis.now + idemTtl)⟩ := by
  have hw := idem_write (h := h) hs
  generalize hx : s'.redis.idem h = x at hw
  rw [he] at hx
  cases hw with
  | keep => exact .inl hx.symm
  | purge => cases hx
  | @record k b sub j act pc absent => cases hx; exact .inr ⟨k, b, sub, j, act, pc, absent, rfl⟩

/-! ## The hash of a job that was just created -/

theorem move_mem {es : List Event} {e : Event} {m : String × Stage × Stage} (h : e ∈ es) (hm : e.move = some m) :
    m ∈ es.filterMap Event.move := List.mem_filterMap.mpr ⟨e, h, hm⟩

/-- Only the enqueue script moves a job; what an admission logs and counts moves none. -/
theorem Admit.resume_moves {c : AppConfig} {sha256 : String → String} {r : Redis} {p p' : Admit} {es : List Event}
    (h : p.resume c sha256 r = some (p', es)) : es.filterMap Event.move = [] := by
  cases p with
  | lookup | sequencing | enqueueing =>
    simp only [resume] at h
    (repeat' split at h) <;> cases h <;> rfl
  | refusing | recording | ranking | sizing | storing => cases h; rfl
  | idle | naming | done | raised => cases h

theorem Admit.onError_moves {p p' : Admit} {es : List Event} (h : p.onError = some (p', es)) :
    es.filterMap Event.move = [] := by
  cases p <;> cases h <;> rfl

theorem Admit.step_enqueued {c : AppConfig} {sha256 : String → String} {r r' : Redis} {p p' : Admit} {a : AdmitAct}
    {es : List Event} (h : p.step c sha256 r a = some (r', p', es)) {m j : String} {x : Double} {sub : Submission}
    (he : .enqueued m j x sub ∈ es) : ∃ text ts h, p = .enqueueing sub j text x ts ∧
      enqueueOutcome c r sub j text x ts = .done h ∧ r' = p.serve c r := by
  have served : .enqueued m j x sub ∈ p.served c r → ∃ text ts h, p = .enqueueing sub j text x ts ∧
      enqueueOutcome c r sub j text x ts = .done h := by
    intro hs
    cases p <;> simp only [Admit.served, List.mem_singleton, List.not_mem_nil, reduceCtorEq] at hs
    split at hs <;> simp only [List.mem_singleton, List.not_mem_nil, reduceCtorEq, Event.enqueued.injEq] at hs
    obtain ⟨rfl, rfl, rfl, rfl⟩ := hs
    exact ⟨_, _, _, rfl, by assumption⟩
  have other : ∀ {es' : List Event}, es'.filterMap Event.move = [] → .enqueued m j x sub ∉ es' := by
    intro es' hes hm
    have := move_mem hm rfl
    rw [hes] at this; cases this
  cases a with
  | submit sub =>
    simp only [step] at h
    split at h
    · split at h <;> cases h <;> cases he
    · cases h
  | name j => simp only [step] at h; split at h <;> cases h; cases he
  | go =>
    simp only [step, Option.map_eq_some_iff, Prod.mk.injEq] at h
    obtain ⟨⟨p₁, es₁⟩, hr, rfl, rfl, rfl⟩ := h
    rcases List.mem_append.mp he with he | he
    · exact absurd he (other (resume_moves hr))
    · obtain ⟨text, ts, h, hp, ho⟩ := served he
      exact ⟨text, ts, h, hp, ho, rfl⟩
  | fail took =>
    simp only [step, Option.map_eq_some_iff, Prod.mk.injEq] at h
    obtain ⟨⟨p₁, es₁⟩, hr, rfl, rfl, rfl⟩ := h
    rcases List.mem_append.mp he with he | he
    · exact absurd he (other (onError_moves hr))
    · cases took with
      | false => cases he
      | true =>
        obtain ⟨text, ts, h, hp, ho⟩ := served he
        exact ⟨text, ts, h, hp, ho, rfl⟩

theorem created_of_step {a : Action ι} (hl : Life s) (h : step d s a = some s') {sub : Submission}
    (hc : Created s'.trace j sub) : Created s.trace j sub ∨ ∃ k b text x ts h,
      a = .admission k b ∧ s.admits k = .enqueueing sub j text x ts ∧
      Admit.enqueueOutcome d.config s.redis sub j text x ts = .done h ∧
      enqueuedHash (fieldValues sub.model text ts sub.caller sub.requestId) {} = some h ∧
      s'.redis.job j = some ⟨h, none⟩ := by
  obtain ⟨m, x, hx⟩ := hc
  have old : ∀ {es : List Event}, s'.trace = es ++ s.trace → (∀ z, (j, .unborn, z) ∉ es.filterMap Event.move) →
      Created s.trace j sub := by
    intro es ht hes
    rw [ht] at hx
    rcases List.mem_append.mp hx with hx | hx
    · exact absurd (move_mem hx rfl) (hes _)
    · exact ⟨m, x, hx⟩
  cases a with
  | worker i b =>
    simp only [step, Option.map_eq_some_iff] at h
    obtain ⟨⟨r', w', es⟩, hw, rfl⟩ := h
    refine .inl (old rfl fun z hz => ?_)
    cases Worker.step_turn hw with
    | quiet moves | pop first moves | claim act pc pc' moves | forward act pc pc' moves =>
      rw [moves] at hz; simp at hz
  | cancel k b =>
    simp only [step, Option.map_eq_some_iff] at h
    obtain ⟨⟨r', p', es⟩, hp, rfl⟩ := h
    refine .inl (old rfl fun z hz => ?_)
    cases Cancel.step_turn hp with
    | quiet moves | take pc mem moves => rw [moves] at hz; simp at hz
  | watch k b =>
    simp only [step, Option.map_eq_some_iff] at h
    obtain ⟨⟨r', p', es⟩, hp, rfl⟩ := h
    exact .inl (old rfl fun z => by rw [Watcher.step_moves hp]; exact List.not_mem_nil)
  | check k b =>
    simp only [step, Option.map_eq_some_iff] at h
    obtain ⟨⟨r', p', es⟩, hp, rfl⟩ := h
    exact .inl (old rfl fun z => by rw [Checker.step_moves hp]; exact List.not_mem_nil)
  | tick δ => cases h; exact .inl ⟨m, x, hx⟩
  | admission k b =>
    simp only [step, Option.ite_none_right_eq_some, Option.map_eq_some_iff] at h
    obtain ⟨-, ⟨r', p', es⟩, hp, rfl⟩ := h
    rcases List.mem_append.mp hx with hx | hx
    · obtain ⟨text, ts, h, pc, ho, rfl⟩ := Admit.step_enqueued hp hx
      obtain ⟨-, hash, new⟩ := enqueue_done hl pc ho
      exact .inr ⟨k, b, text, x, ts, h, rfl, pc, ho, hash, new⟩
    · exact .inl ⟨m, x, hx⟩

end

end AdmissionScheduler
