import AdmissionScheduler.HashWrites

/-!
# What is forwarded for a job

The payload in a job's hash is always the one of the request that was admitted
as that job. A worker forwards it when it finds one, and `{}` when it does not:
the handler stores the payload only after the job is in the queue.
-/

namespace AdmissionScheduler

section
variable {ι : Type} [DecidableEq ι] {d : Deployment ι} {s s' : State ι}

/-- Only a worker that fetches forwards, and it forwards what it fetched. -/
theorem forwarded_of_step {a : Action ι} (h : step d s a = some s') {m j : String} {p : Json}
    (hf : .forwarded m j p ∈ s'.trace) : .forwarded m j p ∈ s.trace ∨
      ∃ i e, a = .worker i .go ∧ (s.workers i).pc = .fetching j ∧ m = (s.workers i).model ∧
        s.redis.job j = some e ∧ p = e.value.payload := by
  have old : ∀ {es : List Event}, es.filterMap Event.move = [] → .forwarded m j p ∈ es ++ s.trace →
      .forwarded m j p ∈ s.trace := by
    intro es hes hm
    rcases List.mem_append.mp hm with hm | hm
    · have := move_mem hm rfl; rw [hes] at this; cases this
    · exact hm
  cases a with
  | worker i b =>
    simp only [step, Option.map_eq_some_iff] at h
    obtain ⟨⟨r', w', es⟩, hw, rfl⟩ := h
    cases Worker.step_turn hw with
    | quiet moves => exact .inl (old moves hf)
    | pop first moves | claim act pc pc' moves =>
      rcases List.mem_append.mp hf with hm | hm
      · have := move_mem hm rfl; rw [moves] at this; simp at this
      · exact .inl hm
    | @forward j' info e act pc pc' moves redis hash payload =>
      rcases List.mem_append.mp hf with hm | hm
      · obtain ⟨rfl, rfl, rfl⟩ := payload m j p hm
        exact .inr ⟨i, e, by rw [act], pc, rfl, hash, rfl⟩
      · exact .inl hm
  | admission k b =>
    simp only [step, Option.ite_none_right_eq_some, Option.map_eq_some_iff] at h
    obtain ⟨-, ⟨r', p', es⟩, hp, rfl⟩ := h
    cases Admit.step_turn hp with
    | quiet moves => exact .inl (old moves hf)
    | file pc moves =>
      rcases List.mem_append.mp hf with hm | hm
      · have := move_mem hm rfl; rw [moves] at this; simp at this
      · exact .inl hm
  | cancel k b =>
    simp only [step, Option.map_eq_some_iff] at h
    obtain ⟨⟨r', p', es⟩, hp, rfl⟩ := h
    cases Cancel.step_turn hp with
    | quiet moves => exact .inl (old moves hf)
    | take pc mem moves =>
      rcases List.mem_append.mp hf with hm | hm
      · have := move_mem hm rfl; rw [moves] at this; simp at this
      · exact .inl hm
  | watch k b =>
    simp only [step, Option.map_eq_some_iff] at h
    obtain ⟨⟨r', p', es⟩, hp, rfl⟩ := h
    exact .inl (old (Watcher.step_moves hp) hf)
  | check k b =>
    simp only [step, Option.map_eq_some_iff] at h
    obtain ⟨⟨r', p', es⟩, hp, rfl⟩ := h
    exact .inl (old (Checker.step_moves hp) hf)
  | tick δ => cases h; exact .inl hf

/-! ## Payloads in hashes -/

/-- Every call past its enqueue has created its job, and a payload in a hash came from there. -/
structure Payloads (s : State ι) : Prop where
  admitted : ∀ k sub j, (s.admits k).admitted = some (sub, j) → Created s.trace j sub
  stored : ∀ j e p, s.redis.job j = some e → e.value.payloadJson = some p →
    ∃ sub, Created s.trace j sub ∧ p = sub.payload

theorem admitted_step {a : Action ι} (hp : Payloads s) (h : step d s a = some s') {k : Nat} {sub : Submission}
    {j : String} (hq : (s'.admits k).admitted = some (sub, j)) : Created s'.trace j sub := by
  rcases admit_of_step h k with hs | ⟨b, es, -, hs, ht⟩
  · rw [hs] at hq; exact (hp.admitted k sub j hq).step h
  cases Admit.step_turn hs with
  | quiet moves queue unborn admitted job => exact (hp.admitted k sub j (admitted _ hq)).step h
  | @file sub₀ j₀ text score ts pc moves queue unborn admitted job =>
    obtain ⟨he, hev⟩ := admitted _ hq
    cases he; exact ⟨_, score, by rw [ht]; exact List.mem_append_left _ hev⟩

theorem payloads_step {a : Action ι} (hl : Life s) (hp : Payloads s) (h : step d s a = some s') : Payloads s' where
  admitted k sub j hq := admitted_step hp h hq
  stored j e p he hpay := by
    have keep : ∀ {e₀}, s.redis.job j = some e₀ → e₀.value.payloadJson = some p →
        ∃ sub, Created s'.trace j sub ∧ p = sub.payload := by
      intro e₀ he₀ hp₀
      obtain ⟨sub, hc, rfl⟩ := hp.stored j e₀ p he₀ hp₀
      exact ⟨sub, hc.step h, rfl⟩
    have written : (s.redis.hashOf j).payloadJson = some p → ∃ sub, Created s'.trace j sub ∧ p = sub.payload := by
      intro hfp
      cases hj : s.redis.job j with
      | none => simp [Redis.hashOf, hj] at hfp
      | some e₀ => exact keep hj (by simpa [Redis.hashOf, hj] using hfp)
    have hw := hash_write (j := j) hl h
    rw [he] at hw
    generalize hx : some e = x at hw
    cases hw with
    | keep => exact keep hx.symm hpay
    | purge => cases hx
    | claim | clean | cancelled | cancelling | reclaim => cases hx; exact written hpay
    | @mark i b info v ts act takes pc => cases hx; exact written (by rw [← hpay]; cases v <;> rfl)
    | expire =>
      obtain ⟨e₀, he₀, rfl⟩ := Option.map_eq_some_iff.mp hx.symm
      exact keep he₀ hpay
    | @store k b sub pos act pc =>
      cases hx
      exact ⟨sub, (hp.admitted k sub j (by rw [pc]; rfl)).step h, (Option.some.inj hpay).symm⟩
    | enqueue act pc absent hash event =>
      cases hx
      rw [JobHash.putAll_payloadJson hash] at hpay
      cases hpay

omit [DecidableEq ι] in
theorem payloads_init : Payloads (initState d) where
  admitted k sub j h := by cases h
  stored j e p h := by cases h

theorem payloads {ok : State ι → Action ι → Prop} (h : (system d).Reach ok s) : Payloads s :=
  h.invariant payloads_init fun _ _ _ hr hp _ hs => payloads_step (life hr) hp hs

/-! ## The backend receives the caller's payload -/

/-- Each job was forwarded with the payload of the request that created it. -/
def CallersPayload (t : List Event) : Prop :=
  ∀ m j p, .forwarded m j p ∈ t → (∃ sub, Created t j sub) ∧ ∀ sub, Created t j sub → p = sub.payload

/-- A worker that finds the hash of its job finds the payload in it. -/
def payloadStored (s : State ι) : Action ι → Bool
  | .worker i .go =>
    match (s.workers i).pc with
    | .fetching j => (s.redis.job j).all fun e => e.value.payloadJson.isSome
    | _ => true
  | _ => true

/-- A payload that was stored in time is the one of a request that created the job. -/
theorem forwarded_created (h : (system d).Reach (fun s a => payloadStored s a = true) s) {m j : String} {p : Json}
    (hf : .forwarded m j p ∈ s.trace) : ∃ sub, Created s.trace j sub ∧ p = sub.payload := by
  refine Machine.Reach.invariant h (I := fun s => ∀ m j p, .forwarded m j p ∈ s.trace →
    ∃ sub, Created s.trace j sub ∧ p = sub.payload) ?_ ?_ m j p hf
  · intro m j p hf; cases hf
  · intro u a v hu ih hok hs m j p hf
    change step d u a = some v at hs
    rcases forwarded_of_step hs hf with hf | ⟨i, e, rfl, pc, -, he, rfl⟩
    · obtain ⟨sub, hc, hp⟩ := ih m j p hf
      exact ⟨sub, hc.step hs, hp⟩
    · simp only [payloadStored, pc, he, Option.all_some] at hok
      obtain ⟨p, hp⟩ := Option.isSome_iff_exists.mp hok
      obtain ⟨sub, hc, rfl⟩ := (payloads hu).stored j e p he hp
      exact ⟨sub, hc.step hs, by rw [JobHash.payload, hp]; rfl⟩

/-- While no worker fetches a hash whose payload is still to be stored, the backend receives the
caller's payload. -/
theorem callersPayload (h : (system d).Reach (fun s a => payloadStored s a = true) s) : CallersPayload s.trace := by
  intro m j p hf
  obtain ⟨sub, hc, rfl⟩ := forwarded_created h hf
  exact ⟨⟨sub, hc⟩, fun sub' hc' => by rw [hc.unique (life h).legal hc']⟩

end

def helloRequest : Submission := chatRequest (.obj [("messages", .arr [.str "hello"])]) .null none

/-- The job is forwarded before the handler has stored its payload: the backend receives `{}`. -/
theorem callersPayload_fails : ¬∀ s, (system (twoWorkers 1 (Int.le_refl 1))).Reach Machine.Any s → CallersPayload s.trace := by
  intro h
  obtain ⟨s, hr, hf, hc⟩ := (system (twoWorkers 1 (Int.le_refl 1))).reach_of_exec Machine.Any
    ([.admission 0 (.submit helloRequest), .admission 0 (.name "a")] ++ List.replicate 2 (.admission 0 .go) ++
      List.replicate 6 (.worker 0 .go))
    (fun s => .forwarded "chat" "a" (.obj []) ∈ s.trace ∧ Created s.trace "a" helloRequest) (by decide +kernel)
  have := (h s hr _ _ _ hf).2 helloRequest hc
  revert this; decide

/-- The handler stores the payload before a worker fetches it. -/
theorem callersPayload_run : ∃ s,
    (system (twoWorkers 1 (Int.le_refl 1))).Reach (fun s a => payloadStored s a = true) s ∧
      .forwarded "chat" "a" helloRequest.payload ∈ s.trace ∧ CallersPayload s.trace := by
  obtain ⟨s, hr, hf⟩ := (system (twoWorkers 1 (Int.le_refl 1))).reach_of_exec (fun s a => payloadStored s a = true)
    (admitRun 0 helloRequest "a" ++ List.replicate 6 (.worker 0 .go))
    (fun s => .forwarded "chat" "a" helloRequest.payload ∈ s.trace) (by decide +kernel)
  exact ⟨s, hr, hf, callersPayload hr⟩

end AdmissionScheduler
