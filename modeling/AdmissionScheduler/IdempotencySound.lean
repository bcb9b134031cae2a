import AdmissionScheduler.StatusSound
import AdmissionScheduler.QueueSound

/-!
# Idempotency records

A call looks its key up, enqueues its job and records the job under the key, in
three commands. What a later call finds is a job of the same key; that there is
only one depends on no other call being on its way between its lookup and its
record. The status that a hit reports is a constant: the stored one says the
same as long as nobody has claimed or cancelled the job.
-/

namespace AdmissionScheduler

def AdmissionOutcome.status : AdmissionOutcome → JobStatus
  | .queued .. | .idempotentHit _ => .queued
  | .rejected .. => .rejected

section
variable {c : AppConfig} {sha256 : String → String} {r r' : Redis} {p p' : Admit} {a : AdmitAct} {es : List Event}

namespace Admit

def key : Admit → Option String
  | lookup _ h | recording _ _ h => some h
  | _ => none

theorem step_key (h : p.step c sha256 r a = some (r', p', es)) (hp : ∀ h, p.key = some h → ∃ sub, p.sub = some sub ∧
    sub.keyHash sha256 = some h) {h' : String} (hk : p'.key = some h') :
    ∃ sub, p'.sub = some sub ∧ sub.keyHash sha256 = some h' := by
  cases a with
  | submit sub =>
    simp only [step] at h
    split at h
    · split at h <;> cases h <;> cases hk
      exact ⟨sub, rfl, ‹_›⟩
    · cases h
  | name j => simp only [step] at h; split at h <;> cases h; cases hk
  | go =>
    simp only [step, Option.map_eq_some_iff, Prod.mk.injEq] at h
    obtain ⟨⟨p₁, es₁⟩, hr, -, rfl, -⟩ := h
    cases p with
    | enqueueing sub j text x ts =>
      simp only [resume] at hr
      split at hr
      · cases hr; cases hk
      · cases hr; cases hk
      · cases hr; cases hk
      · split at hr <;> cases hr <;> cases hk
        exact ⟨sub, rfl, ‹_›⟩
    | lookup | sequencing => simp only [resume] at hr; (repeat' split at hr) <;> cases hr <;> cases hk
    | refusing | recording | ranking | sizing | storing => cases hr; cases hk
    | idle | naming | done | raised => cases hr
  | fail took =>
    simp only [step, Option.map_eq_some_iff, Prod.mk.injEq] at h
    obtain ⟨⟨p₁, es₁⟩, hr, -, rfl, -⟩ := h
    cases p <;> cases hr <;> cases hk

end Admit

end

section
variable {ι : Type} [DecidableEq ι] {d : Deployment ι} {s s' t : State ι} {a : Action ι} {j h : String}

def CreatedFor (d : Deployment ι) (s : State ι) (h j : String) : Prop :=
  ∃ sub, Created s.trace j sub ∧ sub.keyHash d.sha256 = some h

theorem CreatedFor.step (hc : CreatedFor d s h j) (hs : step d s a = some s') : CreatedFor d s' h j := by
  obtain ⟨sub, hc, hk⟩ := hc
  exact ⟨sub, hc.step hs, hk⟩

/-- A call works with the hash of its own key, and a record holds a job of that key. -/
structure Keyed (d : Deployment ι) (s : State ι) : Prop where
  call : ∀ k h, (s.admits k).key = some h → ∃ sub, (s.admits k).sub = some sub ∧ sub.keyHash d.sha256 = some h
  record : ∀ h e, s.redis.idem h = some e → CreatedFor d s h e.value
  hit : ∀ k sub j, s.admits k = .done sub (.idempotentHit j) → ∃ h, sub.keyHash d.sha256 = some h ∧ CreatedFor d s h j

theorem keyed {ok : State ι → Action ι → Prop} (hr : (system d).Reach ok s) : Keyed d s :=
  hr.invariant ⟨fun _ _ h => by (cases h), fun _ _ h => by (cases h), fun _ _ _ h => by (cases h)⟩
    fun u a v hr hx _ hs => {
    call := fun k h hk => by
      rcases admit_of_step hs k with hk' | ⟨b, es, -, hk', -⟩
      · rw [hk'] at hk ⊢; exact hx.call k h hk
      · exact Admit.step_key hk' (hx.call k) hk
    record := fun h e he => by
      rcases idem_of_step hs he with he | ⟨k, b, sub, j, -, pc, -, rfl⟩
      · exact (hx.record h e he).step hs
      · obtain ⟨sub', hsub, hk⟩ := hx.call k h (by rw [pc]; rfl)
        rw [pc] at hsub; cases hsub
        exact CreatedFor.step ⟨sub, (payloads hr).admitted k sub j (by rw [pc]; rfl), hk⟩ hs
    hit := fun k sub j hj => by
      rcases admit_of_step hs k with hk | ⟨b, es, rfl, hk, -⟩
      · obtain ⟨h, hh, hc⟩ := hx.hit k sub j (hk ▸ hj)
        exact ⟨h, hh, hc.step hs⟩
      · obtain ⟨h, e, pc, he, rfl⟩ := Admit.step_hit hk hj
        obtain ⟨sub', hsub, hh⟩ := hx.call k h (by rw [pc]; rfl)
        rw [pc] at hsub; cases hsub
        change step d u (.admission k b) = some v at hs
        exact ⟨h, hh, (hx.record h e he).step hs⟩ }

/-! ## One job for a key -/

namespace Admit

/-- The call has missed the record of `h` and has still to write it. -/
def unrecorded (sha256 : String → String) (h : String) : Admit → Bool
  | naming sub | sequencing sub _ | enqueueing sub .. => sub.keyHash sha256 = some h
  | recording _ _ h' => h' = h
  | _ => false

variable {c : AppConfig} {sha256 : String → String} {r r' : Redis} {p p' : Admit} {b : AdmitAct} {es : List Event}

theorem step_unrecorded (hs : p.step c sha256 r b = some (r', p', es)) (hp : ∀ h, p.key = some h → ∃ sub,
    p.sub = some sub ∧ sub.keyHash sha256 = some h) (hu : p'.unrecorded sha256 h = true) :
    p.unrecorded sha256 h = true ∨ b = .go ∧ (∃ sub, p = lookup sub h) ∧ r.idem h = none := by
  cases b with
  | submit sub =>
    simp only [step] at hs
    split at hs
    · split at hs <;> cases hs <;> simp only [unrecorded, decide_eq_true_eq, Bool.false_eq_true] at hu
      rename_i hk; rw [hk] at hu; cases hu
    · cases hs
  | name j => simp only [step] at hs; split at hs <;> cases hs; exact .inl hu
  | go =>
    simp only [step, Option.map_eq_some_iff, Prod.mk.injEq] at hs
    obtain ⟨⟨p₁, es₁⟩, hr, -, rfl, -⟩ := hs
    cases p with
    | lookup sub h' =>
      obtain ⟨sub', hsub, hk⟩ := hp h' rfl
      cases hsub
      simp only [resume] at hr
      split at hr <;> cases hr
      · cases hu
      · rename_i absent
        simp only [unrecorded, hk, Option.some.injEq, decide_eq_true_eq] at hu
        subst hu; exact .inr ⟨rfl, ⟨sub, rfl⟩, absent⟩
    | enqueueing sub j text x ts =>
      simp only [resume] at hr
      split at hr
      · cases hr; cases hu
      · cases hr; cases hu
      · cases hr; cases hu
      · split at hr <;> cases hr
        · rename_i hk
          simp only [unrecorded, decide_eq_true_eq] at hu
          subst hu; exact .inl (by simp [unrecorded, hk])
        · cases hu
    | sequencing sub j =>
      simp only [resume] at hr
      split at hr
      · cases hr; cases hu
      · split at hr <;> cases hr
        · cases hu
        · exact .inl hu
    | refusing | recording | ranking | sizing | storing => cases hr; cases hu
    | idle | naming | done | raised => cases hr
  | fail took =>
    simp only [step, Option.map_eq_some_iff, Prod.mk.injEq] at hs
    obtain ⟨⟨p₁, es₁⟩, hr, -, rfl, -⟩ := hs
    cases p <;> cases hr <;> cases hu

/-- The `SET NX` leaves a record, whoever wrote it, unless it fails without effect. -/
theorem step_recording {sub : Submission} (hs : (recording sub j h).step c sha256 r b = some (r', p', es)) :
    p'.unrecorded sha256 h = false ∧ (b = .fail false ∨ (r'.idem h).isSome) := by
  have written : (((recording sub j h).serve c r).idem h).isSome := by simp [serve, Redis.setIdem]
  cases b with
  | submit | name => cases hs
  | go => cases hs; exact ⟨rfl, .inr written⟩
  | fail took =>
    cases hs
    cases took
    · exact ⟨rfl, .inl rfl⟩
    · exact ⟨rfl, .inr written⟩

end Admit

omit [DecidableEq ι] in
def misses (h : String) (s : State ι) : Action ι → Bool
  | .admission k .go =>
    match s.admits k with
    | .lookup _ h' => h' = h && (s.redis.idem h).isNone
    | _ => false
  | _ => false

/-- No call raises between the enqueue of its job and its record, and the record does not expire. -/
def keepsRecord (d : Deployment ι) (h : String) (s : State ι) : Action ι → Bool
  | .admission k b =>
    match s.admits k with
    | .enqueueing sub j text x ts =>
      sub.keyHash d.sha256 ≠ some h ||
        match b, Admit.enqueueOutcome d.config s.redis sub j text x ts with
        | .go, .misfiled | .fail true, .misfiled | .fail true, .done _ => false
        | _, _ => true
    | .recording _ _ h' => h' ≠ h || b ≠ .fail false
    | _ => true
  | .tick δ => (s.redis.idem h).all fun e => e.alive (s.redis.now + δ)
  | _ => true

/-- No call misses the record of `h` while another one has still to write it. -/
def keyAlone (d : Deployment ι) (h : String) (s : State ι) (a : Action ι) : Prop :=
  (misses h s a = true → ∀ l, (s.admits l).unrecorded d.sha256 h = false) ∧ keepsRecord d h s a = true

structure OneJob (d : Deployment ι) (h : String) (s : State ι) : Prop where
  window : ∀ k l, (s.admits k).unrecorded d.sha256 h = true → (s.admits l).unrecorded d.sha256 h = true → k = l
  recorded : ∀ e, s.redis.idem h = some e →
    (∀ k, (s.admits k).unrecorded d.sha256 h = false) ∧ ∀ j, CreatedFor d s h j → j = e.value
  pending : s.redis.idem h = none → ∀ j, CreatedFor d s h j → ∃ k sub, s.admits k = .recording sub j h

theorem unrecorded_of_step (hk : Keyed d s) (hs : step d s a = some s') {k : Nat}
    (hu : (s'.admits k).unrecorded d.sha256 h = true) : (s.admits k).unrecorded d.sha256 h = true ∨
      a = .admission k .go ∧ (∃ sub, s.admits k = .lookup sub h) ∧ s.redis.idem h = none := by
  rcases admit_of_step hs k with hk' | ⟨b, es, rfl, hk', -⟩
  · exact .inl (hk' ▸ hu)
  · rcases Admit.step_unrecorded hk' (hk.call k) hu with h' | ⟨rfl, h'⟩
    · exact .inl h'
    · exact .inr ⟨rfl, h'⟩

theorem createdFor_of_step (hl : Life s) (hs : step d s a = some s') (hc : CreatedFor d s' h j) :
    CreatedFor d s h j ∨ ∃ k b sub text x ts h₀, a = .admission k b ∧ s.admits k = .enqueueing sub j text x ts ∧
      sub.keyHash d.sha256 = some h ∧ Admit.enqueueOutcome d.config s.redis sub j text x ts = .done h₀ := by
  obtain ⟨sub, hc, hk⟩ := hc
  rcases created_of_step hl hs hc with hc | ⟨k, b, text, x, ts, h₀, act, pc, ho, -⟩
  · exact .inl ⟨sub, hc, hk⟩
  · exact .inr ⟨k, b, sub, text, x, ts, h₀, act, pc, hk, ho⟩

theorem oneJob_step (hl : Life s) (hk : Keyed d s) (ho : OneJob d h s) (ha : keyAlone d h s a)
    (hs : step d s a = some s') : OneJob d h s' where
  window k l hu hu' := by
    have alone : ∀ {k l}, a = .admission k .go → (∃ sub, s.admits k = .lookup sub h) → s.redis.idem h = none →
        (s.admits l).unrecorded d.sha256 h = false := by
      rintro k l rfl ⟨sub, pc⟩ absent
      exact ha.1 (by simp [misses, pc, absent]) l
    rcases unrecorded_of_step hk hs hu with hu | ⟨act, pc, absent⟩
    · rcases unrecorded_of_step hk hs hu' with hu' | ⟨act, pc, absent⟩
      · exact ho.window k l hu hu'
      · rw [alone act pc absent] at hu; cases hu
    · rcases unrecorded_of_step hk hs hu' with hu' | ⟨act', -⟩
      · rw [alone act pc absent] at hu'; cases hu'
      · rw [act] at act'; cases act'; rfl
  recorded e he := by
    rcases idem_of_step hs he with he' | ⟨k, b, sub, j, rfl, pc, absent, rfl⟩
    · obtain ⟨none_left, same⟩ := ho.recorded e he'
      refine ⟨fun k => ?_, fun j hc => ?_⟩
      · by_contra hu
        rcases unrecorded_of_step hk hs (Bool.not_eq_false _ ▸ hu) with hu | ⟨-, -, absent⟩
        · rw [none_left k] at hu; cases hu
        · rw [he'] at absent; cases absent
      · rcases createdFor_of_step hl hs hc with hc | ⟨k, b, sub, text, x, ts, h₀, -, pc, hh, -⟩
        · exact same j hc
        · have := none_left k
          simp [pc, Admit.unrecorded, hh] at this
    · have own : (s.admits k).unrecorded d.sha256 h = true := by simp [pc, Admit.unrecorded]
      refine ⟨fun l => ?_, fun j' hc => ?_⟩
      · by_contra hu
        rcases unrecorded_of_step hk hs (Bool.not_eq_false _ ▸ hu) with hu' | ⟨act, ⟨sub', pc'⟩, -⟩
        · cases ho.window l k hu' own
          rcases admit_of_step hs k with hs' | ⟨b', es, act, hs', -⟩
          · simp only [step, Option.ite_none_right_eq_some, Option.map_eq_some_iff] at hs
            obtain ⟨-, ⟨r', p', es⟩, hp, rfl⟩ := hs
            rw [pc] at hp
            simp only [Function.update_self] at hu
            exact hu (Admit.step_recording hp).1
          · rw [pc] at hs'
            exact hu (Admit.step_recording hs').1
        · cases act; rw [pc] at pc'; cases pc'
      · rcases createdFor_of_step hl hs hc with hc | ⟨l, b', sub', text, x, ts, h₀, act, pc', -⟩
        · obtain ⟨l, sub', pc'⟩ := ho.pending absent j' hc
          cases ho.window l k (by simp [pc', Admit.unrecorded]) own
          rw [pc] at pc'; cases pc'; rfl
        · cases act; rw [pc] at pc'; cases pc'
  pending hn j hc := by
    have before : s.redis.idem h = none := by
      have hw := idem_write (h := h) hs
      generalize hx : s'.redis.idem h = x at hw
      cases hw with
      | keep => rw [← hx]; exact hn
      | @purge δ e t act old ttl due =>
        subst act
        have := ha.2
        simp only [keepsRecord, old, Option.all_some, Entry.alive, ttl, decide_eq_true_eq] at this
        omega
      | record => rw [hn] at hx; cases hx
    rcases createdFor_of_step hl hs hc with hc | ⟨k, b, sub, text, x, ts, h₀, rfl, pc, hh, hdone⟩
    · obtain ⟨k, sub, pc⟩ := ho.pending before j hc
      rcases admit_of_step hs k with hs' | ⟨b, es, rfl, hs', -⟩
      · exact ⟨k, sub, hs'.trans pc⟩
      · rw [pc] at hs'
        have := ha.2
        simp only [keepsRecord, pc, ne_eq, not_true, decide_false, Bool.false_or, decide_not, Bool.not_eq_true',
          decide_eq_false_iff_not] at this
        rcases (Admit.step_recording hs').2 with hb | hi
        · exact absurd hb this
        · rw [hn] at hi; cases hi
    · have files := ha.2
      simp only [keepsRecord, pc, hdone, hh, ne_eq, not_true, decide_false, Bool.false_or] at files
      simp only [step, Option.ite_none_right_eq_some, Option.map_eq_some_iff] at hs
      obtain ⟨-, ⟨r', p', es⟩, hp, rfl⟩ := hs
      refine ⟨k, sub, ?_⟩
      rw [pc] at hp
      simp only [Function.update_self]
      cases b with
      | submit | name => cases hp
      | go =>
        simp only [Admit.step, Admit.resume, hdone, hh, Option.map_some, Option.some.injEq, Prod.mk.injEq] at hp
        exact hp.2.1.symm
      | fail took =>
        cases took
        · cases hp
          obtain ⟨sub', hc, -⟩ := hc
          exact absurd (hl.unborn k j (by rw [pc]; rfl)).2 (hc.born hl.legal)
        · cases files

theorem oneJob (hr : (system d).Reach (keyAlone d h) s) : OneJob d h s :=
  hr.invariant ⟨fun k l hu => by (cases hu), fun e he => by (cases he), fun _ j hc => by
    obtain ⟨sub, ⟨m, x, he⟩, -⟩ := hc; cases he⟩ fun _ _ _ hr ho ha hs => oneJob_step (life hr) (keyed hr) ho ha hs

def Answered (d : Deployment ι) (s : State ι) (h j : String) : Prop :=
  ∃ k sub, sub.keyHash d.sha256 = some h ∧
    ((∃ n, s.admits k = .done sub (.queued j n)) ∨ s.admits k = .done sub (.idempotentHit j))

theorem createdFor_of_answered {ok : State ι → Action ι → Prop} (hr : (system d).Reach ok s) (ha : Answered d s h j) :
    CreatedFor d s h j := by
  obtain ⟨k, sub, hk, ⟨n, pc⟩ | pc⟩ := ha
  · exact ⟨sub, (payloads hr).admitted k sub j (by rw [pc]; rfl), hk⟩
  · obtain ⟨h', hk', hc⟩ := (keyed hr).hit k sub j pc
    rw [hk] at hk'; cases hk'
    exact hc

/-- As long as calls with one key do not overlap between lookup and record, at most one job is created
for the key, and it is what every call that is not rejected returns. -/
theorem one_job_per_key (hr : (system d).Reach (keyAlone d h) s) :
    (∀ j j', CreatedFor d s h j → CreatedFor d s h j' → j = j') ∧ ∀ j, Answered d s h j → CreatedFor d s h j := by
  have ho := oneJob hr
  refine ⟨fun j j' hc hc' => ?_, fun j => createdFor_of_answered hr⟩
  cases he : s.redis.idem h with
  | some e => rw [(ho.recorded e he).2 j hc, (ho.recorded e he).2 j' hc']
  | none =>
    obtain ⟨k, sub, pc⟩ := ho.pending he j hc
    obtain ⟨l, sub', pc'⟩ := ho.pending he j' hc'
    cases ho.window k l (by simp [pc, Admit.unrecorded]) (by simp [pc', Admit.unrecorded])
    rw [pc] at pc'; cases pc'; rfl

end

def keyedRequest : Submission := chatRequest (.obj []) .null (some "k")

/-- Call `k` finds no record, admits the request as job `j` and records it. -/
def keyedRun (k : Nat) (j : String) : List (Action (Fin 2)) :=
  [.admission k (.submit keyedRequest), .admission k .go, .admission k (.name j)] ++ List.replicate 6 (.admission k .go)

def admitting : Action (Fin 2) → Bool
  | .admission _ (.fail _) => false
  | .admission .. => true
  | _ => false

/-- Two calls with the same key both find no record, and each enqueues a job. -/
theorem two_jobs_for_key : ¬∀ s, (system (twoWorkers 1 (Int.le_refl 1))).Reach (fun _ a => admitting a = true) s → ∀ h j j',
    CreatedFor (twoWorkers 1 (Int.le_refl 1)) s h j → CreatedFor (twoWorkers 1 (Int.le_refl 1)) s h j' → j = j' := by
  intro h
  obtain ⟨s, hr, ha, hb⟩ := (system (twoWorkers 1 (Int.le_refl 1))).reach_of_exec (fun _ a => admitting a = true)
    ([.admission 0 (.submit keyedRequest), .admission 0 .go, .admission 1 (.submit keyedRequest), .admission 1 .go,
      .admission 0 (.name "a"), .admission 1 (.name "b")] ++ List.replicate 2 (.admission 0 .go) ++
      List.replicate 2 (.admission 1 .go))
    (fun s => Created s.trace "a" keyedRequest ∧ Created s.trace "b" keyedRequest) (by decide +kernel)
  exact absurd (h s hr "k" "a" "b" ⟨_, ha, rfl⟩ ⟨_, hb, rfl⟩) (by decide)

def callsBelow {ι : Type} (n : Nat) : Action ι → Bool
  | .admission k _ => k < n
  | _ => true

theorem idle_of_callsBelow {ι : Type} [DecidableEq ι] {d : Deployment ι} {n : Nat} {ok : State ι → Action ι → Prop}
    (hok : ∀ s a, ok s a → callsBelow n a = true) {s : State ι} (hr : (system d).Reach ok s) {l : Nat} (hl : n ≤ l) :
    s.admits l = .idle := by
  refine hr.invariant (I := fun s => s.admits l = .idle) rfl fun u a v _ hu ha hs => ?_
  rcases admit_of_step hs l with hs' | ⟨b, es, rfl, -⟩
  · exact hs'.trans hu
  · have := of_decide_eq_true (hok _ _ ha); omega

/-- The second call comes after the first one has recorded its job. -/
theorem one_job_per_key_run : ∃ s, (system (twoWorkers 1 (Int.le_refl 1))).Reach (keyAlone (twoWorkers 1 (Int.le_refl 1)) "k") s ∧
    s.admits 0 = .done keyedRequest (.queued "a" 0) ∧ s.admits 1 = .done keyedRequest (.idempotentHit "a") ∧
      (∀ j j', CreatedFor (twoWorkers 1 (Int.le_refl 1)) s "k" j → CreatedFor (twoWorkers 1 (Int.le_refl 1)) s "k" j' → j = j') ∧
      ∀ j, Answered (twoWorkers 1 (Int.le_refl 1)) s "k" j → CreatedFor (twoWorkers 1 (Int.le_refl 1)) s "k" j := by
  obtain ⟨s, hr, h0, h1⟩ := (system (twoWorkers 1 (Int.le_refl 1))).reach_of_exec
    (fun s a => callsBelow 2 a = true ∧ keepsRecord (twoWorkers 1 (Int.le_refl 1)) "k" s a = true ∧
      (misses "k" s a = true → ∀ l < 2, (s.admits l).unrecorded (twoWorkers 1 (Int.le_refl 1)).sha256 "k" = false))
    (keyedRun 0 "a" ++ [.admission 1 (.submit keyedRequest), .admission 1 .go])
    (fun s => s.admits 0 = .done keyedRequest (.queued "a" 0) ∧ s.admits 1 = .done keyedRequest (.idempotentHit "a"))
    (by decide +kernel)
  have hr' : (system (twoWorkers 1 (Int.le_refl 1))).Reach (keyAlone (twoWorkers 1 (Int.le_refl 1)) "k") s := by
    refine hr.guard fun u a hu ha => ?_
    obtain ⟨-, hk, hm⟩ := ha
    refine ⟨fun miss l => ?_, hk⟩
    rcases Nat.lt_or_ge l 2 with hl | hl
    · exact hm miss l hl
    · rw [idle_of_callsBelow (fun _ _ h => h.1) hu hl]; rfl
  exact ⟨s, hr', h0, h1, one_job_per_key hr'⟩

section
variable {ι : Type} [DecidableEq ι] {d : Deployment ι} {s s' : State ι} {a : Action ι} {j : String}

/-! ## What a hit reports -/

omit [DecidableEq ι] in
/-- A claim of a slot or a cancel request takes effect on the job. -/
def touches (j : String) (s : State ι) : Action ι → Bool
  | .worker i b =>
    match (s.workers i).pc with
    | .claiming k _ => k = j && b.takes && s.redis.slotFree (s.workers i).model
    | _ => false
  | .cancel k b =>
    match s.cancels k with
    | .script k' m _ => k' = j && b.takes && decide (j ∈ s.redis.queue m)
    | .marking k' => k' = j && b.takes
    | _ => false
  | _ => false

/-- Since the job was enqueued nobody has claimed a slot for it or cancelled it. -/
def Untouched (d : Deployment ι) (s : State ι) (j : String) : Prop :=
  ∃ u a u', (system d).Reach Machine.Any u ∧ step d u a = some u' ∧ stage u.trace j = .unborn ∧
    (∃ sub, Created u'.trace j sub) ∧ (system d).Leads (fun s a => touches j s a = false) u' s

theorem status_of_touches (hs : step d s a = some s') (ht : touches j s a = true) :
    s'.redis.status j ≠ some .queued := by
  cases a with
  | worker i b =>
    simp only [touches] at ht
    split at ht
    · rename_i k ts pc
      simp only [Bool.and_eq_true, decide_eq_true_eq] at ht
      obtain ⟨⟨rfl, takes⟩, free⟩ := ht
      simp only [step, Option.map_eq_some_iff] at hs
      obtain ⟨⟨r', w', es⟩, hw, rfl⟩ := hs
      simp only [Worker.redis_of_takes hw takes, pc, Pc.serve, if_pos free, Redis.claimSlot_status]
      intro h; cases h
    · cases ht
  | cancel k b =>
    simp only [step, Option.map_eq_some_iff] at hs
    obtain ⟨⟨r', p', es⟩, hp, rfl⟩ := hs
    simp only [touches] at ht
    split at ht
    · rename_i k' m ts pc
      simp only [Bool.and_eq_true, decide_eq_true_eq] at ht
      obtain ⟨⟨rfl, takes⟩, mem⟩ := ht
      simp only [Cancel.redis_of_takes hp takes, pc, Cancel.serve, if_pos mem, Redis.cancelQueued_status]
      intro h; cases h
    · rename_i k' pc
      simp only [Bool.and_eq_true, decide_eq_true_eq] at ht
      obtain ⟨rfl, takes⟩ := ht
      simp only [Cancel.redis_of_takes hp takes, pc, Cancel.serve, Redis.status, Redis.hset_job]
      intro h; cases h
    · cases ht
  | admission | watch | check | tick => cases ht

/-- The status of a job that is queued changes only when it is claimed or cancelled. -/
theorem queued_of_step (hl : Life s) (hp : Priorities d.config s) (hs : step d s a = some s')
    (early : (stage s.trace j).Early) {sub : Submission} (hc : Created s.trace j sub)
    (hq : s.redis.status j = some .queued) (ht : touches j s a = false) : s'.redis.status j = some .queued := by
  by_contra hne
  have changed : s'.redis ≠ s.redis := fun e => hne (e ▸ hq)
  have hw := hash_write (j := j) hl hs
  generalize hx : s'.redis.job j = x at hw
  cases hw with
  | keep => exact hne (by rw [Redis.status, hx]; exact hq)
  | purge act old ttl =>
    obtain ⟨e, he, hn, -⟩ := hp.waiting j sub hc early
    rw [he] at old; cases old; rw [hn] at ttl; cases ttl
  | @claim i b ts act takes pc =>
    subst act
    simp only [step, Option.map_eq_some_iff] at hs
    obtain ⟨⟨r', w', es⟩, hw, rfl⟩ := hs
    cases free : s.redis.slotFree (s.workers i).model with
    | true => simp [touches, pc, takes, free] at ht
    | false => exact changed (by simp [Worker.redis_of_takes hw takes, pc, Pc.serve, free])
  | @mark i _ _ _ _ act takes pc | @clean i _ _ act takes pc =>
    exact absurd early ((hl.worker i).claimed_of_slot (by rw [pc]; rfl)).not_early
  | @cancelled k b m ts act pc mem =>
    subst act
    simp only [step, Option.map_eq_some_iff] at hs
    obtain ⟨⟨r', p', es⟩, hp, rfl⟩ := hs
    rcases Cancel.step_effect hp with rfl | ⟨takes, -⟩
    · exact changed rfl
    · simp [touches, pc, takes, mem] at ht
  | @expire k b m act pc =>
    have := hl.cancel k j (by rw [pc]; rfl)
    rw [pc] at this
    rcases early with h | ⟨_, h⟩ | ⟨_, h⟩ <;> rw [h] at this <;> cases this
  | cancelling act takes pc => subst act; simp [touches, pc, takes] at ht
  | @reclaim k b m rest ts act takes pc =>
    exact absurd early (hl.pending k m (j :: rest) (by rw [pc]; rfl) j (List.mem_cons_self ..)).not_early
  | store act pc =>
    refine hne ?_
    have : (s.redis.hashOf j).status = s.redis.status j := by
      rw [Redis.status, Redis.hashOf]; cases s.redis.job j <;> rfl
    rw [Redis.status, hx, Option.bind_some, Redis.written, this]; exact hq
  | enqueue act pc absent => rw [Redis.status, absent] at hq; cases hq

theorem untouched_of_queued {ok : State ι → Action ι → Prop} (hr : (system d).Reach ok s)
    (hq : s.redis.status j = some .queued) : Untouched d s j := by
  refine hr.invariant (I := fun s => s.redis.status j = some .queued → Untouched d s j) (fun h => by (cases h)) ?_ hq
  intro u a v hr hu _ hs hv
  change step d u a = some v at hs
  have hw := status_write (j := j) (life hr) (priorities hr) hs
  generalize hx : v.redis.status j = x at hw
  rw [hv] at hx
  cases hw with
  | keep =>
    obtain ⟨w, b, w', hw, hb, hun, hc, hl⟩ := hu hx.symm
    refine ⟨w, b, w', hw, hb, hun, hc, hl.step ?_ hs⟩
    by_contra ht
    exact status_of_touches hs (Bool.not_eq_false _ ▸ ht) hv
  | enqueue unborn absent created => exact ⟨u, a, v, hr.any, hs, unborn, created, .refl⟩
  | @mark i b info v => cases v <;> cases hx
  | purge | claim | clean | cancelled | cancelling | reclaim => cases hx

theorem queued_of_untouched (hu : Untouched d s j) : s.redis.status j = some .queued := by
  obtain ⟨u, a, u', hr, hs, unborn, ⟨sub, hc⟩, hl⟩ := hu
  have hr' : (system d).Reach Machine.Any u' := hr.next (a := a) trivial hs
  have new : u'.redis.status j = some .queued := by
    rcases created_of_step (life hr) hs hc with hc | ⟨k, b, text, x, ts, h₀, -, pc, -, hash, new⟩
    · exact absurd unborn (hc.born (life hr).legal)
    · obtain ⟨n, -, -, -, rfl⟩ := (priorities hr).text k sub j text x ts pc
      rw [Redis.status, new]
      exact (enqueuedHash_fields (plain_text n) sub.caller_plain sub.requestId_plain hash).1
  have : s.redis.status j = some .queued ∧ Created s.trace j sub := by
    refine hl.invariant (I := fun s => s.redis.status j = some .queued ∧ Created s.trace j sub) ⟨new, hc⟩ ?_
    rintro v b w hv ⟨hq, hc⟩ ht hs
    change step d v b = some w at hs
    have hrv := hr'.leads hv.any
    obtain ⟨m, hm⟩ := placed hrv hq
    exact ⟨queued_of_step (life hrv) (priorities hrv) hs
        (hm.elim (fun h => .inr (.inl ⟨m, h⟩)) fun h => .inr (.inr ⟨m, h⟩))
      hc hq ht, hc.step hs⟩
  exact this.1

/-- The job of a hit was created by a request with the same key. Its hash is there and has the status
that the hit reports exactly as long as nobody has claimed a slot for the job or cancelled it. -/
theorem hit_reports (hr : (system d).Reach Machine.Any s) {k : Nat} {sub : Submission}
    (hit : s.admits k = .done sub (.idempotentHit j)) :
    (∃ h, sub.keyHash d.sha256 = some h ∧ CreatedFor d s h j) ∧
      ((∃ e, s.redis.job j = some e ∧ e.value.status = some (AdmissionOutcome.idempotentHit j).status) ↔
        Untouched d s j) := by
  refine ⟨(keyed hr).hit k sub j hit, ?_⟩
  rw [← Option.bind_eq_some_iff]
  exact ⟨untouched_of_queued hr, queued_of_untouched⟩

end

/-- The request is repeated after its job has completed: the hit says `queued`. -/
theorem hit_outdated : ¬∀ s k sub h s' j, (system (twoWorkers 1 (Int.le_refl 1))).Reach Machine.Any s →
    s.admits k = .lookup sub h → step (twoWorkers 1 (Int.le_refl 1)) s (.admission k .go) = some s' →
    s'.admits k = .done sub (.idempotentHit j) →
    ∃ e, s'.redis.job j = some e ∧ e.value.status = some (AdmissionOutcome.idempotentHit j).status := by
  intro h
  obtain ⟨s, hr, pc, hs⟩ := (system (twoWorkers 1 (Int.le_refl 1))).reach_of_exec Machine.Any
    (keyedRun 0 "a" ++ List.replicate 6 (.worker 0 .go) ++ [.worker 0 (.respond (.ok (.obj [])))] ++
      List.replicate 3 (.worker 0 .go) ++ [.admission 1 (.submit keyedRequest)])
    (fun s => s.admits 1 = .lookup keyedRequest "k" ∧ ((step (twoWorkers 1 (Int.le_refl 1)) s (.admission 1 .go)).any fun s' =>
      s'.admits 1 = .done keyedRequest (.idempotentHit "a") ∧ s'.redis.status "a" = some .completed) = true)
    (by decide +kernel)
  obtain ⟨s', hs, hd⟩ := (Option.any_eq_true _ _).mp hs
  obtain ⟨hit, completed⟩ := of_decide_eq_true hd
  obtain ⟨e, he, hst⟩ := h s 1 _ _ s' "a" hr pc hs hit
  rw [Redis.status_eq he, hst] at completed; cases completed

/-- The request is repeated while its job is in the queue. -/
theorem hit_reports_run : ∃ s, (system (twoWorkers 1 (Int.le_refl 1))).Reach Machine.Any s ∧ "a" ∈ s.redis.queue "chat" ∧
    s.admits 1 = .done keyedRequest (.idempotentHit "a") ∧
    (∃ h, keyedRequest.keyHash (twoWorkers 1 (Int.le_refl 1)).sha256 = some h ∧ CreatedFor (twoWorkers 1 (Int.le_refl 1)) s h "a") ∧
    ((∃ e, s.redis.job "a" = some e ∧ e.value.status = some (AdmissionOutcome.idempotentHit "a").status) ↔
      Untouched (twoWorkers 1 (Int.le_refl 1)) s "a") := by
  obtain ⟨s, hr, hq, hit⟩ := (system (twoWorkers 1 (Int.le_refl 1))).reach_of_exec Machine.Any
    (keyedRun 0 "a" ++ [.admission 1 (.submit keyedRequest), .admission 1 .go])
    (fun s => "a" ∈ s.redis.queue "chat" ∧ s.admits 1 = .done keyedRequest (.idempotentHit "a")) (by decide +kernel)
  exact ⟨s, hr, hq, hit, hit_reports hr hit⟩

end AdmissionScheduler
