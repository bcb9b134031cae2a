import AdmissionScheduler.CancelSound
import AdmissionScheduler.SlotTurns

/-!
# Finished jobs expire

The writers of a terminal status attach the expiry themselves, the cancel
endpoint in a second command and `_cleanup_slot` not at all. Three plain `HSET`s
come long after the check that the hash exists, so they may find it gone.
-/

namespace AdmissionScheduler

section
variable {ι : Type} [DecidableEq ι] {d : Deployment ι} {s s' : State ι} {a : Action ι} {j : String}

def Redis.fading (r : Redis) (j : String) : Bool := ((r.job j).bind Entry.expireAt).isSome

/-- No command of a cancel request fails once the script has written `cancelled`, `_cleanup_slot` writes only a
hash that expires, and the two other plain `HSET`s only one that is still there. -/
def expires (s : State ι) : Action ι → Bool
  | .cancel k b =>
    match s.cancels k, b with
    | .script .., .fail took => !took
    | .expiring .., .fail _ => false
    | .marking j, b => !b.takes || (s.redis.job j).isSome
    | _, _ => true
  | .worker i b =>
    match (s.workers i).pc with
    | .cleaning j _ => !b.takes || s.redis.fading j
    | _ => true
  | .admission k b =>
    match s.admits k, b with
    | .storing _ j _, .go | .storing _ j _, .fail true => (s.redis.job j).isSome
    | _, _ => true
  | _ => true

/-- A cancel request has written `cancelled` and its `EXPIRE` is still to come. -/
def expiryDue (s : State ι) (j : String) : Prop := ∃ k m, s.cancels k = .expiring j m

structure Expiries (s : State ι) : Prop where
  bounded : ∀ j e t, s.redis.job j = some e → e.expireAt = some t → t ≤ s.redis.now + jobTerminalTtl
  early : ∀ j e, (stage s.trace j).Early → s.redis.job j = some e → e.expireAt = none
  ended : ∀ j, s.redis.ended j = true → s.redis.fading j = true ∨ expiryDue s j

theorem now_le (h : step d s a = some s') : s.redis.now ≤ s'.redis.now := by
  rw [now_of_step h]; exact Nat.le_add_right _ _

theorem bounded_step (hl : Life s) (he : Expiries s) (h : step d s a = some s') {e : Entry JobHash} {t : Nat}
    (hj : s'.redis.job j = some e) (ht : e.expireAt = some t) : t ≤ s'.redis.now + jobTerminalTtl := by
  refine Nat.le_trans ?_ (Nat.add_le_add_right (now_le h) _)
  have old {f : JobHash → JobHash} (hw : (s.redis.written j f).expireAt = some t) : t ≤ s.redis.now + jobTerminalTtl := by
    obtain ⟨e₀, he₀, ht₀⟩ := Option.bind_eq_some_iff.mp hw
    exact he.bounded j e₀ t he₀ ht₀
  have hw := hash_write (j := j) hl h
  rw [hj] at hw
  generalize hx : some e = x at hw
  cases hw with
  | keep => exact he.bounded j e t hx.symm ht
  | purge => cases hx
  | claim | clean | cancelled | cancelling | store => cases hx; exact old ht
  | mark | reclaim => cases hx; cases ht; exact Nat.le_refl _
  | expire =>
    obtain ⟨e₀, he₀, rfl⟩ := Option.map_eq_some_iff.mp hx.symm
    cases ht; exact Nat.le_refl _
  | enqueue => cases hx; cases ht

theorem early_expiry_step (hl : Life s) (he : Expiries s) (h : step d s a = some s') (hj : (stage s'.trace j).Early)
    {e : Entry JobHash} (hx : s'.redis.job j = some e) : e.expireAt = none := by
  have early := early_of_step hl h hj
  have old (f : JobHash → JobHash) : (s.redis.written j f).expireAt = none := by
    simp only [Redis.written, Option.bind_eq_none_iff]
    exact fun e₀ he₀ => he.early j e₀ early he₀
  have hw := hash_write (j := j) hl h
  rw [hx] at hw
  generalize hy : some e = x at hw
  cases hw with
  | keep => exact he.early j e early hy.symm
  | purge => cases hy
  | claim | cancelled | cancelling | store => cases hy; exact old _
  | @mark i _ _ _ _ act takes pc | @clean i _ _ act takes pc =>
    exact absurd early ((hl.worker i).claimed_of_slot (by rw [pc]; rfl)).not_early
  | @reclaim k b m rest ts act takes pc =>
    exact absurd early (hl.pending k m (j :: rest) (by rw [pc]; rfl) j (List.mem_cons_self ..)).not_early
  | @expire k b m act pc =>
    have := hl.cancel k j (by rw [pc]; rfl)
    rw [pc] at this
    rcases early with h | ⟨_, h⟩ | ⟨_, h⟩ <;> rw [h] at this <;> cases this
  | enqueue => cases hy; rfl

theorem ended_of_job {r : Redis} (h : r.ended j = true) : ∃ e, r.job j = some e := by
  cases hj : r.job j with
  | none => rw [Redis.ended, Redis.status, hj] at h; cases h
  | some e => exact ⟨e, rfl⟩

theorem Redis.ended_of_entry {r : Redis} {e : Entry JobHash} (h : r.job j = some e) :
    r.ended j = (e.value.status.map JobStatus.terminal).getD false := by
  rw [ended, status, h]; rfl

theorem Redis.fading_of_entry {r : Redis} {e : Entry JobHash} (h : r.job j = some e) :
    r.fading j = e.expireAt.isSome := by
  rw [fading, h]; rfl

omit [DecidableEq ι] in
theorem expiryDue_of_cancels (h : s'.cancels = s.cancels) (hf : expiryDue s j) : expiryDue s' j := by
  obtain ⟨k, m, pc⟩ := hf
  exact ⟨k, m, by rw [h]; exact pc⟩

/-- A step of somebody else than a cancel request. -/
theorem ended_other (hl : Life s) (hp : Priorities d.config s) (he : Expiries s) (ok : expires s a = true)
    (other : ∀ k b, a ≠ .cancel k b) (h : step d s a = some s') (hj : s'.redis.ended j = true) :
    s'.redis.fading j = true ∨ expiryDue s' j := by
  have cancels : s'.cancels = s.cancels := by
    funext k
    rcases cancel_of_step h k with same | ⟨b, -, rfl, -⟩
    · exact same
    · exact absurd rfl (other k b)
  have hw := hash_write (j := j) hl h
  generalize hx : s'.redis.job j = x at hw
  cases hw with
  | keep =>
    have same : s'.redis.ended j = s.redis.ended j ∧ s'.redis.fading j = s.redis.fading j := by
      simp only [Redis.ended, Redis.fading, Redis.status, hx, and_self]
    rw [same.1] at hj
    rw [same.2]
    exact (he.ended j hj).imp_right (expiryDue_of_cancels cancels)
  | purge => obtain ⟨e, hj⟩ := ended_of_job hj; rw [hx] at hj; cases hj
  | claim => rw [Redis.ended_of_entry hx] at hj; cases hj
  | mark | reclaim => exact .inl (Redis.fading_of_entry hx)
  | @clean i b ts act takes pc =>
    subst act
    have fading : s.redis.fading j = true := by simpa [expires, pc, takes] using ok
    exact .inl ((Redis.fading_of_entry hx).trans fading)
  | cancelled act | expire act | cancelling act => exact absurd act (other _ _)
  | @store k b sub pos act pc =>
    have same : s'.redis.ended j = s.redis.ended j := by
      rw [Redis.ended_of_entry hx, Redis.ended, Redis.status]
      simp only [Redis.written, Redis.hashOf]; cases s.redis.job j <;> rfl
    rw [same] at hj
    rw [Redis.fading_of_entry hx]
    exact (he.ended j hj).imp_right (expiryDue_of_cancels cancels)
  | @enqueue k b sub text x ts h₀ act pc absent hash event =>
    obtain ⟨n, -, -, -, rfl⟩ := hp.text k sub j text x ts pc
    have queued := (enqueuedHash_fields (plain_text n) sub.caller_plain sub.requestId_plain hash).1
    rw [Redis.ended_of_entry hx, queued] at hj; cases hj

theorem ended_cancel {k : Nat} {b : CancelAct} (he : Expiries s) (ok : expires s (.cancel k b) = true)
    (h : step d s (.cancel k b) = some s') (hj : s'.redis.ended j = true) :
    s'.redis.fading j = true ∨ expiryDue s' j := by
  simp only [step, Option.map_eq_some_iff] at h
  obtain ⟨⟨r', p', es⟩, hp, rfl⟩ := h
  -- what holds of a job whose hash the request does not write
  have other {l : String} (same : r'.job l = s.redis.job l) (hl : r'.ended l = true)
      (pc : ∀ m, s.cancels k ≠ .expiring l m) : r'.fading l = true ∨
        expiryDue { s with redis := r', cancels := Function.update s.cancels k p', trace := es ++ s.trace } l := by
    have same' : r'.ended l = s.redis.ended l ∧ r'.fading l = s.redis.fading l := by
      simp only [Redis.ended, Redis.fading, Redis.status, same, and_self]
    rw [same'.1] at hl
    rw [same'.2]
    refine (he.ended l hl).imp_right fun due => ?_
    obtain ⟨k', m, pc'⟩ := due
    have : k' ≠ k := by rintro rfl; exact pc m pc'
    exact ⟨k', m, by simpa [this] using pc'⟩
  have quiet (hr : r' = s.redis) (pc : ∀ m, s.cancels k ≠ .expiring j m) := other (l := j) (by rw [hr]) hj pc
  cases pc : s.cancels k with
  | script l m ts =>
    have pc' : ∀ m, s.cancels k ≠ .expiring j m := by simp [pc]
    rw [pc] at hp
    cases b with
    | request => cases hp
    | fail took =>
      simp only [expires, pc, Bool.not_eq_true'] at ok
      subst ok; cases hp
      exact quiet rfl pc'
    | go =>
      cases hp
      by_cases mem : l ∈ s.redis.queue m
      · by_cases hl : j = l
        · subst hl; exact .inr ⟨k, m, by simp [mem]⟩
        · exact other (by simp only [Cancel.serve, mem, if_true, Redis.cancelQueued_job_ne hl]) hj pc'
      · exact quiet (by simp only [Cancel.serve, mem, if_false]) pc'
  | expiring l m =>
    rw [pc] at hp
    cases b with
    | request => cases hp
    | fail took => simp [expires, pc] at ok
    | go =>
      cases hp
      by_cases hl : j = l
      · subst hl
        obtain ⟨e, old⟩ := ended_of_job hj
        obtain ⟨e₀, -, rfl⟩ : ∃ e₀, s.redis.job j = some e₀ ∧ (⟨e₀.value, some (s.redis.now + jobTerminalTtl)⟩ : Entry JobHash) = e := by
          simpa [Cancel.serve, Redis.expire] using old
        exact .inl (Redis.fading_of_entry old)
      · refine other (by simp only [Cancel.serve, Redis.expire_job_ne hl]) hj fun m' pc' => ?_
        rw [pc] at pc'; cases pc'; exact hl rfl
  | marking l =>
    have pc' : ∀ m, s.cancels k ≠ .expiring j m := by simp [pc]
    have written (hr : r' = s.redis.hset l fun h => { h with status := some .cancelling }) :
        r'.fading j = true ∨
          expiryDue { s with redis := r', cancels := Function.update s.cancels k p', trace := es ++ s.trace } j := by
      by_cases hl : j = l
      · subst hl
        have written : r'.job j = some (s.redis.written j fun h => { h with status := some .cancelling }) := by
          rw [hr]; exact Redis.hset_job _ _ _
        rw [Redis.ended_of_entry written] at hj; cases hj
      · exact other (by rw [hr]; exact Redis.hset_job_ne hl) hj pc'
    rw [pc] at hp
    cases b with
    | request => cases hp
    | fail took =>
      cases took with
      | false => cases hp; exact quiet rfl pc'
      | true => cases hp; exact written rfl
    | go => cases hp; exact written rfl
  | idle | reading | announcing | done | raised =>
    refine quiet ?_ (by simp [pc])
    rcases Cancel.step_effect hp with hr | ⟨-, hr, -⟩
    · exact hr
    · rw [hr, pc]; rfl

theorem expiries {ok : State ι → Action ι → Prop} (hok : ∀ u b, ok u b → expires u b = true)
    (h : (system d).Reach ok s) : Expiries s := by
  refine h.invariant (I := Expiries) ?_ fun u b v hr he hb hs => ?_
  · exact ⟨fun j e t hj => (by cases hj), fun j e _ hj => (by cases hj), fun j hj => (by cases hj)⟩
  · refine ⟨fun j e t => bounded_step (life hr) he hs, fun j e hj hx => early_expiry_step (life hr) he hs hj hx, fun j hj => ?_⟩
    cases b with
    | cancel k b => exact ended_cancel (d := d) he (hok _ _ hb) hs hj
    | worker | admission | watch | check | tick =>
      exact ended_other (life hr) (priorities hr) he (hok _ _ hb) (by simp) hs hj

/-! ## Hashes that are gone -/

/-- While a job whose hash was there waits for a slot, the hash stays. -/
theorem kept_while_early (hl : Life s) (he : Expiries s) (h : step d s a = some s')
    (kept : stage s.trace j ≠ .unborn ∧ ((stage s.trace j).Early → (s.redis.job j).isSome = true)) :
    stage s'.trace j ≠ .unborn ∧ ((stage s'.trace j).Early → (s'.redis.job j).isSome = true) := by
  refine ⟨born_of_step hl h kept.1, fun hj => ?_⟩
  have early := early_of_step hl h hj
  obtain ⟨e, old⟩ := Option.isSome_iff_exists.mp (kept.2 early)
  have hw := hash_write (j := j) hl h
  generalize s'.redis.job j = x at hw
  cases hw with
  | keep => rw [old]; rfl
  | purge act old' ttl => rw [old] at old'; cases old'; rw [he.early j e early old] at ttl; cases ttl
  | expire => rw [old]; rfl
  | claim | mark | clean | cancelled | cancelling | reclaim | store | enqueue => rfl

/-- A hash that comes back has an expiry. -/
theorem recreated_fading (hl : Life s) (ok : expires s a = true) (h : step d s a = some s')
    (kept : stage s.trace j ≠ .unborn ∧ ((stage s.trace j).Early → (s.redis.job j).isSome = true))
    (gone : s.redis.job j = none) {e : Entry JobHash} (hj : s'.redis.job j = some e) : e.expireAt.isSome = true := by
  have late : ¬(stage s.trace j).Early := fun early => by have := kept.2 early; rw [gone] at this; cases this
  have hw := hash_write (j := j) hl h
  rw [hj] at hw
  generalize hx : some e = x at hw
  cases hw with
  | keep => rw [gone] at hx; cases hx
  | purge => cases hx
  | @claim i b ts act takes pc =>
    have := hl.worker i j (by rw [pc]; rfl)
    rw [pc] at this
    exact absurd (.inr (.inr ⟨_, this⟩)) late
  | mark | reclaim => cases hx; rfl
  | @clean i b ts act takes pc => subst act; simp [expires, pc, takes, Redis.fading, gone] at ok
  | cancelled act pc mem => exact absurd (.inr (.inl ⟨_, (hl.queue _ j).mp mem⟩)) late
  | expire => rw [gone] at hx; cases hx
  | cancelling act takes pc => subst act; simp [expires, pc, takes, gone] at ok
  | @store k b sub pos act pc =>
    subst act
    cases b with
    | go => simp [expires, pc, gone] at ok
    | fail took =>
      cases took with
      | true => simp [expires, pc, gone] at ok
      | false =>
        simp only [step, Option.ite_none_right_eq_some, Option.map_eq_some_iff, Admit.step, pc] at h
        obtain ⟨-, _, ⟨_, -, rfl⟩, rfl⟩ := h
        cases gone.symm.trans hj
    | submit | name => simp [step, Admit.step, pc] at h
  | enqueue act pc => exact absurd (hl.unborn _ j (by rw [pc]; rfl)).2 kept.1

/-- When no cancel request is between its two commands, every terminal hash expires within an hour, and no
hash that has expired comes back without an expiry. -/
theorem finished_expire (h : (system d).Reach (fun s a => expires s a = true) s) :
    (∀ j, ¬expiryDue s j → s.redis.ended j = true →
      ∃ e t, s.redis.job j = some e ∧ e.expireAt = some t ∧ t ≤ s.redis.now + jobTerminalTtl) ∧
    ∀ j t a t', (s.redis.job j).isSome = true → (system d).Leads (fun s a => expires s a = true) s t →
      t.redis.job j = none → expires t a = true → step d t a = some t' →
      ∀ e, t'.redis.job j = some e → e.expireAt.isSome = true := by
  constructor
  · intro j idle hj
    have he := expiries (fun _ _ hu => hu) h
    obtain ⟨e, old⟩ := ended_of_job hj
    have fading := (he.ended j hj).resolve_right idle
    rw [Redis.fading_of_entry old] at fading
    obtain ⟨t, ht⟩ := Option.isSome_iff_exists.mp fading
    exact ⟨e, t, old, ht, he.bounded j e t old ht⟩
  · intro j t a t' there ht gone ok hs e hj
    have born : stage s.trace j ≠ .unborn := fun hb => by rw [(life h).absent j hb] at there; cases there
    have kept := ht.invariant
      (I := fun u => stage u.trace j ≠ .unborn ∧ ((stage u.trace j).Early → (u.redis.job j).isSome = true))
      ⟨born, fun _ => there⟩ fun u b v hu kept _ hs =>
        kept_while_early (life (h.leads hu)) (expiries (fun _ _ hu => hu) (h.leads hu)) hs kept
    exact recreated_fading (life (h.leads ht)) ok hs kept gone hj

/-- Commands fail only without effect, and those for a job only before it has ended. -/
def failsEarly (s : State ι) : Action ι → Bool
  | .worker i (.fail took) => !took && (s.workers i).pc.job.all fun j => !s.redis.ended j
  | .cancel k (.fail took) => !took && (s.cancels k).job.all fun j => !s.redis.ended j
  | .admission _ (.fail took) | .watch _ (.fail took) | .check _ (.fail took) => !took
  | _ => true

def uncancelled : Action ι → Bool
  | .cancel .. => false
  | _ => true

theorem not_expiryDue {ok : State ι → Action ι → Prop} (hok : ∀ u b, ok u b → uncancelled b = true)
    (h : (system d).Reach ok s) : ¬expiryDue s j := by
  have idle : ∀ k, s.cancels k = .idle := by
    refine h.invariant (I := fun u => ∀ k, u.cancels k = .idle) (fun _ => rfl) fun u b v _ hu hb hs k => ?_
    rcases cancel_of_step hs k with same | ⟨b, -, rfl, -⟩
    · rw [same]; exact hu k
    · have := hok _ _ hb; cases this
  rintro ⟨k, m, pc⟩
  rw [idle k] at pc; cases pc

end

/-- The `HGETALL` of the dispatch fails and `_cleanup_slot` marks the job failed, for good. -/
theorem cleanup_never_expires : ¬∀ s, (system (twoWorkers 1 (Int.le_refl 1))).Reach (fun s a => failsEarly s a = true) s →
    ∀ j, ¬expiryDue s j → s.redis.ended j = true →
      ∃ e t, s.redis.job j = some e ∧ e.expireAt = some t ∧ t ≤ s.redis.now + jobTerminalTtl := by
  intro h
  obtain ⟨s, hr, ended, forever⟩ := (system (twoWorkers 1 (Int.le_refl 1))).reach_of_exec
    (fun s a => failsEarly s a = true ∧ uncancelled a = true)
    (admitRun 0 (chatRequest (.obj []) .null none) "a" ++ List.replicate 5 (.worker 0 .go) ++ [.worker 0 (.fail false)] ++
      List.replicate 3 (.worker 0 .go))
    (fun s => s.redis.ended "a" = true ∧ s.redis.fading "a" = false) (by decide +kernel)
  have idle : ¬expiryDue s "a" := not_expiryDue (fun _ _ hu => hu.2) hr
  obtain ⟨e, t, hj, ht, -⟩ := h s (hr.mono fun _ _ hu => hu.1) "a" idle ended
  rw [Redis.fading_of_entry hj, ht] at forever; cases forever

/-- A completed job expires after an hour. -/
theorem finished_expire_run : ∃ s, (system (twoWorkers 1 (Int.le_refl 1))).Reach (fun s a => expires s a = true) s ∧
    s.redis.ended "a" = true ∧
    ∃ e t, s.redis.job "a" = some e ∧ e.expireAt = some t ∧ t ≤ s.redis.now + jobTerminalTtl := by
  obtain ⟨s, hr, ended⟩ := (system (twoWorkers 1 (Int.le_refl 1))).reach_of_exec
    (fun s a => expires s a = true ∧ uncancelled a = true)
    (admitRun 0 (chatRequest (.obj []) .null none) "a" ++ List.replicate 6 (.worker 0 .go) ++
      [.worker 0 (.respond (.ok (.obj []))), .worker 0 .go])
    (fun s => s.redis.ended "a" = true) (by decide +kernel)
  have idle : ¬expiryDue s "a" := not_expiryDue (fun _ _ hu => hu.2) hr
  have hr' := hr.mono fun _ _ hu => hu.1
  exact ⟨s, hr', ended, (finished_expire hr').1 "a" idle ended⟩

end AdmissionScheduler
