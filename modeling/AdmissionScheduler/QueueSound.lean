import AdmissionScheduler.HashWrites

/-!
# The queue of a model

Three commands write the queue of a model: the pop, the cancel script and the
enqueue script, which alone adds to it and only below the configured depth. A
call that the script turns away has written nothing that anyone reads later.
-/

namespace AdmissionScheduler

inductive QueueWrite {ι : Type} (c : AppConfig) (s : State ι) (a : Action ι) (m : String) :
    SortedSet Double String → Prop
  | keep : QueueWrite c s a m (s.redis.queue m)
  | pop {i b x j q} (act : a = .worker i b) (pc : (s.workers i).pc = .popping) (model : (s.workers i).model = m)
      (min : (s.redis.queue m).popMin? = some (x, j, q)) : QueueWrite c s a m q
  | add {k b sub j text x ts} (act : a = .admission k b) (pc : s.admits k = .enqueueing sub j text x ts)
      (model : sub.model = m) (room : (s.redis.queue m).card < c.maxQueueDepth m) :
    QueueWrite c s a m ((s.redis.queue m).add j x)
  | remove {k b j ts} (act : a = .cancel k b) (pc : s.cancels k = .script j m ts) (mem : j ∈ s.redis.queue m) :
    QueueWrite c s a m ((s.redis.queue m).remove j)

section
variable {c : AppConfig} {r : Redis} {m : String}

theorem Pc.serve_queue {n : String} (pc : Pc) : (pc.serve c m r).queue n = r.queue n ∨
    pc = .popping ∧ n = m ∧ ∃ x j q, (r.queue m).popMin? = some (x, j, q) ∧ (pc.serve c m r).queue n = q := by
  cases pc with
  | popping =>
    by_cases hm : n = m
    · subst hm
      cases hp : (r.queue n).popMin? with
      | none => left; simp [serve, Redis.popQueue, hp]
      | some p => exact .inr ⟨rfl, rfl, _, _, _, rfl, by simp [serve, Redis.popQueue, hp]⟩
    · left; simp [serve, Redis.popQueue, hm]
  | claiming j ts => left; simp only [serve]; split <;> rfl
  | _ => exact .inl rfl

theorem Redis.enqueueJob_queue {j : String} {x : Double} (e : Enqueued) :
    (r.enqueueJob m j x e).queue = r.queue ∨
      e ≠ .full ∧ (r.enqueueJob m j x e).queue = (r.addQueued m j x).queue := by
  cases e with
  | full | refused => exact .inl rfl
  | misfiled | done => exact .inr ⟨nofun, rfl⟩

theorem Redis.enqueueOutcome_full {j : String} {x : Double} {depth : Int} {vs : List Text} :
    r.enqueueOutcome m j x depth vs = .full ↔ depth ≤ (r.queue m).card := by
  unfold enqueueOutcome
  constructor
  · intro h
    by_contra hlt
    rw [if_neg hlt] at h
    split at h
    · cases h
    · split at h <;> cases h
  · exact fun h => if_pos h

theorem Admit.serve_queue {p : Admit} : (p.serve c r).queue m = r.queue m ∨
    ∃ sub j text x ts, p = .enqueueing sub j text x ts ∧ sub.model = m ∧ (r.queue m).card < c.maxQueueDepth m ∧
      (p.serve c r).queue m = (r.queue m).add j x := by
  cases p with
  | enqueueing sub j text x ts =>
    simp only [serve]
    rcases Redis.enqueueJob_queue (r := r) (m := sub.model) (j := j) (x := x) (enqueueOutcome c r sub j text x ts) with
      hq | ⟨hne, hq⟩ <;> rw [hq]
    · exact .inl rfl
    · by_cases hm : sub.model = m
      · subst hm
        have room := mt Redis.enqueueOutcome_full.mpr hne
        exact .inr ⟨sub, j, text, x, ts, rfl, rfl, Int.not_le.mp room, by simp [Redis.addQueued]⟩
      · left; simp [Redis.addQueued, Ne.symm hm]
  | _ => exact .inl rfl

theorem Cancel.serve_queue {p : Cancel} : (p.serve r).queue m = r.queue m ∨
    ∃ j ts, p = .script j m ts ∧ j ∈ r.queue m ∧ (p.serve r).queue m = (r.queue m).remove j := by
  cases p with
  | script j m' ts =>
    simp only [serve]
    split
    · rename_i mem
      by_cases hm : m' = m
      · subst hm
        exact .inr ⟨j, ts, rfl, mem, by simp [Redis.cancelQueued, Redis.hset, Redis.removeQueued]⟩
      · left; simp [Redis.cancelQueued, Redis.hset, Redis.removeQueued, Ne.symm hm]
    · exact .inl rfl
  | _ => exact .inl rfl

end

section
variable {ι : Type} [DecidableEq ι] {d : Deployment ι} {s s' t : State ι} {a : Action ι} {m : String}

theorem queue_write (h : step d s a = some s') : QueueWrite d.config s a m (s'.redis.queue m) := by
  cases a with
  | worker i b =>
    simp only [step, Option.map_eq_some_iff] at h
    obtain ⟨⟨r', w', es⟩, hw, rfl⟩ := h
    rcases Worker.step_redis hw with rfl | ⟨-, rfl⟩
    · exact .keep
    rcases (s.workers i).pc.serve_queue (c := d.config) (r := s.redis) (m := (s.workers i).model) (n := m) with
      hq | ⟨pc, hm, x, j, q, min, hq⟩ <;> simp only [hq]
    · exact .keep
    · exact .pop rfl pc hm.symm (hm ▸ min)
  | admission k b =>
    simp only [step, Option.ite_none_right_eq_some, Option.map_eq_some_iff] at h
    obtain ⟨-, ⟨r', p', es⟩, hp, rfl⟩ := h
    rcases Admit.step_effect hp with rfl | ⟨rfl, -⟩
    · exact .keep
    rcases Admit.serve_queue (c := d.config) (r := s.redis) (p := s.admits k) (m := m) with
      hq | ⟨sub, j, text, x, ts, pc, hm, room, hq⟩ <;> simp only [hq]
    · exact .keep
    · exact .add rfl pc hm room
  | cancel k b =>
    simp only [step, Option.map_eq_some_iff] at h
    obtain ⟨⟨r', p', es⟩, hp, rfl⟩ := h
    rcases Cancel.step_effect hp with rfl | ⟨-, rfl, -⟩
    · exact .keep
    rcases Cancel.serve_queue (r := s.redis) (p := s.cancels k) (m := m) with hq | ⟨j, ts, pc, mem, hq⟩ <;>
      simp only [hq]
    · exact .keep
    · exact .remove rfl pc mem
  | watch k b =>
    simp only [step, Option.map_eq_some_iff] at h
    obtain ⟨⟨r', p', es⟩, hp, rfl⟩ := h
    rcases Watcher.step_redis hp with rfl | ⟨-, rfl⟩
    · exact .keep
    · simp only [Watcher.serve_queue]; exact .keep
  | check k b =>
    simp only [step, Option.map_eq_some_iff] at h
    obtain ⟨⟨r', p', es⟩, hp, rfl⟩ := h
    rcases Checker.step_redis hp with rfl | ⟨-, rfl⟩
    · exact .keep
    · simp only [(Checker.serve_frame (s.checkers k) s.redis).1]; exact .keep
  | tick δ => cases h; exact .keep

/-- An entry of a queue was there before, or comes from an enqueue of its job with its score. -/
theorem queue_entry_of_step (h : step d s a = some s') {x : Double} {j : String}
    (hx : (x, j) ∈ (s'.redis.queue m).entries) : (x, j) ∈ (s.redis.queue m).entries ∨
      ∃ k b sub text ts, a = .admission k b ∧ s.admits k = .enqueueing sub j text x ts := by
  have hw := queue_write (m := m) h
  generalize s'.redis.queue m = q at hw hx
  cases hw with
  | keep => exact .inl hx
  | pop act pc model min =>
    rw [SortedSet.entries_of_popMin min]
    exact .inl (List.mem_cons_of_mem _ hx)
  | remove act pc mem => exact .inl (SortedSet.mem_entries_remove hx)
  | add act pc model room =>
    rcases SortedSet.mem_entries_add hx with he | hx
    · cases he
      exact .inr ⟨_, _, _, _, _, act, pc⟩
    · exact .inl hx

theorem queue_bounded {ok : State ι → Action ι → Prop} (h : (system d).Reach ok s) (m : String) :
    ((s.redis.queue m).card : Int) ≤ d.config.maxQueueDepth m := by
  refine h.invariant (I := fun s => ((s.redis.queue m).card : Int) ≤ d.config.maxQueueDepth m) ?_ ?_
  · change (0 : Int) ≤ d.config.maxQueueDepth m
    unfold AppConfig.maxQueueDepth
    split
    · rename_i mc _; have := mc.depth_pos; omega
    · exact le_rfl
  · intro u a v _ hu _ hs
    have hw := queue_write (m := m) hs
    generalize v.redis.queue m = q at hw
    cases hw with
    | keep => exact hu
    | pop act pc model min => have := SortedSet.card_of_popMin min; omega
    | @add k b sub j text x ts act pc model room => have := SortedSet.card_add (z := u.redis.queue m) j x; omega
    | @remove k b j ts act pc mem => have := SortedSet.card_remove (z := u.redis.queue m) j; omega

end

/-! ## Calls that are turned away -/

namespace Admit

/-- The request and job of a call that the enqueue script turned away. -/
def refused : Admit → Option (Submission × String)
  | refusing sub j | done sub (.rejected j _) => some (sub, j)
  | _ => none

/-- The call is through the enqueue script or its idempotency check, or has raised. -/
def settled : Admit → Bool
  | recording .. | ranking .. | sizing .. | storing .. | done _ (.queued ..) | done _ (.idempotentHit _) | raised => true
  | idle | lookup .. | naming _ | sequencing .. | enqueueing .. | refusing .. | done _ (.rejected ..) => false

section
variable {c : AppConfig} {sha256 : String → String} {r r' : Redis} {p p' : Admit} {a : AdmitAct} {es : List Event}

theorem step_settled (h : p.step c sha256 r a = some (r', p', es)) (hp : p.settled = true) : p'.settled = true := by
  cases a with
  | submit sub | name j => cases p <;> first | (cases hp; done) | cases h
  | go =>
    simp only [step, Option.map_eq_some_iff, Prod.mk.injEq] at h
    obtain ⟨⟨p₁, es₁⟩, hr, -, rfl, -⟩ := h
    cases p with
    | recording | ranking | sizing | storing => cases hr; rfl
    | idle | lookup | naming | sequencing | enqueueing | refusing => cases hp
    | done | raised => cases hr
  | fail took =>
    simp only [step, Option.map_eq_some_iff, Prod.mk.injEq] at h
    obtain ⟨⟨p₁, es₁⟩, hr, -, rfl, -⟩ := h
    cases p <;> cases hr <;> rfl

/-- Until then a call writes nothing but the sequence number. -/
theorem step_unsettled (h : p.step c sha256 r a = some (r', p', es)) (hp : p'.settled = false) :
    r'.queue = r.queue ∧ r'.job = r.job ∧ r'.idem = r.idem := by
  cases a with
  | submit sub =>
    simp only [step] at h
    split at h
    · split at h <;> cases h <;> exact ⟨rfl, rfl, rfl⟩
    · cases h
  | name j => simp only [step] at h; split at h <;> cases h; exact ⟨rfl, rfl, rfl⟩
  | go =>
    simp only [step, Option.map_eq_some_iff, Prod.mk.injEq] at h
    obtain ⟨⟨p₁, es₁⟩, hr, rfl, rfl, -⟩ := h
    cases p with
    | lookup | sequencing | refusing => exact ⟨rfl, rfl, rfl⟩
    | enqueueing sub j text x ts =>
      simp only [resume] at hr
      split at hr
      · rename_i ho; simp only [serve, ho]; exact ⟨rfl, rfl, rfl⟩
      · cases hr; cases hp
      · cases hr; cases hp
      · split at hr <;> cases hr <;> cases hp
    | recording | ranking | sizing | storing => cases hr; cases hp
    | idle | naming | done | raised => cases hr
  | fail took =>
    simp only [step, Option.map_eq_some_iff, Prod.mk.injEq] at h
    obtain ⟨⟨p₁, es₁⟩, hr, -, rfl, -⟩ := h
    cases p <;> cases hr <;> cases hp

theorem step_refused (h : p.step c sha256 r a = some (r', p', es)) {q : Submission × String}
    (hq : p'.refused = some q) : p.refused = some q ∨
      a = .go ∧ (∃ text x ts, p = .enqueueing q.1 q.2 text x ts) ∧
        c.maxQueueDepth q.1.model ≤ (r.queue q.1.model).card := by
  cases a with
  | submit sub =>
    simp only [step] at h
    split at h
    · split at h <;> cases h <;> cases hq
    · cases h
  | name j => simp only [step] at h; split at h <;> cases h; cases hq
  | go =>
    simp only [step, Option.map_eq_some_iff, Prod.mk.injEq] at h
    obtain ⟨⟨p₁, es₁⟩, hr, -, rfl, -⟩ := h
    cases p with
    | lookup | sequencing => simp only [resume] at hr; (repeat' split at hr) <;> cases hr <;> cases hq
    | enqueueing sub j text x ts =>
      simp only [resume] at hr
      split at hr
      · rename_i ho
        cases hr; cases hq
        exact .inr ⟨rfl, ⟨text, x, ts, rfl⟩, Redis.enqueueOutcome_full.mp ho⟩
      · cases hr; cases hq
      · cases hr; cases hq
      · split at hr <;> cases hr <;> cases hq
    | refusing sub j => cases hr; cases hq; exact .inl rfl
    | recording | ranking | sizing | storing => cases hr; cases hq
    | idle | naming | done | raised => cases hr
  | fail took =>
    simp only [step, Option.map_eq_some_iff, Prod.mk.injEq] at h
    obtain ⟨⟨p₁, es₁⟩, hr, -, rfl, -⟩ := h
    cases p <;> cases hr <;> cases hq

theorem step_hit (h : p.step c sha256 r a = some (r', p', es)) {sub : Submission} {j : String}
    (hp : p' = done sub (.idempotentHit j)) :
    ∃ h e, p = lookup sub h ∧ r.idem h = some e ∧ e.value = j := by
  subst hp
  cases a with
  | submit sub =>
    simp only [step] at h
    split at h
    · split at h <;> cases h
    · cases h
  | name j => simp only [step] at h; split at h <;> cases h
  | go =>
    simp only [step, Option.map_eq_some_iff, Prod.mk.injEq] at h
    obtain ⟨⟨p₁, es₁⟩, hr, -, rfl, -⟩ := h
    cases p with
    | lookup sub' h =>
      simp only [resume] at hr
      split at hr <;> cases hr
      exact ⟨h, _, rfl, ‹_›, rfl⟩
    | sequencing | enqueueing => simp only [resume] at hr; (repeat' split at hr) <;> cases hr
    | refusing | recording | ranking | sizing | storing => cases hr
    | idle | naming | done | raised => cases hr
  | fail took =>
    simp only [step, Option.map_eq_some_iff, Prod.mk.injEq] at h
    obtain ⟨⟨p₁, es₁⟩, hr, -, rfl, -⟩ := h
    cases p <;> cases hr

end

end Admit

section
variable {ι : Type} [DecidableEq ι] {d : Deployment ι} {s s' t : State ι} {a : Action ι}

theorem settled_of_leads {ok : State ι → Action ι → Prop} (hl : (system d).Leads ok s t) {k : Nat}
    (hs : (s.admits k).settled = true) : (t.admits k).settled = true := by
  refine hl.invariant (I := fun t => (t.admits k).settled = true) hs fun u a v _ hu _ hstep => ?_
  rcases admit_of_step hstep k with h | ⟨b, es, -, h, -⟩
  · rw [h]; exact hu
  · exact Admit.step_settled h hu

/-- The call was at its enqueue script when the queue was full, and the script turned it away. -/
def TurnedAway (d : Deployment ι) (s : State ι) (k : Nat) (sub : Submission) (j : String) : Prop :=
  ∃ u u' text x ts, (system d).Reach Machine.Any u ∧ u.admits k = .enqueueing sub j text x ts ∧
    d.config.maxQueueDepth sub.model ≤ (u.redis.queue sub.model).card ∧ step d u (.admission k .go) = some u' ∧
    (u'.admits k).refused = some (sub, j) ∧ (system d).Leads Machine.Any u' s

theorem turned_away (h : (system d).Reach Machine.Any s) {k : Nat} {q : Submission × String}
    (hq : (s.admits k).refused = some q) : TurnedAway d s k q.1 q.2 := by
  refine h.invariant (I := fun s => ∀ q, (s.admits k).refused = some q → TurnedAway d s k q.1 q.2)
    (fun q hq => by cases hq) ?_ q hq
  intro u a v hr hu _ hs q hq
  rcases admit_of_step hs k with hk | ⟨b, es, rfl, hk, -⟩
  · rw [hk] at hq
    obtain ⟨w, w', text, x, ts, hw, pc, full, hgo, href, hl⟩ := hu q hq
    exact ⟨w, w', text, x, ts, hw, pc, full, hgo, href, hl.step trivial hs⟩
  · rcases Admit.step_refused hk hq with hq' | ⟨rfl, ⟨text, x, ts, pc⟩, full⟩
    · obtain ⟨w, w', text, x, ts, hw, pc, full, hgo, href, hl⟩ := hu q hq'
      exact ⟨w, w', text, x, ts, hw, pc, full, hgo, href, hl.step trivial hs⟩
    · exact ⟨u, v, text, x, ts, hr, pc, full, hs, hq, .refl⟩

theorem unborn_of_step (hl : Life s) (h : step d s a = some s') {j : String} (hj : stage s.trace j = .unborn)
    (hn : ∀ k, (s.admits k).unborn ≠ some j) : stage s'.trace j = .unborn := by
  have hm := stage_move (j := j) hl h
  generalize stage s'.trace j = x at hm
  cases hm with
  | keep => exact hj
  | @enqueue k b sub text x ts act pc was => exact absurd (by rw [pc]; rfl) (hn k)
  | pop act takes pc first was redis | claim act pc free was redis | forward act pc was redis
  | cancelled act pc was redis =>
    rw [hj] at was; cases was

theorem born_of_step (hl : Life s) (h : step d s a = some s') {j : String} (hj : stage s.trace j ≠ .unborn) :
    stage s'.trace j ≠ .unborn := by
  obtain ⟨es, hes⟩ := events_of_step h
  have legal := (life_step hl h).legal
  rw [hes] at legal ⊢
  exact Lifecycle.stage_append_keep (L := jobLifecycle) (P := fun x => x ≠ .unborn)
    (fun hm _ => Stage.Moves.ne_unborn ⟨_, _, hm⟩) legal hj

structure Refusals (s : State ι) : Prop where
  refused : ∀ k q, (s.admits k).refused = some q →
    q.2 ∈ s.issued ∧ stage s.trace q.2 = .unborn ∧ ∀ l, (s.admits l).unborn ≠ some q.2
  record : ∀ h e, s.redis.idem h = some e → stage s.trace e.value ≠ .unborn
  hit : ∀ k sub j, s.admits k = .done sub (.idempotentHit j) → stage s.trace j ≠ .unborn

theorem Admit.not_both {p : Admit} {q : Submission × String} {j : String} (h : p.refused = some q)
    (h' : p.unborn = some j) : False := by
  cases p <;> cases h' <;> cases h

theorem Admit.unsettled_of_refused {p : Admit} {q : Submission × String} (h : p.refused = some q) :
    p.settled = false := by
  cases p with
  | refusing => rfl
  | done sub o => cases o <;> first | rfl | cases h
  | _ => cases h

theorem issued_of_step (h : step d s a = some s') {j : String} (hj : j ∈ s.issued) : j ∈ s'.issued := by
  cases a with
  | admission k b =>
    simp only [step, Option.ite_none_right_eq_some, Option.map_eq_some_iff] at h
    obtain ⟨-, -, -, rfl⟩ := h; exact List.mem_append_right _ hj
  | worker i b | cancel k b | watch k b | check k b =>
    simp only [step, Option.map_eq_some_iff] at h
    obtain ⟨-, -, rfl⟩ := h; exact hj
  | tick δ => cases h; exact hj

/-- A call that still has a job to enqueue had it before, or has just been given a new name for it. -/
theorem naming_of_step (h : step d s a = some s') {k : Nat} {j : String}
    (hj : (s'.admits k).unborn = some j) : (s.admits k).unborn = some j ∨ j ∉ s.issued := by
  rcases admit_of_step h k with hk | ⟨b, es, rfl, hk, -⟩
  · exact .inl (hk ▸ hj)
  · cases Admit.step_turn hk with
    | quiet moves queue unborn =>
      rcases unborn j hj with h | rfl
      · exact .inl h
      · simp only [step, Option.ite_none_right_eq_some] at h
        exact .inr (h.1 j (List.mem_singleton_self j))
    | file pc moves queue unborn => rw [unborn] at hj; cases hj

theorem refused_step (hl : Life s) (hx : Refusals s) (h : step d s a = some s') {k : Nat} {q : Submission × String}
    (hq : (s'.admits k).refused = some q) :
    q.2 ∈ s'.issued ∧ stage s'.trace q.2 = .unborn ∧ ∀ l, (s'.admits l).unborn ≠ some q.2 := by
  have known : q.2 ∈ s.issued ∧ stage s.trace q.2 = .unborn ∧ stage s'.trace q.2 = .unborn ∧
      ∀ l, (s.admits l).unborn = some q.2 → l = k := by
    have before : (s.admits k).refused = some q → q.2 ∈ s.issued ∧ stage s.trace q.2 = .unborn ∧
        stage s'.trace q.2 = .unborn ∧ ∀ l, (s.admits l).unborn = some q.2 → l = k := fun hq' => by
      obtain ⟨hi, hu, hn⟩ := hx.refused k q hq'
      exact ⟨hi, hu, unborn_of_step hl h hu hn, fun l hl => absurd hl (hn l)⟩
    rcases admit_of_step h k with hk | ⟨b, es, rfl, hk, ht⟩
    · exact before (hk ▸ hq)
    rcases Admit.step_refused hk hq with hq' | ⟨rfl, ⟨text, x, ts, pc⟩, -⟩
    · exact before hq'
    obtain ⟨hi, hu⟩ := hl.unborn k q.2 (by rw [pc]; rfl)
    refine ⟨hi, hu, ?_, fun l hl' => hl.distinct l k q.2 hl' (by rw [pc]; rfl)⟩
    -- the script that turned the call away left the queue as it was
    have same := (Admit.step_unsettled hk (Admit.unsettled_of_refused hq)).1
    cases Admit.step_turn hk with
    | quiet moves => rw [ht, stage, Lifecycle.stage_append_none (L := jobLifecycle) moves]; exact hu
    | @file sub j text' x' ts' pc' moves queue =>
      rw [pc] at pc'; cases pc'
      have : q.2 ∈ s.redis.queue q.1.model := by
        rw [← same, queue]; simp [Redis.addQueued]
      rw [hl.queue, hu] at this; cases this
  obtain ⟨hi, -, hu', hn⟩ := known
  refine ⟨issued_of_step h hi, hu', fun l hl' => ?_⟩
  rcases naming_of_step h hl' with h' | h'
  · cases hn l h'; exact Admit.not_both hq hl'
  · exact h' hi

theorem refusals {ok : State ι → Action ι → Prop} (h : (system d).Reach ok s) : Refusals s :=
  h.invariant ⟨fun _ _ h => by (cases h), fun _ _ h => by (cases h), fun _ _ _ h => by (cases h)⟩
    fun u a v hr hx _ hs => {
    refused := fun _ _ => refused_step (life hr) hx hs
    record := fun h e he => by
      rcases idem_of_step hs he with he | ⟨k, b, sub, j, -, pc, -, rfl⟩
      · exact born_of_step (life hr) hs (hx.record h e he)
      · exact born_of_step (life hr) hs ((life hr).admitted k (sub, j) (by rw [pc]; rfl))
    hit := fun k sub j hj => by
      rcases admit_of_step hs k with hk | ⟨b, es, rfl, hk, -⟩
      · exact born_of_step (life hr) hs (hx.hit k sub j (hk ▸ hj))
      · obtain ⟨h, e, -, he, rfl⟩ := Admit.step_hit hk hj
        change step d u (.admission k b) = some v at hs
        exact born_of_step (life hr) hs (hx.record h e he) }

/-- The queue stays within its depth. A call is rejected only if its script found the queue full; until
then none of its steps has changed a queue, a hash or an idempotency record; and no queue, hash, record
or reply mentions its job. -/
theorem rejection_exact (h : (system d).Reach Machine.Any s) :
    (∀ m, ((s.redis.queue m).card : Int) ≤ d.config.maxQueueDepth m) ∧
      ∀ k sub j n, s.admits k = .done sub (.rejected j n) →
        TurnedAway d s k sub j ∧
        (∀ u b u', step d u (.admission k b) = some u' → (system d).Leads Machine.Any u' s →
          u'.redis.queue = u.redis.queue ∧ u'.redis.job = u.redis.job ∧ u'.redis.idem = u.redis.idem) ∧
        (∀ m, j ∉ s.redis.queue m) ∧ s.redis.job j = none ∧ (∀ h e, s.redis.idem h = some e → e.value ≠ j) ∧
        ∀ l sub', s.admits l ≠ .done sub' (.idempotentHit j) := by
  have hl := life h
  have hx := refusals h
  refine ⟨queue_bounded h, fun k sub j n hk => ?_⟩
  have hq : (s.admits k).refused = some (sub, j) := by rw [hk]; rfl
  have unborn : stage s.trace j = .unborn := (hx.refused k _ hq).2.1
  refine ⟨turned_away h hq, fun u b u' hs hu => ?_, fun m hm => ?_, hl.absent j unborn, fun h e he hv => ?_,
    fun l sub' hl' => ?_⟩
  · have unsettled : (u'.admits k).settled = false := by
      by_contra hc
      have := settled_of_leads hu (Bool.not_eq_false _ ▸ hc)
      rw [Admit.unsettled_of_refused hq] at this; cases this
    simp only [step, Option.ite_none_right_eq_some, Option.map_eq_some_iff] at hs
    obtain ⟨-, ⟨r', p', es⟩, hp, rfl⟩ := hs
    simp only [Function.update_self] at unsettled
    exact Admit.step_unsettled hp unsettled
  · rw [hl.queue, unborn] at hm; cases hm
  · exact hx.record h e he (hv ▸ unborn)
  · exact hx.hit l sub' j hl' unborn

end

/-- The queue holds one job; the second request of the same caller is rejected. -/
theorem rejection_exact_run : ∃ s, (system (chatWorkers 1 1 1 (Int.le_refl 1) (Int.le_refl 1))).Reach Machine.Any s ∧
    "a" ∈ s.redis.queue "chat" ∧ s.admits 1 = .done (chatRequest (.obj []) .null (some "k")) (.rejected "b" 10) ∧
      TurnedAway (chatWorkers 1 1 1 (Int.le_refl 1) (Int.le_refl 1)) s 1 (chatRequest (.obj []) .null (some "k")) "b" ∧
      s.redis.job "b" = none ∧ ∀ h e, s.redis.idem h = some e → e.value ≠ "b" := by
  obtain ⟨s, hr, ha, hb⟩ := (system (chatWorkers 1 1 1 (Int.le_refl 1) (Int.le_refl 1))).reach_of_exec Machine.Any
    (admitRun 0 (chatRequest (.obj []) .null none) "a" ++
      [.admission 1 (.submit (chatRequest (.obj []) .null (some "k"))), .admission 1 .go, .admission 1 (.name "b")] ++
      List.replicate 3 (.admission 1 .go))
    (fun s => "a" ∈ s.redis.queue "chat" ∧
      s.admits 1 = .done (chatRequest (.obj []) .null (some "k")) (.rejected "b" 10)) (by decide +kernel)
  obtain ⟨away, -, -, hash, record, -⟩ := (rejection_exact hr).2 1 _ "b" 10 hb
  exact ⟨s, hr, ha, hb, away, hash, record⟩

/-! ## The order of claims -/

section
variable {c : AppConfig} {r r' : Redis} {w w' : Worker} {b : WorkerAct} {es : List Event} {j : String}

theorem Pc.unclaimed_job {pc : Pc} (h : pc.unclaimed = some j) : pc.job = some j := by
  cases pc <;> first | exact h | cases h

theorem Pc.unclaimed_at {pc : Pc} {m : String} {x : Stage} (h : pc.unclaimed = some j) (hx : pc.At m x) :
    x = .popped m := by
  cases pc <;> first | exact hx | cases h

theorem Pc.slot_of_unclaimed {pc : Pc} (h : pc.unclaimed = some j) : pc.slot = none := by
  cases pc with
  | waitSlot | claiming => rfl
  | _ => cases h

theorem Pc.exists_at {pc : Pc} (m : String) (hj : pc.job = some j) :
    pc.unclaimed = some j ∨ ∃ x, pc.At m x ∧ x ≠ .popped m := by
  cases pc with
  | waitSlot | claiming => exact .inl hj
  | tracking | fetching | cleaning => exact .inr ⟨.claimed m, rfl, nofun⟩
  | forwarding | marking | publishing => exact .inr ⟨.forwarded m, rfl, nofun⟩
  | releasing | announcing => exact .inr ⟨.claimed m, .inl rfl, nofun⟩
  | poll | popping | exited | crashed => cases hj

theorem Worker.go_of_popped (h : w.step c r b = some (r', w', es)) (pc : w.pc = .popping) (pc' : w'.pc = .waitSlot j) :
    b = .go := by
  cases b with
  | go => rfl
  | fail took | cancel took =>
    simp only [step, pc, Pc.onError, Pc.interrupt, Option.map_some, Option.ite_none_right_eq_some, Option.some.injEq,
      Prod.mk.injEq] at h
    simp [← h.2] at pc'
  | respond o => simp [step, pc] at h
  | timeout | start =>
    simp only [step, pc, Option.ite_none_right_eq_some, Option.some.injEq, Prod.mk.injEq] at h
    simp [← h.2.2.1] at pc'
  | stop | kill =>
    cases h
    simp [pc] at pc'

/-- A job comes into a worker's hands by a pop and waits there for its claim. -/
theorem Worker.step_unclaimed (h : w.step c r b = some (r', w', es)) (hj : w'.pc.unclaimed = some j) :
    w.pc.unclaimed = some j ∨ b = .go ∧ w.pc = .popping ∧ r.firstQueued w.model = some j := by
  cases step_turn h with
  | quiet moves queue job sound =>
    rcases Pc.exists_at w.model (job j (Pc.unclaimed_job hj)) with hu | ⟨x, hx, hne⟩
    · exact .inl hu
    · have := Pc.unclaimed_at hj (step_model h ▸ sound x hx)
      exact absurd this (step_model h ▸ hne)
  | @pop k first moves redis pc pc' =>
    rcases pc' with pc' | pc'
    · rw [pc'] at hj; cases hj; exact .inr ⟨go_of_popped h pc pc', pc, first⟩
    · rw [Pc.unclaimed_job hj] at pc'; cases pc'
  | claim act pc pc' => rw [pc'] at hj; cases hj
  | forward act pc pc' => rw [pc'] at hj; cases hj

end

section
variable {ι : Type} [DecidableEq ι] {d : Deployment ι} {s s' : State ι} {a : Action ι} {i : ι} {j : String}

theorem born_of_leads {ok : State ι → Action ι → Prop} (hr : (system d).Reach ok s) (hl : (system d).Leads ok s s')
    {k : String} (hk : stage s.trace k ≠ .unborn) : stage s'.trace k ≠ .unborn :=
  hl.invariant (I := fun t => stage t.trace k ≠ .unborn) hk fun _ _ _ hu hk _ hs =>
    born_of_step (life (hr.leads hu)) hs hk

/-- The pop of worker `i` that took the job, from `u` to `v`, took the first of the queue, the worker has had the job
in its hands from then on, and whoever is now ahead of it was not yet enqueued at the pop. -/
def PoppedFirst (d : Deployment ι) (s : State ι) (i : ι) (m j : String) : Prop :=
  ∃ u v x q, (system d).Reach Machine.Any u ∧ (u.workers i).pc = .popping ∧
    (u.redis.queue m).popMin? = some (x, j, q) ∧ step d u (.worker i .go) = some v ∧ v.redis.queue m = q ∧
    (system d).Leads (fun w _ => (w.workers i).pc.unclaimed = some j) v s ∧
    ∀ y k, (y, k) ∈ (s.redis.queue m).entries → y < x → stage u.trace k = .unborn

theorem PoppedFirst.step {m : String} (hp : PoppedFirst d s i m j) (h : step d s a = some s') (hl : Life s)
    (held : (s.workers i).pc.unclaimed = some j) : PoppedFirst d s' i m j := by
  obtain ⟨u, v, x, q, hr, pc, hq, pop, rest, hv, ahead⟩ := hp
  have hu : (system d).Leads Machine.Any u s := (Machine.Leads.refl.step (a := .worker i .go) trivial pop).trans hv.any
  refine ⟨u, v, x, q, hr, pc, hq, pop, rest, hv.step held h, fun y k hk hy => ?_⟩
  rcases queue_entry_of_step h hk with hk | ⟨l, b, sub, text, ts, -, pc⟩
  · exact ahead y k hk hy
  · by_contra hb
    exact born_of_leads hr hu hb (hl.unborn l k (by rw [pc]; rfl)).2

end

end AdmissionScheduler
