import AdmissionScheduler.Turns

/-!
# Every job is in one place

`Life` says where each job is: not yet enqueued, in one queue, in the hands of
one worker, or through. Every run keeps it, and with it the trace stays legal,
so a job is forwarded at most once and never after it was cancelled in the queue.
-/

namespace AdmissionScheduler

/-! ## Stages only move on -/

def Stage.Moves (x y : Stage) : Prop := ∃ (e : Event) (j : String), e.move = some (j, x, y)

theorem Stage.Moves.claimed {m : String} {x y : Stage} (h : Moves x y) (hx : x.Claimed m) : y.Claimed m := by
  obtain ⟨e, j, he⟩ := h
  cases e <;> cases he <;> rcases hx with hx | hx <;> cases hx
  exact .inr rfl

theorem Stage.Moves.ne_unborn {x y : Stage} (h : Moves x y) : y ≠ .unborn := by
  obtain ⟨e, j, he⟩ := h
  cases e <;> cases he <;> (intro h; cases h)

theorem Stage.Moves.not_cancelled {m : String} {x y : Stage} (h : Moves x y) : x ≠ .cancelled m := by
  obtain ⟨e, j, he⟩ := h
  cases e <;> cases he <;> (intro h; cases h)

inductive Shift (st st' : String → Stage) : Prop
  | same (eq : st' = st)
  | move {j y} (moves : (st j).Moves y) (eq : st' = Function.update st j y)

theorem Shift.stable {st st' : String → Stage} (h : Shift st st') {P : Stage → Prop}
    (hP : ∀ x y, Stage.Moves x y → P x → P y) (j : String) (hj : P (st j)) : P (st' j) := by
  cases h with
  | same eq => rw [eq]; exact hj
  | move moves eq =>
    rename_i k y
    by_cases hk : j = k
    · subst hk; rw [eq, Function.update_self]; exact hP _ _ moves hj
    · rw [eq, Function.update_of_ne hk]; exact hj

/-! ## The invariant -/

structure Life {ι : Type} (s : State ι) : Prop where
  legal : LegalTrace s.trace
  queue : ∀ m j, j ∈ s.redis.queue m ↔ stage s.trace j = .queued m
  worker : ∀ i, (s.workers i).pc.Sound (stage s.trace) (s.workers i).model
  exclusive : Exclusive (fun w => w.pc.job) s.workers
  unborn : ∀ k j, (s.admits k).unborn = some j → j ∈ s.issued ∧ stage s.trace j = .unborn
  distinct : Exclusive Admit.unborn s.admits
  admitted : ∀ k q, (s.admits k).admitted = some q → stage s.trace q.2 ≠ .unborn
  issued : ∀ j, stage s.trace j ≠ .unborn → j ∈ s.issued
  inflight : ∀ m j, j ∈ s.redis.inflight m → (stage s.trace j).Claimed m
  pending : ∀ k m js, (s.watchers k).pending = some (m, js) → ∀ j ∈ js, (stage s.trace j).Claimed m
  cancel : ∀ k, (s.cancels k).Sound (stage s.trace)
  absent : ∀ j, stage s.trace j = .unborn → s.redis.job j = none

section
variable {ι : Type} [DecidableEq ι] {d : Deployment ι} {s s' : State ι}

omit [DecidableEq ι] in
theorem life_init : Life (initState d) where
  legal := trivial
  queue m j := by simp [initState, AppConfig.initRedis, stage, jobLifecycle, Lifecycle.stage]
  worker i j hj := by cases hj
  exclusive i k j hj := by cases hj
  unborn k j hj := by cases hj
  distinct k l j hj := by cases hj
  admitted k q hq := by cases hq
  issued j hj := absurd rfl hj
  inflight m j hj := by simp [initState, AppConfig.initRedis] at hj
  pending k m js h := by cases h
  cancel k j hj := by cases hj
  absent j _ := rfl

omit [DecidableEq ι] in
/-- The parties that only know that a job was enqueued, claimed or cancelled keep what they know. -/
theorem Life.stable {t : List Event} (hl : Life s) (hsh : Shift (stage s.trace) (stage t)) :
    (∀ k q, (s.admits k).admitted = some q → stage t q.2 ≠ .unborn) ∧
      (∀ m j, j ∈ s.redis.inflight m → (stage t j).Claimed m) ∧
      (∀ k m js, (s.watchers k).pending = some (m, js) → ∀ j ∈ js, (stage t j).Claimed m) ∧
      (∀ k, (s.cancels k).Sound (stage t)) := by
  have hc : ∀ m j, (stage s.trace j).Claimed m → (stage t j).Claimed m := fun m j =>
    hsh.stable (fun _ _ hm hx => hm.claimed hx) j
  have hu : ∀ j, stage s.trace j ≠ .unborn → stage t j ≠ .unborn := fun j =>
    hsh.stable (fun _ _ hm _ => hm.ne_unborn) j
  refine ⟨fun k q hq => hu _ (hl.admitted k q hq), fun m j hj => hc m j (hl.inflight m j hj),
    fun k m js hp j hj => hc m j (hl.pending k m js hp j hj), fun k j hj => ?_⟩
  have ha := hl.cancel k j hj
  cases hp : s.cancels k with
  | script | marking => rw [hp] at ha; exact hu j ha
  | expiring j' m =>
    rw [hp] at ha
    exact hsh.stable (P := fun x => x = .cancelled m) (fun _ _ hm hx => absurd hx hm.not_cancelled) j ha
  | _ => trivial

theorem Redis.firstQueued_mem {r : Redis} {m j : String} (h : r.firstQueued m = some j) : j ∈ r.queue m := by
  obtain ⟨⟨x, k, q⟩, hp, rfl⟩ := Option.map_eq_some_iff.mp h
  exact (SortedSet.mem_of_popMin hp _).mpr (.inl rfl)

theorem Redis.mem_popQueue {r : Redis} {m j k m' : String} (h : r.firstQueued m = some j) :
    k ∈ (r.popQueue m).queue m' ↔ k ∈ r.queue m' ∧ ¬(m' = m ∧ k = j) := by
  obtain ⟨⟨x, j', q⟩, hp, rfl⟩ := Option.map_eq_some_iff.mp h
  by_cases hm : m' = m
  · subst hm
    have hq := SortedSet.mem_of_popMin hp k
    have hn := SortedSet.popped_notMem hp
    simp only [popQueue, Function.update_self, hp, Option.map_some, Option.getD_some, true_and, hq]
    constructor
    · intro hk; exact ⟨.inr hk, fun e => hn (e ▸ hk)⟩
    · rintro ⟨hk | hk, hne⟩
      · exact absurd hk hne
      · exact hk
  · simp [popQueue, hm]

structure WorkerShift (m : String) (w w' : Pc) (r r' : Redis) (t t' : List Event) : Prop where
  shift : Shift (stage t) (stage t')
  legal : LegalTrace t'
  queue : ∀ m j, j ∈ r'.queue m ↔ stage t' j = .queued m
  sound : w'.Sound (stage t') m
  moved : ∀ j, stage t' j ≠ stage t j → (∃ m, stage t j = .queued m) ∨ w.job = some j
  job : ∀ j, w'.job = some j → (∃ m, stage t j = .queued m) ∨ w.job = some j

theorem WorkerShift.own {m j : String} {w w' : Pc} {r r' : Redis} {es t : List Event} {x y : Stage}
    (moves : es.filterMap Event.move = [(j, x, y)]) (hxy : x.Moves y) (hj : stage t j = x) (hl : LegalTrace t)
    (hq : ∀ m j, j ∈ r.queue m ↔ stage t j = .queued m) (queue : r'.queue = r.queue)
    (hw : w.job = some j) (hw' : w'.job = some j) (hy : w'.At m y)
    (hne : ∀ m', x ≠ .queued m' ∧ y ≠ .queued m') : WorkerShift m w w' r r' t (es ++ t) := by
  have hst : stage (es ++ t) = Function.update (stage t) j y :=
    Lifecycle.stage_append_move (L := jobLifecycle) moves
  exact {
    shift := .move (by rw [hj]; exact hxy) hst
    legal := Lifecycle.legal_append_move (L := jobLifecycle) moves hj hl
    queue := fun m k => by
      rw [queue, hq, hst, Function.update_apply]
      by_cases hk : k = j
      · subst hk; rw [if_pos rfl, hj]; simp [(hne m).1, (hne m).2]
      · rw [if_neg hk]
    sound := fun k hk => by
      rw [hw'] at hk; cases hk; rw [hst, Function.update_self]; exact hy
    moved := fun k hk => by
      by_cases he : k = j
      · subst he; exact .inr hw
      · rw [hst, Function.update_of_ne he] at hk; exact absurd rfl hk
    job := fun k hk => by rw [hw'] at hk; cases hk; exact .inr hw }

theorem Worker.Turn.shift {a : WorkerAct} {r r' : Redis} {w w' : Worker} {es t : List Event}
    (ht : Worker.Turn a r r' w w' es)
    (hl : LegalTrace t) (hq : ∀ m j, j ∈ r.queue m ↔ stage t j = .queued m)
    (hs : w.pc.Sound (stage t) w.model) : WorkerShift w.model w.pc w'.pc r r' t (es ++ t) := by
  cases ht with
  | quiet moves queue job sound =>
    have hst : stage (es ++ t) = stage t := funext (Lifecycle.stage_append_none (L := jobLifecycle) moves)
    exact {
      shift := .same hst
      legal := Lifecycle.legal_append_none (L := jobLifecycle) moves hl
      queue := by rw [queue, hst]; exact hq
      sound := fun j hj => by rw [hst]; exact sound _ (hs j (job j hj))
      moved := fun j hj => absurd (congrFun hst j) hj
      job := fun j hj => .inr (job j hj) }
  | @pop j first moves redis pc pc' =>
    have hj : stage t j = .queued w.model := (hq _ _).mp (Redis.firstQueued_mem first)
    have hst : stage (es ++ t) = Function.update (stage t) j (.popped w.model) :=
      Lifecycle.stage_append_move (L := jobLifecycle) moves
    exact {
      shift := .move ⟨.popped w.model j, j, by rw [hj]; rfl⟩ hst
      legal := Lifecycle.legal_append_move (L := jobLifecycle) moves hj hl
      queue := fun m k => by
        rw [redis, Redis.mem_popQueue first, hst, hq, Function.update_apply]
        by_cases hk : k = j
        · subst hk; rw [if_pos rfl, hj]; simp [eq_comm]
        · simp [hk]
      sound := fun k hk => by
        rcases pc' with pc' | pc' <;> rw [pc'] at hk
        · cases hk; rw [pc', hst, Function.update_self]; rfl
        · cases hk
      moved := fun k hk => by
        by_cases he : k = j
        · subst he; exact .inl ⟨_, hj⟩
        · rw [hst, Function.update_of_ne he] at hk; exact absurd rfl hk
      job := fun k hk => by
        rcases pc' with pc' | pc' <;> rw [pc'] at hk
        · cases hk; exact .inl ⟨_, hj⟩
        · cases hk }
  | @claim j ts t₀ act pc pc' moves redis free =>
    have hj : stage t j = .popped w.model := by have := hs j (by rw [pc]; rfl); rwa [pc] at this
    exact .own moves ⟨.claimed w.model j, j, rfl⟩ hj hl hq (by rw [redis]; rfl) (by rw [pc]; rfl)
      (by rw [pc']; rfl) (by rw [pc']; rfl) (fun _ => ⟨nofun, nofun⟩)
  | @forward j info e act pc pc' moves redis hash payload =>
    have hj : stage t j = .claimed w.model := by have := hs j (by rw [pc]; rfl); rwa [pc] at this
    exact .own moves ⟨.forwarded w.model j .null, j, rfl⟩ hj hl hq (by rw [redis]) (by rw [pc]; rfl)
      (by rw [pc']; rfl) (by rw [pc']; rfl) (fun _ => ⟨nofun, nofun⟩)

theorem life_worker {i : ι} {a : WorkerAct} (hl : Life s) (h : step d s (.worker i a) = some s') : Life s' := by
  simp only [step, Option.map_eq_some_iff] at h
  obtain ⟨⟨r', w', es⟩, hw, rfl⟩ := h
  have hsh := (Worker.step_turn hw).shift hl.legal hl.queue (hl.worker i)
  obtain ⟨hadm, hinf, hpen, hcan⟩ := hl.stable hsh.shift
  have others : ∀ k, k ≠ i → ∀ j, (s.workers k).pc.job = some j → stage (es ++ s.trace) j = stage s.trace j := by
    intro k hk j hj
    by_contra hm
    rcases hsh.moved j hm with ⟨m, hm⟩ | hi
    · exact (hl.worker k).ne_queued hj hm
    · exact hk (hl.exclusive k i j hj hi)
  have unborn : ∀ j, stage s.trace j = .unborn → stage (es ++ s.trace) j = .unborn := by
    intro j hj
    by_contra hm
    rcases hsh.moved j (by rw [hj]; exact hm) with ⟨m, h⟩ | hi
    · rw [hj] at h; cases h
    · exact (hl.worker i).ne_unborn hi hj
  have born : ∀ j, stage (es ++ s.trace) j = .unborn → stage s.trace j = .unborn := by
    intro j hj
    by_contra hm
    exact hsh.shift.stable (P := fun x => x ≠ .unborn) (fun _ _ h _ => h.ne_unborn) j hm hj
  exact {
    legal := hsh.legal
    queue := hsh.queue
    worker := fun k => by
      by_cases hk : k = i
      · subst hk; simp only [Function.update_self, Worker.step_model hw]; exact hsh.sound
      · simp only [Function.update_of_ne hk]; exact (hl.worker k).congr (others k hk)
    exclusive := hl.exclusive.update fun j hj k hk => by
      rcases hsh.job j hj with ⟨m, hm⟩ | hi
      · exact absurd hm ((hl.worker k).ne_queued hk)
      · exact hl.exclusive k i j hk hi
    unborn := fun k j hj => ⟨(hl.unborn k j hj).1, unborn j (hl.unborn k j hj).2⟩
    distinct := hl.distinct
    admitted := hadm
    issued := fun j hj => hl.issued j fun h => hj (unborn j h)
    inflight := fun m j hj => by
      rcases Worker.step_redis hw with h | ⟨-, h⟩ <;> simp only [h] at hj
      · exact hinf m j hj
      · rcases Pc.serve_inflight hj with hj | ⟨rfl, t, ht⟩
        · exact hinf m j hj
        · have := hl.worker i j (by rw [ht]; rfl)
          rw [ht] at this
          exact hsh.shift.stable (P := Stage.Claimed _) (fun _ _ hm hx => hm.claimed hx) j (.inl this)
    pending := hpen
    cancel := hcan
    absent := fun j hj => by
      have hj := born j hj
      rcases Worker.step_redis hw with h | ⟨-, h⟩ <;> simp only [h]
      · exact hl.absent j hj
      · rw [Pc.serve_job fun hi => (hl.worker i).ne_unborn hi hj]
        exact hl.absent j hj }

theorem life_admit {k : Nat} {a : AdmitAct} (hl : Life s) (h : step d s (.admission k a) = some s') : Life s' := by
  simp only [step, Option.ite_none_right_eq_some, Option.map_eq_some_iff] at h
  obtain ⟨hfresh, ⟨r', p', es⟩, hp, rfl⟩ := h
  have issued : ∀ j, j ∈ s.issued → j ∈ a.issues ++ s.issued := fun j hj => List.mem_append_right _ hj
  have inflight := (Admit.step_slots hp).2.1
  cases Admit.step_turn hp with
  | quiet moves queue unborn admitted job =>
    have hst : stage (es ++ s.trace) = stage s.trace := funext (Lifecycle.stage_append_none (L := jobLifecycle) moves)
    have fresh : ∀ j, a = .name j → j ∉ s.issued := fun j ha => hfresh j (by rw [ha]; simp [AdmitAct.issues])
    exact {
      legal := Lifecycle.legal_append_none (L := jobLifecycle) moves hl.legal
      queue := by simp only [queue, hst]; exact hl.queue
      worker := by simp only [hst]; exact hl.worker
      exclusive := hl.exclusive
      unborn := fun l j hj => by
        simp only [hst]
        by_cases hlk : l = k
        · subst hlk
          simp only [Function.update_self] at hj
          rcases unborn j hj with h | rfl
          · exact ⟨issued j (hl.unborn l j h).1, (hl.unborn l j h).2⟩
          · refine ⟨by simp [AdmitAct.issues], ?_⟩
            by_contra hn
            exact fresh j rfl (hl.issued j hn)
        · simp only [Function.update_of_ne hlk] at hj
          exact ⟨issued j (hl.unborn l j hj).1, (hl.unborn l j hj).2⟩
      distinct := hl.distinct.update fun j hj l hlj => by
        rcases unborn j hj with h | h
        · exact hl.distinct l k j hlj h
        · exact absurd (hl.unborn l j hlj).1 (fresh j h)
      admitted := fun l q hq => by
        simp only [hst]
        by_cases hlk : l = k
        · subst hlk; simp only [Function.update_self] at hq; exact hl.admitted l q (admitted q hq)
        · simp only [Function.update_of_ne hlk] at hq; exact hl.admitted l q hq
      issued := fun j hj => issued j (hl.issued j (by simpa only [hst] using hj))
      inflight := by simp only [inflight, hst]; exact hl.inflight
      pending := by simp only [hst]; exact hl.pending
      cancel := by simp only [hst]; exact hl.cancel
      absent := fun j hj => by
        simp only [hst] at hj
        simp only [job j fun q hq e => hl.admitted k q hq (e ▸ hj)]
        exact hl.absent j hj }
  | @file sub j text score ts pc moves queue unborn admitted job =>
    have hu := hl.unborn k j (by rw [pc]; rfl)
    have hst : stage (es ++ s.trace) = Function.update (stage s.trace) j (.queued sub.model) :=
      Lifecycle.stage_append_move (L := jobLifecycle) moves
    have hsh : Shift (stage s.trace) (stage (es ++ s.trace)) :=
      .move ⟨.misfiled sub.model j, j, by rw [hu.2]; rfl⟩ hst
    obtain ⟨hadm, hinf, hpen, hcan⟩ := hl.stable hsh
    have others : ∀ j', stage s.trace j' ≠ .unborn → stage (es ++ s.trace) j' = stage s.trace j' := by
      intro j' hj'
      rw [hst, Function.update_of_ne]
      rintro rfl; exact hj' hu.2
    have unborn_ne : ∀ j', stage (es ++ s.trace) j' = .unborn → j' ≠ j ∧ stage s.trace j' = .unborn := by
      intro j' hj'
      have hne : j' ≠ j := by rintro rfl; rw [hst, Function.update_self] at hj'; cases hj'
      exact ⟨hne, by rwa [hst, Function.update_of_ne hne] at hj'⟩
    exact {
      legal := Lifecycle.legal_append_move (L := jobLifecycle) moves hu.2 hl.legal
      queue := fun m j' => by
        simp only [queue, hst, Redis.addQueued, Function.update_apply]
        by_cases hm : m = sub.model <;> by_cases hj : j' = j
        · subst hm hj; simp
        · subst hm; simp [hj, hl.queue]
        · subst hj; simp only [if_neg hm, if_true, hl.queue, hu.2]; simp [Ne.symm hm]
        · simp only [if_neg hm, if_neg hj]; exact hl.queue m j'
      worker := fun i => (hl.worker i).congr fun j' hj' => others j' ((hl.worker i).ne_unborn hj')
      exclusive := hl.exclusive
      unborn := fun l j' hj' => by
        by_cases hlk : l = k
        · subst hlk; simp only [Function.update_self, unborn] at hj'; cases hj'
        · simp only [Function.update_of_ne hlk] at hj'
          have hne : j' ≠ j := by rintro rfl; exact hlk (hl.distinct l k j' hj' (by rw [pc]; rfl))
          refine ⟨issued j' (hl.unborn l j' hj').1, ?_⟩
          rw [hst, Function.update_of_ne hne]; exact (hl.unborn l j' hj').2
      distinct := hl.distinct.update fun j' hj' => by rw [unborn] at hj'; cases hj'
      admitted := fun l q hq => by
        by_cases hlk : l = k
        · subst hlk
          simp only [Function.update_self] at hq
          rw [(admitted q hq).1, hst, Function.update_self]; intro h; cases h
        · simp only [Function.update_of_ne hlk] at hq; exact hadm l q hq
      issued := fun j' hj' => by
        by_cases hj : j' = j
        · subst hj; exact issued j' hu.1
        · rw [hst, Function.update_of_ne hj] at hj'; exact issued j' (hl.issued j' hj')
      inflight := by simp only [inflight]; exact hinf
      pending := hpen
      cancel := hcan
      absent := fun j' hj' => by
        obtain ⟨hne, hj'⟩ := unborn_ne j' hj'
        simp only [job j' hne]; exact hl.absent j' hj' }

theorem life_cancel {k : Nat} {a : CancelAct} (hl : Life s) (h : step d s (.cancel k a) = some s') : Life s' := by
  simp only [step, Option.map_eq_some_iff] at h
  obtain ⟨⟨r', p', es⟩, hp, rfl⟩ := h
  have inflight := (Cancel.step_slots hp).2.1
  have known : ∀ j, (s.cancels k).job = some j → stage s.trace j ≠ .unborn := by
    intro j hj
    have ha := hl.cancel k j hj
    cases hc : s.cancels k <;> rw [hc] at hj ha <;> cases hj
    · exact ha
    · rw [ha]; intro h; cases h
    · exact ha
  have absent : ∀ j, stage s.trace j = .unborn → r'.job j = none := by
    intro j hj
    rcases Cancel.step_effect hp with h | ⟨-, h, -⟩ <;> rw [h]
    · exact hl.absent j hj
    · rw [Cancel.serve_job fun hi => known j hi hj]; exact hl.absent j hj
  cases Cancel.step_turn hp with
  | quiet moves queue job =>
    have hst : stage (es ++ s.trace) = stage s.trace := funext (Lifecycle.stage_append_none (L := jobLifecycle) moves)
    exact {
      legal := Lifecycle.legal_append_none (L := jobLifecycle) moves hl.legal
      queue := by simp only [queue, hst]; exact hl.queue
      worker := by simp only [hst]; exact hl.worker
      exclusive := hl.exclusive
      unborn := by simp only [hst]; exact hl.unborn
      distinct := hl.distinct
      admitted := by simp only [hst]; exact hl.admitted
      issued := by simp only [hst]; exact hl.issued
      inflight := by simp only [inflight, hst]; exact hl.inflight
      pending := by simp only [hst]; exact hl.pending
      cancel := fun l j hj => by
        simp only [hst]
        by_cases hlk : l = k
        · subst hlk
          simp only [Function.update_self] at hj ⊢
          rcases job j hj with ⟨h, ha⟩ | ⟨h, ha⟩
          · exact ha _ (hl.cancel l j h)
          · exact ha _ fun hu => by rw [hl.absent j hu] at h; cases h
        · simp only [Function.update_of_ne hlk] at hj ⊢; exact hl.cancel l j hj
      absent := by simp only [hst]; exact absent }
  | @take j m ts pc mem moves redis pc' =>
    have hj : stage s.trace j = .queued m := (hl.queue m j).mp mem
    have hst : stage (es ++ s.trace) = Function.update (stage s.trace) j (.cancelled m) :=
      Lifecycle.stage_append_move (L := jobLifecycle) moves
    obtain ⟨hadm, hinf, hpen, hcan⟩ := hl.stable (.move ⟨.cancelledQueued m j, j, by rw [hj]; rfl⟩ hst)
    have others : ∀ j', (∀ m', stage s.trace j' ≠ .queued m') → stage (es ++ s.trace) j' = stage s.trace j' := by
      intro j' hj'
      rw [hst, Function.update_of_ne]
      rintro rfl; exact hj' m hj
    have unborn : ∀ j', stage (es ++ s.trace) j' = .unborn → stage s.trace j' = .unborn := by
      intro j' hj'
      by_cases he : j' = j
      · subst he; rw [hst, Function.update_self] at hj'; cases hj'
      · rwa [hst, Function.update_of_ne he] at hj'
    exact {
      legal := Lifecycle.legal_append_move (L := jobLifecycle) moves hj hl.legal
      queue := fun m' j' => by
        simp only [redis, Redis.cancelQueued, Redis.hset, Redis.removeQueued, hst, Function.update_apply]
        by_cases hm : m' = m <;> by_cases he : j' = j
        · subst hm he; simp
        · subst hm; simp [he, hl.queue]
        · subst he; simp [hm, hl.queue, hj, Ne.symm hm]
        · simp [hm, he, hl.queue]
      worker := fun i => (hl.worker i).congr fun j' hj' => others j' fun m' => (hl.worker i).ne_queued hj'
      exclusive := hl.exclusive
      unborn := fun l j' hj' => by
        obtain ⟨hi, hu⟩ := hl.unborn l j' hj'
        refine ⟨hi, ?_⟩
        rw [others j' fun m' h => by rw [hu] at h; cases h]; exact hu
      distinct := hl.distinct
      admitted := hadm
      issued := fun j' hj' => by
        by_cases he : j' = j
        · subst he; exact hl.issued j' (by rw [hj]; intro h; cases h)
        · rw [hst, Function.update_of_ne he] at hj'; exact hl.issued j' hj'
      inflight := by simp only [inflight]; exact hinf
      pending := hpen
      cancel := fun l j' hj' => by
        by_cases hlk : l = k
        · subst hlk
          simp only [Function.update_self] at hj' ⊢
          rcases pc' with rfl | rfl <;> cases hj'
          rw [hst, Function.update_self]; rfl
        · simp only [Function.update_of_ne hlk] at hj' ⊢; exact hcan l j' hj'
      absent := fun j' hj' => absent j' (unborn j' hj') }

omit [DecidableEq ι] in
/-- A step that moves no job, of a party of which the other parties need to know nothing. -/
theorem Life.frame {t : List Event} {r : Redis} {ws : Nat → Watcher} {cs : Nat → Checker} (hl : Life s)
    (moves : t.filterMap Event.move = []) (queue : r.queue = s.redis.queue)
    (inflight : ∀ m j, j ∈ r.inflight m → j ∈ s.redis.inflight m)
    (job : ∀ j, stage s.trace j = .unborn → s.redis.job j = none → r.job j = none)
    (pending : ∀ k m js, (ws k).pending = some (m, js) → ∀ j ∈ js, (stage s.trace j).Claimed m) :
    Life { s with redis := r, watchers := ws, checkers := cs, trace := t ++ s.trace } := by
  have hst : stage (t ++ s.trace) = stage s.trace := funext (Lifecycle.stage_append_none (L := jobLifecycle) moves)
  exact {
    legal := Lifecycle.legal_append_none (L := jobLifecycle) moves hl.legal
    queue := by simp only [queue, hst]; exact hl.queue
    worker := by simp only [hst]; exact hl.worker
    exclusive := hl.exclusive
    unborn := by simp only [hst]; exact hl.unborn
    distinct := hl.distinct
    admitted := by simp only [hst]; exact hl.admitted
    issued := by simp only [hst]; exact hl.issued
    inflight := fun m j hj => by simp only [hst]; exact hl.inflight m j (inflight m j hj)
    pending := by simp only [hst]; exact pending
    cancel := by simp only [hst]; exact hl.cancel
    absent := fun j hj => by simp only [hst] at hj; exact job j hj (hl.absent j hj) }

theorem life_watch {k : Nat} {a : WatchAct} (hl : Life s) (h : step d s (.watch k a) = some s') : Life s' := by
  simp only [step, Option.map_eq_some_iff] at h
  obtain ⟨⟨r', p', es⟩, hp, rfl⟩ := h
  have redis := Watcher.step_redis hp
  refine hl.frame (Watcher.step_moves hp) ?_ ?_ ?_ ?_
  · rcases redis with rfl | ⟨-, rfl⟩
    · rfl
    · exact Watcher.serve_queue
  · intro m j hj
    rcases redis with rfl | ⟨-, rfl⟩
    · exact hj
    · exact Watcher.serve_inflight hj
  · intro j hu hj
    rcases redis with rfl | ⟨-, rfl⟩
    · exact hj
    · refine (Watcher.serve_job fun q hq hm => ?_).trans hj
      rcases hl.pending k q.1 q.2 hq j hm with h | h <;> rw [hu] at h <;> cases h
  · intro l m js hq j hj
    by_cases hlk : l = k
    · subst hlk
      simp only [Function.update_self] at hq
      rcases Watcher.step_pending hp hq hj with ⟨js', hq', hj'⟩ | hj'
      · exact hl.pending l m js' hq' j hj'
      · exact hl.inflight m j hj'
    · simp only [Function.update_of_ne hlk] at hq; exact hl.pending l m js hq j hj

theorem life_check {k : Nat} {a : CheckAct} (hl : Life s) (h : step d s (.check k a) = some s') : Life s' := by
  simp only [step, Option.map_eq_some_iff] at h
  obtain ⟨⟨r', p', es⟩, hp, rfl⟩ := h
  obtain ⟨hq, hi, hj, -⟩ := Checker.serve_frame (s.checkers k) s.redis
  rcases Checker.step_redis hp with rfl | ⟨-, rfl⟩
  · exact hl.frame (Checker.step_moves hp) rfl (fun _ _ h => h) (fun _ _ h => h) hl.pending
  · exact hl.frame (Checker.step_moves hp) hq (by rw [hi]; exact fun _ _ h => h) (by rw [hj]; exact fun _ _ h => h)
      hl.pending

theorem life_step {a : Action ι} (hl : Life s) (h : step d s a = some s') : Life s' := by
  cases a with
  | worker i a => exact life_worker hl h
  | admission k a => exact life_admit hl h
  | cancel k a => exact life_cancel hl h
  | watch k a => exact life_watch hl h
  | check k a => exact life_check hl h
  | tick δ =>
    cases h
    exact hl.frame (t := []) rfl rfl (fun _ _ h => h) (fun j _ h => by simp [Redis.tick, h]) hl.pending

theorem life {ok : State ι → Action ι → Prop} (h : (system d).Reach ok s) : Life s :=
  h.invariant life_init fun _ _ _ _ hl _ hs => life_step hl hs

end

/-! ## What a step does to one job -/

def Stage.model : Stage → Option String
  | .unborn => none
  | .queued m | .popped m | .claimed m | .forwarded m | .cancelled m => some m

def jobModel {ι : Type} (s : State ι) (j : String) : Option String := (stage s.trace j).model

inductive StageMove {ι : Type} (s : State ι) (a : Action ι) (s' : State ι) (j : String) : Stage → Prop
  | keep : StageMove s a s' j (stage s.trace j)
  | enqueue {k b sub text x ts} (act : a = .admission k b) (pc : s.admits k = .enqueueing sub j text x ts)
      (was : stage s.trace j = .unborn) : StageMove s a s' j (.queued sub.model)
  | pop {i b} (act : a = .worker i b) (takes : b.takes = true) (pc : (s.workers i).pc = .popping)
      (first : s.redis.firstQueued (s.workers i).model = some j) (was : stage s.trace j = .queued (s.workers i).model)
      (redis : s'.redis = s.redis.popQueue (s.workers i).model) :
    StageMove s a s' j (.popped (s.workers i).model)
  | claim {i ts} (act : a = .worker i .go) (pc : (s.workers i).pc = .claiming j ts)
      (free : s.redis.slotFree (s.workers i).model = true) (was : stage s.trace j = .popped (s.workers i).model)
      (redis : s'.redis = s.redis.claimSlot (s.workers i).model j ts) :
    StageMove s a s' j (.claimed (s.workers i).model)
  | forward {i} (act : a = .worker i .go) (pc : (s.workers i).pc = .fetching j)
      (was : stage s.trace j = .claimed (s.workers i).model)
      (redis : s'.redis = s.redis) : StageMove s a s' j (.forwarded (s.workers i).model)
  | cancelled {k b m ts} (act : a = .cancel k b) (pc : s.cancels k = .script j m ts) (was : stage s.trace j = .queued m)
      (redis : s'.redis = s.redis.cancelQueued m j ts) :
    StageMove s a s' j (.cancelled m)

section
variable {ι : Type} [DecidableEq ι] {d : Deployment ι} {s s' : State ι} {a : Action ι} {j : String}

omit [DecidableEq ι] in
theorem StageMove.quiet {es : List Event} (moves : es.filterMap Event.move = []) :
    StageMove s a s' j (stage (es ++ s.trace) j) := by
  rw [stage, Lifecycle.stage_append_none (L := jobLifecycle) moves]; exact .keep

omit [DecidableEq ι] in
theorem StageMove.own {es : List Event} {k : String} {x y : Stage} (moves : es.filterMap Event.move = [(k, x, y)])
    (h : j = k → StageMove s a s' j y) : StageMove s a s' j (stage (es ++ s.trace) j) := by
  rw [stage, Lifecycle.stage_append_move (L := jobLifecycle) moves, Function.update_apply]
  split
  · exact h ‹_›
  · exact .keep

theorem stage_move (hl : Life s) (h : step d s a = some s') : StageMove s a s' j (stage s'.trace j) := by
  cases a with
  | worker i b =>
    simp only [step, Option.map_eq_some_iff] at h
    obtain ⟨⟨r', w', es⟩, hw, rfl⟩ := h
    have at' : ∀ {k}, (s.workers i).pc.job = some k → (s.workers i).pc.At (s.workers i).model (stage s.trace k) :=
      fun hk => hl.worker i _ hk
    cases Worker.step_turn hw with
    | quiet moves => exact .quiet moves
    | pop first moves redis pc pc' =>
      refine .own moves ?_
      rintro rfl
      have mem := Redis.firstQueued_mem first
      rcases Worker.step_redis hw with hr | ⟨takes, -⟩
      · rw [← hr, redis, Redis.mem_popQueue first] at mem; exact absurd ⟨rfl, rfl⟩ mem.2
      · exact .pop rfl takes pc first ((hl.queue _ _).mp mem) redis
    | @claim k ts t act pc pc' moves redis free =>
      refine .own moves ?_
      rintro rfl
      have := at' (k := j) (by rw [pc]; rfl)
      rw [pc] at this; exact .claim (by rw [act]) pc free this redis
    | @forward k info e act pc pc' moves redis =>
      refine .own moves ?_
      rintro rfl
      have := at' (k := j) (by rw [pc]; rfl)
      rw [pc] at this; exact .forward (by rw [act]) pc this redis
  | admission k b =>
    simp only [step, Option.ite_none_right_eq_some, Option.map_eq_some_iff] at h
    obtain ⟨-, ⟨r', p', es⟩, hp, rfl⟩ := h
    cases Admit.step_turn hp with
    | quiet moves => exact .quiet moves
    | file pc moves =>
      refine .own moves ?_
      rintro rfl; exact .enqueue rfl pc (hl.unborn k j (by rw [pc]; rfl)).2
  | cancel k b =>
    simp only [step, Option.map_eq_some_iff] at h
    obtain ⟨⟨r', p', es⟩, hp, rfl⟩ := h
    cases Cancel.step_turn hp with
    | quiet moves => exact .quiet moves
    | take pc mem moves redis =>
      refine .own moves ?_
      rintro rfl; exact .cancelled rfl pc ((hl.queue _ _).mp mem) redis
  | watch k b =>
    simp only [step, Option.map_eq_some_iff] at h
    obtain ⟨⟨r', p', es⟩, hp, rfl⟩ := h
    exact .quiet (Watcher.step_moves hp)
  | check k b =>
    simp only [step, Option.map_eq_some_iff] at h
    obtain ⟨⟨r', p', es⟩, hp, rfl⟩ := h
    exact .quiet (Checker.step_moves hp)
  | tick δ => cases h; exact .keep

end

/-! ## At most one dispatch -/

def Event.forwards (j : String) : Event → Bool
  | .forwarded _ k _ => k = j
  | _ => false

def forwards (t : List Event) (j : String) : Nat := t.countP (Event.forwards j)

theorem forwards_le_one {t : List Event} (hl : LegalTrace t) (j : String) : forwards t j ≤ 1 := by
  refine Nat.le_trans (List.countP_mono_left fun e _ he => ?_)
    (Lifecycle.count_crosses_le_one (n := 3) (k := j) hl)
  cases e <;> simp only [Event.forwards, Bool.false_eq_true, decide_eq_true_eq] at he
  subst he
  exact Lifecycle.crosses_iff.mpr ⟨_, _, rfl, rfl⟩

def Stage.isForwarded : Stage → Bool
  | .forwarded _ => true
  | .unborn | .queued _ | .popped _ | .claimed _ | .cancelled _ => false

/-- A job was forwarded exactly when it is at the stage that only a forward leads to, which is the last one. -/
theorem forwards_eq {t : List Event} (hl : LegalTrace t) (j : String) :
    forwards t j = (stage t j).isForwarded.toNat := by
  cases h : (stage t j).isForwarded with
  | true =>
    obtain ⟨m, hm⟩ : ∃ m, stage t j = .forwarded m := by
      cases hs : stage t j <;> rw [hs] at h <;> cases h; exact ⟨_, rfl⟩
    obtain ⟨e, he, x, hx⟩ := Lifecycle.exists_move_of_stage (L := jobLifecycle) hm nofun
    have : 0 < forwards t j := List.countP_pos_iff.mpr ⟨e, he, by cases e <;> cases hx; simp [Event.forwards]⟩
    exact Nat.le_antisymm (forwards_le_one hl j) this
  | false =>
    refine List.countP_eq_zero.mpr fun e he hf => ?_
    cases e <;> simp only [Event.forwards, Bool.false_eq_true, decide_eq_true_eq] at hf
    subst hf
    have : (4 : Nat) ≤ (stage t _).rank := Lifecycle.rank_le_of_mem (L := jobLifecycle) hl he rfl
    cases hs : stage t _ <;> rw [hs] at this h <;> first | (simp [Stage.rank] at this; done) | cases h

theorem claimed_of_forwarded {t : List Event} (hl : LegalTrace t) {m j : String} {p : Json}
    (h : .forwarded m j p ∈ t) : .claimed m j ∈ t := by
  obtain ⟨e, he, x, hm⟩ := Lifecycle.exists_move_before hl h rfl nofun
  cases e <;> cases hm
  exact he

theorem popped_of_claimed {t : List Event} (hl : LegalTrace t) {m j : String} (h : .claimed m j ∈ t) :
    .popped m j ∈ t := by
  obtain ⟨e, he, x, hm⟩ := Lifecycle.exists_move_before hl h rfl nofun
  cases e <;> cases hm
  exact he

theorem not_popped_of_cancelled {t : List Event} (hl : LegalTrace t) {m m' j : String}
    (h : .cancelledQueued m j ∈ t) : .popped m' j ∉ t := by
  intro hp
  have := Lifecycle.crosses_unique (n := 1) (k := j) hl h hp (Lifecycle.crosses_iff.mpr ⟨_, _, rfl, rfl⟩)
    (Lifecycle.crosses_iff.mpr ⟨_, _, rfl, rfl⟩)
  cases this

section
variable {ι : Type} [DecidableEq ι] {d : Deployment ι} {s : State ι}

omit [DecidableEq ι] in
theorem Life.popped_of_job (hl : Life s) {i : ι} {j : String} (h : (s.workers i).pc.job = some j) :
    ∃ m, .popped m j ∈ s.trace := by
  have hx : ∀ {x : Stage}, stage s.trace j = x → x ≠ .unborn →
      ∃ e ∈ s.trace, ∃ y, Event.move e = some (j, y, x) := fun hx hne =>
    Lifecycle.exists_move_of_stage (L := jobLifecycle) hx hne
  rcases (hl.worker i).popped_or_claimed h with hs | hs | hs <;> obtain ⟨e, he, y, hm⟩ := hx hs nofun <;>
    cases e <;> cases hm
  · exact ⟨_, he⟩
  · exact ⟨_, popped_of_claimed hl.legal he⟩
  · exact ⟨_, popped_of_claimed hl.legal (claimed_of_forwarded hl.legal he)⟩

/-- A job is forwarded at most once. One that `cancel_queued` took out of the queue was never popped,
is in no worker's hands, and is never claimed or forwarded. -/
theorem dispatch_at_most_once (h : (system d).Reach Machine.Any s) (j : String) :
    forwards s.trace j ≤ 1 ∧
      ∀ m, .cancelledQueued m j ∈ s.trace →
        (∀ i, (s.workers i).pc.job ≠ some j) ∧
          ∀ m', .popped m' j ∉ s.trace ∧ .claimed m' j ∉ s.trace ∧ ∀ p, .forwarded m' j p ∉ s.trace := by
  have hl := life h
  refine ⟨forwards_le_one hl.legal j, fun m hm => ⟨fun i hi => ?_, fun m' => ⟨?_, ?_, fun p => ?_⟩⟩⟩
  · obtain ⟨m', hp⟩ := hl.popped_of_job hi
    exact not_popped_of_cancelled hl.legal hm hp
  · exact not_popped_of_cancelled hl.legal hm
  · exact fun hc => not_popped_of_cancelled hl.legal hm (popped_of_claimed hl.legal hc)
  · exact fun hf => not_popped_of_cancelled hl.legal hm (popped_of_claimed hl.legal (claimed_of_forwarded hl.legal hf))

end

/-- Two jobs are admitted, `b` is cancelled in the queue and `a` is forwarded. -/
theorem dispatch_at_most_once_run : ∃ s, (system (twoWorkers 1 (Int.le_refl 1))).Reach Machine.Any s ∧
    (.cancelledQueued "chat" "b" ∈ s.trace ∧ forwards s.trace "a" = 1) ∧ forwards s.trace "a" ≤ 1 ∧
      ∀ m, .cancelledQueued m "b" ∈ s.trace →
        (∀ i, (s.workers i).pc.job ≠ some "b") ∧
          ∀ m', .popped m' "b" ∉ s.trace ∧ .claimed m' "b" ∉ s.trace ∧ ∀ p, .forwarded m' "b" p ∉ s.trace := by
  obtain ⟨s, hr, hp⟩ := (system (twoWorkers 1 (Int.le_refl 1))).reach_of_exec Machine.Any
    (admitRun 0 (chatRequest (.obj []) .null none) "a" ++ admitRun 1 (chatRequest (.obj []) .null none) "b" ++
      [.cancel 0 (.request "b")] ++ List.replicate 4 (.cancel 0 .go) ++ List.replicate 6 (.worker 0 .go))
    (fun s => .cancelledQueued "chat" "b" ∈ s.trace ∧ forwards s.trace "a" = 1) (by decide +kernel)
  exact ⟨s, hr, hp, (dispatch_at_most_once hr "a").1, (dispatch_at_most_once hr "b").2⟩

end AdmissionScheduler
