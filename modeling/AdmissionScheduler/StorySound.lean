import AdmissionScheduler.QueueSound
import AdmissionScheduler.ReleaseSound

/-!
# The lifecycle log

The events that the log holds of one job make up a lifecycle of their own:
`rejected`, or `queued`, `dispatched` and one outcome. Admissions, workers and
the lease watcher each log after a command that the others already see, so the
log keeps this order, and tells every outcome, in runs where nobody acts on a
job between such a command and its event.
-/

namespace AdmissionScheduler

/-! ## What the log tells of a job -/

namespace EventType

def final : EventType → Bool
  | completed | failed | cancelled | workerCrash => true
  | queued | dispatched | rejected => false

def status : EventType → JobStatus
  | queued => .queued
  | dispatched => .dispatched
  | completed => .completed
  | failed | workerCrash => .failed
  | cancelled => .cancelled
  | rejected => .rejected

end EventType

inductive Tale where
  | silent
  | rejected
  | queued
  | dispatched
  | ended (x : EventType)
  deriving DecidableEq

namespace Tale

def rank : Tale → Nat
  | silent => 0
  | rejected | queued => 1
  | dispatched => 2
  | ended _ => 3

def early : Tale → Bool
  | silent | rejected | queued => true
  | dispatched | ended _ => false

def story : Tale → List EventType
  | silent => []
  | rejected => [.rejected]
  | queued => [.queued]
  | dispatched => [.queued, .dispatched]
  | ended x => [.queued, .dispatched, x]

end Tale

def Event.telling : Event → Option (String × Tale × Tale)
  | .emitted x j =>
    match x with
    | .rejected => some (j, .silent, .rejected)
    | .queued => some (j, .silent, .queued)
    | .dispatched => some (j, .queued, .dispatched)
    | .completed | .failed | .cancelled | .workerCrash => some (j, .dispatched, .ended x)
  | _ => none

def logLifecycle : Lifecycle Event String Tale where
  init := .silent
  move := Event.telling
  rank := Tale.rank
  rank_lt {e} := by
    intro k s t h
    cases e with
    | emitted x j => cases x <;> cases h <;> simp [Tale.rank]
    | _ => cases h

def tale (t : List Event) : String → Tale := logLifecycle.stage t

abbrev LegalLog (t : List Event) : Prop := logLifecycle.Legal t

def Event.told (j : String) : Event → Option EventType
  | .emitted x k => if k = j then some x else none
  | _ => none

def story (t : List Event) (j : String) : List EventType := (t.filterMap (Event.told j)).reverse

/-- `rejected`, or a prefix of `queued`, `dispatched` and an outcome, or of `queued`, `cancelled`. -/
def Ordered (l : List EventType) : Prop :=
  l = [.rejected] ∨ (∃ x, x.final = true ∧ l <+: [.queued, .dispatched, x]) ∨ l <+: [.queued, .cancelled]

theorem story_cons (e : Event) (t : List Event) (j : String) :
    story (e :: t) j = story t j ++ (e.told j).toList := by
  unfold story
  cases h : e.told j with
  | none => rw [List.filterMap_cons_none h, Option.toList_none, List.append_nil]
  | some x => rw [List.filterMap_cons_some h, List.reverse_cons, Option.toList_some]

/-- What a legal log holds of a job is read off the stage it has told. -/
theorem story_eq {t : List Event} (hl : LegalLog t) (j : String) : story t j = (tale t j).story := by
  induction t with
  | nil => rfl
  | cons e t ih =>
    rw [story_cons, ih hl.2]
    cases e with
    | emitted x k =>
      by_cases hk : k = j
      · subst hk
        cases x <;>
        · have was : tale t k = _ := hl.1 k _ _ rfl
          rw [was, tale, Lifecycle.stage_cons_self (L := logLifecycle) (k := k) rfl]
          simp [Event.told, Tale.story]
      · have move : ∃ x' y', logLifecycle.move (.emitted x k) = some (k, x', y') := by cases x <;> exact ⟨_, _, rfl⟩
        obtain ⟨x', y', hm⟩ := move
        rw [tale, tale, Lifecycle.stage_cons_ne hm hk]
        simp [Event.told, hk]
    | _ =>
      rw [tale, tale, Lifecycle.stage_cons_none (L := logLifecycle) rfl]
      simp [Event.told]

theorem Tale.story_injective : Function.Injective Tale.story := by
  intro x y h
  cases x <;> cases y <;> cases h <;> rfl

theorem Tale.queued_of_early {x : Tale} (h : x.early = true) (hq : .queued ∈ x.story) : x = .queued := by
  cases x with
  | queued => rfl
  | silent | rejected => simp [story] at hq
  | dispatched | ended => cases h

theorem final_of_ended {t : List Event} {j : String} {x : EventType} (h : tale t j = .ended x) : x.final = true := by
  obtain ⟨e, -, y, hm⟩ := Lifecycle.exists_move_of_stage (L := logLifecycle) h nofun
  cases e with
  | emitted x' k => cases x' <;> cases hm <;> rfl
  | _ => cases hm

theorem Tale.story_ordered {x : Tale} (h : ∀ y, x = .ended y → y.final = true) : Ordered x.story := by
  cases x with
  | silent => exact .inr (.inr (List.nil_prefix))
  | rejected => exact .inl rfl
  | queued => exact .inr (.inr ⟨_, rfl⟩)
  | dispatched => exact .inr (.inl ⟨.completed, rfl, ⟨_, rfl⟩⟩)
  | ended y => exact .inr (.inl ⟨y, h y rfl, List.prefix_rfl⟩)

/-! ## Who logs -/

/-- The job that the worker has forwarded and whose outcome it has still to log. -/
def Pc.unreported : Pc → Option String
  | forwarding j _ | marking j .. | publishing j .. => some j
  | _ => none

/-- The job of a call that has a name for it and has still to log it. -/
def Admit.untold : Admit → Option String
  | sequencing _ j | enqueueing _ j _ _ _ | refusing _ j | recording _ j _ | ranking _ j | sizing _ j _ => some j
  | idle | lookup .. | naming _ | storing .. | done .. | raised => none

/-- The reclaimed job that the watcher has still to log. -/
def Watcher.announced : Watcher → Option String
  | announcing _ j _ | describing _ j _ => some j
  | idle | ranging .. | checking .. | reclaiming .. => none

/-- The job of a cancel request that is not yet answered. -/
def Cancel.request : Cancel → Option String
  | reading j | script j _ _ | expiring j _ | announcing j _ | marking j => some j
  | idle | done .. | raised => none

def Verdict.event : Verdict → EventType
  | completed _ => .completed
  | failed .. => .failed
  | cancelled => .cancelled

@[simp] theorem Verdict.event_status (v : Verdict) : v.event.status = v.status := by cases v <;> rfl

theorem Verdict.report_telling (v : Verdict) (j : String) (info : JobInfo) :
    (v.report j info).filterMap Event.telling = [(j, .dispatched, .ended v.event)] := by cases v <;> rfl

theorem Pc.unreported_job {pc : Pc} {j : String} (h : pc.unreported = some j) : pc.job = some j := by
  cases pc <;> first | exact h | cases h

theorem Pc.served_telling (pc : Pc) (m : String) (r : Redis) (reply : Bool) :
    (pc.served m r reply).filterMap Event.telling = [] := by
  cases pc with
  | popping => simp only [served]; split <;> rfl
  | claiming j ts => simp only [served]; split <;> [cases reply <;> rfl; rfl]
  | _ => rfl

/-- The worker's step leaves the log in order: a dispatch is not logged before the admission, an outcome
once written is logged, and `_cleanup_slot`, which logs none, writes none. -/
def Worker.tells (r : Redis) (t : List Event) (w : Worker) : WorkerAct → Bool
  | .go =>
    match w.pc with
    | .fetching j => (r.job j).isNone || decide (.queued ∈ story t j)
    | .cleaning .. => false
    | _ => true
  | .fail took =>
    match w.pc with
    | .marking j .. => took || !r.ended j
    | .cleaning .. => !took
    | _ => true
  | .cancel took =>
    match w.pc with
    -- `cancelled` is written and logged in its stead
    | .marking _ _ (.completed _) _ | .publishing _ _ (.completed _) => true
    | .marking j .. => !took && !r.ended j
    | .publishing j .. => !r.ended j
    | .cleaning .. => !took
    | _ => true
  | .kill => w.pc.unreported.all fun j => !r.ended j
  | .respond _ | .timeout | .stop | .start => true

section
variable {c : AppConfig} {r r' : Redis} {w w' : Worker} {b : WorkerAct} {t es : List Event} {j : String}

inductive Worker.Tells (r r' : Redis) (t : List Event) (w w' : Worker) (b : WorkerAct) (es : List Event) : Prop
  | quiet (moves : es.filterMap Event.telling = [])
      (gain : ∀ j, w'.pc.unreported = some j → w.pc.unreported = some j)
      (lose : ∀ j, w.pc.unreported = some j → w'.pc.unreported = some j ∨ r.ended j = false ∧ r' = r)
  | dispatch {j info} (act : b = .go) (pc : w.pc = .fetching j) (pc' : w'.pc = .forwarding j info)
      (told : .queued ∈ story t j) (moves : es.filterMap Event.telling = [(j, .queued, .dispatched)])
  | report {j info v} (pc : w.pc = .publishing j info v) (pc' : w'.pc = .afterReport j v) (redis : r' = r)
      (moves : es.filterMap Event.telling = [(j, .dispatched, .ended v.event)])

theorem Worker.tells_go (h : w.step c r .go = some (r', w', es)) (ha : w.tells r t .go = true) :
    Worker.Tells r r' t w w' .go es := by
  obtain ⟨m, stop, pc⟩ := w
  simp only [step, Option.map_eq_some_iff, Prod.mk.injEq] at h
  obtain ⟨⟨pc', es'⟩, hr, rfl, rfl, rfl⟩ := h
  have tell : ∀ {ms}, es'.filterMap Event.telling = ms →
      (es' ++ pc.served m r true).filterMap Event.telling = ms := fun he => by
    rw [List.filterMap_append, Pc.served_telling, List.append_nil, he]
  cases pc with
  | fetching j =>
    simp only [Pc.resume] at hr
    split at hr
    · cases hr; exact .quiet (tell rfl) of_none of_none
    · rename_i e he
      split at hr <;> cases hr
      · exact .quiet (tell rfl) of_none of_none
      · exact .dispatch rfl rfl rfl (by simpa [tells, he] using ha) (tell rfl)
  | publishing j info v => cases hr; exact .report rfl rfl rfl (tell (v.report_telling j info))
  | poll | waitSlot j => cases hr; cases stop <;> exact .quiet (tell rfl) of_none of_none
  | popping =>
    obtain ⟨j, -, hj⟩ := Option.map_eq_some_iff.mp hr
    cases hj; exact .quiet (tell rfl) of_none of_none
  | claiming j ts => cases hr; cases hf : r.slotFree m <;> exact .quiet (tell rfl) (by simp [Pc.unreported]) of_none
  | releasing j next => cases hr; cases next <;> exact .quiet (tell rfl) of_none of_none
  | marking j info v ts => cases hr; exact .quiet (tell rfl) (fun _ h => h) fun _ h => .inl h
  | tracking | cleaning | announcing => cases hr; exact .quiet (tell rfl) of_none of_none
  | forwarding | exited | crashed => cases hr

theorem Worker.tells_fail {took : Bool} (h : w.step c r (.fail took) = some (r', w', es)) :
    Worker.Tells r r' t w w' (.fail took) es := by
  obtain ⟨m, stop, pc⟩ := w
  simp only [step, Option.map_eq_some_iff, Prod.mk.injEq] at h
  obtain ⟨⟨pc', es'⟩, hr, rfl, rfl, rfl⟩ := h
  have tell : ∀ {ms}, es'.filterMap Event.telling = ms →
      (es' ++ if took then pc.served m r false else []).filterMap Event.telling = ms := fun he => by
    rw [List.filterMap_append, he]; cases took <;> simp [Pc.served_telling]
  cases pc with
  | publishing j info v =>
    cases hr
    refine .report rfl rfl (by cases took <;> rfl) (tell ?_)
    rw [List.filterMap_append, v.report_telling]; rfl
  | marking j info v ts => cases hr; exact .quiet (tell rfl) (fun _ h => h) fun _ h => .inl h
  | releasing j next => cases hr; cases next <;> exact .quiet (tell rfl) of_none of_none
  | popping | claiming | tracking | fetching | cleaning | announcing =>
    cases hr; exact .quiet (tell rfl) of_none of_none
  | poll | waitSlot | forwarding | exited | crashed => cases hr

theorem Worker.tells_cancel {took : Bool} (h : w.step c r (.cancel took) = some (r', w', es))
    (ha : w.tells r t (.cancel took) = true) : Worker.Tells r r' t w w' (.cancel took) es := by
  obtain ⟨m, stop, pc⟩ := w
  simp only [step, Option.ite_none_right_eq_some, Option.map_eq_some_iff, Prod.mk.injEq] at h
  obtain ⟨-, pc', hr, rfl, rfl, rfl⟩ := h
  have tell : (if took then pc.served m r false else []).filterMap Event.telling = [] := by
    cases took <;> simp [Pc.served_telling]
  cases pc with
  | forwarding j info => cases hr; exact .quiet tell (fun _ h => h) fun _ h => .inl h
  | marking j info v ts =>
    cases v with
    | completed x => cases hr; exact .quiet tell (fun _ h => h) fun _ h => .inl h
    | failed | cancelled =>
      simp only [tells, Bool.and_eq_true, Bool.not_eq_true'] at ha
      obtain ⟨rfl, ended⟩ := ha
      cases hr
      exact .quiet tell of_none fun k hk => by cases hk; exact .inr ⟨ended, rfl⟩
  | publishing j info v =>
    cases v with
    | completed x => cases hr; exact .quiet tell (fun _ h => h) fun _ h => .inl h
    | failed | cancelled =>
      simp only [tells, Bool.not_eq_true'] at ha
      cases hr
      exact .quiet tell of_none fun k hk => by cases hk; exact .inr ⟨ha, by cases took <;> rfl⟩
  | exited | crashed => cases hr
  | _ => cases hr; exact .quiet tell of_none of_none

theorem Worker.step_tells (h : w.step c r b = some (r', w', es)) (ha : w.tells r t b = true) :
    Worker.Tells r r' t w w' b es := by
  cases b with
  | go => exact tells_go h ha
  | fail took => exact tells_fail h
  | cancel took => exact tells_cancel h ha
  | respond o =>
    obtain ⟨m, stop, pc⟩ := w
    cases pc <;> cases h
    exact .quiet rfl (fun _ h => h) fun _ h => .inl h
  | timeout =>
    simp only [step, Option.ite_none_right_eq_some] at h
    obtain ⟨⟨hp, -⟩, h⟩ := h
    cases h; exact .quiet rfl of_none (by rw [hp]; exact of_none)
  | stop => cases h; exact .quiet rfl (fun _ h => h) fun _ h => .inl h
  | kill =>
    cases h
    refine .quiet rfl of_none fun j hj => .inr ⟨?_, rfl⟩
    simpa [tells, hj] using ha
  | start =>
    simp only [step, Option.ite_none_right_eq_some] at h
    obtain ⟨hp, h⟩ := h
    cases h; exact .quiet rfl of_none (by rcases hp with hp | hp <;> rw [hp] <;> exact of_none)

theorem Worker.step_publishing (h : w.step c r b = some (r', w', es)) {info : JobInfo} {v : Verdict}
    (hj : w'.pc = .publishing j info v) : w.pc = .publishing j info v ∧ r' = r ∨
      ∃ ts, w.pc = .marking j info v ts ∧ (b.takes = true ∨ b = .fail false) := by
  obtain ⟨m, stop, pc⟩ := w
  cases b with
  | go =>
    simp only [step, Option.map_eq_some_iff, Prod.mk.injEq] at h
    obtain ⟨⟨pc', es'⟩, hr, -, rfl, -⟩ := h
    cases pc with
    | marking k info v ts => cases hr; cases hj; exact .inr ⟨ts, rfl, .inl rfl⟩
    | poll | waitSlot => cases hr; cases stop <;> cases hj
    | popping =>
      obtain ⟨k, -, hk⟩ := Option.map_eq_some_iff.mp hr
      cases hk; cases hj
    | claiming k ts => cases hr; cases hf : r.slotFree m <;> simp only [hf] at hj <;> cases hj
    | fetching k =>
      simp only [Pc.resume] at hr
      split at hr
      · cases hr; cases hj
      · split at hr <;> cases hr <;> cases hj
    | releasing k next => cases hr; cases next <;> cases hj
    | tracking | publishing | cleaning | announcing => cases hr; cases hj
    | forwarding | exited | crashed => cases hr
  | fail took =>
    simp only [step, Option.map_eq_some_iff, Prod.mk.injEq] at h
    obtain ⟨⟨pc', es'⟩, hr, -, rfl, -⟩ := h
    cases pc with
    | marking k info v ts =>
      cases hr; cases hj
      exact .inr ⟨ts, rfl, by cases took <;> [exact .inr rfl; exact .inl rfl]⟩
    | releasing k next => cases hr; cases next <;> cases hj
    | popping | claiming | tracking | fetching | publishing | cleaning | announcing => cases hr; cases hj
    | poll | waitSlot | forwarding | exited | crashed => cases hr
  | cancel took =>
    simp only [step, Option.ite_none_right_eq_some, Option.map_eq_some_iff, Prod.mk.injEq] at h
    obtain ⟨-, pc', hr, -, rfl, -⟩ := h
    cases pc with
    | marking k info v ts | publishing k info v => cases v <;> cases hr <;> cases hj
    | exited | crashed => cases hr
    | _ => cases hr; cases hj
  | respond o =>
    simp only [step] at h
    split at h <;> cases h
    cases hj
  | timeout | start =>
    simp only [step, Option.ite_none_right_eq_some] at h
    obtain ⟨-, h⟩ := h; cases h; cases hj
  | stop => cases h; exact .inl ⟨hj, rfl⟩
  | kill => cases h; cases hj

end

section
variable {c : AppConfig} {sha256 : String → String} {r r' : Redis} {es : List Event} {j : String}

inductive Admit.Tells (p p' : Admit) (es : List Event) : Prop
  | quiet (moves : es.filterMap Event.telling = [])
  | reject {sub j} (pc : p = .refusing sub j) (pc' : p'.untold = none)
      (moves : es.filterMap Event.telling = [(j, .silent, .rejected)])
  | queue {sub j pos} (pc : p = .sizing sub j pos) (pc' : p'.untold = none)
      (moves : es.filterMap Event.telling = [(j, .silent, .queued)])

theorem Admit.served_telling (p : Admit) : (p.served c r).filterMap Event.telling = [] := by
  cases p with
  | enqueueing sub j text x ts => simp only [served]; split <;> rfl
  | _ => rfl

theorem Admit.step_tells {p p' : Admit} {a : AdmitAct} (h : p.step c sha256 r a = some (r', p', es)) :
    Admit.Tells p p' es := by
  cases a with
  | submit sub =>
    simp only [step] at h
    split at h
    · split at h <;> cases h <;> exact .quiet rfl
    · cases h
  | name j => simp only [step] at h; split at h <;> cases h; exact .quiet rfl
  | go =>
    simp only [step, Option.map_eq_some_iff, Prod.mk.injEq] at h
    obtain ⟨⟨p₁, es₁⟩, hr, rfl, rfl, rfl⟩ := h
    have tell : ∀ {ms}, es₁.filterMap Event.telling = ms →
        (es₁ ++ p.served c r).filterMap Event.telling = ms := fun he => by
      rw [List.filterMap_append, served_telling, List.append_nil, he]
    cases p with
    | lookup | sequencing | enqueueing =>
      simp only [resume] at hr
      (repeat' split at hr) <;> cases hr <;> exact .quiet (tell rfl)
    | refusing sub j => cases hr; exact .reject rfl rfl (tell rfl)
    | sizing sub j pos => cases hr; exact .queue rfl rfl (tell rfl)
    | recording | ranking | storing => cases hr; exact .quiet (tell rfl)
    | idle | naming | done | raised => cases hr
  | fail took =>
    simp only [step, Option.map_eq_some_iff, Prod.mk.injEq] at h
    obtain ⟨⟨p₁, es₁⟩, hr, rfl, rfl, rfl⟩ := h
    refine .quiet ?_
    have : es₁.filterMap Event.telling = [] := by cases p <;> cases hr <;> rfl
    rw [List.filterMap_append, this]
    cases took <;> simp [served_telling]

theorem Admit.step_untold {p p' : Admit} {a : AdmitAct} (h : p.step c sha256 r a = some (r', p', es))
    (hj : p'.untold = some j) : p.untold = some j ∨ a = .name j := by
  cases a with
  | submit sub =>
    simp only [step] at h
    split at h
    · split at h <;> cases h <;> cases hj
    · cases h
  | name k =>
    simp only [step] at h
    split at h <;> cases h
    cases hj; exact .inr rfl
  | go =>
    simp only [step, Option.map_eq_some_iff, Prod.mk.injEq] at h
    obtain ⟨⟨p₁, es₁⟩, hr, -, rfl, -⟩ := h
    cases p with
    | lookup | sequencing | enqueueing =>
      simp only [resume] at hr
      (repeat' split at hr) <;> cases hr <;> first | exact .inl hj | cases hj
    | recording | ranking => cases hr; exact .inl hj
    | refusing | sizing | storing => cases hr; cases hj
    | idle | naming | done | raised => cases hr
  | fail took =>
    simp only [step, Option.map_eq_some_iff, Prod.mk.injEq] at h
    obtain ⟨⟨p₁, es₁⟩, hr, -, rfl, -⟩ := h
    cases p <;> cases hr <;> cases hj

inductive Watcher.Tells (r r' : Redis) (p p' : Watcher) (es : List Event) : Prop
  | quiet (moves : es.filterMap Event.telling = [])
      (lose : ∀ j, p.announced = some j → p'.announced = some j)
  | report {m j rest} (pc : p = .describing m j rest) (redis : r' = r) (pc' : p'.announced = none)
      (moves : es.filterMap Event.telling = [(j, .dispatched, .ended .workerCrash)])

@[simp] theorem Watcher.announced_next (m : String) (js : List String) : (next m js).announced = none := by
  cases js <;> rfl

theorem Watcher.step_tells {p p' : Watcher} {a : WatchAct} (h : p.step c r a = some (r', p', es))
    (ha : ∀ took, a = .cancel took → p.announced = none) : Watcher.Tells r r' p p' es := by
  cases a with
  | scan m =>
    simp only [step] at h
    split at h
    · split at h <;> cases h; exact .quiet rfl of_none
    · cases h
  | go =>
    simp only [step, Option.map_eq_some_iff, Prod.mk.injEq] at h
    obtain ⟨⟨p₁, es₁⟩, hr, rfl, rfl, rfl⟩ := h
    cases p with
    | announcing m j rest => cases hr; exact .quiet rfl fun _ h => h
    | describing m j rest => cases hr; exact .report rfl rfl (announced_next m rest) rfl
    | ranging | checking | reclaiming => cases hr; exact .quiet rfl of_none
    | idle => cases hr
  | fail took =>
    simp only [step, Option.map_eq_some_iff, Prod.mk.injEq] at h
    obtain ⟨⟨p₁, es₁⟩, hr, rfl, rfl, rfl⟩ := h
    cases p with
    | announcing m j rest => cases hr; exact .quiet (by cases took <;> rfl) fun _ h => h
    | describing m j rest =>
      cases hr
      exact .report rfl (by cases took <;> rfl) (announced_next m rest) (by cases took <;> rfl)
    | ranging | checking | reclaiming => cases hr; exact .quiet (by cases took <;> rfl) of_none
    | idle => cases hr
  | cancel took =>
    obtain ⟨rfl, -, rfl⟩ := step_cancel h
    refine .quiet (by cases p <;> cases took <;> rfl) fun j hj => ?_
    rw [ha took rfl] at hj
    cases hj

theorem Watcher.step_announced {p p' : Watcher} {a : WatchAct} (h : p.step c r a = some (r', p', es))
    (hj : p'.announced = some j) : p.announced = some j ∨
      a = .go ∧ ∃ m rest ts, p = .reclaiming m j rest ts ∧ r' = r.reclaim m j ts := by
  cases a with
  | scan m =>
    simp only [step] at h
    split at h
    · split at h <;> cases h; cases hj
    · cases h
  | go =>
    simp only [step, Option.map_eq_some_iff, Prod.mk.injEq] at h
    obtain ⟨⟨p₁, es₁⟩, hr, rfl, rfl, -⟩ := h
    cases p with
    | reclaiming m k rest ts => cases hr; cases hj; exact .inr ⟨rfl, m, rest, ts, rfl, rfl⟩
    | checking m k rest =>
      cases hr
      split at hj
      · rw [announced_next] at hj; cases hj
      · cases hj
    | announcing => cases hr; exact .inl hj
    | ranging | describing => cases hr; simp at hj
    | idle => cases hr
  | fail took =>
    simp only [step, Option.map_eq_some_iff, Prod.mk.injEq] at h
    obtain ⟨⟨p₁, es₁⟩, hr, -, rfl, -⟩ := h
    cases p with
    | ranging => cases hr; cases hj
    | announcing => cases hr; exact .inl hj
    | checking | reclaiming | describing => cases hr; simp at hj
    | idle => cases hr
  | cancel took =>
    obtain ⟨rfl, -⟩ := step_cancel h
    cases hj

theorem Cancel.step_telling {p p' : Cancel} {a : CancelAct} (h : p.step r a = some (r', p', es)) :
    es.filterMap Event.telling = [] := by
  have served : (p.served r).filterMap Event.telling = [] := by
    cases p with
    | script j m ts => simp only [Cancel.served]; split <;> rfl
    | _ => rfl
  cases a with
  | request j => simp only [step] at h; split at h <;> cases h; rfl
  | go =>
    simp only [step, Option.map_eq_some_iff, Prod.mk.injEq] at h
    obtain ⟨⟨p₁, es₁⟩, hr, -, -, rfl⟩ := h
    rw [List.filterMap_append, served, List.append_nil]
    cases p with
    | reading j => simp only [resume] at hr; (repeat' split at hr) <;> cases hr <;> rfl
    | script | expiring | announcing | marking => cases hr; rfl
    | idle | done | raised => cases hr
  | fail took =>
    simp only [step, Option.map_eq_some_iff, Prod.mk.injEq] at h
    obtain ⟨-, -, -, -, rfl⟩ := h
    cases took <;> simp [served]

theorem Checker.step_telling {p p' : Checker} {a : CheckAct} (h : p.step c r a = some (r', p', es)) :
    es.filterMap Event.telling = [] := by
  cases a with
  | check m =>
    simp only [step] at h
    split at h
    · split at h <;> cases h; rfl
    · cases h
  | card | get | go => simp only [step] at h; split at h <;> cases h; rfl
  | fail took => cases p <;> cases h <;> cases took <;> rfl
  | cancel took =>
    obtain ⟨-, -, rfl⟩ := step_cancel h
    cases p <;> cases took <;> rfl

end

/-! ## Runs that log in time -/

section
variable {ι : Type} {d : Deployment ι} {s s' : State ι} {a : Action ι}

inductive InHand (s : State ι) (j : String) : Prop
  | worker {i} (pc : (s.workers i).pc.job = some j)
  | cancel {k} (pc : (s.cancels k).request = some j)
  | watcher {k} (pc : (s.watchers k).announced = some j)

def Accounted (s : State ι) (j : String) (st : JobStatus) : Prop :=
  (∃ x, tale s.trace j = .ended x ∧ x.status = st) ∨ (∃ i, (s.workers i).pc.unreported = some j) ∨
    ∃ k, (s.watchers k).announced = some j ∧ st = .failed

/-- Where the log stands with each job. -/
structure Told (s : State ι) : Prop where
  legal : LegalLog s.trace
  fresh : ∀ j, j ∉ s.issued → tale s.trace j = .silent
  untold : ∀ k j, (s.admits k).untold = some j → j ∈ s.issued ∧ tale s.trace j = .silent
  distinct : Exclusive Admit.untold s.admits
  early : ∀ j, (∀ m, stage s.trace j ≠ .forwarded m) → (tale s.trace j).early = true
  unreported : ∀ i j, (s.workers i).pc.unreported = some j → tale s.trace j = .dispatched
  announced : ∀ k j, (s.watchers k).announced = some j → tale s.trace j = .dispatched ∧
    (∀ i, (s.workers i).pc.unreported ≠ some j) ∧ ∀ m, j ∉ s.redis.inflight m
  alone : Exclusive Watcher.announced s.watchers
  published : ∀ i j info v, (s.workers i).pc = .publishing j info v →
    ∀ st, s.redis.status j = some st → st.terminal = true → st = v.status
  ended : ∀ j st, s.redis.status j = some st → st.terminal = true → Accounted s j st

theorem told_init : Told (initState d) where
  legal := trivial
  fresh j _ := rfl
  untold k j h := by cases h
  distinct k l j h := by cases h
  early j _ := rfl
  unreported i j h := by cases h
  announced k j h := by cases h
  alone k l j h := by cases h
  published i j info v h := by cases h
  ended j st h := by cases h

inductive TaleMove (s : State ι) (a : Action ι) (s' : State ι) (j : String) : Tale → Prop
  | keep (gain : ∀ i, (s'.workers i).pc.unreported = some j → (s.workers i).pc.unreported = some j)
      (lose : ∀ i, (s.workers i).pc.unreported = some j →
        (s'.workers i).pc.unreported = some j ∨ s.redis.ended j = false ∧ s'.redis = s.redis)
      (watch : ∀ k, (s.watchers k).announced = some j → (s'.watchers k).announced = some j) :
    TaleMove s a s' j (tale s.trace j)
  | reject {k b sub} (act : a = .admission k b) (pc : s.admits k = .refusing sub j) (pc' : (s'.admits k).untold = none)
      (was : tale s.trace j = .silent) : TaleMove s a s' j .rejected
  | queue {k b sub pos} (act : a = .admission k b) (pc : s.admits k = .sizing sub j pos)
      (pc' : (s'.admits k).untold = none) (was : tale s.trace j = .silent) : TaleMove s a s' j .queued
  | dispatch {i info} (act : a = .worker i .go) (pc : (s.workers i).pc = .fetching j)
      (pc' : (s'.workers i).pc = .forwarding j info) (was : tale s.trace j = .queued) : TaleMove s a s' j .dispatched
  | report {i b info v} (act : a = .worker i b) (pc : (s.workers i).pc = .publishing j info v)
      (pc' : (s'.workers i).pc = .afterReport j v) (redis : s'.redis = s.redis)
      (was : tale s.trace j = .dispatched) : TaleMove s a s' j (.ended v.event)
  | crash {k b m rest} (act : a = .watch k b) (pc : s.watchers k = .describing m j rest) (redis : s'.redis = s.redis)
      (pc' : (s'.watchers k).announced = none) (was : tale s.trace j = .dispatched) :
    TaleMove s a s' j (.ended .workerCrash)

theorem Told.quiet {es : List Event} (ht : Told s) (trace : s'.trace = es ++ s.trace)
    (moves : es.filterMap Event.telling = [])
    (gain : ∀ j i, (s'.workers i).pc.unreported = some j → (s.workers i).pc.unreported = some j)
    (lose : ∀ j i, (s.workers i).pc.unreported = some j →
      (s'.workers i).pc.unreported = some j ∨ s.redis.ended j = false ∧ s'.redis = s.redis)
    (watch : ∀ j k, (s.watchers k).announced = some j → (s'.watchers k).announced = some j) :
    LegalLog s'.trace ∧ ∀ j, TaleMove s a s' j (tale s'.trace j) := by
  refine ⟨trace ▸ Lifecycle.legal_append_none (L := logLifecycle) moves ht.legal, fun j => ?_⟩
  rw [trace, tale, Lifecycle.stage_append_none (L := logLifecycle) moves]
  exact .keep (gain j) (lose j) (watch j)

theorem Told.own {es : List Event} {k : String} {x y : Tale} (ht : Told s) (trace : s'.trace = es ++ s.trace)
    (moves : es.filterMap Event.telling = [(k, x, y)]) (was : tale s.trace k = x) (move : TaleMove s a s' k y)
    (gain : ∀ j i, j ≠ k → (s'.workers i).pc.unreported = some j → (s.workers i).pc.unreported = some j)
    (lose : ∀ j i, j ≠ k → (s.workers i).pc.unreported = some j → (s'.workers i).pc.unreported = some j)
    (watch : ∀ j l, j ≠ k → (s.watchers l).announced = some j → (s'.watchers l).announced = some j) :
    LegalLog s'.trace ∧ ∀ j, TaleMove s a s' j (tale s'.trace j) := by
  refine ⟨trace ▸ Lifecycle.legal_append_move (L := logLifecycle) moves was ht.legal, fun j => ?_⟩
  rw [trace, tale, Lifecycle.stage_append_move (L := logLifecycle) moves]
  by_cases hj : j = k
  · subst hj; rw [Function.update_self]; exact move
  · rw [Function.update_of_ne hj]
    exact .keep (gain j · hj) (fun i hi => .inl (lose j i hj hi)) (watch j · hj)

end

section
variable {ι : Type} [Fintype ι] [DecidableEq ι] {d : Deployment ι} {s s' : State ι} {a : Action ι} {i : ι} {j m : String}

/-- Nobody acts on a job between a command and the event that tells of it, no task ends there, that of the watcher
included, and the two commands that write an outcome and have no event, the script of `cancel_job` and the `HSET` of
`_cleanup_slot`, take no effect. A reclaim finds the job dispatched, and abandoned before its outcome. -/
def tells (s : State ι) : Action ι → Bool
  | .worker i b => (s.workers i).tells s.redis s.trace b
  | .cancel k b =>
    match s.cancels k with
    | .script j m _ => !b.takes || j ∉ s.redis.queue m
    | _ => true
  | .watch k b =>
    match s.watchers k, b with
    | .reclaiming m j _ _, b =>
      !b.takes || b = .go && decide (j ∈ s.redis.inflight m) && decide (story s.trace j = [.queued, .dispatched]) &&
        decide (∀ i, (s.workers i).pc.unreported ≠ some j)
    | .announcing .., .cancel _ | .describing .., .cancel _ => false
    | _, _ => true
  | _ => true

theorem log_step (hl : Life s) (ht : Told s) (ha : tells s a = true) (h : step d s a = some s') :
    LegalLog s'.trace ∧ ∀ j, TaleMove s a s' j (tale s'.trace j) := by
  cases a with
  | worker i b =>
    simp only [step, Option.map_eq_some_iff] at h
    obtain ⟨⟨r', w', es⟩, hw, rfl⟩ := h
    have gain {j : String} (own : w'.pc.unreported = some j → (s.workers i).pc.unreported = some j) : ∀ l,
        (Function.update s.workers i w' l).pc.unreported = some j → (s.workers l).pc.unreported = some j :=
      (Function.forall_update_iff s.workers fun l w => w.pc.unreported = some j →
        (s.workers l).pc.unreported = some j).mpr ⟨own, fun _ _ h => h⟩
    have lose {j : String} {P : Prop}
        (own : (s.workers i).pc.unreported = some j → w'.pc.unreported = some j ∨ P) : ∀ l,
        (s.workers l).pc.unreported = some j → (Function.update s.workers i w' l).pc.unreported = some j ∨ P :=
      (Function.forall_update_iff s.workers fun l w => (s.workers l).pc.unreported = some j →
        w.pc.unreported = some j ∨ P).mpr ⟨own, fun _ _ h => .inl h⟩
    cases Worker.step_tells hw ha with
    | quiet moves gain' lose' =>
      exact ht.quiet rfl moves (fun j => gain (gain' j)) (fun j => lose (lose' j)) fun _ _ h => h
    | @dispatch k info act pc pc' told moves =>
      have claimed : stage s.trace k = .claimed (s.workers i).model := by
        have := hl.worker i k (by rw [pc]; rfl)
        rw [pc] at this; exact this
      have was : tale s.trace k = .queued := by
        rw [story_eq ht.legal] at told
        exact Tale.queued_of_early (ht.early k (by rw [claimed]; intro _ h; cases h)) told
      refine ht.own rfl moves was (.dispatch (by rw [act]) pc (by simpa using pc') was) (fun j l hj => gain ?_ l)
        (fun j l _ hl => (lose (P := False) ?_ l hl).resolve_right not_false) fun _ _ _ h => h
      · rw [pc']; intro hk; exact absurd (Option.some.inj hk).symm hj
      · rw [pc]; intro h; cases h
    | @report k info v pc pc' redis moves =>
      have was := ht.unreported i k (by rw [pc]; rfl)
      refine ht.own rfl moves was (.report rfl pc (by simpa using pc') redis was) (fun j l _ => gain ?_ l)
        (fun j l hj hl => (lose (P := False) ?_ l hl).resolve_right not_false) fun _ _ _ h => h
      · rw [pc']; intro h; cases h
      · rw [pc]; intro hk; exact absurd (Option.some.inj hk).symm hj
  | admission k b =>
    simp only [step, Option.ite_none_right_eq_some, Option.map_eq_some_iff] at h
    obtain ⟨-, ⟨r', p', es⟩, hp, rfl⟩ := h
    cases Admit.step_tells hp with
    | quiet moves => exact ht.quiet rfl moves (fun _ _ h => h) (fun _ _ h => .inl h) fun _ _ h => h
    | @reject sub j pc pc' moves =>
      have was := (ht.untold k j (by rw [pc]; rfl)).2
      exact ht.own rfl moves was (.reject rfl pc (by simpa using pc') was) (fun _ _ _ h => h) (fun _ _ _ h => h)
        fun _ _ _ h => h
    | @queue sub j pos pc pc' moves =>
      have was := (ht.untold k j (by rw [pc]; rfl)).2
      exact ht.own rfl moves was (.queue rfl pc (by simpa using pc') was) (fun _ _ _ h => h) (fun _ _ _ h => h)
        fun _ _ _ h => h
  | watch k b =>
    simp only [step, Option.map_eq_some_iff] at h
    obtain ⟨⟨r', p', es⟩, hp, rfl⟩ := h
    have watch {j : String} (own : (s.watchers k).announced = some j → p'.announced = some j) : ∀ l,
        (s.watchers l).announced = some j → (Function.update s.watchers k p' l).announced = some j :=
      (Function.forall_update_iff s.watchers fun l p => (s.watchers l).announced = some j →
        p.announced = some j).mpr ⟨own, fun _ _ h => h⟩
    have told : ∀ took, b = .cancel took → (s.watchers k).announced = none := by
      rintro took rfl
      cases pc : s.watchers k with
      | announcing | describing => simp [tells, pc] at ha
      | _ => rfl
    cases Watcher.step_tells hp told with
    | quiet moves lose => exact ht.quiet rfl moves (fun _ _ h => h) (fun _ _ h => .inl h) fun j => watch (lose j)
    | @report m j rest pc redis pc' moves =>
      have was := (ht.announced k j (by rw [pc]; rfl)).1
      refine ht.own rfl moves was (.crash rfl pc redis (by simpa using pc') was) (fun _ _ _ h => h) (fun _ _ _ h => h)
        fun l n hl => watch ?_ n
      rw [pc]; intro hj; exact absurd (Option.some.inj hj).symm hl
  | cancel k b =>
    simp only [step, Option.map_eq_some_iff] at h
    obtain ⟨⟨r', p', es⟩, hp, rfl⟩ := h
    exact ht.quiet rfl (Cancel.step_telling hp) (fun _ _ h => h) (fun _ _ h => .inl h) fun _ _ h => h
  | check k b =>
    simp only [step, Option.map_eq_some_iff] at h
    obtain ⟨⟨r', p', es⟩, hp, rfl⟩ := h
    exact ht.quiet rfl (Checker.step_telling hp) (fun _ _ h => h) (fun _ _ h => .inl h) fun _ _ h => h
  | tick δ => cases h; exact ht.quiet (List.nil_append _).symm rfl (fun _ _ h => h) (fun _ _ h => .inl h) fun _ _ h => h

end

/-! ## What each step keeps -/

section
variable {ι : Type} [DecidableEq ι] {d : Deployment ι} {s s' : State ι} {a : Action ι} {i : ι} {j m : String}

theorem untold_of_step (h : step d s a = some s') {k : Nat} (hj : (s'.admits k).untold = some j) :
    (s.admits k).untold = some j ∨ (∃ b, a = .admission k b) ∧ j ∉ s.issued ∧ j ∈ s'.issued := by
  rcases admit_of_step h k with hk | ⟨b, es, rfl, hk, -⟩
  · exact .inl (hk ▸ hj)
  rcases Admit.step_untold hk hj with h' | rfl
  · exact .inl h'
  · simp only [step, Option.ite_none_right_eq_some, Option.map_eq_some_iff] at h
    obtain ⟨fresh, -, -, rfl⟩ := h
    exact .inr ⟨⟨_, rfl⟩, fresh j (List.mem_singleton_self j), List.mem_append_left _ (List.mem_singleton_self j)⟩

theorem tracked_of_step (h : step d s a = some s') (hj : j ∈ s'.redis.inflight m) :
    j ∈ s.redis.inflight m ∨ ∃ i t, (s.workers i).pc = .tracking j t := by
  cases a with
  | worker i b =>
    simp only [step, Option.map_eq_some_iff] at h
    obtain ⟨⟨r', w', es⟩, hw, rfl⟩ := h
    rcases Worker.step_redis hw with hr | ⟨-, hr⟩ <;> simp only [hr] at hj
    · exact .inl hj
    rcases Pc.serve_inflight hj with hj | ⟨-, t, pc⟩
    · exact .inl hj
    · exact .inr ⟨i, t, pc⟩
  | admission k b =>
    simp only [step, Option.ite_none_right_eq_some, Option.map_eq_some_iff] at h
    obtain ⟨-, ⟨r', p', es⟩, hp, rfl⟩ := h
    simp only [(Admit.step_slots hp).2.1] at hj; exact .inl hj
  | cancel k b =>
    simp only [step, Option.map_eq_some_iff] at h
    obtain ⟨⟨r', p', es⟩, hp, rfl⟩ := h
    simp only [(Cancel.step_slots hp).2.1] at hj; exact .inl hj
  | watch k b =>
    simp only [step, Option.map_eq_some_iff] at h
    obtain ⟨⟨r', p', es⟩, hp, rfl⟩ := h
    rcases Watcher.step_redis hp with hr | ⟨-, hr⟩ <;> simp only [hr] at hj
    · exact .inl hj
    · exact .inl (Watcher.serve_inflight hj)
  | check k b =>
    simp only [step, Option.map_eq_some_iff] at h
    obtain ⟨⟨r', p', es⟩, hp, rfl⟩ := h
    rcases Checker.step_redis hp with hr | ⟨-, hr⟩ <;> simp only [hr] at hj
    · exact .inl hj
    · rw [(Checker.serve_frame (s.checkers k) s.redis).2.1] at hj; exact .inl hj
  | tick δ => cases h; exact .inl hj

theorem forwarded_stays (hl : Life s) (h : step d s a = some s') (hj : stage s.trace j = .forwarded m) :
    stage s'.trace j = .forwarded m := by
  have hm := stage_move (j := j) hl h
  generalize stage s'.trace j = x at hm ⊢
  cases hm with
  | keep => exact hj
  | enqueue act pc was | pop act takes pc first was | claim act pc free was | forward act pc was
  | cancelled act pc was =>
    rw [hj] at was; cases was

theorem fresh_step (ht : Told s) (h : step d s a = some s') (hm : TaleMove s a s' j (tale s'.trace j))
    (hj : j ∉ s'.issued) : tale s'.trace j = .silent := by
  have unissued : j ∉ s.issued := fun hi => hj (issued_of_step h hi)
  have silent := ht.fresh j unissued
  generalize tale s'.trace j = x at hm ⊢
  cases hm with
  | keep => exact silent
  | reject act pc | queue act pc => exact absurd (ht.untold _ j (by rw [pc]; rfl)).1 unissued
  | dispatch act pc pc' was | report act pc pc' redis was | crash act pc redis pc' was => rw [silent] at was; cases was

theorem untold_step (ht : Told s) (h : step d s a = some s') (hm : TaleMove s a s' j (tale s'.trace j)) {k : Nat}
    (hj : (s'.admits k).untold = some j) : j ∈ s'.issued ∧ tale s'.trace j = .silent := by
  obtain ⟨hi, silent, only⟩ : j ∈ s'.issued ∧ tale s.trace j = .silent ∧
      ∀ l, (s.admits l).untold = some j → l = k := by
    rcases untold_of_step h hj with hk | ⟨-, new, hi⟩
    · obtain ⟨hi, silent⟩ := ht.untold k j hk
      exact ⟨issued_of_step h hi, silent, fun l hl => ht.distinct l k j hl hk⟩
    · exact ⟨hi, ht.fresh j new, fun l hl => absurd (ht.untold l j hl).1 new⟩
  refine ⟨hi, ?_⟩
  generalize tale s'.trace j = x at hm ⊢
  cases hm with
  | keep => exact silent
  | @reject l b sub act pc pc' | @queue l b sub pos act pc pc' =>
    cases only l (by rw [pc]; rfl)
    rw [pc'] at hj; cases hj
  | dispatch act pc pc' was | report act pc pc' redis was | crash act pc redis pc' was => rw [silent] at was; cases was

theorem distinct_step (ht : Told s) (h : step d s a = some s') : Exclusive Admit.untold s'.admits := by
  intro k l j hk hl
  rcases untold_of_step h hk with hk | ⟨⟨b, rfl⟩, new, -⟩ <;> rcases untold_of_step h hl with hl | ⟨⟨b', hb⟩, new', -⟩
  · exact ht.distinct k l j hk hl
  · exact absurd (ht.untold k j hk).1 new'
  · exact absurd (ht.untold l j hl).1 new
  · cases hb; rfl

theorem early_told (ht : Told s) (hl : Life s) (h : step d s a = some s') (hm : TaleMove s a s' j (tale s'.trace j))
    (hj : ∀ m, stage s'.trace j ≠ .forwarded m) : (tale s'.trace j).early = true := by
  have early := ht.early j fun m hs => hj m (forwarded_stays hl h hs)
  generalize tale s'.trace j = x at hm ⊢
  cases hm with
  | keep => exact early
  | reject | queue => rfl
  | @dispatch i info act pc pc' was =>
    have := (life_step hl h).worker i j (by rw [pc']; rfl)
    rw [pc'] at this; exact absurd this (hj _)
  | report act pc pc' redis was | crash act pc redis pc' was => rw [was] at early; cases early

theorem unreported_step (ht : Told s) (hl : Life s) (h : step d s a = some s')
    (hm : TaleMove s a s' j (tale s'.trace j)) (hj : (s'.workers i).pc.unreported = some j) :
    tale s'.trace j = .dispatched := by
  generalize tale s'.trace j = x at hm ⊢
  rcases worker_of_step h i with ⟨hne, hs⟩ | ⟨b, es, rfl, -, -⟩
  · have before : tale s.trace j = .dispatched := ht.unreported i j (hs ▸ hj)
    cases hm with
    | keep => exact before
    | reject act pc pc' was | queue act pc pc' was => rw [before] at was; cases was
    | dispatch => rfl
    | @report l b info v act pc =>
      have same : l = i := hl.exclusive l i j (show (s.workers l).pc.job = some j by rw [pc]; rfl)
        (Pc.unreported_job (hs ▸ hj))
      exact absurd act (same ▸ hne b)
    | @crash k b m rest act pc => exact absurd (hs ▸ hj) ((ht.announced k j (by rw [pc]; rfl)).2.1 i)
  · cases hm with
    | keep gain => exact ht.unreported i j (gain i hj)
    | reject act | queue act | crash act => cases act
    | dispatch => rfl
    | report act pc pc' => cases act; rw [pc'] at hj; cases hj

end

section
variable {ι : Type} [Fintype ι] [DecidableEq ι] {d : Deployment ι} {s s' : State ι} {a : Action ι} {j m : String} {k : Nat}

omit [DecidableEq ι] in
theorem Told.reclaims (ht : Told s) {b : WatchAct} (ha : tells s (.watch k b) = true) {rest : List String} {ts : Nat}
    (pc : s.watchers k = .reclaiming m j rest ts) (takes : b.takes = true) :
    b = .go ∧ j ∈ s.redis.inflight m ∧ tale s.trace j = .dispatched ∧ ∀ i, (s.workers i).pc.unreported ≠ some j := by
  simp only [tells, pc, takes, Bool.not_true, Bool.false_or, Bool.and_eq_true, decide_eq_true_eq] at ha
  obtain ⟨⟨⟨hb, hi⟩, hs⟩, hw⟩ := ha
  rw [story_eq ht.legal] at hs
  exact ⟨hb, hi, Tale.story_injective hs, hw⟩

omit [Fintype ι] in
/-- A job whose dispatch is logged is put in no inflight set any more. -/
theorem Told.inflight_back (ht : Told s) (hl : Life s) (h : step d s a = some s') (hj : tale s.trace j = .dispatched)
    (hi : j ∈ s'.redis.inflight m) : j ∈ s.redis.inflight m := by
  rcases tracked_of_step h hi with hi | ⟨i, t, pc⟩
  · exact hi
  · have claimed := hl.worker i j (by rw [pc]; rfl)
    rw [pc] at claimed
    have early := ht.early j fun m hs => by rw [claimed] at hs; cases hs
    rw [hj] at early; cases early

theorem announced_of_step (ht : Told s) (ha : tells s a = true) (h : step d s a = some s')
    (hj : (s'.watchers k).announced = some j) :
    (s.watchers k).announced = some j ∨ a = .watch k .go ∧
      tale s.trace j = .dispatched ∧ (∀ i, (s.workers i).pc.unreported ≠ some j) ∧
      ∃ m ts, j ∈ s.redis.inflight m ∧ s'.redis = s.redis.reclaim m j ts := by
  rcases watcher_of_step h k with ⟨-, hs⟩ | ⟨b, es, rfl, hs, -⟩
  · exact .inl (hs ▸ hj)
  rcases Watcher.step_announced hs hj with hk | ⟨rfl, m, rest, ts, pc, redis⟩
  · exact .inl hk
  · obtain ⟨-, hi, dispatched, hw⟩ := ht.reclaims ha pc rfl
    exact .inr ⟨rfl, dispatched, hw, m, ts, hi, redis⟩

theorem announced_step (ht : Told s) (hl : Life s) (ha : tells s a = true) (h : step d s a = some s')
    (hm : TaleMove s a s' j (tale s'.trace j)) (hj : (s'.watchers k).announced = some j) :
    tale s'.trace j = .dispatched ∧ (∀ i, (s'.workers i).pc.unreported ≠ some j) ∧ ∀ m, j ∉ s'.redis.inflight m := by
  obtain ⟨dispatched, hw, hi, only⟩ : tale s.trace j = .dispatched ∧ (∀ i, (s.workers i).pc.unreported ≠ some j) ∧
      (∀ m, j ∉ s'.redis.inflight m) ∧ ∀ l, (s.watchers l).announced = some j → l = k := by
    rcases announced_of_step ht ha h hj with hk | ⟨-, dispatched, hw, m, ts, hi, redis⟩
    · obtain ⟨dispatched, hw, hi⟩ := ht.announced k j hk
      refine ⟨dispatched, hw, fun m hm => ?_, fun l hk' => ht.alone l k j hk' hk⟩
      exact hi m (ht.inflight_back hl h dispatched hm)
    · refine ⟨dispatched, hw, fun n hn => ?_, fun l hk' => absurd hi ((ht.announced l j hk').2.2 m)⟩
      have same : n = m := Option.some.inj <|
        (hl.inflight n j (ht.inflight_back hl h dispatched hn)).model.symm.trans (hl.inflight m j hi).model
      subst same
      rw [redis] at hn
      simp [Redis.reclaim, Redis.removeInflight] at hn
  generalize tale s'.trace j = x at hm ⊢
  cases hm with
  | keep gain => exact ⟨dispatched, fun i hi => hw i (gain i hi), hi⟩
  | reject act pc pc' was | queue act pc pc' was | dispatch act pc pc' was => rw [dispatched] at was; cases was
  | @report i b info v act pc => exact absurd (by rw [pc]; rfl) (hw i)
  | @crash l b m rest act pc redis pc' =>
    obtain rfl : l = k := only l (by rw [pc]; rfl)
    rw [pc'] at hj
    cases hj

theorem alone_step (ht : Told s) (ha : tells s a = true) (h : step d s a = some s') :
    Exclusive Watcher.announced s'.watchers := by
  intro k l j hk hl
  rcases announced_of_step ht ha h hk with hk | ⟨act, -, -, m, -, hi, -⟩ <;>
    rcases announced_of_step ht ha h hl with hl | ⟨act', -, -, m', -, hi', -⟩
  · exact ht.alone k l j hk hl
  · exact absurd hi' ((ht.announced k j hk).2.2 m')
  · exact absurd hi ((ht.announced l j hl).2.2 m)
  · rw [act] at act'; cases act'; rfl

theorem published_step (ht : Told s) (hl : Life s) (hp : Priorities d.config s) (ha : tells s a = true)
    (h : step d s a = some s') {i : ι} {info : JobInfo} {v : Verdict} (hj : (s'.workers i).pc = .publishing j info v)
    {st : JobStatus} (hst : s'.redis.status j = some st) (terminal : st.terminal = true) : st = v.status := by
  rcases worker_of_step h i with ⟨hne, hs⟩ | ⟨b, es, rfl, hs, -⟩
  · rw [hs] at hj
    have hi : (s.workers i).pc.job = some j := by rw [hj]; rfl
    have other : ∀ {l b}, a = .worker l b → (s.workers l).pc.job ≠ some j := by
      rintro l b rfl hl'
      exact absurd rfl (hl.exclusive l i j hl' hi ▸ hne b)
    have hw := status_write (j := j) hl hp h
    rw [hst] at hw
    generalize hx : some st = x at hw
    cases hw with
    | keep => exact ht.published i j info v hj st hx.symm terminal
    | purge => cases hx
    | claim | cancelling | enqueue => cases hx; cases terminal
    | mark act takes pc => exact absurd (by rw [pc]; rfl) (other act)
    | clean act pc => exact absurd (by rw [pc]; rfl) (other act)
    | cancelled act mem => exact absurd ((hl.queue _ j).mp mem) ((hl.worker i).ne_queued hi)
    | reclaim act takes pc => subst act; exact absurd (by rw [hj]; rfl) ((ht.reclaims ha pc takes).2.2.2 i)
  · have effect := Worker.step_eq_effect hs
    rcases Worker.step_publishing hs hj with ⟨pc, redis⟩ | ⟨ts, pc, takes | rfl⟩
    · rw [redis] at hst; exact ht.published i j info v pc st hst terminal
    · rw [effect, Worker.effect, if_pos takes, pc, Pc.serve, Redis.finish_status] at hst
      exact (Option.some.inj hst).symm
    · -- the write of the outcome has failed
      have ended : s.redis.ended j = false := by simpa [tells, Worker.tells, pc] using ha
      have same : s'.redis = s.redis := effect
      rw [same] at hst
      rw [Redis.ended_of_status hst, terminal] at ended; cases ended

omit [DecidableEq ι] in
theorem cleans_nothing {i : ι} {b : WorkerAct} (ha : tells s (.worker i b) = true) {ts : Nat}
    (pc : (s.workers i).pc = .cleaning j ts) : b.takes = false := by
  simp only [tells, Worker.tells, pc] at ha
  cases b with
  | go => cases ha
  | fail took | cancel took => cases took <;> [rfl; cases ha]
  | respond | timeout | stop | kill | start => rfl

theorem withdraws_nothing {b : CancelAct} (ha : tells s (.cancel k b) = true) (h : step d s (.cancel k b) = some s')
    (mem : j ∈ s.redis.queue m) : j ∈ s'.redis.queue m := by
  have hw := queue_write (m := m) h
  generalize hq : s'.redis.queue m = q at hw ⊢
  cases hw with
  | keep => exact mem
  | pop act | add act => cases act
  | remove act pc mem' =>
    cases act
    simp only [step, Option.map_eq_some_iff] at h
    obtain ⟨⟨r', p', es⟩, hp, rfl⟩ := h
    rcases Cancel.step_effect hp with same | ⟨takes, -⟩
    · simp only [same] at hq; rw [← hq]; exact mem
    · simp [tells, pc, takes, mem'] at ha

omit [Fintype ι] [DecidableEq ι] in
/-- The worker that had the outcome of `j` to log has done so, or still has it. -/
theorem Told.reported (ht : Told s) (hm : TaleMove s a s' j (tale s'.trace j)) {st : JobStatus}
    (hst : s'.redis.status j = some st) (terminal : st.terminal = true) {i : ι}
    (hi : (s.workers i).pc.unreported = some j) : Accounted s' j st := by
  have before := ht.unreported i j hi
  rw [Accounted]
  generalize tale s'.trace j = x at hm ⊢
  cases hm with
  | keep gain lose =>
    rcases lose i hi with hi' | ⟨ended, same⟩
    · exact .inr (.inl ⟨i, hi'⟩)
    · rw [same] at hst
      rw [Redis.ended_of_status hst, terminal] at ended; cases ended
  | reject act pc pc' was | queue act pc pc' was | dispatch act pc pc' was => rw [before] at was; cases was
  | @report l b info v act pc pc' same =>
    rw [same] at hst
    exact .inl ⟨_, rfl, v.event_status.trans (ht.published l j info v pc st hst terminal).symm⟩
  | @crash l b m rest act pc => exact absurd hi ((ht.announced l j (by rw [pc]; rfl)).2.1 i)

omit [Fintype ι] [DecidableEq ι] in
/-- Without a write of the status an outcome stays accounted for. -/
theorem Told.accounted (ht : Told s) (hm : TaleMove s a s' j (tale s'.trace j)) {st : JobStatus}
    (hst : s'.redis.status j = some st) (terminal : st.terminal = true) (hs : s.redis.status j = some st) :
    Accounted s' j st := by
  rcases ht.ended j st hs terminal with ⟨x, hx, hxs⟩ | ⟨i, hi⟩ | ⟨k, hk, rfl⟩
  · rw [Accounted]
    generalize tale s'.trace j = y at hm ⊢
    cases hm with
    | keep => exact .inl ⟨x, hx, hxs⟩
    | reject act pc pc' was | queue act pc pc' was | dispatch act pc pc' was => rw [hx] at was; cases was
    | report act pc pc' same was | crash act pc same pc' was => rw [hx] at was; cases was
  · exact ht.reported hm hst terminal hi
  · obtain ⟨before, hw, -⟩ := ht.announced k j hk
    rw [Accounted]
    generalize tale s'.trace j = y at hm ⊢
    cases hm with
    | keep gain lose watch => exact .inr (.inr ⟨k, watch k hk, rfl⟩)
    | reject act pc pc' was | queue act pc pc' was | dispatch act pc pc' was => rw [before] at was; cases was
    | @report i b info v act pc => exact absurd (by rw [pc]; rfl) (hw i)
    | crash => exact .inl ⟨_, rfl, rfl⟩

theorem ended_step (ht : Told s) (hl : Life s) (hp : Priorities d.config s) (ha : tells s a = true)
    (h : step d s a = some s') (hm : TaleMove s a s' j (tale s'.trace j)) {st : JobStatus}
    (hst : s'.redis.status j = some st) (terminal : st.terminal = true) : Accounted s' j st := by
  have hw := status_write (j := j) hl hp h
  generalize hx : s'.redis.status j = x at hw
  rw [hst] at hx
  cases hw with
  | keep => exact ht.accounted hm hst terminal hx.symm
  | purge => cases hx
  | claim | cancelling | enqueue => cases hx; cases terminal
  | @mark i b info v ts act takes pc => exact ht.reported hm hst terminal (i := i) (by rw [pc]; rfl)
  | @clean i b ts act pc =>
    subst act
    have takes := cleans_nothing ha pc
    simp only [step, Option.map_eq_some_iff] at h
    obtain ⟨⟨r', w', es⟩, hs, rfl⟩ := h
    have same : r' = s.redis := by simpa [Worker.effect, takes] using Worker.step_eq_effect hs
    subst same
    exact ht.accounted hm hst terminal hst
  | cancelled act mem event =>
    subst act
    have hl' := life_step hl h
    have queued := (hl'.queue _ j).mp (withdraws_nothing ha h mem)
    exact absurd (.inr (.inl ⟨_, queued⟩)) (not_early_of_cancelled hl'.legal event)
  | @reclaim k b m rest ts act takes pc =>
    subst act
    obtain ⟨rfl, -⟩ := ht.reclaims ha pc takes
    cases hx
    refine .inr (.inr ⟨k, ?_, rfl⟩)
    rcases watcher_of_step h k with ⟨hne, -⟩ | ⟨b, es, hb, hs, -⟩
    · exact absurd rfl (hne _)
    · cases hb
      rw [pc] at hs
      simp only [Watcher.step, Watcher.resume, Option.map_some, Option.some.injEq, Prod.mk.injEq] at hs
      rw [← hs.2.1]; rfl

theorem told (h : (system d).Reach (fun s a => tells s a = true) s) : Told s :=
  h.invariant told_init fun u a v hr ht ha hs => by
    have hl := life hr
    obtain ⟨legal, move⟩ := log_step hl ht ha hs
    exact {
      legal
      fresh := fun j => fresh_step ht hs (move j)
      untold := fun _ j => untold_step ht hs (move j)
      distinct := distinct_step ht hs
      early := fun j => early_told ht hl hs (move j)
      unreported := fun _ j => unreported_step ht hl hs (move j)
      announced := fun _ j => announced_step ht hl ha hs (move j)
      alone := alone_step ht ha hs
      published := fun _ _ _ _ hj _ => published_step ht hl (priorities hr) ha hs hj
      ended := fun j _ => ended_step ht hl (priorities hr) ha hs (move j) }

/-- As long as nobody acts on a job between a command and its event, the log tells the story of every job in
order; and once no handler of it is running, the outcome in its hash is in the log exactly once. -/
theorem story_in_order (h : (system d).Reach (fun s a => tells s a = true) s) (j : String) :
    Ordered (story s.trace j) ∧ ∀ st, s.redis.status j = some st → st.terminal = true → ¬InHand s j →
      ∃ x, x.status = st ∧ (story s.trace j).filter EventType.final = [x] := by
  have ht := told h
  rw [story_eq ht.legal]
  refine ⟨Tale.story_ordered fun y => final_of_ended, fun st hst terminal idle => ?_⟩
  rcases ht.ended j st hst terminal with ⟨x, hx, rfl⟩ | ⟨i, hi⟩ | ⟨k, hk, -⟩
  · have final := final_of_ended hx
    refine ⟨x, rfl, ?_⟩
    rw [hx]
    cases x <;> first | rfl | cases final
  · exact absurd (.worker (Pc.unreported_job hi)) idle
  · exact absurd (.watcher hk) idle

end

/-! ## The first cancel request and the first scan -/

def firstOnly {ι : Type} : Action ι → Bool
  | .cancel k _ | .watch k _ => k = 0
  | _ => true

theorem idle_of_firstOnly {ι : Type} [DecidableEq ι] {d : Deployment ι} {s : State ι}
    (h : (system d).Reach (fun _ a => firstOnly a = true) s) :
    ∀ k, k ≠ 0 → s.cancels k = .idle ∧ s.watchers k = .idle := by
  refine h.invariant (I := fun s => ∀ k, k ≠ 0 → s.cancels k = .idle ∧ s.watchers k = .idle)
    (fun _ _ => ⟨rfl, rfl⟩) fun u a v _ hu ha hs k hk => ?_
  constructor
  · rcases cancel_of_step hs k with hc | ⟨b, es, rfl, -⟩
    · rw [hc]; exact (hu k hk).1
    · simp [firstOnly, hk] at ha
  · rcases watcher_of_step hs k with ⟨-, hw⟩ | ⟨b, es, rfl, -⟩
    · rw [hw]; exact (hu k hk).2
    · simp [firstOnly, hk] at ha

theorem not_inHand {ι : Type} [DecidableEq ι] {d : Deployment ι} {s : State ι} {j : String}
    (h : (system d).Reach (fun _ a => firstOnly a = true) s) (hw : ∀ i, (s.workers i).pc.job ≠ some j)
    (hc : (s.cancels 0).request ≠ some j) (hl : (s.watchers 0).announced ≠ some j) : ¬InHand s j := by
  have idle := idle_of_firstOnly h
  rintro (@⟨i, pc⟩ | @⟨k, pc⟩ | @⟨k, pc⟩)
  · exact hw i pc
  · by_cases hk : k = 0
    · exact hc (hk ▸ pc)
    · rw [(idle k hk).1] at pc; cases pc
  · by_cases hk : k = 0
    · exact hl (hk ▸ pc)
    · rw [(idle k hk).2] at pc; cases pc

/-- A queued job is cancelled; the request is answered, and the log has no `cancelled`. -/
theorem story_untold : ¬∀ s, (system (twoWorkers 1 (Int.le_refl 1))).Reach Machine.Any s → ∀ j,
    Ordered (story s.trace j) ∧ ∀ st, s.redis.status j = some st → st.terminal = true → ¬InHand s j →
      ∃ x, x.status = st ∧ (story s.trace j).filter EventType.final = [x] := by
  intro h
  obtain ⟨s, hr, hst, hs, hw, hc, hl⟩ := (system (twoWorkers 1 (Int.le_refl 1))).reach_of_exec
    (fun _ a => firstOnly a = true)
    (admitRun 0 (chatRequest (.obj []) .null none) "a" ++ .cancel 0 (.request "a") :: List.replicate 4 (.cancel 0 .go))
    (fun s => s.redis.status "a" = some .cancelled ∧ story s.trace "a" = [.queued] ∧
      (∀ i, (s.workers i).pc.job ≠ some "a") ∧ (s.cancels 0).request ≠ some "a" ∧
      (s.watchers 0).announced ≠ some "a") (by decide +kernel)
  obtain ⟨x, -, hx⟩ := (h s hr.any "a").2 .cancelled hst rfl (not_inHand hr hw hc hl)
  rw [hs] at hx; cases hx

/-- A job is admitted, forwarded and completed. -/
theorem story_in_order_run : ∃ s x, (system (twoWorkers 1 (Int.le_refl 1))).Reach (fun s a => tells s a = true) s ∧
    Ordered (story s.trace "a") ∧ s.redis.status "a" = some .completed ∧ x.status = .completed ∧
      (story s.trace "a").filter EventType.final = [x] := by
  obtain ⟨s, hr, hst, hw, hc, hl⟩ := (system (twoWorkers 1 (Int.le_refl 1))).reach_of_exec
    (fun s a => tells s a = true ∧ firstOnly a = true)
    (admitRun 0 (chatRequest (.obj []) .null none) "a" ++ List.replicate 6 (.worker 0 .go) ++
      .worker 0 (.respond (.ok (.obj []))) :: List.replicate 3 (.worker 0 .go))
    (fun s => s.redis.status "a" = some .completed ∧ (∀ i, (s.workers i).pc.job ≠ some "a") ∧
      (s.cancels 0).request ≠ some "a" ∧ (s.watchers 0).announced ≠ some "a") (by decide +kernel)
  have told := hr.mono fun _ _ ha => ha.1
  obtain ⟨ordered, outcome⟩ := story_in_order told "a"
  obtain ⟨x, hx, hf⟩ := outcome .completed hst rfl (not_inHand (hr.mono fun _ _ ha => ha.2) hw hc hl)
  exact ⟨s, x, told, ordered, hst, hx, hf⟩

end AdmissionScheduler
