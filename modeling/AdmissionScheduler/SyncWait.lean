import AdmissionScheduler.Config
import AdmissionScheduler.Machine

/-!
# Waiting for a job

`_wait_for_completion` beside whoever finalises the job. The wait stops at every
await; `SUBSCRIBE` and `HGET` are served at some time after they are sent, and
the finaliser's two commands fall anywhere in between. A published status
reaches the connections that are subscribed then.
-/

namespace AdmissionScheduler

inductive WaitPc where
  | subscribing
  /-- The head of the loop. -/
  | looping (deadline : Nat)
  | polling (deadline limit : Nat)
  | reading (deadline : Nat)
  /-- `HGET` has been served. -/
  | replied (deadline : Nat) (status : Option JobStatus)
  | returned (status : Option JobStatus)
  | raised
  deriving DecidableEq

inductive Message where
  | subscribe
  | message (status : JobStatus)
  deriving DecidableEq

inductive Finaliser where
  | pending
  | written
  | published
  deriving DecidableEq

structure Wait where
  /-- `time.monotonic()` in nanoseconds -/
  clock : Nat
  /-- The field `status` of the hash. -/
  status : Option JobStatus
  finaliser : Finaliser := .pending
  subscribed : Bool := false
  inbox : List Message := []
  pc : WaitPc := .subscribing
  /-- Whether the final status had been written when the last status read was served. -/
  lastRead : Option Bool := none
  deriving DecidableEq

inductive WaitAct where
  | tick (d : Nat)
  /-- Somebody sets a status that is not final. -/
  | progress (status : JobStatus)
  /-- The finaliser's write. -/
  | write
  | publish
  /-- The server takes the subscription. -/
  | subscribed
  /-- The wait goes on with its code or with the reply it has. -/
  | go
  /-- `get_message` gives up. -/
  | timeout
  /-- `get_message` takes what is next. -/
  | receive
  /-- `HGET` is served. -/
  | read
  /-- A command of the wait raises. -/
  | fail
  deriving DecidableEq

section
variable (timeoutS : Nat) (final : { s : JobStatus // s.terminal = true })

def Wait.step (s : Wait) : WaitAct → Option Wait
  | .tick d => some { s with clock := s.clock + d }
  | .progress status =>
    if s.finaliser = .pending ∧ status.terminal = false then some { s with status := some status } else none
  | .write => if s.finaliser = .pending then some { s with status := some final, finaliser := .written } else none
  | .publish =>
    if s.finaliser = .written then
      some { s with
        inbox := if s.subscribed then s.inbox ++ [.message final] else s.inbox
        finaliser := .published }
    else none
  | .subscribed =>
    if s.subscribed then none else some { s with subscribed := true, inbox := s.inbox ++ [.subscribe] }
  | .go =>
    match s.pc with
    | .subscribing => some { s with pc := .looping (s.clock + timeoutS * second) }
    | .looping deadline =>
      if deadline ≤ s.clock then some { s with pc := .returned none }
      else some { s with pc := .polling deadline (min deadline (s.clock + second)) }
    | .replied deadline status =>
      match status with
      | some st => some { s with pc := if st.terminal then .returned (some st) else .looping deadline }
      | none => some { s with pc := .looping deadline }
    | .polling .. | .reading _ | .returned _ | .raised => none
  | .timeout =>
    match s.pc with
    -- a message may still be on its way
    | .polling deadline limit => if limit ≤ s.clock then some { s with pc := .reading deadline } else none
    | _ => none
  | .receive =>
    match s.pc, s.inbox with
    | .polling deadline _, .subscribe :: inbox => some { s with inbox, pc := .reading deadline }
    | .polling _ _, .message st :: inbox => some { s with inbox, pc := .returned (some st) }
    | _, _ => none
  | .read =>
    match s.pc with
    | .reading deadline =>
      some { s with pc := .replied deadline s.status, lastRead := some (s.finaliser ≠ .pending) }
    | _ => none
  | .fail =>
    match s.pc with
    | .subscribing | .polling .. | .reading _ => some { s with pc := .raised }
    | .looping _ | .replied .. | .returned _ | .raised => none

def waitForCompletion (status : Option { s : JobStatus // s.terminal = false }) : Machine Wait WaitAct where
  init := { clock := 0, status := status.map Subtype.val }
  step := Wait.step timeoutS final

end

/-! ## No wake-up is lost -/

section
variable {timeoutS : Nat} {final : { s : JobStatus // s.terminal = true }} {s t : Wait}
  {status : Option { s : JobStatus // s.terminal = false }}

structure Wait.Informed (final : JobStatus) (s : Wait) : Prop where
  pending : s.finaliser = .pending → ∀ st, s.status = some st → st.terminal = false
  written : s.finaliser ≠ .pending → s.status = some final
  inbox : ∀ st, .message st ∈ s.inbox → st = final
  replied : ∀ deadline st, s.pc = .replied deadline st →
    (s.lastRead = some true → st = some final) ∧ ∀ st', st = some st' → st'.terminal = true → st' = final
  awake : s.lastRead = some true → (∃ deadline, s.pc = .replied deadline (some final)) ∨ s.pc = .returned (some final)
  returned : ∀ st, s.pc = .returned (some st) → st = final

theorem Wait.Informed.step {a : WaitAct} (h : s.Informed final) (hs : s.step timeoutS final a = some t) :
    t.Informed final := by
  obtain ⟨pending, written, inbox, replied, awake, returned⟩ := h
  -- outside `replied` and `returned` the last read has not seen the final status
  have asleep : ∀ {pc : WaitPc}, s.pc = pc → (∀ deadline st, pc ≠ .replied deadline st) → (∀ st, pc ≠ .returned st) →
      s.lastRead ≠ some true := by
    intro pc hpc hr hret hl
    rcases awake hl with ⟨deadline, hd⟩ | hd
    · exact hr deadline _ (hpc.symm.trans hd)
    · exact hret _ (hpc.symm.trans hd)
  cases a with
  | tick d => cases hs; exact ⟨pending, written, inbox, replied, awake, returned⟩
  | progress st =>
    simp only [Wait.step] at hs
    split at hs <;> cases hs
    rename_i hp
    refine ⟨fun _ st' hst => ?_, fun hn => absurd hp.1 hn, inbox, replied, awake, returned⟩
    cases hst; exact hp.2
  | write =>
    simp only [Wait.step] at hs
    split at hs <;> cases hs
    exact ⟨nofun, fun _ => rfl, inbox, replied, awake, returned⟩
  | publish =>
    simp only [Wait.step] at hs
    split at hs <;> cases hs
    rename_i hw
    refine ⟨nofun, fun _ => written (by rw [hw]; decide), fun st hm => ?_, replied, awake, returned⟩
    simp only at hm
    split at hm
    · rcases List.mem_append.mp hm with hm | hm
      · exact inbox st hm
      · cases List.mem_singleton.mp hm; rfl
    · exact inbox st hm
  | subscribed =>
    simp only [Wait.step] at hs
    split at hs <;> cases hs
    refine ⟨pending, written, fun st hm => ?_, replied, awake, returned⟩
    rcases List.mem_append.mp hm with hm | hm
    · exact inbox st hm
    · cases List.mem_singleton.mp hm
  | go =>
    simp only [Wait.step] at hs
    split at hs
    · rename_i hpc
      cases hs
      exact ⟨pending, written, inbox, nofun, fun hl => absurd hl (asleep hpc nofun nofun), nofun⟩
    · rename_i deadline hpc
      have late := asleep hpc nofun nofun
      split at hs <;> cases hs
      · exact ⟨pending, written, inbox, nofun, fun hl => absurd hl late, nofun⟩
      · exact ⟨pending, written, inbox, nofun, fun hl => absurd hl late, nofun⟩
    · rename_i deadline st hpc
      obtain ⟨seen, honest⟩ := replied deadline st hpc
      split at hs <;> cases hs
      · rename_i st
        by_cases ht : st.terminal = true
        · obtain rfl := honest st rfl ht
          simp only [ht, if_true]
          exact ⟨pending, written, inbox, nofun, fun _ => .inr rfl, fun st' hst => by cases hst; rfl⟩
        · have blind : s.lastRead ≠ some true := fun hl => ht (by rw [Option.some.inj (seen hl)]; exact final.2)
          simp only [ht, if_false, Bool.false_eq_true]
          exact ⟨pending, written, inbox, nofun, fun hl => absurd hl blind, nofun⟩
      · have blind : s.lastRead ≠ some true := fun hl => nomatch seen hl
        exact ⟨pending, written, inbox, nofun, fun hl => absurd hl blind, nofun⟩
    · cases hs
    · cases hs
    · cases hs
    · cases hs
  | timeout =>
    simp only [Wait.step] at hs
    split at hs
    · rename_i hpc
      split at hs <;> cases hs
      exact ⟨pending, written, inbox, nofun, fun hl => absurd hl (asleep hpc nofun nofun), nofun⟩
    · cases hs
  | receive =>
    simp only [Wait.step] at hs
    split at hs
    · rename_i hpc hin
      cases hs
      have rest : ∀ st, Message.message st ∈ _ → st = final.1 := fun st hm =>
        inbox st (by rw [hin]; exact List.mem_cons_of_mem _ hm)
      exact ⟨pending, written, rest, nofun, fun hl => absurd hl (asleep hpc nofun nofun), nofun⟩
    · rename_i st _ hpc hin
      cases hs
      have rest : ∀ st, Message.message st ∈ _ → st = final.1 := fun st hm =>
        inbox st (by rw [hin]; exact List.mem_cons_of_mem _ hm)
      have mine : st = final.1 := inbox st (by rw [hin]; exact List.mem_cons_self ..)
      refine ⟨pending, written, rest, nofun, fun hl => absurd hl (asleep hpc nofun nofun), fun st' hst => ?_⟩
      cases hst; exact mine
    · cases hs
  | read =>
    simp only [Wait.step] at hs
    split at hs
    · cases hs
      refine ⟨pending, written, inbox, fun deadline st hr => ?_, fun hl => ?_, nofun⟩
      · cases hr
        refine ⟨fun hl => written (by simpa using hl), fun st' hst ht => ?_⟩
        by_cases hp : s.finaliser = .pending
        · rw [pending hp st' hst] at ht; cases ht
        · exact Option.some.inj (hst.symm.trans (written hp))
      · rw [written (by simpa using hl)]; exact .inl ⟨_, rfl⟩
    · cases hs
  | fail =>
    simp only [Wait.step] at hs
    split at hs <;> cases hs <;> rename_i hpc <;>
      exact ⟨pending, written, inbox, nofun, fun hl => absurd hl (asleep hpc nofun nofun), nofun⟩

/-- The wait returns no status but the final one, and gives up only if its last status read, when it made
one, came before the write. -/
theorem no_lost_wakeup (h : (waitForCompletion timeoutS final status).Reach Machine.Any s) :
    (∀ st, s.pc = .returned (some st) → st = final) ∧ (s.pc = .returned none → s.lastRead ≠ some true) := by
  have informed : s.Informed final := by
    refine h.invariant (I := fun s => s.Informed final) ?_ fun _ _ _ _ hu _ hs => hu.step hs
    refine ⟨fun _ st hst => ?_, fun hn => absurd rfl hn, fun _ hm => absurd hm List.not_mem_nil, nofun, nofun, nofun⟩
    obtain ⟨st', -, rfl⟩ := Option.map_eq_some_iff.mp hst
    exact st'.2
  refine ⟨informed.returned, fun hpc hl => ?_⟩
  rcases informed.awake hl with ⟨deadline, hd⟩ | hd
  · exact absurd (hpc.symm.trans hd) nofun
  · exact absurd (hpc.symm.trans hd) nofun

end

/-- The write and the publish fall before the subscription, and the wait finds the status in the hash. -/
theorem no_lost_wakeup_run : ∃ s, (waitForCompletion 60 ⟨.completed, rfl⟩ (some ⟨.queued, rfl⟩)).Reach Machine.Any s ∧
    s.pc = .returned (some .completed) ∧
    (∀ st, s.pc = .returned (some st) → st = .completed) ∧ (s.pc = .returned none → s.lastRead ≠ some true) := by
  obtain ⟨s, hr, done⟩ := (waitForCompletion 60 ⟨.completed, rfl⟩ (some ⟨.queued, rfl⟩)).reach_of_exec Machine.Any
    [.progress .dispatched, .write, .publish, .subscribed, .go, .go, .receive, .tick second, .read, .go]
    (fun s => s.pc = .returned (some .completed)) (by decide)
  exact ⟨s, hr, done, no_lost_wakeup hr⟩

end AdmissionScheduler
