import AdmissionScheduler.JsonlLogger
import AdmissionScheduler.Groups
import Mathlib.Data.Nat.Basic

/-!
# Every event is written once or counted

An event is in the queue, in a file or among the errors, and the events that are
not dropped keep their order on the way from the queue to the files. The open
handle is always that of the current date, so a line is in the file of the date
at which it was written; and since dates do not go back, the files one after the
other are the lines in the order in which they were written.
-/

namespace AdmissionScheduler

/-! ## What every turn keeps -/

section
variable {ε : Type} {dumps : ε → String} {queueSize : Int} {today errors : Nat} {s t : Logger ε}

namespace Logger

def pending (s : Logger ε) : List ε := s.queue.filterMap id

def lineOf (dumps : ε → String) (e : ε) : String := dumps e ++ "\n"

/-- Where the handle, the files and the lines stand to each other. -/
structure Filed (s : Logger ε) : Prop where
  handle : ∀ date, s.fh = some date → s.currentDate = some date
  files : s.files = groupOf s.written
  sorted : s.written.Pairwise fun p q => p.1 ≤ q.1
  past : ∀ p ∈ s.written, p.1 ≤ s.today

structure Accounted (dumps : ε → String) (errors : Nat) (s : Logger ε) : Prop where
  inOrder : (s.written.map Prod.snd ++ s.pending.map (lineOf dumps)).Sublist (s.emitted.map (lineOf dumps))
  total : s.emitted.length + errors = s.written.length + s.pending.length + s.logWriteErrors

/-! ## The writer -/

def wrote (dumps : ε → String) (s : Logger ε) (e : ε) : Logger ε :=
  { s with
    fh := some s.today
    currentDate := some s.today
    files := Function.update s.files s.today (s.files s.today ++ [lineOf dumps e])
    written := s.written ++ [(s.today, lineOf dumps e)] }

/-- What `_write_event` comes to: one more line in the file of the day, or one more error and no handle. -/
theorem writeEvent_cases (h : s.Filed) (opens writes : Bool) (e : ε) :
    s.writeEvent dumps opens writes e = s.wrote dumps e ∨
      ∃ date, s.writeEvent dumps opens writes e = { s with currentDate := date }.countError := by
  unfold writeEvent ensureFileOpen
  by_cases hopen : s.fh.isSome ∧ s.currentDate = some s.today
  · rw [if_pos hopen]
    obtain ⟨hfh, hcur⟩ := hopen
    obtain ⟨date, hd⟩ := Option.isSome_iff_exists.mp hfh
    obtain rfl : date = s.today := Option.some.inj ((h.handle date hd).symm.trans hcur)
    cases writes with
    | true =>
      left
      simp only [if_true, append, hd, wrote, lineOf]
      rw [hcur]
    | false => exact .inr ⟨s.currentDate, rfl⟩
  · rw [if_neg hopen]
    cases opens with
    | true =>
      cases writes with
      | true => exact .inl rfl
      | false => exact .inr ⟨some s.today, rfl⟩
    | false => exact .inr ⟨some s.today, rfl⟩

inductive Turn (dumps : ε → String) (s : Logger ε) : Logger ε → Prop
  | dropped (e : ε) : s.shutdown = .running →
      Turn dumps s { s with logWriteErrors := s.logWriteErrors + 1, emitted := s.emitted ++ [e] }
  | queued (e : ε) : s.shutdown = .running →
      Turn dumps s { s with queue := s.queue ++ [some e], emitted := s.emitted ++ [e] }
  | wrote {e : ε} {rest : List (Option ε)} : s.writing = true → s.queue = some e :: rest →
      Turn dumps s ({ s with queue := rest }.wrote dumps e)
  | failed {e : ε} {rest : List (Option ε)} (date : Option Nat) : s.writing = true → s.queue = some e :: rest →
      Turn dumps s { s with queue := rest, currentDate := date }.countError
  | ended {rest : List (Option ε)} : s.writing = true → s.queue = none :: rest →
      Turn dumps s { s with queue := rest, writing := false }
  | midnight {date : Nat} : s.today ≤ date → Turn dumps s { s with today := date }
  | stop : s.shutdown = .running → Turn dumps s { s with shutdown := .stopping }
  | sentinel : s.shutdown = .stopping → Turn dumps s { s with queue := s.queue ++ [none], shutdown := .flushing }
  | closed : s.shutdown = .flushing → s.writing = false → Turn dumps s { s with fh := none, shutdown := .closed }

theorem turn_of_step {a : LogAct ε} (h : s.Filed) (hs : s.step dumps queueSize a = some t) : Turn dumps s t := by
  cases a with
  | emit e =>
    simp only [Logger.step] at hs
    split at hs
    · cases hs
    rename_i running
    have running := not_not.mp running
    split at hs <;> cases hs
    · exact .dropped e running
    · exact .queued e running
  | write opens writes =>
    simp only [Logger.step, writerTurn] at hs
    split at hs <;> cases hs
    · rename_i e rest writing queue
      have popped : ({ s with queue := rest } : Logger ε).Filed := ⟨h.handle, h.files, h.sorted, h.past⟩
      have written : Logger.writeEvent { s with queue := rest } dumps opens writes e = _ ∨ _ :=
        writeEvent_cases popped opens writes e
      rcases written with hw | ⟨date, hw⟩
      · rw [hw]; exact .wrote writing queue
      · rw [hw]; exact .failed date writing queue
    · rename_i writing queue; exact .ended writing queue
  | midnight date =>
    simp only [Logger.step] at hs
    split at hs <;> cases hs
    rename_i hle; exact .midnight hle
  | stop =>
    simp only [Logger.step] at hs
    split at hs <;> cases hs
    rename_i running; exact .stop running
  | go =>
    simp only [Logger.step] at hs
    split at hs
    · split at hs <;> cases hs
      rename_i stopping _; exact .sentinel stopping
    · split at hs <;> cases hs
      rename_i flushing done; exact .closed flushing (Bool.eq_false_iff.mpr done)
    · cases hs
    · cases hs

/-! ## Invariants -/

theorem Filed.wrote (h : s.Filed) (e : ε) : (s.wrote dumps e).Filed where
  handle _ hd := hd
  files := by
    funext date
    simp only [Logger.wrote, groupOf_append, Function.update_apply, h.files]
    split
    · rename_i hd; rw [hd, groupOf_self]
    · rename_i hd; rw [groupOf_ne (Ne.symm hd), List.append_nil]
  sorted := by
    refine List.pairwise_append.mpr ⟨h.sorted, List.pairwise_singleton _ _, fun p hp q hq => ?_⟩
    rw [List.mem_singleton.mp hq]; exact h.past p hp
  past p hp := by
    rcases List.mem_append.mp hp with hp | hp
    · exact h.past p hp
    · rw [List.mem_singleton.mp hp]; exact Nat.le_refl _

theorem Filed.turn (h : s.Filed) (ht : Turn dumps s t) : t.Filed := by
  cases ht with
  | @wrote e rest _ _ =>
    have popped : ({ s with queue := rest } : Logger ε).Filed := ⟨h.handle, h.files, h.sorted, h.past⟩
    exact popped.wrote e
  | midnight later => exact ⟨h.handle, h.files, h.sorted, fun p hp => (h.past p hp).trans later⟩
  | failed _ _ _ | closed _ _ => exact ⟨fun _ hd => absurd hd (Option.some_ne_none _).symm, h.files, h.sorted, h.past⟩
  | dropped _ _ | queued _ _ | ended _ _ | stop _ | sentinel _ => exact ⟨h.handle, h.files, h.sorted, h.past⟩

theorem Accounted.turn (h : s.Accounted dumps errors) (ht : Turn dumps s t) : t.Accounted dumps errors := by
  obtain ⟨inOrder, total⟩ := h
  cases ht with
  | dropped e _ =>
    refine ⟨?_, ?_⟩
    · rw [List.map_append]; exact inOrder.trans (List.sublist_append_left _ _)
    · simp only [List.length_append, List.length_singleton, pending] at total ⊢; omega
  | queued e _ =>
    have more : ({ s with queue := s.queue ++ [some e], emitted := s.emitted ++ [e] } : Logger ε).pending =
        s.pending ++ [e] := by simp [pending]
    refine ⟨?_, ?_⟩
    · rw [more, List.map_append, List.map_append, ← List.append_assoc]
      exact inOrder.append (List.Sublist.refl _)
    · rw [more]; simp only [List.length_append, List.length_singleton]; omega
  | @wrote e rest _ queue =>
    have head : s.pending = e :: rest.filterMap id := by rw [pending, queue]; rfl
    rw [head] at inOrder total
    refine ⟨?_, ?_⟩
    · simpa [Logger.wrote, pending] using inOrder
    · simp only [Logger.wrote, pending, List.length_append, List.length_cons, List.length_nil] at total ⊢; omega
  | @failed e rest _ _ queue =>
    have head : s.pending = e :: rest.filterMap id := by rw [pending, queue]; rfl
    rw [head] at inOrder total
    refine ⟨?_, ?_⟩
    · exact ((List.sublist_cons_self _ _).append_left _).trans inOrder
    · simp only [countError, pending, List.length_cons] at total ⊢; omega
  | @ended rest _ queue =>
    have head : s.pending = rest.filterMap id := by rw [pending, queue]; rfl
    rw [head] at inOrder total
    exact ⟨inOrder, total⟩
  | sentinel _ =>
    have same : (s.queue ++ [none]).filterMap id = s.pending := by simp [pending]
    exact ⟨by simpa only [pending, same] using inOrder, by simpa only [pending, same] using total⟩
  | midnight _ | stop _ | closed _ _ => exact ⟨inOrder, total⟩

/-- The sentinel comes last, and the writer ends with it. -/
structure Drained (s : Logger ε) : Prop where
  last : none ∉ s.queue.dropLast
  sentinel : none ∈ s.queue → s.shutdown ≠ .running ∧ s.shutdown ≠ .stopping
  ended : s.writing = false → s.queue = [] ∧ s.shutdown ≠ .running ∧ s.shutdown ≠ .stopping

theorem Drained.pop {x : Option ε} {rest : List (Option ε)} (h : s.Drained) (queue : s.queue = x :: rest) :
    none ∉ rest.dropLast ∧ (none ∈ rest → s.shutdown ≠ .running ∧ s.shutdown ≠ .stopping) ∧ (x = none → rest = []) := by
  have last := h.last
  rw [queue] at last
  refine ⟨?_, fun hr => h.sentinel (by rw [queue]; exact List.mem_cons_of_mem _ hr), ?_⟩
  · cases rest with
    | nil => exact List.not_mem_nil
    | cons y rest => exact fun hn => last (List.mem_cons_of_mem _ hn)
  · rintro rfl
    cases rest with
    | nil => rfl
    | cons y rest => exact absurd (List.mem_cons_self ..) last

theorem Drained.turn (h : s.Drained) (ht : Turn dumps s t) : t.Drained := by
  cases ht with
  | dropped e _ => exact ⟨h.last, h.sentinel, h.ended⟩
  | queued e running =>
    have clean : none ∉ s.queue := fun hn => (h.sentinel hn).1 running
    refine ⟨by rw [List.dropLast_concat]; exact clean, fun hn => ?_, fun hw => absurd running (h.ended hw).2.1⟩
    exact h.sentinel ((List.mem_append.mp hn).resolve_right (by simp))
  | wrote writing queue | failed _ writing queue =>
    obtain ⟨last, sentinel, -⟩ := h.pop queue
    exact ⟨last, sentinel, fun hw => absurd (writing.symm.trans hw) (by decide)⟩
  | ended writing queue =>
    obtain ⟨last, sentinel, empty⟩ := h.pop queue
    exact ⟨last, sentinel, fun _ => ⟨empty rfl, h.sentinel (by rw [queue]; exact List.mem_cons_self ..)⟩⟩
  | midnight _ => exact ⟨h.last, h.sentinel, h.ended⟩
  | stop running =>
    exact ⟨h.last, fun hn => absurd running (h.sentinel hn).1, fun hw => absurd running (h.ended hw).2.1⟩
  | sentinel stopping =>
    refine ⟨?_, fun _ => by simp, fun hw => absurd stopping (h.ended hw).2.2⟩
    rw [List.dropLast_concat]; exact fun hn => (h.sentinel hn).2 stopping
  | closed _ _ => exact ⟨h.last, fun _ => by simp, fun hw => ⟨(h.ended hw).1, by simp⟩⟩

end Logger

/-! ## Whole runs -/

theorem logger_invariant (h : (logger dumps queueSize today errors).Reach Machine.Any s) :
    s.Filed ∧ s.Accounted dumps errors ∧ s.Drained := by
  refine h.invariant (I := fun s => s.Filed ∧ s.Accounted dumps errors ∧ s.Drained) ?_ ?_
  · refine ⟨⟨fun _ hd => absurd hd (Option.some_ne_none _).symm, rfl, .nil, fun p hp => absurd hp List.not_mem_nil⟩,
      ⟨List.Sublist.refl _, by simp [logger, Logger.pending]⟩, ⟨List.not_mem_nil, fun hn => absurd hn List.not_mem_nil, fun hw => ?_⟩⟩
    cases hw
  · rintro u a v - ⟨filed, accounted, drained⟩ - hs
    have turn := Logger.turn_of_step filed hs
    exact ⟨filed.turn turn, accounted.turn turn, drained.turn turn⟩

/-- When `stop()` has ended the writer: a line is in the file of the date at which it was written, the files of
all dates one after the other are a subsequence of the emitted events, and every event is a line or an error. -/
theorem events_accounted (h : (logger dumps queueSize today errors).Reach Machine.Any s) (ended : s.writing = false) :
    (∀ date, s.files date = groupOf s.written date) ∧
      ∀ dates : List Nat, dates.Pairwise (· < ·) → (∀ date, s.files date ≠ [] → date ∈ dates) →
        (dates.flatMap s.files).Sublist (s.emitted.map (Logger.lineOf dumps)) ∧
          s.emitted.length = (dates.flatMap s.files).length + (s.logWriteErrors - errors : Int) := by
  obtain ⟨filed, ⟨inOrder, total⟩, drained⟩ := logger_invariant h
  have empty : s.pending = [] := by rw [Logger.pending, (drained.ended ended).1]; rfl
  rw [empty] at inOrder total
  refine ⟨fun date => congrFun filed.files date, fun dates increasing all => ?_⟩
  have whole : dates.flatMap s.files = s.written.map Prod.snd := by
    rw [filed.files]
    refine flatMap_groupOf filed.sorted increasing fun p hp => all p.1 fun hn => ?_
    rw [filed.files, groupOf, List.map_eq_nil_iff, List.filter_eq_nil_iff] at hn
    exact hn p hp (by simp)
  rw [whole]
  refine ⟨by simpa using inOrder, ?_⟩
  rw [List.length_map]
  simp only [List.length_nil] at total; omega

end

/-- A queue of two: the third event is dropped, the second meets a full disk, the first is written on the next
day. -/
theorem events_accounted_run : ∃ s, (logger (fun n : Nat => toString n) 2 7 3).Reach Machine.Any s ∧
    s.writing = false ∧ s.files 8 = ["0\n"] ∧ s.emitted.length = 3 ∧
    (∀ date, s.files date = groupOf s.written date) ∧
    ∀ dates : List Nat, dates.Pairwise (· < ·) → (∀ date, s.files date ≠ [] → date ∈ dates) →
      (dates.flatMap s.files).Sublist (s.emitted.map (Logger.lineOf fun n : Nat => toString n)) ∧
        s.emitted.length = (dates.flatMap s.files).length + (s.logWriteErrors - (3 : Nat) : Int) := by
  obtain ⟨s, hr, ended, file, three⟩ := (logger (fun n : Nat => toString n) 2 7 3).reach_of_exec Machine.Any
    [.emit 0, .emit 1, .emit 2, .midnight 8, .write true true, .write true false, .stop, .go, .write true true, .go]
    (fun s => s.writing = false ∧ s.files 8 = ["0\n"] ∧ s.emitted.length = 3) (by decide)
  exact ⟨s, hr, ended, file, three, events_accounted hr ended⟩

end AdmissionScheduler
