import AdmissionScheduler.Machine

/-!
# The event log

`JSONLLogger`: a bounded queue of events, one writer that drains it, and one
file for each UTC date. `emit` and the writer's turn are atomic, since neither
awaits anything between its first and its last change. A date is the number of
its day.
-/

namespace AdmissionScheduler

inductive Shutdown where
  | running
  -- waits in `put(None)`
  | stopping
  -- the sentinel is in the queue, `stop()` waits for the writer
  | flushing
  | closed
  deriving DecidableEq

structure Logger (ε : Type) where
  queue : List (Option ε) := []
  /-- The date of the file that `_fh` appends to. -/
  fh : Option Nat := none
  currentDate : Option Nat := none
  writing : Bool := true
  shutdown : Shutdown := .running
  logWriteErrors : Nat
  /-- What has been appended to the file of each date. -/
  files : Nat → List String := fun _ => []
  /-- The UTC date of the clock. -/
  today : Nat
  /-- The events given to `emit`, oldest first. -/
  emitted : List ε := []
  /-- The lines written, oldest first, each with the date of the clock then. -/
  written : List (Nat × String) := []

inductive LogAct (ε : Type) where
  | emit (e : ε)
  /-- The writer's next turn, with what an `open` and a write in it would come to. -/
  | write (opens writes : Bool)
  | midnight (date : Nat)
  | stop
  /-- `stop()` goes on. -/
  | go
  deriving DecidableEq

namespace Logger

section
variable {ε : Type} (s : Logger ε)

def full (queueSize : Int) : Bool := 0 < queueSize ∧ queueSize ≤ s.queue.length

/-- `_ensure_file_open`; `false` is the `OSError` of `open`. The old handle is still in `_fh` then. -/
def ensureFileOpen (opens : Bool) : Logger ε × Bool :=
  if s.fh.isSome ∧ s.currentDate = some s.today then (s, true)
  else if opens then ({ s with currentDate := some s.today, fh := some s.today }, true)
  else ({ s with currentDate := some s.today }, false)

/-- `self._fh.write(line)` and the flush; the ghost `written` remembers the date of the clock. -/
def append (line : String) : Logger ε :=
  match s.fh with
  | some date =>
    { s with
      files := Function.update s.files date (s.files date ++ [line])
      written := s.written ++ [(s.today, line)] }
  | none => s

def countError : Logger ε := { s with logWriteErrors := s.logWriteErrors + 1, fh := none }

def writeEvent (dumps : ε → String) (opens writes : Bool) (e : ε) : Logger ε :=
  match s.ensureFileOpen opens with
  | (t, true) => if writes then t.append (dumps e ++ "\n") else t.countError
  | (t, false) => t.countError

def writerTurn (dumps : ε → String) (opens writes : Bool) : Option (Logger ε) :=
  match s.writing, s.queue with
  | true, some e :: rest => some ({ s with queue := rest }.writeEvent dumps opens writes e)
  | true, none :: rest => some { s with queue := rest, writing := false }
  | _, _ => none

end

end Logger

section
variable {ε : Type} (dumps : ε → String) (queueSize : Int)

def Logger.step (s : Logger ε) : LogAct ε → Option (Logger ε)
  | .emit e =>
    if s.shutdown ≠ .running then none
    else if s.full queueSize then some { s with logWriteErrors := s.logWriteErrors + 1, emitted := s.emitted ++ [e] }
    else some { s with queue := s.queue ++ [some e], emitted := s.emitted ++ [e] }
  | .write opens writes => s.writerTurn dumps opens writes
  | .midnight date => if s.today ≤ date then some { s with today := date } else none
  | .stop => if s.shutdown = .running then some { s with shutdown := .stopping } else none
  | .go =>
    match s.shutdown with
    | .stopping => if s.full queueSize then none else some { s with queue := s.queue ++ [none], shutdown := .flushing }
    | .flushing => if s.writing then none else some { s with fh := none, shutdown := .closed }
    | .running | .closed => none

def logger (today logWriteErrors : Nat) : Machine (Logger ε) (LogAct ε) where
  init := { today, logWriteErrors }
  step := Logger.step dumps queueSize

end

end AdmissionScheduler
