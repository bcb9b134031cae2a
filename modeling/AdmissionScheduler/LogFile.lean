import AdmissionScheduler.JsonEncoder
import AdmissionScheduler.LogSound

/-!
# Reading the event log

The events as `json.dumps` writes them, one a line, and a reader that takes a file
apart again. Over every run of the logger the reader gets back the events that
were written, in their order (`log_read_back`): no line is torn, none runs into the
next, none is two.
-/

namespace AdmissionScheduler

open JsonDecoder JsonEncoder

/-! ## Events -/

def metadataOf (callerMetadata : Option (List (String × Json))) : Json := .obj (callerMetadata.getD [])

def buildBaseEvent (ts event jobId requestId model caller : String) (callerMetadata : Option (List (String × Json)))
    (priority : Json) : List (String × Json) :=
  [("ts", .str ts), ("request_id", .str requestId), ("job_id", .str jobId), ("model", .str model), ("event", .str event),
    ("caller", .str caller), ("caller_metadata", metadataOf callerMetadata), ("priority", priority)]

def buildDispatchedEvent (ts jobId requestId model caller : String) (callerMetadata : Option (List (String × Json)))
    (priority : Json) (waitMs : Int) (backendTarget kvPressureHint : Json) : List (String × Json) :=
  buildBaseEvent ts "dispatched" jobId requestId model caller callerMetadata priority ++
    [("wait_ms", .int waitMs), ("backend_target", backendTarget), ("kv_pressure_hint", kvPressureHint)]

def buildCompletedEvent (ts jobId requestId model caller : String) (callerMetadata : Option (List (String × Json)))
    (priority : Json) (waitMs runtimeMs : Int) (tokensPrompt tokensCompletion backendTarget : Json) :
    List (String × Json) :=
  buildBaseEvent ts "completed" jobId requestId model caller callerMetadata priority ++
    [("wait_ms", .int waitMs), ("runtime_ms", .int runtimeMs), ("tokens_prompt", tokensPrompt),
      ("tokens_completion", tokensCompletion), ("backend_target", backendTarget)]

/-- The text of an event; `json.dumps` raises where `dumps` is `none`. -/
def eventText (e : Json) : String := String.ofList (encode true e)

/-! ## Files -/

/-- The lines that iterating over a text file yields, without their ends. -/
def fileLines (text : List Char) : List (List Char) :=
  let lines := text.splitOn '\n'
  if lines.getLast? = some [] then lines.dropLast else lines

def readLog (headroom : Nat) (float : List Char → PyFloat) (file : List String) : Except LoadsError (List Json) :=
  (fileLines (file.flatMap String.toList)).mapM (loads headroom float)

theorem splitOn_lines (lines : List (List Char)) (h : ∀ l ∈ lines, '\n' ∉ l) :
    (lines.flatMap fun l => l ++ ['\n']).splitOn '\n' = lines ++ [[]] := by
  induction lines with
  | nil => rfl
  | cons l lines ih =>
    have hl : '\n' ∉ l := h l (.head _)
    rw [List.flatMap_cons, List.append_assoc, List.singleton_append, List.splitOn_eq_splitOnP,
      List.splitOnP_append_cons _ _ (by simp), ← List.splitOn_eq_splitOnP, ← List.splitOn_eq_splitOnP,
      List.splitOn_eq_singleton hl, ih fun l' hl' => h l' (.tail _ hl')]
    rfl

theorem fileLines_lines (lines : List (List Char)) (h : ∀ l ∈ lines, '\n' ∉ l) :
    fileLines (lines.flatMap fun l => l ++ ['\n']) = lines := by
  unfold fileLines
  rw [splitOn_lines lines h]
  simp

section
variable {headroom room : Nat} {float : List Char → PyFloat}

/-- An event that `json.dumps` can write and whose numbers are read as they were. -/
def Writable (room : Nat) (float : List Char → PyFloat) (e : Json) : Prop :=
  (dumps true room e).isSome ∧ ∀ x ∈ floats e, Faithful float x

theorem Writable.loads (hroom : room ≤ headroom + 1) {e : Json} (h : Writable room float e) :
    loads headroom float (encode true e) = .ok e := by
  obtain ⟨text, htext⟩ := Option.isSome_iff_exists.mp h.1
  have hfit : fits room e = true := by
    by_contra hno
    unfold dumps at htext
    rw [if_neg hno] at htext
    cases htext
  exact loads_dumps (a := true) hroom h.2 (if_pos hfit)

theorem Writable.oneLine {e : Json} (h : Writable room float e) : '\n' ∉ encode true e := by
  intro hc
  exact absurd (printable_encode e h.2 '\n' hc) (by decide)

/-- A file whose lines are those of some events is read as the events. -/
theorem readLog_lines (hroom : room ≤ headroom + 1) {es : List Json} (h : ∀ e ∈ es, Writable room float e) :
    readLog headroom float (es.map (Logger.lineOf eventText)) = .ok es := by
  have htext : (es.map (Logger.lineOf eventText)).flatMap String.toList =
      (es.map (encode true)).flatMap fun l => l ++ ['\n'] := by
    rw [List.flatMap_map, List.flatMap_map]
    refine List.flatMap_congr fun e _ => ?_
    simp [Logger.lineOf, eventText]
  have hlines : ∀ l ∈ es.map (encode true), '\n' ∉ l := by
    intro l hl
    obtain ⟨e, he, rfl⟩ := List.mem_map.mp hl
    exact (h e he).oneLine
  unfold readLog
  rw [htext, fileLines_lines _ hlines]
  clear htext hlines
  induction es with
  | nil => rfl
  | cons e es ih =>
    rw [List.map_cons, List.mapM_cons, (h e (.head _)).loads hroom, ih fun e' he' => h e' (.tail _ he')]
    rfl

theorem events_of_lines (hroom : room ≤ headroom + 1) {es fs : List Json} (he : ∀ e ∈ es, Writable room float e)
    (hf : ∀ f ∈ fs, Writable room float f) (h : es.map (Logger.lineOf eventText) = fs.map (Logger.lineOf eventText)) :
    es = fs := by
  have hread := readLog_lines hroom he
  rw [h, readLog_lines hroom hf] at hread
  exact (Except.ok.inj hread).symm

variable {queueSize : Int} {today errors : Nat} {s : Logger Json}

/-- The files of the log, read at any time, hold the events written so far, each as it was given to `emit`. Over all
dates they are emitted events in the order of `emit`; once the writer has ended, those missing are the errors counted. -/
theorem log_read_back (hroom : room ≤ headroom + 1) (h : (logger eventText queueSize today errors).Reach Machine.Any s)
    (hev : ∀ e ∈ s.emitted, Writable room float e) :
    ∃ events : Nat → List Json, (∀ date, readLog headroom float (s.files date) = .ok (events date)) ∧
      ∀ dates : List Nat, dates.Pairwise (· < ·) → (∀ date, s.files date ≠ [] → date ∈ dates) →
        (dates.flatMap events).Sublist s.emitted ∧
          (s.writing = false → s.emitted.length = (dates.flatMap events).length + (s.logWriteErrors - errors : Int)) := by
  obtain ⟨filed, accounted, drained⟩ := logger_invariant h
  have hwritten : (s.written.map Prod.snd).Sublist (s.emitted.map (Logger.lineOf eventText)) :=
    (List.sublist_append_left _ _).trans accounted.inOrder
  obtain ⟨evs, hsub, hlines⟩ := List.sublist_map_iff.mp hwritten
  have hevs : ∀ e ∈ evs, Writable room float e := fun e he => hev e (hsub.subset he)
  have hfile : ∀ date, ∃ es : List Json, es.Sublist evs ∧ s.files date = es.map (Logger.lineOf eventText) := by
    intro date
    have hgroup : (s.files date).Sublist (evs.map (Logger.lineOf eventText)) := by
      rw [← hlines, filed.files]
      exact List.filter_sublist.map _
    exact List.sublist_map_iff.mp hgroup
  choose events hes hfiles using hfile
  refine ⟨events, fun date => ?_, fun dates increasing all => ?_⟩
  · rw [hfiles]
    exact readLog_lines hroom fun e he => hevs e ((hes date).subset he)
  · have whole : dates.flatMap s.files = s.written.map Prod.snd := by
      rw [filed.files]
      refine flatMap_groupOf filed.sorted increasing fun p hp => all p.1 fun hn => ?_
      rw [filed.files, groupOf, List.map_eq_nil_iff, List.filter_eq_nil_iff] at hn
      exact hn p hp (by simp)
    have hmap : (dates.flatMap events).map (Logger.lineOf eventText) = evs.map (Logger.lineOf eventText) := by
      rw [← hlines, ← whole, List.map_flatMap]
      exact List.flatMap_congr fun date _ => (hfiles date).symm
    have hall : ∀ e ∈ dates.flatMap events, Writable room float e := by
      intro e he
      obtain ⟨date, -, he⟩ := List.mem_flatMap.mp he
      exact hevs e ((hes date).subset he)
    rw [events_of_lines hroom hall hevs hmap]
    refine ⟨hsub, fun ended => ?_⟩
    have hpending : s.pending = [] := by
      rw [Logger.pending, (drained.ended ended).1]
      rfl
    have hlength : s.written.length = evs.length := by
      rw [← List.length_map (f := Prod.snd), hlines, List.length_map]
    have htotal := accounted.total
    rw [hpending, List.length_nil, hlength] at htotal
    omega

end

/-- A job that is dispatched and completed, with the day turning in between. -/
def dispatchedEvent : Json :=
  .obj (buildDispatchedEvent "2026-05-01T23:59:59+00:00" "j\n1" "r" "chat" "t\u00e9l" none (.int 5) 3 .null .null)

def completedEvent : Json :=
  .obj (buildCompletedEvent "2026-05-02T00:00:01+00:00" "j\n1" "r" "chat" "t\u00e9l" (some [("tags", .arr [.str "😀"])])
    (.int 5) 3 2000 (.int 7) (.int 11) (.str "dgx:8004"))

theorem log_read_back_run : ∃ s : Logger Json, s.emitted = [dispatchedEvent, completedEvent] ∧ s.writing = false ∧
    ∃ events : Nat → List Json, (∀ date, readLog 990 (fun _ => .nan) (s.files date) = .ok (events date)) ∧
      ∀ dates : List Nat, dates.Pairwise (· < ·) → (∀ date, s.files date ≠ [] → date ∈ dates) →
        (dates.flatMap events).Sublist s.emitted ∧
          (s.writing = false → s.emitted.length = (dates.flatMap events).length + (s.logWriteErrors - (0 : Nat) : Int)) := by
  obtain ⟨s, hexec, hemitted, hended⟩ : ∃ s,
      (logger eventText 10000 7 0).exec Machine.Any (logger eventText 10000 7 0).init
        [.emit dispatchedEvent, .write true true, .midnight 8, .emit completedEvent, .write true true, .stop, .go,
          .write true true, .go] = some s ∧
        s.emitted = [dispatchedEvent, completedEvent] ∧ s.writing = false := ⟨_, rfl, rfl, rfl⟩
  refine ⟨s, hemitted, hended, log_read_back (show 990 ≤ 990 + 1 by decide) (Machine.leads_of_exec hexec) ?_⟩
  have hevents : ∀ e ∈ [dispatchedEvent, completedEvent], fits 990 e = true ∧ floats e = [] := by
    intro e he
    rcases List.mem_pair.mp he with rfl | rfl
    · exact ⟨rfl, rfl⟩
    · exact ⟨rfl, rfl⟩
  rw [hemitted]
  intro e he
  obtain ⟨hfit, hfloats⟩ := hevents e he
  refine ⟨?_, ?_⟩
  · rw [dumps, if_pos hfit]
    rfl
  · rw [hfloats]
    intro x hx
    cases hx

end AdmissionScheduler
