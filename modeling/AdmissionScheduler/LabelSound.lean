import AdmissionScheduler.MergeSound

/-!
# Labels that change while the model is asked

The triage agent writes the labels it read, with those the model suggests. What
others changed since the list was read survives exactly when the written set has
it anyway: a label of the list that was not taken away for good, or another one
on which the model and the others agree.
-/

namespace AdmissionScheduler.Orchestrator

open Program Log Crew PyText

/-! ## What is written -/

def suggestion (labels : Finset String) (data : List (String × Json)) : Except Raised (Finset String) := do
  let area ← TriageAgent.chosen data "area" TriageAgent.validAreas
  let kind ← TriageAgent.chosen data "kind" TriageAgent.validKinds
  let missing ← TriageAgent.missingInfo data
  return TriageAgent.suggested labels area kind (TriageAgent.isReady data) missing

section
variable {τ : Type}

def answered : History Op Reply Raised τ → Option LLMResult
  | [] => none
  | ⟨.callModel .., .ok res, _⟩ :: _ => some res
  | _ :: h => answered h

def issuesRead : History Op Reply Raised τ → Option (List IssueInfo × τ)
  | [] => none
  | ⟨.listOpenIssues _, .ok issues, t⟩ :: _ => some (issues, t)
  | _ :: h => issuesRead h

/-- The issue and the answer that a request to replace labels is made from. -/
def Worked (h : History Op Reply Raised τ) (o : Op) : Prop :=
  ∀ n new, o = .setIssueLabels n new → ∃ issues t issue res added, issuesRead h = some (issues, t) ∧ issue ∈ issues ∧
    issue.number = n ∧ answered h = some res ∧ suggestion issue.labels (res.data.getD []) = .ok added ∧
    new = issue.labels ∪ added

variable {A : History Op Reply Raised τ → Program.Entry Op Reply Raised τ → Prop} {h : History Op Reply Raised τ}

def isRelabel : Op → Bool
  | .setIssueLabels .. => true
  | _ => false

theorem worked_of_not_relabel {o : Op} (ho : isRelabel o = false) : Worked h o := by
  rintro n new rfl
  cases ho

def isAside : Op → Bool
  | .listOpenIssues _ | .callModel .. | .setIssueLabels .. => false
  | _ => true

theorem answered_cons {e : Program.Entry Op Reply Raised τ} (he : isAside e.op = true) :
    answered (e :: h) = answered h := by
  obtain ⟨o, x, t⟩ := e
  cases o <;> first | rfl | cases he

theorem issuesRead_cons {e : Program.Entry Op Reply Raised τ} (he : isAside e.op = true) :
    issuesRead (e :: h) = issuesRead h := by
  obtain ⟨o, x, t⟩ := e
  cases o <;> first | rfl | cases he

/-! ## The triage agent -/

variable {read : Option (List IssueInfo × τ)} {answer : Option LLMResult} {α : Type} {p : Agent α}

theorem meets_aside (hp : Tame (isAside · = true) IsBase p) (hr : issuesRead h = read) (ha : answered h = answer) :
    Meets A Worked (fun h _ => issuesRead h = read ∧ answered h = answer) p h := by
  have hstep : ∀ (h : History Op Reply Raised τ) e, issuesRead h = read ∧ answered h = answer → isAside e.op = true →
      issuesRead (e :: h) = read ∧ answered (e :: h) = answer :=
    fun h e hh he => ⟨(issuesRead_cons he).trans hh.1, (answered_cons he).trans hh.2⟩
  have hworked : ∀ (h : History Op Reply Raised τ) o, isAside o = true → Worked h o := by
    intro h o ho
    apply worked_of_not_relabel
    cases o <;> first | rfl | cases ho
  refine (hp.meets hworked (S := fun h => issuesRead h = read ∧ answered h = answer)
    (L := fun h => issuesRead h = read ∧ answered h = answer) (fun h e hh ho _ => hstep h e hh ho)
    (fun h o e t hh ho _ => hstep h ⟨o, .error e, t⟩ hh ho) ⟨hr, ha⟩).mono fun h r hh => ?_
  exact hh.elim And.left And.left

theorem meets_triageLog {action : String} {payload : List (String × Json)} (hr : issuesRead h = read) :
    Meets A Worked (fun h _ => issuesRead h = read) (act (.logEvent "triage" action payload)) h :=
  (meets_aside (tame_act rfl) hr rfl).mono fun _ _ => And.left

/-- The list is still the last one read, and a result is the last answer. -/
def Answering (read : Option (List IssueInfo × τ)) (h : History Op Reply Raised τ)
    (r : Except Raised (Option LLMResult)) : Prop :=
  issuesRead h = read ∧ ∀ res, r = .ok (some res) → answered h = some res

theorem answering_none (hr : issuesRead h = read) : Answering read h (.ok none) := ⟨hr, fun _ e => by cases e⟩

theorem answering_error {e : Raised} (hr : issuesRead h = read) : Answering read h (.error e) :=
  ⟨hr, fun _ e => by cases e⟩

theorem meets_callModel {reservation : Option Budget.Reservation} (hr : issuesRead h = read) :
    Meets A Worked (Answering read)
      ((do let r ← act (.callModel "triage" 200); return some r : Agent (Option LLMResult)).catching fun
        | .llmTimeout _ | .llm _ => do settle reservation 600; return none
        | e => raise e) h := by
  refine meets_catching.mpr (meets_bind.mpr (meets_act.mpr ⟨worked_of_not_relabel rfl, fun x t _ => ?_⟩))
  cases x with
  | ok res =>
    refine ⟨hr, fun res' heq => ?_⟩
    cases heq
    rfl
  | error e =>
    cases e with
    | llmTimeout text | llm text =>
      refine meets_bind.mpr ((meets_aside (h := ⟨.callModel "triage" 200, .error _, t⟩ :: h) (tame_settle fun _ => rfl)
        hr rfl).mono fun h r hh => ?_)
      cases r with
      | ok _ => exact answering_none hh.1
      | error _ => exact answering_error hh.1
    | _ => exact answering_error (h := ⟨.callModel "triage" 200, .error _, t⟩ :: h) hr

theorem meets_triageModel {number : Nat} (hr : issuesRead h = read) :
    Meets A Worked (Answering read) (TriageAgent.askModel number) h := by
  refine meets_bind.mpr ((meets_aside (tame_act rfl) hr rfl).mono fun h r hh => ?_)
  cases r with
  | error e => exact answering_error hh.1
  | ok _ =>
    refine meets_bind.mpr ((meets_aside (tame_reserveTokens rfl fun _ _ => rfl) hh.1 rfl).mono fun h r hh => ?_)
    cases r with
    | error e => exact answering_error hh.1
    | ok reserved =>
      cases reserved with
      | exceeded => exact answering_none hh.1
      | reserved reservation =>
        refine meets_bind.mpr ((meets_callModel hh.1).mono fun h r hh => ?_)
        cases r with
        | error e => exact answering_error hh.1
        | ok res =>
          cases res with
          | none => exact answering_none hh.1
          | some res =>
            have hans := hh.2 res rfl
            refine meets_bind.mpr ((meets_aside (tame_settle fun _ => rfl) hh.1 hans).mono fun h r hh => ?_)
            cases r with
            | error e => exact answering_error hh.1
            | ok _ =>
              have hfail : Meets A Worked (Answering read) (do
                  act (.logEvent "triage" "json-parse-fail"
                    [("issue", .int number), ("raw", .str (clip 200 res.content))])
                  return none : Agent (Option LLMResult)) h := by
                refine meets_bind.mpr ((meets_aside (tame_act rfl) hh.1 hh.2).mono fun h r hh => ?_)
                cases r with
                | ok _ => exact answering_none hh.1
                | error _ => exact answering_error hh.1
              cases hd : res.data with
              | none => exact hfail
              | some data =>
                cases data with
                | nil => exact hfail
                | cons kv data =>
                  refine ⟨hh.1, fun res' heq => ?_⟩
                  cases heq
                  exact hh.2

theorem meets_newLabels {number : Nat} {labels : Finset String} {data : List (String × Json)}
    (hr : issuesRead h = read) (ha : answered h = answer) :
    Meets A Worked (fun h r => (issuesRead h = read ∧ answered h = answer) ∧
        ∀ new, r = .ok new → ∃ added, suggestion labels data = .ok added ∧ new = labels ∪ added)
      (TriageAgent.newLabels number labels data) h := by
  have hraised : ∀ e, Meets A Worked (fun h r => (issuesRead h = read ∧ answered h = answer) ∧
      ∀ new, r = .ok new → ∃ added, suggestion labels data = .ok added ∧ new = labels ∪ added)
      (.done (.error e)) h := fun e => ⟨⟨hr, ha⟩, fun _ e => by cases e⟩
  unfold TriageAgent.newLabels Program.ofExcept
  cases harea : TriageAgent.chosen data "area" TriageAgent.validAreas with
  | error e => exact hraised e
  | ok area =>
    cases hkind : TriageAgent.chosen data "kind" TriageAgent.validKinds with
    | error e => exact hraised e
    | ok kind =>
      cases hmissing : TriageAgent.missingInfo data with
      | error e => exact hraised e
      | ok missing =>
        have hsuggestion : suggestion labels data =
            .ok (TriageAgent.suggested labels area kind (TriageAgent.isReady data) missing) := by
          rw [suggestion, harea, hkind, hmissing]
          rfl
        have hdone : ∀ new (h : History Op Reply Raised τ), issuesRead h = read → answered h = answer →
            new = labels ∪ TriageAgent.suggested labels area kind (TriageAgent.isReady data) missing →
            Meets A Worked (fun h r => (issuesRead h = read ∧ answered h = answer) ∧
              ∀ new, r = .ok new → ∃ added, suggestion labels data = .ok added ∧ new = labels ∪ added)
              (.done (.ok new)) h := by
          intro new h hr ha hn
          refine ⟨⟨hr, ha⟩, fun new' heq => ?_⟩
          cases heq
          exact ⟨_, hsuggestion, hn⟩
        simp only [done_bind]
        refine meets_ite.mpr ⟨fun hready => hdone _ h hr ha ?_, fun hready => ?_⟩
        · rw [TriageAgent.suggested, if_pos hready]
          simp only [Finset.union_assoc]
        refine meets_ite.mpr ⟨fun hm => ?_, fun hm => hdone _ h hr ha ?_⟩
        · have hset : TriageAgent.suggested labels area kind (TriageAgent.isReady data) missing =
              area ∪ kind ∪ {"needs-info", "needs-info-commented"} := by
            rw [TriageAgent.suggested, if_neg hready, if_pos hm]
          refine meets_ite.mpr ⟨fun hc => ?_, fun hc => hdone _ h hr ha ?_⟩
          · refine meets_bind.mpr ((meets_aside (tame_act rfl) hr ha).mono fun h r hh => ?_)
            cases r with
            | error e => exact ⟨hh, fun _ e => by cases e⟩
            | ok _ =>
              refine hdone _ h hh.1 hh.2 ?_
              rw [hset]
              simp only [Finset.union_assoc, Finset.insert_eq]
          · rw [hset]
            ext l
            simp only [Finset.mem_union, Finset.mem_insert, Finset.mem_singleton]
            have hl : l = "needs-info-commented" → l ∈ labels := fun h => h ▸ not_not.mp hc
            tauto
        · rw [TriageAgent.suggested, if_neg hready, if_neg hm]
          simp only [Finset.union_assoc]

theorem meets_triageOne {issues : List IssueInfo} {t : τ} {issue : IssueInfo} (hi : issue ∈ issues)
    (hr : issuesRead h = some (issues, t)) :
    Meets A Worked (fun h _ => issuesRead h = some (issues, t)) (TriageAgent.triageOne issue) h := by
  refine meets_ite.mpr ⟨fun _ => hr, fun _ => ?_⟩
  refine meets_bind.mpr ((meets_triageModel hr).mono fun h r hh => ?_)
  cases r with
  | error e => exact hh.1
  | ok res =>
    cases res with
    | none => exact hh.1
    | some res =>
      have hans := hh.2 res rfl
      refine meets_bind.mpr ((meets_newLabels hh.1 hans).mono fun h r hh => ?_)
      cases r with
      | error e => exact hh.1.1
      | ok new =>
        obtain ⟨⟨hr, ha⟩, hnew⟩ := hh
        obtain ⟨added, hs, rfl⟩ := hnew new rfl
        refine meets_ite.mpr ⟨fun _ => ?_, fun _ => hr⟩
        refine meets_bind.mpr (meets_act.mpr ⟨?_, fun x t' _ => ?_⟩)
        · rintro n new heq
          cases heq
          exact ⟨issues, t, issue, res, added, hr, hi, rfl, ha, hs, rfl⟩
        · cases x with
          | error e => exact hr
          | ok _ => exact meets_triageLog hr

theorem meets_triageHeartbeat : Meets A Worked (fun _ _ => True) TriageAgent.heartbeat h := by
  have hlog : ∀ (a : String) (payload : List (String × Json)) (h : History Op Reply Raised τ),
      Meets A Worked (fun _ _ => True) (act (.logEvent "triage" a payload)) h :=
    fun a payload h => guarantee_act (worked_of_not_relabel rfl)
  refine meets_bind.mpr (meets_catchingAll.mpr (meets_bind.mpr
    (meets_act.mpr ⟨worked_of_not_relabel rfl, fun x t _ => ?_⟩)))
  cases x with
  | error e =>
    cases e with
    | base text => trivial
    | _ =>
      refine meets_bind.mpr ((hlog _ _ _).mono fun h r _ => ?_)
      cases r <;> trivial
  | ok issues =>
    refine (meets_each (I := fun h => issuesRead h = some (issues, t)) (E := fun _ _ => True) ?_ rfl).mono
      fun _ _ _ => trivial
    intro issue hi h hr
    refine meets_catchingAll.mpr ((meets_triageOne hi hr).mono fun h r hh => ?_)
    cases r with
    | ok _ => exact hh
    | error e =>
      dsimp only
      split
      · trivial
      · refine (meets_triageLog hh).mono fun h r hr => ?_
        cases r with
        | ok _ => exact hr
        | error _ => trivial

end

/-! ## Changes by others -/

variable {ι : Type} [DecidableEq ι]

def actorOf : Event ι → Option (Actor ι)
  | .labelled _ _ a | .unlabelled _ _ a | .relabelled _ _ a => a
  | _ => none

/-- What others than `a` last did to the label `l` of `n` in the events `v` after `w`: they added it, or removed it. -/
def lastChange (a : Actor ι) (n : Nat) (l : String) : Log ι → Log ι → Option Bool
  | [], _ => none
  | e :: v, w =>
    if actorOf e ≠ some a ∧ ¬(l ∈ labels n (e :: v ++ w) ↔ l ∈ labels n (v ++ w)) then
      some (l ∈ labels n (e :: v ++ w))
    else lastChange a n l v w

/-- After `a` writes `new`, every label that others changed since `w₀` is as they left it. -/
def LabelsKept (a : Actor ι) (n : Nat) (w₀ w : Log ι) (new : Finset String) : Prop :=
  ∀ l b, lastChange a n l (since w₀ w) w₀ = some b → (l ∈ labels n (.relabelled n new (some a) :: w) ↔ b = true)

/-- Others removed no label that was there at `w₀`, for good, and agree with the answer on the others they changed. -/
def ChangesAgree (a : Actor ι) (n : Nat) (w₀ w : Log ι) (added : Finset String) : Prop :=
  ∀ l b, lastChange a n l (since w₀ w) w₀ = some b →
    (l ∈ labels n w₀ → b = true) ∧ (l ∉ labels n w₀ → (l ∈ added ↔ b = true))

theorem labelsKept_iff {a : Actor ι} {n : Nat} {w₀ w : Log ι} {added : Finset String} :
    LabelsKept a n w₀ w (labels n w₀ ∪ added) ↔ ChangesAgree a n w₀ w added := by
  refine forall₃_congr fun l b hb => ?_
  have hl : l ∈ labels n (.relabelled n (labels n w₀ ∪ added) (some a) :: w) ↔ l ∈ labels n w₀ ∨ l ∈ added := by
    rw [labels, relabel, if_pos rfl, Finset.mem_union]
  rw [hl]
  by_cases hm : l ∈ labels n w₀ <;> simp [hm]

theorem lastChange_append {a : Actor ι} {n : Nat} {l : String} {u v w : Log ι} :
    lastChange a n l (u ++ v) w = (lastChange a n l u (v ++ w)).or (lastChange a n l v w) := by
  induction u with
  | nil => rfl
  | cons e u ih =>
    simp only [List.cons_append, lastChange, List.append_assoc]
    split
    · rfl
    · rw [ih]

variable (isWord : Char → Bool) (teamRoot : Path) (bot : String)

/-- In state `s`, party `i`, a triage heartbeat that has seen `h`, gets the labels of `n` replaced by `new`. -/
def Writes (s : TeamState ι) (i : ι) (n : Nat) (new : Finset String) (h : History Op Reply Raised (Log ι)) : Prop :=
  ∃ x next r, (team isWord teamRoot bot).Serves s i x .triage (.setIssueLabels n new) next h r
    [.relabelled n new (some ⟨i, .triage⟩)]

/-- What a step adds changes no label, except his own, of an issue that a triage heartbeat has on its list. -/
def LeavesLabels (s : TeamState ι) (a : TeamAct ι) : Prop :=
  ∀ t, (teamMachine isWord teamRoot bot).step s a = some t → ∀ i p, s.party i = some p → p.job = .triage →
    ∀ issues w₀, issuesRead p.seen = some (issues, w₀) → ∀ issue ∈ issues, ∀ l,
      lastChange ⟨i, .triage⟩ issue.number l (since s.log t.log) s.log = none

variable {isWord teamRoot bot} {s : TeamState ι} {ok : TeamState ι → TeamAct ι → Prop} {i : ι} {n : Nat}
  {new : Finset String} {h : History Op Reply Raised (Log ι)}

omit [DecidableEq ι] in
theorem mem_of_issuesRead {issues : List IssueInfo} {w : Log ι} (hr : issuesRead h = some (issues, w)) :
    ∃ required, ⟨.listOpenIssues required, .ok issues, w⟩ ∈ h := by
  induction h with
  | nil => cases hr
  | cons e h ih =>
    unfold issuesRead at hr
    split at hr
    · cases hr
    · rename_i heq
      cases heq
      cases hr
      exact ⟨_, List.mem_cons_self⟩
    · rename_i heq
      cases heq
      obtain ⟨required, hm⟩ := ih hr
      exact ⟨required, List.mem_cons_of_mem _ hm⟩

omit [DecidableEq ι] in
theorem issuesRead_cases {e : Program.Entry Op Reply Raised (Log ι)} {issues : List IssueInfo} {w : Log ι}
    (hr : issuesRead (e :: h) = some (issues, w)) : w = e.stamp ∨ issuesRead h = some (issues, w) := by
  unfold issuesRead at hr
  split at hr
  · cases hr
  · rename_i heq
    cases heq
    cases hr
    exact .inl rfl
  · rename_i heq
    cases heq
    exact .inr hr

omit [DecidableEq ι] in
theorem labels_of_issueInfo {w : Log ι} {issue : IssueInfo} (hi : issueInfo n w = some issue) :
    issue.labels = labels n w := by
  unfold issueInfo at hi
  split at hi
  · obtain ⟨d, -, rfl⟩ := Option.map_eq_some_iff.mp hi
    rfl
  · cases hi

/-- Where the labels of a request to replace them come from. -/
theorem worked_of_writes (hs : (teamMachine isWord teamRoot bot).Reach ok s)
    (hw : Writes isWord teamRoot bot s i n new h) : ∃ issues w₀ issue res added, issuesRead h = some (issues, w₀) ∧
      issue ∈ issues ∧ issue.number = n ∧ issue.labels = labels n w₀ ∧ answered h = some res ∧
      suggestion issue.labels (res.data.getD []) = .ok added ∧ new = issue.labels ∪ added ∧ w₀ <:+ s.log := by
  obtain ⟨x, next, r, hserves⟩ := hw
  have hv : ∀ w i j o x r l, (team (ι := ι) isWord teamRoot bot).serve w i j o x = some (r, l) →
      Accurate ⟨o, r, l ++ w⟩ := fun _ _ _ _ _ _ _ => accurate_serve
  obtain ⟨issues, w₀, issue, res, added, hr, hi, rfl, ha, hsug, hnew⟩ :=
    guarantee hv (G := Worked) meets_triageHeartbeat hs hserves n new rfl
  obtain ⟨required, hm⟩ := mem_of_issuesRead hr
  have hacc : ∀ issue ∈ issues, issueInfo issue.number w₀ = some issue := valid hv hs i _ hserves.waits _ hm
  exact ⟨issues, w₀, issue, res, added, hr, hi, rfl, labels_of_issueInfo (hacc issue hi), ha, hsug, hnew,
    stamps hs i _ hserves.waits _ hm⟩

/-- In a run that leaves them alone, nobody else has changed the labels a triage heartbeat works with. -/
theorem unchanged (hs : (teamMachine isWord teamRoot bot).Reach (LeavesLabels isWord teamRoot bot) s) :
    ∀ i p, s.party i = some p → p.job = .triage → ∀ issues w₀, issuesRead p.seen = some (issues, w₀) →
      ∀ issue ∈ issues, ∀ l, lastChange ⟨i, .triage⟩ issue.number l (since w₀ s.log) w₀ = none := by
  let K : Log ι → ι → Party Op Reply Raised Job (Event ι) → Prop := fun w i p => p.job = .triage →
    ∀ issues w₀, issuesRead p.seen = some (issues, w₀) → ∀ issue ∈ issues, ∀ l,
      lastChange ⟨i, .triage⟩ issue.number l (since w₀ w) w₀ = none
  refine hs.invariant (I := fun s => ∀ i p, s.party i = some p → K s.log i p) (fun _ _ h => by cases h) ?_
  intro s a t hr ih hok hs
  have hold : ∀ i p, s.party i = some p → K t.log i p := by
    intro i p hp hj issues w₀ hread issue hi l
    obtain ⟨required, hm⟩ := mem_of_issuesRead hread
    have hw := stamps hr i p hp _ hm
    rw [← since_append (log_grows hs), since_append_left hw, lastChange_append, since_append hw,
      hok t hs i p hp hj issues w₀ hread issue hi l, ih i p hp hj issues w₀ hread issue hi l]
    rfl
  obtain ⟨i', j, -, -, rfl⟩ | ⟨i', x, j, o, next, h, r, l, rfl, hserves, rfl⟩ | ⟨e, rfl, -, rfl⟩ := step_cases hs
  · exact update_cases (K := K s.log) hold fun _ _ _ hread => by cases hread
  · refine update_cases (K := K (l ++ s.log)) hold fun hj issues w₀ hread issue hi label => ?_
    obtain rfl | hread := issuesRead_cases hread
    · rw [since_self]
      rfl
    · exact hold i' _ hserves.waits hj issues w₀ hread issue hi label
  · exact hold

/-- The triage agent undoes no change of others exactly when none of those it did not see disagrees with what it
writes; in runs where others leave the labels on its list alone it never does. -/
theorem labels_kept (isWord : Char → Bool) (teamRoot : Path) (bot : String) :
    (∀ (s : TeamState ι) i n new h, (teamMachine isWord teamRoot bot).Reach Machine.Any s →
      Writes isWord teamRoot bot s i n new h → ∃ issues w₀ issue res added, issuesRead h = some (issues, w₀) ∧
        issue ∈ issues ∧ issue.number = n ∧ issue.labels = labels n w₀ ∧ answered h = some res ∧
        suggestion issue.labels (res.data.getD []) = .ok added ∧
        (LabelsKept ⟨i, .triage⟩ n w₀ s.log new ↔ ChangesAgree ⟨i, .triage⟩ n w₀ s.log added)) ∧
    ∀ (s : TeamState ι) i n new h, (teamMachine isWord teamRoot bot).Reach (LeavesLabels isWord teamRoot bot) s →
      Writes isWord teamRoot bot s i n new h → ∃ issues w₀, issuesRead h = some (issues, w₀) ∧
        LabelsKept ⟨i, .triage⟩ n w₀ s.log new := by
  constructor
  · intro s i n new h hs hw
    obtain ⟨issues, w₀, issue, res, added, hr, hi, hn, hl, ha, hsug, rfl, -⟩ := worked_of_writes hs hw
    refine ⟨issues, w₀, issue, res, added, hr, hi, hn, hl, ha, hsug, ?_⟩
    rw [hl]
    exact labelsKept_iff
  · intro s i n new h hs hw
    obtain ⟨issues, w₀, issue, res, added, hr, hi, rfl, -, -, -, -, -⟩ := worked_of_writes hs hw
    obtain ⟨x, next, r, hserves⟩ := hw
    refine ⟨issues, w₀, hr, fun l b hb => ?_⟩
    cases (unchanged hs i _ hserves.waits rfl issues w₀ hr issue hi l).symm.trans hb

/-! ## Runs -/

def writesNext (s : TeamState ι) (i : ι) : Option ((Nat × Finset String) × History Op Reply Raised (Log ι)) :=
  match s.party i with
  | some ⟨.triage, .call (.setIssueLabels n new) _, h⟩ => some ((n, new), h)
  | _ => none

omit [DecidableEq ι] in
theorem writes_of_next {isWord : Char → Bool} {teamRoot : Path} {bot : String} {s : TeamState ι} {i : ι} {n : Nat}
    {new : Finset String} {h : History Op Reply Raised (Log ι)} (hn : writesNext s i = some ((n, new), h)) :
    Writes isWord teamRoot bot s i n new h := by
  unfold writesNext at hn
  split at hn
  · rename_i n' new' next h' hparty
    cases hn
    exact ⟨.done noReply, next, _, hparty, rfl⟩
  · cases hn

def readyIssue : List (TeamAct ι) := [
  .event (.issued 7),
  .event (.described 7 { title := "t", body := none, draft := false }),
  .event (.relabelled 7 {"area/api", "ready-for-dev"} none)]

def suggestBug : Answer := .done fun
  | .listOpenIssues _ => [{ number := 7, title := "t", labels := {"area/api", "ready-for-dev"} }]
  | .callModel .. => ⟨"", "fast", 100, some [("kind", .str "kind/bug")]⟩
  | o => noReply o

def quietAfterList (s : TeamState Unit) (a : TeamAct Unit) : Prop :=
  ∀ t ∈ (teamMachine (fun _ => true) [] "kola-team-bot").step s a, ∀ p ∈ s.party (),
    (issuesRead p.seen).isNone = true ∨ t.log = s.log

instance (s : TeamState Unit) (a : TeamAct Unit) : Decidable (quietAfterList s a) :=
  inferInstanceAs (Decidable (∀ t ∈ (teamMachine (fun _ => true) [] "kola-team-bot").step s a, ∀ p ∈ s.party (), _ ∨ _))

theorem leavesLabels_of_quiet {s : TeamState Unit} {a : TeamAct Unit} (h : quietAfterList s a) :
    LeavesLabels (fun _ => true) [] "kola-team-bot" s a := by
  intro t ht i p hp _ issues w₀ hread issue _ l
  obtain hn | hlog := h t ht p hp
  · rw [hread] at hn
    cases hn
  · rw [hlog, since_self]
    rfl

theorem labels_kept_run : ∃ (s : TeamState Unit) (new : _) (h : _) (w₀ : _),
    Writes (fun _ => true) [] "kola-team-bot" s () 7 new h ∧ LabelsKept ⟨(), .triage⟩ 7 w₀ s.log new ∧
      ∃ w₀ added, LabelsKept ⟨(), .triage⟩ 7 w₀ s.log new ↔ ChangesAgree ⟨(), .triage⟩ 7 w₀ s.log added := by
  obtain ⟨s, hs, ⟨⟨n, new⟩, h⟩, hn, rfl⟩ := Machine.reach_of_exec (teamMachine (fun _ => true) [] "kola-team-bot")
    quietAfterList (readyIssue ++ [.start () .triage] ++ List.replicate 5 (.answer () suggestBug))
    (fun s => ∃ due ∈ writesNext s (), due.1.1 = 7) (by decide +kernel)
  have hw : Writes (fun _ => true) [] "kola-team-bot" s () 7 new h := writes_of_next hn
  obtain ⟨issues, w₀, -, hkept⟩ := (labels_kept (fun _ => true) [] "kola-team-bot").2 s () 7 new h
    (hs.mono fun _ _ => leavesLabels_of_quiet) hw
  obtain ⟨issues', w₀', issue, res, added, -, -, -, -, -, -, hiff⟩ :=
    (labels_kept (fun _ => true) [] "kola-team-bot").1 s () 7 new h hs.any hw
  exact ⟨s, new, h, w₀, hw, hkept, w₀', added, hiff⟩

/-- The backend agent claims the issue while the model is asked, and the write takes the claim away. -/
theorem claim_undone : ¬∀ (s : TeamState Bool) i n new h,
    (teamMachine (fun _ => true) [] "kola-team-bot").Reach Machine.Any s →
      Writes (fun _ => true) [] "kola-team-bot" s i n new h → ∀ issues w₀, issuesRead h = some (issues, w₀) →
        LabelsKept ⟨i, .triage⟩ n w₀ s.log new := by
  intro hall
  obtain ⟨s, hs, ⟨⟨n, new⟩, h⟩, hn, rfl, ⟨issues, w₀⟩, hread, hadded, hgone⟩ :=
    Machine.reach_of_exec (teamMachine (fun _ => true) [] "kola-team-bot") Machine.Any
      (readyIssue ++ [.start false .triage, .start true .backend, .answer false suggestBug] ++
        List.replicate 4 (.answer true suggestBug) ++ List.replicate 4 (.answer false suggestBug))
      (fun s => ∃ due ∈ writesNext s false, due.1.1 = 7 ∧ ∃ read ∈ issuesRead due.2,
        lastChange ⟨false, .triage⟩ 7 "in-progress-by-backend" (since read.2 s.log) read.2 = some true ∧
          "in-progress-by-backend" ∉ labels 7 (.relabelled 7 due.1.2 (some ⟨false, .triage⟩) :: s.log))
      (by decide +kernel)
  have hkept := hall s false 7 new h hs (writes_of_next hn) issues w₀ hread
  exact hgone ((hkept "in-progress-by-backend" true hadded).mpr rfl)

end AdmissionScheduler.Orchestrator
