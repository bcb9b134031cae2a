import AdmissionScheduler.Duties
import AdmissionScheduler.Spending
import Mathlib.Tactic.Ring

/-!
# How much a heartbeat does

A heartbeat of the backend agent works on one issue and asks the model at most
three times; the triage agent asks once for every issue listed, and the CEO
closes or merges every pull request listed at most once.
-/

namespace AdmissionScheduler.Orchestrator

open Program Crew

/-! ## What is counted -/

inductive Kind where
  | other | ask | test | publish | decide
  deriving DecidableEq

def runsTests : List String → Bool
  | _ :: "-m" :: "pytest" :: _ => true
  | _ => false

def kind : Op → Kind
  | .callModel .. => .ask
  | .run args _ => if runsTests args then .test else .other
  | .createPullRequest .. => .publish
  | .mergePr .. | .closePr _ => .decide
  | _ => .other

section
variable (w : Kind → Nat)

def effort (o : Op) : Nat := w (kind o)

/-- What an agent lists pays for what it does about each entry. -/
def allowance : Job → (o : Op) → Except Raised (Reply o) → Nat
  | .ceo, .listOpenPrs, .ok prs => prs.length * w .decide
  | .triage, .listOpenIssues _, .ok issues => issues.length * w .ask
  | _, _, _ => 0

end

section
variable {w : Kind → Nat} (hw : w .other = 0) {j : Job} {α : Type} {p : Agent α}

include hw

theorem spends_other (hp : Tame (kind · = .other) IsBase p) : Spends (effort w) (allowance w j) p 0 :=
  .of_tame hp fun o ho => by rw [effort, ho, hw]

theorem spends_log {role action : String} {payload : List (String × Json)} :
    Spends (effort w) (allowance w j) (act (.logEvent role action payload)) 0 := spends_other hw (tame_act rfl)

theorem spends_reserve {role : Budget.Role} {expected : Int} {number : Nat} :
    Spends (effort w) (allowance w j) (reserveTokens role expected number) 0 :=
  spends_other hw (tame_reserveTokens rfl fun _ _ => rfl)

theorem spends_settle {reservation : Option Budget.Reservation} {actual : Int} :
    Spends (effort w) (allowance w j) (settle reservation actual) 0 := spends_other hw (tame_settle fun _ => rfl)

/-! ## The CEO -/

theorem spends_tryMerge {pr : PullInfo} : Spends (effort w) (allowance w j) (CeoAgent.tryMerge pr) (w .decide) := by
  have hblocked : ∀ e, Tame (kind · = .other) IsBase (CeoAgent.reportBlocked pr e) :=
    fun e => .ite trivial (.bind (tame_act rfl) fun _ => tame_act rfl)
  refine Spends.catching (n := w .decide) (m := 0) ?_ fun e => ?_
  · cases pr.body with
    | none => trivial
    | some body => exact (spends_perform (Nat.le_refl _)).bind (m := 0) fun _ => trivial
  · cases e with
    | gitHubApp e =>
      refine .ite (spends_other hw ?_) trivial
      exact (hblocked e).bind fun _ => .bind (tame_act rfl) fun _ => trivial
    | _ => trivial

theorem spends_reviewPr {isWord : Char → Bool} {pr : PullInfo} :
    Spends (effort w) (allowance w j) (CeoAgent.reviewPr isWord pr) (w .decide) := by
  have hstatus : Tame (kind · = .other) IsBase (getPrStatus pr.number) := by
    refine .bind (tame_act rfl) fun p => tame_catchingGitHub (tame_act rfl) fun e => ?_
    exact .ite (.bind (tame_act rfl) fun _ => trivial) (tame_raise Bool.false_ne_true)
  have happrove : ∀ body, Tame (kind · = .other) IsBase
      (catchingGitHub (act (.approvePr pr.number body)) fun _ => pure ()) :=
    fun body => tame_catchingGitHub (tame_act rfl) fun _ => trivial
  have hclear : Tame (kind · = .other) IsBase (CeoAgent.clearReview pr) :=
    .ite (tame_catchingGitHub (tame_act rfl) fun _ => trivial) trivial
  have hrequest : ∀ reason, Tame (kind · = .other) IsBase (CeoAgent.requestReview pr reason) :=
    fun _ => .ite trivial (.bind (tame_act rfl) fun _ => .bind (tame_act rfl) fun _ => tame_act rfl)
  refine .ite trivial (.ite trivial (.free_bind (spends_other hw (tame_act rfl)) fun files => ?_))
  refine .free_bind (spends_other hw hstatus) fun status => .ite ?_ (.ite ?_ ?_)
  · refine .free_bind (spends_other hw (tame_act rfl)) fun _ => ?_
    exact (spends_perform (Nat.le_refl _)).bind fun _ => spends_log hw
  · refine .free_bind (spends_other hw (happrove _)) fun _ =>
      (spends_tryMerge hw).bind (m := 0) fun merged => .ite ?_ trivial
    exact spends_other hw (hclear.bind fun _ => .bind (tame_act rfl) fun _ => tame_act rfl)
  · exact (spends_other hw (hrequest _)).mono (Nat.zero_le _)

/-! ## The triage agent -/

omit hw in
theorem spends_callModel {role : String} {n : Nat} {f : Raised → Agent (Option LLMResult)}
    (hf : ∀ e, Spends (effort w) (allowance w j) (f e) 0) :
    Spends (effort w) (allowance w j)
      ((do let r ← act (.callModel role n); return some r : Agent (Option LLMResult)).catching f) (w .ask) :=
  Spends.catching (n := w .ask) (m := 0) ((spends_perform (Nat.le_refl _)).bind (m := 0) fun _ => trivial) hf

theorem spends_triageOne {issue : IssueInfo} :
    Spends (effort w) (allowance w j) (TriageAgent.triageOne issue) (w .ask) := by
  have hask : Spends (effort w) (allowance w j) (TriageAgent.askModel issue.number) (w .ask) := by
    refine .free_bind (spends_other hw (tame_act rfl)) fun _ => .free_bind (spends_reserve hw) fun reserved => ?_
    cases reserved with
    | exceeded => trivial
    | reserved reservation =>
      refine (spends_callModel fun e => ?_).bind (m := 0) fun res => ?_
      · cases e with
        | llmTimeout text | llm text => exact .free_bind (spends_settle hw) fun _ => trivial
        | _ => trivial
      · cases res with
        | none => trivial
        | some res =>
          refine .free_bind (spends_settle hw) fun _ => ?_
          rcases res.data with _ | (_ | ⟨kv, data⟩)
          · exact .free_bind (spends_log hw) fun _ => trivial
          · exact .free_bind (spends_log hw) fun _ => trivial
          · trivial
  refine .ite trivial (hask.bind (m := 0) fun res => ?_)
  cases res with
  | none => trivial
  | some res =>
    have hlabels : Tame (kind · = .other) IsBase
        (TriageAgent.newLabels issue.number issue.labels (res.data.getD [])) := by
      refine duty_newLabels.1.mono ?_
      rintro _ ⟨body, rfl⟩
      rfl
    exact .free_bind (spends_other hw hlabels) fun new =>
      spends_other hw (.ite (.bind (tame_act rfl) fun _ => tame_act rfl) trivial)

/-! ## The backend agent -/

section
open BackendAgent
variable {root : Path} {issue : IssueInfo}

omit hw in
theorem kind_of_command {args : List String} {cwd : Option Path} (hc : Command root issue args cwd) :
    kind (.run args cwd) = .other := by
  cases hc with
  | hook =>
    have hpath : runsTests ["bash", showPath (root ++ ["scripts".toList, "install-precommit-hook.sh".toList]),
        showPath (ownWorktree root issue).path] = false := by
      unfold runsTests
      split
      · rename_i heq
        exact absurd (List.cons.inj (List.cons.inj heq).2).1 (showPath_ne (by decide))
      · rfl
    rw [kind, hpath]
    rfl
  | _ => rfl

omit hw in
theorem kind_of_working {o : Op} (ho : Working root issue o) : kind o = .other := by
  cases ho with
  | command own => exact kind_of_command own
  | _ => rfl

theorem spends_working (hp : Tame (Working root issue) IsBase p) : Spends (effort w) (allowance w j) p 0 :=
  spends_other hw (hp.mono fun _ => kind_of_working)

theorem spends_backendModel {number : Nat} {tree : Option Path} {phase : List (String × Json)} :
    Spends (effort w) (allowance w j) (BackendAgent.askModel number tree phase) (w .ask) := by
  have htree : Tame (kind · = .other) IsBase (readTree tree) := by
    cases tree with
    | none => trivial
    | some p => exact tame_act rfl
  refine .free_bind (spends_other hw (tame_act rfl)) fun _ => .free_bind (spends_reserve hw) fun reserved => ?_
  cases reserved with
  | exceeded => trivial
  | reserved reservation =>
    refine .free_bind (spends_other hw htree) fun _ => (spends_callModel fun e => ?_).bind (m := 0) fun res => ?_
    · cases e with
      | llmTimeout text | llm text =>
        exact .free_bind (spends_settle hw) fun _ => .free_bind (spends_log hw) fun _ => trivial
      | _ => trivial
    · cases res with
      | none => trivial
      | some res =>
        refine .free_bind (spends_settle hw) fun _ => ?_
        rcases res.data with _ | (_ | ⟨kv, data⟩)
        · exact .free_bind (spends_log hw) fun _ => trivial
        · exact .free_bind (spends_log hw) fun _ => trivial
        · trivial

theorem spends_generateChanges {wt : Worktree} :
    Spends (effort w) (allowance w j) (generateChanges wt issue) (w .ask) := by
  refine (spends_backendModel hw).bind (m := 0) fun data => ?_
  cases data with
  | none => trivial
  | some data =>
    refine .ite (.free_bind (spends_log hw) fun _ => trivial) ?_
    cases given data "files" with
    | none => trivial
    | some files => exact .ofExcept_bind fun _ _ => trivial

theorem spends_generateFix {previous : GeneratedChanges} :
    Spends (effort w) (allowance w j) (generateFix issue previous) (w .ask) := by
  refine (spends_backendModel hw).bind (m := 0) fun data => ?_
  cases data with
  | none => trivial
  | some data => exact .ite trivial (.ofExcept_bind fun _ _ => trivial)

theorem spends_pytest {wt : Worktree} {files : List String} {label : String} :
    Spends (effort w) (allowance w j) (pytest wt files label) (w .test) := by
  have hrun : ∀ args, effort w (.run args (some wt.path)) ≤ w .test := by
    intro args
    rw [effort, kind]
    split
    · exact Nat.le_refl _
    · exact hw.le.trans (Nat.zero_le _)
  have hcmd : Tame (kind · = .other) IsBase (resolvePytestCmd wt) := .bind (tame_act rfl) fun _ => trivial
  exact .ite trivial (.free_bind (spends_other hw hcmd) fun cmd =>
    (spends_perform (hrun _)).bind (m := 0) fun _ => trivial)

theorem spends_logRetry {attempt : Nat} {phase : String} {more : List (String × Json)} :
    Spends (effort w) (allowance w j) (logRetry issue.number attempt phase more) 0 := spends_log hw

/-- A round asks once and tests twice. -/
theorem spends_retries : ∀ {rounds : List Nat} {current : GeneratedChanges} {result : PytestRun} {attempts : Nat},
    Spends (effort w) (allowance w j) (retries (ownWorktree root issue) issue rounds current result attempts)
      (rounds.length * (w .ask + 2 * w .test))
  | [], _, _, _ => trivial
  | _ :: rounds, _, _, _ => by
    have hround : w .ask + (w .test + (w .test + rounds.length * (w .ask + 2 * w .test))) =
        (rounds.length + 1) * (w .ask + 2 * w .test) := by ring
    rw [List.length_cons, ← hround]
    refine (spends_generateFix hw).bind fun fix => ?_
    cases fix with
    | none => exact .free_bind (spends_logRetry hw) fun _ => trivial
    | some fix =>
      refine .ofExcept_bind fun forbidden hv => ?_
      by_cases hf : forbidden = []
      · subst hf
        refine .free_bind (spends_working hw (working_writeFiles hv)) fun _ => .ofExcept_bind fun _ _ => ?_
        refine (spends_pytest hw).bind fun _ => .free_bind (spends_logRetry hw) fun _ => .ite ?_ ?_
        · exact .mono spends_retries (Nat.le_add_left _ _)
        · refine .free_bind (spends_working hw working_fullUtilsTests) fun _ => (spends_pytest hw).bind fun _ => ?_
          exact .free_bind (spends_logRetry hw) fun _ => .ite spends_done spends_retries
      · rw [if_pos hf]
        exact .free_bind (spends_logRetry hw) fun _ => trivial

theorem spends_runTests {changes : GeneratedChanges} :
    Spends (effort w) (allowance w j) (runTestsWithRetries (ownWorktree root issue) issue changes)
      (2 * w .ask + 6 * w .test) := by
  have hretries : ∀ result, Spends (effort w) (allowance w j)
      (retries (ownWorktree root issue) issue (List.range' 1 maxTestRetries) changes result 1)
      (2 * (w .ask + 2 * w .test)) := fun _ => spends_retries hw
  have hall : w .test + (w .test + 2 * (w .ask + 2 * w .test)) = 2 * w .ask + 6 * w .test := by ring
  rw [← hall]
  refine .ofExcept_bind fun _ _ => (spends_pytest hw).bind fun _ => .free_bind (spends_logRetry hw) fun _ => .ite ?_ ?_
  · refine .free_bind (spends_working hw working_fullUtilsTests) fun _ => (spends_pytest hw).bind fun _ => ?_
    exact .free_bind (spends_logRetry hw) fun _ => .ite spends_done (hretries _)
  · exact (hretries _).mono (Nat.le_add_left _ _)

theorem spends_publish {wt : Worktree} {changes : GeneratedChanges} {test : TestResult} :
    Spends (effort w) (allowance w j) (publish wt issue changes test) (w .publish) := by
  have hred : ∀ pr, Tame (kind · = .other) IsBase (labelRed pr test.green) :=
    fun pr => .ite trivial (tame_catchingGitHub (tame_act rfl) fun _ => trivial)
  have hcomment : ∀ pr, Tame (kind · = .other) IsBase (commentPrWithTests pr test) :=
    fun pr => .ite trivial (tame_catchingGitHub (tame_act rfl) fun _ => trivial)
  refine Spends.bind (n := w .publish) (m := 0) ((spends_perform (Nat.le_refl _)).bind (m := 0) fun pr => ?_) fun pr => ?_
  · exact spends_other hw ((hred pr).bind fun _ => trivial)
  · refine spends_other hw ((hcomment pr).bind fun _ => .bind (tame_act rfl) fun _ => ?_)
    exact .bind (tame_act rfl) fun _ => .bind (tame_act rfl) fun _ => tame_act rfl

theorem spends_implement : Spends (effort w) (allowance w j) (implement (ownWorktree root issue) issue)
    (3 * w .ask + 6 * w .test + w .publish) := by
  have hblock : ∀ (reason : String), Spends (effort w) (allowance w j) (block issue.number reason) 0 := by
    intro reason
    have hworking : Tame (Working root issue) IsBase (block issue.number reason) := working_blocking
    exact spends_working hw hworking
  have hcommit : ∀ changes, Tame (kind · = .other) IsBase
      (commitAndPush (ownWorktree root issue) changes issue.number) := fun _ =>
    .bind (tame_act rfl) fun _ => .ite trivial (.bind (tame_act rfl) fun _ => .ite trivial (.bind (tame_act rfl)
      fun _ => .ite trivial (.bind (tame_act rfl) fun _ => .ite trivial trivial)))
  have hall : w .ask + (2 * w .ask + 6 * w .test + w .publish) = 3 * w .ask + 6 * w .test + w .publish := by ring
  rw [← hall]
  have hfetch : Tame (Working root issue) IsBase (fetchIssueComments issue.number) := working_fetchIssueComments
  refine .free_bind (spends_working hw hfetch) fun _ => (spends_generateChanges hw).bind fun changes => ?_
  cases changes with
  | none => exact (hblock _).mono (Nat.zero_le _)
  | some changes =>
    refine .ofExcept_bind fun forbidden hv => ?_
    by_cases hf : forbidden = []
    · subst hf
      refine .free_bind (spends_working hw (working_writeFiles hv)) fun _ => (spends_runTests hw).bind fun test => ?_
      refine .free_bind (spends_other hw (hcommit changes)) fun msg => ?_
      cases msg with
      | some msg => exact (hblock _).mono (Nat.zero_le _)
      | none => exact spends_publish hw
    · rw [if_pos hf]
      exact (hblock _).mono (Nat.zero_le _)

omit hw in
theorem spends_catchingAll {p : Agent Unit} {f : Raised → Agent Unit} {n : Nat}
    (hp : Spends (effort w) (allowance w j) p n) (hf : ∀ e, Spends (effort w) (allowance w j) (f e) 0) :
    Spends (effort w) (allowance w j) (catchingAll p f) n :=
  hp.catching (m := 0) fun e => by cases e <;> first | exact hf _ | trivial

theorem spends_workOne : Spends (effort w) (allowance w j) (workOne root issue)
    (3 * w .ask + 6 * w .test + w .publish) := by
  have hblock : ∀ (reason : String), Spends (effort w) (allowance w j) (block issue.number reason) 0 := by
    intro reason
    have hworking : Tame (Working root issue) IsBase (block issue.number reason) := working_blocking
    exact spends_working hw hworking
  refine .free_bind (spends_log hw) fun _ => .free_bind (spends_other hw (tame_act rfl)) fun _ => ?_
  refine ((spends_working hw working_setUp).gives_bind gives_setUp fun wt hwt => ?_).mono (Nat.zero_add _).le
  cases wt with
  | none => trivial
  | some wt =>
    cases hwt wt rfl
    refine Spends.ensuring (m := 0) (spends_catchingAll (spends_implement hw) fun _ => hblock _) ?_
    exact spends_working hw working_cleanUp

end

/-! ## Heartbeats -/

def budget (w : Kind → Nat) : Job → Nat
  | .ceo | .triage => 0
  | .backend => 3 * w .ask + 6 * w .test + w .publish

omit hw in
theorem spends_noted {β : Type} {p : Agent Unit} {f : Option β → Agent Unit} {n : Nat}
    (hp : Spends (effort w) (allowance w j) p 0) (hf : f none = pure ()) :
    Spends (effort w) (allowance w j) ((do p; return none : Agent (Option β)) >>= f) n := by
  have hnone : Gives (· = none) (do p; return none : Agent (Option β)) := by
    refine Program.gives_bind fun _ a heq => ?_
    cases heq
    rfl
  refine ((hp.free_bind fun _ => spends_done).gives_bind (n := 0) hnone fun a ha => ?_).mono (Nat.zero_add n).le
  rw [ha, hf]
  trivial

theorem spends_picked {root : Path} (o : Option IssueInfo) :
    Spends (effort w) (allowance w .backend)
      (match o with
        | none => pure ()
        | some issue => BackendAgent.workOne root issue) (budget w .backend) := by
  cases o with
  | none => trivial
  | some issue => exact spends_workOne hw

theorem spends_heartbeat {isWord : Char → Bool} {root : Path} (j : Job) :
    Spends (effort w) (allowance w j) (heartbeat isWord root j) (budget w j) := by
  cases j with
  | ceo =>
    refine .free_bind (spends_other hw (tame_act (o := .getenv _) rfl)) fun paused => .ite (spends_log hw) ?_
    refine ⟨hw.le, fun x => ?_⟩
    cases x with
    | error e =>
      cases e with
      | gitHubApp text => exact spends_noted (spends_log hw) rfl
      | _ => trivial
    | ok prs =>
      refine (Spends.each (n := w .decide) fun pr => ?_).mono (Nat.le_add_left _ _)
      exact spends_catchingAll (spends_reviewPr hw) fun _ => spends_log hw
  | triage =>
    refine ⟨hw.le, fun x => ?_⟩
    cases x with
    | error e =>
      cases e with
      | base text => trivial
      | _ => exact spends_noted (spends_log hw) rfl
    | ok issues =>
      refine (Spends.each (n := w .ask) fun issue => ?_).mono (Nat.le_add_left _ _)
      exact spends_catchingAll (spends_triageOne hw) fun _ => spends_log hw
  | backend =>
    refine .free_bind (spends_other hw (tame_act (o := .getenv _) rfl)) fun paused =>
      .ite ((spends_log hw).mono (Nat.zero_le _)) ?_
    refine ⟨hw.le.trans (Nat.zero_le _), fun x => ?_⟩
    cases x with
    | error e =>
      cases e with
      | gitHubApp text => exact spends_noted (spends_log hw) rfl
      | _ => trivial
    | ok issues =>
      have hbudget : budget w .backend ≤ budget w .backend - effort w (.listOpenIssues [areaLabel, readyLabel]) +
          allowance w .backend (.listOpenIssues [areaLabel, readyLabel]) (.ok issues) := by
        rw [show effort w (.listOpenIssues [areaLabel, readyLabel]) = 0 from hw, Nat.sub_zero]
        exact Nat.le_add_right _ _
      exact Spends.mono (spends_picked hw ((issues.filter BackendAgent.isCandidate).argmin IssueInfo.number)) hbudget

end

/-! ## The team -/

section
variable {τ : Type}

def times (k : Kind) (h : History Op Reply Raised τ) : Nat := h.countP fun e => kind e.op = k

def pullsListed (h : History Op Reply Raised τ) : Nat := (h.map fun
  | ⟨.listOpenPrs, .ok prs, _⟩ => prs.length
  | _ => 0).sum

def issuesListed (h : History Op Reply Raised τ) : Nat := (h.map fun
  | ⟨.listOpenIssues _, .ok issues, _⟩ => issues.length
  | _ => 0).sum

def limit : Job → Kind → History Op Reply Raised τ → Nat
  | .ceo, .decide, h => pullsListed h
  | .triage, .ask, h => issuesListed h
  | .backend, .ask, _ => 3
  | .backend, .test, _ => 6
  | .backend, .publish, _ => 1
  | _, _, _ => 0

theorem spent_single {k : Kind} {h : History Op Reply Raised τ} :
    spent (effort (Pi.single k 1)) h = times k h := by
  refine spent_eq_countP (c := fun o => decide (kind o = k)) fun o => ?_
  rw [effort, Pi.single_apply]
  by_cases hk : kind o = k <;> simp [hk]

theorem earned_ceo {w : Kind → Nat} {h : History Op Reply Raised τ} :
    earned (allowance w .ceo) h = pullsListed h * w .decide := by
  induction h with
  | nil => simp [earned, pullsListed]
  | cons e h ih =>
    simp only [earned, pullsListed, List.map_cons, List.sum_cons, Nat.add_mul] at ih ⊢
    rw [ih]
    congr 1
    obtain ⟨o, x, t⟩ := e
    cases o <;> cases x <;> simp [allowance]

theorem earned_triage {w : Kind → Nat} {h : History Op Reply Raised τ} :
    earned (allowance w .triage) h = issuesListed h * w .ask := by
  induction h with
  | nil => simp [earned, issuesListed]
  | cons e h ih =>
    simp only [earned, issuesListed, List.map_cons, List.sum_cons, Nat.add_mul] at ih ⊢
    rw [ih]
    congr 1
    obtain ⟨o, x, t⟩ := e
    cases o <;> cases x <;> simp [allowance]

theorem earned_backend {w : Kind → Nat} {h : History Op Reply Raised τ} : earned (allowance w .backend) h = 0 :=
  List.sum_eq_zero (by simp [allowance])

theorem limit_eq {j : Job} {k : Kind} {h : History Op Reply Raised τ} :
    budget (Pi.single k 1) j + earned (allowance (Pi.single k 1) j) h = limit j k h := by
  cases j with
  | ceo =>
    rw [earned_ceo]
    cases k <;> simp [budget, limit]
  | triage =>
    rw [earned_triage]
    cases k <;> simp [budget, limit]
  | backend =>
    rw [earned_backend]
    cases k <;> simp [budget, limit]

end

section
variable {ι : Type} [DecidableEq ι]

/-- In no run of the team does a heartbeat do more than its limits, whatever it is answered. -/
theorem work_bounded (isWord : Char → Bool) (root : Path) (bot : String) (s : TeamState ι)
    (hs : (teamMachine isWord root bot).Reach Machine.Any s) :
    ∀ i p, s.party i = some p → ∀ k, k ≠ .other → times k p.seen ≤ limit p.job k p.seen := by
  intro i p hp k hk
  have hw : (Pi.single k 1 : Kind → Nat) .other = 0 := Pi.single_eq_of_ne hk.symm 1
  have hspends := Crew.spends (C := team isWord root bot) (fun j => spends_heartbeat hw j) hs i p hp
  rwa [spent_single, limit_eq] at hspends

end

theorem work_bounded_run : ∃ (s : TeamState Unit) (p : Party Op Reply Raised Job (Event Unit)),
    s.party () = some p ∧ times .ask p.seen = 1 ∧ ∀ k, k ≠ .other → times k p.seen ≤ limit p.job k p.seen := by
  obtain ⟨s, hs, p, hp, hask⟩ := Machine.reach_of_exec (teamMachine (fun _ => true) [] "kola-team-bot") Machine.Any
    ([.event (.issued 7), .event (.described 7 { title := "t", body := none, draft := false }),
        .event (.relabelled 7 {"area/api", "ready-for-dev"} none), .start () .triage] ++
      List.replicate 4 (.answer () untriaged))
    (fun s => ∃ p ∈ s.party (), times .ask p.seen = 1) (by decide +kernel)
  exact ⟨s, p, hp, hask, work_bounded (fun _ => true) [] "kola-team-bot" s hs () p hp⟩

end AdmissionScheduler.Orchestrator
