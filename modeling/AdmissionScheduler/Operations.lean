import AdmissionScheduler.Budget
import AdmissionScheduler.CharterRules
import AdmissionScheduler.PosixPath
import AdmissionScheduler.Program
import AdmissionScheduler.PyValue

/-!
# What the agents do to the world

Every request to GitHub (`orchestrator/github_app.py`), and every use of the
token budget, the model, the file system, git and the log, is one operation. It
comes back with a reply or raises. An agent is a program of operations. The
prompts sent to the model are left out, and so are the comments read for them.
-/

namespace AdmissionScheduler.Orchestrator

open PyText

inductive Raised where
  | gitHubApp (text : String)
  | worktree (text : String)
  | budgetExceeded (text : String)
  | budgetUnavailable (text : String)
  | llmTimeout (text : String)
  | llm (text : String)
  /-- any other `Exception` -/
  | other (text : String)
  /-- what `except Exception` lets through, such as a cancellation -/
  | base (text : String)
  deriving DecidableEq

namespace Raised

def text : Raised → String
  | gitHubApp t | worktree t | budgetExceeded t | budgetUnavailable t | llmTimeout t | llm t | other t | base t => t

def isBase : Raised → Bool
  | base _ => true
  | _ => false

end Raised

/-! ## Operations and replies -/

structure IssueInfo where
  number : Nat
  title : String
  labels : Finset String
  deriving DecidableEq

structure WorkflowRuns where
  totalCount : Option Int
  workflowRuns : Option (List CheckRun)
  deriving DecidableEq

/-- `LLMResult`; `data` is what the caller's `_extract_json` makes of the content. -/
structure LLMResult where
  content : String
  model : String
  totalTokens : Int
  data : Option (List (String × Json))

structure Completed where
  exitCode : Int
  out : String
  err : String

inductive Op where
  | getenv (name : String)
  | logEvent (role action : String) (payload : List (String × Json))
  | listOpenPrs
  | getPr (number : Nat)
  | getPrFiles (number : Nat)
  | checkRuns (sha : String)
  | workflowRuns (sha : String)
  | commentPr (number : Nat) (body : String)
  | approvePr (number : Nat) (body : String)
  | mergePr (number : Nat) (commitTitle commitMessage : String)
  | closePr (number : Nat)
  | addLabels (number : Nat) (labels : List String)
  | removeLabel (number : Nat) (label : String)
  | setIssueLabels (number : Nat) (labels : Finset String)
  | listOpenIssues (labels : List String)
  | listIssueComments (number : Nat)
  | commentIssue (number : Nat) (body : String)
  /-- `green`, the test result the pull request comes with, is not part of the request -/
  | createPullRequest (title body head base : String) (green : Bool)
  | getClient
  | checkAndReserve (role : Budget.Role) (expectedTokens : Int)
  | commitTokens (reservation : Budget.Reservation) (actualTokens : Int)
  | callModel (role : String) (maxTokens : Nat)
  | exists_ (path : Path)
  | mkdir (path : Path)
  | writeText (path : Path) (content : String)
  | pythonFiles (dir : Path)
  | repoTree (root : Path)
  | rmtree (path : Path)
  | run (args : List String) (cwd : Option Path)

abbrev Reply : Op → Type
  | .getenv _ => Option String
  | .logEvent .. => Unit
  | .listOpenPrs => List PullInfo
  | .getPr _ => PullInfo
  | .getPrFiles _ => List PrFile
  | .checkRuns _ => PrStatus
  | .workflowRuns _ => WorkflowRuns
  | .commentPr .. | .approvePr .. | .mergePr .. | .closePr .. => Unit
  | .addLabels .. | .removeLabel .. | .setIssueLabels .. => Unit
  | .listOpenIssues _ => List IssueInfo
  | .listIssueComments _ => Unit
  | .commentIssue .. => Unit
  | .createPullRequest .. => Nat
  | .getClient => Unit
  | .checkAndReserve .. => Budget.Reservation
  | .commitTokens .. => Unit
  | .callModel .. => LLMResult
  | .exists_ _ => Bool
  | .mkdir .. | .writeText .. => Unit
  | .pythonFiles _ => List String
  | .repoTree _ | .rmtree _ => Unit
  | .run .. => Completed

def needsReviewLabel : String := "needs-human-review"

abbrev Agent := Program Op Reply Raised

def act (o : Op) : Agent (Reply o) := Program.perform o

def raise {α : Type} (e : Raised) : Agent α := Program.raise e

def catchingGitHub {α : Type} (p : Agent α) (h : String → Agent α) : Agent α :=
  p.catching fun
    | .gitHubApp text => h text
    | e => raise e

def catchingAll {α : Type} (p : Agent α) (h : Raised → Agent α) : Agent α :=
  p.catching fun
    | .base text => raise (.base text)
    | e => h e

/-! ## Rules -/

section
open Program
variable {α β τ : Type} {A : History Op Reply Raised τ → Program.Entry Op Reply Raised τ → Prop}
  {G : History Op Reply Raised τ → Op → Prop} {Q : History Op Reply Raised τ → Except Raised α → Prop}
  {P : Op → Prop} {p : Agent α} {h : History Op Reply Raised τ}

theorem meets_act {o : Op} {Q : History Op Reply Raised τ → Except Raised (Reply o) → Prop} :
    Meets A G Q (act o) h ↔ G h o ∧ ∀ x t, A h ⟨o, x, t⟩ → Q (⟨o, x, t⟩ :: h) x := Iff.rfl

theorem meets_catchingGitHub {f : String → Agent α} : Meets A G Q (catchingGitHub p f) h ↔
    Meets A G (fun h r => match r with
      | .error (.gitHubApp text) => Meets A G Q (f text) h
      | r => Q h r) p h := by
  rw [catchingGitHub, meets_catching]
  constructor <;> refine fun hp => hp.mono fun h r hr => ?_ <;> rcases r with e | a
  all_goals first | exact hr | cases e <;> exact hr

theorem meets_catchingAll {f : Raised → Agent α} : Meets A G Q (catchingAll p f) h ↔
    Meets A G (fun h r => match r with
      | .ok a => Q h (.ok a)
      | .error e => if e.isBase then Q h (.error e) else Meets A G Q (f e) h) p h := by
  rw [catchingAll, meets_catching]
  constructor <;> refine fun hp => hp.mono fun h r hr => ?_ <;> rcases r with e | a
  all_goals first | exact hr | cases e <;> exact hr

theorem guarantee_act {o : Op} (ho : G h o) : Meets A G (fun _ _ => True) (act o) h := ⟨ho, fun _ _ _ => trivial⟩

theorem guarantee_catchingAll {f : Raised → Agent α} (hp : Meets A G (fun _ _ => True) p h)
    (hf : ∀ e h, Meets A G (fun _ _ => True) (f e) h) : Meets A G (fun _ _ => True) (catchingAll p f) h :=
  guarantee_catching hp fun e h => by cases e <;> first | exact hf _ h | trivial

/-- An exception that `except Exception` lets through. -/
def IsBase (e : Raised) : Prop := e.isBase = true

theorem tame_act {o : Op} (ho : P o) : Tame P IsBase (act o) := tame_perform ho

theorem tame_catchingGitHub {f : String → Agent α} (hp : Tame P IsBase p) (hf : ∀ e, Tame P IsBase (f e)) :
    Tame P IsBase (catchingGitHub p f) :=
  hp.catching (fun e he => by cases e <;> first | exact hf _ | exact he)
    fun e he => by cases e <;> first | rfl | cases he

theorem tame_catchingAll {f : Raised → Agent α} (hp : Tame P IsBase p) (hf : ∀ e, Tame P IsBase (f e)) :
    Tame P IsBase (catchingAll p f) :=
  hp.catching (fun e he => by cases e <;> first | exact hf _ | exact he)
    fun e he => by cases e <;> first | rfl | cases he

end

/-! ## Requests made of requests -/

/-- The state of the head's check runs, or of its workflow runs where the app may not read checks. -/
def getPrStatus (number : Nat) : Agent PrStatus := do
  let pr : PullInfo ← act (.getPr number)
  catchingGitHub (act (.checkRuns pr.headSha)) fun e =>
    if occursIn "403".toList e.toList then do
      let runs : WorkflowRuns ← act (.workflowRuns pr.headSha)
      return { totalCount := runs.totalCount.getD 0, checkRuns := runs.workflowRuns.getD [] }
    else raise (.gitHubApp e)

/-- `check_and_reserve` as the agents call it: no reservation when the budget cannot be read. -/
inductive Reserved where
  | exceeded
  | reserved (reservation : Option Budget.Reservation)

def reserveTokens (role : Budget.Role) (expected : Int) (number : Nat) : Agent Reserved :=
  (do let r ← act (.checkAndReserve role expected); return Reserved.reserved (some r)).catching fun
    | .budgetExceeded e => do
      act (.logEvent role.name "budget-exceeded" [("issue", .int number), ("detail", .str e)])
      return .exceeded
    | .budgetUnavailable e => do
      act (.logEvent role.name "budget-unavailable" [("issue", .int number), ("detail", .str e)])
      return .reserved none
    | e => raise e

/-- `if reservation is not None: await commit(red, reservation, actual)` -/
def settle (reservation : Option Budget.Reservation) (actual : Int) : Agent Unit :=
  match reservation with
  | some r => act (.commitTokens r actual)
  | none => pure ()

section
open Program
variable {P : Op → Prop} {role : Budget.Role} {expected actual : Int} {number : Nat}
  {reservation : Option Budget.Reservation}

theorem tame_reserveTokens (hp : P (.checkAndReserve role expected)) (hl : ∀ a p, P (.logEvent role.name a p)) :
    Tame P IsBase (reserveTokens role expected number) := by
  refine .catching (.bind (tame_act hp) fun _ => trivial) (fun e he => ?_) fun e he => ?_
  · cases e <;> first | exact .bind (tame_act (hl _ _)) fun _ => trivial | exact he
  · cases e <;> first | rfl | cases he

theorem tame_settle (hp : ∀ r, P (.commitTokens r actual)) : Tame P IsBase (settle reservation actual) := by
  cases reservation with
  | none => trivial
  | some r => exact tame_act (hp r)

end

end AdmissionScheduler.Orchestrator
