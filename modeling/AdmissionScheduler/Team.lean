import AdmissionScheduler.BackendAgent
import AdmissionScheduler.CeoAgent
import AdmissionScheduler.Crew
import AdmissionScheduler.TriageAgent

/-!
# The team

`orchestrator/main.py` runs the heartbeats of the agents side by side, and those
of an earlier tick may still be running: one that raised ends the tick, not the
others. Here any number of heartbeats share the hub. What the hub replies follows
from its log: pushes, what is known about commits, pull requests and issues, and
their labels. Everybody else, git included, acts on it at any time.
-/

namespace AdmissionScheduler.Orchestrator

inductive Job where
  | ceo | triage | backend
  deriving DecidableEq

structure Actor (ι : Type) where
  party : ι
  job : Job
  deriving DecidableEq

structure Description where
  title : String
  body : Option String
  draft : Bool
  deriving DecidableEq

/-- What stays with a pull request; `red` when it was opened with a test result that is not green. -/
structure Pull where
  login : String
  branch : String
  red : Bool
  deriving DecidableEq

inductive Event (ι : Type) where
  | pushed (branch sha : String)
  | diffed (sha : String) (files : List PrFile)
  | checked (sha : String) (runs : List CheckRun)
  | workflows (sha : String) (runs : List CheckRun)
  | opened (number : Nat) (pull : Pull)
  | issued (number : Nat)
  | described (number : Nat) (description : Description)
  | closed (number : Nat)
  | reopened (number : Nat)
  | merged (number : Nat) (sha : String) (actor : Option (Actor ι))
  | labelled (number : Nat) (label : String) (actor : Option (Actor ι))
  | unlabelled (number : Nat) (label : String) (actor : Option (Actor ι))
  | relabelled (number : Nat) (labels : Finset String) (actor : Option (Actor ι))
  deriving DecidableEq

/-- The newest event first. -/
abbrev Log (ι : Type) := List (Event ι)

namespace Log

variable {ι : Type}

/-! ## What the log says -/

def head (branch : String) (w : Log ι) : Option String := w.findSome? fun
  | .pushed b sha => if b = branch then some sha else none
  | _ => none

def filesOf (sha : String) (w : Log ι) : List PrFile := (w.findSome? fun
  | .diffed c files => if c = sha then some files else none
  | _ => none).getD []

def checksOf (sha : String) (w : Log ι) : List CheckRun := (w.findSome? fun
  | .checked c runs => if c = sha then some runs else none
  | _ => none).getD []

def workflowsOf (sha : String) (w : Log ι) : List CheckRun := (w.findSome? fun
  | .workflows c runs => if c = sha then some runs else none
  | _ => none).getD []

def description (number : Nat) (w : Log ι) : Option Description := w.findSome? fun
  | .described n d => if n = number then some d else none
  | _ => none

/-- A number is given once; the pull request is the first that got it. -/
def pull (number : Nat) (w : Log ι) : Option Pull := w.reverse.findSome? fun
  | .opened n p => if n = number then some p else none
  | _ => none

def isIssue (number : Nat) (w : Log ι) : Bool := w.any fun
  | .issued n => n = number
  | _ => false

def isOpen (number : Nat) (w : Log ι) : Bool := (w.findSome? fun
  | .opened n _ | .issued n | .reopened n => if n = number then some true else none
  | .closed n | .merged n _ _ => if n = number then some false else none
  | _ => none).getD false

def isMerged (number : Nat) (w : Log ι) : Bool := w.any fun
  | .merged n _ _ => n = number
  | _ => false

def relabel (number : Nat) (old : Finset String) : Event ι → Finset String
  | .labelled n l _ => if n = number then insert l old else old
  | .unlabelled n l _ => if n = number then old.erase l else old
  | .relabelled n new _ => if n = number then new else old
  | _ => old

def labels (number : Nat) : Log ι → Finset String
  | [] => ∅
  | e :: w => relabel number (labels number w) e

def unused (number : Nat) (w : Log ι) : Bool := (pull number w).isNone && !isIssue number w

def pullInfo (number : Nat) (w : Log ι) : Option PullInfo := do
  let p ← pull number w
  let d ← description number w
  let sha ← head p.branch w
  return { number, title := d.title, body := d.body, draft := d.draft, login := p.login, headSha := sha,
           labels := labels number w }

def issueInfo (number : Nat) (w : Log ι) : Option IssueInfo :=
  if isIssue number w then (description number w).map fun d => { number, title := d.title, labels := labels number w }
  else none

end Log

open Log

variable {ι : Type}

/-! ## Requests -/

/-- What `o` comes back with and the events it causes; `r` is the reply where the log does not give it. -/
def effect (bot : String) (w : Log ι) (a : Actor ι) : (o : Op) → Reply o → Option (Reply o × Log ι)
  | .listOpenPrs, prs =>
    if ∀ pr ∈ prs, pullInfo pr.number w = some pr ∧ isOpen pr.number w = true then some (prs, []) else none
  | .getPr n, _ => (pullInfo n w).map (·, [])
  | .getPrFiles n, _ => (pullInfo n w).map fun pr => ((filesOf pr.headSha w).take 100, [])
  | .checkRuns sha, _ => some (⟨(checksOf sha w).length, (checksOf sha w).take 30⟩, [])
  | .workflowRuns sha, _ => some (⟨some (workflowsOf sha w).length, some ((workflowsOf sha w).take 50)⟩, [])
  | .mergePr n _ _, _ =>
    if isOpen n w then (pullInfo n w).map fun pr => ((), [.merged n pr.headSha (some a)]) else none
  | .closePr n, _ => some ((), [.closed n])
  | .addLabels n labels, _ => some ((), labels.reverse.map fun l => .labelled n l (some a))
  | .removeLabel n l, _ => some ((), if l ∈ labels n w then [.unlabelled n l (some a)] else [])
  | .setIssueLabels n labels, _ => some ((), [.relabelled n labels (some a)])
  | .listOpenIssues required, issues =>
    if ∀ issue ∈ issues, issueInfo issue.number w = some issue ∧ isOpen issue.number w = true ∧
      ∀ l ∈ required, l ∈ issue.labels then some (issues, []) else none
  | .createPullRequest title body branch _ green, n =>
    if unused n w ∧ (head branch w).isSome then
      some (n, [.described n ⟨title, some body, false⟩, .opened n ⟨bot, branch, !green⟩])
    else none
  | _, r => some (r, [])

def noReply : (o : Op) → Reply o
  | .getenv _ => none
  | .logEvent .. => ()
  | .listOpenPrs => []
  | .getPr n => { number := n, title := "", body := none, draft := false, login := "", headSha := "", labels := ∅ }
  | .getPrFiles _ => []
  | .checkRuns _ => ⟨0, []⟩
  | .workflowRuns _ => ⟨none, none⟩
  | .commentPr .. | .approvePr .. | .mergePr .. | .closePr .. => ()
  | .addLabels .. | .removeLabel .. | .setIssueLabels .. => ()
  | .listOpenIssues _ => []
  | .listIssueComments _ | .commentIssue .. => ()
  | .createPullRequest .. => 0
  | .getClient => ()
  | .checkAndReserve role expected => ⟨role.name, "", expected⟩
  | .commitTokens .. => ()
  | .callModel .. => ⟨"", "", 0, none⟩
  | .exists_ _ => true
  | .mkdir .. | .writeText .. => ()
  | .pythonFiles _ => []
  | .repoTree _ | .rmtree _ => ()
  | .run .. => ⟨0, "", ""⟩

/-- A request is done, is refused, or is done and the reply gets lost. -/
inductive Answer where
  | done (r : (o : Op) → Reply o)
  | refused (e : Raised)
  | lost (r : (o : Op) → Reply o) (e : Raised)

def serve (bot : String) (w : Log ι) (i : ι) (j : Job) (o : Op) : Answer → Option (Except Raised (Reply o) × Log ι)
  | .done r => (effect bot w ⟨i, j⟩ o (r o)).map fun (x, l) => (.ok x, l)
  | .refused e => some (.error e, [])
  | .lost r e => (effect bot w ⟨i, j⟩ o (r o)).map fun (_, l) => (.error e, l)

/-- What people, git and the checks do. -/
def outside (w : Log ι) : Event ι → Bool
  | .pushed .. | .diffed .. | .checked .. | .workflows .. | .described .. | .closed _ => true
  | .opened n p => unused n w && !p.red
  | .issued n => unused n w
  | .reopened n => !isMerged n w
  | .merged n sha actor => isOpen n w && (pullInfo n w).any (·.headSha = sha) && actor.isNone
  | .labelled _ _ actor | .relabelled _ _ actor => actor.isNone
  | .unlabelled n l actor => l ∈ labels n w && actor.isNone

def heartbeat (isWord : Char → Bool) (teamRoot : Path) : Job → Agent Unit
  | .ceo => CeoAgent.heartbeat isWord
  | .triage => TriageAgent.heartbeat
  | .backend => BackendAgent.heartbeat teamRoot

def team (isWord : Char → Bool) (teamRoot : Path) (bot : String) : Crew Op Reply Raised ι Job Answer (Event ι) where
  program := heartbeat isWord teamRoot
  serve := serve bot
  outside := outside

end AdmissionScheduler.Orchestrator
