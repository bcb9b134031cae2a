import AdmissionScheduler.Operations
import Mathlib.Data.Finset.Sort
import Mathlib.Data.String.Basic

/-!
# The triage agent

`orchestrator/roles/triage.py`: one heartbeat labels every open issue that is not
labelled yet. The labels of an issue are those of the list the heartbeat began
with; the model is asked in between, and the write replaces the whole set.
-/

namespace AdmissionScheduler.Orchestrator

open PyText

def triageBudget : Budget.Role := { name := "triage", dailyTokenCap := 100000 }

namespace TriageAgent

def validAreas : List String := ["area/api", "area/web", "area/infra", "area/docs", "area/team-ops"]

def validKinds : List String := ["kind/bug", "kind/feature", "kind/chore", "kind/task"]

def hasPrefix (p : String) (labels : Finset String) : Prop := ∃ l ∈ labels, p.toList.isPrefixOf l.toList = true

instance (p : String) (labels : Finset String) : Decidable (hasPrefix p labels) :=
  inferInstanceAs (Decidable (∃ l ∈ labels, _))

def triaged (labels : Finset String) : Prop :=
  hasPrefix "area/" labels ∧ hasPrefix "kind/" labels ∧ ("ready-for-dev" ∈ labels ∨ "needs-info" ∈ labels)

instance (labels : Finset String) : Decidable (triaged labels) := inferInstanceAs (Decidable (_ ∧ _))

/-- The value under `key` when it is one of `valid`. -/
def chosen (data : List (String × Json)) (key : String) (valid : List String) : Except Raised (Finset String) :=
  match Json.field? data key with
  | some (.str s) => .ok (if s ∈ valid then {s} else ∅)
  | some (.arr _) => .error (.other "unhashable type: 'list'")
  | some (.obj _) => .error (.other "unhashable type: 'dict'")
  | _ => .ok ∅

def isReady (data : List (String × Json)) : Bool := ((Json.field? data "ready").getD .null).truthy

def missingInfo (data : List (String × Json)) : Except Raised String :=
  match Json.field? data "missing_info" with
  | some (.str s) => .ok (String.ofList (stripSpace s.toList))
  | some v =>
    if v.truthy then .error (.other ("'" ++ v.typeName ++ "' object has no attribute 'strip'")) else .ok ""
  | none => .ok ""

def suggested (labels : Finset String) (area kind : Finset String) (ready : Bool) (missing : String) : Finset String :=
  if ready ∧ "needs-info" ∉ labels ∪ area ∪ kind then area ∪ kind ∪ {"ready-for-dev"}
  else if missing ≠ "" then area ∪ kind ∪ {"needs-info", "needs-info-commented"}
  else area ∪ kind

def sortedText (labels : Finset String) : Json := .arr ((labels.sort (· ≤ ·)).map .str)

def askModel (number : Nat) : Agent (Option LLMResult) := do
  act .getClient
  match ← reserveTokens triageBudget 600 number with
  | .exceeded => return none
  | .reserved reservation =>
    let res : Option LLMResult ← (do let r ← act (.callModel "triage" 200); return some r).catching fun
      | .llmTimeout _ | .llm _ => do settle reservation 600; return none
      | e => raise e
    match res with
    | none => return none
    | some res => do
      settle reservation res.totalTokens
      match res.data with
      | some (_ :: _) => return some res
      | _ => do
        act (.logEvent "triage" "json-parse-fail" [("issue", .int number), ("raw", .str (clip 200 res.content))])
        return none

def newLabels (number : Nat) (labels : Finset String) (data : List (String × Json)) : Agent (Finset String) := do
  let area ← Program.ofExcept (chosen data "area" validAreas)
  let kind ← Program.ofExcept (chosen data "kind" validKinds)
  let new := labels ∪ area ∪ kind
  let ready := isReady data
  let missing ← Program.ofExcept (missingInfo data)
  if ready ∧ "needs-info" ∉ new then return new ∪ {"ready-for-dev"}
  else if missing ≠ "" then
    if "needs-info-commented" ∉ labels then do
      act (.commentIssue number
        ("🤖 Triage Agent — il me manque de l'info pour assigner cette issue :\n\n> " ++ missing ++
          "\n\nPeux-tu compléter le body ?"))
      return new ∪ {"needs-info"} ∪ {"needs-info-commented"}
    else return new ∪ {"needs-info"}
  else return new

def triageOne (issue : IssueInfo) : Agent Unit :=
  if triaged issue.labels then pure ()
  else do
    match ← askModel issue.number with
    | none => pure ()
    | some res => do
      let new ← newLabels issue.number issue.labels (res.data.getD [])
      if new ≠ issue.labels then do
        act (.setIssueLabels issue.number new)
        act (.logEvent "triage" "labeled" [("issue", .int issue.number),
          ("added", sortedText (new \ issue.labels)), ("removed", sortedText (issue.labels \ new)),
          ("tokens", .int res.totalTokens), ("model", .str res.model)])
      else pure ()

def heartbeat : Agent Unit := do
  let issues : Option (List IssueInfo) ← catchingAll
    (do let issues ← act (.listOpenIssues []); return some issues)
    fun e => do
      act (.logEvent "triage" "heartbeat-fail" [("error", .str e.text)])
      return none
  match issues with
  | none => pure ()
  | some issues => Program.each (fun issue => catchingAll (triageOne issue) fun e =>
      act (.logEvent "triage" "fail" [("issue", .int issue.number), ("error", .str e.text)])) issues

end TriageAgent

end AdmissionScheduler.Orchestrator
