import AdmissionScheduler.Operations

/-!
# The CEO agent

`orchestrator/roles/ceo.py`: one heartbeat reviews every open pull request an
agent opened. It closes the pull request, merges it, or asks for a human.
-/

namespace AdmissionScheduler.Orchestrator

open PyText

def autoMergedLabel : String := "auto-merged-by-ceo-agent"

/-- A merge refused because of the branch protection, going by the text of the error. -/
def mergeBlocked (e : String) : Bool :=
  let lower := e.toList.map Char.toLower
  occursIn "405".toList e.toList || occursIn "branch protection".toList lower ||
    occursIn "approving review".toList lower

namespace CeoAgent

def rejectPr (pr : PullInfo) (reason : String) : Agent Unit := do
  act (.commentPr pr.number
    ("🛑 CEO Agent — rejection automatique (charte §4) :\n\n- " ++ reason ++
      "\n\nFermeture immédiate. Voir CHARTER.md §1/§4."))
  act (.closePr pr.number)
  act (.logEvent "ceo" "auto-close" [("pr", .int pr.number), ("reason", .str reason)])

def reportBlocked (pr : PullInfo) (e : String) : Agent Unit :=
  if needsReviewLabel ∈ pr.labels then pure ()
  else do
    act (.addLabels pr.number [needsReviewLabel])
    act (.commentPr pr.number
      ("⚠️ CEO Agent — conditions §3 OK mais merge bloqué par branch protection :\n\n```\n" ++ clip 300 e ++
        "\n```\n\n@fossouo : approve + merge manuellement, ou ajuster la protection pour permettre " ++
        "merge sans review humaine si CI = green."))

def clearReview (pr : PullInfo) : Agent Unit :=
  if needsReviewLabel ∈ pr.labels then
    catchingGitHub (act (.removeLabel pr.number needsReviewLabel)) fun _ => pure ()
  else pure ()

def tryMerge (pr : PullInfo) : Agent Bool :=
  catchingGitHub
    (match pr.body with
      | none => raise (.other "'NoneType' object is not subscriptable")
      | some body => do
        act (.mergePr pr.number pr.title
          ("Auto-merged by CEO Agent (charte §3).\n\nOriginal body:\n" ++ clip 500 body))
        return true)
    fun e =>
      if mergeBlocked e then do
        reportBlocked pr e
        act (.logEvent "ceo" "merge-blocked" [("pr", .int pr.number), ("error", .str (clip 300 e))])
        return false
      else raise (.gitHubApp e)

def acceptPr (pr : PullInfo) : Agent Unit := do
  -- the bot may not approve its own pull request
  catchingGitHub (act (.approvePr pr.number "Auto-approved by CEO Agent (charte §3, all conditions met)."))
    fun _ => pure ()
  let merged ← tryMerge pr
  if merged then do
    clearReview pr
    act (.addLabels pr.number [autoMergedLabel])
    act (.logEvent "ceo" "auto-merge" [("pr", .int pr.number), ("sha", .str pr.headSha)])
  else pure ()

def requestReview (pr : PullInfo) (reason : String) : Agent Unit :=
  if needsReviewLabel ∈ pr.labels then pure ()
  else do
    act (.addLabels pr.number [needsReviewLabel])
    act (.commentPr pr.number
      ("⚠️ CEO Agent — revue humaine requise (charte §3) :\n\n- " ++ reason ++
        "\n\nAucune action automatique. @fossouo doit décider."))
    act (.logEvent "ceo" "needs-human-review" [("pr", .int pr.number), ("reason", .str reason)])

variable (isWord : Char → Bool)

def reviewPr (pr : PullInfo) : Agent Unit :=
  if pr.draft then pure ()
  else if !isAgentPr pr then pure ()
  else do
    let files : List PrFile ← act (.getPrFiles pr.number)
    let status ← getPrStatus pr.number
    let rej := checkCharter4 isWord files
    if !rej.ok then rejectPr pr rej.reason
    else
      let ok := checkCharter3 pr files status
      if ok.ok then acceptPr pr else requestReview pr ok.reason

def heartbeat : Agent Unit := do
  let paused : Option String ← act (.getenv "KOLA_CEO_PAUSED")
  if paused = some "1" then act (.logEvent "ceo" "paused" [("reason", .str "KOLA_CEO_PAUSED=1")])
  else do
    let prs : Option (List PullInfo) ← catchingGitHub
      (do let prs ← act .listOpenPrs; return some prs)
      fun e => do
        act (.logEvent "ceo" "heartbeat-fail" [("error", .str e)])
        return none
    match prs with
    | none => pure ()
    | some prs => Program.each (fun pr => catchingAll (reviewPr isWord pr) fun e =>
        act (.logEvent "ceo" "review-fail" [("pr", .int pr.number), ("error", .str e.text)])) prs

end CeoAgent

end AdmissionScheduler.Orchestrator
