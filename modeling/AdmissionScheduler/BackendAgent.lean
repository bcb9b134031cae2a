import AdmissionScheduler.Worktree
import Mathlib.Data.List.MinMax

/-!
# The backend agent

`orchestrator/roles/backend.py`: one heartbeat takes the oldest free issue, asks
the model for files, writes them into a worktree, runs the tests with up to two
retries, pushes, and opens a pull request. The label `in-progress-by-backend`
keeps the issue from being taken twice. Answers of the model are JSON of any
shape; what is not as the code expects raises where the code first touches it.
-/

namespace AdmissionScheduler.Orchestrator

open PyText Worktree

def areaLabel : String := "area/api"
def readyLabel : String := "ready-for-dev"
def inProgressLabel : String := "in-progress-by-backend"
def doneLabel : String := "worked-by-backend"
def blockedLabel : String := "blocked-by-backend"
def maxTestRetries : Nat := 2
def pytestOutputTrunc : Nat := 4000

def backendRole : AgentRole :=
  { name := "backend", dailyTokenCap := 500000, gitName := "kola-backend-agent", gitEmail := "backend@kola-money.local" }

/-! ## Changes -/

structure GeneratedChanges where
  summary : String
  why : String
  files : Json
  tests : List Json
  testCommand : Option Json

structure PytestRun where
  exitCode : Int
  output : String

structure TestResult where
  green : Bool
  attempts : Nat
  output : String

mutual
def reprJson : Json → String
  | .null => "None"
  | .bool true => "True"
  | .bool false => "False"
  | .int n => toString n
  | .float x => x.repr
  | .str s => pyRepr s
  | .arr xs => "[" ++ reprItems xs ++ "]"
  | .obj kvs => "\x7b" ++ reprFields kvs ++ "\x7d"

def reprItems : List Json → String
  | [] => ""
  | [x] => reprJson x
  | x :: xs => reprJson x ++ ", " ++ reprItems xs

def reprFields : List (String × Json) → String
  | [] => ""
  | [kv] => pyRepr kv.1 ++ ": " ++ reprJson kv.2
  | kv :: kvs => pyRepr kv.1 ++ ": " ++ reprJson kv.2 ++ ", " ++ reprFields kvs
end

def strJson : Json → String
  | .str s => s
  | v => reprJson v

/-- `data.get(key)` when it is true -/
def given (data : List (String × Json)) (key : String) : Option Json := (Json.field? data key).filter Json.truthy

def listOf : Json → Except Raised (List Json)
  | .arr xs => .ok xs
  | .str s => .ok (s.toList.map fun c => .str (String.ofList [c]))
  | .obj kvs => .ok ((kvs.map Prod.fst).dedup.map .str)
  | v => .error (.other ("'" ++ v.typeName ++ "' object is not iterable"))

namespace GeneratedChanges

def entries (c : GeneratedChanges) : Except Raised (List Json) :=
  match c.files with
  | .arr xs => .ok (xs ++ c.tests)
  | .str _ => .error (.other "can only concatenate str (not \"list\") to str")
  | v => .error (.other ("unsupported operand type(s) for +: '" ++ v.typeName ++ "' and 'list'"))

end GeneratedChanges

namespace BackendAgent

/-! ## Validation -/

/-- `(f.get("path") or "").strip().lstrip("/")` -/
def checkedPath (f : Json) : Except Raised String :=
  match f with
  | .obj kvs =>
    match given kvs "path" with
    | some (.str s) => .ok (String.ofList (lstrip '/' (stripSpace s.toList)))
    | some v => .error (.other ("'" ++ v.typeName ++ "' object has no attribute 'strip'"))
    | none => .ok ""
  | v => .error (.other ("'" ++ v.typeName ++ "' object has no attribute 'get'"))

def violation (f : Json) : Except Raised (Option String) :=
  match checkedPath f with
  | .error e => .error e
  | .ok p =>
    if p = "" then .ok (some "(empty)")
    else .ok ((matchesForbidden p).map fun hit => p ++ " (matches " ++ hit ++ ")")

def violations : List Json → Except Raised (List String)
  | [] => .ok []
  | f :: l => do
    let v ← violation f
    let bad ← violations l
    return v.toList ++ bad

def validatePaths (c : GeneratedChanges) : Except Raised (List String) := do
  let l ← c.entries
  violations l

/-! ## Writing -/

/-- The file system refuses a path with a zero character before it looks at it. -/
def guardZero (p : Path) (o : Agent Unit) : Agent Unit :=
  if p.any (fun c => '\x00' ∈ c) then raise (.other "embedded null byte") else o

/-- `f["path"]` as the right operand of `/` -/
def entryPath (f : Json) : Except Raised String :=
  match f with
  | .obj kvs =>
    match Json.field? kvs "path" with
    | some (.str s) => .ok s
    | some v => .error (.other ("unsupported operand type(s) for /: 'PosixPath' and '" ++ v.typeName ++ "'"))
    | none => .error (.other "'path'")
  | v => .error (.other ("'" ++ v.typeName ++ "' object is not subscriptable"))

def entryContent (f : Json) : Except Raised String :=
  match f with
  | .obj kvs =>
    match Json.field? kvs "content" with
    | some (.str s) => .ok s
    | some v => .error (.other ("data must be str, not " ++ v.typeName))
    | none => .error (.other "'content'")
  | v => .error (.other ("'" ++ v.typeName ++ "' object is not subscriptable"))

def writeFile (wt : Worktree) (f : Json) : Agent Unit := do
  let path ← Program.ofExcept (entryPath f)
  let p := PosixPath.join wt.path path.toList
  guardZero p.dropLast (act (.mkdir p.dropLast))
  let content ← Program.ofExcept (entryContent f)
  guardZero p (act (.writeText p content))

def writeFiles (wt : Worktree) (c : GeneratedChanges) : Agent Unit := do
  let l ← Program.ofExcept c.entries
  Program.each (writeFile wt) l

/-! ## Asking the model -/

def readTree : Option Path → Agent Unit
  | some root => act (.repoTree root)
  | none => pure ()

/-- Ask the model; `none` when there is no answer to work with. The tree under `root` is shown to it first. -/
def askModel (number : Nat) (root : Option Path) (phase : List (String × Json)) :
    Agent (Option (List (String × Json))) := do
  act .getClient
  match ← reserveTokens backendRole.toRole 8000 number with
  | .exceeded => return none
  | .reserved reservation =>
    readTree root
    let res : Option LLMResult ← (do let r ← act (.callModel "backend" 4000); return some r).catching fun
      | .llmTimeout _ => do
        settle reservation 8000
        act (.logEvent "backend" "llm-timeout" (("issue", .int number) :: phase))
        return none
      | .llm e => do
        settle reservation 8000
        act (.logEvent "backend" "llm-error" (("issue", .int number) :: (phase ++ [("error", Json.str e)])))
        return none
      | e => raise e
    match res with
    | none => return none
    | some res => do
      settle reservation res.totalTokens
      match res.data with
      | some (kv :: data) => return some (kv :: data)
      | _ => do
        act (.logEvent "backend" "json-parse-fail"
          (("issue", .int number) :: (phase ++ [("raw", Json.str (clip 300 res.content))])))
        return none

def shortText (n : Nat) (data : List (String × Json)) (key default_ : String) : String :=
  clip n (((given data key).map strJson).getD default_)

def generateChanges (wt : Worktree) (issue : IssueInfo) : Agent (Option GeneratedChanges) := do
  match ← askModel issue.number (some (wt.path ++ ["apps".toList, "api".toList])) [] with
  | none => return none
  | some data =>
    if Json.field? data "summary" = some (.str "BLOCKED") then do
      act (.logEvent "backend" "llm-blocked"
        [("issue", .int issue.number), ("why", (Json.field? data "why").getD .null)])
      return none
    else
      match given data "files" with
      | none => return none
      | some files => do
        let tests ← Program.ofExcept (listOf ((given data "tests").getD (.arr [])))
        return some {
          summary := shortText 200 data "summary" "(no summary)"
          why := shortText 500 data "why" ""
          files := files
          tests := tests
          testCommand := given data "test_command" }

def generateFix (issue : IssueInfo) (previous : GeneratedChanges) : Agent (Option GeneratedChanges) := do
  match ← askModel issue.number none [("phase", Json.str "retry")] with
  | none => return none
  | some data =>
    if given data "files" = none ∧ given data "tests" = none then return none
    else do
      let tests ← Program.ofExcept (listOf ((given data "tests").getD (.arr previous.tests)))
      return some {
        summary := shortText 200 data "summary" previous.summary
        why := shortText 500 data "why" previous.why
        files := (given data "files").getD previous.files
        tests := tests
        testCommand := (given data "test_command").or previous.testCommand }

/-! ## Tests -/

def targets : List Json → Except Raised (List String)
  | [] => .ok []
  | .obj kvs :: l =>
    match given kvs "path" with
    | none => targets l
    | some (.str s) => do return s :: (← targets l)
    | some v => .error (.other ("expected str, bytes or os.PathLike object, not " ++ v.typeName))
  | v :: _ => .error (.other ("'" ++ v.typeName ++ "' object has no attribute 'get'"))

def resolvePytestCmd (wt : Worktree) : Agent (List String) := do
  let venvPy := wt.path ++ ["apps".toList, "api".toList, "venv".toList, "bin".toList, "python".toList]
  let there : Bool ← act (.exists_ venvPy)
  return if there then [showPath venvPy, "-m", "pytest"] else ["python3", "-m", "pytest"]

def pytest (wt : Worktree) (testFiles : List String) (label : String) : Agent PytestRun :=
  if testFiles = [] then
    return { exitCode := 0, output := "(" ++ label ++ ": aucun fichier de test à exécuter)" }
  else do
    let cmd ← resolvePytestCmd wt
    let r ← run (cmd ++ testFiles ++ ["-q"]) (some wt.path)
    return { exitCode := r.exitCode, output := r.out ++ if r.err = "" then "" else "\n" ++ r.err }

/-- The tests of the modules of `apps/api/utils`, out of those named. -/
def testsOf (testsDir : Path) : List String → Agent (List String)
  | [] => return []
  | name :: names =>
    if name = "__init__.py" then testsOf testsDir names
    else do
      let there : Bool ← act (.exists_ (testsDir ++ [("test_" ++ name).toList]))
      let rest ← testsOf testsDir names
      return if there then ("apps/api/tests/test_" ++ name) :: rest else rest

def fullUtilsTests (wt : Worktree) : Agent (List String) := do
  let utilsDir := wt.path ++ ["apps".toList, "api".toList, "utils".toList]
  let testsDir := wt.path ++ ["apps".toList, "api".toList, "tests".toList]
  let utils : Bool ← act (.exists_ utilsDir)
  if !utils then return []
  else do
    let tests : Bool ← act (.exists_ testsDir)
    if !tests then return []
    else do
      let names : List String ← act (.pythonFiles utilsDir)
      testsOf testsDir names

def logRetry (number attempt : Nat) (phase : String) (more : List (String × Json)) : Agent Unit :=
  act (.logEvent "backend" "backend-test-retry"
    ([("issue", .int number), ("attempt", .int attempt), ("phase", .str phase)] ++ more))

/-- The rounds that are left, with the changes in place and the run that failed. -/
def retries (wt : Worktree) (issue : IssueInfo) :
    List Nat → GeneratedChanges → PytestRun → Nat → Agent TestResult
  | [], _, result, attempts => return { green := false, attempts := attempts, output := result.output }
  | retry :: rest, current, result, attempts => do
    match ← generateFix issue current with
    | none => do
      logRetry issue.number (attempts + 1) "fix-llm-fail" []
      return { green := false, attempts := attempts + 1, output := result.output }
    | some fix => do
      let forbidden ← Program.ofExcept (validatePaths fix)
      if forbidden ≠ [] then do
        logRetry issue.number (attempts + 1) "forbidden-path" [("paths", .arr (forbidden.map .str))]
        return { green := false, attempts := attempts + 1, output := result.output }
      else do
        writeFiles wt fix
        let target ← Program.ofExcept (targets fix.tests)
        let r1 ← pytest wt target ("target-retry" ++ toString retry)
        logRetry issue.number (attempts + 1) ("target-retry" ++ toString retry) [("exit_code", .int r1.exitCode)]
        if r1.exitCode ≠ 0 then retries wt issue rest fix r1 (attempts + 1)
        else do
          let full ← fullUtilsTests wt
          let r2 ← pytest wt full ("utils-full-retry" ++ toString retry)
          logRetry issue.number (attempts + 1) ("utils-full-retry" ++ toString retry)
            [("exit_code", .int r2.exitCode)]
          if r2.exitCode = 0 then return { green := true, attempts := attempts + 1, output := r2.output }
          else retries wt issue rest fix r2 (attempts + 1)

def runTestsWithRetries (wt : Worktree) (issue : IssueInfo) (changes : GeneratedChanges) : Agent TestResult := do
  let target ← Program.ofExcept (targets changes.tests)
  let result ← pytest wt target "target"
  logRetry issue.number 1 "target" [("exit_code", .int result.exitCode)]
  if result.exitCode = 0 then do
    let full ← fullUtilsTests wt
    let fullRes ← pytest wt full "utils-full"
    logRetry issue.number 1 "utils-full" [("exit_code", .int fullRes.exitCode)]
    if fullRes.exitCode = 0 then return { green := true, attempts := 1, output := fullRes.output }
    else retries wt issue (List.range' 1 maxTestRetries) changes fullRes 1
  else retries wt issue (List.range' 1 maxTestRetries) changes result 1

/-! ## Publishing -/

/-- The branch is pushed, or the text of what stood in the way. -/
def commitAndPush (wt : Worktree) (changes : GeneratedChanges) (number : Nat) : Agent (Option String) := do
  let r ← run ["git", "add", "-A"] (some wt.path)
  if r.exitCode ≠ 0 then return some ("git add: " ++ trimmed r.err)
  else do
    let r ← run ["git", "diff", "--cached", "--name-only"] (some wt.path)
    if trimmed r.out = "" then return some "rien à committer (LLM a produit du contenu identique)"
    else do
      let msg := changes.summary ++ "\n\nRefs #" ++ toString number ++ "\n\n" ++ changes.why
      let r ← run ["git", "commit", "-m", msg] (some wt.path)
      if r.exitCode ≠ 0 then return some ("git commit (pre-commit hook?): " ++ trimmed r.err)
      else do
        let r ← run ["git", "push", "-u", "origin", wt.branch] (some wt.path)
        if r.exitCode ≠ 0 then return some ("git push: " ++ trimmed r.err) else return none

def prBody (changes : GeneratedChanges) (number : Nat) : String :=
  dedent ("            ## What\n            " ++ changes.summary ++
    "\n\n            ## Why\n            " ++ changes.why ++
    "\n\n            ## Test\n            - [ ] `" ++
    ((changes.testCommand.map strJson).getD "(no test command provided)") ++
    "`\n            - [ ] CI passe (forbidden-zones-check + tests)\n\n            Closes #" ++ toString number ++
    ".\n\n            ---\n            🤖 Auto-généré par Backend Agent (kola-team).\n        ")

def labelRed (pr : Nat) (green : Bool) : Agent Unit :=
  if green then pure () else catchingGitHub (act (.addLabels pr [needsReviewLabel])) fun _ => pure ()

def openPr (wt : Worktree) (changes : GeneratedChanges) (number : Nat) (green : Bool) : Agent Nat := do
  let pr : Nat ← act (.createPullRequest ("feat: " ++ changes.summary) (prBody changes number) wt.branch "main" green)
  labelRed pr green
  return pr

def commentPrWithTests (pr : Nat) (result : TestResult) : Agent Unit :=
  if result.green then pure ()
  else catchingGitHub (act (.commentPr pr (dedent ("            🛑 Backend Agent — tests rouges après " ++
    toString result.attempts ++ " essai(s).\n\n            Label `" ++ needsReviewLabel ++
    "` posé. Revue humaine requise.\n\n            <details><summary>pytest output (tronqué)</summary>\n\n" ++
    "            ```\n            " ++ clip pytestOutputTrunc result.output ++
    "\n            ```\n            </details>\n        ")))) fun _ => pure ()

/-! ## One issue -/

def blockComment (reason : String) : String :=
  "🛑 Backend Agent — bloqué :\n\n> " ++ reason ++ "\n\nLabel `" ++ blockedLabel ++
    "` posé. Intervention humaine requise."

def block (number : Nat) (reason : String) : Agent Unit := do
  act (.commentIssue number (blockComment reason))
  catchingGitHub (act (.removeLabel number inProgressLabel)) fun _ => pure ()
  catchingGitHub (act (.addLabels number [blockedLabel])) fun _ => pure ()
  act (.logEvent "backend" "blocked" [("issue", .int number), ("reason", .str reason)])

def fetchIssueComments (number : Nat) : Agent Unit :=
  catchingGitHub (act (.listIssueComments number)) fun _ => pure ()

def publish (wt : Worktree) (issue : IssueInfo) (changes : GeneratedChanges) (test : TestResult) : Agent Unit := do
  let pr ← openPr wt changes issue.number test.green
  commentPrWithTests pr test
  act (.commentIssue issue.number ("🤖 Backend Agent — travaillé dans PR #" ++ toString pr ++ "."))
  act (.removeLabel issue.number inProgressLabel)
  act (.addLabels issue.number [doneLabel])
  act (.logEvent "backend" "done" [("issue", .int issue.number), ("pr", .int pr),
    ("tests_green", .bool test.green), ("attempts", .int test.attempts)])

/-- What the `try` of `_work_one` holds. -/
def implement (wt : Worktree) (issue : IssueInfo) : Agent Unit := do
  fetchIssueComments issue.number
  match ← generateChanges wt issue with
  | none => block issue.number "LLM n'a pas produit de changements exploitables"
  | some changes => do
    let forbidden ← Program.ofExcept (validatePaths changes)
    if forbidden ≠ [] then
      block issue.number ("changements touchent zones interdites §1 : " ++ reprList (forbidden.map pyRepr))
    else do
      writeFiles wt changes
      let test ← runTestsWithRetries wt issue changes
      match ← commitAndPush wt changes issue.number with
      | some msg => block issue.number msg
      | none => publish wt issue changes test

def blockSetUp (number : Nat) : Raised → Agent (Option Worktree)
  | .worktree e => do
    block number ("worktree setup failed : " ++ e)
    return none
  | e => raise e

variable (teamRoot : Path)

def setUp (issue : IssueInfo) : Agent (Option Worktree) :=
  (do
    ensureBaseUptodate teamRoot
    let wt ← createWorktree teamRoot backendRole issue.number issue.title
    return some wt).catching (blockSetUp issue.number)

def cleanUp (wt : Worktree) : Agent Unit := catchingAll (removeWorktree teamRoot wt) fun _ => pure ()

/-- `_work_one` from the claim on -/
def afterClaim (issue : IssueInfo) : Agent Unit := do
  match ← setUp teamRoot issue with
  | none => pure ()
  | some wt =>
    Program.ensuring (catchingAll (implement wt issue) fun e => block issue.number ("crash : " ++ e.text))
      (cleanUp teamRoot wt)

def workOne (issue : IssueInfo) : Agent Unit := do
  act (.logEvent "backend" "pick" [("issue", .int issue.number), ("title", .str issue.title)])
  act (.addLabels issue.number [inProgressLabel])
  afterClaim teamRoot issue

def isCandidate (issue : IssueInfo) : Bool :=
  inProgressLabel ∉ issue.labels ∧ doneLabel ∉ issue.labels ∧ blockedLabel ∉ issue.labels ∧
    needsReviewLabel ∉ issue.labels

def heartbeat : Agent Unit := do
  let paused : Option String ← act (.getenv "KOLA_BACKEND_PAUSED")
  if paused = some "1" then act (.logEvent "backend" "paused" [("reason", .str "KOLA_BACKEND_PAUSED=1")])
  else do
    let issues : Option (List IssueInfo) ← catchingGitHub
      (do let issues ← act (.listOpenIssues [areaLabel, readyLabel]); return some issues)
      fun e => do
        act (.logEvent "backend" "heartbeat-fail" [("error", .str e)])
        return none
    match issues.bind fun l => (l.filter isCandidate).argmin IssueInfo.number with
    | none => pure ()
    | some issue => workOne teamRoot issue

end BackendAgent

end AdmissionScheduler.Orchestrator
