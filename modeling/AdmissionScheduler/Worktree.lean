import AdmissionScheduler.Operations

/-!
# Worktrees

`orchestrator/worktree.py`: a worktree of its own for every issue, under a
directory beside the repository, on a branch named after the issue.
-/

namespace AdmissionScheduler.Orchestrator

open PyText

structure AgentRole extends Budget.Role where
  gitName : String
  gitEmail : String

structure Worktree where
  path : Path
  branch : String

def showPath (p : Path) : String := String.ofList ('/' :: PosixPath.text p)

namespace Worktree

/-- `text.lower()`, with the two characters beyond ASCII whose lower case holds an ASCII letter. -/
def lower (s : List Char) : List Char := s.flatMap fun c =>
  if c = '\u0130' then ['i', '\u0307'] else if c = '\u212a' then ['k'] else [c.toLower]

def isSlugChar (c : Char) : Bool := c.isAlphanum

/-- Every run of other characters becomes one dash. -/
def dashed : List Char → List Char
  | [] => []
  | c :: s =>
    if isSlugChar c then c :: dashed s
    else match dashed s with
      | '-' :: t => '-' :: t
      | t => '-' :: t

def slug (title : String) : List Char :=
  let s := (((dashed (lower title.toList)).dropWhile (· == '-')).rdropWhile (· == '-')).take 40
  if s = [] then "task".toList else s

def run (args : List String) (cwd : Option Path) : Agent Completed := act (.run args cwd)

def git (args : List String) (cwd : Path) : Agent Completed := run ("git" :: args) (some cwd)

def trimmed (s : String) : String := String.ofList (stripSpace s.toList)

def gitOrRaise (args : List String) (cwd : Path) (failure : String) : Agent Unit := do
  let r ← git args cwd
  if r.exitCode ≠ 0 then raise (.worktree (failure ++ trimmed r.err)) else pure ()

variable (teamRoot : Path)

def pocRoot : Path := teamRoot.dropLast ++ ["kola-money-poc".toList]

def worktreesRoot : Path := (pocRoot teamRoot).dropLast ++ ["kola-money-poc-agents".toList]

def taskName (issueId : Nat) (title : String) : List Char := (toString issueId).toList ++ '-' :: slug title

def worktreeDir (role : AgentRole) (issueId : Nat) (title : String) : Path :=
  worktreesRoot teamRoot ++ [role.name.toList, taskName issueId title]

def branchName (role : AgentRole) (issueId : Nat) (title : String) : String :=
  "agents/" ++ role.name ++ "/" ++ String.ofList (taskName issueId title)

def ensureBaseUptodate : Agent Unit := do
  let there : Bool ← act (.exists_ (pocRoot teamRoot))
  if !there then raise (.worktree ("POC repo introuvable : " ++ showPath (pocRoot teamRoot)))
  else gitOrRaise ["fetch", "origin", "main", "--quiet"] (pocRoot teamRoot) "git fetch origin main a échoué : "

def configureIdentity (dir : Path) (role : AgentRole) : Agent Unit :=
  Program.each (fun kv => gitOrRaise ["config", "--local", kv.1, kv.2] dir ("git config " ++ kv.1 ++ " a échoué : "))
    [("user.name", role.gitName), ("user.email", role.gitEmail)]

def installHook (dir : Path) : Agent Unit := do
  let script := teamRoot ++ ["scripts".toList, "install-precommit-hook.sh".toList]
  let there : Bool ← act (.exists_ script)
  if !there then raise (.worktree ("hook installer introuvable : " ++ showPath script))
  else do
    let r ← run ["bash", showPath script, showPath dir] none
    if r.exitCode ≠ 0 then raise (.worktree ("install-precommit-hook a échoué : " ++ trimmed r.err)) else pure ()

def createWorktree (role : AgentRole) (issueId : Nat) (title : String) : Agent Worktree := do
  let branch := branchName role issueId title
  let dir := worktreeDir teamRoot role issueId title
  act (.mkdir (worktreesRoot teamRoot))
  let there : Bool ← act (.exists_ dir)
  if there then do
    -- reused when it is on the branch of the issue
    let r ← git ["rev-parse", "--abbrev-ref", "HEAD"] dir
    if r.exitCode = 0 ∧ trimmed r.out = branch then do
      configureIdentity dir role
      installHook teamRoot dir
      return { path := dir, branch := branch }
    else raise (.worktree ("worktree path existe avec mauvaise branche : " ++ showPath dir))
  else do
    gitOrRaise ["worktree", "add", "-b", branch, showPath dir, "origin/main"] (pocRoot teamRoot)
      "git worktree add a échoué : "
    configureIdentity dir role
    installHook teamRoot dir
    return { path := dir, branch := branch }

def removeByHand (wt : Worktree) : Agent Unit := do
  let there : Bool ← act (.exists_ wt.path)
  if there then act (.rmtree wt.path) else pure ()

def removeWorktree (wt : Worktree) : Agent Unit := do
  let r ← git ["worktree", "remove", showPath wt.path] (pocRoot teamRoot)
  if r.exitCode ≠ 0 then do
    removeByHand wt
    let _ ← git ["worktree", "prune"] (pocRoot teamRoot)
    pure ()
  else pure ()

end Worktree

end AdmissionScheduler.Orchestrator
