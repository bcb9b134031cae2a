import AdmissionScheduler.Glob
import AdmissionScheduler.PyText
import Mathlib.Data.Finset.Insert

/-!
# The charter's rules

`orchestrator/charter_rules.py`: which paths are forbidden, who counts as an
agent, and when a pull request may be merged (§3) or must be closed (§4). The
rules read only what the caller fetched. Every check gives the reason it refuses
for, if it does, and the first reason decides.
-/

namespace AdmissionScheduler.Orchestrator

open PyText

structure PrFile where
  filename : String
  previousFilename : Option String
  status : Option String
  additions : Option Int
  deletions : Option Int
  patch : Option String
  deriving DecidableEq

structure CheckRun where
  name : String
  status : Option String
  conclusion : Option String
  deriving DecidableEq

structure PrStatus where
  totalCount : Int
  checkRuns : List CheckRun
  deriving DecidableEq

structure PullInfo where
  number : Nat
  title : String
  body : Option String
  draft : Bool
  login : String
  headSha : String
  labels : Finset String
  deriving DecidableEq

structure CheckResult where
  ok : Bool
  reason : String
  deriving DecidableEq

/-! ## Patterns -/

def forbiddenPatterns : List String := [
  ".env", ".env.*", "*.env",
  "docker-compose*.yml", "Dockerfile*", ".dockerignore",
  "infra/docker/*",
  ".github/*",
  "apps/api/alembic.ini", "apps/api/alembic/versions/*",
  "alembic.ini", "alembic/versions/*",
  "apps/api/routers/auth*.py", "apps/api/routers/auth/*",
  "apps/api/services/aml_service*.py",
  "apps/api/services/kyc_service*.py",
  "apps/api/models.py", "apps/api/models/*",
  "apps/api/db.py", "apps/api/main.py", "apps/api/config*.py",
  "apps/web/next.config.*", "apps/web/tsconfig.json",
  "apps/web/package.json", "apps/web/middleware.ts",
  "apps/web/app/layout.tsx",
  "CODEOWNERS"]

def matchesForbidden (path : String) : Option String :=
  forbiddenPatterns.find? fun pat => Glob.fnmatch path.toList pat.toList

def agentRoles : List String := ["ceo", "backend", "frontend", "qa", "doc", "triage"]

/-- `AGENT_USER_PATTERNS.match`; `$` also matches before a line feed at the end. -/
def agentUser (login : String) : Bool :=
  agentRoles.any (fun r => login = "kola-" ++ r ++ "-agent" ∨ login = "kola-" ++ r ++ "-agent\n") ||
    "kola-team-bot".toList.isPrefixOf login.toList

def isAgentPr (pr : PullInfo) : Bool := agentUser pr.login

def requiredPrSections : List String := ["## What", "## Why", "## Test"]

def maxPrDiffLines : Int := 400

def depFilenames : List String := ["package.json", "requirements.txt", "pyproject.toml"]

def configExts : List String := [".yaml", ".yml", ".toml", ".ini", ".env"]

/-- `head` followed by at least `n` characters of a class. -/
def keyHere (head : String) (inClass : Char → Bool) (n : Nat) (s : List Char) : Bool :=
  head.toList.isPrefixOf s && n ≤ (s.drop head.toList.length).length && ((s.drop head.toList.length).take n).all inClass

def isLowerHex (c : Char) : Bool := ('a' ≤ c && c ≤ 'f') || c.isDigit

def secretHere (s : List Char) : Bool :=
  keyHere "sk-" isLowerHex 16 s || keyHere "ghp_" Char.isAlphanum 20 s ||
    keyHere "AKIA" (fun c => c.isUpper || c.isDigit) 16 s

def hasSecret (line : List Char) : Bool := line.tails.any secretHere

def badProdKeywords : List String := ["prod", "production", "live", "mainnet"]

/-- `re.IGNORECASE` on the letters of the keywords: the dotted capital and the dotless `i` count as `i`. -/
def sameLetter (w c : Char) : Bool := c.toLower = w || (w = 'i' && (c = '\u0130' || c = '\u0131'))

section
variable (isWord : Char → Bool)

/-- `\b` between two characters, either of which may be missing. -/
def wordBoundary (before after : Option Char) : Bool := before.any isWord != after.any isWord

def keywordHere (before : Option Char) (s : List Char) : Bool :=
  wordBoundary isWord before s.head? && badProdKeywords.any fun w =>
    let n := w.toList.length
    n ≤ s.length && (w.toList.zip s).all (fun p => sameLetter p.1 p.2) &&
      wordBoundary isWord (s.take n).getLast? (s.drop n).head?

/-- `BAD_PROD_KEYWORDS.search`, `before` being the character in front of `line`. -/
def hasBadKeyword (before : Option Char) : List Char → Bool
  | [] => keywordHere isWord before []
  | c :: s => keywordHere isWord before (c :: s) || hasBadKeyword (some c) s

end

/-! ## Checks -/

def patchLines (f : PrFile) : List (List Char) := splitlines (f.patch.getD "").toList

/-- A line that the patch adds, going by its first characters. -/
def isAddedLine (line : List Char) : Bool := "+".toList.isPrefixOf line && !"+++".toList.isPrefixOf line

def firstReason (checks : List (Option String)) : CheckResult :=
  match checks.findSome? id with
  | some reason => ⟨false, reason⟩
  | none => ⟨true, ""⟩

def passing (cr : CheckRun) : Bool :=
  cr.conclusion = some "success" ∨ cr.conclusion = some "skipped" ∨ cr.conclusion = some "neutral"

def diffTotal (files : List PrFile) : Int :=
  files.foldl (fun total f => total + (f.additions.getD 0 + f.deletions.getD 0)) 0

def baseName (path : String) : String := String.ofList ((path.toList.splitOn '/').getLastD [])

def failedRun (runs : List CheckRun) : Option String :=
  (runs.find? fun cr => !passing cr).map fun cr =>
    "status check `" ++ cr.name ++ "` = " ++ cr.conclusion.getD "None"

def forbiddenFile (say : String → String → String) (files : List PrFile) : Option String :=
  files.findSome? fun f => (matchesForbidden f.filename).map fun pat => say f.filename pat

def changedDependency (files : List PrFile) : Option String :=
  (files.find? fun f => baseName f.filename ∈ depFilenames ∧ (f.status = some "added" ∨ f.status = some "modified")).map
    fun f => "dépendance modifiée : " ++ f.filename ++ " (revue humaine requise)"

def placeholder (files : List PrFile) : Option String :=
  files.findSome? fun f => (patchLines f).findSome? fun line =>
    if !isAddedLine line then none
    else
      let stripped := stripSpace (line.drop 1)
      if stripped = "pass".toList ∨ stripped = "...".toList then
        some ("placeholder `" ++ String.ofList stripped ++ "` introduit dans " ++ f.filename)
      else if occursIn "TODO".toList stripped ∨ occursIn "FIXME".toList stripped then
        some ("TODO/FIXME introduit dans " ++ f.filename)
      else none

def missingSection (pr : PullInfo) : Option String :=
  (requiredPrSections.find? fun section_ => !occursIn section_.toList (pr.body.getD "").toList).map
    fun section_ => "section `" ++ section_ ++ "` manquante dans le body de la PR"

def checkCharter3 (pr : PullInfo) (files : List PrFile) (status : PrStatus) : CheckResult :=
  firstReason [
    if isAgentPr pr then none else some "auteur != agent kola-team",
    if status.checkRuns = [] then some "aucun status check exécuté" else none,
    failedRun status.checkRuns,
    forbiddenFile (fun path pat => "zone interdite §1 modifiée : " ++ path ++ " (match " ++ pat ++ ")") files,
    if diffTotal files ≥ maxPrDiffLines then
      some ("diff " ++ toString (diffTotal files) ++ " lignes ≥ cap " ++ toString maxPrDiffLines) else none,
    changedDependency files,
    placeholder files,
    missingSection pr]

def addedSecret (files : List PrFile) : Option String :=
  (files.find? fun f => (patchLines f).any fun line => isAddedLine line && hasSecret line).map
    fun f => "secret détecté dans patch de " ++ f.filename

def prodInConfig (isWord : Char → Bool) (files : List PrFile) : Option String :=
  (files.find? fun f => configExts.any (fun ext => ext.toList.isSuffixOf f.filename.toList) &&
      (patchLines f).any fun line => isAddedLine line && hasBadKeyword isWord none line).map
    fun f => "keyword prod-like dans config " ++ f.filename

def checkCharter4 (isWord : Char → Bool) (files : List PrFile) : CheckResult :=
  firstReason [
    forbiddenFile (fun path _ => "zone interdite §1 (close immédiate) : " ++ path) files,
    addedSecret files,
    prodInConfig isWord files]

/-! ## What passing means -/

theorem firstReason_ok {checks : List (Option String)} : (firstReason checks).ok = true ↔ ∀ c ∈ checks, c = none := by
  rw [firstReason]
  cases h : checks.findSome? id with
  | none => simpa using h
  | some r =>
    obtain ⟨c, hc, hr⟩ := List.exists_of_findSome?_eq_some h
    exact iff_of_false Bool.false_ne_true fun hn => by cases (hn c hc).symm.trans hr

theorem forbiddenFile_eq_none {say : String → String → String} {files : List PrFile} :
    forbiddenFile say files = none ↔ ∀ f ∈ files, matchesForbidden f.filename = none := by
  simp [forbiddenFile]

theorem failedRun_eq_none {runs : List CheckRun} : failedRun runs = none ↔ ∀ cr ∈ runs, passing cr = true := by
  simp [failedRun]

theorem checkCharter3_ok {pr : PullInfo} {files : List PrFile} {status : PrStatus} :
    (checkCharter3 pr files status).ok = true ↔
      isAgentPr pr = true ∧ status.checkRuns ≠ [] ∧ (∀ cr ∈ status.checkRuns, passing cr = true) ∧
        (∀ f ∈ files, matchesForbidden f.filename = none) ∧ diffTotal files < maxPrDiffLines ∧
        changedDependency files = none ∧ placeholder files = none ∧ missingSection pr = none := by
  simp [checkCharter3, firstReason_ok, forbiddenFile_eq_none, failedRun_eq_none]

end AdmissionScheduler.Orchestrator
