import AdmissionScheduler.BackendSound

/-!
# What green tests have shown

A round of `_run_tests_with_retries` writes a change set, runs the tests that it
lists, and then those of the modules of `apps/api/utils`. What earlier rounds
wrote stays in the worktree, but only the tests of the last change set are run
again.
-/

namespace AdmissionScheduler.Orchestrator

open Program

/-! ## The worktree -/

abbrev Content := Path → Option String

def afterEntry (e : Program.Entry Op Reply Raised Unit) (c : Content) : Content :=
  match e with
  | ⟨.writeText p s, .ok _, _⟩ => Function.update c p (some s)
  | _ => c

def contentAfter (start : Content) (h : History Op Reply Raised Unit) : Content := h.foldr afterEntry start

theorem afterEntry_of_quiet {e : Program.Entry Op Reply Raised Unit} {c : Content} (h : isQuiet e.op = true) :
    afterEntry e c = c := by
  obtain ⟨o, x, t⟩ := e
  cases o <;> first | rfl | cases h

inductive FileOutcome where
  | passed
  -- nothing is collected from it
  | empty
  -- a test fails, or the file is missing or cannot be collected
  | failed
  deriving DecidableEq

structure Pytest where
  outcome : Content → String → FileOutcome

namespace Pytest

variable (P : Pytest) (c : Content)

/-- Exit code 0: no file fails, and something was collected, which else is exit code 5. -/
def Green (l : List String) : Prop := (∀ f ∈ l, P.outcome c f ≠ .failed) ∧ ∃ f ∈ l, P.outcome c f = .passed

instance (l : List String) : Decidable (P.Green c l) :=
  inferInstanceAs (Decidable ((∀ f ∈ l, P.outcome c f ≠ .failed) ∧ ∃ f ∈ l, P.outcome c f = .passed))

def Passes (f : String) : Prop := P.Green c [f]

theorem passes_iff {f : String} : P.Passes c f ↔ P.outcome c f = .passed := by
  simp only [Passes, Green, List.mem_singleton, forall_eq, exists_eq_left, and_iff_right_iff_imp]
  intro h
  simp [h]

end Pytest

structure Faithful (P : Pytest) (wt : Worktree) (start : Content) (h : History Op Reply Raised Unit)
    (e : Program.Entry Op Reply Raised Unit) : Prop where
  pytest : ∀ py files c t, e = ⟨.run ([py, "-m", "pytest"] ++ files ++ ["-q"]) (some wt.path), .ok c, t⟩ →
    (c.exitCode = 0 ↔ P.Green (contentAfter start h) files)
  present : ∀ p q b t, e = ⟨.exists_ p, .ok b, t⟩ → p <+: q → contentAfter start h q ≠ none → b = true
  modules : ∀ dir l t name, e = ⟨.pythonFiles dir, .ok l, t⟩ → ".py".toList <:+ name.toList →
    contentAfter start h (dir ++ [name.toList]) ≠ none → name ∈ l

def UtilsTest (wt : Worktree) (c : Content) (t : String) : Prop :=
  ∃ name, t = "apps/api/tests/test_" ++ name ∧ ".py".toList <:+ name.toList ∧ name ≠ "__init__.py" ∧
    c (wt.path ++ ["apps".toList, "api".toList, "utils".toList] ++ [name.toList]) ≠ none ∧
    c (wt.path ++ ["apps".toList, "api".toList, "tests".toList] ++ [("test_" ++ name).toList]) ≠ none

section
variable {P : Pytest} {wt : Worktree} {start : Content} {h h' : History Op Reply Raised Unit} {α : Type}

theorem content_of_quiet {p : Agent α} {r : Except Raised α} (hp : Tame (isQuiet · = true) IsBase p)
    (hr : Runs (Faithful P wt start) p h h' r) : contentAfter start h' = contentAfter start h := by
  have hkeep := hp.meets (A := Faithful P wt start) (G := fun _ _ => True)
    (S := fun h₁ => contentAfter start h₁ = contentAfter start h)
    (L := fun h₁ => contentAfter start h₁ = contentAfter start h) (fun _ _ _ => trivial)
    (fun _ _ hs ho _ => (afterEntry_of_quiet ho).trans hs) (fun _ _ _ _ hs ho _ => (afterEntry_of_quiet ho).trans hs) rfl
  rcases hkeep.runs hr with ⟨hc, -⟩ | ⟨hc, -⟩ <;> exact hc

/-- A single operation, with its reply. -/
theorem runs_act {o : Op} {x : Except Raised (Reply o)} (hr : Runs (Faithful P wt start) (act o) h h' x) :
    ∃ t, h' = ⟨o, x, t⟩ :: h ∧ Faithful P wt start h ⟨o, x, t⟩ := by
  cases hr with
  | call allowed rest =>
    cases rest
    exact ⟨_, rfl, allowed⟩

end

namespace BackendAgent

section
variable {P : Pytest} {wt : Worktree} {start : Content} {h h' : History Op Reply Raised Unit} {α : Type}

theorem quiet_resolvePytestCmd : Tame (isQuiet · = true) IsBase (resolvePytestCmd wt) :=
  .bind (quiet_act rfl) fun _ => trivial

theorem runs_resolvePytestCmd {cmd : List String}
    (hr : Runs (Faithful P wt start) (resolvePytestCmd wt) h h' (.ok cmd)) : ∃ py, cmd = [py, "-m", "pytest"] := by
  obtain ⟨h₁, there, -, hr⟩ := hr.of_bind
  cases there with
  | true =>
    cases hr
    exact ⟨_, rfl⟩
  | false =>
    cases hr
    exact ⟨_, rfl⟩

/-- A run that ends well has no file that it names fail. -/
theorem runs_pytest {files : List String} {label : String} {run : PytestRun}
    (hr : Runs (Faithful P wt start) (pytest wt files label) h h' (.ok run)) (h₀ : run.exitCode = 0) :
    ∀ f ∈ files, P.outcome (contentAfter start h) f ≠ .failed := by
  unfold pytest at hr
  by_cases hf : files = []
  · intro f hmem
    rw [hf] at hmem
    cases hmem
  rw [if_neg hf] at hr
  obtain ⟨h₁, cmd, hcmd, hr⟩ := hr.of_bind
  obtain ⟨py, rfl⟩ := runs_resolvePytestCmd hcmd
  have hc : contentAfter start h₁ = contentAfter start h := content_of_quiet quiet_resolvePytestCmd hcmd
  obtain ⟨h₂, c, hrun, hr⟩ := hr.of_bind
  obtain ⟨t, rfl, ha⟩ := runs_act hrun
  cases hr
  have hg := (ha.pytest py files c t rfl).mp h₀
  rw [hc] at hg
  exact hg.1

theorem runs_testsOf {dir : Path} {name : String} : ∀ {names l : List String} {h h' : History Op Reply Raised Unit},
    Runs (Faithful P wt start) (testsOf dir names) h h' (.ok l) → name ∈ names → name ≠ "__init__.py" →
      contentAfter start h (dir ++ [("test_" ++ name).toList]) ≠ none → "apps/api/tests/test_" ++ name ∈ l
  | [], _, _, _, _, hm, _, _ => by cases hm
  | n :: names, l, h, h', hr, hm, hi, hthere => by
    unfold testsOf at hr
    by_cases hn : n = "__init__.py"
    · rw [if_pos hn] at hr
      rcases List.mem_cons.mp hm with rfl | hm
      · exact absurd hn hi
      · exact runs_testsOf hr hm hi hthere
    rw [if_neg hn] at hr
    obtain ⟨h₁, there, hact, hr⟩ := hr.of_bind
    obtain ⟨t, rfl, ha⟩ := runs_act hact
    obtain ⟨h₂, rest, hrest, hr⟩ := hr.of_bind
    cases hr
    rcases List.mem_cons.mp hm with rfl | hm
    · rw [ha.present _ _ there t rfl List.prefix_rfl hthere]
      exact List.mem_cons_self ..
    · have hlast : "apps/api/tests/test_" ++ name ∈ rest := runs_testsOf hrest hm hi hthere
      cases there with
      | true => exact List.mem_cons_of_mem _ hlast
      | false => exact hlast

/-- Every module's test is listed. -/
theorem runs_fullUtilsTests {l : List String} {t : String}
    (hr : Runs (Faithful P wt start) (fullUtilsTests wt) h h' (.ok l)) (ht : UtilsTest wt (contentAfter start h) t) :
    t ∈ l := by
  obtain ⟨name, rfl, hpy, hi, hmodule, htest⟩ := ht
  obtain ⟨h₁, utils, hact, hr⟩ := hr.of_bind
  obtain ⟨t₁, rfl, ha⟩ := runs_act hact
  obtain rfl : utils = true := ha.present _ _ utils t₁ rfl (List.prefix_append ..) hmodule
  obtain ⟨h₂, tests, hact, hr⟩ := hr.of_bind
  obtain ⟨t₂, rfl, ha⟩ := runs_act hact
  obtain rfl : tests = true := ha.present _ _ tests t₂ rfl (List.prefix_append ..) htest
  obtain ⟨h₃, names, hact, hr⟩ := hr.of_bind
  obtain ⟨t₃, rfl, ha⟩ := runs_act hact
  exact runs_testsOf hr (ha.modules _ _ t₃ name rfl hpy hmodule) hi htest

/-! ## The change sets that were written -/

def testPaths (c : GeneratedChanges) : List String :=
  match targets c.tests with
  | .ok l => l
  | .error _ => []

/-- A result, with the change set that was written last and those before it. -/
structure Logged where
  result : TestResult
  last : GeneratedChanges
  before : List GeneratedChanges

def retriesLogged (wt : Worktree) (issue : IssueInfo) :
    List Nat → GeneratedChanges → List GeneratedChanges → PytestRun → Nat → Agent Logged
  | [], current, before, result, attempts => return ⟨⟨false, attempts, result.output⟩, current, before⟩
  | retry :: rest, current, before, result, attempts => do
    match ← generateFix issue current with
    | none => do
      logRetry issue.number (attempts + 1) "fix-llm-fail" []
      return ⟨⟨false, attempts + 1, result.output⟩, current, before⟩
    | some fix => do
      let forbidden ← Program.ofExcept (validatePaths fix)
      if forbidden ≠ [] then do
        logRetry issue.number (attempts + 1) "forbidden-path" [("paths", .arr (forbidden.map .str))]
        return ⟨⟨false, attempts + 1, result.output⟩, current, before⟩
      else do
        writeFiles wt fix
        let target ← Program.ofExcept (targets fix.tests)
        let r1 ← pytest wt target ("target-retry" ++ toString retry)
        logRetry issue.number (attempts + 1) ("target-retry" ++ toString retry) [("exit_code", .int r1.exitCode)]
        if r1.exitCode ≠ 0 then retriesLogged wt issue rest fix (current :: before) r1 (attempts + 1)
        else do
          let full ← fullUtilsTests wt
          let r2 ← pytest wt full ("utils-full-retry" ++ toString retry)
          logRetry issue.number (attempts + 1) ("utils-full-retry" ++ toString retry)
            [("exit_code", .int r2.exitCode)]
          if r2.exitCode = 0 then return ⟨⟨true, attempts + 1, r2.output⟩, fix, current :: before⟩
          else retriesLogged wt issue rest fix (current :: before) r2 (attempts + 1)

/-- `run_tests_with_retries`, with the change sets that were written by the end. -/
def runTestsLogged (wt : Worktree) (issue : IssueInfo) (changes : GeneratedChanges) : Agent Logged := do
  let target ← Program.ofExcept (targets changes.tests)
  let result ← pytest wt target "target"
  logRetry issue.number 1 "target" [("exit_code", .int result.exitCode)]
  if result.exitCode = 0 then do
    let full ← fullUtilsTests wt
    let fullRes ← pytest wt full "utils-full"
    logRetry issue.number 1 "utils-full" [("exit_code", .int fullRes.exitCode)]
    if fullRes.exitCode = 0 then return ⟨⟨true, 1, fullRes.output⟩, changes, []⟩
    else retriesLogged wt issue (List.range' 1 maxTestRetries) changes [] fullRes 1
  else retriesLogged wt issue (List.range' 1 maxTestRetries) changes [] result 1

def erase (p : Agent Logged) : Agent TestResult := do return (← p).result

theorem erase_bind {β : Type} {p : Agent β} {f : β → Agent Logged} : erase (p >>= f) = p >>= fun a => erase (f a) :=
  bind_assoc

theorem erase_ite {c : Prop} [Decidable c] {p q : Agent Logged} :
    erase (if c then p else q) = if c then erase p else erase q := apply_ite erase ..

theorem erase_retriesLogged {issue : IssueInfo} : ∀ {rounds : List Nat} {current : GeneratedChanges}
    {before : List GeneratedChanges} {result : PytestRun} {attempts : Nat},
    erase (retriesLogged wt issue rounds current before result attempts) =
      retries wt issue rounds current result attempts
  | [], _, _, _, _ => rfl
  | retry :: rounds, current, before, result, attempts => by
    unfold retriesLogged retries
    rw [erase_bind]
    congr 1
    funext fix
    cases fix with
    | none => exact erase_bind
    | some fix =>
      simp only [erase_bind, erase_ite, erase_retriesLogged]
      rfl

theorem erase_runTestsLogged {issue : IssueInfo} {changes : GeneratedChanges} :
    erase (runTestsLogged wt issue changes) = runTestsWithRetries wt issue changes := by
  unfold runTestsLogged runTestsWithRetries
  simp only [erase_bind, erase_ite, erase_retriesLogged]
  rfl

/-! ## Green rounds -/

/-- `t` is run in a round that has written `last`. -/
def Rerun (wt : Worktree) (c : Content) (last : GeneratedChanges) (t : String) : Prop :=
  t ∈ testPaths last ∨ UtilsTest wt c t

/-- The tests of a round that ends well. -/
theorem green_round {c : GeneratedChanges} {target full : List String} {label label' : String} {r1 r2 : PytestRun}
    {h₁ h₂ h₃ h₄ h₅ : History Op Reply Raised Unit} {number attempt : Nat} {phase phase' : String}
    {more more' : List (String × Json)} (ht : targets c.tests = .ok target)
    (hr1 : Runs (Faithful P wt start) (pytest wt target label) h h₁ (.ok r1))
    (hl1 : Runs (Faithful P wt start) (logRetry number attempt phase more) h₁ h₂ (.ok ()))
    (hf : Runs (Faithful P wt start) (fullUtilsTests wt) h₂ h₃ (.ok full))
    (hr2 : Runs (Faithful P wt start) (pytest wt full label') h₃ h₄ (.ok r2))
    (hl2 : Runs (Faithful P wt start) (logRetry number attempt phase' more') h₄ h₅ (.ok ()))
    (h1 : r1.exitCode = 0) (h2 : r2.exitCode = 0) :
    ∀ t, Rerun wt (contentAfter start h₅) c t → P.outcome (contentAfter start h₅) t ≠ .failed := by
  have hc₂ : contentAfter start h₂ = contentAfter start h :=
    (content_of_quiet quiet_logRetry hl1).trans (content_of_quiet quiet_pytest hr1)
  have hc₃ : contentAfter start h₃ = contentAfter start h₂ := content_of_quiet quiet_fullUtilsTests hf
  have hc₅ : contentAfter start h₅ = contentAfter start h₃ :=
    (content_of_quiet quiet_logRetry hl2).trans (content_of_quiet quiet_pytest hr2)
  rintro t (hlisted | hutils)
  · have hmem : t ∈ target := by
      unfold testPaths at hlisted
      rwa [ht] at hlisted
    rw [hc₅, hc₃, hc₂]
    exact runs_pytest hr1 h1 t hmem
  · rw [hc₅, hc₃] at hutils
    have hmem : t ∈ full := runs_fullUtilsTests hf hutils
    rw [hc₅]
    exact runs_pytest hr2 h2 t hmem

theorem green_retries {issue : IssueInfo} {x : Logged} : ∀ {rounds : List Nat} {current : GeneratedChanges}
    {before : List GeneratedChanges} {result : PytestRun} {attempts : Nat} {h : History Op Reply Raised Unit},
    Runs (Faithful P wt start) (retriesLogged wt issue rounds current before result attempts) h h' (.ok x) →
      x.result.green = true →
      ∀ t, Rerun wt (contentAfter start h') x.last t → P.outcome (contentAfter start h') t ≠ .failed
  | [], _, _, _, _, _, hr, hg => by
    cases hr
    cases hg
  | retry :: rounds, current, before, result, attempts, h, hr, hg => by
    obtain ⟨h₁, fix, -, hr⟩ := hr.of_bind
    cases fix with
    | none =>
      obtain ⟨h₂, u, -, hr⟩ := hr.of_bind
      cases hr
      cases hg
    | some fix =>
      obtain ⟨forbidden, -, hr⟩ := hr.of_ofExcept_bind
      by_cases hf : forbidden ≠ []
      · rw [if_pos hf] at hr
        obtain ⟨h₃, u, -, hr⟩ := hr.of_bind
        cases hr
        cases hg
      rw [if_neg hf] at hr
      obtain ⟨h₃, u, -, hr⟩ := hr.of_bind
      obtain ⟨target, ht, hr⟩ := hr.of_ofExcept_bind
      obtain ⟨h₅, r1, hr1, hr⟩ := hr.of_bind
      obtain ⟨h₆, u₁, hl1, hr⟩ := hr.of_bind
      by_cases h1 : r1.exitCode ≠ 0
      · rw [if_pos h1] at hr
        exact green_retries hr hg
      rw [if_neg h1] at hr
      obtain ⟨h₇, full, hfull, hr⟩ := hr.of_bind
      obtain ⟨h₈, r2, hr2, hr⟩ := hr.of_bind
      obtain ⟨h₉, u₂, hl2, hr⟩ := hr.of_bind
      by_cases h2 : r2.exitCode = 0
      · rw [if_pos h2] at hr
        cases hr
        exact green_round ht hr1 hl1 hfull hr2 hl2 (not_not.mp h1) h2
      · rw [if_neg h2] at hr
        exact green_retries hr hg

/-- In a green run no test of the last round fails. -/
theorem green_logged {issue : IssueInfo} {changes : GeneratedChanges} {x : Logged}
    (hr : Runs (Faithful P wt start) (runTestsLogged wt issue changes) h h' (.ok x)) (hg : x.result.green = true) :
    ∀ t, Rerun wt (contentAfter start h') x.last t → P.outcome (contentAfter start h') t ≠ .failed := by
  obtain ⟨target, ht, hr⟩ := hr.of_ofExcept_bind
  obtain ⟨h₂, r1, hr1, hr⟩ := hr.of_bind
  obtain ⟨h₃, u₁, hl1, hr⟩ := hr.of_bind
  by_cases h1 : r1.exitCode = 0
  · rw [if_pos h1] at hr
    obtain ⟨h₄, full, hfull, hr⟩ := hr.of_bind
    obtain ⟨h₅, r2, hr2, hr⟩ := hr.of_bind
    obtain ⟨h₆, u₂, hl2, hr⟩ := hr.of_bind
    by_cases h2 : r2.exitCode = 0
    · rw [if_pos h2] at hr
      cases hr
      exact green_round ht hr1 hl1 hfull hr2 hl2 h1 h2
    · rw [if_neg h2] at hr
      exact green_retries hr hg
  · rw [if_neg h1] at hr
    exact green_retries hr hg

/-- The run with its log: `last` was written last, and `before` before it. -/
def Wrote (P : Pytest) (wt : Worktree) (start : Content) (issue : IssueInfo) (changes : GeneratedChanges)
    (h h' : History Op Reply Raised Unit) (r : TestResult) (last : GeneratedChanges) (before : List GeneratedChanges) :
    Prop :=
  Runs (Faithful P wt start) (runTestsLogged wt issue changes) h h' (.ok ⟨r, last, before⟩)

/-- Every run has its log. -/
theorem runs_iff_wrote {issue : IssueInfo} {changes : GeneratedChanges} {r : TestResult} :
    Runs (Faithful P wt start) (runTestsWithRetries wt issue changes) h h' (.ok r) ↔
      ∃ last before, Wrote P wt start issue changes h h' r last before := by
  rw [← erase_runTestsLogged]
  constructor
  · intro hr
    obtain ⟨h₁, ⟨r', last, before⟩, hl, hr⟩ := hr.of_bind
    cases hr
    exact ⟨last, before, hl⟩
  · rintro ⟨last, before, hl⟩
    exact hl.bind .done

end

/-! ## A test that is left behind -/

def entry (path content : String) : Json := .obj [("path", .str path), ("content", .str content)]

def firstTest : String := "apps/api/tests/test_a.py"
def secondTest : String := "apps/api/tests/test_b.py"

def failingText : String := "def test_a():\n    assert False\n"
def passingText : String := "def test_b():\n    assert True\n"

def testOnly (path content : String) : GeneratedChanges := ⟨"utils", "issue", .arr [], [entry path content], none⟩

def tree : Worktree := ⟨["worktree".toList], "agents/backend/7-utils"⟩
def someIssue : IssueInfo := ⟨7, "utils", ∅⟩

def onePasses : Pytest where
  outcome c f :=
    match c (PosixPath.join tree.path f.toList) with
    | some text => if text = passingText then .passed else if text = "" then .empty else .failed
    | none => .failed

def writtenPaths (h : History Op Reply Raised Unit) : List Path :=
  h.filterMap fun e => match e.op with
    | .writeText p _ => some p
    | _ => none

/-- An empty worktree, pytest as above, and a model that answers with the second test. -/
def bench (h : History Op Reply Raised Unit) : (o : Op) → Except Raised (Reply o)
  | .run args _ =>
    .ok ⟨if onePasses.Green (contentAfter (fun _ => none) h) (args.drop 3).dropLast then 0 else 1, "", ""⟩
  | .exists_ p => .ok ((writtenPaths h).any (p.isPrefixOf ·))
  | .pythonFiles dir =>
    .ok ((writtenPaths h).filterMap fun p => if p.dropLast = dir then p.getLast?.map String.ofList else none)
  | .callModel .. => .ok ⟨"", "dev-worker", 0, some [("tests", .arr [entry secondTest passingText])]⟩
  | .getClient | .mkdir _ | .writeText .. | .logEvent .. => .ok ()
  | _ => .error (.budgetUnavailable "")

theorem mem_writtenPaths {h : History Op Reply Raised Unit} {p : Path} (hp : contentAfter (fun _ => none) h p ≠ none) :
    p ∈ writtenPaths h := by
  induction h with
  | nil => exact absurd rfl hp
  | cons e h ih =>
    obtain ⟨o, x, t⟩ := e
    by_cases hw : isWrite o = true
    · cases o with
      | writeText q s =>
        by_cases hq : p = q
        · rw [hq]
          exact List.mem_cons_self ..
        · refine List.mem_cons_of_mem _ (ih ?_)
          intro hnone
          apply hp
          cases x with
          | ok u => exact (Function.update_of_ne hq _ _).trans hnone
          | error e => exact hnone
      | _ => cases hw
    · have hsame : contentAfter (fun _ => none) (⟨o, x, t⟩ :: h) = contentAfter (fun _ => none) h := by
        cases o <;> first | rfl | exact absurd rfl hw
      have hkept : writtenPaths (⟨o, x, t⟩ :: h) = writtenPaths h := by
        cases o <;> first | rfl | exact absurd rfl hw
      rw [hkept]
      rw [hsame] at hp
      exact ih hp

theorem bench_faithful (h : History Op Reply Raised Unit) (o : Op) :
    Faithful onePasses tree (fun _ => none) h ⟨o, bench h o, ()⟩ := by
  constructor
  · intro py files c t he
    cases he
    simp
  · intro p q b t he hp hq
    cases he
    exact List.any_eq_true.mpr ⟨q, mem_writtenPaths hq, List.isPrefixOf_iff_prefix.mpr hp⟩
  · intro dir l t name he _ hq
    cases he
    refine List.mem_filterMap.mpr ⟨_, mem_writtenPaths hq, ?_⟩
    simp

/-- Whether the run on `bench` ends green, with files and a log of which `f` holds. -/
def endsGreen (changes : GeneratedChanges) (f : Content → Logged → Bool) : Bool :=
  let run := answered bench (runTestsLogged tree someIssue changes) []
  match run.2 with
  | .ok x => x.result.green && f (contentAfter (fun _ => none) run.1) x
  | .error _ => false

theorem exists_green (changes : GeneratedChanges) (f : Content → Logged → Bool) (h : endsGreen changes f = true) :
    ∃ h' r last before, Wrote onePasses tree (fun _ => none) someIssue changes [] h' r last before ∧
      r.green = true ∧ f (contentAfter (fun _ => none) h') ⟨r, last, before⟩ = true := by
  have hrun := runs_answered bench_faithful (runTestsLogged tree someIssue changes) []
  unfold endsGreen at h
  generalize answered bench (runTestsLogged tree someIssue changes) [] = run at h hrun
  obtain ⟨h', x⟩ := run
  cases x with
  | ok x =>
    obtain ⟨hg, hf⟩ := Bool.and_eq_true_iff.mp h
    exact ⟨h', x.result, x.last, x.before, hrun, hg, hf⟩
  | error e => cases h

end BackendAgent

end AdmissionScheduler.Orchestrator
