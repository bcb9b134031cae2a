import AdmissionScheduler.BackendAgent

/-!
# What the backend agent may do

Up to the last steps of an issue, the agent's operations leave the issue alone
and write no file but those of an answer that passed validation; and nothing but
`except BaseException`, which it does not have, would stop a cancellation.
-/

namespace AdmissionScheduler.Orchestrator

open Program Worktree

/-- Nothing that touches the issue, and not the request that ends the set-up. -/
def isIdle : Op → Bool
  | .removeLabel .. | .commentIssue .. | .listIssueComments _ => false
  | .addLabels _ labels => inProgressLabel ∉ labels
  | _ => true

def isWrite : Op → Bool
  | .writeText .. => true
  | _ => false

def isQuiet (o : Op) : Bool := isIdle o && !isWrite o

theorem isQuiet_addLabels {number : Nat} {labels : List String} (h : inProgressLabel ∉ labels) :
    isQuiet (.addLabels number labels) = true := by simp [isQuiet, isIdle, isWrite, h]

def Accepted (wt : Worktree) (p : Path) : Prop :=
  ∃ c l, BackendAgent.validatePaths c = .ok [] ∧ c.entries = .ok l ∧
    ∃ f ∈ l, ∃ s, BackendAgent.entryPath f = .ok s ∧ p = PosixPath.join wt.path s.toList

def Allowed (wt : Worktree) (o : Op) : Prop :=
  isQuiet o = true ∨ ∃ p content, o = .writeText p content ∧ Accepted wt p

theorem idle_of_allowed {wt : Worktree} {o : Op} (ho : Allowed wt o) : isIdle o = true := by
  obtain h | ⟨p, content, rfl, -⟩ := ho
  · exact (Bool.and_eq_true_iff.mp h).1
  · rfl

/-- Not a `WorktreeError`, the only exception caught while the worktree is set up. -/
def NotWorktree : Raised → Prop
  | .worktree _ => False
  | _ => True

section
variable {α : Type} {B : Raised → Prop} {wt : Worktree}

theorem allowed_of_quiet {p : Agent α} (hp : Tame (isQuiet · = true) B p) : Tame (Allowed wt) B p :=
  hp.mono fun _ => .inl

theorem quiet_act {o : Op} (ho : isQuiet o = true) : Tame (isQuiet · = true) B (act o) := tame_perform ho

/-! ## Worktrees -/

theorem quiet_gitOrRaise {args : List String} {cwd : Path} {failure : String} :
    Tame (isQuiet · = true) NotWorktree (gitOrRaise args cwd failure) :=
  .bind (quiet_act rfl) fun _ => .ite (tame_raise id) trivial

theorem quiet_ensureBaseUptodate {root : Path} : Tame (isQuiet · = true) NotWorktree (ensureBaseUptodate root) :=
  .bind (quiet_act rfl) fun _ => .ite (tame_raise id) quiet_gitOrRaise

theorem quiet_configureIdentity {dir : Path} {role : AgentRole} :
    Tame (isQuiet · = true) NotWorktree (configureIdentity dir role) := .each fun _ _ => quiet_gitOrRaise

theorem quiet_installHook {root dir : Path} : Tame (isQuiet · = true) NotWorktree (installHook root dir) :=
  .bind (quiet_act rfl) fun _ => .ite (tame_raise id) (.bind (quiet_act rfl) fun _ => .ite (tame_raise id) trivial)

theorem quiet_createWorktree {root : Path} {role : AgentRole} {issueId : Nat} {title : String} :
    Tame (isQuiet · = true) NotWorktree (createWorktree root role issueId title) := by
  have hready : Tame (isQuiet · = true) NotWorktree (do
      configureIdentity (worktreeDir root role issueId title) role
      installHook root (worktreeDir root role issueId title)
      return ({ path := worktreeDir root role issueId title, branch := branchName role issueId title } : Worktree)) :=
    .bind quiet_configureIdentity fun _ => .bind quiet_installHook fun _ => trivial
  exact .bind (quiet_act rfl) fun _ => .bind (quiet_act rfl) fun _ =>
    .ite (.bind (quiet_act rfl) fun _ => .ite hready (tame_raise id)) (.bind quiet_gitOrRaise fun _ => hready)

theorem quiet_removeByHand : Tame (isQuiet · = true) IsBase (removeByHand wt) :=
  .bind (quiet_act rfl) fun _ => .ite (quiet_act rfl) trivial

theorem quiet_removeWorktree {root : Path} : Tame (isQuiet · = true) IsBase (removeWorktree root wt) :=
  .bind (quiet_act rfl) fun _ => .ite (quiet_removeByHand.bind fun _ => .bind (quiet_act rfl) fun _ => trivial) trivial

theorem quiet_cleanUp {root : Path} : Tame (isQuiet · = true) IsBase (BackendAgent.cleanUp root wt) :=
  tame_catchingAll quiet_removeWorktree fun _ => trivial

/-! ## The model and the tests -/

theorem quiet_reserveTokens {role : Budget.Role} {expected : Int} {number : Nat} :
    Tame (isQuiet · = true) IsBase (reserveTokens role expected number) := tame_reserveTokens rfl fun _ _ => rfl

theorem quiet_settle {reservation : Option Budget.Reservation} {actual : Int} :
    Tame (isQuiet · = true) IsBase (settle reservation actual) := tame_settle fun _ => rfl

namespace BackendAgent

theorem quiet_askModel {number : Nat} {root : Option Path} {phase : List (String × Json)} :
    Tame (isQuiet · = true) IsBase (askModel number root phase) := by
  refine .bind (quiet_act rfl) fun _ => quiet_reserveTokens.bind fun reserved => ?_
  cases reserved with
  | exceeded => trivial
  | reserved reservation =>
    have htree : Tame (isQuiet · = true) IsBase (readTree root) := by cases root <;> first | trivial | exact quiet_act rfl
    refine htree.bind fun _ => .bind (.catching (.bind (quiet_act rfl) fun _ => trivial) ?_ ?_) fun res => ?_
    · rintro (_ | _ | _ | _ | _ | _ | _ | _) he
      all_goals first | exact quiet_settle.bind fun _ => .bind (quiet_act rfl) fun _ => trivial | exact he
    · intro e he
      cases e <;> first | rfl | cases he
    · rcases res with _ | res
      · trivial
      refine quiet_settle.bind fun _ => ?_
      rcases res.data with _ | (_ | ⟨kv, data⟩)
      · exact .bind (quiet_act rfl) fun _ => trivial
      · exact .bind (quiet_act rfl) fun _ => trivial
      · trivial

/-- What a computation raises, a handler catches. -/
def Ordinary (r : Except Raised α) : Prop := ∀ e, r = .error e → ¬IsBase e

theorem ordinary_ok {a : α} : Ordinary (.ok a : Except Raised α) := fun _ h => by cases h

theorem ordinary_other {text : String} : Ordinary (.error (.other text) : Except Raised α) :=
  fun _ h => by cases h; exact Bool.false_ne_true

theorem Ordinary.bind {β : Type} {r : Except Raised α} {f : α → Except Raised β} (hr : Ordinary r)
    (hf : ∀ a, Ordinary (f a)) : Ordinary (r >>= f) := by
  cases r with
  | ok a => exact hf a
  | error e => intro e' he; cases he; exact hr _ rfl

theorem ordinary_listOf (v : Json) : Ordinary (listOf v) := by
  cases v <;> first | exact ordinary_ok | exact ordinary_other

theorem ordinary_entries (c : GeneratedChanges) : Ordinary c.entries := by
  rw [GeneratedChanges.entries]
  cases c.files <;> first | exact ordinary_ok | exact ordinary_other

theorem ordinary_violation (f : Json) : Ordinary (violation f) := by
  have hp : Ordinary (checkedPath f) := by
    unfold checkedPath
    split
    · split <;> first | exact ordinary_ok | exact ordinary_other
    · exact ordinary_other
  rw [violation]
  cases hc : checkedPath f with
  | error e => intro e' he; cases he; exact hp _ hc
  | ok p => by_cases hp : p = "" <;> simp only [hp, if_true, if_false] <;> exact ordinary_ok

theorem ordinary_violations (l : List Json) : Ordinary (violations l) := by
  induction l with
  | nil => exact ordinary_ok
  | cons f l ih => exact (ordinary_violation f).bind fun _ => ih.bind fun _ => ordinary_ok

theorem ordinary_validatePaths (c : GeneratedChanges) : Ordinary (validatePaths c) :=
  (ordinary_entries c).bind ordinary_violations

theorem ordinary_entryPath (f : Json) : Ordinary (entryPath f) := by
  unfold entryPath
  split
  · split <;> first | exact ordinary_ok | exact ordinary_other
  · exact ordinary_other

theorem ordinary_entryContent (f : Json) : Ordinary (entryContent f) := by
  unfold entryContent
  split
  · split <;> first | exact ordinary_ok | exact ordinary_other
  · exact ordinary_other

theorem ordinary_targets (l : List Json) : Ordinary (targets l) := by
  induction l with
  | nil => exact ordinary_ok
  | cons f l ih =>
    cases f with
    | obj kvs =>
      rw [targets]
      cases given kvs "path" with
      | none => exact ih
      | some v =>
        cases v with
        | str s => exact ih.bind fun _ => ordinary_ok
        | _ => exact ordinary_other
    | _ => exact ordinary_other

/-! ## Writing -/

theorem tame_guardZero {P : Op → Prop} {p : Path} {o : Agent Unit} (ho : Tame P IsBase o) :
    Tame P IsBase (guardZero p o) := .ite (tame_raise Bool.false_ne_true) ho

theorem allowed_writeFile {f : Json} (hf : ∀ s, entryPath f = .ok s → Accepted wt (PosixPath.join wt.path s.toList)) :
    Tame (Allowed wt) IsBase (writeFile wt f) := by
  refine .ofExcept_bind (ordinary_entryPath f) fun s hs => ?_
  refine .bind (tame_guardZero (allowed_of_quiet (quiet_act rfl))) fun _ => ?_
  refine .ofExcept_bind (ordinary_entryContent f) fun content _ => tame_guardZero (tame_act (Or.inr ?_))
  exact ⟨_, content, rfl, hf s hs⟩

theorem allowed_writeFiles {c : GeneratedChanges} (hv : validatePaths c = .ok []) :
    Tame (Allowed wt) IsBase (writeFiles wt c) :=
  .ofExcept_bind (ordinary_entries c) fun l hl => .each fun f hf =>
    allowed_writeFile fun s hs => ⟨c, l, hv, hl, f, hf, s, hs, rfl⟩

/-! ## Changes and tests -/

theorem quiet_generateChanges {issue : IssueInfo} :
    Tame (isQuiet · = true) IsBase (generateChanges wt issue) := by
  refine quiet_askModel.bind fun data => ?_
  rcases data with _ | data
  · trivial
  refine .ite (.bind (quiet_act rfl) fun _ => trivial) ?_
  rcases given data "files" with _ | files
  · trivial
  · exact .bind (tame_ofExcept (ordinary_listOf _)) fun _ => trivial

theorem quiet_generateFix {issue : IssueInfo} {previous : GeneratedChanges} :
    Tame (isQuiet · = true) IsBase (generateFix issue previous) := by
  refine quiet_askModel.bind fun data => ?_
  rcases data with _ | data
  · trivial
  · exact .ite trivial (.bind (tame_ofExcept (ordinary_listOf _)) fun _ => trivial)

theorem quiet_pytest {files : List String} {label : String} : Tame (isQuiet · = true) IsBase (pytest wt files label) :=
  .ite trivial (.bind (.bind (quiet_act rfl) fun _ => trivial) fun _ => .bind (quiet_act rfl) fun _ => trivial)

theorem quiet_testsOf {dir : Path} : ∀ names : List String, Tame (isQuiet · = true) IsBase (testsOf dir names)
  | [] => trivial
  | _ :: names => .ite (quiet_testsOf names) (.bind (quiet_act rfl) fun _ => (quiet_testsOf names).bind fun _ => trivial)

theorem quiet_fullUtilsTests : Tame (isQuiet · = true) IsBase (fullUtilsTests wt) :=
  .bind (quiet_act rfl) fun _ => .ite trivial (.bind (quiet_act rfl) fun _ => .ite trivial
    (.bind (quiet_act rfl) fun names => quiet_testsOf names))

theorem quiet_logRetry {number attempt : Nat} {phase : String} {more : List (String × Json)} :
    Tame (isQuiet · = true) IsBase (logRetry number attempt phase more) := quiet_act rfl

theorem allowed_retries {issue : IssueInfo} : ∀ {rounds : List Nat} {current : GeneratedChanges} {result : PytestRun}
    {attempts : Nat}, Tame (Allowed wt) IsBase (retries wt issue rounds current result attempts)
  | [], _, _, _ => trivial
  | _ :: rounds, _, _, _ => by
    refine (allowed_of_quiet quiet_generateFix).bind fun fix => ?_
    rcases fix with _ | fix
    · exact (allowed_of_quiet quiet_logRetry).bind fun _ => trivial
    refine .ofExcept_bind (ordinary_validatePaths fix) fun forbidden hv => ?_
    by_cases hf : forbidden = []
    · subst hf
      refine (allowed_writeFiles hv).bind fun _ => .bind (tame_ofExcept (ordinary_targets _)) fun _ => ?_
      refine (allowed_of_quiet quiet_pytest).bind fun _ => (allowed_of_quiet quiet_logRetry).bind fun _ => ?_
      refine .ite allowed_retries ((allowed_of_quiet quiet_fullUtilsTests).bind fun _ => ?_)
      refine (allowed_of_quiet quiet_pytest).bind fun _ => (allowed_of_quiet quiet_logRetry).bind fun _ => ?_
      exact .ite trivial allowed_retries
    · rw [if_pos hf]
      exact (allowed_of_quiet quiet_logRetry).bind fun _ => trivial

theorem allowed_runTestsWithRetries {issue : IssueInfo} {changes : GeneratedChanges} :
    Tame (Allowed wt) IsBase (runTestsWithRetries wt issue changes) := by
  refine .bind (tame_ofExcept (ordinary_targets _)) fun _ => ?_
  refine (allowed_of_quiet quiet_pytest).bind fun _ => (allowed_of_quiet quiet_logRetry).bind fun _ => ?_
  refine .ite ((allowed_of_quiet quiet_fullUtilsTests).bind fun _ => ?_) allowed_retries
  refine (allowed_of_quiet quiet_pytest).bind fun _ => (allowed_of_quiet quiet_logRetry).bind fun _ => ?_
  exact .ite trivial allowed_retries

/-! ## Publishing -/

theorem quiet_commitAndPush {changes : GeneratedChanges} {number : Nat} :
    Tame (isQuiet · = true) IsBase (commitAndPush wt changes number) :=
  .bind (quiet_act rfl) fun _ => .ite trivial (.bind (quiet_act rfl) fun _ => .ite trivial (.bind (quiet_act rfl)
    fun _ => .ite trivial (.bind (quiet_act rfl) fun _ => .ite trivial trivial)))

theorem quiet_openPr {changes : GeneratedChanges} {number : Nat} {green : Bool} :
    Tame (isQuiet · = true) IsBase (openPr wt changes number green) :=
  .bind (quiet_act rfl) fun _ => .bind
    (.ite trivial (tame_catchingGitHub (quiet_act (isQuiet_addLabels (by decide))) fun _ => trivial)) fun _ => trivial

theorem quiet_commentPrWithTests {pr : Nat} {result : TestResult} :
    Tame (isQuiet · = true) IsBase (commentPrWithTests pr result) :=
  .ite trivial (tame_catchingGitHub (quiet_act rfl) fun _ => trivial)

end BackendAgent

end

end AdmissionScheduler.Orchestrator
