import AdmissionScheduler.Duties

/-!
# How a branch comes to be published

A pull request is the end of a chain: the worktree on the branch of the issue,
the agent's identity, the hook, the staged changes, the commit, the push. No link
is made before the one it hangs on has held, whatever fails on the way.
-/

namespace AdmissionScheduler.Orchestrator

open Program Worktree Crew

/-! ## The chain -/

section
variable {τ : Type}

def Succeeded (args : List String) (cwd : Option Path) (I : History Op Reply Raised τ → Prop) :
    History Op Reply Raised τ → Prop :=
  Program.After (fun e => ∃ c t, e = ⟨.run args cwd, .ok c, t⟩ ∧ c.exitCode = 0) I

variable (root : Path) (issue : IssueInfo)

def OnBranch : History Op Reply Raised τ → Prop :=
  Program.After (fun e => (∃ c t, e = ⟨.run ["git", "worktree", "add", "-b", (ownWorktree root issue).branch,
      showPath (ownWorktree root issue).path, "origin/main"] (some (pocRoot root)), .ok c, t⟩ ∧ c.exitCode = 0) ∨
    ∃ c t, e = ⟨.run ["git", "rev-parse", "--abbrev-ref", "HEAD"] (some (ownWorktree root issue).path), .ok c, t⟩ ∧
      c.exitCode = 0 ∧ trimmed c.out = (ownWorktree root issue).branch) fun _ => True

/-- Commits in the worktree bear the agent's name. -/
def Identified : History Op Reply Raised τ → Prop :=
  Succeeded ["git", "config", "--local", "user.email", backendRole.gitEmail] (some (ownWorktree root issue).path) <|
  Succeeded ["git", "config", "--local", "user.name", backendRole.gitName] (some (ownWorktree root issue).path) <|
  OnBranch root issue

/-- Commits in the worktree are checked by the hook. -/
def Hooked : History Op Reply Raised τ → Prop :=
  Succeeded ["bash", showPath (root ++ ["scripts".toList, "install-precommit-hook.sh".toList]),
    showPath (ownWorktree root issue).path] none <|
  Identified root issue

def Staged : History Op Reply Raised τ → Prop :=
  Program.After (fun e => ∃ c t, e = ⟨.run ["git", "diff", "--cached", "--name-only"] (some (ownWorktree root issue).path),
    .ok c, t⟩ ∧ trimmed c.out ≠ "") <|
  Succeeded ["git", "add", "-A"] (some (ownWorktree root issue).path) <|
  Hooked root issue

def Committed : History Op Reply Raised τ → Prop :=
  Program.After (fun e => ∃ message c t, e = ⟨.run ["git", "commit", "-m", message] (some (ownWorktree root issue).path),
    .ok c, t⟩ ∧ c.exitCode = 0) <|
  Staged root issue

def Pushed : History Op Reply Raised τ → Prop :=
  Succeeded ["git", "push", "-u", "origin", (ownWorktree root issue).branch] (some (ownWorktree root issue).path) <|
  Committed root issue

def Needs (h : History Op Reply Raised τ) : Op → Prop
  | .writeText .. => Hooked root issue h
  | .run args cwd =>
    (["git", "commit"] <+: args → cwd = some (ownWorktree root issue).path ∧ Staged root issue h) ∧
    (["git", "push"] <+: args → args = ["git", "push", "-u", "origin", (ownWorktree root issue).branch] ∧
      cwd = some (ownWorktree root issue).path ∧ Committed root issue h)
  | .createPullRequest _ _ head base _ => head = (ownWorktree root issue).branch ∧ base = "main" ∧ Pushed root issue h
  | _ => True

end

section
variable {τ α : Type} {root : Path} {issue : IssueInfo} {h h' : History Op Reply Raised τ}
  {A : History Op Reply Raised τ → Program.Entry Op Reply Raised τ → Prop}

theorem Hooked.mono (h h' : History Op Reply Raised τ) (hs : h <:+ h') (hh : Hooked root issue h) :
    Hooked root issue h' := Program.After.mono h h' hs hh

theorem needs_of_command {args : List String} {cwd : Option Path} (hc : Command root issue args cwd) :
    Needs root issue h (.run args cwd) := by
  cases hc <;> exact ⟨fun hp => by simp at hp, fun hp => by simp at hp⟩

theorem needs_of_working {o : Op} (hh : Hooked root issue h) (ho : Working root issue o) : Needs root issue h o := by
  cases ho with
  | write => exact hh
  | command own => exact needs_of_command own
  | _ => trivial

theorem needs_of_testing {o : Op} (ho : Testing root issue o) : Needs root issue h o := by
  cases ho with
  | tests files hpython =>
    refine ⟨fun hp => ?_, fun hp => ?_⟩ <;> exact absurd (List.cons_prefix_cons.mp hp).1.symm hpython

theorem needs_of_asking {o : Op} (ho : Asking o) : Needs root issue h o := by cases ho <;> trivial

/-! ## The worktree -/

theorem ensures_git {args : List String} {cwd : Path} {failure : String} {I : History Op Reply Raised τ → Prop}
    (hc : Command root issue ("git" :: args) (some cwd)) (hi : I h) :
    Ensures A (Needs root issue) (fun _ => Succeeded ("git" :: args) (some cwd) I) (gitOrRaise args cwd failure) h := by
  refine ensures_bind (J := fun (c : Completed) h => c.exitCode = 0 → Succeeded ("git" :: args) (some cwd) I h)
    (ensures_perform (needs_of_command hc) fun c t _ hz => .cons ⟨c, t, rfl, hz⟩ hi) fun c h hsucc => ?_
  refine ensures_ite (fun _ => ensures_raise) fun hz => ensures_ok (hsucc (not_not.mp hz))

theorem ensures_configureIdentity (hb : OnBranch root issue h) :
    Ensures A (Needs root issue) (fun _ => Identified root issue)
      (configureIdentity (ownWorktree root issue).path backendRole) h := by
  refine ensures_bind (ensures_git (.identity (.head _)) hb) fun _ h hname => ?_
  refine ensures_bind (ensures_git (.identity (.tail _ (.head _))) hname) fun _ h hemail => ?_
  exact ensures_ok hemail

theorem ensures_installHook (hid : Identified root issue h) :
    Ensures A (Needs root issue) (fun _ => Hooked root issue) (installHook root (ownWorktree root issue).path) h := by
  refine ensures_bind (J := fun _ => Identified root issue)
    (ensures_perform (o := Op.exists_ _) trivial fun _ _ _ => Program.After.mono _ _ (List.suffix_cons ..) hid)
    fun there h hid => ?_
  refine ensures_ite (fun _ => ensures_raise) fun _ => ?_
  refine ensures_bind (J := fun (c : Completed) h => c.exitCode = 0 → Hooked root issue h)
    (ensures_perform (needs_of_command .hook) fun c t _ hz => .cons ⟨c, t, rfl, hz⟩ hid) fun c h hh => ?_
  exact ensures_ite (fun _ => ensures_raise) fun hz => ensures_ok (hh (not_not.mp hz))

theorem ensures_createWorktree : Ensures A (Needs root issue)
    (fun wt h => wt = ownWorktree root issue ∧ Hooked root issue h)
    (createWorktree root backendRole issue.number issue.title) h := by
  have hready : ∀ h : History Op Reply Raised τ, OnBranch root issue h → Ensures A (Needs root issue)
      (fun wt h => wt = ownWorktree root issue ∧ Hooked root issue h) (do
        configureIdentity (ownWorktree root issue).path backendRole
        installHook root (ownWorktree root issue).path
        return ownWorktree root issue) h := by
    intro h hb
    refine ensures_bind (ensures_configureIdentity hb) fun _ h hid => ?_
    exact ensures_bind (ensures_installHook hid) fun _ h hh => ensures_ok ⟨rfl, hh⟩
  refine ensures_bind (J := fun _ _ => True) (ensures_perform (o := Op.mkdir _) trivial fun _ _ _ => trivial)
    fun _ h _ => ?_
  refine ensures_bind (J := fun _ _ => True) (ensures_perform (o := Op.exists_ _) trivial fun _ _ _ => trivial)
    fun _ h _ => ?_
  refine ensures_ite (fun _ => ?_) fun _ => ?_
  · refine ensures_bind (J := fun (c : Completed) h =>
      c.exitCode = 0 ∧ trimmed c.out = (ownWorktree root issue).branch → OnBranch root issue h)
      (ensures_perform (needs_of_command .head) fun c t _ hc => .cons (.inr ⟨c, t, rfl, hc⟩) trivial) fun c h hb => ?_
    exact ensures_ite (fun hc => hready h (hb hc)) fun _ => ensures_raise
  · refine ensures_bind (ensures_git (I := fun _ => True) .add trivial) fun _ h hadd => hready h ?_
    obtain ⟨e, h', hs, hc, hi⟩ := hadd
    exact ⟨e, h', hs, .inl hc, hi⟩

/-! ## The branch -/

open BackendAgent

def isTalk : Op → Bool
  | .writeText .. | .run .. | .createPullRequest .. => false
  | _ => true

theorem needs_of_talk {o : Op} (ho : isTalk o = true) : Needs root issue h o := by
  cases o <;> trivial

theorem talk_block {number : Nat} {reason : String} : Tame (isTalk · = true) IsBase (block number reason) :=
  .bind (tame_act rfl) fun _ => .bind (tame_catchingGitHub (tame_act rfl) fun _ => trivial) fun _ =>
    .bind (tame_catchingGitHub (tame_act rfl) fun _ => trivial) fun _ => tame_act rfl

theorem ensures_setUp : Ensures A (Needs root issue)
    (fun wt h => ∀ w, wt = some w → w = ownWorktree root issue ∧ Hooked root issue h) (setUp root issue) h := by
  refine ensures_catching ?_ fun e h => ?_
  · refine ensures_bind (J := fun _ _ => True) ?_ fun _ h _ => ensures_bind ensures_createWorktree fun wt h hwt => ?_
    · refine ensures_bind (J := fun _ _ => True) (ensures_perform (o := Op.exists_ _) trivial fun _ _ _ => trivial)
        fun there h _ => ensures_ite (fun _ => ensures_raise) fun _ => ?_
      exact (ensures_git (I := fun _ => True) .fetch trivial).mono fun _ _ _ => trivial
    · refine ensures_ok fun w heq => ?_
      cases heq
      exact hwt
  · cases e with
    | worktree e =>
      refine ensures_bind (J := fun _ _ => True) ?_ fun _ h _ => ensures_ok fun w heq => by cases heq
      exact (talk_block.guarantee fun _ _ => needs_of_talk).mono fun _ _ _ _ _ => trivial
    | _ => exact ensures_raise

theorem keeps_hooked {P : Op → Prop} {p : Agent α} (hp : Tame P IsBase p) (hh : Hooked root issue h)
    (hP : ∀ o (h : History Op Reply Raised τ), Hooked root issue h → P o → Needs root issue h o) :
    Meets A (Needs root issue) (fun h _ => Hooked root issue h) p h := by
  refine (((hp.guarantee fun _ _ => id).grows (List.suffix_refl h)).weaken fun h' o ho => ?_).mono fun h' _ hs => ?_
  · exact hP o h' (hh.mono h h' ho.1) ho.2
  · exact hh.mono h h' hs.1

theorem hooked_working {p : Agent α} (hp : Tame (fun o => Working root issue o ∨ Testing root issue o) IsBase p)
    (hh : Hooked root issue h) : Meets A (Needs root issue) (fun h _ => Hooked root issue h) p h :=
  keeps_hooked hp hh fun _ _ hh ho => ho.elim (needs_of_working hh) needs_of_testing

theorem hooked_asking {p : Agent α} (hp : Tame Asking IsBase p) (hh : Hooked root issue h) :
    Meets A (Needs root issue) (fun h _ => Hooked root issue h) p h :=
  keeps_hooked hp hh fun _ _ _ => needs_of_asking

theorem ensures_commitAndPush {changes : GeneratedChanges} (hh : Hooked root issue h) :
    Ensures A (Needs root issue) (fun msg h => msg = none → Pushed root issue h)
      (commitAndPush (ownWorktree root issue) changes issue.number) h := by
  have hother : ∀ (args : List String), ¬["git", "commit"] <+: args → ¬["git", "push"] <+: args →
      ∀ h : History Op Reply Raised τ, Needs root issue h (.run args (some (ownWorktree root issue).path)) :=
    fun args hc hp h => ⟨fun h => absurd h hc, fun h => absurd h hp⟩
  have hmsg : ∀ (s : String) (h : History Op Reply Raised τ),
      Ensures A (Needs root issue) (fun msg h => msg = none → Pushed root issue h) (pure (some s)) h :=
    fun s h => ensures_ok fun heq => by cases heq
  refine ensures_bind (J := fun (c : Completed) h => c.exitCode = 0 →
      Succeeded ["git", "add", "-A"] (some (ownWorktree root issue).path) (Hooked root issue) h)
    (ensures_perform (hother _ (by simp) (by simp) h) fun c t _ hz => .cons ⟨c, t, rfl, hz⟩ hh) fun c h hadd => ?_
  refine ensures_ite (fun _ => hmsg _ h) fun hz => ?_
  have hadd := hadd (not_not.mp hz)
  refine ensures_bind (J := fun (c : Completed) h => trimmed c.out ≠ "" → Staged root issue h)
    (ensures_perform (hother _ (by simp) (by simp) h) fun c t _ ho => .cons ⟨c, t, rfl, ho⟩ hadd) fun c h hstaged => ?_
  refine ensures_ite (fun _ => hmsg _ h) fun ho => ?_
  have hstaged := hstaged ho
  refine ensures_bind (J := fun (c : Completed) h => c.exitCode = 0 → Committed root issue h)
    (ensures_perform ⟨fun _ => ⟨rfl, hstaged⟩, fun hp => by simp at hp⟩ fun c t _ hz => .cons ⟨_, c, t, rfl, hz⟩ hstaged)
    fun c h hcommitted => ?_
  refine ensures_ite (fun _ => hmsg _ h) fun hz => ?_
  have hcommitted := hcommitted (not_not.mp hz)
  refine ensures_bind (J := fun (c : Completed) h => c.exitCode = 0 → Pushed root issue h)
    (ensures_perform ⟨fun hp => by simp at hp, fun _ => ⟨rfl, rfl, hcommitted⟩⟩
      fun c t _ hz => .cons ⟨c, t, rfl, hz⟩ hcommitted) fun c h hpushed => ?_
  exact ensures_ite (fun _ => hmsg _ h) fun hz => ensures_ok fun _ => hpushed (not_not.mp hz)

theorem needs_talk {p : Agent α} (hp : Tame (isTalk · = true) IsBase p) :
    Meets A (Needs root issue) (fun _ _ => True) p h := hp.guarantee fun _ _ => needs_of_talk

theorem needs_publish {changes : GeneratedChanges} {test : TestResult} (hp : Pushed root issue h) :
    Meets A (Needs root issue) (fun _ _ => True) (publish (ownWorktree root issue) issue changes test) h := by
  have hred : ∀ pr, Tame (isTalk · = true) IsBase (labelRed pr test.green) :=
    fun pr => .ite trivial (tame_catchingGitHub (tame_act rfl) fun _ => trivial)
  refine guarantee_bind (guarantee_bind (guarantee_act ⟨rfl, rfl, hp⟩) fun pr h => ?_) fun pr h => needs_talk ?_
  · exact needs_talk ((hred _).bind fun _ => trivial)
  · refine .bind (.ite trivial (tame_catchingGitHub (tame_act rfl) fun _ => trivial)) fun _ => ?_
    exact .bind (tame_act rfl) fun _ => .bind (tame_act rfl) fun _ => .bind (tame_act rfl) fun _ => tame_act rfl

/-- The steps up to the commit keep the hook; from there on the chain goes on. -/
theorem needs_implement (hh : Hooked root issue h) :
    Meets A (Needs root issue) (fun _ _ => True) (implement (ownWorktree root issue) issue) h := by
  have hstep : ∀ {β : Type} {p : Agent β} {f : β → Agent Unit} {h : History Op Reply Raised τ},
      Meets A (Needs root issue) (fun h _ => Hooked root issue h) p h →
      (∀ a h, Hooked root issue h → Meets A (Needs root issue) (fun _ _ => True) (f a) h) →
      Meets A (Needs root issue) (fun _ _ => True) (p >>= f) h :=
    fun hp hf => Ensures.guarantee_bind (J := fun _ => Hooked root issue) (Meets.mono hp fun _ _ hh _ _ => hh) hf
  refine hstep (hooked_working (working_fetchIssueComments.mono fun _ => .inl) hh) fun _ h hh => ?_
  refine hstep (hooked_asking asking_generateChanges hh) fun changes h hh => ?_
  cases changes with
  | none => exact needs_talk talk_block
  | some changes =>
    refine guarantee_ofExcept_bind fun forbidden hv => ?_
    by_cases hf : forbidden = []
    · subst hf
      refine hstep (hooked_working ((working_writeFiles hv).mono fun _ => .inl) hh) fun _ h hh => ?_
      refine hstep (keeps_runTestsWithRetries hooked_working (fun _ h => hooked_asking asking_generateFix) hh)
        fun test h hh => ?_
      refine (ensures_commitAndPush hh).guarantee_bind fun msg h hp => ?_
      cases msg with
      | some msg => exact needs_talk talk_block
      | none => exact needs_publish (hp rfl)
    · rw [if_pos hf]
      exact needs_talk talk_block

theorem needs_cleanUp : Meets A (Needs root issue) (fun _ _ => True) (cleanUp root (ownWorktree root issue)) h := by
  refine (working_cleanUp.and quiet_cleanUp).guarantee fun h o ho => ?_
  obtain ⟨hw, hq⟩ := ho
  cases hw with
  | write => cases hq
  | command own => exact needs_of_command own
  | _ => trivial

theorem needs_workOne : Meets A (Needs root issue) (fun _ _ => True) (workOne root issue) h := by
  refine guarantee_bind (guarantee_act trivial) fun _ h => ?_
  refine guarantee_bind (guarantee_act trivial) fun _ h => ?_
  refine ensures_setUp.guarantee_bind fun wt h hwt => ?_
  cases wt with
  | none => trivial
  | some wt =>
    obtain ⟨rfl, hh⟩ := hwt wt rfl
    refine guarantee_ensuring (guarantee_catchingAll (needs_implement hh) fun e h => ?_) fun h => needs_cleanUp
    exact needs_talk talk_block

end

/-! ## The team -/

section
variable {τ : Type} {isWord : Char → Bool} {root : Path} {h : History Op Reply Raised τ}
  {A : History Op Reply Raised τ → Program.Entry Op Reply Raised τ → Prop}

/-- Only the backend agent writes, runs or opens anything, and only what hangs on what it did for its issue. -/
def Linked (root : Path) (j : Job) (h : History Op Reply Raised τ) (o : Op) : Prop :=
  isTalk o = true ∨ j = .backend ∧ ∃ issue, Picked issue h ∧ Needs root issue h o

theorem linked_heartbeat {j : Job} :
    Meets A (Linked root j) (fun _ _ => True) (heartbeat isWord root j) h := by
  cases j with
  | ceo =>
    refine duty_heartbeat.weaken fun h o hd => .inl ?_
    cases hd with
    | pull _ _ _ own => cases own <;> rfl
    | _ => rfl
  | triage =>
    refine duty_heartbeat.weaken fun h o hd => .inl ?_
    cases hd with
    | issue _ _ own => cases own <;> rfl
    | _ => rfl
  | backend =>
    have htalk : ∀ o (h : History Op Reply Raised τ), isTalk o = true → True →
        Meets A (Linked root .backend) (fun _ _ => True) (act o) h := fun o h ho _ => guarantee_act (.inl ho)
    refine keeps_backendHeartbeat (I := fun _ => True) (fun h _ _ => htalk _ h rfl) (fun h => htalk _ h rfl)
      (fun h => htalk _ h rfl) (fun issue h hp _ => ?_) trivial
    refine ((needs_workOne.grows List.suffix_rfl).weaken fun h' o hn => ?_).mono fun _ _ _ => trivial
    exact .inr ⟨rfl, issue, hp.mono hn.1, hn.2⟩

end

section
variable {ι : Type} [DecidableEq ι]

/-- In no run of the team is anything written before the hook is installed, or published out of order. -/
theorem publish_chain (isWord : Char → Bool) (root : Path) (bot : String) (s : TeamState ι)
    (hs : (teamMachine isWord root bot).Reach Machine.Any s) :
    ∀ i p, s.party i = some p → ∀ e h, e :: h <:+ p.seen → Linked root p.job h e.op :=
  entries (K := fun j h e => Linked root j h e.op)
    (fun _ _ _ _ _ _ _ _ _ hr _ hserves => guarantee (V := fun _ => True) (fun _ _ _ _ _ _ _ _ => trivial)
      (G := Linked root _) linked_heartbeat hr hserves) hs

end

/-- A hub on which everything works, git included, with an answer of one file. -/
def smooth : Answer := .done fun
  | .listOpenIssues _ => [{ number := 7, title := "t", labels := {"area/api", "ready-for-dev"} }]
  | .callModel .. =>
    ⟨"", "code", 100, some [("files", .arr [.obj [("path", .str "apps/api/utils/a.py"), ("content", .str "x")]])]⟩
  | .run .. => ⟨0, "agents/backend/7-t", ""⟩
  | .createPullRequest .. => 8
  | o => noReply o

theorem publish_chain_run : ∃ s : TeamState Unit,
    .opened 8 ⟨"kola-team-bot", "agents/backend/7-t", false⟩ ∈ s.log ∧
      ∀ i p, s.party i = some p → ∀ e h, e :: h <:+ p.seen → Linked [] p.job h e.op := by
  obtain ⟨s, hs, hlog⟩ := Machine.reach_of_exec (teamMachine (fun _ => true) [] "kola-team-bot") Machine.Any
    ([.event (.issued 7), .event (.described 7 { title := "t", body := none, draft := false }),
        .event (.relabelled 7 {"area/api", "ready-for-dev"} none), .event (.pushed "agents/backend/7-t" "c"),
        .start () .backend] ++
      List.replicate 31 (.answer () smooth))
    (fun s => .opened 8 ⟨"kola-team-bot", "agents/backend/7-t", false⟩ ∈ s.log) (by decide +kernel)
  exact ⟨s, hlog, publish_chain (fun _ => true) [] "kola-team-bot" s hs⟩

end AdmissionScheduler.Orchestrator
