import AdmissionScheduler.BackendSound
import AdmissionScheduler.MergeSound

/-!
# The duties of each agent

All that an agent ever does, as the operations it may perform about one pull
request or one issue: the CEO about a pull request of its list that an agent
opened, the triage agent about an issue of its list that lacks labels, the
backend agent about the issue it picked, in the worktree of that issue.
-/

namespace AdmissionScheduler.Orchestrator

open Program Worktree Crew

/-! ## The CEO -/

inductive CeoDuty (pr : PullInfo) : Op → Prop
  | log (action : String) (payload : List (String × Json)) : CeoDuty pr (.logEvent "ceo" action payload)
  | files : CeoDuty pr (.getPrFiles pr.number)
  | head : CeoDuty pr (.getPr pr.number)
  | checks (sha : String) : CeoDuty pr (.checkRuns sha)
  | workflows (sha : String) : CeoDuty pr (.workflowRuns sha)
  | comment (body : String) : CeoDuty pr (.commentPr pr.number body)
  | close : CeoDuty pr (.closePr pr.number)
  | approve (body : String) : CeoDuty pr (.approvePr pr.number body)
  | merge (message : String) : CeoDuty pr (.mergePr pr.number pr.title message)
  | askReview : CeoDuty pr (.addLabels pr.number [needsReviewLabel])
  | markMerged : CeoDuty pr (.addLabels pr.number [autoMergedLabel])
  | unlabel : CeoDuty pr (.removeLabel pr.number needsReviewLabel)

section
variable {isWord : Char → Bool} {pr : PullInfo}

theorem duty_getPrStatus : Tame (CeoDuty pr) IsBase (getPrStatus pr.number) := by
  refine .bind (tame_act .head) fun p => ?_
  refine tame_catchingGitHub (tame_act (.checks _)) fun e => ?_
  exact .ite (.bind (tame_act (.workflows _)) fun _ => trivial) (tame_raise Bool.false_ne_true)

theorem duty_rejectPr {reason : String} : Tame (CeoDuty pr) IsBase (CeoAgent.rejectPr pr reason) :=
  .bind (tame_act (.comment _)) fun _ => .bind (tame_act .close) fun _ => tame_act (.log _ _)

theorem duty_reportBlocked {e : String} : Tame (CeoDuty pr) IsBase (CeoAgent.reportBlocked pr e) :=
  .ite trivial (.bind (tame_act .askReview) fun _ => tame_act (.comment _))

theorem duty_clearReview : Tame (CeoDuty pr) IsBase (CeoAgent.clearReview pr) :=
  .ite (tame_catchingGitHub (tame_act .unlabel) fun _ => trivial) trivial

theorem duty_tryMerge : Tame (CeoDuty pr) IsBase (CeoAgent.tryMerge pr) := by
  refine tame_catchingGitHub ?_ fun e => ?_
  · cases pr.body with
    | none => exact tame_raise Bool.false_ne_true
    | some body => exact .bind (tame_act (.merge _)) fun _ => trivial
  · refine .ite ?_ (tame_raise Bool.false_ne_true)
    exact duty_reportBlocked.bind fun _ => .bind (tame_act (.log _ _)) fun _ => trivial

theorem duty_acceptPr : Tame (CeoDuty pr) IsBase (CeoAgent.acceptPr pr) := by
  refine .bind (tame_catchingGitHub (tame_act (.approve _)) fun _ => trivial) fun _ => ?_
  refine duty_tryMerge.bind fun merged => .ite ?_ trivial
  exact duty_clearReview.bind fun _ => .bind (tame_act .markMerged) fun _ => tame_act (.log _ _)

theorem duty_requestReview {reason : String} : Tame (CeoDuty pr) IsBase (CeoAgent.requestReview pr reason) :=
  .ite trivial (.bind (tame_act .askReview) fun _ => .bind (tame_act (.comment _)) fun _ => tame_act (.log _ _))

theorem duty_reviewPr : Tame (fun o => pr.draft = false ∧ isAgentPr pr = true ∧ CeoDuty pr o) IsBase
    (CeoAgent.reviewPr isWord pr) := by
  have hduty : Tame (CeoDuty pr) IsBase (do
      let files : List PrFile ← act (.getPrFiles pr.number)
      let status ← getPrStatus pr.number
      let rej := checkCharter4 isWord files
      if !rej.ok then CeoAgent.rejectPr pr rej.reason
      else
        let ok := checkCharter3 pr files status
        if ok.ok then CeoAgent.acceptPr pr else CeoAgent.requestReview pr ok.reason) :=
    .bind (tame_act .files) fun _ => duty_getPrStatus.bind fun _ =>
      .ite duty_rejectPr (.ite duty_acceptPr duty_requestReview)
  unfold CeoAgent.reviewPr
  cases hd : pr.draft with
  | true => trivial
  | false =>
    cases ha : isAgentPr pr with
    | false => trivial
    | true => exact hduty.mono fun o ho => ⟨rfl, rfl, ho⟩

end

/-! ## The triage agent -/

def triageLabels : List String :=
  TriageAgent.validAreas ++ TriageAgent.validKinds ++ ["ready-for-dev", "needs-info", "needs-info-commented"]

structure Relabels (old new : Finset String) : Prop where
  keeps : old ⊆ new
  own : ∀ l ∈ new, l ∈ old ∨ l ∈ triageLabels

inductive TriageDuty (issue : IssueInfo) : Op → Prop
  | log (action : String) (payload : List (String × Json)) : TriageDuty issue (.logEvent "triage" action payload)
  | client : TriageDuty issue .getClient
  | reserve : TriageDuty issue (.checkAndReserve triageBudget 600)
  | settle (r : Budget.Reservation) (actual : Int) : TriageDuty issue (.commitTokens r actual)
  | ask : TriageDuty issue (.callModel "triage" 200)
  | comment (body : String) : TriageDuty issue (.commentIssue issue.number body)
  | relabel {new : Finset String} (labels : Relabels issue.labels new) (change : new ≠ issue.labels) :
    TriageDuty issue (.setIssueLabels issue.number new)

section
open TriageAgent
variable {issue : IssueInfo} {labels : Finset String} {data : List (String × Json)}

theorem duty_triageModel : Tame (TriageDuty issue) IsBase (TriageAgent.askModel issue.number) := by
  have hsettle : ∀ reservation actual, Tame (TriageDuty issue) IsBase (settle reservation actual) :=
    fun _ actual => tame_settle fun r => .settle r actual
  refine .bind (tame_act .client) fun _ => (tame_reserveTokens .reserve fun _ _ => .log _ _).bind fun reserved => ?_
  cases reserved with
  | exceeded => trivial
  | reserved reservation =>
    refine .bind (.catching (.bind (tame_act .ask) fun _ => trivial) ?_ ?_) fun res => ?_
    · intro e he
      cases e with
      | llmTimeout text | llm text => exact (hsettle _ _).bind fun _ => trivial
      | gitHubApp | worktree | budgetExceeded | budgetUnavailable | other | base => exact he
    · intro e he
      cases e with
      | base text => rfl
      | _ => cases he
    · cases res with
      | none => trivial
      | some res =>
        refine (hsettle _ _).bind fun _ => ?_
        rcases res.data with _ | (_ | ⟨kv, data⟩)
        · exact .bind (tame_act (.log _ _)) fun _ => trivial
        · exact .bind (tame_act (.log _ _)) fun _ => trivial
        · trivial

theorem chosen_own {key : String} {valid : List String} {new : Finset String} (h : chosen data key valid = .ok new)
    (hv : ∀ l ∈ valid, l ∈ triageLabels) : ∀ l ∈ new, l ∈ triageLabels := by
  unfold chosen at h
  split at h
  · cases h
    intro l hl
    split at hl
    · rename_i hs
      rw [Finset.mem_singleton.mp hl]
      exact hv _ hs
    · cases hl
  · cases h
  · cases h
  · cases h
    exact fun l hl => absurd hl (Finset.notMem_empty l)

theorem ordinary_chosen {key : String} {valid : List String} : BackendAgent.Ordinary (chosen data key valid) := by
  unfold chosen
  split
  · exact BackendAgent.ordinary_ok
  · exact BackendAgent.ordinary_other
  · exact BackendAgent.ordinary_other
  · exact BackendAgent.ordinary_ok

theorem ordinary_missingInfo : BackendAgent.Ordinary (missingInfo data) := by
  unfold missingInfo
  split
  · exact BackendAgent.ordinary_ok
  · split
    · exact BackendAgent.ordinary_other
    · exact BackendAgent.ordinary_ok
  · exact BackendAgent.ordinary_ok

theorem Relabels.insert {old new : Finset String} {l : String} (h : Relabels old new) (hl : l ∈ triageLabels) :
    Relabels old (new ∪ {l}) := by
  refine ⟨h.keeps.trans Finset.subset_union_left, fun k hk => ?_⟩
  rcases Finset.mem_union.mp hk with hk | hk
  · exact h.own k hk
  · rw [Finset.mem_singleton.mp hk]
    exact .inr hl

theorem relabels_chosen {area kind : Finset String} (ha : chosen data "area" validAreas = .ok area)
    (hk : chosen data "kind" validKinds = .ok kind) : Relabels labels (labels ∪ area ∪ kind) := by
  have harea : ∀ l ∈ validAreas, l ∈ triageLabels := fun l hl => List.mem_append_left _ (List.mem_append_left _ hl)
  have hkind : ∀ l ∈ validKinds, l ∈ triageLabels := fun l hl => List.mem_append_left _ (List.mem_append_right _ hl)
  refine ⟨Finset.subset_union_left.trans Finset.subset_union_left, fun l hl => ?_⟩
  rcases Finset.mem_union.mp hl with hl | hl
  · rcases Finset.mem_union.mp hl with hl | hl
    · exact .inl hl
    · exact .inr (chosen_own ha harea l hl)
  · exact .inr (chosen_own hk hkind l hl)

theorem duty_newLabels {number : Nat} :
    Tame (fun o => ∃ body, o = .commentIssue number body) IsBase (newLabels number labels data) ∧
      Gives (Relabels labels) (newLabels number labels data) := by
  unfold newLabels
  cases ha : chosen data "area" validAreas with
  | error e => exact ⟨ordinary_chosen e ha, nofun⟩
  | ok area =>
    cases hk : chosen data "kind" validKinds with
    | error e => exact ⟨ordinary_chosen e hk, nofun⟩
    | ok kind =>
      cases hm : missingInfo data with
      | error e => exact ⟨ordinary_missingInfo e hm, nofun⟩
      | ok missing =>
        have hnew : Relabels labels (labels ∪ area ∪ kind) := relabels_chosen ha hk
        have hready : "ready-for-dev" ∈ triageLabels := by decide
        have hinfo : "needs-info" ∈ triageLabels := by decide
        have hcommented : "needs-info-commented" ∈ triageLabels := by decide
        have hgives : ∀ {s : Finset String}, Relabels labels s →
            Gives (Relabels labels) (pure s : Agent (Finset String)) := by
          intro s hs a heq
          cases heq
          exact hs
        refine ⟨.ite trivial (.ite (.ite (.bind (tame_act ⟨_, rfl⟩) fun _ => trivial) trivial) trivial), ?_⟩
        refine gives_ite (hgives (hnew.insert hready)) (gives_ite (gives_ite ?_ ?_) (hgives hnew))
        · exact gives_bind fun _ => hgives ((hnew.insert hinfo).insert hcommented)
        · exact hgives (hnew.insert hinfo)

theorem duty_triageOne : Tame (fun o => ¬triaged issue.labels ∧ TriageDuty issue o) IsBase (triageOne issue) := by
  unfold triageOne
  by_cases ht : triaged issue.labels
  · rw [if_pos ht]
    trivial
  · rw [if_neg ht]
    refine Tame.mono (P := TriageDuty issue) (duty_triageModel.bind fun res => ?_) fun o ho => ⟨ht, ho⟩
    cases res with
    | none => trivial
    | some res =>
      have hcomment : Tame (TriageDuty issue) IsBase (newLabels issue.number issue.labels (res.data.getD [])) := by
        refine duty_newLabels.1.mono ?_
        rintro _ ⟨body, rfl⟩
        exact .comment body
      refine duty_newLabels.2.tame_bind hcomment fun new hnew => ?_
      by_cases hchange : new ≠ issue.labels
      · rw [if_pos hchange]
        exact .bind (tame_act (.relabel hnew hchange)) fun _ => tame_act (.log _ _)
      · rw [if_neg hchange]
        trivial

end

/-! ## The backend agent -/

def ownWorktree (root : Path) (issue : IssueInfo) : Worktree where
  path := worktreeDir root backendRole issue.number issue.title
  branch := branchName backendRole issue.number issue.title

/-- The commands run for an issue, apart from those that test or publish. -/
inductive Command (root : Path) (issue : IssueInfo) : List String → Option Path → Prop
  | fetch : Command root issue ["git", "fetch", "origin", "main", "--quiet"] (some (pocRoot root))
  | add : Command root issue ["git", "worktree", "add", "-b", (ownWorktree root issue).branch,
      showPath (ownWorktree root issue).path, "origin/main"] (some (pocRoot root))
  | head : Command root issue ["git", "rev-parse", "--abbrev-ref", "HEAD"] (some (ownWorktree root issue).path)
  | identity {key value : String}
      (own : (key, value) ∈ [("user.name", backendRole.gitName), ("user.email", backendRole.gitEmail)]) :
    Command root issue ["git", "config", "--local", key, value] (some (ownWorktree root issue).path)
  | hook : Command root issue ["bash", showPath (root ++ ["scripts".toList, "install-precommit-hook.sh".toList]),
      showPath (ownWorktree root issue).path] none
  | remove : Command root issue ["git", "worktree", "remove", showPath (ownWorktree root issue).path]
      (some (pocRoot root))
  | prune : Command root issue ["git", "worktree", "prune"] (some (pocRoot root))

/-- What the backend agent does about an issue, apart from testing, asking the model and publishing. -/
inductive Working (root : Path) (issue : IssueInfo) : Op → Prop
  | log (action : String) (payload : List (String × Json)) : Working root issue (.logEvent "backend" action payload)
  | look (p : Path) : Working root issue (.exists_ p)
  | modules (dir : Path) : Working root issue (.pythonFiles dir)
  | makeRoot : Working root issue (.mkdir (worktreesRoot root))
  | mkdir {p : Path} (accepted : Accepted (ownWorktree root issue) p) : Working root issue (.mkdir p.dropLast)
  | write {p : Path} (content : String) (accepted : Accepted (ownWorktree root issue) p) :
    Working root issue (.writeText p content)
  | rmtree : Working root issue (.rmtree (ownWorktree root issue).path)
  | comments : Working root issue (.listIssueComments issue.number)
  | comment (body : String) : Working root issue (.commentIssue issue.number body)
  | label {l : String} (own : l ∈ [inProgressLabel, doneLabel, blockedLabel]) :
    Working root issue (.addLabels issue.number [l])
  | unlabel : Working root issue (.removeLabel issue.number inProgressLabel)
  | command {args : List String} {cwd : Option Path} (own : Command root issue args cwd) :
    Working root issue (.run args cwd)

inductive Testing (root : Path) (issue : IssueInfo) : Op → Prop
  | tests {python : String} (files : List String) (own : python ≠ "git") :
    Testing root issue (.run ([python, "-m", "pytest"] ++ files ++ ["-q"]) (some (ownWorktree root issue).path))

inductive Asking : Op → Prop
  | log (action : String) (payload : List (String × Json)) : Asking (.logEvent "backend" action payload)
  | client : Asking .getClient
  | reserve : Asking (.checkAndReserve backendRole.toRole 8000)
  | settle (r : Budget.Reservation) (actual : Int) : Asking (.commitTokens r actual)
  | tree (p : Path) : Asking (.repoTree p)
  | ask : Asking (.callModel "backend" 4000)

inductive Publishing (root : Path) (issue : IssueInfo) : Op → Prop
  | stage : Publishing root issue (.run ["git", "add", "-A"] (some (ownWorktree root issue).path))
  | staged : Publishing root issue
      (.run ["git", "diff", "--cached", "--name-only"] (some (ownWorktree root issue).path))
  | commit (message : String) : Publishing root issue
      (.run ["git", "commit", "-m", message] (some (ownWorktree root issue).path))
  | push : Publishing root issue
      (.run ["git", "push", "-u", "origin", (ownWorktree root issue).branch] (some (ownWorktree root issue).path))
  | openPr (title body : String) (green : Bool) : Publishing root issue
      (.createPullRequest title body (ownWorktree root issue).branch "main" green)

inductive OnPull (number : Nat) : Op → Prop
  | label : OnPull number (.addLabels number [needsReviewLabel])
  | comment (body : String) : OnPull number (.commentPr number body)

section
open BackendAgent
variable {root : Path} {issue : IssueInfo}

theorem working_gitOrRaise {args : List String} {cwd : Path} {failure : String}
    (h : Command root issue ("git" :: args) (some cwd)) :
    Tame (Working root issue) IsBase (gitOrRaise args cwd failure) :=
  .bind (tame_act (.command h)) fun _ => .ite (tame_raise Bool.false_ne_true) trivial

theorem working_ensureBaseUptodate : Tame (Working root issue) IsBase (ensureBaseUptodate root) :=
  .bind (tame_act (.look _)) fun _ => .ite (tame_raise Bool.false_ne_true) (working_gitOrRaise .fetch)

theorem working_configureIdentity :
    Tame (Working root issue) IsBase (configureIdentity (ownWorktree root issue).path backendRole) :=
  .each fun _ hkv => working_gitOrRaise (.identity hkv)

theorem working_installHook : Tame (Working root issue) IsBase (installHook root (ownWorktree root issue).path) :=
  .bind (tame_act (.look _)) fun _ => .ite (tame_raise Bool.false_ne_true)
    (.bind (tame_act (.command .hook)) fun _ => .ite (tame_raise Bool.false_ne_true) trivial)

theorem working_createWorktree : Tame (Working root issue) IsBase
    (createWorktree root backendRole issue.number issue.title) := by
  have hready : Tame (Working root issue) IsBase (do
      configureIdentity (ownWorktree root issue).path backendRole
      installHook root (ownWorktree root issue).path
      return ownWorktree root issue) :=
    working_configureIdentity.bind fun _ => working_installHook.bind fun _ => trivial
  refine .bind (tame_act .makeRoot) fun _ => .bind (tame_act (.look _)) fun _ => .ite ?_ ?_
  · exact .bind (tame_act (.command .head)) fun _ => .ite hready (tame_raise Bool.false_ne_true)
  · exact (working_gitOrRaise .add).bind fun _ => hready

theorem gives_createWorktree : Gives (· = ownWorktree root issue)
    (createWorktree root backendRole issue.number issue.title) := by
  have hready : Gives (· = ownWorktree root issue) (do
      configureIdentity (ownWorktree root issue).path backendRole
      installHook root (ownWorktree root issue).path
      return ownWorktree root issue : Agent Worktree) := by
    refine gives_bind fun _ => gives_bind fun _ wt heq => ?_
    cases heq
    rfl
  refine gives_bind fun _ => gives_bind fun _ => gives_ite ?_ ?_
  · exact gives_bind fun _ => gives_ite hready nofun
  · exact gives_bind fun _ => hready

theorem working_cleanUp : Tame (Working root issue) IsBase (cleanUp root (ownWorktree root issue)) := by
  have hhand : Tame (Working root issue) IsBase (removeByHand (ownWorktree root issue)) :=
    .bind (tame_act (.look _)) fun _ => .ite (tame_act .rmtree) trivial
  refine tame_catchingAll ?_ fun _ => trivial
  refine .bind (tame_act (.command .remove)) fun _ => .ite ?_ trivial
  exact hhand.bind fun _ => .bind (tame_act (.command .prune)) fun _ => trivial

theorem working_blocking {reason : String} : Tame (Working root issue) IsBase (block issue.number reason) :=
  .bind (tame_act (.comment _)) fun _ =>
    .bind (tame_catchingGitHub (tame_act .unlabel) fun _ => trivial) fun _ =>
    .bind (tame_catchingGitHub (tame_act (.label (by simp))) fun _ => trivial) fun _ => tame_act (.log _ _)

theorem working_setUp : Tame (Working root issue) IsBase (setUp root issue) := by
  refine .catching ?_ ?_ ?_
  · exact working_ensureBaseUptodate.bind fun _ => working_createWorktree.bind fun _ => trivial
  · intro e he
    cases e with
    | worktree e => exact working_blocking.bind fun _ => trivial
    | _ => exact he
  · intro e he
    cases e with
    | base text => rfl
    | _ => cases he

theorem gives_setUp : Gives (fun wt => ∀ w, wt = some w → w = ownWorktree root issue) (setUp root issue) := by
  refine .catching (gives_bind fun _ => gives_createWorktree.bind ?_) ?_
  · rintro _ rfl a heq w rfl
    cases heq
    rfl
  · intro e
    cases e with
    | worktree e =>
      refine gives_bind fun _ a heq w hw => ?_
      cases heq
      cases hw
    | _ => exact nofun

theorem working_fetchIssueComments : Tame (Working root issue) IsBase (fetchIssueComments issue.number) :=
  tame_catchingGitHub (tame_act .comments) fun _ => trivial

/-! ### The model -/

theorem asking_askModel {tree : Option Path} {phase : List (String × Json)} {number : Nat} :
    Tame Asking IsBase (BackendAgent.askModel number tree phase) := by
  have hsettle : ∀ reservation actual, Tame Asking IsBase (settle reservation actual) :=
    fun _ actual => tame_settle fun r => .settle r actual
  have htree : Tame Asking IsBase (readTree tree) := by
    cases tree with
    | none => trivial
    | some p => exact tame_act (.tree p)
  refine .bind (tame_act .client) fun _ => (tame_reserveTokens .reserve fun _ _ => .log _ _).bind fun reserved => ?_
  cases reserved with
  | exceeded => trivial
  | reserved reservation =>
    refine htree.bind fun _ => .bind (.catching (.bind (tame_act .ask) fun _ => trivial) ?_ ?_) fun res => ?_
    · intro e he
      cases e with
      | llmTimeout text | llm text =>
        exact (hsettle _ _).bind fun _ => .bind (tame_act (.log _ _)) fun _ => trivial
      | gitHubApp | worktree | budgetExceeded | budgetUnavailable | other | base => exact he
    · intro e he
      cases e with
      | base text => rfl
      | _ => cases he
    · cases res with
      | none => trivial
      | some res =>
        refine (hsettle _ _).bind fun _ => ?_
        rcases res.data with _ | (_ | ⟨kv, data⟩)
        · exact .bind (tame_act (.log _ _)) fun _ => trivial
        · exact .bind (tame_act (.log _ _)) fun _ => trivial
        · trivial

theorem asking_generateChanges {wt : Worktree} : Tame Asking IsBase (generateChanges wt issue) := by
  refine asking_askModel.bind fun data => ?_
  cases data with
  | none => trivial
  | some data =>
    refine .ite (.bind (tame_act (.log _ _)) fun _ => trivial) ?_
    cases given data "files" with
    | none => trivial
    | some files => exact .bind (tame_ofExcept (ordinary_listOf _)) fun _ => trivial

theorem asking_generateFix {previous : GeneratedChanges} : Tame Asking IsBase (generateFix issue previous) := by
  refine asking_askModel.bind fun data => ?_
  cases data with
  | none => trivial
  | some data => exact .ite trivial (.bind (tame_ofExcept (ordinary_listOf _)) fun _ => trivial)

/-! ### Files and tests -/

theorem working_writeFile {f : Json} (hf : ∀ s, entryPath f = .ok s →
    Accepted (ownWorktree root issue) (PosixPath.join (ownWorktree root issue).path s.toList)) :
    Tame (Working root issue) IsBase (writeFile (ownWorktree root issue) f) := by
  refine .ofExcept_bind (ordinary_entryPath f) fun s hs => ?_
  refine .bind (tame_guardZero (tame_act (.mkdir (hf s hs)))) fun _ => ?_
  exact .ofExcept_bind (ordinary_entryContent f) fun content _ => tame_guardZero (tame_act (.write content (hf s hs)))

theorem working_writeFiles {c : GeneratedChanges} (hv : validatePaths c = .ok []) :
    Tame (Working root issue) IsBase (writeFiles (ownWorktree root issue) c) :=
  .ofExcept_bind (ordinary_entries c) fun l hl => .each fun f hf =>
    working_writeFile fun s hs => ⟨c, l, hv, hl, f, hf, s, hs, rfl⟩

theorem showPath_ne {p : Path} {s : String} (h : s.toList.head? ≠ some '/') : showPath p ≠ s := by
  rintro rfl
  exact h (by simp [showPath])

theorem gives_resolvePytestCmd {wt : Worktree} :
    Gives (fun cmd => ∃ python, python ≠ "git" ∧ cmd = [python, "-m", "pytest"]) (resolvePytestCmd wt) := by
  refine gives_bind fun there cmd heq => ?_
  cases heq
  cases there with
  | false => exact ⟨"python3", by decide, rfl⟩
  | true => exact ⟨_, showPath_ne (by decide), rfl⟩

theorem testing_pytest {files : List String} {label : String} :
    Tame (fun o => Working root issue o ∨ Testing root issue o) IsBase
      (pytest (ownWorktree root issue) files label) := by
  refine .ite trivial ?_
  refine gives_resolvePytestCmd.tame_bind (.bind (tame_act (.inl (.look _))) fun _ => trivial) ?_
  rintro _ ⟨python, hpython, rfl⟩
  exact .bind (tame_act (.inr (.tests files hpython))) fun _ => trivial

theorem working_testsOf {dir : Path} : ∀ names : List String, Tame (Working root issue) IsBase (testsOf dir names)
  | [] => trivial
  | _ :: names => .ite (working_testsOf names)
    (.bind (tame_act (.look _)) fun _ => (working_testsOf names).bind fun _ => trivial)

theorem working_fullUtilsTests : Tame (Working root issue) IsBase (fullUtilsTests (ownWorktree root issue)) :=
  .bind (tame_act (.look _)) fun _ => .ite trivial (.bind (tame_act (.look _)) fun _ => .ite trivial
    (.bind (tame_act (.modules _)) fun names => working_testsOf names))

theorem publishing_commitAndPush {changes : GeneratedChanges} :
    Tame (Publishing root issue) IsBase (commitAndPush (ownWorktree root issue) changes issue.number) :=
  .bind (tame_act .stage) fun _ => .ite trivial (.bind (tame_act .staged) fun _ => .ite trivial
    (.bind (tame_act (.commit _)) fun _ => .ite trivial (.bind (tame_act .push) fun _ => .ite trivial trivial)))

/-! ### Whole issues -/

section
variable {τ : Type} {A : History Op Reply Raised τ → Program.Entry Op Reply Raised τ → Prop}
  {G : History Op Reply Raised τ → Op → Prop} {I : History Op Reply Raised τ → Prop} {h : History Op Reply Raised τ}

theorem keeps_catchingAll {p : Agent Unit} {f : Raised → Agent Unit} (hp : Meets A G (fun h _ => I h) p h)
    (hf : ∀ e h, I h → Meets A G (fun h _ => I h) (f e) h) : Meets A G (fun h _ => I h) (catchingAll p f) h := by
  refine meets_catchingAll.mpr (hp.mono fun h r hi => ?_)
  cases r with
  | ok _ => exact hi
  | error e =>
    change if e.isBase then I h else _
    split
    · exact hi
    · exact hf e h hi

variable
  (hwork : ∀ {α : Type} {p : Agent α} {h : History Op Reply Raised τ},
    Tame (fun o => Working root issue o ∨ Testing root issue o) IsBase p → I h → Meets A G (fun h _ => I h) p h)
  (hfix : ∀ previous (h : History Op Reply Raised τ), I h →
    Meets A G (fun h _ => I h) (generateFix issue previous) h)
  (hchanges : ∀ h : History Op Reply Raised τ, I h →
    Meets A G (fun h _ => I h) (generateChanges (ownWorktree root issue) issue) h)
  (hcommit : ∀ changes (h : History Op Reply Raised τ), I h →
    Meets A G (fun h _ => I h) (commitAndPush (ownWorktree root issue) changes issue.number) h)
  (hpublish : ∀ changes test (h : History Op Reply Raised τ), I h →
    Meets A G (fun h _ => I h) (publish (ownWorktree root issue) issue changes test) h)

include hwork

theorem keeps_working {α : Type} {p : Agent α} (hp : Tame (Working root issue) IsBase p) (hi : I h) :
    Meets A G (fun h _ => I h) p h := hwork (hp.mono fun _ => .inl) hi

theorem keeps_logRetry {attempt : Nat} {phase : String} {more : List (String × Json)} (hi : I h) :
    Meets A G (fun h _ => I h) (logRetry issue.number attempt phase more) h :=
  keeps_working hwork (tame_act (.log _ _)) hi

include hfix

theorem keeps_retries : ∀ {rounds : List Nat} {current : GeneratedChanges} {result : PytestRun} {attempts : Nat}
    {h : History Op Reply Raised τ}, I h → Meets A G (fun h _ => I h)
      (retries (ownWorktree root issue) issue rounds current result attempts) h
  | [], _, _, _, _, hi => hi
  | _ :: rounds, _, _, _, _, hi => by
    refine keeps_bind (hfix _ _ hi) fun fix h hi => ?_
    cases fix with
    | none => exact keeps_bind (keeps_logRetry hwork hi) fun _ h hi => hi
    | some fix =>
      refine keeps_ofExcept_bind hi fun forbidden hv => ?_
      by_cases hf : forbidden = []
      · subst hf
        refine keeps_bind (keeps_working hwork (working_writeFiles hv) hi) fun _ h hi => ?_
        refine keeps_ofExcept_bind hi fun _ _ => ?_
        refine keeps_bind (hwork testing_pytest hi) fun _ h hi => keeps_bind (keeps_logRetry hwork hi) fun _ h hi => ?_
        refine meets_ite.mpr ⟨fun _ => keeps_retries hi, fun _ => ?_⟩
        refine keeps_bind (keeps_working hwork working_fullUtilsTests hi) fun _ h hi => ?_
        refine keeps_bind (hwork testing_pytest hi) fun _ h hi => keeps_bind (keeps_logRetry hwork hi) fun _ h hi => ?_
        exact meets_ite.mpr ⟨fun _ => hi, fun _ => keeps_retries hi⟩
      · rw [if_pos hf]
        exact keeps_bind (keeps_logRetry hwork hi) fun _ h hi => hi

theorem keeps_runTestsWithRetries {changes : GeneratedChanges} (hi : I h) :
    Meets A G (fun h _ => I h) (runTestsWithRetries (ownWorktree root issue) issue changes) h := by
  refine keeps_ofExcept_bind hi fun _ _ => ?_
  refine keeps_bind (hwork testing_pytest hi) fun _ h hi => keeps_bind (keeps_logRetry hwork hi) fun _ h hi => ?_
  refine meets_ite.mpr ⟨fun _ => ?_, fun _ => keeps_retries hwork hfix hi⟩
  refine keeps_bind (keeps_working hwork working_fullUtilsTests hi) fun _ h hi => ?_
  refine keeps_bind (hwork testing_pytest hi) fun _ h hi => keeps_bind (keeps_logRetry hwork hi) fun _ h hi => ?_
  exact meets_ite.mpr ⟨fun _ => hi, fun _ => keeps_retries hwork hfix hi⟩

include hchanges hcommit hpublish

theorem keeps_implement (hi : I h) : Meets A G (fun h _ => I h) (implement (ownWorktree root issue) issue) h := by
  have hblock : ∀ (reason : String) (h : History Op Reply Raised τ), I h →
      Meets A G (fun h _ => I h) (block issue.number reason) h :=
    fun _ _ hi => keeps_working hwork working_blocking hi
  refine keeps_bind (keeps_working hwork working_fetchIssueComments hi) fun _ h hi => ?_
  refine keeps_bind (hchanges h hi) fun changes h hi => ?_
  cases changes with
  | none => exact hblock _ h hi
  | some changes =>
    refine keeps_ofExcept_bind hi fun forbidden hv => ?_
    by_cases hf : forbidden = []
    · subst hf
      refine keeps_bind (keeps_working hwork (working_writeFiles hv) hi) fun _ h hi => ?_
      refine keeps_bind (keeps_runTestsWithRetries hwork hfix hi) fun test h hi => ?_
      refine keeps_bind (hcommit changes h hi) fun msg h hi => ?_
      cases msg with
      | some msg => exact hblock _ h hi
      | none => exact hpublish changes test h hi
    · rw [if_pos hf]
      exact hblock _ h hi

/-- What is kept by working, testing, asking and publishing is kept by all of it. -/
theorem keeps_workOne (hi : I h) : Meets A G (fun h _ => I h) (workOne root issue) h := by
  refine keeps_bind (keeps_working hwork (tame_act (.log _ _)) hi) fun _ h hi => ?_
  refine keeps_bind (keeps_working hwork (tame_act (.label (by simp))) hi) fun _ h hi => ?_
  refine meets_bind.mpr ((gives_setUp.meets (keeps_working hwork working_setUp hi)).mono fun h r hr => ?_)
  cases r with
  | error e => exact hr.1
  | ok wt =>
    cases wt with
    | none => exact hr.1
    | some wt =>
      cases hr.2 _ rfl wt rfl
      refine keeps_ensuring (keeps_catchingAll (keeps_implement hwork hfix hchanges hcommit hpublish hr.1) ?_) ?_
      · exact fun e h hi => keeps_working hwork working_blocking hi
      · exact fun h hi => keeps_working hwork working_cleanUp hi

end

/-! ### The duty -/

section
variable {τ : Type} {A : History Op Reply Raised τ → Program.Entry Op Reply Raised τ → Prop}
  {h : History Op Reply Raised τ}

def OpenedFor (root : Path) (issue : IssueInfo) (number : Nat) (h : History Op Reply Raised τ) : Prop :=
  ∃ title body green t,
    ⟨.createPullRequest title body (ownWorktree root issue).branch "main" green, .ok number, t⟩ ∈ h

/-- What the backend agent may do about the issue after `h`. -/
inductive BackendDuty (root : Path) (issue : IssueInfo) (h : History Op Reply Raised τ) (o : Op) : Prop
  | work (own : Working root issue o) : BackendDuty root issue h o
  | test (own : Testing root issue o) : BackendDuty root issue h o
  | ask (own : Asking o) : BackendDuty root issue h o
  | publish (own : Publishing root issue o) : BackendDuty root issue h o
  | pull {number : Nat} (opened : OpenedFor root issue number h) (own : OnPull number o) : BackendDuty root issue h o

theorem backendDuty_publish {changes : GeneratedChanges} {test : TestResult} :
    Meets A (BackendDuty root issue) (fun _ _ => True) (publish (ownWorktree root issue) issue changes test) h := by
  rw [BackendAgent.publish, openPr, Program.bind_assoc]
  refine meets_bind.mpr (meets_act.mpr ⟨.publish (.openPr _ _ _), fun x t _ => ?_⟩)
  cases x with
  | error e => trivial
  | ok number =>
    -- the rest works on the issue and on the pull request just opened
    have hred : Tame (fun o => Working root issue o ∨ OnPull number o) IsBase (do
        labelRed number test.green
        return number) := by
      refine .bind (.ite trivial ?_) fun _ => trivial
      exact tame_catchingGitHub (tame_act (.inr .label)) fun _ => trivial
    have hgives : Gives (· = number) (do
        labelRed number test.green
        return number : Agent Nat) := by
      refine gives_bind fun _ n heq => ?_
      cases heq
      rfl
    have hrest : Tame (fun o => Working root issue o ∨ OnPull number o) IsBase (do
        let pr ← (do
          labelRed number test.green
          return number : Agent Nat)
        commentPrWithTests pr test
        act (.commentIssue issue.number ("🤖 Backend Agent — travaillé dans PR #" ++ toString pr ++ "."))
        act (.removeLabel issue.number inProgressLabel)
        act (.addLabels issue.number [doneLabel])
        act (.logEvent "backend" "done" [("issue", .int issue.number), ("pr", .int pr),
          ("tests_green", .bool test.green), ("attempts", .int test.attempts)])) := by
      refine hgives.tame_bind hred ?_
      rintro _ rfl
      refine .bind (.ite trivial (tame_catchingGitHub (tame_act (.inr (.comment _))) fun _ => trivial)) fun _ => ?_
      refine .bind (tame_act (.inl (.comment _))) fun _ => .bind (tame_act (.inl .unlabel)) fun _ => ?_
      exact .bind (tame_act (.inl (.label (by simp)))) fun _ => tame_act (.inl (.log _ _))
    refine (((hrest.guarantee fun _ _ => id).grows List.suffix_rfl).weaken ?_).mono fun _ _ _ => trivial
    rintro h' o ⟨hsuf, ho⟩
    rcases ho with ho | ho
    · exact .work ho
    · exact .pull ⟨_, _, _, t, hsuf.subset (.head _)⟩ ho

theorem backendDuty_workOne : Meets A (BackendDuty root issue) (fun _ _ => True) (workOne root issue) h := by
  have hask : ∀ {α : Type} {p : Agent α} (h : History Op Reply Raised τ), Tame Asking IsBase p →
      Meets A (BackendDuty root issue) (fun _ _ => True) p h := fun h hp => hp.guarantee fun _ _ => .ask
  refine keeps_workOne (I := fun _ => True) (fun hp _ => hp.guarantee fun _ _ ho => ho.elim .work .test)
    (fun _ h _ => hask h asking_generateFix) (fun h _ => hask h asking_generateChanges) (fun _ h _ => ?_)
    (fun _ _ _ _ => backendDuty_publish) trivial
  exact publishing_commitAndPush.guarantee fun _ _ => .publish

end

end

/-! ## Heartbeats -/

def Job.role : Job → String
  | .ceo => "ceo"
  | .triage => "triage"
  | .backend => "backend"

section
variable {τ : Type} {isWord : Char → Bool} {root : Path}
  {A : History Op Reply Raised τ → Program.Entry Op Reply Raised τ → Prop} {h h' : History Op Reply Raised τ}

def IssueListed (issue : IssueInfo) (h : History Op Reply Raised τ) : Prop :=
  ∃ issues t, ⟨.listOpenIssues [], .ok issues, t⟩ ∈ h ∧ issue ∈ issues

/-- `issue` is the oldest of a list of ready issues that nobody has taken. -/
def Picked (issue : IssueInfo) (h : History Op Reply Raised τ) : Prop :=
  ∃ issues t, ⟨.listOpenIssues [areaLabel, readyLabel], .ok issues, t⟩ ∈ h ∧
    (issues.filter BackendAgent.isCandidate).argmin IssueInfo.number = some issue

theorem IssueListed.mono {issue : IssueInfo} (hl : IssueListed issue h) (hs : h <:+ h') : IssueListed issue h' := by
  obtain ⟨issues, t, hm, hi⟩ := hl
  exact ⟨issues, t, hs.subset hm, hi⟩

theorem Picked.mono {issue : IssueInfo} (hl : Picked issue h) (hs : h <:+ h') : Picked issue h' := by
  obtain ⟨issues, t, hm, hi⟩ := hl
  exact ⟨issues, t, hs.subset hm, hi⟩

/-! What a heartbeat keeps is what it keeps for each pull request or issue. -/

section
variable {G : History Op Reply Raised τ → Op → Prop} {I : History Op Reply Raised τ → Prop} {α : Type}

theorem keeps_noted {p : Agent Unit} {f : Option α → Agent Unit} (hp : Meets A G (fun h _ => I h) p h)
    (hf : f none = pure ()) : Meets A G (fun h _ => I h) ((do p; return none : Agent (Option α)) >>= f) h := by
  refine meets_bind.mpr (meets_bind.mpr (hp.mono fun h r hi => ?_))
  cases r with
  | ok _ =>
    change Meets A G _ (f none) h
    rw [hf]
    exact hi
  | error _ => exact hi

theorem keeps_each {β : Type} {K : β → History Op Reply Raised τ → Prop} {body : β → Agent Unit} {l : List β}
    (hK : ∀ b h h', K b h → h <:+ h' → K b h')
    (hb : ∀ b h, K b h → I h → Meets A G (fun h _ => I h) (body b) h) (hk : ∀ b ∈ l, K b h) (hi : I h) :
    Meets A G (fun h _ => I h) (Program.each body l) h := by
  refine (meets_each (I := fun h => (∀ b ∈ l, K b h) ∧ I h) (E := fun h _ => I h) (fun b hm h hh => ?_)
    ⟨hk, hi⟩).mono fun h r hr => ?_
  · refine (((hb b h (hh.1 b hm) hh.2).grows (List.suffix_refl h)).weaken fun _ _ => And.right).mono fun h' r hr => ?_
    cases r with
    | ok _ => exact ⟨fun b hm => hK b h h' (hh.1 b hm) hr.1, hr.2⟩
    | error e => exact hr.2
  · cases r with
    | ok _ => exact hr.2
    | error e => exact hr

theorem keeps_ceoHeartbeat
    (hlog : ∀ h a payload, I h → Meets A G (fun h _ => I h) (act (.logEvent "ceo" a payload)) h)
    (hpaused : ∀ h, I h → Meets A G (fun h _ => I h) (act (.getenv "KOLA_CEO_PAUSED")) h)
    (hlist : ∀ h, I h → Meets A G (fun h _ => I h) (act .listOpenPrs) h)
    (hreview : ∀ pr h, Listed pr h → I h → Meets A G (fun h _ => I h) (CeoAgent.reviewPr isWord pr) h) (hi : I h) :
    Meets A G (fun h _ => I h) (CeoAgent.heartbeat isWord) h := by
  refine meets_bind.mpr ((hpaused h hi).mono fun h paused hi => ?_)
  cases paused with
  | error e => exact hi
  | ok paused =>
    refine meets_ite.mpr ⟨fun _ => hlog _ _ _ hi, fun _ => ?_⟩
    have hl := meets_act.mp (hlist h hi)
    refine meets_bind.mpr (meets_catchingGitHub.mpr (meets_bind.mpr (meets_act.mpr ⟨hl.1, fun x t ha => ?_⟩)))
    have hi := hl.2 x t ha
    cases x with
    | error e =>
      cases e with
      | gitHubApp text => exact meets_bind.mp (keeps_noted (hlog _ _ _ hi) rfl)
      | _ => exact hi
    | ok prs =>
      refine keeps_each (K := Listed) (fun _ _ _ => Listed.mono) (fun pr h hk hi => ?_)
        (fun pr hp => ⟨prs, t, List.mem_cons_self, hp⟩) hi
      exact keeps_catchingAll (hreview pr h hk hi) fun _ h hi => hlog _ _ _ hi

theorem keeps_triageHeartbeat
    (hlog : ∀ h a payload, I h → Meets A G (fun h _ => I h) (act (.logEvent "triage" a payload)) h)
    (hlist : ∀ h, I h → Meets A G (fun h _ => I h) (act (.listOpenIssues [])) h)
    (htriage : ∀ issue h, IssueListed issue h → I h → Meets A G (fun h _ => I h) (TriageAgent.triageOne issue) h)
    (hi : I h) : Meets A G (fun h _ => I h) TriageAgent.heartbeat h := by
  have hl := meets_act.mp (hlist h hi)
  refine meets_bind.mpr (meets_catchingAll.mpr (meets_bind.mpr (meets_act.mpr ⟨hl.1, fun x t ha => ?_⟩)))
  have hi := hl.2 x t ha
  cases x with
  | error e =>
    cases e with
    | base text => exact hi
    | _ => exact meets_bind.mp (keeps_noted (hlog _ _ _ hi) rfl)
  | ok issues =>
    refine keeps_each (K := IssueListed) (fun _ _ _ => IssueListed.mono) (fun issue h hk hi => ?_)
      (fun issue hm => ⟨issues, t, List.mem_cons_self, hm⟩) hi
    exact keeps_catchingAll (htriage issue h hk hi) fun _ h hi => hlog _ _ _ hi

theorem keeps_backendHeartbeat
    (hlog : ∀ h a payload, I h → Meets A G (fun h _ => I h) (act (.logEvent "backend" a payload)) h)
    (hpaused : ∀ h, I h → Meets A G (fun h _ => I h) (act (.getenv "KOLA_BACKEND_PAUSED")) h)
    (hlist : ∀ h, I h → Meets A G (fun h _ => I h) (act (.listOpenIssues [areaLabel, readyLabel])) h)
    (hwork : ∀ issue h, Picked issue h → I h → Meets A G (fun h _ => I h) (BackendAgent.workOne root issue) h)
    (hi : I h) : Meets A G (fun h _ => I h) (BackendAgent.heartbeat root) h := by
  refine meets_bind.mpr ((hpaused h hi).mono fun h paused hi => ?_)
  cases paused with
  | error e => exact hi
  | ok paused =>
    refine meets_ite.mpr ⟨fun _ => hlog _ _ _ hi, fun _ => ?_⟩
    have hl := meets_act.mp (hlist h hi)
    refine meets_bind.mpr (meets_catchingGitHub.mpr (meets_bind.mpr (meets_act.mpr ⟨hl.1, fun x t ha => ?_⟩)))
    have hi := hl.2 x t ha
    cases x with
    | error e =>
      cases e with
      | gitHubApp text => exact meets_bind.mp (keeps_noted (hlog _ _ _ hi) rfl)
      | _ => exact hi
    | ok issues =>
      cases hp : (issues.filter BackendAgent.isCandidate).argmin IssueInfo.number with
      | none =>
        simp only [pure_eq, meets_done, Option.bind_some, hp]
        exact hi
      | some issue =>
        simp only [pure_eq, meets_done, Option.bind_some, hp]
        exact hwork issue _ ⟨issues, t, List.mem_cons_self, hp⟩ hi

end

inductive Duty (root : Path) (h : History Op Reply Raised τ) : Job → Op → Prop
  | log (j : Job) (action : String) (payload : List (String × Json)) : Duty root h j (.logEvent j.role action payload)
  | ceoPaused : Duty root h .ceo (.getenv "KOLA_CEO_PAUSED")
  | listPulls : Duty root h .ceo .listOpenPrs
  | pull {pr : PullInfo} {o : Op} (listed : Listed pr h) (finished : pr.draft = false) (agents : isAgentPr pr = true)
    (own : CeoDuty pr o) : Duty root h .ceo o
  | listIssues : Duty root h .triage (.listOpenIssues [])
  | issue {issue : IssueInfo} {o : Op} (listed : IssueListed issue h) (lacks : ¬TriageAgent.triaged issue.labels)
    (own : TriageDuty issue o) : Duty root h .triage o
  | backendPaused : Duty root h .backend (.getenv "KOLA_BACKEND_PAUSED")
  | listReady : Duty root h .backend (.listOpenIssues [areaLabel, readyLabel])
  | task {issue : IssueInfo} {o : Op} (picked : Picked issue h) (own : BackendDuty root issue h o) :
    Duty root h .backend o

theorem duty_heartbeat {j : Job} :
    Meets A (fun h => Duty root h j) (fun _ _ => True) (heartbeat isWord root j) h := by
  cases j with
  | ceo =>
    refine keeps_ceoHeartbeat (I := fun _ => True) (fun _ _ _ _ => guarantee_act (.log .ceo _ _))
      (fun _ _ => guarantee_act (o := .getenv _) .ceoPaused) (fun _ _ => guarantee_act .listPulls)
      (fun pr h hl _ => ?_) trivial
    refine (((duty_reviewPr.guarantee fun _ _ => id).grows List.suffix_rfl).weaken ?_).mono fun _ _ _ => trivial
    exact fun h' o hd => .pull (hl.mono hd.1) hd.2.1 hd.2.2.1 hd.2.2.2
  | triage =>
    refine keeps_triageHeartbeat (I := fun _ => True) (fun _ _ _ _ => guarantee_act (.log .triage _ _))
      (fun _ _ => guarantee_act .listIssues) (fun issue h hl _ => ?_) trivial
    refine (((duty_triageOne.guarantee fun _ _ => id).grows List.suffix_rfl).weaken ?_).mono fun _ _ _ => trivial
    exact fun h' o hd => .issue (hl.mono hd.1) hd.2.1 hd.2.2
  | backend =>
    refine keeps_backendHeartbeat (I := fun _ => True) (fun _ _ _ _ => guarantee_act (.log .backend _ _))
      (fun _ _ => guarantee_act (o := .getenv _) .backendPaused) (fun _ _ => guarantee_act .listReady)
      (fun issue h hp _ => ?_) trivial
    refine ((backendDuty_workOne.grows List.suffix_rfl).weaken ?_).mono fun _ _ _ => trivial
    exact fun h' o hd => .task (hp.mono hd.1) hd.2

end

/-! ## The team -/

section
variable {ι : Type} [DecidableEq ι] {isWord : Char → Bool} {root : Path} {bot : String}
  {ok : TeamState ι → TeamAct ι → Prop} {s : TeamState ι}

def Signed : Event ι → Prop
  | .merged _ _ (some a) => a.job = .ceo
  | .labelled _ l (some a) => a.job = .ceo ∧ l ∈ [needsReviewLabel, autoMergedLabel] ∨
    a.job = .backend ∧ l ∈ [inProgressLabel, doneLabel, blockedLabel, needsReviewLabel]
  | .unlabelled _ l (some a) => a.job = .ceo ∧ l = needsReviewLabel ∨ a.job = .backend ∧ l = inProgressLabel
  | .relabelled _ _ (some a) => a.job = .triage
  | _ => True

omit [DecidableEq ι] in
theorem signed_of_outside {w : Log ι} {e : Event ι} (h : outside w e = true) : Signed e := by
  cases e with
  | merged n sha actor | labelled n l actor | unlabelled n l actor | relabelled n labels actor =>
    cases actor with
    | none => trivial
    | some a => simp [outside] at h
  | _ => trivial

section
variable {τ : Type} {h : History Op Reply Raised τ} {j : Job} {n : Nat}

theorem duty_merge {title message : String} (hd : Duty root h j (.mergePr n title message)) : j = .ceo := by
  cases hd with
  | pull => rfl
  | issue _ _ own => cases own
  | task _ own =>
    cases own with
    | work own | test own | ask own | publish own | pull _ own => cases own

theorem duty_relabel {labels : Finset String} (hd : Duty root h j (.setIssueLabels n labels)) : j = .triage := by
  cases hd with
  | pull _ _ _ own => cases own
  | issue => rfl
  | task _ own =>
    cases own with
    | work own | test own | ask own | publish own | pull _ own => cases own

theorem duty_label {labels : List String} {l : String} (hd : Duty root h j (.addLabels n labels)) (hl : l ∈ labels) :
    j = .ceo ∧ l ∈ [needsReviewLabel, autoMergedLabel] ∨
      j = .backend ∧ l ∈ [inProgressLabel, doneLabel, blockedLabel, needsReviewLabel] := by
  cases hd with
  | pull _ _ _ own =>
    cases own with
    | askReview | markMerged =>
      rw [List.mem_singleton.mp hl]
      simp
  | issue _ _ own => cases own
  | task _ own =>
    cases own with
    | work own =>
      cases own with
      | label own =>
        rw [List.mem_singleton.mp hl]
        exact .inr ⟨rfl, List.mem_append_left [needsReviewLabel] own⟩
    | pull _ own =>
      cases own
      rw [List.mem_singleton.mp hl]
      simp
    | test own | ask own | publish own => cases own

theorem duty_unlabel {l : String} (hd : Duty root h j (.removeLabel n l)) :
    j = .ceo ∧ l = needsReviewLabel ∨ j = .backend ∧ l = inProgressLabel := by
  cases hd with
  | pull _ _ _ own =>
    cases own
    exact .inl ⟨rfl, rfl⟩
  | issue _ _ own => cases own
  | task _ own =>
    cases own with
    | work own =>
      cases own
      exact .inr ⟨rfl, rfl⟩
    | test own | ask own | publish own | pull _ own => cases own

end

omit [DecidableEq ι] in
theorem signed_of_effect {w l : Log ι} {i : ι} {j : Job} {o : Op} {r x : Reply o}
    {h : History Op Reply Raised (Log ι)} (hd : Duty root h j o) (he : effect bot w ⟨i, j⟩ o r = some (x, l)) :
    ∀ e ∈ l, Signed e := by
  cases o with
  | mergePr n title message =>
    rw [effect] at he
    split at he
    · obtain ⟨pr, -, heq⟩ := Option.map_eq_some_iff.mp he
      cases heq
      exact List.forall_mem_singleton.mpr (duty_merge hd)
    · cases he
  | getPr n | getPrFiles n =>
    obtain ⟨pr, -, heq⟩ := Option.map_eq_some_iff.mp he
    cases heq
    exact List.forall_mem_nil _
  | listOpenPrs | listOpenIssues labels =>
    rw [effect] at he
    split at he <;> cases he
    exact List.forall_mem_nil _
  | createPullRequest title body branch base green =>
    rw [effect] at he
    split at he <;> cases he
    exact List.forall_mem_cons.mpr ⟨trivial, List.forall_mem_singleton.mpr trivial⟩
  | addLabels n labels =>
    cases he
    exact List.forall_mem_map.mpr fun l hl => duty_label hd (List.mem_reverse.mp hl)
  | removeLabel n label =>
    cases he
    split
    · exact List.forall_mem_singleton.mpr (duty_unlabel hd)
    · exact List.forall_mem_nil _
  | closePr n =>
    cases he
    exact List.forall_mem_singleton.mpr trivial
  | setIssueLabels n labels =>
    cases he
    exact List.forall_mem_singleton.mpr (duty_relabel hd)
  | _ =>
    cases he
    exact List.forall_mem_nil _

theorem duty_of_serves {i : ι} {x : Answer} {j : Job} {o : Op} {next : Except Raised (Reply o) → Agent Unit}
    {h : History Op Reply Raised (Log ι)} {r : Except Raised (Reply o)} {l : Log ι}
    (hs : (teamMachine isWord root bot).Reach ok s)
    (hserves : (team isWord root bot).Serves s i x j o next h r l) : Duty root h j o :=
  guarantee (V := fun _ => True) (fun _ _ _ _ _ _ _ _ => trivial) (G := fun h => Duty root h j) duty_heartbeat hs
    hserves

end

section
variable {ι : Type} [DecidableEq ι]

/-- Whatever an agent did was its duty, and what the log says of it shows that. -/
theorem duties (isWord : Char → Bool) (root : Path) (bot : String) (s : TeamState ι)
    (hs : (teamMachine isWord root bot).Reach Machine.Any s) :
    (∀ i p, s.party i = some p → ∀ e h, e :: h <:+ p.seen → Duty root h p.job e.op) ∧ ∀ e ∈ s.log, Signed e := by
  refine ⟨entries (K := fun j h e => Duty root h j e.op) (fun _ _ _ _ _ _ _ _ _ hr _ => duty_of_serves hr) hs, ?_⟩
  refine hs.invariant (I := fun s => ∀ e ∈ s.log, Signed e) (fun e he => by cases he) ?_
  intro s a t hr ih _ hstep
  obtain ⟨i, j, -, -, rfl⟩ | ⟨i, x, j, o, next, h, r, l, -, hserves, rfl⟩ | ⟨e, -, ho, rfl⟩ := step_cases hstep
  · exact ih
  · have hd := duty_of_serves hr hserves
    refine fun v hv => (List.mem_append.mp hv).elim (fun hl => ?_) (ih v)
    cases x with
    | done f | lost f e =>
      obtain ⟨⟨y, l'⟩, heff, heq⟩ := Option.map_eq_some_iff.mp hserves.served
      cases heq
      exact signed_of_effect hd heff v hl
    | refused e =>
      cases hserves.served
      cases hl
  · exact List.forall_mem_cons.mpr ⟨signed_of_outside ho, ih⟩

end

def untriaged : Answer := .done fun
  | .listOpenIssues _ => [{ number := 7, title := "t", labels := {"area/api", "ready-for-dev"} }]
  | .callModel .. => ⟨"", "fast", 100, some [("kind", .str "kind/bug")]⟩
  | o => noReply o

theorem duties_run : ∃ s : TeamState Bool,
    (.labelled 7 inProgressLabel (some ⟨true, .backend⟩) ∈ s.log ∧
      .relabelled 7 {"area/api", "ready-for-dev", "kind/bug"} (some ⟨false, .triage⟩) ∈ s.log) ∧
    (∀ i p, s.party i = some p → ∀ e h, e :: h <:+ p.seen → Duty [] h p.job e.op) ∧ ∀ e ∈ s.log, Signed e := by
  obtain ⟨s, hs, hlog⟩ := Machine.reach_of_exec (teamMachine (fun _ => true) [] "kola-team-bot") Machine.Any
    ([.event (.issued 7), .event (.described 7 { title := "t", body := none, draft := false }),
        .event (.relabelled 7 {"area/api", "ready-for-dev"} none), .start false .triage, .start true .backend,
        .answer false untriaged] ++
      List.replicate 4 (.answer true untriaged) ++ List.replicate 5 (.answer false untriaged))
    (fun s => .labelled 7 inProgressLabel (some ⟨true, .backend⟩) ∈ s.log ∧
      .relabelled 7 {"area/api", "ready-for-dev", "kind/bug"} (some ⟨false, .triage⟩) ∈ s.log) (by decide +kernel)
  exact ⟨s, hlog, duties (fun _ => true) [] "kola-team-bot" s hs⟩

end AdmissionScheduler.Orchestrator
