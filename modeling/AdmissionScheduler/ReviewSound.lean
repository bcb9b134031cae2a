import AdmissionScheduler.CeoAgent

/-!
# What a review has seen

The CEO agent merges a pull request only after it fetched files and runs on which
both rules pass, in an order that `Fetched` writes down. What it fetched is the
first page of each list: the merge covers the whole pull request exactly when the
part it did not see is clean as well.
-/

namespace AdmissionScheduler.Orchestrator

open Program PyText

variable {τ : Type}

def statusOf (runs : WorkflowRuns) : PrStatus :=
  { totalCount := runs.totalCount.getD 0, checkRuns := runs.workflowRuns.getD [] }

/-- The newest entries are those of fetching pull request `n`: its files at `t₁`, its head at `t₂`, then its runs. -/
inductive Fetched (n : Nat) (files : List PrFile) (p : PullInfo) (t₁ t₂ : τ) :
    PrStatus → History Op Reply Raised τ → Prop
  | checks {status t₃ h} : Fetched n files p t₁ t₂ status
      (⟨.checkRuns p.headSha, .ok status, t₃⟩ :: ⟨.getPr n, .ok p, t₂⟩ :: ⟨.getPrFiles n, .ok files, t₁⟩ :: h)
  | fallback {e runs t₃ t₄ h} (forbidden : occursIn "403".toList e.toList = true) :
    Fetched n files p t₁ t₂ (statusOf runs)
      (⟨.workflowRuns p.headSha, .ok runs, t₄⟩ :: ⟨.checkRuns p.headSha, .error (.gitHubApp e), t₃⟩ ::
        ⟨.getPr n, .ok p, t₂⟩ :: ⟨.getPrFiles n, .ok files, t₁⟩ :: h)

section
variable (isWord : Char → Bool)

def Accepts (pr : PullInfo) (files : List PrFile) (status : PrStatus) : Prop :=
  pr.draft = false ∧ (checkCharter4 isWord files).ok = true ∧ (checkCharter3 pr files status).ok = true

/-- A request to merge comes after the approval, with what the review of `pr` fetched for it. -/
def Judged (pr : PullInfo) (h : History Op Reply Raised τ) (o : Op) : Prop :=
  ∀ n title message, o = .mergePr n title message → n = pr.number ∧
    ∃ files p t₁ t₂ status body x t h₀, h = ⟨.approvePr n body, x, t⟩ :: h₀ ∧ Fetched n files p t₁ t₂ status h₀ ∧
      Accepts isWord pr files status

variable {isWord} {A : History Op Reply Raised τ → Program.Entry Op Reply Raised τ → Prop}
  {pr : PullInfo} {h : History Op Reply Raised τ}

def isMerge : Op → Bool
  | .mergePr .. => true
  | _ => false

theorem judged_of_not_merge {o : Op} (ho : isMerge o = false) : Judged isWord pr h o := by
  rintro n title message rfl
  cases ho

theorem meets_of_not_merge {α : Type} {p : Agent α} (hp : Tame (isMerge · = false) IsBase p) :
    Meets A (Judged isWord pr) (fun _ _ => True) p h := hp.guarantee fun _ _ => judged_of_not_merge

theorem tame_rejectPr {reason : String} : Tame (isMerge · = false) IsBase (CeoAgent.rejectPr pr reason) :=
  .bind (tame_act rfl) fun _ => .bind (tame_act rfl) fun _ => tame_act rfl

theorem tame_requestReview {reason : String} : Tame (isMerge · = false) IsBase (CeoAgent.requestReview pr reason) :=
  .ite trivial (.bind (tame_act rfl) fun _ => .bind (tame_act rfl) fun _ => tame_act rfl)

theorem tame_reportBlocked {e : String} : Tame (isMerge · = false) IsBase (CeoAgent.reportBlocked pr e) :=
  .ite trivial (.bind (tame_act rfl) fun _ => tame_act rfl)

theorem tame_clearReview : Tame (isMerge · = false) IsBase (CeoAgent.clearReview pr) :=
  .ite (tame_catchingGitHub (tame_act rfl) fun _ => trivial) trivial

theorem meets_tryMerge {e : Program.Entry Op Reply Raised τ}
    (hj : ∀ title message, Judged isWord pr (e :: h) (.mergePr pr.number title message)) :
    Meets A (Judged isWord pr) (fun _ _ => True) (CeoAgent.tryMerge pr) (e :: h) := by
  rw [CeoAgent.tryMerge, meets_catchingGitHub]
  cases pr.body with
  | none => trivial
  | some body =>
    refine meets_bind.mpr (meets_act.mpr ⟨hj _ _, fun x t _ => ?_⟩)
    rcases x with x | _
    · cases x with
      | gitHubApp text =>
        exact meets_of_not_merge (.ite (tame_reportBlocked.bind fun _ => .bind (tame_act rfl) fun _ => trivial)
          (tame_raise Bool.false_ne_true))
      | _ => trivial
    · trivial

theorem meets_acceptPr {files : List PrFile} {p : PullInfo} {t₁ t₂ : τ} {status : PrStatus}
    (hf : Fetched pr.number files p t₁ t₂ status h) (ha : Accepts isWord pr files status) :
    Meets A (Judged isWord pr) (fun _ _ => True) (CeoAgent.acceptPr pr) h := by
  have hm : ∀ body x t, Meets A (Judged isWord pr) (fun _ _ => True) (do
      let merged ← CeoAgent.tryMerge pr
      if merged then do
        CeoAgent.clearReview pr
        act (.addLabels pr.number [autoMergedLabel])
        act (.logEvent "ceo" "auto-merge" [("pr", .int pr.number), ("sha", .str pr.headSha)])
      else pure ()) (⟨.approvePr pr.number body, x, t⟩ :: h) := by
    intro body x t
    rw [meets_bind]
    refine (meets_tryMerge fun title message n _ _ heq => ?_).mono fun h' r _ => ?_
    · cases heq
      exact ⟨rfl, files, p, t₁, t₂, status, body, x, t, h, rfl, hf, ha⟩
    · cases r with
      | error _ => trivial
      | ok merged =>
        exact meets_of_not_merge (.ite
          (tame_clearReview.bind fun _ => .bind (tame_act rfl) fun _ => tame_act rfl) trivial)
  rw [CeoAgent.acceptPr, meets_bind, meets_catchingGitHub]
  refine meets_act.mpr ⟨judged_of_not_merge rfl, fun x t _ => ?_⟩
  rcases x with x | _
  · cases x <;> first | exact hm _ _ _ | trivial
  · exact hm _ _ _

/-- Reading the status leaves the entries that `Fetched` speaks of. -/
theorem meets_getPrStatus {n : Nat} {files : List PrFile} {t₁ : τ} :
    Meets A (Judged isWord pr) (fun h' r => ∀ status, r = .ok status → ∃ p t₂, Fetched n files p t₁ t₂ status h')
      (getPrStatus n) (⟨.getPrFiles n, .ok files, t₁⟩ :: h) := by
  refine meets_bind.mpr (meets_act.mpr ⟨judged_of_not_merge rfl, fun x t₂ _ => ?_⟩)
  rcases x with _ | p
  · exact fun _ e => by cases e
  refine meets_catchingGitHub.mpr (meets_act.mpr ⟨judged_of_not_merge rfl, fun x t₃ _ => ?_⟩)
  rcases x with x | status
  · cases x with
    | gitHubApp e =>
      refine meets_ite.mpr ⟨fun hc => ?_, fun _ => fun _ e => by cases e⟩
      refine meets_bind.mpr (meets_act.mpr ⟨judged_of_not_merge rfl, fun x t₄ _ => ?_⟩)
      rcases x with _ | runs
      · exact fun _ e => by cases e
      · rintro status ⟨⟩
        exact ⟨p, t₂, .fallback hc⟩
    | _ => exact fun _ e => by cases e
  · rintro status ⟨⟩
    exact ⟨p, t₂, .checks⟩

theorem meets_reviewPr : Meets A (Judged isWord pr) (fun _ _ => True) (CeoAgent.reviewPr isWord pr) h := by
  refine meets_ite.mpr ⟨fun _ => trivial, fun hd => meets_ite.mpr ⟨fun _ => trivial, fun _ => ?_⟩⟩
  refine meets_bind.mpr (meets_act.mpr ⟨judged_of_not_merge rfl, fun x t₁ _ => ?_⟩)
  rcases x with _ | files
  · trivial
  refine meets_bind.mpr (meets_getPrStatus.mono fun h' r hf => ?_)
  rcases r with _ | status
  · trivial
  obtain ⟨p, t₂, hf⟩ := hf status rfl
  refine meets_ite.mpr ⟨fun _ => meets_of_not_merge tame_rejectPr, fun h₄ => ?_⟩
  refine meets_ite.mpr ⟨fun h₃ => ?_, fun _ => meets_of_not_merge tame_requestReview⟩
  exact meets_acceptPr hf ⟨by simpa using hd, by simpa using h₄, h₃⟩

end

/-! ## The whole pull request -/

structure PullRequest where
  info : PullInfo
  files : List PrFile
  checkRuns : List CheckRun
  workflowRuns : List CheckRun

/-- The paths a file's entry adds, modifies, deletes, or renames from or to. -/
def touchedPaths (f : PrFile) : List String :=
  f.filename :: if f.status = some "renamed" then f.previousFilename.toList else []

namespace PullRequest

variable (P : PullRequest)

/-- What GitHub replies: the first page of each list, 30 entries where the request does not say. -/
def FirstPage : Program.Entry Op Reply Raised Unit → Prop
  | ⟨.getPr _, .ok p, _⟩ => p = P.info
  | ⟨.getPrFiles _, .ok files, _⟩ => files = P.files.take 100
  | ⟨.checkRuns _, .ok status, _⟩ => status.checkRuns = P.checkRuns.take 30
  | ⟨.workflowRuns _, .ok runs, _⟩ => runs.workflowRuns = some (P.workflowRuns.take 50)
  | _ => True

def Covered : Prop :=
  (∀ f ∈ P.files, ∀ path ∈ touchedPaths f, matchesForbidden path = none) ∧ diffTotal P.files < maxPrDiffLines ∧
    ∀ cr ∈ P.checkRuns, passing cr = true

/-- The old names of renamed files, and all there is to the files beyond the first page. -/
def UnseenFilesClean : Prop :=
  (∀ f ∈ P.files, f.status = some "renamed" → ∀ old ∈ f.previousFilename, matchesForbidden old = none) ∧
    (∀ f ∈ P.files.drop 100, matchesForbidden f.filename = none) ∧ diffTotal P.files < maxPrDiffLines

/-- Where the rules pass on the first pages, the rest would not have stopped the merge. -/
def UnseenClean (isWord : Char → Bool) : Prop :=
  (Accepts isWord P.info (P.files.take 100) ⟨0, P.checkRuns.take 30⟩ →
    P.UnseenFilesClean ∧ ∀ cr ∈ P.checkRuns.drop 30, passing cr = true) ∧
  (Accepts isWord P.info (P.files.take 100) ⟨0, P.workflowRuns.take 50⟩ →
    P.UnseenFilesClean ∧ ∀ cr ∈ P.checkRuns, passing cr = true)

variable {P} {isWord : Char → Bool}

theorem covered_iff (hf : ∀ f ∈ P.files.take 100, matchesForbidden f.filename = none) :
    P.Covered ↔ P.UnseenFilesClean ∧ ∀ cr ∈ P.checkRuns, passing cr = true := by
  have hall : (∀ f ∈ P.files, matchesForbidden f.filename = none) ↔
      ∀ f ∈ P.files.drop 100, matchesForbidden f.filename = none := by
    conv_lhs => rw [← List.take_append_drop 100 P.files]
    exact ⟨fun h f hd => h f (List.mem_append_right _ hd), fun h f hm => (List.mem_append.mp hm).elim (hf f) (h f)⟩
  have ht : (∀ f ∈ P.files, ∀ path ∈ touchedPaths f, matchesForbidden path = none) ↔
      (∀ f ∈ P.files, matchesForbidden f.filename = none) ∧
        ∀ f ∈ P.files, f.status = some "renamed" → ∀ old ∈ f.previousFilename, matchesForbidden old = none := by
    rw [← forall₂_and]
    refine forall₂_congr fun f _ => ?_
    by_cases hs : f.status = some "renamed" <;> simp [touchedPaths, hs]
  rw [Covered, UnseenFilesClean, ht, hall]
  tauto

theorem accepts_congr {pr : PullInfo} {files : List PrFile} {s s' : PrStatus} (h : s.checkRuns = s'.checkRuns) :
    Accepts isWord pr files s ↔ Accepts isWord pr files s' := by
  simp only [Accepts, checkCharter3, h]

theorem firstPage_error {o : Op} {e : Raised} : P.FirstPage ⟨o, .error e, ()⟩ := by cases o <;> trivial

theorem fetched_pages {n : Nat} {files : List PrFile} {p : PullInfo} {t₁ t₂ : Unit} {status : PrStatus}
    {h : History Op Reply Raised Unit} (hf : Fetched n files p t₁ t₂ status h) (hp : ∀ e ∈ h, P.FirstPage e) :
    files = P.files.take 100 ∧
      (status.checkRuns = P.checkRuns.take 30 ∨ status.checkRuns = P.workflowRuns.take 50) := by
  cases hf with
  | @checks status t₃ h =>
    exact ⟨hp ⟨.getPrFiles n, .ok files, t₁⟩ (by simp), .inl (hp ⟨.checkRuns p.headSha, .ok status, t₃⟩ (by simp))⟩
  | @fallback e runs t₃ t₄ h forbidden =>
    have hr : runs.workflowRuns = _ := hp ⟨.workflowRuns p.headSha, .ok runs, t₄⟩ (by simp)
    exact ⟨hp ⟨.getPrFiles n, .ok files, t₁⟩ (by simp), .inr (by simp [statusOf, hr])⟩

/-- The status may come from the check runs, or from the workflow runs when those are refused. -/
theorem exists_status {status : PrStatus} {h : History Op Reply Raised Unit}
    (hs : status.checkRuns = P.checkRuns.take 30 ∨
      status = statusOf ⟨some status.totalCount, some (P.workflowRuns.take 50)⟩) :
    ∃ h₁, Runs (fun _ => P.FirstPage) (getPrStatus P.info.number) h h₁ (.ok status) := by
  rcases hs with hs | hs
  · exact ⟨_, .bind (.perform (t := ()) rfl) (.catching (.perform (t := ()) hs))⟩
  · let runs : WorkflowRuns := ⟨some status.totalCount, some (P.workflowRuns.take 50)⟩
    refine ⟨⟨.workflowRuns P.info.headSha, .ok runs, ()⟩ ::
      ⟨.checkRuns P.info.headSha, .error (.gitHubApp "403"), ()⟩ :: ⟨.getPr P.info.number, .ok P.info, ()⟩ :: h,
      .bind (.perform (t := ()) rfl) (.caught (e := .gitHubApp "403") (.perform (t := ()) trivial) ?_)⟩
    have hr : P.FirstPage ⟨.workflowRuns P.info.headSha, .ok runs, ()⟩ := rfl
    rw [hs]
    exact .bind (.perform hr) .done

/-- What the rules pass on can get merged. -/
theorem exists_merge {status : PrStatus}
    (hs : status.checkRuns = P.checkRuns.take 30 ∨
      status = statusOf ⟨some status.totalCount, some (P.workflowRuns.take 50)⟩)
    (ha : Accepts isWord P.info (P.files.take 100) status) :
    ∃ h r, Runs (fun _ => P.FirstPage) (CeoAgent.reviewPr isWord P.info) [] h r ∧ ∃ e ∈ h, isMerge e.op = true := by
  obtain ⟨h₁, hs⟩ := exists_status (h := [⟨.getPrFiles P.info.number, .ok (P.files.take 100), ()⟩]) hs
  obtain ⟨hd, h₄, h₃⟩ := ha
  obtain ⟨hagent, -, -, -, -, -, -, hsec⟩ := checkCharter3_ok.mp h₃
  obtain ⟨body, hb⟩ : ∃ body, P.info.body = some body := by
    cases hb : P.info.body with
    | none => rw [missingSection, hb] at hsec; exact absurd hsec (by decide)
    | some body => exact ⟨body, rfl⟩
  let approved : Program.Entry Op Reply Raised Unit :=
    ⟨.approvePr P.info.number "Auto-approved by CEO Agent (charte §3, all conditions met).", .ok (), ()⟩
  let merged : Program.Entry Op Reply Raised Unit := ⟨.mergePr P.info.number P.info.title
    ("Auto-merged by CEO Agent (charte §3).\n\nOriginal body:\n" ++ clip 500 body), .ok (), ()⟩
  have hm : Runs (fun _ => P.FirstPage) (CeoAgent.tryMerge P.info) (approved :: h₁) (merged :: approved :: h₁)
      (.ok true) := by
    rw [CeoAgent.tryMerge, hb]
    exact .catching (.bind (.perform trivial) .done)
  obtain ⟨h, r, hr⟩ := exists_runs (A := fun _ => P.FirstPage) (fun _ _ => ⟨.error (.other ""), (), firstPage_error⟩)
    (do
      CeoAgent.clearReview P.info
      act (.addLabels P.info.number [autoMergedLabel])
      act (.logEvent "ceo" "auto-merge" [("pr", .int P.info.number), ("sha", .str P.info.headSha)]))
    (merged :: approved :: h₁)
  refine ⟨h, r, ?_, merged, hr.suffix.subset (List.mem_cons_self ..), rfl⟩
  rw [CeoAgent.reviewPr, if_neg (by simp [hd]), if_neg (by simp [hagent])]
  refine .bind (.perform rfl) (.bind hs ?_)
  rw [if_neg (by simp [h₄]), if_pos h₃]
  exact .bind (.catching (.perform trivial)) (.bind hm hr)

end PullRequest

open PullRequest in
/-- An automatic merge covers the whole pull request exactly when what the review could not see is clean. -/
theorem merge_covers_iff (isWord : Char → Bool) (P : PullRequest) :
    (∀ h r, Runs (fun _ => P.FirstPage) (CeoAgent.reviewPr isWord P.info) [] h r →
      (∃ e ∈ h, isMerge e.op = true) → P.Covered) ↔ P.UnseenClean isWord := by
  constructor
  · intro hall
    have hc : ∀ status : PrStatus, (status.checkRuns = P.checkRuns.take 30 ∨
          status = statusOf ⟨some status.totalCount, some (P.workflowRuns.take 50)⟩) →
        Accepts isWord P.info (P.files.take 100) status →
        P.UnseenFilesClean ∧ ∀ cr ∈ P.checkRuns, passing cr = true := by
      intro status hs ha
      obtain ⟨h, r, hr, hm⟩ := exists_merge hs ha
      exact (covered_iff (checkCharter3_ok.mp ha.2.2).2.2.2.1).mp (hall h r hr hm)
    refine ⟨fun ha => ?_, fun ha => hc _ (.inr rfl) ha⟩
    have hclean := hc _ (.inl rfl) ha
    exact ⟨hclean.1, fun cr hm => hclean.2 cr (List.drop_subset _ _ hm)⟩
  · intro hu h r hr ⟨e, he, hm⟩
    have hp := hr.allowed (fun _ he => absurd he List.not_mem_nil)
    obtain ⟨h₁, hs⟩ : ∃ h₁, e :: h₁ <:+ h := by
      obtain ⟨l, h₁, rfl⟩ := List.append_of_mem he
      exact ⟨h₁, List.suffix_append ..⟩
    have hmeets : Meets (fun _ => P.FirstPage) (Judged isWord P.info) (fun _ _ => True)
        (CeoAgent.reviewPr isWord P.info) [] := meets_reviewPr
    have hj := (hmeets.entries hr (fun e h₁ hs => by simpa using hs.length_le) e h₁ hs).1
    obtain ⟨o, x, t⟩ := e
    cases o with
    | mergePr n title message =>
      obtain ⟨-, files, p, t₁, t₂, status, body, x', t', h₀, rfl, hf, ha⟩ := hj n title message rfl
      have hsub : ∀ e ∈ h₀, P.FirstPage e := fun e he =>
        hp e (hs.subset (List.mem_cons_of_mem _ (List.mem_cons_of_mem _ he)))
      obtain ⟨rfl, hst⟩ := fetched_pages hf hsub
      rw [covered_iff (checkCharter3_ok.mp ha.2.2).2.2.2.1]
      rcases hst with hst | hst
      · have hclean := hu.1 ((accepts_congr hst).mp ha)
        refine ⟨hclean.1, fun cr hc => ?_⟩
        rw [← List.take_append_drop 30 P.checkRuns, ← hst] at hc
        exact (List.mem_append.mp hc).elim ((checkCharter3_ok.mp ha.2.2).2.2.1 cr) (hclean.2 cr)
      · exact hu.2 ((accepts_congr hst).mp ha)
    | _ => cases hm

/-- A workflow moved out of `.github/`. -/
def movedWorkflow : PullRequest where
  info := {
    number := 7, title := "feat: docs", body := some "## What\n## Why\n## Test\n", draft := false
    login := "kola-team-bot[bot]", headSha := "c0", labels := ∅ }
  files := [{
    filename := "docs/guard.yml.txt", previousFilename := some ".github/workflows/guard.yml", status := some "renamed"
    additions := some 0, deletions := some 0, patch := none }]
  checkRuns := [{ name := "tests", status := some "completed", conclusion := some "success" }]
  workflowRuns := []

theorem merge_covers_fails : ¬ ∀ (isWord : Char → Bool) (P : PullRequest) h r,
    Runs (fun _ => P.FirstPage) (CeoAgent.reviewPr isWord P.info) [] h r →
      (∃ e ∈ h, isMerge e.op = true) → P.Covered := by
  intro hall
  have ha : Accepts (fun _ => false) movedWorkflow.info movedWorkflow.files ⟨1, movedWorkflow.checkRuns⟩ :=
    ⟨rfl, by decide, by decide⟩
  obtain ⟨h, r, hr, hm⟩ := PullRequest.exists_merge (P := movedWorkflow) (.inl rfl) ha
  have hc := (hall _ _ h r hr hm).1 _ (List.mem_cons_self ..) ".github/workflows/guard.yml" (by decide)
  exact absurd hc (by decide)

end AdmissionScheduler.Orchestrator
