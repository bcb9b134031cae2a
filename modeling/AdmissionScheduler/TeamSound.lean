import AdmissionScheduler.ReviewSound
import AdmissionScheduler.Team

/-!
# What the hub's replies say

A reply shows the log as it stood when the request was served, and the log only
grows. What was said once about the branch of a pull request stays true, and
its head is where the last push since then left it.
-/

namespace AdmissionScheduler.Orchestrator

open Program Log

variable {ι : Type}

/-! ## Growing logs -/

namespace Log

variable {w w' : Log ι} {n : Nat}

def since (w w' : Log ι) : Log ι := w'.take (w'.length - w.length)

@[simp] theorem since_append_self {l : Log ι} : since w (l ++ w) = l := by
  rw [since, List.length_append, Nat.add_sub_cancel, List.take_left']
  rfl

@[simp] theorem since_self : since w w = [] := since_append_self (l := [])

theorem since_append (h : w <:+ w') : since w w' ++ w = w' := by
  obtain ⟨l, rfl⟩ := h
  rw [since_append_self]

theorem since_append_left {l : Log ι} (h : w <:+ w') : since w (l ++ w') = l ++ since w w' := by
  obtain ⟨u, rfl⟩ := h
  rw [since_append_self, ← List.append_assoc, since_append_self]

theorem head_append {branch : String} {l : Log ι} : head branch (l ++ w) = (head branch l).or (head branch w) :=
  List.findSome?_append

theorem pull_suffix {p : Pull} (h : w <:+ w') (hp : pull n w = some p) : pull n w' = some p := by
  obtain ⟨l, rfl⟩ := h
  rw [pull, List.reverse_append, List.findSome?_append]
  exact Option.or_eq_some_iff.mpr (.inl hp)

def pullHead (n : Nat) (w : Log ι) : Option String := (pull n w).bind fun p => head p.branch w

theorem pull_of_info {pr : PullInfo} (h : pullInfo n w = some pr) :
    ∃ p, pull n w = some p ∧ head p.branch w = some pr.headSha ∧ pr.number = n := by
  obtain ⟨p, hp, h⟩ := Option.bind_eq_some_iff.mp h
  obtain ⟨d, -, h⟩ := Option.bind_eq_some_iff.mp h
  obtain ⟨sha, hsha, h⟩ := Option.bind_eq_some_iff.mp h
  cases h
  exact ⟨p, hp, hsha, rfl⟩

theorem pullHead_of_info {pr : PullInfo} (h : pullInfo n w = some pr) : pullHead n w = some pr.headSha := by
  obtain ⟨p, hp, hsha, -⟩ := pull_of_info h
  rw [pullHead, hp]
  exact hsha

end Log

/-! ## Replies -/

def Accurate : Program.Entry Op Reply Raised (Log ι) → Prop
  | ⟨.listOpenPrs, .ok prs, w⟩ => ∀ pr ∈ prs, pullInfo pr.number w = some pr
  | ⟨.getPr n, .ok pr, w⟩ => pullInfo n w = some pr
  | ⟨.getPrFiles n, .ok files, w⟩ => ∃ sha, pullHead n w = some sha ∧ files = (filesOf sha w).take 100
  | ⟨.checkRuns sha, .ok status, w⟩ => status.checkRuns = (checksOf sha w).take 30
  | ⟨.workflowRuns sha, .ok runs, w⟩ => runs.workflowRuns = some ((workflowsOf sha w).take 50)
  | ⟨.listOpenIssues _, .ok issues, w⟩ => ∀ issue ∈ issues, issueInfo issue.number w = some issue
  | _ => True

variable {bot : String} {w l : Log ι} {a : Actor ι} {o : Op}

theorem accurate_error {e : Raised} : Accurate ⟨o, .error e, w⟩ := by cases o <;> trivial

theorem accurate_effect {r x : Reply o} (h : effect bot w a o r = some (x, l)) : Accurate ⟨o, .ok x, l ++ w⟩ := by
  cases o with
  | listOpenPrs =>
    rw [effect] at h
    split at h
    · rename_i hall
      cases h
      exact fun pr hp => (hall pr hp).1
    · cases h
  | getPr n =>
    obtain ⟨pr, hp, heq⟩ := Option.map_eq_some_iff.mp h
    cases heq
    exact hp
  | getPrFiles n =>
    obtain ⟨pr, hp, heq⟩ := Option.map_eq_some_iff.mp h
    cases heq
    exact ⟨pr.headSha, pullHead_of_info hp, rfl⟩
  | checkRuns sha => cases h; rfl
  | workflowRuns sha => cases h; rfl
  | listOpenIssues required =>
    rw [effect] at h
    split at h
    · rename_i hall
      cases h
      exact fun issue hi => (hall issue hi).1
    · cases h
  | _ => trivial

theorem accurate_serve {i : ι} {j : Job} {x : Answer} {r : Except Raised (Reply o)}
    (h : serve bot w i j o x = some (r, l)) : Accurate ⟨o, r, l ++ w⟩ := by
  cases x with
  | done f =>
    obtain ⟨⟨y, l'⟩, he, heq⟩ := Option.map_eq_some_iff.mp h
    cases heq
    exact accurate_effect he
  | refused e =>
    cases h
    exact accurate_error
  | lost f e =>
    obtain ⟨⟨y, l'⟩, he, heq⟩ := Option.map_eq_some_iff.mp h
    cases heq
    exact accurate_error

/-! ## Events -/

/-- Of the events a request causes, a merge takes the head as it is; none is a push. -/
def Caused (w : Log ι) (a : Actor ι) (o : Op) (l : Log ι) : Event ι → Prop
  | .merged n sha b =>
    (∃ title message, o = .mergePr n title message) ∧ l = [.merged n sha (some a)] ∧ b = some a ∧ pullHead n w = some sha
  | .pushed .. => False
  | _ => True

theorem caused_effect {r x : Reply o} (h : effect bot w a o r = some (x, l)) : ∀ e ∈ l, Caused w a o l e := by
  cases o with
  | mergePr n title message =>
    rw [effect] at h
    split at h
    · obtain ⟨pr, hp, heq⟩ := Option.map_eq_some_iff.mp h
      cases heq
      exact List.forall_mem_singleton.mpr ⟨⟨title, message, rfl⟩, rfl, rfl, pullHead_of_info hp⟩
    · cases h
  | getPr n | getPrFiles n =>
    obtain ⟨pr, -, heq⟩ := Option.map_eq_some_iff.mp h
    cases heq
    exact List.forall_mem_nil _
  | listOpenPrs | listOpenIssues labels =>
    rw [effect] at h
    split at h <;> cases h
    exact List.forall_mem_nil _
  | createPullRequest title body branch base green =>
    rw [effect] at h
    split at h <;> cases h
    exact List.forall_mem_cons.mpr ⟨trivial, List.forall_mem_singleton.mpr trivial⟩
  | addLabels n labels =>
    cases h
    exact List.forall_mem_map.mpr fun _ _ => trivial
  | removeLabel n label =>
    cases h
    split
    · exact List.forall_mem_singleton.mpr trivial
    · exact List.forall_mem_nil _
  | closePr n | setIssueLabels n labels =>
    cases h
    exact List.forall_mem_singleton.mpr trivial
  | _ =>
    cases h
    exact List.forall_mem_nil _

theorem caused_serve {i : ι} {j : Job} {x : Answer} {r : Except Raised (Reply o)}
    (h : serve bot w i j o x = some (r, l)) : ∀ e ∈ l, Caused w ⟨i, j⟩ o l e := by
  cases x with
  | done f | lost f e =>
    obtain ⟨⟨y, l'⟩, he, heq⟩ := Option.map_eq_some_iff.mp h
    cases heq
    exact caused_effect he
  | refused e =>
    cases h
    exact List.forall_mem_nil _

/-! ## The CEO's heartbeat -/

section
variable {τ : Type} {isWord : Char → Bool}
  {A : History Op Reply Raised τ → Program.Entry Op Reply Raised τ → Prop} {h : History Op Reply Raised τ}

/-- `pr` was on the list the heartbeat began with. -/
def Listed (pr : PullInfo) (h : History Op Reply Raised τ) : Prop :=
  ∃ prs t, ⟨.listOpenPrs, .ok prs, t⟩ ∈ h ∧ pr ∈ prs

theorem Listed.mono {pr : PullInfo} {h' : History Op Reply Raised τ} (hl : Listed pr h) (hs : h <:+ h') :
    Listed pr h' := by
  obtain ⟨prs, t, hm, hp⟩ := hl
  exact ⟨prs, t, hs.subset hm, hp⟩

/-- A request to merge follows the review of a pull request of the list. -/
def Reviewed (isWord : Char → Bool) (h : History Op Reply Raised τ) (o : Op) : Prop :=
  isMerge o = true → ∃ pr, Listed pr h ∧ Judged isWord pr h o

theorem reviewed_of_not_merge {o : Op} (ho : isMerge o = false) : Reviewed isWord h o := by
  intro hm
  rw [ho] at hm
  cases hm

theorem meets_logEvent {role action : String} {payload : List (String × Json)} :
    Meets A (Reviewed isWord) (fun _ _ => True) (act (.logEvent role action payload)) h :=
  guarantee_act (reviewed_of_not_merge rfl)

theorem meets_reviews {prs : List PullInfo} (hl : ∀ pr ∈ prs, Listed pr h) :
    Meets A (Reviewed isWord) (fun _ _ => True)
      (Program.each (fun pr => catchingAll (CeoAgent.reviewPr isWord pr) fun e =>
        act (.logEvent "ceo" "review-fail" [("pr", .int pr.number), ("error", .str e.text)])) prs) h := by
  have hbody : ∀ pr ∈ prs, ∀ h : History Op Reply Raised τ, (∀ pr ∈ prs, Listed pr h) →
      Meets A (Reviewed isWord) (fun _ _ => True) (catchingAll (CeoAgent.reviewPr isWord pr) fun e =>
        act (.logEvent "ceo" "review-fail" [("pr", .int pr.number), ("error", .str e.text)])) h := by
    intro pr hp h hl
    refine guarantee_catchingAll ?_ fun _ _ => meets_logEvent
    refine ((meets_reviewPr.grows List.suffix_rfl).weaken ?_).mono fun _ _ _ => trivial
    exact fun h' o hj _ => ⟨pr, (hl pr hp).mono hj.1, hj.2⟩
  refine (meets_each (I := fun h => ∀ pr ∈ prs, Listed pr h) (E := fun _ _ => True) ?_ hl).mono
    fun _ _ _ => trivial
  intro pr hp h hl
  refine ((hbody pr hp h hl).grows List.suffix_rfl |>.weaken fun _ _ => And.right).mono fun h' r hr => ?_
  cases r with
  | ok _ => exact fun pr hp => (hl pr hp).mono hr.1
  | error _ => trivial

theorem meets_ceoHeartbeat : Meets A (Reviewed isWord) (fun _ _ => True) (CeoAgent.heartbeat isWord) h := by
  refine meets_bind.mpr (meets_act.mpr ⟨reviewed_of_not_merge rfl, fun x t _ => ?_⟩)
  cases x with
  | error e => trivial
  | ok paused =>
    refine meets_ite.mpr ⟨fun _ => meets_logEvent, fun _ => ?_⟩
    refine meets_bind.mpr (meets_catchingGitHub.mpr (meets_bind.mpr
      (meets_act.mpr ⟨reviewed_of_not_merge rfl, fun x t _ => ?_⟩)))
    cases x with
    | error e =>
      cases e with
      | gitHubApp text =>
        refine meets_bind.mpr (meets_logEvent.mono fun h r _ => ?_)
        cases r <;> trivial
      | _ => trivial
    | ok prs => exact meets_reviews fun pr hp => ⟨prs, t, List.mem_cons_self, hp⟩

end

end AdmissionScheduler.Orchestrator
