import AdmissionScheduler.Duties

/-!
# Every pull request gets an answer

A review that fails does not keep the CEO from the pull requests after it. A
heartbeat that comes to its end has asked for the files of every one it listed,
and has closed, merged or marked it, or logged why it could not.
-/

namespace AdmissionScheduler.Orchestrator

open Program Crew CeoAgent

section
variable {τ : Type}

inductive Decision (pr : PullInfo) : Op → Prop
  | close : Decision pr (.closePr pr.number)
  | merge (title body : String) : Decision pr (.mergePr pr.number title body)
  | askReview : Decision pr (.addLabels pr.number [needsReviewLabel])
  | fail (e : String) : Decision pr (.logEvent "ceo" "review-fail" [("pr", .int pr.number), ("error", .str e)])

def Decided (pr : PullInfo) (h : History Op Reply Raised τ) : Prop :=
  ∃ o x t, (⟨o, .ok x, t⟩ : Program.Entry Op Reply Raised τ) ∈ h ∧ Decision pr o

def FilesAsked (pr : PullInfo) (h : History Op Reply Raised τ) : Prop :=
  ∃ x t, (⟨.getPrFiles pr.number, x, t⟩ : Program.Entry Op Reply Raised τ) ∈ h

/-- A pull request that already waits for a human may be left as it is. -/
def Answered (pr : PullInfo) (h : History Op Reply Raised τ) : Prop :=
  pr.draft = false → isAgentPr pr = true → FilesAsked pr h ∧ (needsReviewLabel ∈ pr.labels ∨ Decided pr h)

variable {A : History Op Reply Raised τ → Program.Entry Op Reply Raised τ → Prop} {h : History Op Reply Raised τ}
  {pr : PullInfo} {isWord : Char → Bool}

theorem Decided.mono (h h' : History Op Reply Raised τ) (hs : h <:+ h') : Decided pr h → Decided pr h' := by
  rintro ⟨o, x, t, hm, hd⟩
  exact ⟨o, x, t, hs.subset hm, hd⟩

theorem FilesAsked.mono (h h' : History Op Reply Raised τ) (hs : h <:+ h') : FilesAsked pr h → FilesAsked pr h' := by
  rintro ⟨x, t, hm⟩
  exact ⟨x, t, hs.subset hm⟩

theorem Answered.mono (pr : PullInfo) (h h' : History Op Reply Raised τ) (hs : h <:+ h') (ha : Answered pr h) :
    Answered pr h' := fun hd hp => by
  obtain ⟨hf, ha⟩ := ha hd hp
  exact ⟨hf.mono _ _ hs, ha.imp_right (Decided.mono _ _ hs)⟩

abbrev Anything : History Op Reply Raised τ → Op → Prop := fun _ _ => True

theorem anything {α : Type} {p : Agent α} : Meets A Anything (fun _ _ => True) p h := by
  induction p generalizing h with
  | done r => trivial
  | call o next ih => exact ⟨trivial, fun x t _ => ih x⟩

theorem ensures_decided {α : Type} {p : Agent α} (hd : Decided pr h) :
    Ensures A Anything (fun _ => Decided pr) p h := anything.ensures Decided.mono hd

theorem ensures_decision {o : Op} (hd : Decision pr o) : Ensures A Anything (fun _ => Decided pr) (act o) h :=
  ensures_perform trivial fun x t _ => ⟨o, x, t, .head _, hd⟩

theorem ensures_any {α : Type} {p : Agent α} : Ensures A Anything (fun _ _ => True) p h :=
  anything.mono fun _ _ _ _ _ => trivial

theorem answers_rejectPr {reason : String} : Ensures A Anything (fun _ => Decided pr) (rejectPr pr reason) h :=
  ensures_bind ensures_any fun _ _ _ => ensures_bind (ensures_decision .close) fun _ _ hd => ensures_decided hd

theorem answers_requestReview (hl : needsReviewLabel ∉ pr.labels) {reason : String} :
    Ensures A Anything (fun _ => Decided pr) (requestReview pr reason) h := by
  rw [requestReview, if_neg hl]
  exact ensures_bind (ensures_decision .askReview) fun _ _ hd => ensures_decided hd

theorem answers_reportBlocked (hl : needsReviewLabel ∉ pr.labels) {e : String} :
    Ensures A Anything (fun _ => Decided pr) (reportBlocked pr e) h := by
  rw [reportBlocked, if_neg hl]
  exact ensures_bind (ensures_decision .askReview) fun _ _ hd => ensures_decided hd

/-- A merge that is refused because of the branch protection asks for a human; any other failure is raised. -/
theorem answers_tryMerge (hl : needsReviewLabel ∉ pr.labels) :
    Ensures A Anything (fun _ => Decided pr) (tryMerge pr) h := by
  refine ensures_catching ?_ fun e h => ?_
  · cases pr.body with
    | none => exact ensures_raise
    | some body => exact ensures_bind (ensures_decision (.merge ..)) fun _ _ hd => ensures_ok hd
  · cases e with
    | gitHubApp text =>
      refine ensures_ite (fun _ => ?_) fun _ => ensures_raise
      exact ensures_bind (answers_reportBlocked hl) fun _ _ hd => ensures_decided hd
    | _ => exact ensures_raise

theorem answers_acceptPr (hl : needsReviewLabel ∉ pr.labels) :
    Ensures A Anything (fun _ => Decided pr) (acceptPr pr) h :=
  ensures_bind ensures_any fun _ _ _ => ensures_bind (answers_tryMerge hl) fun _ _ hd => ensures_decided hd

theorem answers_reviewPr (hd : pr.draft = false) (hp : isAgentPr pr = true) :
    Meets A Anything (fun h r => FilesAsked pr h ∧ ∀ a, r = .ok a → needsReviewLabel ∈ pr.labels ∨ Decided pr h)
      (reviewPr isWord pr) h := by
  rw [reviewPr, if_neg (by simp [hd]), if_neg (by simp [hp])]
  refine meets_bind.mpr (meets_act.mpr ⟨trivial, fun x t _ => ?_⟩)
  have hasked : FilesAsked pr (⟨.getPrFiles pr.number, x, t⟩ :: h) := ⟨x, t, .head _⟩
  cases x with
  | error e => exact ⟨hasked, fun _ heq => by cases heq⟩
  | ok files =>
    by_cases hl : needsReviewLabel ∈ pr.labels
    · refine ((anything.grows List.suffix_rfl).weaken fun _ _ => And.right).mono fun h' r hr => ?_
      exact ⟨hasked.mono _ _ hr.1, fun _ _ => .inl hl⟩
    · have hrest : Ensures A Anything (fun _ => Decided pr) (do
          let status ← getPrStatus pr.number
          let rej := checkCharter4 isWord files
          if !rej.ok then rejectPr pr rej.reason
          else
            let ok := checkCharter3 pr files status
            if ok.ok then acceptPr pr else requestReview pr ok.reason) (⟨.getPrFiles pr.number, .ok files, t⟩ :: h) := by
        refine ensures_bind ensures_any fun status _ _ => ensures_ite (fun _ => answers_rejectPr) fun _ => ?_
        exact ensures_ite (fun _ => answers_acceptPr hl) fun _ => answers_requestReview hl
      refine ((hrest.grows List.suffix_rfl).weaken fun _ _ => And.right).mono fun h' r hr => ?_
      exact ⟨hasked.mono _ _ hr.1, fun a heq => .inr (hr.2 a heq)⟩

theorem answers_one : Ensures A Anything (fun _ => Answered pr) (catchingAll (reviewPr isWord pr) fun e =>
    act (.logEvent "ceo" "review-fail" [("pr", .int pr.number), ("error", .str e.text)])) h := by
  by_cases hd : pr.draft = false ∧ isAgentPr pr = true
  · refine meets_catchingAll.mpr ((answers_reviewPr hd.1 hd.2).mono fun h r hr => ?_)
    cases r with
    | ok a => exact fun _ _ _ _ => ⟨hr.1, hr.2 a rfl⟩
    | error e =>
      change if _ then _ else _
      split
      · exact fun _ heq => by cases heq
      · refine ensures_perform trivial fun x t _ _ _ => ⟨hr.1.mono _ _ (List.suffix_cons ..), .inr ?_⟩
        exact ⟨_, x, t, .head _, .fail _⟩
  · exact ensures_any.mono fun _ _ _ h₁ h₂ => absurd ⟨h₁, h₂⟩ hd

def AllAnswered (h : History Op Reply Raised τ) : Prop :=
  (∃ t, (⟨.logEvent "ceo" "paused" [("reason", .str "KOLA_CEO_PAUSED=1")], .ok (), t⟩ :
    Program.Entry Op Reply Raised τ) ∈ h) ∨
  (∃ e t, (⟨.logEvent "ceo" "heartbeat-fail" [("error", .str e)], .ok (), t⟩ :
    Program.Entry Op Reply Raised τ) ∈ h) ∨
  ∃ prs t, (⟨.listOpenPrs, .ok prs, t⟩ : Program.Entry Op Reply Raised τ) ∈ h ∧ ∀ pr ∈ prs, Answered pr h

def ListedOrFailed (res : Option (List PullInfo)) (h : History Op Reply Raised τ) : Prop :=
  match res with
  | none => ∃ e t, (⟨.logEvent "ceo" "heartbeat-fail" [("error", .str e)], .ok (), t⟩ :
      Program.Entry Op Reply Raised τ) ∈ h
  | some prs => ∃ t, (⟨.listOpenPrs, .ok prs, t⟩ : Program.Entry Op Reply Raised τ) ∈ h

theorem answers_heartbeat : Ensures A Anything (fun _ => AllAnswered) (CeoAgent.heartbeat isWord) h := by
  refine ensures_bind ensures_any fun paused h _ => ensures_ite (fun _ => ?_) fun _ => ?_
  · exact ensures_perform trivial fun _ t _ => .inl ⟨t, .head _⟩
  refine ensures_bind (J := ListedOrFailed) (ensures_catching ?_ fun e h => ?_) fun res h hres => ?_
  · exact ensures_bind (J := fun prs => ListedOrFailed (some prs)) (ensures_perform trivial fun prs t _ => ⟨t, .head _⟩)
      fun prs h hl => ensures_ok hl
  · cases e with
    | gitHubApp text =>
      exact ensures_bind (J := fun _ => ListedOrFailed none)
        (ensures_perform trivial fun _ t _ => ⟨text, t, .head _⟩) fun _ h hf => ensures_ok hf
    | _ => exact ensures_raise
  · cases res with
    | none => exact ensures_ok (.inr (.inl hres))
    | some prs =>
      obtain ⟨t, hm⟩ := hres
      have hall : Ensures A Anything (fun _ h => ∀ pr ∈ prs, Answered pr h) (Program.each (fun pr =>
          catchingAll (reviewPr isWord pr) fun e =>
            act (.logEvent "ceo" "review-fail" [("pr", .int pr.number), ("error", .str e.text)])) prs) h :=
        ensures_each Answered.mono fun pr h => answers_one
      refine ((hall.grows List.suffix_rfl).weaken fun _ _ => And.right).mono fun h' r hr a heq => ?_
      exact .inr (.inr ⟨prs, t, hr.1.subset hm, hr.2 a heq⟩)

end

section
variable {ι : Type} [DecidableEq ι]

/-- **No pull request is passed over.** In every run of the team, a heartbeat of the CEO that ends without an
exception was paused, could not list the pull requests and logged it, or has dealt with every one it listed: of each
that an agent opened and that is no draft it has asked for the files, and it has closed it, merged it, asked for a
human or logged why its review failed, unless it already waited for a human. -/
theorem pulls_answered (isWord : Char → Bool) (root : Path) (bot : String) (s : TeamState ι)
    (hs : (teamMachine isWord root bot).Reach Machine.Any s) (i : ι) (h : History Op Reply Raised (Log ι))
    (hi : s.party i = some ⟨.ceo, .done (.ok ()), h⟩) : AllAnswered h := by
  refine Crew.results (C := team isWord root bot) (Q := fun j h r => j = .ceo → r = .ok () → AllAnswered h)
    (fun j => ?_) hs hi rfl rfl
  cases j with
  | ceo => exact Meets.mono answers_heartbeat fun h r hr _ heq => hr () heq
  | triage | backend => exact anything.mono fun _ _ _ => nofun

end

def unreadFiles : List (TeamAct Unit) :=
  featureBranch ++ List.replicate 2 (.answer () listingFeature) ++
    [.answer () (.refused (.gitHubApp "502")), .answer () listingFeature]

theorem pulls_answered_run : ∃ (s : TeamState Unit) (h : _), s.party () = some ⟨.ceo, .done (.ok ()), h⟩ ∧
    h.length = 4 ∧ AllAnswered h := by
  obtain ⟨s, hs, ⟨j, r, h⟩, he, hj, hr, hlen⟩ := Machine.reach_of_exec
    (teamMachine (fun _ => true) [] "kola-team-bot") Machine.Any unreadFiles
    (fun s => ∃ x ∈ s.ended (), x.1 = .ceo ∧ x.2.1 = .ok () ∧ x.2.2.length = 4) (by decide +kernel)
  have hp := State.party_of_ended he
  cases hj
  cases hr
  exact ⟨s, h, hp, hlen, pulls_answered (fun _ => true) [] "kola-team-bot" s hs () h hp⟩

end AdmissionScheduler.Orchestrator
