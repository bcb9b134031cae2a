import AdmissionScheduler.BackendSound

/-!
# Giving an issue back

A run that claimed its issue either takes `in-progress-by-backend` off again or
leaves it on for good, and which of the two is decided by the first operation
that raises where nothing is ready for it: before the comments are fetched
anything but a `WorktreeError`, or the comment on a failed set-up; after that a
cancellation, or the comment on a crash.
-/

namespace AdmissionScheduler.Orchestrator

open Program Worktree PyText

def raised {τ : Type} (e : Program.Entry Op Reply Raised τ) : Option Raised :=
  match e.reply with
  | .ok _ => none
  | .error r => some r

section
variable (n : Nat)

def claims : Op → Bool
  | .addLabels m labels => m = n ∧ inProgressLabel ∈ labels
  | _ => false

def releases : Op → Bool
  | .removeLabel m label => m = n ∧ label = inProgressLabel
  | _ => false

def carried {τ : Type} : History Op Reply Raised τ → Bool
  | [] => false
  | e :: h =>
    if raised e = none ∧ claims n e.op then true
    else if raised e = none ∧ releases n e.op then false
    else carried h

def blockOpening : String := "🛑 Backend Agent — bloqué :\n\n> "

/-- How the comment on a crash begins. -/
def crashOpening : List Char := blockOpening.toList ++ "crash : ".toList

def isCrashComment : Op → Bool
  | .commentIssue _ body => crashOpening.isPrefixOf body.toList
  | _ => false

def isComment : Op → Bool
  | .commentIssue .. => true
  | _ => false

def isFetch : Op → Bool
  | .listIssueComments _ => true
  | _ => false

inductive Standing where
  | unclaimed
  | settingUp
  | working
  | released
  /-- something raised where nothing was ready for it -/
  | lost
  deriving DecidableEq

instance : DecidablePred NotWorktree := fun r => match r with
  | .worktree _ => isFalse id
  | .gitHubApp _ | .budgetExceeded _ | .budgetUnavailable _ | .llmTimeout _ | .llm _ | .other _ | .base _ => isTrue trivial

def heed {τ : Type} (s : Standing) (e : Program.Entry Op Reply Raised τ) : Standing :=
  match s, raised e with
  | .unclaimed, none => if claims n e.op then .settingUp else .unclaimed
  | .settingUp, none => if releases n e.op then .released else if isFetch e.op then .working else .settingUp
  | .settingUp, some r =>
    if isFetch e.op then if r.isBase then .lost else .working
    else if isComment e.op ∨ NotWorktree r then .lost else .settingUp
  | .working, none => if releases n e.op then .released else .working
  | .working, some r => if r.isBase ∨ isCrashComment e.op then .lost else .working
  | s, _ => s

def standing {τ : Type} : History Op Reply Raised τ → Standing
  | [] => .unclaimed
  | e :: h => heed n (standing h) e

/-- The label is on from the claim to the release. -/
def At {τ : Type} (s : Standing) (h : History Op Reply Raised τ) : Prop :=
  standing n h = s ∧ carried n h = (s != .released)

end

section
variable {n : Nat} {τ : Type} {h : History Op Reply Raised τ} {e : Program.Entry Op Reply Raised τ}

theorem claims_of_idle {o : Op} (ho : isIdle o = true) : claims n o = false := by
  cases o with
  | addLabels m labels => simpa [claims, isIdle] using fun _ => of_decide_eq_true ho
  | _ => rfl

theorem releases_of_idle {o : Op} (ho : isIdle o = true) : releases n o = false := by
  cases o <;> first | rfl | cases ho

theorem carried_cons (hc : claims n e.op = false) (hr : raised e = none → releases n e.op = false) :
    carried n (e :: h) = carried n h := by
  simp only [carried, hc, Bool.false_eq_true, and_false, if_false]
  exact if_neg fun hh => by rw [hr hh.1] at hh; exact Bool.false_ne_true hh.2

/-- A step that leaves the label alone. -/
theorem At.step {s t : Standing} (hh : At n s h) (hc : claims n e.op = false)
    (hr : raised e = none → releases n e.op = false) (ht : heed n s e = t) (hst : (s != .released) = (t != .released)) :
    At n t (e :: h) :=
  ⟨by rw [standing, hh.1, ht], by rw [carried_cons hc hr, hh.2, hst]⟩

theorem raised_of_calm {B : Raised → Prop} {r : Raised} (hb : Calm B e.reply) (hr : raised e = some r) : ¬B r := by
  unfold raised at hr
  cases hx : e.reply with
  | ok _ => rw [hx] at hr; cases hr
  | error r' => rw [hx] at hr hb; cases hr; exact hb

theorem At.settingUp_idle (hh : At n .settingUp h) (ho : isIdle e.op = true) (hb : Calm NotWorktree e.reply) :
    At n .settingUp (e :: h) := by
  have hf : isFetch e.op = false := by cases hop : e.op <;> first | rfl | (rw [hop] at ho; cases ho)
  have hm : isComment e.op = false := by cases hop : e.op <;> first | rfl | (rw [hop] at ho; cases ho)
  refine hh.step (claims_of_idle ho) (fun _ => releases_of_idle ho) ?_ rfl
  cases hr : raised e with
  | none => simp [heed, hr, releases_of_idle ho, hf]
  | some r => simp [heed, hr, hf, hm, raised_of_calm hb hr]

theorem At.settingUp_lost {o : Op} {r : Raised} {t : τ} (hh : At n .settingUp h) (ho : isIdle o = true)
    (hb : NotWorktree r) : At n .lost (⟨o, .error r, t⟩ :: h) := by
  have hf : isFetch o = false := by cases o <;> first | rfl | cases ho
  exact hh.step (claims_of_idle ho) (fun _ => releases_of_idle ho) (by simp [heed, raised, hf, hb]) rfl

theorem At.working_idle (hh : At n .working h) (ho : isIdle e.op = true) (hb : Calm IsBase e.reply) :
    At n .working (e :: h) := by
  have hm : isCrashComment e.op = false := by cases hop : e.op <;> first | rfl | (rw [hop] at ho; cases ho)
  refine hh.step (claims_of_idle ho) (fun _ => releases_of_idle ho) ?_ rfl
  cases hr : raised e with
  | none => simp [heed, hr, releases_of_idle ho]
  | some r =>
    have hbase : r.isBase = false := Bool.eq_false_iff.mpr (raised_of_calm hb hr)
    simp [heed, hr, hm, hbase]

theorem At.working_lost {o : Op} {r : Raised} {t : τ} (hh : At n .working h) (ho : claims n o = false)
    (hb : IsBase r) : At n .lost (⟨o, .error r, t⟩ :: h) :=
  hh.step ho (fun hn => by cases hn) (by simp [heed, raised, show r.isBase = true from hb]) rfl

theorem At.released (hh : At n .released h) (ho : claims n e.op = false) : At n .released (e :: h) := by
  refine ⟨by simp [standing, hh.1, heed], ?_⟩
  simp [carried, ho, hh.2]

theorem At.lost (hh : At n .lost h) (ho : isIdle e.op = true) : At n .lost (e :: h) :=
  hh.step (claims_of_idle ho) (fun _ => releases_of_idle ho) (by simp [heed]) rfl

theorem At.release {s : Standing} {x : Unit} {t : τ} (hh : At n s h) (hs : s = .settingUp ∨ s = .working) :
    At n .released (⟨.removeLabel n inProgressLabel, .ok x, t⟩ :: h) := by
  refine ⟨?_, by simp [carried, raised, claims, releases]⟩
  rcases hs with rfl | rfl <;> simp [standing, hh.1, heed, raised, releases]

end

/-! ## The agent, step by step -/

def Removing {τ : Type} (_ : History Op Reply Raised τ) (e : Program.Entry Op Reply Raised τ) : Prop :=
  (∃ m label, e.op = .removeLabel m label) → raised e = none

/-- The end of the `try`: released, or on the way to the handler, or past it. -/
def Ended {τ : Type} (n : Nat) (h : History Op Reply Raised τ) (r : Except Raised Unit) : Prop :=
  At n .released h ∨ (At n .working h ∧ ∃ e, r = .error e ∧ ¬IsBase e) ∨ (At n .lost h ∧ ∃ e, r = .error e ∧ IsBase e)

section
open BackendAgent

abbrev Ends {τ : Type} (n : Nat) (p : Agent Unit) (h : History Op Reply Raised τ) : Prop :=
  Meets Removing (fun _ _ => True) (Ended n) p h

variable {n : Nat} {τ α : Type} {h : History Op Reply Raised τ}

theorem released_rest {p : Agent α} (hp : Tame (claims n · = false) IsBase p) (hh : At n .released h) :
    Meets Removing (fun _ _ => True) (fun h _ => At n .released h) p h :=
  (hp.meets (fun _ _ _ => trivial) (L := At n .released) (fun _ _ hh ho _ => hh.released ho)
    (fun _ _ _ _ hh ho _ => hh.released ho) hh).mono fun _ _ hr => hr.elim And.left And.left

theorem working_idle {p : Agent α} (hp : Tame (isIdle · = true) IsBase p) (hh : At n .working h) :
    Meets Removing (fun _ _ => True)
      (fun h r => (At n .working h ∧ Calm IsBase r) ∨ (At n .lost h ∧ ¬Calm IsBase r)) p h :=
  hp.meets (fun _ _ _ => trivial) (fun _ _ hh ho hb => hh.working_idle ho hb)
    (fun _ _ _ _ hh ho hb => hh.working_lost (claims_of_idle ho) hb) hh

theorem working_bind {R : α → Prop} {p : Agent α} {f : α → Agent Unit} (hp : Tame (isIdle · = true) IsBase p)
    (hr : Gives R p) (hf : ∀ a (h : History Op Reply Raised τ), R a → At n .working h → Ends n (f a) h) (hh : At n .working h) :
    Ends n (p >>= f) h := by
  refine meets_bind.mpr ((hr.meets (working_idle hp hh)).mono fun h r hr => ?_)
  obtain ⟨hr, hres⟩ := hr
  rcases r with e | a
  · rcases hr with ⟨hh, hc⟩ | ⟨hh, hc⟩
    · exact .inr (.inl ⟨hh, e, rfl, hc⟩)
    · exact .inr (.inr ⟨hh, e, rfl, not_not.mp hc⟩)
  · rcases hr with ⟨hh, -⟩ | ⟨-, hc⟩
    · exact hf a h (hres a rfl) hh
    · exact absurd trivial hc

theorem gives_any {p : Agent α} : Gives (fun _ => True) p := by
  induction p with
  | done r => exact fun _ _ => trivial
  | call o next ih => exact ih

theorem working_ofExcept {r : Except Raised α} {f : α → Agent Unit} (hr : Ordinary r)
    (hf : ∀ a, r = .ok a → Ends n (f a) h) (hh : At n .working h) : Ends n (Program.ofExcept r >>= f) h := by
  cases r with
  | ok a => exact hf a rfl
  | error e => exact .inr (.inl ⟨hh, e, rfl, hr e rfl⟩)

/-- What `_block` does after its comment. -/
theorem release_rest {s : Standing} {reason : String} (hh : At n s h) (hs : s = .settingUp ∨ s = .working) :
    Meets Removing (fun _ _ => True) (fun h _ => At n .released h) (do
      catchingGitHub (act (.removeLabel n inProgressLabel)) fun _ => pure ()
      catchingGitHub (act (.addLabels n [blockedLabel])) fun _ => pure ()
      act (.logEvent "backend" "blocked" [("issue", .int n), ("reason", .str reason)])) h := by
  have hrest : Tame (claims n · = false) IsBase (do
      catchingGitHub (act (.addLabels n [blockedLabel])) fun _ => pure ()
      act (.logEvent "backend" "blocked" [("issue", .int n), ("reason", .str reason)])) :=
    .bind (tame_catchingGitHub (tame_act (by simp [claims, inProgressLabel, blockedLabel])) fun _ => trivial)
      fun _ => tame_act rfl
  refine meets_bind.mpr (meets_catchingGitHub.mpr ((meets_act (o := .removeLabel _ _)).mpr ⟨trivial, fun x t ha => ?_⟩))
  rcases x with e | x
  · cases ha ⟨n, inProgressLabel, rfl⟩
  · exact released_rest hrest (hh.release hs)

theorem working_comment {body : String} {f : Unit → Agent Unit} (hb : crashOpening.isPrefixOf body.toList = false)
    (hf : ∀ a (h : History Op Reply Raised τ), At n .working h → Ends n (f a) h) (hh : At n .working h) :
    Ends n (act (.commentIssue n body) >>= f) h := by
  refine meets_bind.mpr ((meets_act (o := .commentIssue _ _)).mpr ⟨trivial, fun x t _ => ?_⟩)
  rcases x with e | x
  · by_cases he : IsBase e
    · exact .inr (.inr ⟨hh.working_lost rfl he, e, rfl, he⟩)
    · refine .inr (.inl ⟨hh.step rfl (fun hn => by cases hn) ?_ rfl, e, rfl, he⟩)
      simp [heed, raised, isCrashComment, hb, show ¬e.isBase = true from he]
  · exact hf x _ (hh.step rfl (fun _ => rfl) (by simp [heed, raised, releases]) rfl)

/-! Only one reason begins as that of a crash does. -/

theorem blockComment_toList (reason : String) : ∃ rest, (blockComment reason).toList =
    blockOpening.toList ++ (reason.toList ++ rest) := by
  have happ : ∀ a b c d e : String, ∃ rest, (a ++ b ++ c ++ d ++ e).toList = a.toList ++ (b.toList ++ rest) :=
    fun a b c d e => ⟨c.toList ++ (d.toList ++ e.toList), by simp only [String.toList_append, List.append_assoc]⟩
  exact happ blockOpening reason "\n\nLabel `" blockedLabel "` posé. Intervention humaine requise."

/-- A reason that does not begin with `cr`. -/
def Uncrashed (reason : String) : Prop := ∀ rest, (reason.toList ++ rest).take 2 ≠ ['c', 'r']

theorem Uncrashed.opening {reason : String} (h : Uncrashed reason) :
    crashOpening.isPrefixOf (blockComment reason).toList = false := by
  obtain ⟨rest, hr⟩ := blockComment_toList reason
  refine Bool.eq_false_iff.mpr fun hp => h rest ?_
  rw [List.isPrefixOf_iff_prefix, hr, crashOpening, List.prefix_append_right_inj] at hp
  obtain ⟨t, ht⟩ := hp
  rw [← ht]
  rfl

theorem crashed_opening (e : String) : crashOpening.isPrefixOf (blockComment ("crash : " ++ e)).toList = true := by
  obtain ⟨rest, hr⟩ := blockComment_toList ("crash : " ++ e)
  rw [List.isPrefixOf_iff_prefix, hr, crashOpening, List.prefix_append_right_inj, String.toList_append,
    List.append_assoc]
  exact List.prefix_append ..

theorem working_block {reason : String} (hr : Uncrashed reason) (hh : At n .working h) : Ends n (block n reason) h :=
  working_comment hr.opening (fun _ _ hh => (release_rest hh (.inr rfl)).mono fun _ _ hr => .inl hr) hh

theorem uncrashed_append {a : String} (b : String) (h : a.toList.take 2 ≠ ['c', 'r']) (hl : 2 ≤ a.toList.length) :
    Uncrashed (a ++ b) := by
  intro rest
  rwa [String.toList_append, List.append_assoc, List.take_append_of_le_length hl]

theorem uncrashed_commitAndPush {wt : Worktree} {changes : GeneratedChanges} {number : Nat} :
    Gives (fun r => ∀ msg, r = some msg → Uncrashed msg) (commitAndPush wt changes number) := by
  have hsome : ∀ a b : String, a.toList.take 2 ≠ ['c', 'r'] → 2 ≤ a.toList.length →
      Gives (fun r => ∀ msg, r = some msg → Uncrashed msg) (pure (some (a ++ b)) : Agent (Option String)) := by
    rintro a b h hl _ ⟨⟩ _ ⟨⟩
    exact uncrashed_append b h hl
  refine gives_bind fun _ => gives_ite (hsome "git add: " _ (by decide) (by decide)) ?_
  refine gives_bind fun _ => gives_ite (hsome "ri" "en à committer (LLM a produit du contenu identique)" (by decide)
    (by decide)) ?_
  refine gives_bind fun _ => gives_ite (hsome "git commit (pre-commit hook?): " _ (by decide) (by decide)) ?_
  exact gives_bind fun _ => gives_ite (hsome "git push: " _ (by decide) (by decide)) fun _ h _ he => by cases h; cases he

theorem ends_publish {wt : Worktree} {issue : IssueInfo} {changes : GeneratedChanges} {test : TestResult}
    (hh : At issue.number .working h) : Ends issue.number (publish wt issue changes test) h := by
  have idle {α : Type} {p : Agent α} (hp : Tame (isQuiet · = true) IsBase p) : Tame (isIdle · = true) IsBase p :=
    hp.mono fun _ ho => (Bool.and_eq_true_iff.mp ho).1
  refine working_bind (idle quiet_openPr) gives_any (fun pr h _ hh => ?_) hh
  refine working_bind (idle quiet_commentPrWithTests) gives_any (fun _ h _ hh => ?_) hh
  refine working_comment ?_ (fun _ h hh => ?_) hh
  · have hp : ∀ b c : String, crashOpening.isPrefixOf ("🤖" ++ b ++ c).toList = false := by
      intro b c
      rw [String.toList_append, String.toList_append]
      rfl
    exact hp (" Backend Agent — travaillé dans PR #" ++ toString pr) "."
  · refine meets_bind.mpr ((meets_act (o := .removeLabel _ _)).mpr ⟨trivial, fun x t ha => ?_⟩)
    rcases x with e | x
    · cases ha ⟨issue.number, inProgressLabel, rfl⟩
    · refine (released_rest ?_ (hh.release (.inr rfl))).mono fun _ _ hr => .inl hr
      exact .bind (tame_act (by simp [claims, inProgressLabel, doneLabel])) fun _ => tame_act rfl

theorem ends_fetch {f : Unit → Agent Unit} (hf : ∀ (h : History Op Reply Raised τ), At n .working h → Ends n (f ()) h)
    (hh : At n .settingUp h) : Ends n (fetchIssueComments n >>= f) h := by
  refine meets_bind.mpr (meets_catchingGitHub.mpr ((meets_act (o := .listIssueComments _)).mpr ⟨trivial, fun x t _ => ?_⟩))
  rcases x with e | x
  · by_cases he : IsBase e
    · have hb : e.isBase = true := he
      have hl : At n .lost (⟨.listIssueComments n, .error e, t⟩ :: h) :=
        hh.step rfl (fun _ => rfl) (by simp [heed, raised, isFetch, hb]) rfl
      cases e with
      | base text => exact .inr (.inr ⟨hl, _, rfl, he⟩)
      | _ => cases hb
    · have hb : ¬e.isBase = true := he
      have hw : At n .working (⟨.listIssueComments n, .error e, t⟩ :: h) :=
        hh.step rfl (fun _ => rfl) (by simp [heed, raised, isFetch, hb]) rfl
      cases e with
      | gitHubApp text => exact hf _ hw
      | base text => exact absurd rfl hb
      | _ => exact .inr (.inl ⟨hw, _, rfl, he⟩)
  · exact hf _ (hh.step rfl (fun _ => rfl) (by simp [heed, raised, releases, isFetch]) rfl)

theorem ends_implement {wt : Worktree} {issue : IssueInfo} (hh : At issue.number .settingUp h) :
    Ends issue.number (implement wt issue) h := by
  have idle {α : Type} {p : Agent α} (hp : Tame (isQuiet · = true) IsBase p) : Tame (isIdle · = true) IsBase p :=
    hp.mono fun _ ho => (Bool.and_eq_true_iff.mp ho).1
  refine ends_fetch (fun h hh => ?_) hh
  refine working_bind (idle quiet_generateChanges) gives_any (fun changes h _ hh => ?_) hh
  rcases changes with _ | changes
  · exact working_block (uncrashed_append (a := "LLM n'a pas produit de changements exploitables") "" (by decide)
      (by decide)) hh
  refine working_ofExcept (ordinary_validatePaths changes) (fun forbidden hv => ?_) hh
  by_cases hf : forbidden = []
  · subst hf
    have hallowed {α : Type} {p : Agent α} (hp : Tame (Allowed wt) IsBase p) : Tame (isIdle · = true) IsBase p :=
      hp.mono fun _ => idle_of_allowed
    refine working_bind (hallowed (allowed_writeFiles hv)) gives_any (fun _ h _ hh => ?_) hh
    refine working_bind (hallowed allowed_runTestsWithRetries) gives_any (fun test h _ hh => ?_) hh
    refine working_bind (idle quiet_commitAndPush) uncrashed_commitAndPush (fun msg h hm hh => ?_) hh
    cases msg with
    | none => exact ends_publish hh
    | some msg => exact working_block (hm msg rfl) hh
  · refine meets_ite.mpr ⟨fun _ => ?_, fun hn => absurd hf hn⟩
    exact working_block (uncrashed_append _ (by decide) (by decide)) hh

/-- The issue was given back, or is lost. -/
def Settled (n : Nat) (h : History Op Reply Raised τ) : Prop := At n .released h ∨ At n .lost h

theorem crash_block {e : String} (hh : At n .working h ∨ At n .released h) :
    Meets Removing (fun _ _ => True) (fun h _ => Settled n h) (block n ("crash : " ++ e)) h := by
  rcases hh with hh | hh
  · refine meets_bind.mpr ((meets_act (o := .commentIssue _ _)).mpr ⟨trivial, fun x t _ => ?_⟩)
    rcases x with r | x
    · refine .inr (hh.step rfl (fun hn => by cases hn) ?_ rfl)
      simp [heed, raised, isCrashComment, crashed_opening]
    · have hw : At n .working (⟨.commentIssue n (blockComment ("crash : " ++ e)), .ok x, t⟩ :: h) :=
        hh.step rfl (fun _ => rfl) (by simp [heed, raised, releases]) rfl
      exact (release_rest hw (.inr rfl)).mono fun _ _ hr => .inl hr
  · refine (released_rest ?_ hh).mono fun _ _ hr => .inl hr
    exact .bind (tame_act rfl) fun _ => .bind (tame_catchingGitHub (tame_act rfl) fun _ => trivial) fun _ =>
      .bind (tame_catchingGitHub (tame_act (by simp [claims, inProgressLabel, blockedLabel])) fun _ => trivial)
        fun _ => tame_act rfl

/-- Cleaning up changes nothing any more. -/
theorem settled_cleanUp {root : Path} {wt : Worktree} (hh : Settled n h) :
    Meets Removing (fun _ _ => True) (fun h _ => Settled n h) (cleanUp root wt) h := by
  have hstep : ∀ (h : History Op Reply Raised τ) e, Settled n h → isQuiet e.op = true → Settled n (e :: h) :=
    fun h e hh ho => hh.imp (·.released (claims_of_idle (Bool.and_eq_true_iff.mp ho).1))
      (·.lost (Bool.and_eq_true_iff.mp ho).1)
  have hclean : Tame (isQuiet · = true) IsBase (cleanUp root wt) := quiet_cleanUp
  exact (hclean.meets (fun _ _ _ => trivial) (L := Settled n)
    (fun h e hh ho _ => hstep h e hh ho) (fun h _ _ _ hh ho _ => hstep h _ hh ho) hh).mono
      fun _ _ hr => hr.elim And.left And.left

/-- After a failed set-up the comment is the only thing between the claim and the release. -/
theorem settled_failedSetUp {e : Raised} (hh : (At n .settingUp h ∧ ¬NotWorktree e) ∨ (At n .lost h ∧ NotWorktree e)) :
    Meets Removing (fun _ _ => True) (fun h r => Settled n h ∧ ∀ wt : Worktree, r ≠ .ok (some wt))
      (blockSetUp n e) h := by
  cases e with
  | worktree e =>
    have hs : At n .settingUp h := hh.elim And.left fun h => absurd h.2 id
    refine meets_bind.mpr (meets_bind.mpr ((meets_act (o := .commentIssue _ _)).mpr ⟨trivial, fun x t _ => ?_⟩))
    rcases x with r | x
    · refine ⟨.inr (hs.step rfl (fun hn => by cases hn) ?_ rfl), fun _ he => by cases he⟩
      simp [heed, raised, isFetch, isComment]
    · have hs' : At n .settingUp (⟨.commentIssue n (blockComment ("worktree setup failed : " ++ e)), .ok x, t⟩ :: h) :=
        hs.step rfl (fun _ => rfl) (by simp [heed, raised, releases, isFetch]) rfl
      refine (release_rest hs' (.inl rfl)).mono fun h r hr => ?_
      rcases r with _ | _
      · exact ⟨.inl hr, fun _ he => by cases he⟩
      · exact ⟨.inl hr, fun _ he => by cases he⟩
  | _ =>
    have hl : At n .lost h := hh.elim (fun h => absurd trivial h.2) And.left
    exact ⟨.inr hl, fun _ he => by cases he⟩

theorem settled_afterClaim {root : Path} {issue : IssueInfo} (hh : At issue.number .settingUp h) :
    Meets Removing (fun _ _ => True) (fun h _ => Settled issue.number h) (afterClaim root issue) h := by
  have hquiet {α : Type} {p : Agent α} (hp : Tame (isQuiet · = true) NotWorktree p)
      {h : History Op Reply Raised τ} (hh : At issue.number .settingUp h) : Meets Removing (fun _ _ => True)
        (fun h r => (At issue.number .settingUp h ∧ Calm NotWorktree r) ∨
          (At issue.number .lost h ∧ ¬Calm NotWorktree r)) p h :=
    hp.meets (fun _ _ _ => trivial) (fun _ _ hh ho hb => hh.settingUp_idle (Bool.and_eq_true_iff.mp ho).1 hb)
      (fun _ _ _ _ hh ho hb => hh.settingUp_lost (Bool.and_eq_true_iff.mp ho).1 hb) hh
  have hsetUp : Meets Removing (fun _ _ => True)
      (fun h r => (Settled issue.number h ∧ ∀ wt : Worktree, r ≠ .ok (some wt)) ∨
        (At issue.number .settingUp h ∧ ∃ wt, r = .ok (some wt)))
      (setUp root issue) h := by
    refine meets_catching.mpr (meets_bind.mpr ((hquiet quiet_ensureBaseUptodate hh).mono fun h r hr => ?_))
    rcases r with e | _
    · exact (settled_failedSetUp (hr.imp id fun h => ⟨h.1, not_not.mp h.2⟩)).mono fun _ _ hs => Or.inl hs
    have hh : At issue.number .settingUp h := hr.elim And.left fun h => absurd trivial h.2
    refine meets_bind.mpr ((hquiet quiet_createWorktree hh).mono fun h r hr => ?_)
    rcases r with e | wt
    · exact (settled_failedSetUp (hr.imp id fun h => ⟨h.1, not_not.mp h.2⟩)).mono fun _ _ hs => Or.inl hs
    · exact .inr ⟨hr.elim And.left fun h => absurd trivial h.2, wt, rfl⟩
  refine meets_bind.mpr (hsetUp.mono fun h r hr => ?_)
  rcases hr with ⟨hs, hne⟩ | ⟨hs, wt, rfl⟩
  · rcases r with e | (_ | wt)
    · exact hs
    · exact hs
    · exact absurd rfl (hne wt)
  refine keeps_ensuring (meets_catchingAll.mpr ((ends_implement hs).mono fun h r hr => ?_)) fun h hh => settled_cleanUp hh
  rcases hr with hr | ⟨hr, e, rfl, he⟩ | ⟨hr, e, rfl, he⟩
  · rcases r with e | _
    · by_cases hb : e.isBase = true
      · exact (if_pos hb).mpr (.inl hr)
      · exact (if_neg hb).mpr (crash_block (.inr hr))
    · exact .inl hr
  · exact (if_neg he).mpr (crash_block (.inl hr))
  · exact (if_pos he).mpr (.inr hr)

theorem settled_workOne {root : Path} {issue : IssueInfo} : Meets Removing (fun _ _ => True)
    (fun h _ => standing issue.number h = .unclaimed ∨ Settled issue.number h) (workOne root issue)
      ([] : History Op Reply Raised τ) := by
  refine meets_bind.mpr ((meets_act (o := .logEvent ..)).mpr ⟨trivial, fun x t _ => ?_⟩)
  have h0 : standing issue.number [(⟨_, x, t⟩ : Program.Entry Op Reply Raised τ)] = .unclaimed := by
    cases x <;> simp [standing, heed, raised, claims]
  rcases x with _ | _
  · exact .inl h0
  refine meets_bind.mpr ((meets_act (o := .addLabels ..)).mpr ⟨trivial, fun x t _ => ?_⟩)
  rcases x with _ | _
  · refine .inl ?_
    rw [standing, h0]
    rfl
  · refine (settled_afterClaim ⟨?_, by simp [carried, raised, claims]⟩).mono fun _ _ hr => .inr hr
    rw [standing, h0]
    simp [heed, raised, claims]

theorem heed_ne_unclaimed {s : Standing} {e : Program.Entry Op Reply Raised τ} (hs : s ≠ .unclaimed) :
    heed n s e ≠ .unclaimed := by
  unfold heed
  split <;> (try split) <;> (try split) <;> simp_all

def Claimed (n : Nat) (h : History Op Reply Raised τ) : Prop := ∃ e ∈ h, raised e = none ∧ claims n e.op = true

theorem Claimed.standing_ne (hc : Claimed n h) : standing n h ≠ .unclaimed := by
  obtain ⟨e, he, hr, hop⟩ := hc
  induction h with
  | nil => cases he
  | cons e' h ih =>
    rcases List.mem_cons.mp he with rfl | he
    · rw [standing]
      by_cases hs : standing n h = .unclaimed
      · simp [hs, heed, hr, hop]
      · exact heed_ne_unclaimed hs
    · exact heed_ne_unclaimed (ih he)

end

open BackendAgent

/-- A claimed issue is given back exactly when the run is not lost. -/
theorem gives_back_iff {τ : Type} (root : Path) (issue : IssueInfo) (h : History Op Reply Raised τ)
    (r : Except Raised Unit) (hr : Runs Removing (workOne root issue) [] h r) (hc : Claimed issue.number h) :
    carried issue.number h = false ↔ standing issue.number h ≠ .lost := by
  rcases settled_workOne.runs hr with hu | ⟨hs, hl⟩ | ⟨hs, hl⟩
  · exact absurd hu hc.standing_ne
  · exact iff_of_true (by rw [hl]; rfl) (by rw [hs]; decide)
  · exact iff_of_false (by rw [hl]; decide) (by rw [hs]; decide)

def someIssue : IssueInfo := { number := 41, title := "Add an endpoint", labels := {areaLabel, readyLabel} }

def claimed (issue : IssueInfo) : History Op Reply Raised Unit :=
  [⟨.addLabels issue.number [inProgressLabel], .ok (), ()⟩,
    ⟨.logEvent "backend" "pick" [("issue", .int issue.number), ("title", .str issue.title)], .ok (), ()⟩]

def gitMissing (root : Path) (issue : IssueInfo) : History Op Reply Raised Unit :=
  ⟨.run ["git", "fetch", "origin", "main", "--quiet"] (some (pocRoot root)), .error (.other "[Errno 2] git"), ()⟩ ::
    ⟨.exists_ (pocRoot root), .ok true, ()⟩ :: claimed issue

theorem runs_gitMissing (root : Path) (issue : IssueInfo) :
    Runs Removing (workOne root issue) [] (gitMissing root issue) (.error (.other "[Errno 2] git")) :=
  .call (x := .ok ()) (t := ()) (fun _ => rfl) <| .call (x := .ok ()) (t := ()) (fun _ => rfl) <|
    .call (x := .ok true) (t := ()) (fun _ => rfl) <|
    .call (x := .error (.other "[Errno 2] git")) (t := ()) (by rintro ⟨_, _, h⟩; cases h) .done

def nothingThere (_ : History Op Reply Raised Unit) : (o : Op) → Except Raised (Reply o)
  | .exists_ _ => .ok false
  | .addLabels .. | .removeLabel .. | .commentIssue .. | .logEvent .. => .ok ()
  | _ => .error (.other "")

/-- The set-up fails with a `WorktreeError`, and the issue is blocked. -/
theorem gives_back_run : ∃ (h : History Op Reply Raised Unit) (r : Except Raised Unit),
    Runs Removing (workOne [] someIssue) [] h r ∧ Claimed 41 h ∧ carried 41 h = false := by
  have allowed : ∀ (h : History Op Reply Raised Unit) (o : Op), Removing h ⟨o, nothingThere h o, ()⟩ := by
    rintro h o ⟨m, label, rfl⟩
    rfl
  have run := runs_answered allowed (workOne [] someIssue) []
  have claimed : Claimed 41 (Program.answered nothingThere (workOne [] someIssue) []).1 := by
    unfold Claimed
    decide +kernel
  exact ⟨_, _, run, claimed, (gives_back_iff [] someIssue _ _ run claimed).mpr (by decide +kernel)⟩

theorem never_given_back : ¬∀ (root : Path) (issue : IssueInfo) (h : History Op Reply Raised Unit) r,
    Runs Removing (workOne root issue) [] h r → Claimed issue.number h → carried issue.number h = false := by
  intro hall
  have hc := hall [] someIssue _ _ (runs_gitMissing [] someIssue)
    ⟨_, List.mem_cons_of_mem _ (List.mem_cons_of_mem _ (List.mem_cons_self ..)), rfl, by decide⟩
  exact absurd hc (by decide)

end AdmissionScheduler.Orchestrator
