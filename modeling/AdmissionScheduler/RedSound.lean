import AdmissionScheduler.MergeSound

/-!
# Pull requests with red tests

The backend agent opens a pull request also when its tests are red, and labels it
afterwards. The CEO agent does not look at the label before it merges: whether a
red pull request is merged is decided by the rules on what the review fetched,
before as well as after the label is there.
-/

namespace AdmissionScheduler.Orchestrator

open Program Log Crew

variable {ι : Type} [DecidableEq ι]

/-- The backend agent opened it with a test result that is not green. -/
def Red (n : Nat) (w : Log ι) : Prop := ∃ p ∈ pull n w, p.red = true

instance (n : Nat) (w : Log ι) : Decidable (Red n w) := inferInstanceAs (Decidable (∃ p ∈ pull n w, _))

/-- A human removed the label. -/
def Released (n : Nat) (w : Log ι) : Prop := .unlabelled n needsReviewLabel none ∈ w

instance (n : Nat) (w : Log ι) : Decidable (Released n w) := inferInstanceAs (Decidable (_ ∈ w))

/-- The CEO agent merged no red pull request that no human had released. -/
def NoRedMerge (w : Log ι) : Prop :=
  ∀ n sha i w', .merged n sha (some ⟨i, .ceo⟩) :: w' <:+ w → Red n w' → Released n w'

variable (isWord : Char → Bool) (teamRoot : Path) (bot : String)

/-- With the reply `a` brings, a review has all of a red pull request that it looks at; then the rules refuse it, or a
human has released it. -/
def RefusesRed (s : TeamState ι) (a : TeamAct ι) : Prop :=
  ∀ i x, a = .answer i x → ∀ t p, (teamMachine isWord teamRoot bot).step s a = some t → t.party i = some p →
    p.job = .ceo → ∀ n files q w₁ w₂ status pr, Fetched n files q w₁ w₂ status p.seen → Listed pr p.seen →
      pr.number = n → Red n t.log → ¬Released n t.log → ¬Accepts isWord pr files status

variable {isWord teamRoot bot} {s : TeamState ι}

theorem refused_entries (hs : (teamMachine isWord teamRoot bot).Reach (RefusesRed isWord teamRoot bot) s) :
    ∀ i p, s.party i = some p → ∀ e h, e :: h <:+ p.seen → p.job = .ceo → ∀ n files q w₁ w₂ status pr,
      Fetched n files q w₁ w₂ status (e :: h) → Listed pr (e :: h) → pr.number = n → Red n e.stamp →
        ¬Released n e.stamp → ¬Accepts isWord pr files status := by
  refine entries (K := fun j h e => j = .ceo → ∀ n files q w₁ w₂ status pr, Fetched n files q w₁ w₂ status (e :: h) →
    Listed pr (e :: h) → pr.number = n → Red n e.stamp → ¬Released n e.stamp → ¬Accepts isWord pr files status) ?_ hs
  intro s i x j o next h r l hr hok hserves hj
  exact hok i x rfl _ _ hserves.step_eq (Function.update_self ..) hj

omit [DecidableEq ι] in
theorem Listed.of_approval {pr : PullInfo} {n : Nat} {body : String} {x : Except Raised (Reply (.approvePr n body))}
    {t : Log ι} {h : History Op Reply Raised (Log ι)} (hl : Listed pr (⟨.approvePr n body, x, t⟩ :: h)) : Listed pr h := by
  obtain ⟨prs, t', hm, hp⟩ := hl
  obtain heq | hm := List.mem_cons.mp hm
  · cases heq
  · exact ⟨prs, t', hm, hp⟩

/-- What a review accepted is no red pull request that nobody released. -/
theorem released_of_merges (hs : (teamMachine isWord teamRoot bot).Reach (RefusesRed isWord teamRoot bot) s) {n : Nat}
    {sha : String} {h : History Op Reply Raised (Log ι)} (hm : Merges isWord teamRoot bot s n sha h)
    (hred : Red n s.log) : Released n s.log := by
  obtain ⟨files, p, w₁, w₂, ⟨pr, status, body, x, t, h₀, rfl, hl, hn, hf, ha⟩, -, hhead, -, -, h₂⟩ :=
    checked_of_merges hs hm
  obtain ⟨i, y, title, message, next, r, l, hserves, -⟩ := hm
  by_contra hrel
  obtain ⟨e, h₁, rfl, hw⟩ : ∃ e h₁, h₀ = e :: h₁ ∧ w₂ <:+ e.stamp := by
    have hsorted := sorted hs i _ hserves.waits
    cases hf with
    | checks => exact ⟨_, _, rfl, hsorted _ _ (List.suffix_cons ..) ⟨.getPr n, .ok p, w₂⟩ List.mem_cons_self⟩
    | fallback =>
      exact ⟨_, _, rfl, hsorted _ _ (List.suffix_cons ..) ⟨.getPr n, .ok p, w₂⟩
        (List.mem_cons_of_mem _ List.mem_cons_self)⟩
  have he := stamps hs i _ hserves.waits e (List.mem_cons_of_mem _ List.mem_cons_self)
  refine refused_entries hs i _ hserves.waits e h₁ (List.suffix_cons ..) rfl n files p w₁ w₂ status pr hf
    hl.of_approval hn ?_ (fun hr => hrel (he.subset hr)) ha
  obtain ⟨q, hq, hqr⟩ := hred
  obtain ⟨q', hq', -⟩ := Option.bind_eq_some_iff.mp hhead
  cases (pull_suffix h₂ hq').symm.trans hq
  exact ⟨q, pull_suffix hw hq', hqr⟩

omit [DecidableEq ι] in
theorem NoRedMerge.append {w l : Log ι} (hw : NoRedMerge w)
    (hl : ∀ n sha i, .merged n sha (some ⟨i, .ceo⟩) ∈ l → l = [.merged n sha (some ⟨i, .ceo⟩)] ∧ (Red n w → Released n w)) :
    NoRedMerge (l ++ w) := by
  intro n sha i w' hs
  obtain hs | ⟨l₂, h₂, heq⟩ := suffix_append_cases hs
  · exact hw n sha i w' hs
  · cases l₂ with
    | nil =>
      rw [List.nil_append] at heq
      exact hw n sha i w' (heq ▸ List.suffix_rfl)
    | cons e l₃ =>
      obtain ⟨rfl, rfl⟩ := List.cons.inj heq
      obtain ⟨hl, hrel⟩ := hl n sha i (h₂.subset List.mem_cons_self)
      rw [hl] at h₂
      have hnil : l₃ = [] := List.length_eq_zero_iff.mp (by simpa using h₂.length_le)
      rw [hnil]
      exact hrel

/-- No red pull request is merged without a human in runs whose reviews refuse those that nobody released. -/
theorem red_not_merged (isWord : Char → Bool) (teamRoot : Path) (bot : String) (s : TeamState ι)
    (hs : (teamMachine isWord teamRoot bot).Reach (RefusesRed isWord teamRoot bot) s) : NoRedMerge s.log := by
  refine hs.invariant (I := fun s => NoRedMerge s.log) ?_ ?_
  · exact fun n sha i w' h => absurd h.length_le (by simp [teamMachine, machine])
  · intro s a t hr ih hok hs
    obtain ⟨i', j, -, -, rfl⟩ | ⟨i', x, j, o, next, h, r, l, rfl, hserves, rfl⟩ | ⟨e, rfl, he, rfl⟩ := step_cases hs
    · exact ih
    · refine ih.append fun n sha i hm => ?_
      obtain ⟨⟨title, message, rfl⟩, hl, hactor, -⟩ := caused_serve hserves.served _ hm
      cases hactor
      exact ⟨hl, released_of_merges hr ⟨i', x, title, message, next, r, l, hserves, hm⟩⟩
    · refine ih.append (l := [e]) fun n sha i hm => ?_
      cases List.mem_singleton.mp hm
      simp [team, outside] at he

/-! ## Runs -/

/-- An issue for the backend agent, with its branch pushed by the agent's git. -/
def issueForBackend : List (TeamAct Bool) := [
  .event (.issued 7),
  .event (.described 7 { title := "t", body := none, draft := false }),
  .event (.relabelled 7 {"area/api", "ready-for-dev"} none),
  .event (.pushed "agents/backend/7-t" "c1"),
  .event (.checked "c1" [⟨"ci", some "completed", some "success"⟩]),
  .start false .backend]

/-- The tests fail with every change the model comes up with. -/
def failingTests : Answer := .done fun
  | .listOpenIssues _ => [{ number := 7, title := "t", labels := {"area/api", "ready-for-dev"} }]
  | .createPullRequest .. => 9
  | .callModel .. => ⟨"", "code", 100, some [
      ("files", .arr [.obj [("path", .str "a.py"), ("content", .str "x")]]),
      ("tests", .arr [.obj [("path", .str "t.py"), ("content", .str "y")]])]⟩
  | .run args _ => ⟨if "pytest" ∈ args then 1 else 0, "agents/backend/7-t", ""⟩
  | o => noReply o

def redPull : Answer := .done fun
  | .listOpenPrs => [{ number := 9, title := "feat: (no summary)", body := some "## What\n## Why\n## Test", draft := false,
                       login := "kola-team-bot", headSha := "c1", labels := ∅ }]
  | o => noReply o

def shortened : TeamAct Bool :=
  .event (.described 9 { title := "feat: (no summary)", body := some "## What\n## Why\n## Test", draft := false })

def beforeTheLabel : List (TeamAct Bool) :=
  issueForBackend ++ List.replicate 53 (.answer false failingTests) ++ [shortened, .start true .ceo] ++
    List.replicate 7 (.answer true redPull)

def afterTheRelease : List (TeamAct Bool) :=
  issueForBackend ++ List.replicate 54 (.answer false failingTests) ++
    [shortened, .event (.unlabelled 9 needsReviewLabel none), .start true .ceo] ++
    List.replicate 7 (.answer true redPull)

def looksAtReleased (s : TeamState Bool) (a : TeamAct Bool) : Prop :=
  ∀ t ∈ (teamMachine (fun _ => true) [] "kola-team-bot").step s a, ∀ i, ∀ p ∈ t.party i, ∀ u ∈ underReview p.seen,
    Red u.1 t.log → Released u.1 t.log

instance (s : TeamState Bool) (a : TeamAct Bool) : Decidable (looksAtReleased s a) :=
  inferInstanceAs (Decidable (∀ t ∈ (teamMachine (fun _ => true) [] "kola-team-bot").step s a, ∀ i, ∀ p ∈ t.party i,
    ∀ u ∈ underReview p.seen, _ → _))

theorem refusesRed_of_looksAtReleased {s : TeamState Bool} {a : TeamAct Bool} (h : looksAtReleased s a) :
    RefusesRed (fun _ => true) [] "kola-team-bot" s a := by
  rintro i x rfl t p ht hp - n files q w₁ w₂ status pr hf - - hred hrel
  exact absurd (h t ht i p hp (n, w₁) (underReview_of_fetched hf) hred) hrel

/-- The newest event is the merge of a red pull request, released or not. -/
def MergedRed (released : Bool) (w : Log Bool) : Prop :=
  ∃ e ∈ w.head?, e = .merged 9 "c1" (some ⟨true, .ceo⟩) ∧ Red 9 w.tail ∧ (Released 9 w.tail ↔ released = true)

instance (released : Bool) (w : Log Bool) : Decidable (MergedRed released w) :=
  inferInstanceAs (Decidable (∃ e ∈ w.head?, _ ∧ _ ∧ _))

theorem red_not_merged_run : ∃ s : TeamState Bool, MergedRed true s.log ∧ NoRedMerge s.log := by
  obtain ⟨s, hs, hm⟩ := Machine.reach_of_exec (teamMachine (fun _ => true) [] "kola-team-bot") looksAtReleased
    afterTheRelease (fun s => MergedRed true s.log) (by decide +kernel)
  exact ⟨s, hm, red_not_merged (fun _ => true) [] "kola-team-bot" s (hs.mono fun _ _ => refusesRed_of_looksAtReleased)⟩

theorem red_merged : ¬∀ s : TeamState Bool, (teamMachine (fun _ => true) [] "kola-team-bot").Reach Machine.Any s →
    NoRedMerge s.log := by
  intro hall
  obtain ⟨s, hs, e, he, rfl, hred, hrel⟩ := Machine.reach_of_exec (teamMachine (fun _ => true) [] "kola-team-bot")
    Machine.Any beforeTheLabel (fun s => MergedRed false s.log) (by decide +kernel)
  have hlog : .merged 9 "c1" (some ⟨true, .ceo⟩) :: s.log.tail <:+ s.log := by
    rw [← List.eq_cons_of_mem_head? he]
  exact Bool.false_ne_true (hrel.mp (hall s hs 9 "c1" true s.log.tail hlog hred))

end AdmissionScheduler.Orchestrator
