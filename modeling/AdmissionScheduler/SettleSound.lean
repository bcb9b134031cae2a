import AdmissionScheduler.Duties

/-!
# Every reservation is settled

An agent asks the model only with a reservation, or when the budget could not be
read, and settles what it reserved once. What is left unsettled at the end was
lost with an exception other than those of `orchestrator/llm.py`.
-/

namespace AdmissionScheduler.Orchestrator

open Program Crew

/-! ## The books -/

section
variable {τ : Type}

def outstanding : History Op Reply Raised τ → List Budget.Reservation
  | [] => []
  | ⟨.checkAndReserve .., .ok r, _⟩ :: h => r :: outstanding h
  | ⟨.commitTokens r _, .ok _, _⟩ :: h => (outstanding h).erase r
  | _ :: h => outstanding h

/-- The next call of the model is paid for, or the budget could not be read. -/
def permit : History Op Reply Raised τ → Bool
  | [] => false
  | ⟨.checkAndReserve .., .ok _, _⟩ :: _ => true
  | ⟨.checkAndReserve .., .error (.budgetUnavailable _), _⟩ :: _ => true
  | ⟨.checkAndReserve .., .error _, _⟩ :: _ => false
  | ⟨.callModel .., _, _⟩ :: _ => false
  | _ :: h => permit h

/-- What the agents catch around the call of the model. -/
def isLlm : Raised → Bool
  | .llmTimeout _ | .llm _ => true
  | _ => false

/-- A reservation in hand is lost with the exception: nothing catches it before it has settled. -/
def leaks : Program.Entry Op Reply Raised τ → Bool
  | ⟨.callModel .., .error e, _⟩ => !isLlm e
  | ⟨.repoTree _, .error _, _⟩ | ⟨.commitTokens .., .error _, _⟩ => true
  | _ => false

def Balanced (h : History Op Reply Raised τ) : Prop := (outstanding h).length ≤ h.countP leaks

structure Settles (h : History Op Reply Raised τ) (o : Op) : Prop where
  commit : ∀ r actual, o = .commitTokens r actual → (outstanding h).head? = some r
  ask : ∀ role n, o = .callModel role n → permit h = true

def isUnpriced : Op → Bool
  | .checkAndReserve .. | .commitTokens .. | .callModel .. | .repoTree _ => false
  | _ => true

structure SameBooks (h h' : History Op Reply Raised τ) : Prop where
  outstanding : outstanding h' = outstanding h
  leaks : h'.countP leaks = h.countP leaks

def Holding (reservation : Option Budget.Reservation) (h : History Op Reply Raised τ) : Prop :=
  match reservation with
  | none => Balanced h
  | some r => ∃ l, outstanding h = r :: l ∧ l.length ≤ h.countP leaks

variable {α β : Type} {h h' : History Op Reply Raised τ} {e : Program.Entry Op Reply Raised τ}
  {A : History Op Reply Raised τ → Program.Entry Op Reply Raised τ → Prop}
  {reservation : Option Budget.Reservation} {p : Agent α}

theorem settles_of_unpriced {o : Op} (ho : isUnpriced o = true) : Settles h o := by
  constructor
  · rintro r actual rfl
    cases ho
  · rintro role n rfl
    cases ho

theorem sameBooks_cons (he : isUnpriced e.op = true) : SameBooks h (e :: h) ∧ permit (e :: h) = permit h := by
  obtain ⟨o, x, t⟩ := e
  cases o <;> first | exact ⟨⟨rfl, rfl⟩, rfl⟩ | cases he

theorem Balanced.same (hb : Balanced h) (hs : SameBooks h h') : Balanced h' := by
  rw [Balanced, hs.outstanding, hs.leaks]
  exact hb

theorem Holding.same (hh : Holding reservation h) (hs : SameBooks h h') : Holding reservation h' := by
  cases reservation with
  | none => exact Balanced.same hh hs
  | some r =>
    rw [Holding, hs.outstanding, hs.leaks]
    exact hh

theorem Holding.lost (hh : Holding reservation h) (ho : outstanding (e :: h) = outstanding h) (he : leaks e = true) :
    Balanced (e :: h) := by
  rw [Balanced, ho, List.countP_cons_of_pos he]
  cases reservation with
  | none => exact Nat.le_succ_of_le hh
  | some r =>
    obtain ⟨l, hl, hle⟩ := hh
    rw [hl, List.length_cons]
    exact Nat.succ_le_succ hle

theorem keeps_books (hp : Tame (isUnpriced · = true) IsBase p) :
    Meets A Settles (fun h' _ => SameBooks h h' ∧ permit h' = permit h) p h := by
  have hstep : ∀ (h' : History Op Reply Raised τ) e, SameBooks h h' ∧ permit h' = permit h → isUnpriced e.op = true →
      SameBooks h (e :: h') ∧ permit (e :: h') = permit h := by
    intro h' e hh ho
    obtain ⟨hs, hp⟩ := sameBooks_cons (h := h') ho
    exact ⟨⟨hs.outstanding.trans hh.1.outstanding, hs.leaks.trans hh.1.leaks⟩, hp.trans hh.2⟩
  refine (hp.meets (fun _ _ => settles_of_unpriced) (S := fun h' => SameBooks h h' ∧ permit h' = permit h)
    (L := fun h' => SameBooks h h' ∧ permit h' = permit h) (fun h' e hh ho _ => hstep h' e hh ho)
    (fun h' o e t hh ho _ => hstep h' ⟨o, .error e, t⟩ hh ho) ⟨⟨rfl, rfl⟩, rfl⟩).mono fun h' r hh => ?_
  exact hh.elim And.left And.left

theorem keeps_balanced (hp : Tame (isUnpriced · = true) IsBase p) (hb : Balanced h) :
    Meets A Settles (fun h' _ => Balanced h') p h := (keeps_books hp).mono fun _ _ hs => hb.same hs.1

/-! ## Rules -/

/-- The books are in order after an exception, and a value comes with `J`. -/
def Upto (J : α → History Op Reply Raised τ → Prop) (h : History Op Reply Raised τ) : Except Raised α → Prop
  | .ok a => J a h
  | .error _ => Balanced h

theorem upto_bind {J : α → History Op Reply Raised τ → Prop} {K : β → History Op Reply Raised τ → Prop} {f : α → Agent β}
    (hp : Meets A Settles (Upto J) p h) (hf : ∀ a h, J a h → Meets A Settles (Upto K) (f a) h) :
    Meets A Settles (Upto K) (p >>= f) h := by
  refine meets_bind.mpr (hp.mono fun h r hr => ?_)
  cases r with
  | ok a => exact hf a h hr
  | error e => exact hr

theorem upto_balanced (hp : Tame (isUnpriced · = true) IsBase p) (hb : Balanced h) :
    Meets A Settles (Upto fun _ => Balanced) p h :=
  (keeps_balanced hp hb).mono fun h r hr => by cases r <;> exact hr

theorem upto_log {role action : String} {payload : List (String × Json)} (hb : Balanced h) :
    Meets A Settles (Upto fun _ => Balanced) (act (.logEvent role action payload)) h := upto_balanced (tame_act rfl) hb

/-! ## Reserving, asking, settling -/

theorem upto_reserve {role : Budget.Role} {expected : Int} {number : Nat} (hb : Balanced h) :
    Meets A Settles (Upto fun reserved h => match reserved with
      | .exceeded => Balanced h
      | .reserved reservation => Holding reservation h ∧ permit h = true) (reserveTokens role expected number) h := by
  have hother : Settles h (.checkAndReserve role expected) := ⟨(fun _ _ h => by cases h), fun _ _ h => by cases h⟩
  refine meets_catching.mpr (meets_bind.mpr (meets_act.mpr ⟨hother, fun x t _ => ?_⟩))
  cases x with
  | ok r => exact ⟨⟨outstanding h, rfl, hb⟩, rfl⟩
  | error e =>
    cases e with
    | budgetExceeded text =>
      exact upto_bind (upto_log (h := ⟨.checkAndReserve role expected, .error _, t⟩ :: h) hb) fun _ h hb => hb
    | budgetUnavailable text =>
      refine upto_bind (J := fun _ h => Balanced h ∧ permit h = true) ((keeps_books (tame_act rfl)).mono
        fun h' r hs => ?_) fun _ h hh => hh
      have hb' : Balanced h' :=
        Balanced.same (h := ⟨.checkAndReserve role expected, .error (.budgetUnavailable text), t⟩ :: h) hb hs.1
      cases r with
      | ok _ => exact ⟨hb', hs.2⟩
      | error _ => exact hb'
    | _ => exact hb

theorem upto_settle {actual : Int} (hh : Holding reservation h) :
    Meets A Settles (Upto fun _ => Balanced) (settle reservation actual) h := by
  cases reservation with
  | none => exact hh
  | some r =>
    obtain ⟨l, hl, hle⟩ := hh
    refine meets_act.mpr ⟨⟨fun r' _ heq => ?_, (fun _ _ h => by cases h)⟩, fun x t _ => ?_⟩
    · cases heq
      rw [hl]
      rfl
    · cases x with
      | ok _ =>
        change ((outstanding h).erase r).length ≤ h.countP leaks
        rw [hl, List.erase_cons_head]
        exact hle
      | error e =>
        have hheld : Holding (some r) h := ⟨l, hl, hle⟩
        exact hheld.lost rfl rfl

/-- The call with its handler: the reservation is in hand still when there is an answer, and settled when there is none. -/
theorem upto_callModel {role : String} {n : Nat} {f : Raised → Agent (Option LLMResult)} (hh : Holding reservation h)
    (hp : permit h = true)
    (hf : ∀ e h, (if isLlm e then Holding reservation h else Balanced h) →
      Meets A Settles (Upto fun res h => res = none ∧ Balanced h) (f e) h) :
    Meets A Settles (Upto fun res h => match res with
      | none => Balanced h
      | some _ => Holding reservation h)
      ((do let r ← act (.callModel role n); return some r : Agent (Option LLMResult)).catching f) h := by
  have hask : Settles h (.callModel role n) := ⟨(fun _ _ h => by cases h), fun _ _ _ => hp⟩
  refine meets_catching.mpr (meets_bind.mpr (meets_act.mpr ⟨hask, fun x t _ => ?_⟩))
  cases x with
  | ok res => exact hh.same ⟨rfl, rfl⟩
  | error e =>
    refine (hf e _ ?_).mono fun h r hr => ?_
    · cases he : isLlm e with
      | true => exact hh.same ⟨rfl, List.countP_cons_of_neg (by simp [leaks, he])⟩
      | false => exact hh.lost rfl (by simp [leaks, he])
    · cases r with
      | ok res =>
        obtain ⟨rfl, hb⟩ := hr
        exact hb
      | error _ => exact hr

theorem upto_answer {γ : Type} {actual : LLMResult → Int} {res : Option LLMResult} {f : LLMResult → Agent (Option γ)}
    (hres : match res with
      | none => Balanced h
      | some _ => Holding reservation h)
    (hf : ∀ r h, Balanced h → Meets A Settles (Upto fun _ => Balanced) (f r) h) :
    Meets A Settles (Upto fun _ => Balanced) (match res with
      | none => return none
      | some r => do
        settle reservation (actual r)
        f r) h := by
  cases res with
  | none => exact hres
  | some r => exact upto_bind (upto_settle hres) fun _ h hb => hf r h hb

theorem upto_triageModel {number : Nat} (hb : Balanced h) :
    Meets A Settles (Upto fun _ => Balanced) (TriageAgent.askModel number) h := by
  refine upto_bind (upto_balanced (tame_act rfl) hb) fun _ h hb => ?_
  refine upto_bind (upto_reserve hb) fun reserved h hr => ?_
  cases reserved with
  | exceeded => exact hr
  | reserved reservation =>
    refine upto_bind (upto_callModel hr.1 hr.2 fun e h he => ?_) fun res h hres => ?_
    · cases e with
      | llmTimeout text | llm text => exact upto_bind (upto_settle he) fun _ h hb => ⟨rfl, hb⟩
      | _ => exact he
    · refine upto_answer hres fun r h hb => ?_
      rcases r.data with _ | (_ | ⟨kv, data⟩)
      · exact upto_bind (upto_log hb) fun _ h hb => hb
      · exact upto_bind (upto_log hb) fun _ h hb => hb
      · exact hb

theorem upto_readTree {tree : Option Path} (hh : Holding reservation h) (hp : permit h = true) :
    Meets A Settles (Upto fun _ h => Holding reservation h ∧ permit h = true) (BackendAgent.readTree tree) h := by
  cases tree with
  | none => exact ⟨hh, hp⟩
  | some p =>
    refine meets_act.mpr ⟨⟨(fun _ _ h => by cases h), fun _ _ h => by cases h⟩, fun x t _ => ?_⟩
    cases x with
    | ok _ => exact ⟨hh.same ⟨rfl, rfl⟩, hp⟩
    | error e => exact hh.lost rfl rfl

theorem upto_backendModel {number : Nat} {tree : Option Path} {phase : List (String × Json)} (hb : Balanced h) :
    Meets A Settles (Upto fun _ => Balanced) (BackendAgent.askModel number tree phase) h := by
  refine upto_bind (upto_balanced (tame_act rfl) hb) fun _ h hb => ?_
  refine upto_bind (upto_reserve hb) fun reserved h hr => ?_
  cases reserved with
  | exceeded => exact hr
  | reserved reservation =>
    refine upto_bind (upto_readTree hr.1 hr.2) fun _ h hr => ?_
    refine upto_bind (upto_callModel hr.1 hr.2 fun e h he => ?_) fun res h hres => ?_
    · cases e with
      | llmTimeout text | llm text =>
        exact upto_bind (upto_settle he) fun _ h hb => upto_bind (upto_log hb) fun _ h hb => ⟨rfl, hb⟩
      | _ => exact he
    · refine upto_answer hres fun r h hb => ?_
      rcases r.data with _ | (_ | ⟨kv, data⟩)
      · exact upto_bind (upto_log hb) fun _ h hb => hb
      · exact upto_bind (upto_log hb) fun _ h hb => hb
      · exact hb

/-! ## Heartbeats -/

section
open BackendAgent
variable {root : Path} {issue : IssueInfo} {wt : Worktree}

theorem unpriced_of_working {o : Op} (ho : Working root issue o) : isUnpriced o = true := by cases ho <;> rfl

theorem unpriced_of_testing {o : Op} (ho : Testing root issue o) : isUnpriced o = true := by cases ho; rfl

theorem upto_ofExcept {r : Except Raised β} {f : β → Agent α} (hb : Balanced h)
    (hf : ∀ b, r = .ok b → Meets A Settles (Upto fun _ => Balanced) (f b) h) :
    Meets A Settles (Upto fun _ => Balanced) (Program.ofExcept r >>= f) h := by
  cases r with
  | ok b => exact hf b rfl
  | error e => exact hb

theorem upto_ite {q : Agent α} {c : Prop} [Decidable c] (hp : c → Meets A Settles (Upto fun _ => Balanced) p h)
    (hq : ¬c → Meets A Settles (Upto fun _ => Balanced) q h) :
    Meets A Settles (Upto fun _ => Balanced) (if c then p else q) h := meets_ite.mpr ⟨hp, hq⟩

theorem upto_generateChanges (hb : Balanced h) :
    Meets A Settles (Upto fun _ => Balanced) (generateChanges wt issue) h := by
  refine upto_bind (upto_backendModel hb) fun data h hb => ?_
  cases data with
  | none => exact hb
  | some data =>
    refine upto_ite (fun _ => upto_bind (upto_log hb) fun _ h hb => hb) fun _ => ?_
    cases given data "files" with
    | none => exact hb
    | some files => exact upto_ofExcept hb fun _ _ => hb

theorem upto_generateFix {previous : GeneratedChanges} (hb : Balanced h) :
    Meets A Settles (Upto fun _ => Balanced) (generateFix issue previous) h := by
  refine upto_bind (upto_backendModel hb) fun data h hb => ?_
  cases data with
  | none => exact hb
  | some data => exact upto_ite (fun _ => hb) fun _ => upto_ofExcept hb fun _ _ => hb

theorem unpriced_publishing {o : Op} (ho : Publishing root issue o) : isUnpriced o = true := by cases ho <;> rfl

theorem unpriced_publish {changes : GeneratedChanges} {test : TestResult} :
    Tame (isUnpriced · = true) IsBase (publish wt issue changes test) := by
  refine .bind (.bind (tame_act rfl) fun _ => .bind (.ite trivial ?_) fun _ => trivial) fun _ => ?_
  · exact tame_catchingGitHub (tame_act rfl) fun _ => trivial
  · refine .bind (.ite trivial (tame_catchingGitHub (tame_act rfl) fun _ => trivial)) fun _ => ?_
    exact .bind (tame_act rfl) fun _ => .bind (tame_act rfl) fun _ => .bind (tame_act rfl) fun _ => tame_act rfl

theorem meets_upto : Meets A Settles (Upto fun _ => Balanced) p h ↔ Meets A Settles (fun h _ => Balanced h) p h := by
  constructor <;> exact fun hp => hp.mono fun h r hr => by cases r <;> exact hr

theorem balanced_workOne (hb : Balanced h) : Meets A Settles (fun h _ => Balanced h) (workOne root issue) h :=
  keeps_workOne (fun hp => keeps_balanced (hp.mono fun _ ho => ho.elim unpriced_of_working unpriced_of_testing))
    (fun _ _ hb => meets_upto.mp (upto_generateFix hb)) (fun _ hb => meets_upto.mp (upto_generateChanges hb))
    (fun _ _ => keeps_balanced (publishing_commitAndPush.mono fun _ => unpriced_publishing))
    (fun _ _ _ => keeps_balanced unpriced_publish) hb

theorem balanced_triageOne (hb : Balanced h) :
    Meets A Settles (fun h _ => Balanced h) (TriageAgent.triageOne issue) h := by
  refine meets_upto.mp ?_
  refine upto_ite (fun _ => hb) fun _ => upto_bind (upto_triageModel hb) fun res h hb => ?_
  cases res with
  | none => exact hb
  | some res =>
    have hlabels : Tame (isUnpriced · = true) IsBase
        (TriageAgent.newLabels issue.number issue.labels (res.data.getD [])) := by
      refine duty_newLabels.1.mono ?_
      rintro _ ⟨body, rfl⟩
      rfl
    refine upto_bind (upto_balanced hlabels hb) fun new h hb => ?_
    exact upto_balanced (.ite (.bind (tame_act rfl) fun _ => tame_act rfl) trivial) hb

theorem balanced_heartbeat {isWord : Char → Bool} {j : Job} (hb : Balanced h) :
    Meets A Settles (fun h _ => Balanced h) (heartbeat isWord root j) h := by
  have hone : ∀ o (h : History Op Reply Raised τ), isUnpriced o = true → Balanced h →
      Meets A Settles (fun h _ => Balanced h) (act o) h := fun o h ho hb => keeps_balanced (tame_act ho) hb
  cases j with
  | ceo =>
    refine keeps_ceoHeartbeat (fun h _ _ => hone _ h rfl) (fun h => hone _ h rfl) (fun h => hone _ h rfl)
      (fun pr h _ hb => ?_) hb
    refine keeps_balanced (duty_reviewPr.mono fun o ho => ?_) hb
    cases ho.2.2 <;> rfl
  | triage =>
    exact keeps_triageHeartbeat (fun h _ _ => hone _ h rfl) (fun h => hone _ h rfl)
      (fun issue h _ hb => balanced_triageOne hb) hb
  | backend =>
    exact keeps_backendHeartbeat (fun h _ _ => hone _ h rfl) (fun h => hone _ h rfl) (fun h => hone _ h rfl)
      (fun issue h _ hb => balanced_workOne hb) hb

end

end

/-! ## The team -/

section
variable {ι : Type} [DecidableEq ι]

/-- What was reserved is settled once at most, no call is unpaid, and a heartbeat that is done has lost the rest. -/
theorem reservations_settled (isWord : Char → Bool) (root : Path) (bot : String) (s : TeamState ι)
    (hs : (teamMachine isWord root bot).Reach Machine.Any s) :
    (∀ i p, s.party i = some p → ∀ e h, e :: h <:+ p.seen → Settles h e.op) ∧
      ∀ i j r h, s.party i = some ⟨j, .done r, h⟩ → Balanced h := by
  constructor
  · exact entries (K := fun _ h e => Settles h e.op) (fun _ _ _ _ _ _ _ _ _ hr _ hserves =>
      guarantee (V := fun _ => True) (fun _ _ _ _ _ _ _ _ => trivial) (G := Settles)
        ((balanced_heartbeat (Nat.zero_le _)).mono fun _ _ _ => trivial) hr hserves) hs
  · intro i j r h hi
    refine results (Q := fun _ h _ => Balanced h) (fun j => ?_) hs hi
    exact (balanced_heartbeat (Nat.zero_le _)).weaken fun _ _ _ => trivial

end

def kindGiven : Answer := .done fun
  | .listOpenIssues _ => [{ number := 7, title := "t", labels := ∅ }]
  | .callModel .. => ⟨"", "fast", 100, some [("kind", .str "kind/bug")]⟩
  | o => noReply o

theorem reservations_settled_run : ∃ (s : TeamState Unit) (j : Job) (r : Except Raised Unit) (h : _),
    s.party () = some ⟨j, .done r, h⟩ ∧ h.length = 7 ∧ Balanced h ∧
      ∀ i p, s.party i = some p → ∀ e h, e :: h <:+ p.seen → Settles h e.op := by
  obtain ⟨s, hs, ⟨j, r, h⟩, he, hlen⟩ := Machine.reach_of_exec (teamMachine (fun _ => true) [] "kola-team-bot")
    Machine.Any
    ([.event (.issued 7), .event (.described 7 { title := "t", body := none, draft := false }), .start () .triage] ++
      List.replicate 7 (.answer () kindGiven))
    (fun s => ∃ x ∈ s.ended (), x.2.2.length = 7) (by decide +kernel)
  have hp := State.party_of_ended he
  obtain ⟨hsettles, hbalanced⟩ := reservations_settled (fun _ => true) [] "kola-team-bot" s hs
  exact ⟨s, j, r, h, hp, hlen, hbalanced () j r h hp, hsettles⟩

end AdmissionScheduler.Orchestrator
