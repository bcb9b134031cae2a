import AdmissionScheduler.Crew
import Mathlib.Algebra.BigOperators.Group.List.Basic
import Mathlib.Algebra.GroupWithZero.Nat

/-!
# What a program spends

Every operation has a cost and every reply a credit. A program spends at most
`n` when it can pay for each operation out of `n` and what was credited so far.
Budgets add up along a program, so that those of its parts give that of the
whole, whatever the replies are.
-/

namespace AdmissionScheduler

namespace Program

section
variable {Op : Type} {Reply : Op → Type} {ε τ α β : Type} (cost : Op → Nat)
  (credit : (o : Op) → Except ε (Reply o) → Nat)

def Spends : Program Op Reply ε α → Nat → Prop
  | done _, _ => True
  | call o next, n => cost o ≤ n ∧ ∀ x, Spends (next x) (n - cost o + credit o x)

def spent (h : History Op Reply ε τ) : Nat := (h.map fun e => cost e.op).sum

def earned (h : History Op Reply ε τ) : Nat := (h.map fun e => credit e.op e.reply).sum

variable {cost credit} {p : Program Op Reply ε α} {m n : Nat}

theorem spends_done {r : Except ε α} : Spends cost credit (done r) n := trivial

theorem spends_perform {o : Op} (h : cost o ≤ n) : Spends cost credit (perform o : Program Op Reply ε (Reply o)) n :=
  ⟨h, fun _ => trivial⟩

namespace Spends

theorem mono (hp : Spends cost credit p n) (h : n ≤ m) : Spends cost credit p m := by
  induction p generalizing n m with
  | done r => trivial
  | call o next ih => exact ⟨hp.1.trans h, fun x => ih x (hp.2 x) (by omega)⟩

theorem handle {k : Except ε α → Program Op Reply ε β} (hp : Spends cost credit p n)
    (hk : ∀ r, Spends cost credit (k r) m) : Spends cost credit (p.handle k) (n + m) := by
  induction p generalizing n with
  | done r => exact (hk r).mono (Nat.le_add_left m n)
  | call o next ih =>
    refine ⟨hp.1.trans (Nat.le_add_right n m), fun x => ?_⟩
    have h := hp.1
    exact (ih x (hp.2 x)).mono (by omega)

theorem bind {f : α → Program Op Reply ε β} (hp : Spends cost credit p n) (hf : ∀ a, Spends cost credit (f a) m) :
    Spends cost credit (p >>= f) (n + m) :=
  hp.handle fun
    | .ok a => hf a
    | .error _ => trivial

theorem gives_bind {R : α → Prop} {f : α → Program Op Reply ε β} (hp : Spends cost credit p n) (hr : Gives R p)
    (hf : ∀ a, R a → Spends cost credit (f a) m) : Spends cost credit (p >>= f) (n + m) := by
  induction p generalizing n with
  | done r =>
    cases r with
    | ok a => exact (hf a (hr a rfl)).mono (Nat.le_add_left m n)
    | error e => trivial
  | call o next ih =>
    refine ⟨hp.1.trans (Nat.le_add_right n m), fun x => ?_⟩
    have h := hp.1
    exact (ih x (hp.2 x) (hr x)).mono (by omega)

theorem free_bind {f : α → Program Op Reply ε β} (hp : Spends cost credit p 0)
    (hf : ∀ a, Spends cost credit (f a) n) : Spends cost credit (p >>= f) n := (hp.bind hf).mono (Nat.zero_add n).le

theorem catching {f : ε → Program Op Reply ε α} (hp : Spends cost credit p n)
    (hf : ∀ e, Spends cost credit (f e) m) : Spends cost credit (p.catching f) (n + m) :=
  hp.handle fun
    | .ok _ => trivial
    | .error e => hf e

theorem ensuring {f : Program Op Reply ε Unit} (hp : Spends cost credit p n) (hf : Spends cost credit f m) :
    Spends cost credit (p.ensuring f) (n + m) := by
  refine hp.handle fun r => (hf.handle (m := 0) fun r' => ?_).mono (Nat.le_refl m)
  cases r' <;> trivial

theorem ite {q : Program Op Reply ε α} {c : Prop} [Decidable c] (hp : Spends cost credit p n)
    (hq : Spends cost credit q n) : Spends cost credit (if c then p else q) n := by
  by_cases hc : c
  · rwa [if_pos hc]
  · rwa [if_neg hc]

theorem ofExcept_bind {r : Except ε β} {f : β → Program Op Reply ε α}
    (hf : ∀ b, r = .ok b → Spends cost credit (f b) n) : Spends cost credit (ofExcept r >>= f) n := by
  cases r with
  | ok b => exact hf b rfl
  | error e => trivial

theorem each {body : β → Program Op Reply ε Unit} {l : List β} (hb : ∀ b, Spends cost credit (body b) n) :
    Spends cost credit (each body l) (l.length * n) := by
  induction l with
  | nil => trivial
  | cons b l ih => exact ((hb b).bind fun _ => ih).mono (by rw [List.length_cons, Nat.succ_mul, Nat.add_comm])

theorem of_tame {P : Op → Prop} {B : ε → Prop} (hp : Tame P B p) (hP : ∀ o, P o → cost o = 0) :
    Spends cost credit p 0 := by
  classical
  induction p with
  | done r => trivial
  | call o next ih =>
    refine ⟨Nat.le_of_eq (hP o hp.1), fun x => ?_⟩
    by_cases hx : Calm B x
    · exact (ih x (hp.2.2 x hx)).mono (Nat.zero_le _)
    · cases x with
      | ok _ => exact absurd trivial hx
      | error e =>
        rw [hp.2.1 e (not_not.mp hx)]
        trivial

end Spends

/-- Operations of one kind cost one, and their number is what they cost. -/
theorem spent_eq_countP {c : Op → Bool} {h : History Op Reply ε τ} (hc : ∀ o, cost o = (c o).toNat) :
    spent cost h = h.countP fun e => c e.op := by
  induction h with
  | nil => rfl
  | cons e h ih =>
    rw [List.countP_cons, ← ih, Nat.add_comm, spent, List.map_cons, List.sum_cons, hc]
    cases c e.op <;> rfl

end

end Program

namespace Crew

open Program

variable {Op : Type} {Reply : Op → Type} {ε ι J α E : Type} [DecidableEq ι] {C : Crew Op Reply ε ι J α E}
  {s : State Op Reply ε ι J E} {ok : State Op Reply ε ι J E → Act ι J α E → Prop} {cost : Op → Nat}
  {credit : J → (o : Op) → Except ε (Reply o) → Nat}

/-- No party spends more than the budget of its job and what it was credited with. -/
theorem spends {n : J → Nat} (hp : ∀ j, Spends cost (credit j) (C.program j) (n j)) (hs : C.machine.Reach ok s) :
    ∀ i p, s.party i = some p → spent cost p.seen ≤ n p.job + earned (credit p.job) p.seen := by
  have hleft : ∀ i p, s.party i = some p → ∃ m, Spends cost (credit p.job) p.rest m ∧
      spent cost p.seen + m ≤ n p.job + earned (credit p.job) p.seen := by
    refine parties (K := fun _ p => ∃ m, Spends cost (credit p.job) p.rest m ∧
      spent cost p.seen + m ≤ n p.job + earned (credit p.job) p.seen) ?_ ?_ (fun _ _ _ _ => id) hs
    · exact fun w j => ⟨n j, hp j, by simp [spent, earned]⟩
    · intro s i x j o next h r l _ _ _ hm
      obtain ⟨m, hm, hle⟩ := hm
      refine ⟨m - cost o + credit j o r, hm.2 r, ?_⟩
      have hcost := hm.1
      simp only [spent, earned, List.map_cons, List.sum_cons] at hle ⊢
      omega
  intro i p hi
  obtain ⟨m, -, hle⟩ := hleft i p hi
  exact (Nat.le_add_right _ m).trans hle

end Crew

end AdmissionScheduler
