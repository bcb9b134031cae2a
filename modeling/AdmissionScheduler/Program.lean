import Mathlib.Data.List.Infix
import Mathlib.Logic.Basic
import Mathlib.Tactic.Common

/-!
# Programs that perform operations

A program either has a result, a value or an exception, or performs an operation
and goes on with whatever comes back. Sequencing, handlers and loops are all
`handle`. `Meets A G Q p h` says of a program with history `h`: as long as the
replies are as `A` assumes, every operation is one that `G` allows, and the
result is one of `Q`. A reply comes with a stamp, anything that whoever answers
wants to note down with it; the rules never look at stamps.
-/

namespace AdmissionScheduler

inductive Program (Op : Type) (Reply : Op → Type) (ε α : Type) where
  | done (r : Except ε α)
  | call (o : Op) (next : Except ε (Reply o) → Program Op Reply ε α)

namespace Program

section
variable {Op : Type} {Reply : Op → Type} {ε α β : Type}

def handle (k : Except ε α → Program Op Reply ε β) : Program Op Reply ε α → Program Op Reply ε β
  | done r => k r
  | call o next => call o fun x => handle k (next x)

instance : Monad (Program Op Reply ε) where
  pure a := done (.ok a)
  bind p f := p.handle fun
    | .ok a => f a
    | .error e => done (.error e)

def perform (o : Op) : Program Op Reply ε (Reply o) := call o done

def raise (e : ε) : Program Op Reply ε α := done (.error e)

/-- `try: p` with `except Exception as e: h e`, where `h` raises again what it does not catch. -/
def catching (p : Program Op Reply ε α) (h : ε → Program Op Reply ε α) : Program Op Reply ε α :=
  p.handle fun
    | .ok a => done (.ok a)
    | .error e => h e

/-- `try: p` with `finally: f`; an exception of `f` takes the place of the result. -/
def ensuring (p : Program Op Reply ε α) (f : Program Op Reply ε Unit) : Program Op Reply ε α :=
  p.handle fun r => f.handle fun
    | .ok _ => done r
    | .error e => done (.error e)

def each (body : β → Program Op Reply ε Unit) : List β → Program Op Reply ε Unit
  | [] => done (.ok ())
  | b :: l => do body b; each body l

def ofExcept (r : Except ε α) : Program Op Reply ε α := done r

@[simp] theorem pure_eq (a : α) : (pure a : Program Op Reply ε α) = done (.ok a) := rfl

@[simp] theorem handle_done {r : Except ε α} {k : Except ε α → Program Op Reply ε β} : (done r).handle k = k r := rfl

@[simp] theorem handle_call {o : Op} {next : Except ε (Reply o) → Program Op Reply ε α}
    {k : Except ε α → Program Op Reply ε β} : (call o next).handle k = call o fun x => (next x).handle k := rfl

theorem handle_handle {γ : Type} {p : Program Op Reply ε α} {k : Except ε α → Program Op Reply ε β}
    {l : Except ε β → Program Op Reply ε γ} : (p.handle k).handle l = p.handle fun r => (k r).handle l := by
  induction p with
  | done r => rfl
  | call o next ih =>
    rw [handle_call, handle_call, handle_call]
    congr 1
    funext x
    exact ih x

theorem bind_assoc {γ : Type} {p : Program Op Reply ε α} {f : α → Program Op Reply ε β} {g : β → Program Op Reply ε γ} :
    p >>= f >>= g = p >>= fun a => f a >>= g := by
  refine handle_handle.trans ?_
  change p.handle _ = p.handle _
  congr 1
  funext r
  cases r <;> rfl

@[simp] theorem done_bind {r : Except ε α} {f : α → Program Op Reply ε β} : (done r >>= f) =
    match r with | .ok a => f a | .error e => done (.error e) := rfl

end

/-! ## Histories -/

/-- An operation with what came back, and the stamp of the reply. -/
structure Entry (Op : Type) (Reply : Op → Type) (ε τ : Type) where
  op : Op
  reply : Except ε (Reply op)
  stamp : τ

section
variable {Op : Type} {Reply : Op → Type} {ε τ α β : Type}

/-- The newest entry first. -/
abbrev History (Op : Type) (Reply : Op → Type) (ε τ : Type) := List (Entry Op Reply ε τ)

/-- `p` with history `h` can end with history `h'` and result `r`, given replies that `A` allows. -/
inductive Runs (A : History Op Reply ε τ → Entry Op Reply ε τ → Prop) :
    Program Op Reply ε α → History Op Reply ε τ → History Op Reply ε τ → Except ε α → Prop
  | done {r h} : Runs A (done r) h h r
  | call {o next h h' r x t} (allowed : A h ⟨o, x, t⟩) (rest : Runs A (next x) (⟨o, x, t⟩ :: h) h' r) :
    Runs A (call o next) h h' r

def Meets (A : History Op Reply ε τ → Entry Op Reply ε τ → Prop) (G : History Op Reply ε τ → Op → Prop)
    (Q : History Op Reply ε τ → Except ε α → Prop) : Program Op Reply ε α → History Op Reply ε τ → Prop
  | done r, h => Q h r
  | call o next, h => G h o ∧ ∀ x t, A h ⟨o, x, t⟩ → Meets A G Q (next x) (⟨o, x, t⟩ :: h)

variable {A : History Op Reply ε τ → Entry Op Reply ε τ → Prop} {G : History Op Reply ε τ → Op → Prop}
  {Q Q' : History Op Reply ε τ → Except ε α → Prop} {p : Program Op Reply ε α} {h h' : History Op Reply ε τ}

/-! ## Rules -/

theorem meets_done {r : Except ε α} : Meets A G Q (done r) h ↔ Q h r := Iff.rfl

theorem meets_call {o : Op} {next : Except ε (Reply o) → Program Op Reply ε α} :
    Meets A G Q (call o next) h ↔ G h o ∧ ∀ x t, A h ⟨o, x, t⟩ → Meets A G Q (next x) (⟨o, x, t⟩ :: h) := Iff.rfl

theorem Meets.mono (hp : Meets A G Q p h) (hq : ∀ h r, Q h r → Q' h r) : Meets A G Q' p h := by
  induction p generalizing h with
  | done r => exact hq _ _ hp
  | call o next ih => exact ⟨hp.1, fun x t ha => ih x (hp.2 x t ha)⟩

theorem Meets.weaken {G' : History Op Reply ε τ → Op → Prop} (hp : Meets A G Q p h) (hg : ∀ h o, G h o → G' h o) :
    Meets A G' Q p h := by
  induction p generalizing h with
  | done r => exact hp
  | call o next ih => exact ⟨hg h o hp.1, fun x t ha => ih x (hp.2 x t ha)⟩

/-- Histories only grow. -/
theorem Meets.grows {h₀ : History Op Reply ε τ} (hp : Meets A G Q p h) (hs : h₀ <:+ h) :
    Meets A (fun h o => h₀ <:+ h ∧ G h o) (fun h r => h₀ <:+ h ∧ Q h r) p h := by
  induction p generalizing h with
  | done r => exact ⟨hs, hp⟩
  | call o next ih => exact ⟨⟨hs, hp.1⟩, fun x t ha => ih x (hp.2 x t ha) (hs.trans (List.suffix_cons ..))⟩

theorem meets_handle {k : Except ε α → Program Op Reply ε β} {Q : History Op Reply ε τ → Except ε β → Prop} :
    Meets A G Q (p.handle k) h ↔ Meets A G (fun h r => Meets A G Q (k r) h) p h := by
  induction p generalizing h with
  | done r => exact Iff.rfl
  | call o next ih =>
    simp only [handle_call, meets_call]
    exact and_congr_right fun _ => forall_congr' fun x => forall_congr' fun t => imp_congr_right fun _ => ih x

theorem meets_bind {f : α → Program Op Reply ε β} {Q : History Op Reply ε τ → Except ε β → Prop} :
    Meets A G Q (p >>= f) h ↔ Meets A G (fun h r => match r with
      | .ok a => Meets A G Q (f a) h
      | .error e => Q h (.error e)) p h := by
  change Meets A G Q (p.handle _) h ↔ _
  rw [meets_handle]
  constructor <;> exact fun hp => hp.mono fun _ r => by cases r <;> exact id

theorem meets_catching {f : ε → Program Op Reply ε α} :
    Meets A G Q (p.catching f) h ↔ Meets A G (fun h r => match r with
      | .ok a => Q h (.ok a)
      | .error e => Meets A G Q (f e) h) p h := by
  rw [catching, meets_handle]
  constructor <;> exact fun hp => hp.mono fun _ r => by cases r <;> exact id

theorem meets_ensuring {f : Program Op Reply ε Unit} :
    Meets A G Q (p.ensuring f) h ↔ Meets A G (fun h r => Meets A G (fun h r' => match r' with
      | .ok _ => Q h r
      | .error e => Q h (.error e)) f h) p h := by
  rw [ensuring, meets_handle]
  constructor <;> refine fun hp => hp.mono fun _ r hf => ?_
  · exact (meets_handle.mp hf).mono fun _ r' => by cases r' <;> exact id
  · exact meets_handle.mpr (hf.mono fun _ r' => by cases r' <;> exact id)

theorem meets_ite {q : Program Op Reply ε α} {c : Prop} [Decidable c] :
    Meets A G Q (if c then p else q) h ↔ (c → Meets A G Q p h) ∧ (¬c → Meets A G Q q h) := by
  by_cases hc : c <;> simp [hc]

/-! With no postcondition, all that counts is what every part guarantees. -/

theorem guarantee_handle {k : Except ε α → Program Op Reply ε β} (hp : Meets A G (fun _ _ => True) p h)
    (hk : ∀ r h, Meets A G (fun _ _ => True) (k r) h) : Meets A G (fun _ _ => True) (p.handle k) h :=
  meets_handle.mpr (hp.mono fun h r _ => hk r h)

theorem guarantee_bind {f : α → Program Op Reply ε β} (hp : Meets A G (fun _ _ => True) p h)
    (hf : ∀ a h, Meets A G (fun _ _ => True) (f a) h) : Meets A G (fun _ _ => True) (p >>= f) h :=
  guarantee_handle hp fun
    | .ok a, h => hf a h
    | .error _, _ => trivial

theorem guarantee_ofExcept_bind {r : Except ε α} {f : α → Program Op Reply ε β}
    (hf : ∀ a, r = .ok a → Meets A G (fun _ _ => True) (f a) h) :
    Meets A G (fun _ _ => True) (ofExcept r >>= f) h := by
  cases r with
  | ok a => exact hf a rfl
  | error e => trivial

theorem guarantee_catching {f : ε → Program Op Reply ε α} (hp : Meets A G (fun _ _ => True) p h)
    (hf : ∀ e h, Meets A G (fun _ _ => True) (f e) h) : Meets A G (fun _ _ => True) (p.catching f) h :=
  guarantee_handle hp fun
    | .ok _, _ => trivial
    | .error e, h => hf e h

theorem guarantee_ensuring {f : Program Op Reply ε Unit} (hp : Meets A G (fun _ _ => True) p h)
    (hf : ∀ h, Meets A G (fun _ _ => True) f h) : Meets A G (fun _ _ => True) (p.ensuring f) h :=
  guarantee_handle hp fun _ h => guarantee_handle (hf h) fun
    | .ok _, _ => trivial
    | .error _, _ => trivial

theorem keeps_ensuring {f : Program Op Reply ε Unit} {I : History Op Reply ε τ → Prop}
    (hp : Meets A G (fun h _ => I h) p h) (hf : ∀ h, I h → Meets A G (fun h _ => I h) f h) :
    Meets A G (fun h _ => I h) (p.ensuring f) h :=
  meets_ensuring.mpr (hp.mono fun h _ hi => (hf h hi).mono fun _ r hi => by cases r <;> exact hi)

theorem keeps_bind {f : α → Program Op Reply ε β} {I : History Op Reply ε τ → Prop}
    (hp : Meets A G (fun h _ => I h) p h) (hf : ∀ a h, I h → Meets A G (fun h _ => I h) (f a) h) :
    Meets A G (fun h _ => I h) (p >>= f) h :=
  meets_bind.mpr (hp.mono fun h r hi => match r with
    | .ok a => hf a h hi
    | .error _ => hi)

theorem keeps_ofExcept_bind {r : Except ε α} {f : α → Program Op Reply ε β} {I : History Op Reply ε τ → Prop}
    (hi : I h) (hf : ∀ a, r = .ok a → Meets A G (fun h _ => I h) (f a) h) :
    Meets A G (fun h _ => I h) (ofExcept r >>= f) h := by
  cases r with
  | ok a => exact hf a rfl
  | error e => exact hi

/-- A loop keeps `I` when its body does, and stops at the first exception. -/
theorem meets_each {body : β → Program Op Reply ε Unit} {I : History Op Reply ε τ → Prop}
    {E : History Op Reply ε τ → ε → Prop} {l : List β}
    (hb : ∀ b ∈ l, ∀ h, I h → Meets A G (fun h r => match r with
      | .ok _ => I h
      | .error e => E h e) (body b) h) (hi : I h) :
    Meets A G (fun h r => match r with
      | .ok _ => I h
      | .error e => E h e) (each body l) h := by
  induction l generalizing h with
  | nil => exact hi
  | cons b l ih =>
    rw [each, meets_bind]
    refine (hb b (List.mem_cons_self ..) h hi).mono fun h r hr => ?_
    cases r with
    | ok _ => exact ih (fun c hc => hb c (List.mem_cons_of_mem _ hc)) hr
    | error e => exact hr

/-! ## What values come with -/

/-- Every operation is one that `G` allows, and a value comes with a history of `J`. -/
def Ensures (A : History Op Reply ε τ → Entry Op Reply ε τ → Prop) (G : History Op Reply ε τ → Op → Prop)
    (J : α → History Op Reply ε τ → Prop) : Program Op Reply ε α → History Op Reply ε τ → Prop :=
  Meets A G fun h r => ∀ a, r = .ok a → J a h

section
variable {J J' : α → History Op Reply ε τ → Prop} {K : β → History Op Reply ε τ → Prop}

theorem ensures_ok {a : α} (hj : J a h) : Ensures A G J (done (.ok a)) h := by
  intro b heq
  cases heq
  exact hj

theorem ensures_raise {e : ε} : Ensures A G J (raise e) h := fun _ heq => by cases heq

theorem ensures_perform {o : Op} {J : Reply o → History Op Reply ε τ → Prop} (hg : G h o)
    (hj : ∀ a t, A h ⟨o, .ok a, t⟩ → J a (⟨o, .ok a, t⟩ :: h)) : Ensures A G J (perform o) h := by
  refine ⟨hg, fun x t ha a heq => ?_⟩
  cases heq
  exact hj a t ha

theorem ensures_bind {f : α → Program Op Reply ε β} (hp : Ensures A G J p h)
    (hf : ∀ a h, J a h → Ensures A G K (f a) h) : Ensures A G K (p >>= f) h := by
  refine meets_bind.mpr (hp.mono fun h r hr => ?_)
  cases r with
  | ok a => exact hf a h (hr a rfl)
  | error e => exact fun _ heq => by cases heq

theorem ensures_ite {q : Program Op Reply ε α} {c : Prop} [Decidable c] (hp : c → Ensures A G J p h)
    (hq : ¬c → Ensures A G J q h) : Ensures A G J (if c then p else q) h := meets_ite.mpr ⟨hp, hq⟩

theorem ensures_catching {f : ε → Program Op Reply ε α} (hp : Ensures A G J p h)
    (hf : ∀ e h, Ensures A G J (f e) h) : Ensures A G J (p.catching f) h := by
  refine meets_catching.mpr (hp.mono fun h r hr => ?_)
  cases r with
  | ok a => exact hr
  | error e => exact hf e h

namespace Ensures

theorem mono (hp : Ensures A G J p h) (hj : ∀ a h, J a h → J' a h) : Ensures A G J' p h :=
  Meets.mono hp fun _ _ hr a heq => hj a _ (hr a heq)

/-- The rest of a program needs only guarantee something. -/
theorem guarantee_bind {f : α → Program Op Reply ε β} (hp : Ensures A G J p h)
    (hf : ∀ a h, J a h → Meets A G (fun _ _ => True) (f a) h) : Meets A G (fun _ _ => True) (p >>= f) h := by
  refine meets_bind.mpr (Meets.mono hp fun h r hr => ?_)
  cases r with
  | ok a => exact hf a h (hr a rfl)
  | error e => trivial

end Ensures

/-- Once `I` holds it stays true as the history grows. -/
theorem Meets.ensures {I : History Op Reply ε τ → Prop} (hp : Meets A G (fun _ _ => True) p h)
    (hI : ∀ h h', h <:+ h' → I h → I h') (hi : I h) : Ensures A G (fun _ => I) p h :=
  ((hp.grows List.suffix_rfl).weaken fun _ _ => And.right).mono fun h' _ hr _ _ => hI h h' hr.1 hi

/-- A loop that comes to its end has done for every element what its body does for one. -/
theorem ensures_each {body : β → Program Op Reply ε Unit} {I : β → History Op Reply ε τ → Prop} {l : List β}
    (hI : ∀ b h h', h <:+ h' → I b h → I b h') (hb : ∀ b h, Ensures A G (fun _ => I b) (body b) h) :
    Ensures A G (fun _ h => ∀ b ∈ l, I b h) (each body l) h := by
  induction l generalizing h with
  | nil => exact ensures_ok fun _ hb => absurd hb List.not_mem_nil
  | cons b l ih =>
    refine ensures_bind (hb b h) fun _ h hi => ?_
    refine ((ih.grows List.suffix_rfl).weaken fun _ _ => And.right).mono fun h' r hr _ heq => ?_
    exact List.forall_mem_cons.mpr ⟨hI b h h' hr.1 hi, hr.2 _ heq⟩

end

/-- Some entry of `P` was added when `I` held. -/
def After (P : Entry Op Reply ε τ → Prop) (I : History Op Reply ε τ → Prop) (h : History Op Reply ε τ) : Prop :=
  ∃ e h', e :: h' <:+ h ∧ P e ∧ I h'

section
variable {P : Entry Op Reply ε τ → Prop} {I : History Op Reply ε τ → Prop}

theorem After.cons {e : Entry Op Reply ε τ} (he : P e) (hi : I h) : After P I (e :: h) :=
  ⟨e, h, List.suffix_rfl, he, hi⟩

theorem After.mono (h h' : History Op Reply ε τ) (hs : h <:+ h') (ha : After P I h) : After P I h' := by
  obtain ⟨e, h₁, hsuf, he, hi⟩ := ha
  exact ⟨e, h₁, hsuf.trans hs, he, hi⟩

end

/-! ## Programs of some operations only -/

/-- No exception of `B`. -/
def Calm (B : ε → Prop) : Except ε α → Prop
  | .ok _ => True
  | .error e => ¬B e

/-- Every operation is one of `P`, and an exception of `B`, which only an operation can raise, ends the program. -/
def Tame (P : Op → Prop) (B : ε → Prop) : Program Op Reply ε α → Prop
  | done r => Calm B r
  | call o next => P o ∧ (∀ e, B e → next (.error e) = done (.error e)) ∧ ∀ x, Calm B x → Tame P B (next x)

section
variable {P P' : Op → Prop} {B : ε → Prop}

theorem tame_perform {o : Op} (ho : P o) : Tame P B (perform o : Program Op Reply ε (Reply o)) :=
  ⟨ho, fun _ _ => rfl, fun _ hx => hx⟩

theorem tame_raise {e : ε} (he : ¬B e) : Tame P B (raise e : Program Op Reply ε α) := he

theorem tame_ofExcept {r : Except ε α} (hr : ∀ e, r = .error e → ¬B e) :
    Tame P B (ofExcept r : Program Op Reply ε α) := by
  cases r with
  | ok _ => trivial
  | error e => exact hr e rfl

namespace Tame

theorem mono (hp : Tame P B p) (h : ∀ o, P o → P' o) : Tame P' B p := by
  induction p with
  | done r => exact hp
  | call o next ih => exact ⟨h o hp.1, hp.2.1, fun x hx => ih x (hp.2.2 x hx)⟩

theorem and (hp : Tame P B p) (hp' : Tame P' B p) : Tame (fun o => P o ∧ P' o) B p := by
  induction p with
  | done r => exact hp
  | call o next ih => exact ⟨⟨hp.1, hp'.1⟩, hp.2.1, fun x hx => ih x (hp.2.2 x hx) (hp'.2.2 x hx)⟩

theorem handle {k : Except ε α → Program Op Reply ε β} (hp : Tame P B p) (hk : ∀ r, Calm B r → Tame P B (k r))
    (hb : ∀ e, B e → k (.error e) = done (.error e)) : Tame P B (p.handle k) := by
  induction p with
  | done r => exact hk r hp
  | call o next ih =>
    refine ⟨hp.1, fun e he => ?_, fun x hx => ih x (hp.2.2 x hx)⟩
    change (next (.error e)).handle k = done (.error e)
    rw [hp.2.1 e he]
    exact hb e he

theorem bind {f : α → Program Op Reply ε β} (hp : Tame P B p) (hf : ∀ a, Tame P B (f a)) : Tame P B (p >>= f) :=
  hp.handle (fun
    | .ok a, _ => hf a
    | .error _, he => he) fun _ _ => rfl

theorem ofExcept_bind {r : Except ε α} {f : α → Program Op Reply ε β} (hr : ∀ e, r = .error e → ¬B e)
    (hf : ∀ a, r = .ok a → Tame P B (f a)) : Tame P B (ofExcept r >>= f) := by
  cases r with
  | ok a => exact hf a rfl
  | error e => exact hr e rfl

theorem catching {f : ε → Program Op Reply ε α} (hp : Tame P B p) (hf : ∀ e, ¬B e → Tame P B (f e))
    (hb : ∀ e, B e → f e = done (.error e)) : Tame P B (p.catching f) :=
  hp.handle (fun
    | .ok _, _ => trivial
    | .error e, he => hf e he) hb

theorem ite {q : Program Op Reply ε α} {c : Prop} [Decidable c] (hp : Tame P B p) (hq : Tame P B q) :
    Tame P B (if c then p else q) := by
  by_cases hc : c
  · rwa [if_pos hc]
  · rwa [if_neg hc]

theorem each {body : β → Program Op Reply ε Unit} {l : List β} (hb : ∀ b ∈ l, Tame P B (body b)) :
    Tame P B (each body l) := by
  induction l with
  | nil => trivial
  | cons b l ih =>
    exact (hb b (List.mem_cons_self ..)).bind fun _ => ih fun c hc => hb c (List.mem_cons_of_mem _ hc)

/-- A tame program goes on as long as nothing of `B` is raised, and ends with it once it is. -/
theorem meets {S L : History Op Reply ε τ → Prop} (hp : Tame P B p) (hg : ∀ h o, P o → G h o)
    (hs : ∀ h e, S h → P e.op → Calm B e.reply → S (e :: h))
    (hl : ∀ h o e t, S h → P o → B e → L (⟨o, .error e, t⟩ :: h)) (hh : S h) :
    Meets A G (fun h r => (S h ∧ Calm B r) ∨ (L h ∧ ¬Calm B r)) p h := by
  classical
  induction p generalizing h with
  | done r => exact .inl ⟨hh, hp⟩
  | call o next ih =>
    refine ⟨hg h o hp.1, fun x t _ => ?_⟩
    by_cases hx : Calm B x
    · exact ih x (hp.2.2 x hx) (hs h ⟨o, x, t⟩ hh hp.1 hx)
    · cases x with
      | ok _ => exact absurd trivial hx
      | error e =>
        have he : B e := not_not.mp hx
        rw [hp.2.1 e he]
        exact .inr ⟨hl h o e t hh hp.1 he, hx⟩

/-- Where the history does not matter, the operations do. -/
theorem guarantee (hp : Tame P B p) (hg : ∀ h o, P o → G h o) : Meets A G (fun _ _ => True) p h :=
  (hp.meets hg (S := fun _ => True) (L := fun _ => True) (fun _ _ _ _ _ => trivial) (fun _ _ _ _ _ _ _ => trivial)
    trivial).mono fun _ _ _ => trivial

theorem bind_meets {f : α → Program Op Reply ε β} {Q : History Op Reply ε τ → Except ε β → Prop} (hp : Tame P B p)
    (hg : ∀ h o, P o → G h o) (hf : ∀ a h, Meets A G Q (f a) h) (hq : ∀ h e, Q h (.error e)) :
    Meets A G Q (p >>= f) h :=
  meets_bind.mpr ((hp.guarantee hg).mono fun h r _ => match r with
    | .ok a => hf a h
    | .error e => hq h e)

end Tame

def Gives (R : α → Prop) : Program Op Reply ε α → Prop
  | done r => ∀ a, r = .ok a → R a
  | call _ next => ∀ x, Gives R (next x)

theorem gives_bind {R : β → Prop} {f : α → Program Op Reply ε β} (hf : ∀ a, Gives R (f a)) : Gives R (p >>= f) := by
  induction p with
  | done r =>
    cases r with
    | ok a => exact hf a
    | error e => exact fun _ h => by cases h
  | call o next ih => exact ih

theorem gives_ite {R : α → Prop} {q : Program Op Reply ε α} {c : Prop} [Decidable c] (hp : Gives R p) (hq : Gives R q) :
    Gives R (if c then p else q) := by
  by_cases hc : c
  · rwa [if_pos hc]
  · rwa [if_neg hc]

theorem Gives.bind {R : α → Prop} {R' : β → Prop} {f : α → Program Op Reply ε β} (hr : Gives R p)
    (hf : ∀ a, R a → Gives R' (f a)) : Gives R' (p >>= f) := by
  induction p with
  | done r =>
    cases r with
    | ok a => exact hf a (hr a rfl)
    | error e => exact fun _ h => by cases h
  | call o next ih => exact fun x => ih x (hr x)

theorem Gives.catching {R : α → Prop} {f : ε → Program Op Reply ε α} (hr : Gives R p) (hf : ∀ e, Gives R (f e)) :
    Gives R (p.catching f) := by
  induction p with
  | done r =>
    cases r with
    | ok a => exact hr
    | error e => exact hf e
  | call o next ih => exact fun x => ih x (hr x)

theorem Gives.tame_bind {P : Op → Prop} {B : ε → Prop} {R : α → Prop} {f : α → Program Op Reply ε β} (hr : Gives R p)
    (hp : Tame P B p) (hf : ∀ a, R a → Tame P B (f a)) : Tame P B (p >>= f) := by
  induction p with
  | done r =>
    cases r with
    | ok a => exact hf a (hr a rfl)
    | error e => exact hp
  | call o next ih =>
    refine ⟨hp.1, fun e he => ?_, fun x hx => ih x (hr x) (hp.2.2 x hx)⟩
    change next (.error e) >>= f = done (.error e)
    rw [hp.2.1 e he]
    rfl

theorem Gives.meets {R : α → Prop} (hr : Gives R p) (hp : Meets A G Q p h) :
    Meets A G (fun h r => Q h r ∧ ∀ a, r = .ok a → R a) p h := by
  induction p generalizing h with
  | done r => exact ⟨hp, hr⟩
  | call o next ih => exact ⟨hp.1, fun x t ha => ih x (hr x) (hp.2 x t ha)⟩

end

/-! ## Runs -/

theorem Meets.runs (hp : Meets A G Q p h) {r : Except ε α} (hr : Runs A p h h' r) : Q h' r := by
  induction hr with
  | done => exact hp
  | call allowed _ ih => exact ih (hp.2 _ _ allowed)

theorem Runs.suffix {r : Except ε α} (hr : Runs A p h h' r) : h <:+ h' := by
  induction hr with
  | done => exact List.suffix_rfl
  | call _ _ ih => exact (List.suffix_cons ..).trans ih

theorem Runs.perform {o : Op} {x : Except ε (Reply o)} {t : τ} (ha : A h ⟨o, x, t⟩) :
    Runs A (perform o) h (⟨o, x, t⟩ :: h) x := .call ha .done

theorem Runs.handle {k : Except ε α → Program Op Reply ε β} {h₁ : History Op Reply ε τ} {r : Except ε α}
    {r' : Except ε β} (hp : Runs A p h h₁ r) (hk : Runs A (k r) h₁ h' r') : Runs A (p.handle k) h h' r' := by
  induction hp with
  | done => exact hk
  | call allowed _ ih => exact .call allowed (ih hk)

/-- A run of a handled program is a run of the program and one of the handler. -/
theorem Runs.of_handle {k : Except ε α → Program Op Reply ε β} {r' : Except ε β} (hr : Runs A (p.handle k) h h' r') :
    ∃ h₁ r, Runs A p h h₁ r ∧ Runs A (k r) h₁ h' r' := by
  induction p generalizing h with
  | done r => exact ⟨h, r, .done, hr⟩
  | call o next ih =>
    cases hr with
    | call allowed rest =>
      obtain ⟨h₁, r, hp, hk⟩ := ih _ rest
      exact ⟨h₁, r, .call allowed hp, hk⟩

theorem Runs.of_bind {f : α → Program Op Reply ε β} {b : β} (hr : Runs A (p >>= f) h h' (.ok b)) :
    ∃ h₁ a, Runs A p h h₁ (.ok a) ∧ Runs A (f a) h₁ h' (.ok b) := by
  obtain ⟨h₁, r, hp, hk⟩ := Runs.of_handle hr
  cases r with
  | ok a => exact ⟨h₁, a, hp, hk⟩
  | error e => cases hk

theorem Runs.of_ofExcept_bind {x : Except ε α} {f : α → Program Op Reply ε β} {b : β}
    (hr : Runs A (ofExcept x >>= f) h h' (.ok b)) : ∃ a, x = .ok a ∧ Runs A (f a) h h' (.ok b) := by
  cases x with
  | ok a => exact ⟨a, rfl, hr⟩
  | error e => cases hr

theorem Runs.bind {f : α → Program Op Reply ε β} {h₁ : History Op Reply ε τ} {a : α} {r : Except ε β}
    (hp : Runs A p h h₁ (.ok a)) (hf : Runs A (f a) h₁ h' r) : Runs A (p >>= f) h h' r := hp.handle hf

theorem Runs.catching {f : ε → Program Op Reply ε α} {a : α} (hp : Runs A p h h' (.ok a)) :
    Runs A (p.catching f) h h' (.ok a) := hp.handle .done

theorem Runs.caught {f : ε → Program Op Reply ε α} {h₁ : History Op Reply ε τ} {e : ε} {r : Except ε α}
    (hp : Runs A p h h₁ (.error e)) (hf : Runs A (f e) h₁ h' r) : Runs A (p.catching f) h h' r := hp.handle hf

def answered (f : History Op Reply ε Unit → (o : Op) → Except ε (Reply o)) :
    Program Op Reply ε α → History Op Reply ε Unit → History Op Reply ε Unit × Except ε α
  | .done r, h => (h, r)
  | .call o next, h => answered f (next (f h o)) (⟨o, f h o, ()⟩ :: h)

theorem runs_answered {A : History Op Reply ε Unit → Entry Op Reply ε Unit → Prop}
    {f : History Op Reply ε Unit → (o : Op) → Except ε (Reply o)} (hA : ∀ h o, A h ⟨o, f h o, ()⟩)
    (p : Program Op Reply ε α) (h : History Op Reply ε Unit) : Runs A p h (answered f p h).1 (answered f p h).2 := by
  induction p generalizing h with
  | done r => exact .done
  | call o next ih => exact .call (hA h o) (ih _ _)

/-- Where some reply is allowed to every operation, every program runs to its end. -/
theorem exists_runs (hA : ∀ h o, ∃ x t, A h ⟨o, x, t⟩) (p : Program Op Reply ε α) (h : History Op Reply ε τ) :
    ∃ h' r, Runs A p h h' r := by
  induction p generalizing h with
  | done r => exact ⟨h, r, .done⟩
  | call o next ih =>
    obtain ⟨x, t, ha⟩ := hA h o
    obtain ⟨h', r, hr⟩ := ih x (⟨o, x, t⟩ :: h)
    exact ⟨h', r, .call ha hr⟩

/-- Every entry of a run was guaranteed and allowed by the history before it. -/
theorem Meets.entries (hp : Meets A G Q p h) {r : Except ε α} (hr : Runs A p h h' r)
    (hh : ∀ e h₁, e :: h₁ <:+ h → G h₁ e.op ∧ A h₁ e) : ∀ e h₁, e :: h₁ <:+ h' → G h₁ e.op ∧ A h₁ e := by
  induction hr with
  | done => exact hh
  | call allowed _ ih =>
    refine ih (hp.2 _ _ allowed) fun e h₁ hs => ?_
    rcases List.suffix_cons_iff.mp hs with heq | hs
    · cases heq
      exact ⟨hp.1, allowed⟩
    · exact hh e h₁ hs

theorem Runs.allowed {B : Entry Op Reply ε τ → Prop} {r : Except ε α} (hr : Runs (fun _ => B) p h h' r)
    (hh : ∀ e ∈ h, B e) : ∀ e ∈ h', B e := by
  induction hr with
  | done => exact hh
  | call allowed _ ih => exact ih (List.forall_mem_cons.mpr ⟨allowed, hh⟩)

end

end Program

end AdmissionScheduler
