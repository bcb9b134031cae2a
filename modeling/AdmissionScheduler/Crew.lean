import AdmissionScheduler.Machine
import AdmissionScheduler.Program
import Mathlib.Logic.Function.Basic

/-!
# Programs side by side

A crew is any number of programs that work on one log. A step starts a program,
answers the operation that one of them waits for, or adds an event from outside;
the order of the steps is left open. Every reply is stamped with the log as it
stood then, so that what a program has seen can be compared with what happened
in the meantime.
-/

namespace AdmissionScheduler

open Program

structure Crew (Op : Type) (Reply : Op → Type) (ε ι J α E : Type) where
  program : J → Program Op Reply ε Unit
  /-- What comes back to party `i` at work on `j`, and the events it causes, the newest first. -/
  serve : List E → ι → J → (o : Op) → α → Option (Except ε (Reply o) × List E)
  /-- The events that may come from outside. -/
  outside : List E → E → Bool

namespace Crew

structure Party (Op : Type) (Reply : Op → Type) (ε J E : Type) where
  job : J
  rest : Program Op Reply ε Unit
  seen : History Op Reply ε (List E)

structure State (Op : Type) (Reply : Op → Type) (ε ι J E : Type) where
  log : List E
  party : ι → Option (Party Op Reply ε J E)

inductive Act (ι J α E : Type) where
  | start (i : ι) (j : J)
  | answer (i : ι) (x : α)
  | event (e : E)

section
variable {Op : Type} {Reply : Op → Type} {ε ι J α E : Type} [DecidableEq ι]

def step (C : Crew Op Reply ε ι J α E) (s : State Op Reply ε ι J E) : Act ι J α E → Option (State Op Reply ε ι J E)
  | .start i j =>
    match s.party i with
    | none => some { s with party := Function.update s.party i (some ⟨j, C.program j, []⟩) }
    | some _ => none
  | .answer i x =>
    match s.party i with
    | some ⟨j, .call o next, h⟩ => (C.serve s.log i j o x).map fun (r, l) =>
      { log := l ++ s.log, party := Function.update s.party i (some ⟨j, next r, ⟨o, r, l ++ s.log⟩ :: h⟩) }
    | _ => none
  | .event e => if C.outside s.log e then some { s with log := e :: s.log } else none

def machine (C : Crew Op Reply ε ι J α E) : Machine (State Op Reply ε ι J E) (Act ι J α E) where
  init := ⟨[], fun _ => none⟩
  step := C.step

variable {C : Crew Op Reply ε ι J α E} {s t : State Op Reply ε ι J E} {a : Act ι J α E}
  {ok : State Op Reply ε ι J E → Act ι J α E → Prop}

/-- Party `i` waits for `o`, and `x` is an answer: `r` comes back, and the log grows by `l`. -/
structure Serves (C : Crew Op Reply ε ι J α E) (s : State Op Reply ε ι J E) (i : ι) (x : α) (j : J) (o : Op)
    (next : Except ε (Reply o) → Program Op Reply ε Unit) (h : History Op Reply ε (List E)) (r : Except ε (Reply o))
    (l : List E) : Prop where
  waits : s.party i = some ⟨j, .call o next, h⟩
  served : C.serve s.log i j o x = some (r, l)

theorem step_cases (hs : C.machine.step s a = some t) :
    (∃ i j, a = .start i j ∧ s.party i = none ∧
      t = { s with party := Function.update s.party i (some ⟨j, C.program j, []⟩) }) ∨
    (∃ i x j o next h r l, a = .answer i x ∧ C.Serves s i x j o next h r l ∧
      t = { log := l ++ s.log, party := Function.update s.party i (some ⟨j, next r, ⟨o, r, l ++ s.log⟩ :: h⟩) }) ∨
    ∃ e, a = .event e ∧ C.outside s.log e = true ∧ t = { s with log := e :: s.log } := by
  cases a with
  | start i j =>
    cases hp : s.party i with
    | none =>
      simp only [machine, step, hp, Option.some.injEq] at hs
      exact .inl ⟨i, j, rfl, hp, hs.symm⟩
    | some p =>
      simp only [machine, step, hp] at hs
      cases hs
  | answer i x =>
    simp only [machine, step] at hs
    split at hs
    · rename_i j o next h hp
      obtain ⟨⟨r, l⟩, hr, rfl⟩ := Option.map_eq_some_iff.mp hs
      exact .inr (.inl ⟨i, x, j, o, next, h, r, l, rfl, ⟨hp, hr⟩, rfl⟩)
    · cases hs
  | event e =>
    simp only [machine, step] at hs
    split at hs
    · rename_i he
      exact .inr (.inr ⟨e, rfl, he, (Option.some.inj hs).symm⟩)
    · cases hs

theorem Serves.step_eq {i : ι} {x : α} {j : J} {o : Op} {next : Except ε (Reply o) → Program Op Reply ε Unit}
    {h : History Op Reply ε (List E)} {r : Except ε (Reply o)} {l : List E} (hv : C.Serves s i x j o next h r l) :
    C.machine.step s (.answer i x) =
      some ⟨l ++ s.log, Function.update s.party i (some ⟨j, next r, ⟨o, r, l ++ s.log⟩ :: h⟩)⟩ := by
  simp only [machine, step, hv.waits, hv.served, Option.map_some]

theorem log_grows (hs : C.machine.step s a = some t) : s.log <:+ t.log := by
  obtain ⟨i, j, -, -, rfl⟩ | ⟨i, x, j, o, next, h, r, l, -, -, rfl⟩ | ⟨e, -, -, rfl⟩ := step_cases hs
  · exact List.suffix_rfl
  · exact List.suffix_append ..
  · exact List.suffix_cons ..

/-! ## What a party keeps -/

theorem update_cases {π : Type} {K : ι → π → Prop} {f : ι → Option π} {i' : ι} {q : π}
    (hf : ∀ i p, f i = some p → K i p) (hq : K i' q) : ∀ i p, Function.update f i' (some q) i = some p → K i p := by
  intro i p hp
  by_cases hi : i = i'
  · subst hi
    rw [Function.update_self, Option.some.injEq] at hp
    exact hp ▸ hq
  · rw [Function.update_of_ne hi] at hp
    exact hf i p hp

/-- A property of parties holds of all of them when starting one and answering one establish it. -/
theorem parties {K : List E → Party Op Reply ε J E → Prop} (hstart : ∀ w j, K w ⟨j, C.program j, []⟩)
    (hanswer : ∀ s i x j o next h r l, C.machine.Reach ok s → ok s (.answer i x) → C.Serves s i x j o next h r l →
      K s.log ⟨j, .call o next, h⟩ → K (l ++ s.log) ⟨j, next r, ⟨o, r, l ++ s.log⟩ :: h⟩)
    (hlog : ∀ w w' p, w <:+ w' → K w p → K w' p) (hs : C.machine.Reach ok s) :
    ∀ i p, s.party i = some p → K s.log p := by
  refine hs.invariant (I := fun s => ∀ i p, s.party i = some p → K s.log p) (fun _ _ h => by cases h) ?_
  intro s a t hr ih hok hs
  have hold : ∀ i p, s.party i = some p → K t.log p := fun i p hp => hlog _ _ p (log_grows hs) (ih i p hp)
  obtain ⟨i', j, -, -, rfl⟩ | ⟨i', x, j, o, next, h, r, l, rfl, hv, rfl⟩ | ⟨e, -, -, rfl⟩ := step_cases hs
  · exact update_cases (K := fun _ p => K s.log p) hold (hstart _ j)
  · exact update_cases (K := fun _ p => K (l ++ s.log) p) hold (hanswer s i' x j o next h r l hr hok hv (ih i' _ hv.waits))
  · exact hold

/-- What every entry satisfies as it is added. -/
theorem entries {K : J → History Op Reply ε (List E) → Entry Op Reply ε (List E) → Prop}
    (hk : ∀ s i x j o next h r l, C.machine.Reach ok s → ok s (.answer i x) → C.Serves s i x j o next h r l →
      K j h ⟨o, r, l ++ s.log⟩) (hs : C.machine.Reach ok s) :
    ∀ i p, s.party i = some p → ∀ e h, e :: h <:+ p.seen → K p.job h e := by
  refine parties (K := fun _ p => ∀ e h, e :: h <:+ p.seen → K p.job h e) ?_ ?_ (fun _ _ _ _ => id) hs
  · intro w j e h hs
    exact absurd hs.length_le (by simp)
  · intro s i x j o next h r l hr hok hv ih e h' hs
    rcases List.suffix_cons_iff.mp hs with heq | hs
    · cases heq
      exact hk s i x j o next h r l hr hok hv
    · exact ih e h' hs

/-- No entry is from the future. -/
theorem stamps (hs : C.machine.Reach ok s) : ∀ i p, s.party i = some p → ∀ e ∈ p.seen, e.stamp <:+ s.log := by
  refine parties (K := fun w p => ∀ e ∈ p.seen, e.stamp <:+ w) ?_ ?_ ?_ hs
  · exact fun _ _ _ he => absurd he List.not_mem_nil
  · intro s i x j o next h r l _ _ _ ih
    exact List.forall_mem_cons.mpr ⟨List.suffix_rfl, fun e he => (ih e he).trans (List.suffix_append ..)⟩
  · exact fun w w' p hl hk e he => (hk e he).trans hl

/-- Entries are in the order of their stamps. -/
theorem sorted (hs : C.machine.Reach ok s) : ∀ i p, s.party i = some p →
    ∀ e h, e :: h <:+ p.seen → ∀ e' ∈ h, e'.stamp <:+ e.stamp := by
  refine entries (K := fun _ h e => ∀ e' ∈ h, e'.stamp <:+ e.stamp) ?_ hs
  intro s i x j o next h r l hr _ hv e' he
  exact (stamps hr i _ hv.waits e' he).trans (List.suffix_append ..)

def State.ended (s : State Op Reply ε ι J E) (i : ι) : Option (J × Except ε Unit × History Op Reply ε (List E)) :=
  match s.party i with
  | some ⟨j, .done r, h⟩ => some (j, r, h)
  | _ => none

omit [DecidableEq ι] in
theorem State.party_of_ended {i : ι} {j : J} {r : Except ε Unit} {h : History Op Reply ε (List E)}
    (he : s.ended i = some (j, r, h)) : s.party i = some ⟨j, .done r, h⟩ := by
  unfold ended at he
  split at he
  · rename_i hp
    cases he
    exact hp
  · cases he

variable {V : Entry Op Reply ε (List E) → Prop} {G : History Op Reply ε (List E) → Op → Prop} {j : J}

theorem meets (hv : ∀ w i j o x r l, C.serve w i j o x = some (r, l) → V ⟨o, r, l ++ w⟩)
    (hp : Meets (fun _ => V) G (fun _ _ => True) (C.program j) []) (hs : C.machine.Reach ok s) :
    ∀ i p, s.party i = some p → p.job = j → Meets (fun _ => V) G (fun _ _ => True) p.rest p.seen := by
  refine parties (K := fun _ p => p.job = j → Meets (fun _ => V) G (fun _ _ => True) p.rest p.seen)
    ?_ ?_ (fun _ _ _ _ => id) hs
  · rintro w _ rfl
    exact hp
  intro s i x j' o next h r l _ _ hserves hm hj
  exact (hm hj).2 r _ (hv _ _ _ _ _ _ _ hserves.served)

theorem results {Q : J → History Op Reply ε (List E) → Except ε Unit → Prop}
    (hp : ∀ j, Meets (fun _ _ => True) (fun _ _ => True) (Q j) (C.program j) []) (hs : C.machine.Reach ok s) {i : ι}
    {h : History Op Reply ε (List E)} {r : Except ε Unit} (hi : s.party i = some ⟨j, .done r, h⟩) : Q j h r := by
  refine parties (K := fun _ p => Meets (fun _ _ => True) (fun _ _ => True) (Q p.job) p.rest p.seen) ?_ ?_
    (fun _ _ _ _ => id) hs i ⟨j, .done r, h⟩ hi
  · exact fun w j => hp j
  · intro s i x j o next h r l _ _ _ hm
    exact hm.2 r _ trivial

theorem guarantee (hv : ∀ w i j o x r l, C.serve w i j o x = some (r, l) → V ⟨o, r, l ++ w⟩)
    (hp : Meets (fun _ => V) G (fun _ _ => True) (C.program j) []) (hs : C.machine.Reach ok s) {i : ι} {x : α} {o : Op}
    {next : Except ε (Reply o) → Program Op Reply ε Unit} {h : History Op Reply ε (List E)} {r : Except ε (Reply o)}
    {l : List E} (hserves : C.Serves s i x j o next h r l) : G h o :=
  (meets hv hp hs i _ hserves.waits rfl).1

theorem valid (hv : ∀ w i j o x r l, C.serve w i j o x = some (r, l) → V ⟨o, r, l ++ w⟩) (hs : C.machine.Reach ok s) :
    ∀ i p, s.party i = some p → ∀ e ∈ p.seen, V e := by
  have hall := entries (K := fun _ _ e => V e) (fun s i x j o next h r l _ _ h' => hv _ _ _ _ _ _ _ h'.served) hs
  intro i p hp e he
  obtain ⟨l₁, l₂, heq⟩ := List.append_of_mem he
  exact hall i p hp e l₂ (heq ▸ List.suffix_append ..)

end

end Crew

end AdmissionScheduler
