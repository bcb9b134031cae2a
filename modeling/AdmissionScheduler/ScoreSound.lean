import AdmissionScheduler.PrioritySound
import AdmissionScheduler.QueueSound

/-!
# The order in a queue

A call reads the sequence number and the clock once and folds both into the
score of its job, and no later step changes the score. Within a tier the scores
are in the order of the two readings as long as neither remainder has started
again from zero; the tiers keep apart unless the remainders add up to a tier.
-/

namespace AdmissionScheduler

namespace Admit

section
variable {c : AppConfig} {sha256 : String → String} {r r' : Redis} {p : Admit} {a : AdmitAct} {es : List Event}
  {sub : Submission} {j text : String} {x : Double} {ts : Nat}

theorem step_sequencing (h : p.step c sha256 r a = some (r', .sequencing sub j, es)) : a = .name j := by
  cases a with
  | submit sub =>
    simp only [step] at h
    split at h
    · split at h <;> cases h
    · cases h
  | name j => simp only [step] at h; split at h <;> cases h; rfl
  | go =>
    simp only [step, Option.map_eq_some_iff, Prod.mk.injEq] at h
    obtain ⟨⟨p₁, es₁⟩, hr, -, rfl, -⟩ := h
    cases p with
    | lookup | sequencing | enqueueing => simp only [resume] at hr; (repeat' split at hr) <;> cases hr
    | refusing | recording | ranking | sizing | storing => cases hr
    | idle | naming | done | raised => cases hr
  | fail took =>
    simp only [step, Option.map_eq_some_iff, Prod.mk.injEq] at h
    obtain ⟨⟨p₁, es₁⟩, hr, -, rfl, -⟩ := h
    cases p <;> cases hr

theorem step_enqueueing (h : p.step c sha256 r a = some (r', .enqueueing sub j text x ts, es)) :
    p = .sequencing sub j := by
  cases a with
  | submit sub =>
    simp only [step] at h
    split at h
    · split at h <;> cases h
    · cases h
  | name j => simp only [step] at h; split at h <;> cases h
  | fail took =>
    simp only [step, Option.map_eq_some_iff, Prod.mk.injEq] at h
    obtain ⟨⟨p₁, es₁⟩, hr, -, rfl, -⟩ := h
    cases p <;> cases hr
  | go =>
    simp only [step, Option.map_eq_some_iff, Prod.mk.injEq] at h
    obtain ⟨⟨p₁, es₁⟩, hr, -, rfl, -⟩ := h
    cases p with
    | sequencing sub₀ j₀ =>
      simp only [resume] at hr
      split at hr
      · cases hr
      · split at hr <;> cases hr; rfl
    | lookup | enqueueing => simp only [resume] at hr; (repeat' split at hr) <;> cases hr
    | refusing | recording | ranking | sizing | storing => cases hr
    | idle | naming | done | raised => cases hr

end

end Admit

/-! ## The score of a job -/

def nextScore {ι : Type} (d : Deployment ι) (s : State ι) (sub : Submission) : Option Double :=
  (sub.number d.config).bind fun p => p.score s.redis.now (s.redis.seq sub.model + 1)

/-- In `s` the call `k` has named its job; its next step computes the score `x`; `t` comes later. -/
structure Sequenced {ι : Type} [DecidableEq ι] (d : Deployment ι) (s : State ι) (k : Nat) (sub : Submission) (j : String)
    (x : Double) (t : State ι) : Prop where
  reach : (system d).Reach Machine.Any s
  pc : s.admits k = .sequencing sub j
  score : nextScore d s sub = some x
  leads : ∃ u, step d s (.admission k .go) = some u ∧ (system d).Leads Machine.Any u t

structure Scored {ι : Type} (j : String) (x : Double) (s : State ι) : Prop where
  queue : ∀ m y, (y, j) ∈ (s.redis.queue m).entries → y = x
  call : ∀ k sub text y ts, s.admits k = .enqueueing sub j text y ts → y = x
  named : ∀ k sub, s.admits k ≠ .sequencing sub j
  issued : j ∈ s.issued

section
variable {ι : Type} [DecidableEq ι] {d : Deployment ι} {s s' t : State ι} {a : Action ι} {k : Nat} {sub : Submission}
  {j : String} {x : Double}

theorem scored_step (hx : Scored j x s) (h : step d s a = some s') : Scored j x s' where
  queue m y hy := by
    rcases queue_entry_of_step h hy with hy | ⟨k, b, sub, text, ts, -, pc⟩
    · exact hx.queue m y hy
    · exact hx.call k sub text y ts pc
  call k sub text y ts hk := by
    rcases admit_of_step h k with hs | ⟨b, es, -, hs, -⟩
    · exact hx.call k sub text y ts (hs ▸ hk)
    · rw [hk] at hs
      exact absurd (Admit.step_enqueueing hs) (hx.named k sub)
  named k sub hk := by
    rcases admit_of_step h k with hs | ⟨b, es, rfl, hs, -⟩
    · exact hx.named k sub (hs ▸ hk)
    · rw [hk] at hs
      cases Admit.step_sequencing hs
      simp only [step, Option.ite_none_right_eq_some] at h
      exact h.1 j (List.mem_singleton_self j) hx.issued
  issued := issued_of_step h hx.issued

theorem Sequenced.after (h : Sequenced d s k sub j x t) : ∃ u text, (system d).Leads Machine.Any u t ∧
    u.admits = Function.update s.admits k (.enqueueing sub j text x s.redis.now) ∧ u.redis.queue = s.redis.queue ∧
      u.issued = s.issued := by
  obtain ⟨p, hp, hs⟩ := Option.bind_eq_some_iff.mp h.score
  obtain ⟨u, hu, hl⟩ := h.leads
  simp only [step, AdmitAct.issues, h.pc, Admit.step, Admit.resume, hp, hs, Option.map_some, List.not_mem_nil,
    false_implies, implies_true, if_true, Option.some.injEq] at hu
  subst hu
  exact ⟨_, _, hl, rfl, rfl, rfl⟩

theorem Sequenced.scored (h : Sequenced d s k sub j x t) : Scored j x t := by
  obtain ⟨u, text, hl, admits, queue, issued⟩ := h.after
  have life := life h.reach
  have mine : (s.admits k).unborn = some j := by rw [h.pc]; rfl
  have only : ∀ l, (s.admits l).unborn = some j → l = k := fun l hl => life.distinct l k j hl mine
  refine hl.invariant (I := Scored j x) ⟨fun m y hy => ?_, fun l sub' text' y ts hl => ?_, fun l sub' hl => ?_, ?_⟩
    fun _ _ _ _ hx _ hs => scored_step hx hs
  · rw [queue] at hy
    have : j ∈ s.redis.queue m := (SortedSet.mem_iff _).mpr ⟨y, hy⟩
    rw [life.queue, (life.unborn k j mine).2] at this; cases this
  · rw [admits] at hl
    by_cases hk : l = k
    · subst hk; rw [Function.update_self] at hl; cases hl; rfl
    · rw [Function.update_of_ne hk] at hl
      exact absurd (only l (by rw [hl]; rfl)) hk
  · rw [admits] at hl
    by_cases hk : l = k
    · subst hk; rw [Function.update_self] at hl; cases hl
    · rw [Function.update_of_ne hk] at hl
      exact hk (only l (by rw [hl]; rfl))
  · rw [issued]; exact (life.unborn k j mine).1

theorem Sequenced.entry (h : Sequenced d s k sub j x t) {m : String} (hj : j ∈ t.redis.queue m) :
    (x, j) ∈ (t.redis.queue m).entries := by
  obtain ⟨y, hy⟩ := (SortedSet.mem_iff _).mp hj
  exact h.scored.queue m y hy ▸ hy

/-- A job that is named later is another one. -/
theorem Sequenced.ne {v : State ι} {l : Nat} {sub' : Submission} {b : String} {y : Double}
    (h : Sequenced d s k sub j x v) (h' : Sequenced d v l sub' b y t) : j ≠ b := fun e =>
  h.scored.named l sub' (e ▸ h'.pc)

theorem Sequenced.trans {u : State ι} (h : Sequenced d s k sub j x t) (hl : (system d).Leads Machine.Any t u) :
    Sequenced d s k sub j x u := by
  obtain ⟨v, hv, ht⟩ := h.leads
  exact { h with leads := ⟨v, hv, ht.trans hl⟩ }

theorem Sequenced.later {v : State ι} {l : Nat} {sub' : Submission} {b : String} {y : Double}
    (h : Sequenced d s k sub j x v) (h' : Sequenced d v l sub' b y t) : Sequenced d s k sub j x t := by
  obtain ⟨u, hu, hl⟩ := h'.leads
  have next : (system d).step v (.admission l .go) = some u := hu
  exact h.trans ((Machine.Leads.refl.step trivial next).trans hl)

theorem Sequenced.score_eq {p : PyNum} (h : Sequenced d s k sub j x t) (hp : sub.number d.config = some p) :
    p.score s.redis.now (s.redis.seq sub.model + 1) = some x := by
  have hs := h.score
  rwa [nextScore, hp] at hs

/-- Two calls of a computed run, of which the second computes its score after the first is through. -/
theorem sequenced_pair (pre mid next post : List (Action ι)) (k l : Nat) (subA subB : Submission) (a b : String) (x y : Double)
    (P : State ι → Prop) [DecidablePred P]
    (h : ((system d).exec Machine.Any (initState d) pre).any (fun s =>
      decide (s.admits k = .sequencing subA a ∧ nextScore d s subA = some x) &&
      ((system d).exec Machine.Any s (.admission k .go :: mid)).any fun e =>
        decide (e.admits k = .done subA (.queued a 0) ∧ e.admits l = .idle) &&
        ((system d).exec Machine.Any e next).any fun v =>
          decide (v.admits l = .sequencing subB b ∧ nextScore d v subB = some y) &&
          ((system d).exec Machine.Any v (.admission l .go :: post)).any fun w => decide (P w)) = true) :
    ∃ s e v w, Sequenced d s k subA a x e ∧ e.admits k = .done subA (.queued a 0) ∧ e.admits l = .idle ∧
      (system d).Leads Machine.Any e v ∧ Sequenced d v l subB b y w ∧ P w := by
  have some_of_any : ∀ {o : Option (State ι)} {Q : State ι → Bool}, o.any Q = true → ∃ s, o = some s ∧ Q s = true :=
    fun {o _} h => by cases o with
      | none => cases h
      | some s => exact ⟨s, rfl, h⟩
  have first : ∀ {s t : State ι} {k : Nat} {l : List (Action ι)},
      (system d).exec Machine.Any s (.admission k .go :: l) = some t →
      ∃ u, step d s (.admission k .go) = some u ∧ (system d).Leads Machine.Any u t := fun h => by
    simp only [Machine.exec, Machine.Any] at h
    obtain ⟨u, hu, ht⟩ := Option.bind_eq_some_iff.mp h
    exact ⟨u, hu, Machine.leads_of_exec ht⟩
  obtain ⟨s, hs, h⟩ := some_of_any h
  obtain ⟨hA, h⟩ := Bool.and_eq_true_iff.mp h
  obtain ⟨e, he, h⟩ := some_of_any h
  obtain ⟨through, h⟩ := Bool.and_eq_true_iff.mp h
  obtain ⟨v, hv, h⟩ := some_of_any h
  obtain ⟨hB, h⟩ := Bool.and_eq_true_iff.mp h
  obtain ⟨w, hw, h⟩ := some_of_any h
  have hA := of_decide_eq_true hA
  have hB := of_decide_eq_true hB
  have through := of_decide_eq_true through
  have reach : (system d).Reach Machine.Any s := Machine.leads_of_exec hs
  have hl : (system d).Leads Machine.Any e v := Machine.leads_of_exec hv
  exact ⟨s, e, v, w, ⟨reach, hA.1, hA.2, first he⟩, through.1, through.2, hl,
    ⟨reach.leads ((Machine.leads_of_exec he).trans hl), hB.1, hB.2, first hw⟩, of_decide_eq_true h⟩

theorem Redis.firstQueued_ne {r : Redis} {m a b : String} (h : (r.queue m).Ahead a b) : r.firstQueued m ≠ some b := by
  intro hb
  obtain ⟨⟨x, c, q⟩, hp, rfl⟩ := Option.map_eq_some_iff.mp hb
  exact SortedSet.popMin_ne_of_ahead h hp rfl

end

/-! ## Sums -/

def tierOffset (now seq : Nat) : Nat := now % priorityMultiplier + seq % 1000

theorem tierOffset_lt (now seq : Nat) : tierOffset now seq < priorityMultiplier + 999 := by
  have := Nat.mod_lt now (show 0 < priorityMultiplier by decide)
  have := Nat.mod_lt seq (show 0 < 1000 by decide)
  unfold tierOffset; omega

/-- The priorities that Python adds up exactly. -/
def PyNum.integral : PyNum → Option Int
  | .int n => some n
  | .bool b => some (if b then 1 else 0)
  | .float _ => none

theorem PyNum.score_integral {p : PyNum} {n : Int} (h : p.integral = some n) (now seq : Nat) :
    p.score now seq = floatOfInt (n * priorityMultiplier + tierOffset now seq) := by
  have assoc : ∀ m : Int, m * priorityMultiplier + (now % priorityMultiplier : Nat) + (seq % 1000 : Nat) =
      m * priorityMultiplier + tierOffset now seq := fun m => by rw [tierOffset, Int.natCast_add]; omega
  cases p with
  | float x => cases h
  | int m | bool b => cases h; rw [← assoc]; rfl

theorem floatOfInt_mono {m n : Int} {x y : Double} (hx : floatOfInt m = some x) (hy : floatOfInt n = some y)
    (h : m ≤ n) : x ≤ y := by
  obtain ⟨hx, u, rfl⟩ := floatOfInt_eq hx
  obtain ⟨hy, v, rfl⟩ := floatOfInt_eq hy
  exact Double.finite_le_finite.mpr (Double.ofInt_mono h hx hy)

theorem floatOfInt_lt {m n : Int} {x y : Double} (hx : floatOfInt m = some x) (hy : floatOfInt n = some y) :
    x < y ↔ m < n ∧ Double.ofInt m ≠ Double.ofInt n := by
  rw [(floatOfInt_eq hx).1, (floatOfInt_eq hy).1]
  constructor
  · intro h
    refine ⟨Int.not_le.mp fun hle => ?_, h.ne⟩
    exact absurd (floatOfInt_mono hy hx hle) (not_le.mpr h)
  · rintro ⟨h, hne⟩
    exact lt_of_le_of_ne (floatOfInt_mono hx hy h.le) hne

/-! ## First in, first out -/

/-- The double for a place in a tier. -/
def tierSum (tier : Int) (offset : Nat) : Double := .ofInt (tier * priorityMultiplier + offset)

/-- The order of the scores of `a` and `b`, both in one tier, for the given offsets. Equal sums are in the
order of the ids, also where two sums are rounded to the same double. -/
def InTier (tier : Int) (a b : String) (offsetA offsetB : Nat) : Prop :=
  offsetA < offsetB ∧ tierSum tier offsetA ≠ tierSum tier offsetB ∨
    tierSum tier offsetA = tierSum tier offsetB ∧ a < b

/-- In the tiers that doubles hold exactly only the offsets count. -/
theorem inTier_exact {tier : Int} {a b : String} {offsetA offsetB : Nat} (h : tier.natAbs ≤ 9000)
    (hA : offsetA < priorityMultiplier + 999) (hB : offsetB < priorityMultiplier + 999) :
    InTier tier a b offsetA offsetB ↔ offsetA < offsetB ∨ offsetA = offsetB ∧ a < b := by
  have bound : ∀ {off : Nat}, off < priorityMultiplier + 999 → (tier * priorityMultiplier + off).natAbs < 2 ^ 53 :=
    fun ho => by simp only [priorityMultiplier] at ho ⊢; omega
  have same : tierSum tier offsetA = tierSum tier offsetB ↔ offsetA = offsetB := by
    constructor
    · intro he
      have := Double.ofInt_injective (bound hA) (bound hB) he
      omega
    · exact fun he => he ▸ rfl
  rw [InTier, Ne, same]
  constructor
  · exact Or.imp And.left id
  · exact Or.imp (fun h => ⟨h, h.ne⟩) id

/-- While neither the clock's remainder nor the counter's starts again, later readings are greater. -/
theorem tierOffset_mono {nowA nowB seqA seqB : Nat} (clock : nowA / priorityMultiplier = nowB / priorityMultiplier)
    (now : nowA ≤ nowB) (count : seqA / 1000 = seqB / 1000) (seq : seqA < seqB) :
    tierOffset nowA seqA < tierOffset nowB seqB := by
  unfold tierOffset
  simp only [priorityMultiplier] at clock ⊢
  omega

def floatSum (x : PyFloat) (now seq : Nat) : Double :=
  ((x.toDouble.mul (.ofInt priorityMultiplier)).add (.ofInt (now % priorityMultiplier : Nat))).add
    (.ofInt (seq % 1000 : Nat))

/-- The order of two jobs of one priority, in terms of what their calls read. -/
def PyNum.InOrder (p : PyNum) (a b : String) (nowA seqA nowB seqB : Nat) : Prop :=
  match p with
  | .int n => InTier n a b (tierOffset nowA seqA) (tierOffset nowB seqB)
  | .bool v => InTier (if v then 1 else 0) a b (tierOffset nowA seqA) (tierOffset nowB seqB)
  | .float x => floatSum x nowA seqA < floatSum x nowB seqB ∨ floatSum x nowA seqA = floatSum x nowB seqB ∧ a < b

theorem inTier_iff {tier : Int} {a b : String} {k l : Nat} {x y : Double}
    (hx : floatOfInt (tier * priorityMultiplier + k) = some x) (hy : floatOfInt (tier * priorityMultiplier + l) = some y) :
    (x < y ∨ x = y ∧ a < b) ↔ InTier tier a b k l := by
  rw [floatOfInt_lt hx hy, Int.add_lt_add_iff_left, Int.ofNat_lt, InTier, tierSum, tierSum, (floatOfInt_eq hx).1,
    (floatOfInt_eq hy).1]

theorem PyNum.inOrder_iff {p : PyNum} {a b : String} {nowA seqA nowB seqB : Nat} {x y : Double}
    (hx : p.score nowA seqA = some x) (hy : p.score nowB seqB = some y) :
    (x < y ∨ x = y ∧ a < b) ↔ p.InOrder a b nowA seqA nowB seqB := by
  cases p with
  | int n =>
    rw [score_integral rfl] at hx hy
    exact inTier_iff hx hy
  | bool v =>
    rw [score_integral rfl] at hx hy
    exact inTier_iff hx hy
  | float z =>
    cases hx; cases hy
    exact Iff.rfl

section
variable {ι : Type} [DecidableEq ι] {d : Deployment ι} {s v w : State ι} {k l : Nat} {subA subB : Submission}
  {a b : String} {x y : Double}

/-- Call `k` reads the counter and the clock before call `l` does, for the same model with the same
priority. The score of its job is before the other's, and it is popped first, exactly when the remainders
of the readings add up in that order and are not rounded together, or are and the ids are in that order. -/
theorem fifo_iff {p : PyNum} (hA : Sequenced d s k subA a x v) (hB : Sequenced d v l subB b y w)
    (model : subB.model = subA.model) (numA : subA.number d.config = some p) (numB : subB.number d.config = some p) :
    ((x < y ∨ x = y ∧ a < b) ↔ p.InOrder a b s.redis.now (s.redis.seq subA.model + 1) v.redis.now
      (v.redis.seq subA.model + 1)) ∧
    (a ∈ w.redis.queue subA.model → b ∈ w.redis.queue subA.model →
      ∀ j, w.redis.firstQueued subA.model = some j → j = a ∨ j = b →
        (j = a ↔ p.InOrder a b s.redis.now (s.redis.seq subA.model + 1) v.redis.now (v.redis.seq subA.model + 1))) := by
  have hx := hA.score_eq numA
  have hy := hB.score_eq numB
  rw [model] at hy
  have order := PyNum.inOrder_iff (a := a) (b := b) hx hy
  refine ⟨order, fun ha hb j hj hab => ?_⟩
  have ea := (hA.later hB).entry ha
  have eb := hB.entry hb
  have ne : a ≠ b := hA.ne hB
  rw [← order]
  constructor
  · rintro rfl
    by_contra hn
    refine Redis.firstQueued_ne ⟨y, x, eb, ea, ?_⟩ hj
    rcases lt_trichotomy x y with h | h | h
    · exact absurd (.inl h) hn
    · exact .inr ⟨h.symm, lt_of_le_of_ne (not_lt.mp fun hlt => hn (.inr ⟨h, hlt⟩)) ne.symm⟩
    · exact .inl h
  · intro h
    rcases hab with rfl | rfl
    · rfl
    · exact absurd hj (Redis.firstQueued_ne ⟨x, y, ea, eb, h⟩)

end

def sequenceFirst (δ : Nat) (sub : Submission) : List (Action (Fin 2)) :=
  [.tick δ, .admission 0 (.submit sub), .admission 0 (.name "a")]

def sequenceNext (δ : Nat) (sub : Submission) : List (Action (Fin 2)) :=
  [.tick δ, .admission 1 (.submit sub), .admission 1 (.name "b")]

/-- The remainder of the clock starts again between two calls, and the later one is served first. -/
theorem fifo_fails : ¬∀ s e v w k l n subA subB a b x y p, Sequenced (twoWorkers 1 (Int.le_refl 1)) s k subA a x e →
    e.admits k = .done subA (.queued a n) → e.admits l = .idle →
    (system (twoWorkers 1 (Int.le_refl 1))).Leads Machine.Any e v →
    Sequenced (twoWorkers 1 (Int.le_refl 1)) v l subB b y w → subB.model = subA.model →
    subA.number (twoWorkers 1 (Int.le_refl 1)).config = some p → subB.number (twoWorkers 1 (Int.le_refl 1)).config = some p →
    (x < y ∨ x = y ∧ a < b) ∧ w.redis.firstQueued subA.model ≠ some b := by
  intro h
  obtain ⟨s, e, v, w, hA, through, idle, hl, hB, first⟩ := sequenced_pair (d := twoWorkers 1 (Int.le_refl 1))
    (sequenceFirst 999999999999 (chatWithPriority (.int 5))) (List.replicate 4 (.admission 0 .go))
    (sequenceNext 1 (chatWithPriority (.int 5))) [.admission 1 .go] 0 1 (chatWithPriority (.int 5))
    (chatWithPriority (.int 5)) "a" "b" (.ofInt 6000000000000) (.ofInt 5000000000002)
    (fun w => w.redis.firstQueued "chat" = some "b") (by decide +kernel)
  exact (h s e v w 0 1 0 _ _ "a" "b" _ _ (.int 5) hA through idle hl hB rfl rfl rfl).2 first

theorem fifo_iff_run : ∃ s v w x y, Sequenced (twoWorkers 1 (Int.le_refl 1)) s 0 (chatWithPriority (.int 5)) "a" x v ∧
    Sequenced (twoWorkers 1 (Int.le_refl 1)) v 1 (chatWithPriority (.int 5)) "b" y w ∧
      w.redis.firstQueued "chat" = some "a" ∧ (PyNum.int 5).InOrder "a" "b" s.redis.now (s.redis.seq "chat" + 1)
        v.redis.now (v.redis.seq "chat" + 1) := by
  obtain ⟨s, e, v, w, hA, -, -, hl, hB, ha, hb, first⟩ := sequenced_pair (d := twoWorkers 1 (Int.le_refl 1))
    (sequenceFirst 7 (chatWithPriority (.int 5))) (List.replicate 4 (.admission 0 .go))
    (sequenceNext 1 (chatWithPriority (.int 5))) [.admission 1 .go] 0 1 (chatWithPriority (.int 5))
    (chatWithPriority (.int 5)) "a" "b" (.ofInt 5000000000008) (.ofInt 5000000000010)
    (fun w => "a" ∈ w.redis.queue "chat" ∧ "b" ∈ w.redis.queue "chat" ∧ w.redis.firstQueued "chat" = some "a")
    (by decide +kernel)
  have order := (fifo_iff (p := .int 5) (hA.trans hl) hB rfl rfl rfl).2 ha hb "a" first (.inl rfl)
  exact ⟨s, v, w, _, _, hA.trans hl, hB, first, order.mp rfl⟩

/-! ## One tier before the next -/

/-- Two tiers keep apart unless they are neighbours and the lesser one's offset reaches over the greater's. -/
def TiersApart (p q : Int) (offsetP offsetQ : Nat) : Prop := q = p + 1 → offsetP < priorityMultiplier + offsetQ

theorem tiersApart_iff {p q : Int} (h : p < q) {k l : Nat} (hk : k < priorityMultiplier + 999) :
    p * priorityMultiplier + k < q * priorityMultiplier + l ↔ TiersApart p q k l := by
  unfold TiersApart
  simp only [priorityMultiplier] at hk ⊢
  omega

section
variable {ι : Type} [DecidableEq ι] {d : Deployment ι} {s v w : State ι} {k l : Nat} {subP subQ : Submission}
  {a b : String} {x y : Double}

/-- For integer priorities `p < q` in `1 .. 9`, whichever call was first and whatever the readings were: the
score of the `p` job is the smaller one exactly when the tiers keep apart, and then the `q` job does not
leave the queue before it. -/
theorem tier_iff {p q : Int} (hP : Sequenced d s k subP a x w) (hQ : Sequenced d v l subQ b y w)
    (numP : subP.number d.config = some (.int p)) (numQ : subQ.number d.config = some (.int q))
    (low : 1 ≤ p) (lt : p < q) (high : q ≤ 9) :
    (x < y ↔ TiersApart p q (tierOffset s.redis.now (s.redis.seq subP.model + 1))
      (tierOffset v.redis.now (v.redis.seq subQ.model + 1))) ∧
    (x < y → ∀ m, a ∈ w.redis.queue m → b ∈ w.redis.queue m → w.redis.firstQueued m ≠ some b) := by
  have hx := hP.score_eq numP
  have hy := hQ.score_eq numQ
  rw [PyNum.score_integral rfl] at hx hy
  have boundP := tierOffset_lt s.redis.now (s.redis.seq subP.model + 1)
  have boundQ := tierOffset_lt v.redis.now (v.redis.seq subQ.model + 1)
  generalize tierOffset s.redis.now (s.redis.seq subP.model + 1) = offP at *
  generalize tierOffset v.redis.now (v.redis.seq subQ.model + 1) = offQ at *
  have exact_sum : ∀ {n : Int} {off : Nat}, 1 ≤ n → n ≤ 9 → off < priorityMultiplier + 999 →
      (n * priorityMultiplier + off).natAbs < 2 ^ 53 := fun h₁ h₉ ho => by
    simp only [priorityMultiplier] at ho ⊢; omega
  refine ⟨?_, fun h m ha hb => Redis.firstQueued_ne ⟨x, y, hP.entry ha, hQ.entry hb, .inl h⟩⟩
  rw [floatOfInt_lt hx hy, ← tiersApart_iff lt boundP]
  refine ⟨And.left, fun h => ⟨h, fun he => ?_⟩⟩
  have := Double.ofInt_injective (exact_sum low (by omega) boundP) (exact_sum (by omega) high boundQ) he
  omega

end

/-- A job of priority `2` that came at the start of a remainder has the score of a job of priority `1`
that came at its end, and is popped before it. -/
theorem tier_fails : ¬∀ s v w k l subP subQ a b x y p q, Sequenced (twoWorkers 1 (Int.le_refl 1)) s k subP a x w →
    Sequenced (twoWorkers 1 (Int.le_refl 1)) v l subQ b y w → subQ.model = subP.model →
    subP.number (twoWorkers 1 (Int.le_refl 1)).config = some (.int p) →
    subQ.number (twoWorkers 1 (Int.le_refl 1)).config = some (.int q) → 1 ≤ p → p < q → q ≤ 9 →
    x < y ∧ w.redis.firstQueued subP.model ≠ some b := by
  intro h
  obtain ⟨v, e, s, w, hQ, -, -, hl, hP, first⟩ := sequenced_pair (d := twoWorkers 1 (Int.le_refl 1))
    (sequenceFirst 0 (chatWithPriority (.int 2))) (List.replicate 4 (.admission 0 .go))
    (sequenceNext 999999999999 (chatWithPriority (.int 1))) [.admission 1 .go] 0 1 (chatWithPriority (.int 2))
    (chatWithPriority (.int 1)) "a" "b" (.ofInt 2000000000001) (.ofInt 2000000000001)
    (fun w => w.redis.firstQueued "chat" = some "a") (by decide +kernel)
  exact (h s v w 1 0 _ _ "b" "a" _ _ 1 2 hP ((hQ.trans hl).later hP) rfl rfl rfl (by decide) (by decide) (by decide)).2 first

theorem tier_iff_run : ∃ s v w x y, Sequenced (twoWorkers 1 (Int.le_refl 1)) s 1 (chatWithPriority (.int 1)) "b" x w ∧
    Sequenced (twoWorkers 1 (Int.le_refl 1)) v 0 (chatWithPriority (.int 2)) "a" y w ∧
      (x < y ↔ TiersApart 1 2 (tierOffset s.redis.now (s.redis.seq "chat" + 1))
        (tierOffset v.redis.now (v.redis.seq "chat" + 1))) ∧ w.redis.firstQueued "chat" ≠ some "a" := by
  obtain ⟨v, e, s, w, hQ, -, -, hl, hP, ha, hb⟩ := sequenced_pair (d := twoWorkers 1 (Int.le_refl 1))
    (sequenceFirst 3 (chatWithPriority (.int 2))) (List.replicate 4 (.admission 0 .go))
    (sequenceNext 999999999990 (chatWithPriority (.int 1))) [.admission 1 .go] 0 1 (chatWithPriority (.int 2))
    (chatWithPriority (.int 1)) "a" "b" (.ofInt 2000000000004) (.ofInt 1999999999995)
    (fun w => "b" ∈ w.redis.queue "chat" ∧ "a" ∈ w.redis.queue "chat") (by decide +kernel)
  have lt : Double.ofInt 1999999999995 < .ofInt 2000000000004 := by decide +kernel
  have order := tier_iff hP ((hQ.trans hl).later hP) rfl rfl (Int.le_refl 1) (by decide) (by decide)
  exact ⟨s, v, w, _, _, hP, (hQ.trans hl).later hP, order.1, order.2 lt "chat" ha hb⟩

end AdmissionScheduler
