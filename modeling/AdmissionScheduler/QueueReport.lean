import AdmissionScheduler.ScoreSound

/-!
# The queue report

`GET /queues`: depth, slots and the age of one job for each configured model. The
job is the first of the queue in the order of scores, which is the order of
priority tiers before it is the order of arrival. Its age is the longest one when
no job of the queue was enqueued before it.
-/

namespace AdmissionScheduler

/-- `datetime.fromisoformat(...).timestamp()` of the text that names the time `ts`, in microseconds. -/
def timestamp (ts : Nat) : Double := .ofUnits false (ts / 1000 * 2 ^ 1074) 1000000

/-- `int((time.time() - et) * 1000)` -/
def ageMs (time : Double) (ts : Nat) : Option Int := ((time.sub (timestamp ts)).mul (.ofInt 1000)).toInt?

structure ModelQueueSnapshot where
  depth : Int
  inUse : Int
  capacity : Int
  oldestEnqueueMs : Option Int
  deriving DecidableEq

section
variable (c : AppConfig) (r : Redis) (time : Double)

def jobAge (j : String) : Option Int := (r.hashOf j).enqueueTs.bind (ageMs time)

/-- What the commands for one model find when nothing changes between them. -/
def queueSnapshot (model : String) : ModelQueueSnapshot where
  depth := (r.queue model).card
  inUse := r.inUseOf model
  capacity := c.maxConcurrency model
  oldestEnqueueMs := (r.firstQueued model).bind (jobAge r time)

def getQueues (failed : String → Bool) : List (String × ModelQueueSnapshot) :=
  c.allModelNames.map fun model => (model,
    if failed model then ⟨0, 0, c.maxConcurrency model, none⟩ else queueSnapshot c r time model)

def longestWait (model : String) : Option Int :=
  ((r.queue model).entries.filterMap fun p => jobAge r time p.2).max?

/-- From the stored time an age can be computed. -/
def Readable (t : Nat) : Prop := (ageMs time t).isSome = true

instance (t : Nat) : Decidable (Readable time t) := inferInstanceAs (Decidable ((ageMs time t).isSome = true))

/-- Both times lie in one whole millisecond before the reading of the clock. -/
def SameMs (u t : Nat) : Prop := ageMs time u = ageMs time t

/-- By its `enqueue_ts` job `i` did not come after job `j`, or not by a millisecond. -/
def NoLater (i j : String) : Prop := ∀ u, (r.hashOf j).enqueueTs = some u → Readable time u →
  ∃ t, (r.hashOf i).enqueueTs = some t ∧ Readable time t ∧ (u < t → SameMs time u t)

end

structure Reading where
  priority : Int
  now : Nat
  seq : Nat

def Reading.sum (x : Reading) : Int := x.priority * priorityMultiplier + tierOffset x.now x.seq

/-- Every job in the queue has the `enqueue_ts` and the score of its reading, and one of the nine priorities. -/
structure Stamped (r : Redis) (model : String) (reading : String → Reading) : Prop where
  tier : ∀ j ∈ r.queue model, 1 ≤ (reading j).priority ∧ (reading j).priority ≤ 9
  time : ∀ j ∈ r.queue model, (r.hashOf j).enqueueTs = some (reading j).now
  score : ∀ x j, (x, j) ∈ (r.queue model).entries →
    (PyNum.int (reading j).priority).score (reading j).now (reading j).seq = some x

/-- No job of the queue has a smaller sum, or the same sum and a smaller id. -/
def LeastSum (r : Redis) (model : String) (reading : String → Reading) (i : String) : Prop :=
  i ∈ r.queue model ∧ ∀ j ∈ r.queue model,
    (reading i).sum < (reading j).sum ∨ (reading i).sum = (reading j).sum ∧ i ≤ j

/-! ## Time -/

namespace Double

variable {x y : Double} {u v w k : Int}

theorem finite_of_add (h : x.add y = .finite u) : ∃ v w, x = .finite v ∧ y = .finite w := by
  cases x with
  | finite v =>
    cases y with
    | finite w => exact ⟨v, w, rfl, rfl⟩
    | inf | nan => cases h
  | inf b =>
    cases y with
    | finite | nan => cases h
    | inf c =>
      simp only [add] at h
      split at h <;> cases h
  | nan => cases y <;> cases h

theorem finite_of_mul (h : x.mul y = .finite u) : ∃ v w, x = .finite v ∧ y = .finite w := by
  cases x with
  | finite v =>
    cases y with
    | finite w => exact ⟨v, w, rfl, rfl⟩
    | inf b =>
      simp only [mul] at h
      split at h <;> cases h
    | nan => cases h
  | inf b =>
    cases y with
    | finite w =>
      simp only [mul] at h
      split at h <;> cases h
    | inf | nan => cases h
  | nan => cases y <;> cases h

/-- Subtracting more leaves less. -/
theorem sub_antitone {u' w' : Int} (hw : w ≤ w') (h : sub (.finite v) (.finite w) = .finite u)
    (h' : sub (.finite v) (.finite w') = .finite u') : u' ≤ u :=
  ofUnits_mono Nat.one_pos (Int.add_le_add_left (Int.neg_le_neg hw) v) h' h

theorem mul_mono {u' v' : Int} (hk : 0 < k) (hv : v ≤ v') (h : mul (.finite v) (.finite k) = .finite u)
    (h' : mul (.finite v') (.finite k) = .finite u') : u ≤ u' := by
  have hsign : ∀ n : Int, mul (.finite n) (.finite k) = ofUnits (n * k < 0) (n * k).natAbs (2 ^ 1074) := by
    intro n
    have hneg : (n * k < 0) = (n < 0) := by
      rw [eq_iff_iff]
      refine ⟨fun hn => ?_, fun hn => Int.mul_neg_of_neg_of_pos hn hk⟩
      by_contra hc
      exact absurd (Int.mul_nonneg (Int.not_lt.mp hc) hk.le) (Int.not_le.mpr hn)
    have hkneg : decide (k < 0) = false := decide_eq_false (Int.not_lt.mpr hk.le)
    rw [Int.natAbs_mul]
    simp only [hneg]
    rw [← Bool.bne_false (decide (n < 0)), ← hkneg]
    rfl
  rw [hsign] at h h'
  generalize 1074 = e at h h'
  exact ofUnits_mono (Nat.two_pow_pos e) (Int.mul_le_mul_of_nonneg_right hv hk.le) h h'

theorem toInt_eq_some {a : Int} (h : x.toInt? = some a) : ∃ u, x = .finite u ∧ a = u.tdiv (2 ^ 1074) := by
  cases x with
  | finite u => exact ⟨u, rfl, (Option.some.inj h).symm⟩
  | inf | nan => cases h

end Double

section
variable {time : Double} {t u : Nat} {a b : Int}

def thousand : Int := 1000 * 2 ^ 1074

theorem ofInt_thousand : Double.ofInt 1000 = .finite thousand := Double.ofInt_exact (by decide)

/-- An age is computed from finite readings. -/
theorem ageMs_eq_some (h : ageMs time t = some a) : ∃ v w d m, time = .finite v ∧ timestamp t = .finite w ∧
    Double.sub (.finite v) (.finite w) = .finite d ∧ Double.mul (.finite d) (.finite thousand) = .finite m ∧
      a = m.tdiv (2 ^ 1074) := by
  rw [ageMs, ofInt_thousand] at h
  obtain ⟨m, hm, ha⟩ := Double.toInt_eq_some h
  obtain ⟨d, -, hd, -⟩ := Double.finite_of_mul hm
  rw [hd] at hm
  obtain ⟨v, w', rfl, hw'⟩ := Double.finite_of_add hd
  cases hts : timestamp t with
  | finite w =>
    rw [hts] at hd
    exact ⟨v, w, d, m, rfl, rfl, hd, hm, ha⟩
  | inf | nan => rw [hts] at hw'; cases hw'

theorem timestamp_mono {v w : Int} (h : t ≤ u) (hv : timestamp t = .finite v) (hw : timestamp u = .finite w) :
    v ≤ w := by
  have hround : ∀ n : Nat, Double.ofUnits ((n : Int) < 0) (n : Int).natAbs 1000000 = .ofUnits false n 1000000 := by
    intro n
    rw [Int.natAbs_natCast, decide_eq_false (Int.not_lt.mpr (Int.natCast_nonneg n))]
  have hunits : t / 1000 * 2 ^ 1074 ≤ u / 1000 * 2 ^ 1074 := Nat.mul_le_mul_right _ (Nat.div_le_div_right h)
  rw [timestamp, ← hround] at hv hw
  exact Double.ofUnits_mono (by decide) (Int.ofNat_le.mpr hunits) hv hw

/-- What was enqueued earlier is not shown as younger. -/
theorem ageMs_antitone (h : t ≤ u) (ht : ageMs time t = some a) (hu : ageMs time u = some b) : b ≤ a := by
  obtain ⟨v, w, d, m, rfl, hw, hd, hm, rfl⟩ := ageMs_eq_some ht
  obtain ⟨v', w', d', m', hv', hw', hd', hm', rfl⟩ := ageMs_eq_some hu
  cases hv'
  have hle := Double.sub_antitone (timestamp_mono h hw hw') hd hd'
  exact Int.tdiv_le_tdiv (Int.pow_pos (by decide)) (Double.mul_mono (by decide +kernel) hle hm' hm)

end

/-- The first value of a list is the greatest when none is above it; a missing value is below every other. -/
theorem head_eq_max {α : Type*} {f : α → Option Int} {p : α} {l : List α} :
    f p = ((p :: l).filterMap f).max? ↔ ∀ q ∈ p :: l, ¬f p < f q := by
  cases hp : f p with
  | none =>
    rw [eq_comm, List.max?_eq_none_iff, List.filterMap_eq_nil_iff]
    refine forall₂_congr fun q _ => ?_
    cases f q <;> simp
  | some a =>
    rw [eq_comm, List.max?_eq_some_iff, and_iff_right (List.mem_filterMap.mpr ⟨p, List.mem_cons_self .., hp⟩)]
    constructor
    · intro h q hq
      cases hf : f q with
      | none => exact Option.not_lt_none
      | some b =>
        have hle := h b (List.mem_filterMap.mpr ⟨q, hq, hf⟩)
        exact fun hlt => absurd hle (Int.not_le.mpr (Option.some_lt_some.mp hlt))
    · intro h b hb
      obtain ⟨q, hq, hf⟩ := List.mem_filterMap.mp hb
      refine Int.not_lt.mp fun hlt => h q hq ?_
      rw [hf]
      exact Option.some_lt_some.mpr hlt

/-! ## Scores and arrivals -/

section
variable {ι : Type} [DecidableEq ι] {d : Deployment ι} {s s' : State ι}

/-- A queued job with an `enqueue_ts` has the score of its request at that time. -/
def Arrivals (c : AppConfig) (s : State ι) : Prop :=
  ∀ m x j, (x, j) ∈ (s.redis.queue m).entries → ∀ ts, (s.redis.hashOf j).enqueueTs = some ts →
    ∃ sub n seq, Created s.trace j sub ∧ sub.number c = some n ∧ n.score ts seq = some x

/-- The hash of a job gets its `enqueue_ts` by its enqueue, and keeps it. -/
theorem enqueueTs_of_step {a : Action ι} {j : String} {ts : Nat} (hl : Life s) (hp : Priorities d.config s)
    (h : step d s a = some s') (hts : (s'.redis.hashOf j).enqueueTs = some ts) :
    (s.redis.hashOf j).enqueueTs = some ts ∨ ∃ k b sub text x, a = .admission k b ∧
      s.admits k = .enqueueing sub j text x ts ∧ .enqueued sub.model j x sub ∈ s'.trace := by
  have hw := hash_write (j := j) hl h
  unfold Redis.hashOf at hts ⊢
  generalize s'.redis.job j = e at hw hts
  cases hw with
  | keep => exact .inl hts
  | purge => cases hts
  | claim | clean | cancelled | cancelling | reclaim | store => exact .inl hts
  | @mark i b info v ts' act takes pc => exact .inl (by cases v <;> exact hts)
  | expire =>
    left
    cases hj : s.redis.job j <;> rw [hj] at hts <;> exact hts
  | @enqueue k b sub text x ts' h₀ act pc absent hash event =>
    obtain ⟨n, seq, -, -, rfl⟩ := hp.text k sub j text x ts' pc
    have stamp := (enqueuedHash_fields (plain_text n) sub.caller_plain sub.requestId_plain hash).2.2.1
    cases stamp.symm.trans hts
    exact .inr ⟨k, b, sub, n.text, x, act, pc, event⟩

theorem arrivals_step {a : Action ι} (hl : Life s) (hp : Priorities d.config s) (ha : Arrivals d.config s)
    (h : step d s a = some s') : Arrivals d.config s' := by
  intro m x j hx ts hts
  rcases queue_entry_of_step h hx with hx | ⟨k, b, sub, text, ts', rfl, pc⟩
  · -- a queued job is not enqueued again
    have hold : (s.redis.hashOf j).enqueueTs = some ts := by
      rcases enqueueTs_of_step hl hp h hts with hold | ⟨k, b, sub, text, y, -, pc, -⟩
      · exact hold
      · have queued := (hl.queue m j).mp ((SortedSet.mem_iff _).mpr ⟨x, hx⟩)
        rw [(hl.unborn k j (by rw [pc]; rfl)).2] at queued
        cases queued
    obtain ⟨sub, n, seq, created, hn, scored⟩ := ha m x j hx ts hold
    exact ⟨sub, n, seq, created.step h, hn, scored⟩
  · -- before its enqueue a job has no hash
    have absent : (s.redis.hashOf j).enqueueTs = none := by
      rw [Redis.hashOf, hl.absent j (hl.unborn k j (by rw [pc]; rfl)).2]
      rfl
    rcases enqueueTs_of_step hl hp h hts with hold | ⟨k', b', sub', text', y, act, pc', event⟩
    · rw [absent] at hold
      cases hold
    · cases act
      cases pc.symm.trans pc'
      obtain ⟨n, seq, hn, scored, -⟩ := hp.text k sub j text x ts pc
      exact ⟨sub, n, seq, ⟨_, _, event⟩, hn, scored⟩

/-- Along every run the scores of the queued jobs are those of their arrivals. -/
theorem arrivals {ok : State ι → Action ι → Prop} (h : (system d).Reach ok s) : Arrivals d.config s :=
  h.invariant (fun m x j hx => by cases hx) fun _ _ _ hr ha _ hs => arrivals_step (life hr) (priorities hr) ha hs

end

/-! ## The first and the oldest -/

section
variable {c : AppConfig} {r : Redis} {time : Double} {model : String} {reading : String → Reading}

theorem noLater_iff {i j : String} : NoLater r time i j ↔ ¬jobAge r time i < jobAge r time j := by
  have age_of : ∀ {k : String} {b : Int}, jobAge r time k = some b →
      ∃ u, (r.hashOf k).enqueueTs = some u ∧ ageMs time u = some b := Option.bind_eq_some_iff.mp
  constructor
  · intro h hlt
    cases hb : jobAge r time j with
    | none =>
      rw [hb] at hlt
      exact Option.not_lt_none hlt
    | some b =>
      obtain ⟨u, hu, hub⟩ := age_of hb
      obtain ⟨t, ht, readable, same⟩ := h u hu (Option.isSome_iff_exists.mpr ⟨b, hub⟩)
      obtain ⟨a, hta⟩ := Option.isSome_iff_exists.mp readable
      have ha : jobAge r time i = some a := Option.bind_eq_some_iff.mpr ⟨t, ht, hta⟩
      rw [ha, hb] at hlt
      have hlt : a < b := Option.some_lt_some.mp hlt
      rcases Nat.lt_or_ge u t with hut | hut
      · have hab : ageMs time u = ageMs time t := same hut
        rw [hub, hta] at hab
        cases hab
        exact lt_irrefl _ hlt
      · exact absurd (ageMs_antitone hut hta hub) (Int.not_le.mpr hlt)
  · intro h u hu readable
    obtain ⟨b, hub⟩ := Option.isSome_iff_exists.mp readable
    have hb : jobAge r time j = some b := Option.bind_eq_some_iff.mpr ⟨u, hu, hub⟩
    rw [hb] at h
    cases ha : jobAge r time i with
    | none =>
      rw [ha] at h
      exact absurd (Option.none_lt_some) h
    | some a =>
      obtain ⟨t, ht, hta⟩ := age_of ha
      refine ⟨t, ht, Option.isSome_iff_exists.mpr ⟨a, hta⟩, fun hut => ?_⟩
      rw [ha] at h
      have hle : b ≤ a := Int.not_lt.mp fun hlt => h (Option.some_lt_some.mpr hlt)
      rw [SameMs, hub, hta, Int.le_antisymm hle (ageMs_antitone hut.le hub hta)]

theorem oldest_iff : (queueSnapshot c r time model).oldestEnqueueMs = longestWait r time model ↔
    ∀ i, r.firstQueued model = some i → ∀ j ∈ r.queue model, NoLater r time i j := by
  have hmem : ∀ j, j ∈ r.queue model ↔ j ∈ (r.queue model).entries.map Prod.snd := fun _ => Iff.rfl
  simp only [queueSnapshot, longestWait, Redis.firstQueued, noLater_iff, hmem]
  obtain ⟨l, hs, hn⟩ := r.queue model
  cases l with
  | nil => simp [SortedSet.popMin?]
  | cons p l =>
    have h := head_eq_max (f := fun q : Double × String => jobAge r time q.2) (p := p) (l := l)
    simp only [SortedSet.popMin?, Option.map_some, Option.bind_some, Option.some.injEq, forall_eq', h,
      List.forall_mem_map]

/-- Up to tier nine the scores are in the order of the sums. -/
theorem Stamped.score_lt (h : Stamped r model reading) {x y : Double} {i j : String}
    (hi : (x, i) ∈ (r.queue model).entries) (hj : (y, j) ∈ (r.queue model).entries) :
    x < y ↔ (reading i).sum < (reading j).sum := by
  have small : ∀ {x : Double} {k : String}, (x, k) ∈ (r.queue model).entries → (reading k).sum.natAbs < 2 ^ 53 := by
    intro x k hk
    have tier := h.tier k ((SortedSet.mem_iff _).mpr ⟨x, hk⟩)
    have offset := tierOffset_lt (reading k).now (reading k).seq
    simp only [Reading.sum, priorityMultiplier] at offset ⊢
    omega
  have hx := h.score x i hi
  have hy := h.score y j hj
  rw [PyNum.score_integral rfl] at hx hy
  rw [floatOfInt_lt hx hy]
  refine ⟨And.left, fun hlt => ⟨hlt, fun he => ?_⟩⟩
  exact hlt.ne (Double.ofInt_injective (small hi) (small hj) he)

theorem Stamped.firstQueued_iff (h : Stamped r model reading) {i : String} :
    r.firstQueued model = some i ↔ LeastSum r model reading i := by
  have score_eq : ∀ {x y : Double} {i j : String}, (x, i) ∈ (r.queue model).entries →
      (y, j) ∈ (r.queue model).entries → (x = y ↔ (reading i).sum = (reading j).sum) := by
    intro x y i j hi hj
    rw [le_antisymm_iff, le_antisymm_iff, ← not_lt, ← not_lt, ← not_lt, ← not_lt, h.score_lt hi hj, h.score_lt hj hi]
  constructor
  · intro first
    obtain ⟨⟨x, k, q⟩, hp, rfl⟩ := Option.map_eq_some_iff.mp first
    have hk : (x, k) ∈ (r.queue model).entries := by rw [SortedSet.entries_of_popMin hp]; exact List.mem_cons_self ..
    refine ⟨(SortedSet.mem_iff _).mpr ⟨x, hk⟩, fun j hj => ?_⟩
    obtain ⟨y, hj⟩ := (SortedSet.mem_iff _).mp hj
    rw [← h.score_lt hk hj, ← score_eq hk hj]
    have hmem := hj
    rw [SortedSet.entries_of_popMin hp] at hmem
    rcases List.mem_cons.mp hmem with he | he
    · cases he
      exact .inr ⟨rfl, le_refl k⟩
    · exact SortedSet.popMin_least hp _ he
  · rintro ⟨hi, least⟩
    obtain ⟨x, hx⟩ := (SortedSet.mem_iff _).mp hi
    cases hf : r.firstQueued model with
    | none =>
      exact absurd hi (SortedSet.popMin_eq_none.mp (Option.map_eq_none_iff.mp hf) i)
    | some k =>
      by_contra hne
      have hki : k ≠ i := fun e => hne (e ▸ rfl)
      obtain ⟨y, hy⟩ := (SortedSet.mem_iff _).mp (Redis.firstQueued_mem hf)
      refine Redis.firstQueued_ne ⟨x, y, hx, hy, ?_⟩ hf
      rw [h.score_lt hx hy, score_eq hx hy]
      exact (least k (Redis.firstQueued_mem hf)).imp_right fun ⟨he, hle⟩ => ⟨he, lt_of_le_of_ne hle (Ne.symm hki)⟩

theorem Stamped.noLater_iff (h : Stamped r model reading) {i j : String} (hi : i ∈ r.queue model)
    (hj : j ∈ r.queue model) : NoLater r time i j ↔ (Readable time (reading j).now → Readable time (reading i).now ∧
      ((reading j).now < (reading i).now → SameMs time (reading j).now (reading i).now)) := by
  simp only [NoLater, h.time i hi, h.time j hj, Option.some.injEq, forall_eq', exists_eq_left']

/-- Every configured model has its snapshot. -/
theorem lookup_getQueues {failed : String → Bool} (hm : model ∈ c.allModelNames) (answered : failed model = false) :
    (getQueues c r time failed).lookup model = some (queueSnapshot c r time model) := by
  have hmap : ∀ (l : List String) (f : String → ModelQueueSnapshot), model ∈ l →
      (l.map fun n => (n, f n)).lookup model = some (f model) := by
    intro l f hl
    induction l with
    | nil => cases hl
    | cons n l ih =>
      rw [List.map_cons, List.lookup_cons]
      by_cases h : model = n
      · subst h
        simp
      · rw [beq_false_of_ne h]
        exact ih (List.mem_of_ne_of_mem h hl)
  rw [getQueues, hmap _ _ hm, answered]
  rfl

/-- The snapshot shows the longest wait exactly when no job of the queue was enqueued a millisecond before its first
member. Among jobs with the scores that `admit` gives them the first member is the one with the least sum of tier,
remainder of the clock and remainder of the counter. -/
theorem oldest_is_longest_iff (c : AppConfig) (r : Redis) (time : Double) (failed : String → Bool) {model : String}
    (hm : model ∈ c.allModelNames) (answered : failed model = false) :
    ∃ snapshot, (getQueues c r time failed).lookup model = some snapshot ∧
      (snapshot.oldestEnqueueMs = longestWait r time model ↔
        ∀ i, r.firstQueued model = some i → ∀ j ∈ r.queue model, NoLater r time i j) ∧
      (∀ reading, Stamped r model reading → (snapshot.oldestEnqueueMs = longestWait r time model ↔
        ∀ i, LeastSum r model reading i → ∀ j ∈ r.queue model, Readable time (reading j).now →
          Readable time (reading i).now ∧
            ((reading j).now < (reading i).now → SameMs time (reading j).now (reading i).now))) := by
  refine ⟨_, lookup_getQueues hm answered, oldest_iff, fun reading h => ?_⟩
  rw [oldest_iff]
  constructor
  · intro first i hi j hj
    exact (h.noLater_iff hi.1 hj).mp (first i (h.firstQueued_iff.mpr hi) j hj)
  · intro least i hi j hj
    have hi := h.firstQueued_iff.mp hi
    exact (h.noLater_iff hi.1 hj).mpr (least i hi j hj)

end

/-! ## An urgent job and an old one -/

def Redis.withQueued (r : Redis) (j : String) (priority : Int) (enqueued : Nat) : Redis :=
  (r.addQueued "chat" j (((PyNum.int priority).score enqueued 1).getD .nan)).hset j fun h =>
    { h with enqueueTs := some enqueued }

/-- A job that came after ten seconds and one that came after a hundred, with these priorities. -/
def twoQueued (old new : Int) : Redis :=
  (chatOnly.initRedis.withQueued "old" old (10 * second)).withQueued "new" new (100 * second)

def twoReadings (old new : Int) (j : String) : Reading :=
  if j = "old" then ⟨old, 10 * second, 1⟩ else ⟨new, 100 * second, 1⟩

theorem mem_twoQueued {old new : Int} {j : String} : j ∈ (twoQueued old new).queue "chat" ↔ j = "new" ∨ j = "old" := by
  simp [twoQueued, Redis.withQueued, Redis.hset, Redis.addQueued, AppConfig.initRedis]

/-- The job of tier one came first, and its age is the one that is shown. -/
theorem oldest_is_longest_one : Stamped (twoQueued 1 9) "chat" (twoReadings 1 9) ∧
    ∃ snapshot, (getQueues chatOnly (twoQueued 1 9) (.ofInt 110) fun _ => false).lookup "chat" = some snapshot ∧
      snapshot.oldestEnqueueMs = longestWait (twoQueued 1 9) (.ofInt 110) "chat" := by
  have hchat : "chat" ∈ chatOnly.allModelNames := by decide
  have stamped : Stamped (twoQueued 1 9) "chat" (twoReadings 1 9) := {
    tier := by
      intro j hj
      rcases mem_twoQueued.mp hj with rfl | rfl <;> decide
    time := by
      intro j hj
      rcases mem_twoQueued.mp hj with rfl | rfl <;> decide
    score := by
      have all : ∀ p ∈ ((twoQueued 1 9).queue "chat").entries, (PyNum.int (twoReadings 1 9 p.2).priority).score
          (twoReadings 1 9 p.2).now (twoReadings 1 9 p.2).seq = some p.1 := by decide +kernel
      exact fun x j hj => all (x, j) hj }
  obtain ⟨snapshot, hs, -, hstamped⟩ :=
    oldest_is_longest_iff chatOnly (twoQueued 1 9) (.ofInt 110) (fun _ => false) hchat rfl
  refine ⟨stamped, snapshot, hs, (hstamped _ stamped).mpr ?_⟩
  rintro i ⟨hi, least⟩ j hj readable
  rcases mem_twoQueued.mp hi with rfl | rfl
  · have := least "old" (mem_twoQueued.mpr (.inr rfl))
    exact absurd this (by decide +kernel)
  · refine ⟨by decide +kernel, fun hlt => absurd hlt ?_⟩
    rcases mem_twoQueued.mp hj with rfl | rfl <;> decide

theorem oldest_not_longest : ¬ ∀ (c : AppConfig) (r : Redis) (time : Double) (model : String), model ∈ c.allModelNames →
    (queueSnapshot c r time model).oldestEnqueueMs = longestWait r time model := by
  intro h
  have hchat := h chatOnly (twoQueued 9 1) (.ofInt 110) "chat" (by decide)
  have hshown : (queueSnapshot chatOnly (twoQueued 9 1) (.ofInt 110) "chat").oldestEnqueueMs = some 10000 := by
    decide +kernel
  have hmax : longestWait (twoQueued 9 1) (.ofInt 110) "chat" = some 100000 := by decide +kernel
  rw [hshown, hmax] at hchat
  cases hchat

end AdmissionScheduler
