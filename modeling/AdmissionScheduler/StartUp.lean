import AdmissionScheduler.Commands
import AdmissionScheduler.SlotTurns

/-!
# Starting up

`_startup` in any number of processes that share one store. Its commands are
separate, any of them may fail and end the process, and other processes may be
running meanwhile. A process serves only once its start is over.
-/

namespace AdmissionScheduler

inductive StartCommand where
  | ping
  | scriptLoad
  | setCapacity (m : String) (n : Int)
  | setnxInUse (m : String)
  deriving DecidableEq

def StartCommand.serve (r : Redis) : StartCommand → Redis
  | ping | scriptLoad => r
  | setCapacity m n => { r with capacity := Function.update r.capacity m (some n) }
  | setnxInUse m => { r with inUse := Function.update r.inUse m (some ((r.inUse m).getD 0)) }

/-- What `_startup` sends, in its order; `load_all` loads three scripts. -/
def AppConfig.startCommands (c : AppConfig) : List StartCommand :=
  [.ping, .scriptLoad, .scriptLoad, .scriptLoad] ++
    c.models.flatMap fun p => [.setCapacity p.1 p.2.maxConcurrency, .setnxInUse p.1]

inductive Process where
  | down
  | starting (left : List StartCommand)
  | up
  deriving DecidableEq

structure Fleet (ι : Type) where
  state : State ι
  processes : Nat → Process

inductive FleetAct (ι : Type) where
  | launch (k : Nat)
  /-- The next command of a start succeeds; after the last one the process serves. -/
  | go (k : Nat)
  /-- An exception ends the start. -/
  | fail (k : Nat) (took : Bool)
  /-- A step of the system that process `k` has a part in. -/
  | run (k : Nat) (a : Action ι)
  | exit (k : Nat)
  | wait (δ : Nat)
  deriving DecidableEq

def AppConfig.emptyRedis (c : AppConfig) : Redis :=
  { c.initRedis with inUse := fun _ => none, capacity := fun _ => none }

section
variable {ι : Type} [DecidableEq ι] (d : Deployment ι)

namespace Fleet

def withRedis (F : Fleet ι) (r : Redis) (k : Nat) (p : Process) : Fleet ι :=
  { state := { F.state with redis := r }, processes := Function.update F.processes k p }

def step (F : Fleet ι) : FleetAct ι → Option (Fleet ι)
  | .launch k =>
    if F.processes k = .down then some (F.withRedis F.state.redis k (.starting d.config.startCommands)) else none
  | .go k =>
    match F.processes k with
    | .starting (c :: left) => some (F.withRedis (c.serve F.state.redis) k (.starting left))
    | .starting [] => some (F.withRedis F.state.redis k .up)
    | .down | .up => none
  | .fail k took =>
    match F.processes k with
    | .starting (c :: _) => some (F.withRedis (if took then c.serve F.state.redis else F.state.redis) k .down)
    | .starting [] => some (F.withRedis F.state.redis k .down)
    | .down | .up => none
  | .run k a =>
    if F.processes k = .up then (AdmissionScheduler.step d F.state a).map fun s => { F with state := s } else none
  | .exit k => some (F.withRedis F.state.redis k .down)
  | .wait δ => some { F with state := { F.state with redis := F.state.redis.tick δ } }

end Fleet

def fleet : Machine (Fleet ι) (FleetAct ι) where
  init := { state := { initState d with redis := d.config.emptyRedis }, processes := fun _ => .down }
  step := Fleet.step d

end

/-! ## The commands of a start -/

section
variable {c : AppConfig} {r : Redis} {m : String}

def StartCommand.Seen (r : Redis) : StartCommand → Prop
  | ping | scriptLoad => True
  | setCapacity m n => r.capacity m = some n
  | setnxInUse m => (r.inUse m).isSome = true

theorem StartCommand.seen_serve (cmd : StartCommand) : cmd.Seen (cmd.serve r) := by
  cases cmd with
  | ping | scriptLoad => trivial
  | setCapacity m n => exact Function.update_self ..
  | setnxInUse m => simp only [Seen, serve, Function.update_self, Option.isSome_some]

theorem StartCommand.serve_of_seen {cmd : StartCommand} (h : cmd.Seen r) : cmd.serve r = r := by
  cases cmd with
  | ping | scriptLoad => rfl
  | setCapacity m n =>
    rw [serve, ← show r.capacity m = some n from h, Function.update_eq_self]
  | setnxInUse m =>
    obtain ⟨n, hn⟩ := Option.isSome_iff_exists.mp h
    have : some ((r.inUse m).getD 0) = r.inUse m := by rw [hn]; rfl
    rw [serve, this, Function.update_eq_self]

theorem AppConfig.lookup_models {mc : ModelConfig} (h : (m, mc) ∈ c.models) : c.models.lookup m = some mc := by
  have hnd := c.nodup
  generalize c.models = l at h hnd
  induction l with
  | nil => cases h
  | cons p l ih =>
    obtain ⟨m', mc'⟩ := p
    rw [List.map_cons, List.nodup_cons] at hnd
    rcases List.mem_cons.mp h with heq | hmem
    · cases heq
      exact List.lookup_cons_self
    · have hne : m ≠ m' := by
        rintro rfl
        exact hnd.1 (List.mem_map.mpr ⟨_, hmem, rfl⟩)
      rw [List.lookup_cons, beq_false_of_ne hne]
      exact ih hmem hnd.2

theorem AppConfig.mem_startCommands {cmd : StartCommand} (h : cmd ∈ c.startCommands) :
    (∀ m n, cmd = .setCapacity m n → c.capacityOf m = some n) ∧
      ∀ m, cmd = .setnxInUse m → (c.capacityOf m).isSome = true := by
  rw [startCommands, List.mem_append, List.mem_flatMap] at h
  rcases h with h | ⟨⟨m, mc⟩, hp, h⟩
  · have hplain : cmd = .ping ∨ cmd = .scriptLoad := by simpa using h
    rcases hplain with rfl | rfl <;> exact ⟨fun m n h => (by cases h), fun m h => (by cases h)⟩
  · have hcap : c.capacityOf m = some mc.maxConcurrency := by rw [capacityOf, lookup_models hp]; rfl
    rcases List.mem_pair.mp h with rfl | rfl
    · refine ⟨fun m' n heq => ?_, fun m' heq => by cases heq⟩
      cases heq
      exact hcap
    · refine ⟨fun m' n heq => (by cases heq), fun m' heq => ?_⟩
      cases heq
      rw [hcap]
      rfl

theorem AppConfig.startCommands_of_capacity {n : Int} (h : c.capacityOf m = some n) :
    .setCapacity m n ∈ c.startCommands ∧ .setnxInUse m ∈ c.startCommands := by
  obtain ⟨mc, hmc, rfl⟩ := Option.map_eq_some_iff.mp h
  have hmem : (m, mc) ∈ c.models := by
    rw [List.lookup_eq_some_iff] at hmc
    obtain ⟨l₁, l₂, hl, -⟩ := hmc
    rw [hl]
    exact List.mem_append_right _ (.head _)
  refine ⟨List.mem_append_right _ (List.mem_flatMap.mpr ⟨_, hmem, ?_⟩),
    List.mem_append_right _ (List.mem_flatMap.mpr ⟨_, hmem, ?_⟩)⟩
  · exact .head _
  · exact .tail _ (.head _)

theorem StartCommand.seen_serve_of_seen {cmd cmd' : StartCommand} (hc : cmd ∈ c.startCommands)
    (hc' : cmd' ∈ c.startCommands) (h : cmd.Seen r) : cmd.Seen (cmd'.serve r) := by
  cases cmd with
  | ping | scriptLoad => trivial
  | setCapacity m n =>
    cases cmd' with
    | ping | scriptLoad | setnxInUse m' => exact h
    | setCapacity m' n' =>
      by_cases heq : m = m'
      · subst heq
        have hn := (AppConfig.mem_startCommands hc).1 m n rfl
        have hn' := (AppConfig.mem_startCommands hc').1 m n' rfl
        rw [hn] at hn'
        cases hn'
        exact Function.update_self ..
      · exact (Function.update_of_ne heq ..).trans h
  | setnxInUse m =>
    cases cmd' with
    | ping | scriptLoad | setCapacity m' n' => exact h
    | setnxInUse m' =>
      by_cases heq : m = m'
      · subst heq
        exact seen_serve (.setnxInUse m)
      · have hkept : (Function.update r.inUse m' (some ((r.inUse m').getD 0))) m = r.inUse m :=
          Function.update_of_ne heq ..
        exact (congrArg Option.isSome hkept).trans h

end

/-! ## The counters are there to stay -/

section
variable {c : AppConfig} {r : Redis} {m : String}

theorem Redis.addInUse_isSome {m' : String} {δ : Int} (h : (r.inUse m).isSome = true) :
    ((r.addInUse m' δ).inUse m).isSome = true := by
  by_cases heq : m = m'
  · subst heq
    simp only [Redis.addInUse, Function.update_self, Option.isSome_some]
  · simp only [Redis.addInUse, Function.update_of_ne heq]
    exact h

theorem Redis.setInUse_isSome {m' : String} {n : Int} (h : (r.inUse m).isSome = true) :
    ((r.setInUse m' n).inUse m).isSome = true := by
  by_cases heq : m = m'
  · subst heq
    simp only [Redis.setInUse, Function.update_self, Option.isSome_some]
  · simp only [Redis.setInUse, Function.update_of_ne heq]
    exact h

variable {ι : Type} [DecidableEq ι] {d : Deployment ι} {s s' : State ι}

theorem inUse_isSome_of_step {a : Action ι} (hs : step d s a = some s') (h : (s.redis.inUse m).isSome = true) :
    (s'.redis.inUse m).isSome = true := by
  have hserved := storeAfter_of_step hs
  generalize s'.redis = r at hserved
  cases hserved with
  | quiet | tick δ => exact h
  | worker i =>
    generalize (s.workers i).pc = pc
    cases pc with
    | claiming j ts =>
      rw [Pc.serve]
      split
      · exact Redis.addInUse_isSome h
      · exact h
    | releasing j next => exact Redis.addInUse_isSome h
    | _ => exact h
  | admission k =>
    generalize s.admits k = p
    cases p with
    | enqueueing sub j text score ts =>
      rw [Admit.serve]
      generalize Admit.enqueueOutcome d.config s.redis sub j text score ts = outcome
      cases outcome <;> exact h
    | _ => exact h
  | cancel k =>
    generalize s.cancels k = p
    cases p with
    | script j m' ts =>
      rw [Cancel.serve]
      split <;> exact h
    | _ => exact h
  | watch k =>
    generalize s.watchers k = p
    cases p with
    | reclaiming m' j rest ts => exact Redis.addInUse_isSome (r := s.redis.finish j _) h
    | _ => exact h
  | check k =>
    generalize s.checkers k = p
    cases p with
    | resetting m' actual recorded => exact Redis.setInUse_isSome h
    | _ => exact h

end

/-! ## Before and after the first process is up -/

section
variable {ι : Type} [DecidableEq ι] {d : Deployment ι} {F F' : Fleet ι} {k : Nat}

/-- The commands that a start has behind it have been seen by the store. -/
def Known (d : Deployment ι) (F : Fleet ι) : Prop :=
  ∀ k left, F.processes k = .starting left →
    ∃ past, d.config.startCommands = past ++ left ∧ ∀ cmd ∈ past, cmd.Seen F.state.redis

/-- No process has been up: the store holds nothing but what starts have written. -/
structure Opening (d : Deployment ι) (F : Fleet ι) : Prop where
  state : F.state = { initState d with redis := F.state.redis }
  store : F.state.redis =
    { d.config.initRedis with
      now := F.state.redis.now, inUse := F.state.redis.inUse, capacity := F.state.redis.capacity }
  capacity : ∀ m, F.state.redis.capacity m = none ∨ F.state.redis.capacity m = d.config.capacityOf m
  inUse : ∀ m, F.state.redis.inUse m = none ∨ F.state.redis.inUse m = (d.config.capacityOf m).map fun _ => 0
  asleep : ∀ k, F.processes k ≠ .up

/-- A process has been up: what happens is a run of the system. -/
structure Serving (d : Deployment ι) (F : Fleet ι) : Prop where
  reach : (system d).Reach Machine.Any F.state
  inUse : ∀ m, (d.config.capacityOf m).isSome = true → (F.state.redis.inUse m).isSome = true

theorem Serving.seen (h : Serving d F) {cmd : StartCommand} (hc : cmd ∈ d.config.startCommands) :
    cmd.Seen F.state.redis := by
  cases cmd with
  | ping | scriptLoad => trivial
  | setCapacity m n =>
    have hcap : F.state.redis.capacity = d.config.capacityOf := capacity_const h.reach
    rw [StartCommand.Seen, hcap]
    exact (AppConfig.mem_startCommands hc).1 m n rfl
  | setnxInUse m => exact h.inUse m ((AppConfig.mem_startCommands hc).2 m rfl)

/-- A store that has seen every command of a start is the one the system begins with. -/
theorem Opening.serving (h : Opening d F) (hseen : ∀ cmd ∈ d.config.startCommands, cmd.Seen F.state.redis) :
    Serving d F := by
  have hcap : F.state.redis.capacity = d.config.capacityOf := by
    funext m
    rcases h.capacity m with hm | hm
    · cases hc : d.config.capacityOf m with
      | none => exact hm
      | some n =>
        have := hseen _ (AppConfig.startCommands_of_capacity hc).1
        rw [StartCommand.Seen, hm] at this
        cases this
    · exact hm
  have huse : F.state.redis.inUse = d.config.initRedis.inUse := by
    funext m
    rcases h.inUse m with hm | hm
    · cases hc : d.config.capacityOf m with
      | none =>
        change _ = (d.config.capacityOf m).map fun _ => 0
        rw [hm, hc]
        rfl
      | some n =>
        have := hseen _ (AppConfig.startCommands_of_capacity hc).2
        rw [StartCommand.Seen, hm] at this
        cases this
    · exact hm
  have hstore : F.state.redis = d.config.initRedis.tick F.state.redis.now := by
    rw [h.store, huse, hcap]
    simp [AppConfig.initRedis, Redis.tick]
  have hstate : F.state = { initState d with redis := d.config.initRedis.tick F.state.redis.now } := by
    rw [← hstore]
    exact h.state
  constructor
  · rw [hstate]
    exact Machine.Leads.refl.step (a := Action.tick F.state.redis.now) trivial rfl
  · intro m hm
    rw [huse]
    exact (Option.isSome_map ..).trans hm

inductive Moved (d : Deployment ι) (F : Fleet ι) (k : Nat) : Redis → Process → Prop
  | launch : Moved d F k F.state.redis (.starting d.config.startCommands)
  | go {cmd left} (was : F.processes k = .starting (cmd :: left)) :
    Moved d F k (cmd.serve F.state.redis) (.starting left)
  | up (was : F.processes k = .starting []) : Moved d F k F.state.redis .up
  | lost {cmd left} (was : F.processes k = .starting (cmd :: left)) : Moved d F k (cmd.serve F.state.redis) .down
  | down : Moved d F k F.state.redis .down

theorem Fleet.step_cases {a : FleetAct ι} (h : Fleet.step d F a = some F') :
    (∃ k r p, F' = F.withRedis r k p ∧ Moved d F k r p) ∨
      (∃ k b, F.processes k = .up ∧ AdmissionScheduler.step d F.state b = some F'.state ∧
        F'.processes = F.processes) ∨
        ∃ δ, F' = { F with state := { F.state with redis := F.state.redis.tick δ } } := by
  cases a with
  | launch k =>
    simp only [step, Option.ite_none_right_eq_some] at h
    obtain ⟨-, heq⟩ := h
    cases heq
    exact .inl ⟨k, _, _, rfl, .launch⟩
  | go k =>
    simp only [step] at h
    split at h
    · rename_i cmd left was
      cases h
      exact .inl ⟨k, _, _, rfl, .go was⟩
    · rename_i was
      cases h
      exact .inl ⟨k, _, _, rfl, .up was⟩
    · cases h
    · cases h
  | fail k took =>
    simp only [step] at h
    split at h
    · rename_i cmd left was
      cases h
      cases took with
      | true => exact .inl ⟨k, _, _, rfl, .lost was⟩
      | false => exact .inl ⟨k, _, _, rfl, .down⟩
    · cases h
      exact .inl ⟨k, _, _, rfl, .down⟩
    · cases h
    · cases h
  | run k b =>
    simp only [step, Option.ite_none_right_eq_some, Option.map_eq_some_iff] at h
    obtain ⟨hup, s', hs, rfl⟩ := h
    exact .inr (.inl ⟨k, b, hup, hs, rfl⟩)
  | exit k =>
    cases h
    exact .inl ⟨k, _, _, rfl, .down⟩
  | wait δ =>
    cases h
    exact .inr (.inr ⟨δ, rfl⟩)

omit [DecidableEq ι] in
theorem Known.moved {r : Redis} {p : Process} (hk : Known d F) (hm : Moved d F k r p) :
    Known d (F.withRedis r k p) := by
  have hkeep : ∀ cmd ∈ d.config.startCommands, cmd.Seen F.state.redis → cmd.Seen r := by
    intro cmd hc hseen
    cases hm with
    | launch | up | down => exact hseen
    | @go cmd' left was | @lost cmd' left was =>
      obtain ⟨past, hpast, -⟩ := hk k _ was
      exact StartCommand.seen_serve_of_seen hc (by rw [hpast]; exact List.mem_append_right _ (.head _)) hseen
  intro l left hl
  by_cases heq : l = k
  · subst heq
    have hp : p = .starting left := (Function.update_self ..).symm.trans hl
    cases hm with
    | launch =>
      cases hp
      exact ⟨[], rfl, List.forall_mem_nil _⟩
    | @go cmd left' was =>
      cases hp
      obtain ⟨past, hpast, hseen⟩ := hk l _ was
      refine ⟨past ++ [cmd], by rw [List.append_assoc]; exact hpast, fun cmd' hc => ?_⟩
      rcases List.mem_append.mp hc with hc | hc
      · exact hkeep cmd' (by rw [hpast]; exact List.mem_append_left _ hc) (hseen cmd' hc)
      · rw [List.mem_singleton.mp hc]
        exact cmd.seen_serve
    | up | lost | down => cases hp
  · have hl : F.processes l = .starting left := (Function.update_of_ne heq ..).symm.trans hl
    obtain ⟨past, hpast, hseen⟩ := hk l left hl
    exact ⟨past, hpast, fun cmd hc => hkeep cmd (by rw [hpast]; exact List.mem_append_left _ hc) (hseen cmd hc)⟩

theorem Opening.moved {r : Redis} {p : Process} (ho : Opening d F) (hk : Known d F) (hm : Moved d F k r p) :
    Opening d (F.withRedis r k p) ∨ Serving d (F.withRedis r k p) := by
  have hserve : ∀ cmd ∈ d.config.startCommands, p ≠ .up → r = cmd.serve F.state.redis →
      Opening d (F.withRedis r k p) := by
    rintro cmd hc hp rfl
    have hmem := AppConfig.mem_startCommands hc
    refine ⟨?_, ?_, ?_, ?_, ?_⟩
    · change ({ F.state with redis := cmd.serve F.state.redis } : State ι) =
        { initState d with redis := cmd.serve F.state.redis }
      rw [ho.state]
    · change cmd.serve F.state.redis = _
      rw [ho.store]
      cases cmd <;> rfl
    · intro m
      cases cmd with
      | ping | scriptLoad | setnxInUse m' => exact ho.capacity m
      | setCapacity m' n =>
        by_cases heq : m = m'
        · subst heq
          exact .inr ((Function.update_self ..).trans (hmem.1 m n rfl).symm)
        · have hkept : (Function.update F.state.redis.capacity m' (some n)) m = F.state.redis.capacity m :=
            Function.update_of_ne heq ..
          exact (ho.capacity m).imp hkept.trans hkept.trans
    · intro m
      cases cmd with
      | ping | scriptLoad | setCapacity m' n => exact ho.inUse m
      | setnxInUse m' =>
        by_cases heq : m = m'
        · subst heq
          obtain ⟨n, hn⟩ := Option.isSome_iff_exists.mp (hmem.2 m rfl)
          refine .inr ((Function.update_self ..).trans ?_)
          rcases ho.inUse m with hu | hu <;> rw [hu, hn] <;> rfl
        · have hkept : (Function.update F.state.redis.inUse m' (some ((F.state.redis.inUse m').getD 0))) m =
              F.state.redis.inUse m := Function.update_of_ne heq ..
          exact (ho.inUse m).imp hkept.trans hkept.trans
    · intro l hl
      by_cases heq : l = k
      · subst heq
        exact hp ((Function.update_self ..).symm.trans hl)
      · exact ho.asleep l ((Function.update_of_ne heq ..).symm.trans hl)
  have hping : StartCommand.ping ∈ d.config.startCommands := List.mem_append_left _ (.head _)
  cases hm with
  | launch => exact .inl (hserve .ping hping nofun rfl)
  | down => exact .inl (hserve .ping hping nofun rfl)
  | @go cmd left was =>
    obtain ⟨past, hpast, -⟩ := hk k _ was
    exact .inl (hserve cmd (by rw [hpast]; exact List.mem_append_right _ (.head _)) nofun rfl)
  | @lost cmd left was =>
    obtain ⟨past, hpast, -⟩ := hk k _ was
    exact .inl (hserve cmd (by rw [hpast]; exact List.mem_append_right _ (.head _)) nofun rfl)
  | up was =>
    obtain ⟨past, hpast, hseen⟩ := hk k _ was
    rw [List.append_nil] at hpast
    rw [← hpast] at hseen
    have hs := ho.serving hseen
    exact .inr ⟨hs.reach, hs.inUse⟩

omit [DecidableEq ι] in
theorem Opening.tick (ho : Opening d F) (δ : Nat) :
    Opening d { F with state := { F.state with redis := F.state.redis.tick δ } } := by
  refine ⟨?_, ?_, ho.capacity, ho.inUse, ho.asleep⟩
  · rw [ho.state]
  · change F.state.redis.tick δ = _
    rw [ho.store]
    simp [AppConfig.initRedis, Redis.tick]

theorem Serving.step {a : FleetAct ι} (hs : Serving d F) (hk : Known d F) (h : Fleet.step d F a = some F') :
    Serving d F' ∧ (system d).Leads Machine.Any F.state F'.state := by
  rcases Fleet.step_cases h with ⟨k, r, p, rfl, hm⟩ | ⟨k, b, -, hb, -⟩ | ⟨δ, rfl⟩
  · have hr : r = F.state.redis := by
      cases hm with
      | launch | up | down => rfl
      | @go cmd left was | @lost cmd left was =>
        obtain ⟨past, hpast, -⟩ := hk k _ was
        exact StartCommand.serve_of_seen (hs.seen (by rw [hpast]; exact List.mem_append_right _ (.head _)))
    subst hr
    exact ⟨⟨hs.reach, hs.inUse⟩, .refl⟩
  · exact ⟨⟨hs.reach.next trivial hb, fun m hm => inUse_isSome_of_step hb (hs.inUse m hm)⟩, .step .refl trivial hb⟩
  · refine ⟨⟨hs.reach.next (a := Action.tick δ) trivial rfl, fun m hm => ?_⟩,
      .step (a := Action.tick δ) .refl trivial rfl⟩
    exact inUse_isSome_of_step (d := d) (a := Action.tick δ) rfl (hs.inUse m hm)

theorem fleet_phases (h : (fleet d).Reach Machine.Any F) : Known d F ∧ (Opening d F ∨ Serving d F) := by
  refine h.invariant (I := fun F => Known d F ∧ (Opening d F ∨ Serving d F)) ⟨nofun, .inl ?_⟩ ?_
  · exact ⟨rfl, rfl, fun m => .inl rfl, fun m => .inl rfl, fun k => nofun⟩
  · rintro G a G' - ⟨hk, hp⟩ - hs
    have hk' : Known d G' := by
      rcases Fleet.step_cases hs with ⟨k, r, p, rfl, hm⟩ | ⟨k, b, hup, hb, hproc⟩ | ⟨δ, rfl⟩
      · exact hk.moved hm
      · rcases hp with ho | hserv
        · exact absurd hup (ho.asleep k)
        · intro l left hl
          rw [hproc] at hl
          obtain ⟨past, hpast, -⟩ := hk l left hl
          refine ⟨past, hpast, fun cmd hc => (hserv.step hk hs).1.seen ?_⟩
          rw [hpast]
          exact List.mem_append_left _ hc
      · intro l left hl
        obtain ⟨past, hpast, hseen⟩ := hk l left hl
        refine ⟨past, hpast, fun cmd hc => ?_⟩
        cases cmd <;> exact hseen _ hc
    refine ⟨hk', ?_⟩
    rcases hp with ho | hserv
    · rcases Fleet.step_cases hs with ⟨k, r, p, rfl, hm⟩ | ⟨k, b, hup, -, -⟩ | ⟨δ, rfl⟩
      · exact ho.moved hk hm
      · exact absurd hup (ho.asleep k)
      · exact .inl (ho.tick δ)
    · exact .inr (hserv.step hk hs).1

/-- However many processes start, fail and start again beside each other: from the moment one is up, what the store and
the processes do is a run of the system, in which starts are not seen. -/
theorem start_up_refines (h : (fleet d).Reach Machine.Any F) (hup : F.processes k = .up)
    (hl : (fleet d).Leads Machine.Any F F') :
    (system d).Reach Machine.Any F.state ∧ (system d).Leads Machine.Any F.state F'.state := by
  obtain ⟨-, hp⟩ := fleet_phases h
  have hserv : Serving d F := hp.resolve_left fun ho => ho.asleep k hup
  refine ⟨hserv.reach, ?_⟩
  have hrun := hl.invariant (I := fun G => Serving d G ∧ (system d).Leads Machine.Any F.state G.state) ⟨hserv, .refl⟩ ?_
  · exact hrun.2
  · rintro G a G' hG ⟨hs, hlead⟩ - hstep
    obtain ⟨hs', hlead'⟩ := hs.step (fleet_phases (h.leads hG)).1 hstep
    exact ⟨hs', hlead.trans hlead'⟩

end

/-- Process `1` starts beside process `0`, is slower, and ends its start while a job of process `0` has a slot. -/
theorem start_up_refines_run : ∃ F F' : Fleet (Fin 2), (fleet (twoWorkers 1 (Int.le_refl 1))).Reach Machine.Any F ∧
    F.processes 0 = .up ∧ F'.processes 1 = .up ∧ F'.state.redis.inUseOf "chat" = 1 ∧
      (system (twoWorkers 1 (Int.le_refl 1))).Reach Machine.Any F.state ∧
        (system (twoWorkers 1 (Int.le_refl 1))).Leads Machine.Any F.state F'.state := by
  obtain ⟨F, hr, hup, hF⟩ := (fleet (twoWorkers 1 (Int.le_refl 1))).reach_of_exec Machine.Any
    ([.launch 0, .launch 1] ++ List.replicate 5 (.go 1) ++ List.replicate 7 (.go 0))
    (fun F => F.processes 0 = .up ∧ ((fleet (twoWorkers 1 (Int.le_refl 1))).exec Machine.Any F
      ((admitRun 0 (chatRequest (.obj []) .null none) "a" ++ List.replicate 4 (Action.worker (0 : Fin 2) .go)).map
        (FleetAct.run 0) ++ List.replicate 2 (FleetAct.go 1))).any (fun F' : Fleet (Fin 2) =>
          F'.processes 1 = .up ∧ F'.state.redis.inUseOf "chat" = 1) = true) (by decide +kernel)
  obtain ⟨F', hl, hup', hone⟩ : ∃ F', (fleet (twoWorkers 1 (Int.le_refl 1))).Leads Machine.Any F F' ∧
      F'.processes 1 = .up ∧ F'.state.redis.inUseOf "chat" = 1 := Machine.leads_of_any hF
  exact ⟨F, F', hr, hup, hup', hone, start_up_refines hr hup hl⟩

end AdmissionScheduler
