import AdmissionScheduler.SlotSound

/-!
# Recovery of slots

A lease scan and an integrity check, each with nothing beside it. The scan gives
back the slots of inflight jobs, the check whatever the counter then has beyond
its tolerance. A smaller surplus, left by a worker that died between its claim
and its inflight entry, stays. Beside workers, a check writes what the inflight
set was some time ago, which may be less than what they have claimed.
-/

namespace AdmissionScheduler

/-! ## What is left of a scan or a check -/

/-- The store when the rest of the scan has run with nothing beside it. -/
def Watcher.outcome (r : Redis) : Watcher → Redis
  | idle => r
  | ranging m cutoff => (r.candidates m cutoff).foldl (fun r j => r.reclaimIfOrphaned m j) r
  | checking m j rest => (j :: rest).foldl (fun r j => r.reclaimIfOrphaned m j) r
  | reclaiming m j rest ts => rest.foldl (fun r j => r.reclaimIfOrphaned m j) (r.reclaim m j ts)
  | announcing m _ rest | describing m _ rest => rest.foldl (fun r j => r.reclaimIfOrphaned m j) r

/-- The store when the rest of the check has run with nothing beside it. -/
def Checker.outcome (r : Redis) : Checker → Redis
  | idle => r
  | reading m actual recorded =>
    if drifted (recorded.getD (r.inUseOf m)) (actual.getD (r.inflight m).card) then
      r.setInUse m (actual.getD (r.inflight m).card)
    else r
  | resetting m actual _ => r.setInUse m actual

section
variable {c : AppConfig} {r r' : Redis} {es : List Event}

theorem Watcher.outcome_next (m : String) (js : List String) :
    (next m js).outcome r = js.foldl (fun r j => r.reclaimIfOrphaned m j) r := by
  cases js <;> rfl

theorem Watcher.step_outcome {p p' : Watcher} (h : p.step c r .go = some (r', p', es)) :
    p'.outcome r' = p.outcome r := by
  simp only [step, Option.map_eq_some_iff, Prod.mk.injEq] at h
  obtain ⟨⟨p₁, es₁⟩, hr, rfl, rfl, -⟩ := h
  cases p with
  | idle => cases hr
  | ranging m cutoff => cases hr; exact outcome_next _ _
  | checking m j rest =>
    cases hr
    cases hl : (r.lease j).isSome with
    | true =>
      have keep : r.reclaimIfOrphaned m j = r := if_pos hl
      simp only [if_true, outcome_next, serve]
      simp only [outcome, List.foldl_cons, keep]
    | false =>
      have take : r.reclaimIfOrphaned m j = r.reclaim m j r.now := if_neg (by simp [hl])
      simp only [serve, Bool.false_eq_true, if_false]
      simp only [outcome, List.foldl_cons, take]
  | reclaiming m j rest ts => cases hr; rfl
  | announcing m j rest => cases hr; rfl
  | describing m j rest => cases hr; exact outcome_next _ _

theorem Checker.outcome_afterRead (m : String) (actual : Option Nat) (recorded : Option Int) :
    (afterRead m actual recorded).outcome r = (reading m actual recorded).outcome r := by
  cases actual with
  | none => rfl
  | some actual =>
    cases recorded with
    | none => rfl
    | some recorded => cases hd : drifted recorded actual <;> simp [afterRead, outcome, hd]

theorem Checker.step_outcome {p p' : Checker} {b : CheckAct} (hb : b = .card ∨ b = .get ∨ b = .go)
    (h : p.step c r b = some (r', p', es)) : p'.outcome r' = p.outcome r := by
  rcases hb with rfl | rfl | rfl <;> simp only [step] at h <;> split at h <;> cases h
  · exact outcome_afterRead _ _ _
  · exact outcome_afterRead _ _ _
  · rfl

end

section
variable {ι : Type} [DecidableEq ι] {d : Deployment ι} {s t u : State ι} {m : String}

/-- One completed `_scan_model` and then one completed `_check_model`, without errors and with nothing
beside them, lead from `s` to `u`. -/
def Repaired (d : Deployment ι) (m : String) (s u : State ι) : Prop :=
  ∃ k l s₁ t t₁, step d s (.watch k (.scan m)) = some s₁ ∧
    (system d).Leads (fun _ a => a = .watch k .go) s₁ t ∧ t.watchers k = .idle ∧
    step d t (.check l (.check m)) = some t₁ ∧
    (system d).Leads (fun _ a => a = .check l .card ∨ a = .check l .get ∨ a = .check l .go) t₁ u ∧ u.checkers l = .idle

theorem scan_redis {k : Nat} {s₁ : State ι} (scan : step d s (.watch k (.scan m)) = some s₁)
    (hl : (system d).Leads (fun _ a => a = .watch k .go) s₁ t) (idle : t.watchers k = .idle) :
    t.redis = s.redis.scanModel d.config m := by
  have same : (t.watchers k).outcome t.redis = s.redis.scanModel d.config m := by
    refine hl.invariant (I := fun t => (t.watchers k).outcome t.redis = s.redis.scanModel d.config m) ?_ ?_
    · simp only [step, Watcher.step, Option.map_eq_some_iff] at scan
      obtain ⟨⟨r', p', es⟩, hp, rfl⟩ := scan
      split at hp
      · split at hp <;> cases hp
        simp only [Function.update_self]; rfl
      · cases hp
    · rintro v _ w - hv rfl hs
      change step d v (.watch k .go) = some w at hs
      simp only [step, Option.map_eq_some_iff] at hs
      obtain ⟨⟨r', p', es⟩, hp, rfl⟩ := hs
      simp only [Function.update_self, Watcher.step_outcome hp]; exact hv
  rw [idle] at same; exact same

theorem check_redis {l : Nat} {t₁ : State ι} (check : step d t (.check l (.check m)) = some t₁)
    (hl : (system d).Leads (fun _ a => a = .check l .card ∨ a = .check l .get ∨ a = .check l .go) t₁ u)
    (idle : u.checkers l = .idle) : u.redis = t.redis.checkModel m := by
  have same : (u.checkers l).outcome u.redis = t.redis.checkModel m := by
    refine hl.invariant (I := fun u => (u.checkers l).outcome u.redis = t.redis.checkModel m) ?_ ?_
    · simp only [step, Checker.step, Option.map_eq_some_iff] at check
      obtain ⟨⟨r', p', es⟩, hp, rfl⟩ := check
      split at hp
      · split at hp <;> cases hp
        simp only [Function.update_self]; rfl
      · cases hp
    · intro v a w _ hv ha hs
      obtain ⟨b, rfl, hb⟩ : ∃ b, a = .check l b ∧ (b = .card ∨ b = .get ∨ b = .go) := by
        rcases ha with rfl | rfl | rfl
        · exact ⟨_, rfl, .inl rfl⟩
        · exact ⟨_, rfl, .inr (.inl rfl)⟩
        · exact ⟨_, rfl, .inr (.inr rfl)⟩
      change step d v (.check l b) = some w at hs
      simp only [step, Option.map_eq_some_iff] at hs
      obtain ⟨⟨r', p', es⟩, hp, rfl⟩ := hs
      simp only [Function.update_self, Checker.step_outcome hb hp]; exact hv
  rw [idle] at same; exact same

/-! ## What they repair -/

theorem Redis.reclaim_slots (r : Redis) (m j : String) (ts : Nat) :
    (r.reclaim m j ts).inUseOf m = r.inUseOf m - 1 ∧
      ((r.reclaim m j ts).inflight m).members = (r.inflight m).members.erase j ∧
      (r.reclaim m j ts).lease = r.lease ∧ (r.reclaim m j ts).capacity = r.capacity := by
  refine ⟨inUseOf_add (r := r) rfl, ?_, rfl, rfl⟩
  rw [← SortedSet.members_remove]
  simp [reclaim, removeInflight, addInUse]; rfl

theorem Redis.reclaims_slots {m : String} : ∀ {js : List String} {r : Redis}, (∀ j ∈ js, r.lease j = none) →
    (js.foldl (fun r j => r.reclaimIfOrphaned m j) r).inUseOf m = r.inUseOf m - js.length ∧
      ((js.foldl (fun r j => r.reclaimIfOrphaned m j) r).inflight m).members = (r.inflight m).members \ js.toFinset ∧
      (js.foldl (fun r j => r.reclaimIfOrphaned m j) r).capacity = r.capacity
  | [], r, _ => by simp
  | j :: js, r, h => by
    have own : r.reclaimIfOrphaned m j = r.reclaim m j r.now := by
      simp [reclaimIfOrphaned, h j (List.mem_cons_self ..)]
    obtain ⟨inUse, inflight, lease, capacity⟩ := r.reclaim_slots m j r.now
    have rest : ∀ k ∈ js, (r.reclaim m j r.now).lease k = none := fun k hk => by
      rw [lease]; exact h k (List.mem_cons_of_mem _ hk)
    obtain ⟨inUse', inflight', capacity'⟩ := reclaims_slots (m := m) rest
    simp only [List.foldl_cons, own]
    refine ⟨by rw [inUse', inUse, List.length_cons]; omega, ?_, by rw [capacity', capacity]⟩
    rw [inflight', inflight]
    ext k; simp only [Finset.mem_sdiff, Finset.mem_erase, List.toFinset_cons, Finset.mem_insert]; tauto

theorem Redis.checkModel_slots (r : Redis) (m : String) :
    (r.checkModel m).inflight = r.inflight ∧ (r.checkModel m).capacity = r.capacity ∧
      (r.checkModel m).inUseOf m =
        if drifted (r.inUseOf m) (r.inflight m).card then ((r.inflight m).card : Int) else r.inUseOf m := by
  unfold checkModel
  split
  · exact ⟨rfl, rfl, by simp [inUseOf, setInUse]⟩
  · exact ⟨rfl, rfl, rfl⟩

theorem inflight_nonneg {ok : State ι → Action ι → Prop} (h : (system d).Reach ok s) {p : Int × String}
    (hp : p ∈ (s.redis.inflight m).entries) : 0 ≤ p.1 := by
  refine h.invariant (I := fun s => ∀ p ∈ (s.redis.inflight m).entries, 0 ≤ p.1) (fun p hp => by cases hp) ?_ p hp
  rintro u a v - hu - hs ⟨x, j⟩ hx
  change step d u a = some v at hs
  rcases entry_of_step hs hx with hx | ⟨i, b, t, -, -, -, rfl, -⟩
  · exact hu _ hx
  · exact Int.natCast_nonneg t

/-- The leases of all inflight jobs are gone, and their entries have passed the cutoff. -/
def Expired (d : Deployment ι) (m : String) (s : State ι) : Prop :=
  ∀ p ∈ (s.redis.inflight m).entries, s.redis.lease p.2 = none ∧ p.1 ≤ d.config.cutoff m s.redis.now

/-- How many slots the counter has beyond the inflight jobs. -/
def surplus (m : String) (s : State ι) : Int := s.redis.inUseOf m - (s.redis.inflight m).card

theorem scanModel_slots {ok : State ι → Action ι → Prop} (h : (system d).Reach ok s) (he : Expired d m s) :
    (s.redis.scanModel d.config m).inUseOf m = surplus m s ∧
      ((s.redis.scanModel d.config m).inflight m).members = ∅ ∧
      (s.redis.scanModel d.config m).capacity = s.redis.capacity := by
  have all : s.redis.candidates m (d.config.cutoff m s.redis.now) = (s.redis.inflight m).entries.map Prod.snd :=
    SortedSet.rangeByScore_all fun p hp => ⟨inflight_nonneg h hp, (he p hp).2⟩
  have lapsed : ∀ j ∈ s.redis.candidates m (d.config.cutoff m s.redis.now), s.redis.lease j = none := by
    rw [all]; intro j hj
    obtain ⟨p, hp, rfl⟩ := List.mem_map.mp hj
    exact (he p hp).1
  obtain ⟨inUse, inflight, capacity⟩ := Redis.reclaims_slots (m := m) lapsed
  refine ⟨?_, ?_, capacity⟩
  · rw [Redis.scanModel, inUse, all, List.length_map]; rfl
  · rw [Redis.scanModel, inflight, all, Finset.sdiff_eq_empty_iff_subset]
    intro j hj
    rw [List.mem_toFinset]; exact hj

/-- When all leases have expired, a scan and then a check make a slot of the model free and leave nothing
in flight exactly if the surplus is nonnegative and either below the capacity or beyond the tolerance. -/
theorem recovered_iff (h : (system d).Reach Machine.Any s) {c : Int} (hc : d.config.capacityOf m = some c)
    (he : Expired d m s) (hu : Repaired d m s u) :
    ((∀ j, j ∉ u.redis.inflight m) ∧ 0 ≤ u.redis.inUseOf m ∧ u.redis.inUseOf m < c ∧ u.redis.slotFree m = true) ↔
      0 ≤ surplus m s ∧ (surplus m s < c ∨ 2 < surplus m s) := by
  obtain ⟨k, l, s₁, t, t₁, scan, hs, idle, check, ht, idle'⟩ := hu
  obtain ⟨inUse, inflight, capacity⟩ := scanModel_slots h he
  obtain ⟨inflight', capacity', inUse'⟩ := (s.redis.scanModel d.config m).checkModel_slots m
  have hu : u.redis = (s.redis.scanModel d.config m).checkModel m := by
    rw [check_redis check ht idle', scan_redis scan hs idle]
  rw [← hu] at inflight' capacity' inUse'
  have card : ((s.redis.scanModel d.config m).inflight m).card = 0 := by
    rw [← SortedSet.card_members, inflight, Finset.card_empty]
  have empty : ∀ j, j ∉ u.redis.inflight m := fun j hj => by
    rw [inflight', ← SortedSet.mem_members, inflight] at hj; exact absurd hj (Finset.notMem_empty j)
  have free : u.redis.slotFree m = true ↔ u.redis.inUseOf m < c := by
    rw [Redis.slotFree, capacity', capacity, capacity_const h, hc]; exact decide_eq_true_iff
  have pos := AppConfig.capacity_pos hc
  rw [free, inUse', card, inUse]
  simp only [drifted, decide_eq_true_eq]
  constructor
  · rintro ⟨-, h0, hlt, -⟩
    split at h0 <;> split at hlt <;> omega
  · rintro ⟨h0, hlt⟩
    refine ⟨empty, ?_, ?_, ?_⟩ <;> split <;> omega

end

/-- Watcher `0` scans the model and then checker `0` checks it, with nothing beside them. -/
def repairRun {ι : Type} [DecidableEq ι] (d : Deployment ι) (m : String) (scan check : List (Action ι)) (s : State ι) :
    Option (State ι) :=
  (step d s (.watch 0 (.scan m))).bind fun s₁ =>
    ((system d).exec (fun _ a => a = .watch 0 .go) s₁ scan).bind fun t =>
      if t.watchers 0 = .idle then
        (step d t (.check 0 (.check m))).bind fun t₁ =>
          ((system d).exec (fun _ a => a = .check 0 .card ∨ a = .check 0 .get ∨ a = .check 0 .go) t₁ check).bind fun u =>
            if u.checkers 0 = .idle then some u else none
      else none

theorem repaired_of_run {ι : Type} [DecidableEq ι] {d : Deployment ι} {m : String} {scan check : List (Action ι)}
    {s : State ι} {P : State ι → Prop} [DecidablePred P]
    (h : (repairRun d m scan check s).any (fun u => decide (P u)) = true) : ∃ u, Repaired d m s u ∧ P u := by
  obtain ⟨u, hu, hP⟩ := (Option.any_eq_true _ _).mp h
  obtain ⟨s₁, h₁, hu⟩ := Option.bind_eq_some_iff.mp hu
  obtain ⟨t, h₂, hu⟩ := Option.bind_eq_some_iff.mp hu
  obtain ⟨idle, hu⟩ := Option.ite_none_right_eq_some.mp hu
  obtain ⟨t₁, h₃, hu⟩ := Option.bind_eq_some_iff.mp hu
  obtain ⟨u', h₄, hu⟩ := Option.bind_eq_some_iff.mp hu
  obtain ⟨idle', hu⟩ := Option.ite_none_right_eq_some.mp hu
  cases hu
  exact ⟨u, ⟨0, 0, s₁, t, t₁, h₁, Machine.leads_of_exec h₂, idle, h₃, Machine.leads_of_exec h₄, idle'⟩,
    of_decide_eq_true hP⟩

/-- The only worker with a job is killed between its claim and its inflight entry. Neither repair sees it. -/
theorem slot_never_recovers : ¬∀ s u m c, (system (twoWorkers 1 (Int.le_refl 1))).Reach Machine.Any s →
    (twoWorkers 1 (Int.le_refl 1)).config.capacityOf m = some c → (∀ i, (s.workers i).pc.job = none) →
    Expired (twoWorkers 1 (Int.le_refl 1)) m s → Repaired (twoWorkers 1 (Int.le_refl 1)) m s u →
    (∀ j, j ∉ u.redis.inflight m) ∧ 0 ≤ u.redis.inUseOf m ∧ u.redis.inUseOf m < c := by
  intro h
  obtain ⟨s, hr, idle, expired, hu⟩ := (system (twoWorkers 1 (Int.le_refl 1))).reach_of_exec Machine.Any
    (admitRun 0 (chatRequest (.obj []) .null none) "a" ++ List.replicate 4 (.worker 0 .go) ++ [.worker 0 .kill])
    (fun s => (∀ i, (s.workers i).pc.job = none) ∧ (s.redis.inflight "chat").entries = [] ∧
      (repairRun (twoWorkers 1 (Int.le_refl 1)) "chat" [.watch 0 .go] [.check 0 .card, .check 0 .get] s).any
        (fun u => u.redis.inUseOf "chat" = 1) = true) (by decide +kernel)
  obtain ⟨u, hu, one⟩ := repaired_of_run hu
  have := (h s u "chat" 1 hr (by decide) idle (by rw [Expired, expired]; nofun) hu).2.2
  rw [one] at this; exact absurd this (by decide)

/-- A worker is killed while it forwards; its lease expires and the scan gives the slot back. -/
theorem recovered_iff_run : ∃ s u, (system (twoWorkers 1 (Int.le_refl 1))).Reach Machine.Any s ∧ s.redis.inUseOf "chat" = 1 ∧
    "a" ∈ s.redis.inflight "chat" ∧ Repaired (twoWorkers 1 (Int.le_refl 1)) "chat" s u ∧
    (((∀ j, j ∉ u.redis.inflight "chat") ∧ 0 ≤ u.redis.inUseOf "chat" ∧ u.redis.inUseOf "chat" < 1 ∧
      u.redis.slotFree "chat" = true) ↔ 0 ≤ surplus "chat" s ∧ (surplus "chat" s < 1 ∨ 2 < surplus "chat" s)) := by
  obtain ⟨s, hr, inUse, mem, expired, hu⟩ := (system (twoWorkers 1 (Int.le_refl 1))).reach_of_exec Machine.Any
    (leaseLapses 0 ++ [.worker 0 .kill])
    (fun s => s.redis.inUseOf "chat" = 1 ∧ "a" ∈ s.redis.inflight "chat" ∧
      (∀ p ∈ (s.redis.inflight "chat").entries, s.redis.lease p.2 = none ∧
        p.1 ≤ (twoWorkers 1 (Int.le_refl 1)).config.cutoff "chat" s.redis.now) ∧
      (repairRun (twoWorkers 1 (Int.le_refl 1)) "chat" (List.replicate 5 (.watch 0 .go)) [.check 0 .get, .check 0 .card] s).any
        (fun u => u.redis.inUseOf "chat" = 0) = true) (by decide +kernel)
  obtain ⟨u, hu, -⟩ := repaired_of_run hu
  exact ⟨s, u, hr, inUse, mem, hu, recovered_iff hr (by decide) expired hu⟩

/-! ## A check beside the workers -/

def slotClaims (m : String) (t : List Event) : Nat :=
  t.countP fun e => match e with | .claimed m' _ => m' = m | _ => false

def slotReleases (m : String) (t : List Event) : Nat :=
  t.countP fun e => match e with | .decremented m' _ => m' = m | _ => false

theorem slotClaims_append (m : String) (es t : List Event) :
    slotClaims m (es ++ t) = slotClaims m (es.filter Event.isSlot) + slotClaims m t := by
  rw [slotClaims, List.countP_append, slotClaims, List.countP_filter]
  congr 2
  funext e
  cases e <;> simp [Event.isSlot]

theorem slotReleases_append (m : String) (es t : List Event) :
    slotReleases m (es ++ t) = slotReleases m (es.filter Event.isSlot) + slotReleases m t := by
  rw [slotReleases, List.countP_append, slotReleases, List.countP_filter]
  congr 2
  funext e
  cases e <;> simp [Event.isSlot]

section
variable {ι : Type} [Fintype ι] [DecidableEq ι] {d : Deployment ι} {s s' t : State ι} {m : String} {a : Action ι}

omit [Fintype ι] [DecidableEq ι] in
def Balanced (m : String) (s s' : State ι) : Prop :=
  s'.redis.inUseOf m + slotReleases m s'.trace + slotClaims m s.trace =
    s.redis.inUseOf m + slotReleases m s.trace + slotClaims m s'.trace

omit [Fintype ι] [DecidableEq ι] in
theorem balanced_quiet {es : List Event} (trace : s'.trace = es ++ s.trace) (events : es.filter Event.isSlot = [])
    (inUse : s'.redis.inUseOf m = s.redis.inUseOf m) : Balanced m s s' := by
  rw [Balanced, trace, slotReleases_append, slotClaims_append, events, inUse]
  simp [slotReleases, slotClaims]

omit [Fintype ι] in
theorem balanced_step (ha : calm s a = true) (h : step d s a = some s') : Balanced m s s' := by
  cases a with
  | worker i b =>
    simp only [step, Option.map_eq_some_iff] at h
    obtain ⟨⟨r', w', es⟩, hw, rfl⟩ := h
    cases Worker.step_slots hw with
    | skip inUse inflight slot events | track before after inUse inflight events
    | abandon before after act inUse inflight events =>
      exact balanced_quiet rfl events (Redis.inUseOf_congr inUse)
    | leak act => rw [calm, act] at ha; cases ha
    | @claim j ts act pc after free inUse inflight events =>
      rw [Balanced]
      simp only [slotReleases_append, slotClaims_append, events]
      by_cases hm : (s.workers i).model = m
      · subst hm
        simp only [Redis.inUseOf_add inUse]
        simp [slotReleases, slotClaims]; omega
      · simp only [Redis.inUseOf_add_ne inUse (Ne.symm hm)]
        simp [slotReleases, slotClaims, hm]
    | @release j before after inUse inflight events =>
      rw [Balanced]
      simp only [slotReleases_append, slotClaims_append, events]
      by_cases hm : (s.workers i).model = m
      · subst hm
        simp only [Redis.inUseOf_add inUse]
        simp [slotReleases, slotClaims]
      · simp only [Redis.inUseOf_add_ne inUse (Ne.symm hm)]
        simp [slotReleases, slotClaims, hm]
  | admission k b =>
    simp only [step, Option.ite_none_right_eq_some, Option.map_eq_some_iff] at h
    obtain ⟨-, ⟨r', p', es⟩, hp, rfl⟩ := h
    exact balanced_quiet rfl (Admit.events_slots hp) (Redis.inUseOf_congr (Admit.step_slots hp).1)
  | cancel k b =>
    simp only [step, Option.map_eq_some_iff] at h
    obtain ⟨⟨r', p', es⟩, hp, rfl⟩ := h
    exact balanced_quiet rfl (Cancel.events_slots hp) (Redis.inUseOf_congr (Cancel.step_slots hp).1)
  | watch k b =>
    simp only [step, Option.map_eq_some_iff] at h
    obtain ⟨⟨r', p', es⟩, hp, rfl⟩ := h
    rcases Watcher.step_slots hp with ⟨hr, events⟩ | ⟨m', j, rest, ts, takes, pc, hr, events⟩
    · exact balanced_quiet rfl events (by simp only [hr])
    · simp [calm, pc, takes] at ha
  | check k b =>
    simp only [step, Option.map_eq_some_iff] at h
    obtain ⟨⟨r', p', es⟩, hp, rfl⟩ := h
    obtain ⟨events, hr | ⟨m', n, recorded, takes, pc, hr⟩⟩ := Checker.step_slots hp
    · exact balanced_quiet rfl events (by simp only [hr])
    · simp [calm, pc, takes] at ha
  | tick δ => cases h; exact balanced_quiet (List.nil_append _).symm rfl rfl

omit [Fintype ι] in
theorem balanced_of_leads (h : (system d).Leads (fun s a => calm s a = true) s t) : Balanced m s t := by
  refine h.invariant (I := fun t => Balanced m s t) rfl fun u a v _ hu ha hs => ?_
  have := balanced_step (m := m) ha hs
  unfold Balanced at *
  omega

omit [Fintype ι] in
theorem events_of_leads {ok : State ι → Action ι → Prop} (h : (system d).Leads ok s t) :
    ∃ es, t.trace = es ++ s.trace := by
  refine h.invariant (I := fun t => ∃ es, t.trace = es ++ s.trace) ⟨[], rfl⟩ ?_
  rintro u a v - ⟨es, hu⟩ - hs
  obtain ⟨es', hv⟩ := events_of_step hs
  exact ⟨es' ++ es, by rw [hv, hu, List.append_assoc]⟩

omit [DecidableEq ι] in
/-- The jobs of `m` that have been claimed and not yet released, and are not in flight. -/
def untracked (m : String) (s : State ι) : Finset String := outstanding m s.trace \ (s.redis.inflight m).members

omit [Fintype ι] [DecidableEq ι] in
def sameCheck (k : Nat) : Action ι → Bool
  | .check l (.check _) => l ≠ k
  | _ => true

def Checker.Read (m : String) (n : Nat) : Checker → Prop
  | reading m' actual _ => m' = m ∧ actual = some n
  | resetting m' actual _ => m' = m ∧ actual = n
  | idle => True

theorem Checker.afterRead_read {n : Nat} (recorded : Option Int) : (afterRead m (some n) recorded).Read m n := by
  cases recorded with
  | none => exact ⟨rfl, rfl⟩
  | some u => cases h : drifted u n <;> simp [afterRead, Read, h]

theorem Checker.step_read {c : AppConfig} {r r' : Redis} {p p' : Checker} {b : CheckAct} {es : List Event} {n : Nat}
    (h : p.step c r b = some (r', p', es)) (hb : ∀ m', b ≠ .check m') (hp : p.Read m n) : p'.Read m n := by
  cases b with
  | check m' => exact absurd rfl (hb m')
  | card =>
    simp only [step] at h
    split at h <;> cases h
    obtain ⟨-, hn⟩ := hp; cases hn
  | get =>
    simp only [step] at h
    split at h <;> cases h
    obtain ⟨rfl, rfl⟩ := hp; exact afterRead_read _
  | go => simp only [step] at h; split at h <;> cases h; trivial
  | fail took => cases p <;> cases h <;> trivial
  | cancel took =>
    obtain ⟨rfl, -⟩ := step_cancel h
    trivial

omit [Fintype ι] in
theorem read_of_card {k : Nat} {s₁ : State ι} (card : step d s (.check k .card) = some s₁) {recorded : Option Int}
    (was : s.checkers k = .reading m none recorded)
    (h : (system d).Leads (fun s a => calm s a = true ∧ sameCheck k a = true) s₁ t) :
    (t.checkers k).Read m (s.redis.inflight m).card := by
  refine h.invariant (I := fun t => (t.checkers k).Read m (s.redis.inflight m).card) ?_ fun u a v _ hu ha hs => ?_
  · simp only [step, Checker.step, was, Option.map_some, Option.some.injEq] at card
    subst card
    simp only [Function.update_self]; exact Checker.afterRead_read _
  · rcases checker_of_step hs k with hs' | ⟨b, es, rfl, hs', -⟩
    · rw [hs']; exact hu
    · exact Checker.step_read hs' (by rintro m' rfl; simp [sameCheck] at ha) hu

/-- Beside workers that only claim, track and release, the value a check writes is no smaller than the
number of claimed slots if and only if, since it read the inflight set, at least as many slots were
released as were claimed since then or had been claimed and were not yet in flight. -/
theorem reset_covers_iff {c : Int} (hc : d.config.capacityOf m = some c)
    (h : (system d).Reach (fun s a => calm s a = true) s) {k : Nat} {s₁ : State ι}
    (card : step d s (.check k .card) = some s₁) {recorded : Option Int} (was : s.checkers k = .reading m none recorded)
    (hl : (system d).Leads (fun s a => calm s a = true ∧ sameCheck k a = true) s₁ t) {n : Nat} {u : Int}
    (pc : t.checkers k = .resetting m n u) :
    (outstanding m t.trace).card ≤ n ↔
      (untracked m s).card + (slotClaims m t.trace - slotClaims m s.trace) ≤
        slotReleases m t.trace - slotReleases m s.trace := by
  have quiet : calm s (.check k .card) = true := by simp [calm, was]
  have first : (system d).Leads (fun s a => calm s a = true) s s₁ := .step .refl quiet card
  have run := first.trans (hl.mono fun _ _ h => h.1)
  have read := read_of_card card was hl
  rw [pc] at read
  obtain ⟨inUse, -, -, inflight, -⟩ := slots_exact hc h
  obtain ⟨inUse', -⟩ := slots_exact hc (h.leads run)
  have balance : Balanced m s t := balanced_of_leads run
  have parts : (untracked m s).card + (s.redis.inflight m).card = (outstanding m s.trace).card := by
    rw [untracked, ← SortedSet.card_members]
    exact Finset.card_sdiff_add_card_eq_card fun j hj => inflight j hj
  obtain ⟨es, hes⟩ := events_of_leads run
  have claims : slotClaims m s.trace ≤ slotClaims m t.trace := by rw [hes, slotClaims_append]; omega
  have releases : slotReleases m s.trace ≤ slotReleases m t.trace := by rw [hes, slotReleases_append]; omega
  rw [Balanced] at balance
  have := read.2
  omega

end

/-- Requests `0`, `1` and `2` are admitted, and each of three workers claims a slot. -/
def threeClaims : List (Action (Fin 3)) :=
  admitRun 0 (chatRequest (.obj []) .null none) "a" ++ admitRun 1 (chatRequest (.obj []) .null none) "b" ++
    admitRun 2 (chatRequest (.obj []) .null none) "c" ++ List.replicate 4 (.worker 0 .go) ++
    List.replicate 4 (.worker 1 .go) ++ List.replicate 4 (.worker 2 .go)

/-- What a worker does for its job from its inflight entry to its release. -/
def finishRun {ι : Type} (i : ι) : List (Action ι) :=
  List.replicate 2 (.worker i .go) ++ [.worker i (.respond (.ok (.obj [])))] ++ List.replicate 3 (.worker i .go)

/-- A check reads the inflight set and the counter between the claims of three workers and their
inflight entries, and is about to write 0. -/
theorem reset_erases : ¬∀ t, (system (chatWorkers 3 3 50 (by decide) (by decide))).Reach (fun s a => calm s a = true) t →
    ∀ k m n u, t.checkers k = .resetting m n u → (outstanding m t.trace).card ≤ n := by
  intro h
  obtain ⟨t, hr, pc, three⟩ := (system (chatWorkers 3 3 50 (by decide) (by decide))).reach_of_exec
    (fun s a => calm s a = true) (threeClaims ++ [.check 0 (.check "chat"), .check 0 .card, .check 0 .get])
    (fun t => t.checkers 0 = .resetting "chat" 0 3 ∧ (outstanding "chat" t.trace).card = 3) (by decide +kernel)
  have := h t hr 0 "chat" 0 3 pc
  rw [three] at this; exact absurd this (by decide)

/-- The three jobs are released before the check writes. -/
theorem reset_covers_iff_run : ∃ s s₁ t,
    (system (chatWorkers 3 3 50 (by decide) (by decide))).Reach (fun s a => calm s a = true) s ∧
    step (chatWorkers 3 3 50 (by decide) (by decide)) s (.check 0 .card) = some s₁ ∧
    (system (chatWorkers 3 3 50 (by decide) (by decide))).Leads
      (fun s a => calm s a = true ∧ sameCheck 0 a = true) s₁ t ∧
    t.checkers 0 = .resetting "chat" 0 3 ∧ ((outstanding "chat" t.trace).card ≤ 0 ↔
      (untracked "chat" s).card + (slotClaims "chat" t.trace - slotClaims "chat" s.trace) ≤
        slotReleases "chat" t.trace - slotReleases "chat" s.trace) := by
  obtain ⟨s, hr, was, hs⟩ := (system (chatWorkers 3 3 50 (by decide) (by decide))).reach_of_exec
    (fun s a => calm s a = true) (threeClaims ++ [.check 0 (.check "chat")])
    (fun s => s.checkers 0 = .reading "chat" none none ∧
      ((step (chatWorkers 3 3 50 (by decide) (by decide)) s (.check 0 .card)).any fun s₁ =>
        ((system (chatWorkers 3 3 50 (by decide) (by decide))).exec
          (fun s a => calm s a = true ∧ sameCheck 0 a = true)
          s₁ ([.check 0 .get] ++ finishRun 0 ++ finishRun 1 ++ finishRun 2)).any fun t =>
            t.checkers 0 = .resetting "chat" 0 3) = true) (by decide +kernel)
  obtain ⟨s₁, hs, ht⟩ := (Option.any_eq_true _ _).mp hs
  obtain ⟨t, hl, pc⟩ := Machine.leads_of_any ht
  exact ⟨s, s₁, t, hr, hs, hl, pc, reset_covers_iff (c := 3) (by decide) hr hs was hl pc⟩

end AdmissionScheduler
