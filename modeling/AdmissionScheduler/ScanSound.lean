import AdmissionScheduler.System

/-!
# One scan by itself

The loop of `_scan_model` reads and changes the inflight set, the counter and
the dead-letter queue that its candidate list came from. What it has done after
any number of candidates is one change of the store, that of the set of jobs it
has reclaimed so far; at the end this is the set of orphans, and the scan finds
none of them again.
-/

namespace AdmissionScheduler

namespace Redis

/-- The inflight jobs with a score from `0` to the cutoff and no live lease. -/
def orphans (r : Redis) (c : AppConfig) (m : String) : Finset String :=
  (r.inflight m).members.filter fun j =>
    r.lease j = none ∧ ∃ p ∈ (r.inflight m).entries, p.2 = j ∧ 0 ≤ p.1 ∧ p.1 ≤ c.cutoff m r.now

/-- The hash of a job whose worker has crashed, as written at `ts`. -/
def crashed (h : JobHash) (ts : Nat) : JobHash :=
  { h with status := some .failed, errorClass := some .workerCrash, completeTs := some ts }

/-- `r'` is `r` with the jobs of `js` reclaimed for the model `m` and everything else as it was. -/
structure Reclaimed (r r' : Redis) (m : String) (js : Finset String) : Prop where
  inflight : (r'.inflight m).entries = (r.inflight m).entries.filter fun p => p.2 ∉ js
  dlq : r'.dlq m = js ∪ r.dlq m
  inUse : r'.inUseOf m = r.inUseOf m - js.card
  failed : ∀ j ∈ js, r'.job j = some ⟨crashed (r.hashOf j) r.now, some (r.now + jobTerminalTtl)⟩
  others : ∀ j ∉ js, r'.job j = r.job j
  models : ∀ m' ≠ m, r'.inflight m' = r.inflight m' ∧ r'.dlq m' = r.dlq m' ∧ r'.inUse m' = r.inUse m'
  lease : r'.lease = r.lease
  now : r'.now = r.now
  frame : r'.capacity = r.capacity ∧ r'.queue = r.queue ∧ r'.seq = r.seq ∧ r'.idem = r.idem

section
variable {r r' : Redis} {c : AppConfig} {m j : String} {js : Finset String}

theorem Reclaimed.refl (r : Redis) (m : String) : Reclaimed r r m ∅ where
  inflight := by simp
  dlq := by simp
  inUse := by simp
  failed j hj := absurd hj (Finset.notMem_empty j)
  others _ _ := rfl
  models _ _ := ⟨rfl, rfl, rfl⟩
  lease := rfl
  now := rfl
  frame := ⟨rfl, rfl, rfl, rfl⟩

/-- One more reclaim. -/
theorem Reclaimed.step (h : Reclaimed r r' m js) (hj : j ∉ js) :
    Reclaimed r (r'.reclaim m j r'.now) m (insert j js) where
  inflight := by
    have removed : ((r'.reclaim m j r'.now).inflight m).entries = (r'.inflight m).entries.filter (·.2 ≠ j) := by
      simp only [reclaim, removeInflight, Function.update_self]; rfl
    rw [removed, h.inflight, List.filter_filter]
    refine List.filter_congr fun p _ => ?_
    simp only [Finset.mem_insert, not_or, decide_not, Bool.decide_and]
  dlq := by
    simp only [reclaim, Function.update_self, h.dlq, Finset.insert_union]
  inUse := by
    have counted : (r'.reclaim m j r'.now).inUseOf m = r'.inUseOf m - 1 := by
      simp [reclaim, removeInflight, addInUse, inUseOf, finish, hset, expire, Int.sub_eq_add_neg]
    rw [counted, h.inUse, Finset.card_insert_of_notMem hj]; omega
  failed k hk := by
    by_cases hkj : k = j
    · subst hkj
      have same : r'.hashOf k = r.hashOf k := by rw [hashOf, h.others k hj]; rfl
      simp only [reclaim, removeInflight, addInUse, finish, expire, hset, Function.update_self, Option.map_some, same,
        h.now]
      rfl
    · rw [reclaim_job_ne hkj]
      exact h.failed k ((Finset.mem_insert.mp hk).resolve_left hkj)
  others k hk := by
    rw [Finset.mem_insert, not_or] at hk
    rw [reclaim_job_ne hk.1, h.others k hk.2]
  models m' hm := by
    obtain ⟨inflight, dlq, inUse⟩ := h.models m' hm
    refine ⟨?_, ?_, ?_⟩
    · simp only [reclaim, removeInflight, Function.update_of_ne hm]; exact inflight
    · simp only [reclaim, Function.update_of_ne hm]; exact dlq
    · simp only [reclaim, removeInflight, addInUse, Function.update_of_ne hm]; exact inUse
  lease := h.lease
  now := h.now
  frame := h.frame

/-- The loop over candidates without a job twice. -/
theorem Reclaimed.scan {ks : List String} (h : Reclaimed r r' m js) (distinct : ks.Nodup) (fresh : ∀ k ∈ ks, k ∉ js) :
    Reclaimed r (ks.foldl (fun r k => r.reclaimIfOrphaned m k) r') m
      (js ∪ (ks.filter fun k => r.lease k = none).toFinset) := by
  induction ks generalizing r' js with
  | nil => simpa using h
  | cons k ks ih =>
    obtain ⟨hk, distinct⟩ := List.nodup_cons.mp distinct
    have rest : ∀ l ∈ ks, l ∉ js := fun l hl => fresh l (List.mem_cons_of_mem _ hl)
    rw [List.foldl_cons]
    cases live : r.lease k with
    | some t =>
      have kept : r'.reclaimIfOrphaned m k = r' := if_pos (by rw [h.lease, live]; rfl)
      have skip : ((k :: ks).filter fun l => r.lease l = none) = ks.filter fun l => r.lease l = none := by
        rw [List.filter_cons_of_neg (by simp [live])]
      rw [kept, skip]
      exact ih h distinct rest
    | none =>
      have taken : r'.reclaimIfOrphaned m k = r'.reclaim m k r'.now := if_neg (by rw [h.lease, live]; simp)
      have more : js ∪ ((k :: ks).filter fun l => r.lease l = none).toFinset =
          insert k js ∪ (ks.filter fun l => r.lease l = none).toFinset := by
        rw [List.filter_cons_of_pos (by simp [live]), List.toFinset_cons, Finset.union_insert, Finset.insert_union]
      rw [taken, more]
      refine ih (h.step (fresh k (List.mem_cons_self ..))) distinct fun l hl => ?_
      rw [Finset.mem_insert, not_or]
      exact ⟨fun e => hk (e ▸ hl), rest l hl⟩

theorem candidates_nodup (r : Redis) (m : String) (cutoff : Int) : (r.candidates m cutoff).Nodup :=
  (r.inflight m).nodup.sublist (List.filter_sublist.map _)

theorem mem_candidates {cutoff : Int} :
    j ∈ r.candidates m cutoff ↔ ∃ x, (x, j) ∈ (r.inflight m).entries ∧ 0 ≤ x ∧ x ≤ cutoff :=
  SortedSet.mem_rangeByScore

theorem orphans_eq (r : Redis) (c : AppConfig) (m : String) :
    ((r.candidates m (c.cutoff m r.now)).filter fun j => r.lease j = none).toFinset = r.orphans c m := by
  ext j
  simp only [List.mem_toFinset, List.mem_filter, mem_candidates, decide_eq_true_eq, orphans, Finset.mem_filter]
  constructor
  · rintro ⟨⟨x, hx, h0, hc⟩, hl⟩
    exact ⟨(SortedSet.mem_iff _).mpr ⟨x, hx⟩, hl, (x, j), hx, rfl, h0, hc⟩
  · rintro ⟨-, hl, ⟨x, k⟩, hx, rfl, h0, hc⟩
    exact ⟨⟨x, hx, h0, hc⟩, hl⟩

theorem scanModel_reclaimed (r : Redis) (c : AppConfig) (m : String) :
    Reclaimed r (r.scanModel c m) m (r.orphans c m) := by
  have := (Reclaimed.refl r m).scan (candidates_nodup r m (c.cutoff m r.now)) fun k _ => Finset.notMem_empty k
  rwa [Finset.empty_union, orphans_eq] at this

/-- After the scan no orphan is left. -/
theorem Reclaimed.orphans_empty (h : Reclaimed r r' m (r.orphans c m)) : r'.orphans c m = ∅ := by
  rw [Finset.eq_empty_iff_forall_notMem]
  intro j hj
  simp only [orphans, Finset.mem_filter, h.lease, h.now] at hj
  obtain ⟨-, lapsed, p, hp, rfl, h0, hc⟩ := hj
  rw [h.inflight, List.mem_filter, decide_eq_true_eq] at hp
  refine hp.2 (Finset.mem_filter.mpr ⟨(SortedSet.mem_iff _).mpr ⟨p.1, hp.1⟩, lapsed, p, hp.1, rfl, h0, hc⟩)

theorem scanModel_of_no_orphans (h : r.orphans c m = ∅) : r.scanModel c m = r := by
  have live : ∀ k ∈ r.candidates m (c.cutoff m r.now), r.reclaimIfOrphaned m k = r := by
    intro k hk
    by_cases hl : r.lease k = none
    · have : k ∈ r.orphans c m := by
        rw [← orphans_eq, List.mem_toFinset, List.mem_filter]; exact ⟨hk, by simpa using hl⟩
      rw [h] at this; exact absurd this (Finset.notMem_empty k)
    · exact if_pos (Option.isSome_iff_ne_none.mpr hl)
  unfold scanModel
  revert live
  generalize r.candidates m (c.cutoff m r.now) = ks
  intro live
  induction ks with
  | nil => rfl
  | cons k ks ih =>
    rw [List.foldl_cons, live k (List.mem_cons_self ..)]
    exact ih fun l hl => live l (List.mem_cons_of_mem _ hl)

end

end Redis

/-- A scan reclaims exactly the inflight jobs with a score from `0` to the cutoff and no live lease, leaves
everything else as it was, and changes nothing when repeated at the same time. -/
theorem scan_exact (r : Redis) (c : AppConfig) (m : String) :
    Redis.Reclaimed r (r.scanModel c m) m (r.orphans c m) ∧ (r.scanModel c m).scanModel c m = r.scanModel c m := by
  have scanned := r.scanModel_reclaimed c m
  exact ⟨scanned, Redis.scanModel_of_no_orphans scanned.orphans_empty⟩

/-- A quarter of an hour after the epoch, one job of the model `chat` is in flight with the score `-1` and has
no lease. -/
def beforeEpoch : Redis :=
  { chatOnly.initRedis with
    now := 900 * second
    inflight := Function.update (fun _ => .empty) "chat" (SortedSet.empty.add "a" (-1)) }

/-- `ZRANGEBYSCORE` starts at `0`, so a job with a negative score stays in flight. -/
theorem negative_score_stays : ¬∀ (r : Redis) (c : AppConfig) (m j : String) (x : Int),
    (x, j) ∈ (r.inflight m).entries → x ≤ c.cutoff m r.now → r.lease j = none →
      j ∉ (r.scanModel c m).inflight m := by
  intro h
  exact h beforeEpoch chatOnly "chat" "a" (-1) (by decide) (by decide) rfl (by decide)

end AdmissionScheduler
