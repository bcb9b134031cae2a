import AdmissionScheduler.SyncReply
import AdmissionScheduler.CancelSound

/-!
# The answer of a sync call

The response of the backend is written once and stays in the hash as long as the
hash is there: no other worker ever has a response for the job. The handler
tests the response it loads for truth, so an empty object is no answer to it.
-/

namespace AdmissionScheduler

section
variable {ι : Type} [DecidableEq ι] {d : Deployment ι} {s s' t : State ι} {a : Action ι} {j : String} {response : Json}
  {codes : String → List Nat}

/-- The step from `s` to `s'` records the response as the result of the job. -/
def Records (d : Deployment ι) (s s' : State ι) (j : String) (response : Json) : Prop :=
  ∃ i b info ts, (s.workers i).pc = .marking j info (.completed response) ts ∧ b.takes = true ∧
    step d s (.worker i b) = some s'

theorem JobHash.put_responseBlob (field value : Text) (h : JobHash) : (h.put field value).responseBlob = h.responseBlob := by
  unfold put
  split_ifs <;> rfl

theorem JobHash.putAll_responseBlob {ps : List Text} {h h' : JobHash} (hp : putAll ps h = some h') :
    h'.responseBlob = h.responseBlob := by
  fun_induction putAll ps h with
  | case1 => cases hp; rfl
  | case2 => cases hp
  | case3 h f v rest ih => rw [ih hp, put_responseBlob]

theorem Verdict.write_responseBlob (v : Verdict) (ts : Nat) (h : JobHash) (hv : ∀ x, v ≠ .completed x) :
    (v.write ts h).responseBlob = h.responseBlob := by
  cases v with
  | completed x => exact absurd rfl (hv x)
  | failed | cancelled => rfl

/-- A step changes the response in the hash only by recording one. -/
theorem responseBlob_of_step (hl : Life s) (h : step d s a = some s')
    (hb : s'.redis.loadResponseBlob j = some response) :
    s.redis.loadResponseBlob j = some response ∨ Records d s s' j response := by
  have hw := hash_write (j := j) hl h
  have kept : ∀ {e : Entry JobHash}, s'.redis.job j = some e → e.value.responseBlob = s.redis.loadResponseBlob j →
      s.redis.loadResponseBlob j = some response := by
    intro e he hr
    rw [Redis.loadResponseBlob, Redis.hashOf, he] at hb
    exact hr.symm.trans hb
  generalize hx : s'.redis.job j = x at hw
  cases hw with
  | keep => rw [Redis.loadResponseBlob, Redis.hashOf, hx] at hb; exact .inl hb
  | purge act old ttl => rw [Redis.loadResponseBlob, Redis.hashOf, hx] at hb; cases hb
  | mark act takes pc =>
    rename_i i b info v ts
    cases v with
    | completed x =>
      rw [Redis.loadResponseBlob, Redis.hashOf, hx] at hb
      cases hb
      exact .inr ⟨i, b, info, ts, pc, takes, act ▸ h⟩
    | failed | cancelled => exact .inl (kept hx rfl)
  | claim | clean | cancelled | cancelling | reclaim | store => exact .inl (kept hx rfl)
  | expire act pc =>
    cases he : s.redis.job j with
    | none => rw [Redis.loadResponseBlob, Redis.hashOf, hx, he] at hb; cases hb
    | some e =>
      refine .inl (kept (e := ⟨e.value, some (s.redis.now + jobTerminalTtl)⟩) (by rw [hx, he]; rfl) ?_)
      rw [Redis.loadResponseBlob, Redis.hashOf, he]; rfl
  | enqueue act pc absent hash event =>
    rw [Redis.loadResponseBlob, Redis.hashOf, hx] at hb
    exact absurd ((JobHash.putAll_responseBlob hash).symm.trans hb) (Option.some_ne_none _).symm

theorem recorded_of_responseBlob (h : (system d).Reach Machine.Any s)
    (hb : s.redis.loadResponseBlob j = some response) :
    ∃ u v, (system d).Reach Machine.Any u ∧ Records d u v j response ∧ (system d).Leads Machine.Any v s := by
  refine h.invariant (I := fun s => s.redis.loadResponseBlob j = some response → ∃ u v,
    (system d).Reach Machine.Any u ∧ Records d u v j response ∧ (system d).Leads Machine.Any v s)
    (fun hb => by cases hb) (fun u a v hr hu ha hs hb => ?_) hb
  rcases responseBlob_of_step (life hr) hs hb with hb | rec
  · obtain ⟨u₀, v₀, hr₀, rec, hv₀⟩ := hu hb
    exact ⟨u₀, v₀, hr₀, rec, hv₀.step ha hs⟩
  · exact ⟨u, v, hr, rec, .refl⟩

/-- After the result is recorded no worker gets to another result of the job. -/
theorem Records.outOfReach (h : (system d).Reach Machine.Any s) (rec : Records d s s' j response) :
    OutOfReach s' j ∧ s'.redis.loadResponseBlob j = some response ∧ stage s'.trace j ≠ .unborn := by
  obtain ⟨i, b, info, ts, pc, takes, hs⟩ := rec
  have hl := life h
  have hl' := life_step hl hs
  have mine : (s.workers i).pc.job = some j := by rw [pc]; rfl
  have forwarded : stage s.trace j = .forwarded (s.workers i).model := by
    have := hl.worker i j mine
    rwa [pc] at this
  have after : (s'.workers i).undecided = none ∧ s'.redis.loadResponseBlob j = some response := by
    rcases worker_of_step hs i with ⟨hne, -⟩ | ⟨b', es, act, hw, -⟩
    · exact absurd rfl (hne b)
    cases act
    have redis := Worker.redis_of_takes hw takes
    constructor
    · cases b with
      | go | fail took =>
        simp only [Worker.step, pc, Pc.resume, Pc.onError, Option.map_some, Option.some.injEq, Prod.mk.injEq] at hw
        obtain ⟨-, hw, -⟩ := hw
        rw [← hw]; rfl
      | cancel took =>
        simp only [Worker.step, pc, Pc.interrupt, Option.ite_none_right_eq_some, Option.map_some, Option.some.injEq,
          Prod.mk.injEq] at hw
        obtain ⟨-, -, hw, -⟩ := hw
        rw [← hw]; rfl
      | respond _ | timeout | stop | kill | start => cases takes
    · rw [redis, pc, Redis.loadResponseBlob, Redis.hashOf, Pc.serve, Redis.finish_job]; rfl
  have stays : stage s'.trace j = .forwarded (s.workers i).model := by
    have hm := stage_move (j := j) hl hs
    generalize stage s'.trace j = x at hm ⊢
    cases hm with
    | keep => exact forwarded
    | enqueue _ _ was | pop _ _ _ _ was | claim _ _ _ was | forward _ _ was | cancelled _ _ was =>
      rw [forwarded] at was; cases was
  refine ⟨⟨fun k hq => (by rw [stays] at hq; cases hq), fun k hk => ?_⟩, after.2, by rw [stays]; simp⟩
  by_cases hki : k = i
  · subst hki; rw [after.1] at hk; cases hk
  · rcases worker_of_step hs k with ⟨-, hw⟩ | ⟨_, _, act, -, -⟩
    · rw [hw] at hk
      exact hki (hl.exclusive k i j (Worker.undecided_job hk) mine)
    · cases act; exact hki rfl

/-- The response stays in the hash while the hash is there. -/
theorem responseBlob_kept (h : (system d).Reach Machine.Any s) (rec : Records d s s' j response)
    (hl : (system d).Leads (fun u _ => (u.redis.job j).isSome) s' t) (alive : (t.redis.job j).isSome) :
    t.redis.loadResponseBlob j = some response := by
  obtain ⟨i, b, -, -, -, -, hs⟩ := id rec
  have h' : (system d).Reach Machine.Any s' := h.next (a := .worker i b) trivial hs
  have start := rec.outOfReach h
  have kept := hl.invariant (I := fun t => (OutOfReach t j ∧ stage t.trace j ≠ .unborn) ∧
    ((t.redis.job j).isSome → t.redis.loadResponseBlob j = some response)) ⟨⟨start.1, start.2.2⟩, fun _ => start.2.1⟩ ?_
  · exact kept.2 alive
  intro u a v hu ⟨⟨out, born⟩, blob⟩ ha hs
  have hlu := life (h'.leads hu.any)
  have hw := hash_write (j := j) hlu hs
  refine ⟨⟨outOfReach_step hlu born out hs, ?_⟩, fun hv => ?_⟩
  · have hm := stage_move (j := j) hlu hs
    generalize stage v.trace j = x at hm ⊢
    cases hm <;> first | exact born | simp
  have blob := blob ha
  have same : ∀ {e : Entry JobHash}, v.redis.job j = some e → e.value.responseBlob = u.redis.loadResponseBlob j →
      v.redis.loadResponseBlob j = some response := by
    intro e he hr
    rw [← blob, ← hr, Redis.loadResponseBlob, Redis.hashOf, he]; rfl
  generalize hx : v.redis.job j = x at hw
  cases hw with
  | keep => rw [← blob, Redis.loadResponseBlob, Redis.hashOf, hx]; rfl
  | purge => rw [hx] at hv; cases hv
  | mark act takes pc =>
    rename_i i b info v ts
    refine same hx (v.write_responseBlob _ _ ?_)
    rintro y rfl
    exact out.undecided i (by rw [Worker.undecided, pc])
  | claim | clean | cancelled | cancelling | reclaim | store => exact same hx rfl
  | expire act pc =>
    cases he : u.redis.job j with
    | none => rw [he] at ha; cases ha
    | some e =>
      refine same (e := ⟨e.value, some (u.redis.now + jobTerminalTtl)⟩) (by rw [hx, he]; rfl) ?_
      rw [Redis.loadResponseBlob, Redis.hashOf, he]; rfl
  | enqueue act pc absent => rw [absent] at ha; cases ha

/-! ## The reply -/

theorem statusToHttp_ne_ok (status : JobStatus) : statusToHttp status ≠ 200 := by
  cases status <;> decide

theorem syncReply_completed {c : AppConfig} {r : Redis} {model : String} (hb : r.loadResponseBlob j = some response) :
    syncReply codes c r model j (some .completed) = some ⟨200, response, [("X-Job-Id", j)]⟩ ↔
      response.truthy = true ∧ response.finite = true ∧ response.utf8 codes = true := by
  unfold syncReply jsonResponse
  simp only [hb, if_true]
  cases response.truthy with
  | true => cases response.finite <;> cases response.utf8 codes <;> simp
  | false => simp only [Bool.false_eq_true, if_false, false_and, iff_false]; split <;> simp [statusToHttp_ne_ok]

theorem syncReply_ok {c : AppConfig} {r : Redis} {model : String} {result : Option JobStatus} {reply : Reply}
    (h : syncReply codes c r model j result = some reply) (code : reply.code = 200) :
    result = some .completed ∧ r.loadResponseBlob j = some reply.content := by
  have not_ok : ∀ {status content headers}, jsonResponse codes (statusToHttp status) content headers ≠ some reply := by
    intro status content headers he
    unfold jsonResponse at he
    split at he <;> cases he
    exact statusToHttp_ne_ok status code
  cases result with
  | none =>
    simp only [syncReply, jsonResponse] at h
    split at h <;> cases h
    exact absurd code (by simp)
  | some status =>
    simp only [syncReply] at h
    split at h
    · rename_i hc; subst hc
      split at h
      · rename_i blob hb
        split at h
        · unfold jsonResponse at h
          split at h <;> cases h
          exact ⟨rfl, hb⟩
        · exact absurd h not_ok
      · exact absurd h not_ok
    · exact absurd h not_ok

theorem Outcome.verdict_completed {response : Json} (h : (Outcome.ok response).verdict.status = .completed) :
    (Outcome.ok response).verdict = .completed response := by
  cases response with
  | obj kvs =>
    simp only [verdict] at h ⊢
    split at h
    · rfl
    · split at h
      · cases h
      · rename_i not_obj falsy; simp [falsy]
  | null | bool | int | float | str | arr => cases h

/-- A response recorded as the job's completion is the answer of the sync call, as long as its hash is there,
exactly if it is not empty, its numbers are finite and its texts have bytes in UTF-8; and the sync path answers 200
only with a response that was recorded. -/
theorem sync_answer (codes : String → List Nat) (h : (system d).Reach Machine.Any s) (model : String) (position : Nat) :
    (∀ u v i b info ts kvs, (system d).Reach Machine.Any u →
      (u.workers i).pc = .marking j info (Outcome.ok (.obj kvs)).verdict ts →
      (Outcome.ok (.obj kvs)).verdict.status = .completed → b.takes = true → step d u (.worker i b) = some v →
      (system d).Leads (fun w _ => (w.redis.job j).isSome) v s → (s.redis.job j).isSome →
      (chatCompletionsReply codes d.config s.redis model false (some .completed) (.queued j position) =
          some ⟨200, .obj kvs, [("X-Job-Id", j)]⟩ ↔
            kvs ≠ [] ∧ (Json.obj kvs).finite = true ∧ (Json.obj kvs).utf8 codes = true)) ∧
      ∀ result reply, chatCompletionsReply codes d.config s.redis model false result (.queued j position) = some reply →
        reply.code = 200 → result = some .completed ∧ ∃ u v, (system d).Reach Machine.Any u ∧
          Records d u v j reply.content ∧ (system d).Leads Machine.Any v s := by
  refine ⟨fun u v i b info ts kvs hu pc done takes hs hl alive => ?_, fun result reply hreply code => ?_⟩
  · rw [Outcome.verdict_completed done] at pc
    have blob := responseBlob_kept hu ⟨i, b, info, ts, pc, takes, hs⟩ hl alive
    rw [chatCompletionsReply, if_neg Bool.false_ne_true, syncReply_completed blob]
    cases kvs <;> simp [Json.truthy]
  · rw [chatCompletionsReply, if_neg Bool.false_ne_true] at hreply
    obtain ⟨result, blob⟩ := syncReply_ok hreply code
    exact ⟨result, recorded_of_responseBlob h blob⟩

end

/-! ## Runs -/

/-- Worker `i` forwards job `a` and the backend answers with the response. -/
def answers {ι : Type} (i : ι) (response : Json) : List (Action ι) :=
  admitRun 0 (chatRequest (.obj []) .null none) "a" ++ List.replicate 6 (.worker i .go) ++
    [.worker i (.respond (.ok response))]

/-- The backend answers `{}`: the result is recorded and seen, and the caller gets an error. -/
theorem empty_answer_lost : ¬∀ u v s i info ts kvs,
    (system (twoWorkers 1 (Int.le_refl 1))).Reach Machine.Any u →
    (u.workers i).pc = .marking "a" info (Outcome.ok (.obj kvs)).verdict ts →
    (Outcome.ok (.obj kvs)).verdict.status = .completed →
    step (twoWorkers 1 (Int.le_refl 1)) u (.worker i .go) = some v →
    (system (twoWorkers 1 (Int.le_refl 1))).Leads (fun w _ => (w.redis.job "a").isSome) v s →
    (s.redis.job "a").isSome →
    chatCompletionsReply ownCodes (twoWorkers 1 (Int.le_refl 1)).config s.redis "chat" false (some .completed) (.queued "a" 0) =
      some ⟨200, .obj kvs, [("X-Job-Id", "a")]⟩ := by
  intro h
  obtain ⟨u, hr, pc, hv⟩ := (system (twoWorkers 1 (Int.le_refl 1))).reach_of_exec Machine.Any (answers 0 (.obj []))
    (fun u => (u.workers 0).pc = .marking "a" ⟨"req", "chat", "unknown", 5⟩ (.completed (.obj [])) 0 ∧
      (step (twoWorkers 1 (Int.le_refl 1)) u (.worker 0 .go)).any (fun v => (v.redis.job "a").isSome ∧
        chatCompletionsReply ownCodes (twoWorkers 1 (Int.le_refl 1)).config v.redis "chat" false (some .completed)
          (.queued "a" 0) ≠ some ⟨200, .obj [], [("X-Job-Id", "a")]⟩) = true) (by decide +kernel)
  obtain ⟨v, hs, hv⟩ := (Option.any_eq_true _ _).mp hv
  obtain ⟨alive, lost⟩ := of_decide_eq_true hv
  exact lost (h u v v 0 _ 0 [] hr pc rfl hs .refl alive)

/-- The backend answers with one choice, and so does the call. -/
theorem sync_answer_run : ∃ s, (system (twoWorkers 1 (Int.le_refl 1))).Reach Machine.Any s ∧
    chatCompletionsReply ownCodes (twoWorkers 1 (Int.le_refl 1)).config s.redis "chat" false (some .completed) (.queued "a" 0) =
      some ⟨200, .obj [("choices", .arr [.str "hi"])], [("X-Job-Id", "a")]⟩ ∧
    ∃ u v, (system (twoWorkers 1 (Int.le_refl 1))).Reach Machine.Any u ∧
      Records (twoWorkers 1 (Int.le_refl 1)) u v "a" (.obj [("choices", .arr [.str "hi"])]) ∧
      (system (twoWorkers 1 (Int.le_refl 1))).Leads Machine.Any v s := by
  obtain ⟨u, hr, pc, hv⟩ := (system (twoWorkers 1 (Int.le_refl 1))).reach_of_exec Machine.Any
    (answers 0 (.obj [("choices", .arr [.str "hi"])]))
    (fun u => (u.workers 0).pc =
        .marking "a" ⟨"req", "chat", "unknown", 5⟩ (.completed (.obj [("choices", .arr [.str "hi"])])) 0 ∧
      (step (twoWorkers 1 (Int.le_refl 1)) u (.worker 0 .go)).any (fun v => (v.redis.job "a").isSome) = true)
    (by decide +kernel)
  obtain ⟨v, hs, alive⟩ := (Option.any_eq_true _ _).mp hv
  have hv' : (system (twoWorkers 1 (Int.le_refl 1))).Reach Machine.Any v := hr.next (a := .worker 0 .go) trivial hs
  obtain ⟨first, second⟩ := sync_answer (j := "a") ownCodes hv' "chat" 0
  have reply := (first u v 0 .go _ 0 [("choices", .arr [.str "hi"])] hr pc rfl rfl hs .refl alive).mpr
    ⟨List.cons_ne_nil _ _, by decide, by decide⟩
  exact ⟨v, hv', reply, (second _ _ reply rfl).2⟩

end AdmissionScheduler
