import AdmissionScheduler.Turns

/-!
# What a step does to the store

A step leaves the store alone, or lets time pass, or it is the pending command
of one party that takes effect.
-/

namespace AdmissionScheduler

variable {ι : Type} [DecidableEq ι] {d : Deployment ι} {s s' : State ι}

inductive StoreAfter (d : Deployment ι) (s s' : State ι) : Redis → Prop
  | quiet : StoreAfter d s s' s.redis
  | worker (i : ι) : StoreAfter d s s' ((s.workers i).pc.serve d.config (s.workers i).model s.redis)
  | admission (k : Nat) : StoreAfter d s s' ((s.admits k).serve d.config s.redis)
  | cancel (k : Nat) : StoreAfter d s s' ((s.cancels k).serve s.redis)
  | watch (k : Nat) (events : ∀ e ∈ (s.watchers k).served, e ∈ s'.trace) :
    StoreAfter d s s' ((s.watchers k).serve s.redis)
  | check (k : Nat) : StoreAfter d s s' ((s.checkers k).serve s.redis)
  | tick (δ : Nat) : StoreAfter d s s' (s.redis.tick δ)

theorem Watcher.step_served {c : AppConfig} {r r' : Redis} {p p' : Watcher} {a : WatchAct} {es : List Event}
    (h : p.step c r a = some (r', p', es)) : r' = r ∨ r' = p.serve r ∧ ∀ e ∈ p.served, e ∈ es := by
  cases a with
  | scan m =>
    simp only [step] at h
    split at h
    · split at h <;> cases h
      exact .inl rfl
    · cases h
  | go =>
    simp only [step, Option.map_eq_some_iff, Prod.mk.injEq] at h
    obtain ⟨-, -, rfl, -, rfl⟩ := h
    exact .inr ⟨rfl, fun e he => List.mem_append_right _ he⟩
  | fail took =>
    simp only [step, Option.map_eq_some_iff, Prod.mk.injEq] at h
    obtain ⟨-, -, rfl, -, rfl⟩ := h
    cases took with
    | false => exact .inl rfl
    | true => exact .inr ⟨rfl, fun e he => List.mem_append_right _ he⟩
  | cancel took =>
    obtain ⟨-, rfl, rfl⟩ := step_cancel h
    cases took with
    | false => exact .inl rfl
    | true => exact .inr ⟨rfl, fun _ he => he⟩

theorem storeAfter_of_step {a : Action ι} (h : step d s a = some s') : StoreAfter d s s' s'.redis := by
  cases a with
  | worker i b =>
    simp only [step, Option.map_eq_some_iff] at h
    obtain ⟨⟨r', w', es⟩, hw, rfl⟩ := h
    rcases Worker.step_redis hw with rfl | ⟨-, rfl⟩
    · exact .quiet
    · exact .worker i
  | admission k b =>
    simp only [step, Option.ite_none_right_eq_some, Option.map_eq_some_iff] at h
    obtain ⟨-, ⟨r', p', es⟩, hp, rfl⟩ := h
    rcases Admit.step_effect hp with rfl | ⟨rfl, -⟩
    · exact .quiet
    · exact .admission k
  | cancel k b =>
    simp only [step, Option.map_eq_some_iff] at h
    obtain ⟨⟨r', p', es⟩, hp, rfl⟩ := h
    rcases Cancel.step_effect hp with rfl | ⟨-, rfl, -⟩
    · exact .quiet
    · exact .cancel k
  | watch k b =>
    simp only [step, Option.map_eq_some_iff] at h
    obtain ⟨⟨r', p', es⟩, hp, rfl⟩ := h
    rcases Watcher.step_served hp with rfl | ⟨rfl, hes⟩
    · exact .quiet
    · exact .watch k fun e he => List.mem_append_left _ (hes e he)
  | check k b =>
    simp only [step, Option.map_eq_some_iff] at h
    obtain ⟨⟨r', p', es⟩, hp, rfl⟩ := h
    rcases Checker.step_redis hp with rfl | ⟨-, rfl⟩
    · exact .quiet
    · exact .check k
  | tick δ =>
    cases h
    exact .tick δ

end AdmissionScheduler
