import AdmissionScheduler.ScoreSound

/-!
# What the enqueue script leaves behind

The hash as Redis keeps it has any fields at all; `JobHash` is the view of it
that the program reads. For a job that is new, the script either writes the six
fields that `admit` means or writes nothing, unless the model name is empty or
holds NUL: then the job is in the queue and its hash is missing or another one.
-/

namespace AdmissionScheduler

abbrev RawHash := Text → Option Text

namespace RawHash

def empty : RawHash := fun _ => none

/-- `HSET`; `none` is its error on an odd number of arguments. -/
def hset : List Text → RawHash → Option RawHash
  | [], h => some h
  | [_], _ => none
  | field :: value :: rest, h => hset rest (Function.update h field (some value))

/-- The fields of `admit`, as the program reads them. -/
def view (h : RawHash) : JobHash where
  model := (h (lit "model")).bind Text.toString?
  status := (h (lit "status")).bind fun v => v.toString?.bind JobStatus.parse
  priority := (h (lit "priority")).bind Text.toString?
  enqueueTs := (h (lit "enqueue_ts")).bind Text.toIso?
  caller := (h (lit "caller")).bind Text.toString?
  requestId := (h (lit "request_id")).bind Text.toString?

theorem view_update (h : RawHash) (field value : Text) :
    view (Function.update h field (some value)) = (view h).put field value := by
  have other : ∀ {name : String}, field ≠ lit name → Function.update h field (some value) (lit name) = h (lit name) :=
    fun hn => Function.update_of_ne (Ne.symm hn) _ _
  unfold JobHash.put
  split_ifs with h₁ h₂ h₃ h₄ h₅ h₆
  · subst h₁; simp [view, Function.update_of_ne]
  · subst h₂; simp [view, Function.update_of_ne]
  · subst h₃; simp [view, Function.update_of_ne]
  · subst h₄; simp [view, Function.update_of_ne]
  · subst h₅; simp [view, Function.update_of_ne]
  · subst h₆; simp [view, Function.update_of_ne]
  · simp only [view, other h₁, other h₂, other h₃, other h₄, other h₅, other h₆]

/-- `JobHash.putAll` is `HSET` seen through the view. -/
theorem view_hset (ps : List Text) (h : RawHash) : (hset ps h).map view = JobHash.putAll ps (view h) := by
  fun_induction hset ps h with
  | case1 => rfl
  | case2 => rfl
  | case3 field value rest h ih => rw [ih, view_update, JobHash.putAll]

/-- A value in the hash is one of the arguments. -/
theorem value_of_hset {ps : List Text} {h h' : RawHash} (hp : hset ps h = some h') {field value : Text}
    (hv : h' field = some value) : h field = some value ∨ value ∈ ps := by
  fun_induction hset ps h with
  | case1 => cases hp; exact .inl hv
  | case2 => cases hp
  | case3 f v rest h ih =>
    rcases ih hp with hu | hm
    · by_cases hf : field = f
      · subst hf
        rw [Function.update_self] at hu
        cases hu; exact .inr (by simp)
      · rw [Function.update_of_ne hf] at hu
        exact .inl hu
    · exact .inr (List.mem_cons_of_mem _ (List.mem_cons_of_mem _ hm))

end RawHash

/-- The six fields of `admit`, and no other. -/
def intendedHash (model priority : String) (enqueueTs : Nat) (caller requestId : String) : RawHash := fun field =>
  if field = lit "model" then some (lit model)
  else if field = lit "status" then some (lit JobStatus.queued.value)
  else if field = lit "priority" then some (lit priority)
  else if field = lit "enqueue_ts" then some [.iso enqueueTs]
  else if field = lit "caller" then some (lit caller)
  else if field = lit "request_id" then some (lit requestId)
  else none

namespace Text

theorem notMem_of_splitOn {v : Text} : ∀ {s : Text}, v ∈ s.splitOn nul → nul ∉ v
  | [], h => by
    have : v = [] := by simpa using h
    simp [this]
  | x :: s, h => by
    rw [List.splitOn_cons_eq_if_modifyHead] at h
    split at h
    · rcases List.mem_cons.mp h with rfl | h
      · simp
      · exact notMem_of_splitOn h
    · rename_i hx
      cases hs : s.splitOn nul with
      | nil => rw [hs] at h; cases h
      | cons w ws =>
        rw [hs, List.modifyHead_cons] at h
        rcases List.mem_cons.mp h with rfl | h
        · have hw : nul ∉ w := notMem_of_splitOn (s := s) (by rw [hs]; exact List.mem_cons_self ..)
          simpa [hw] using Ne.symm (by simpa using hx)
        · exact notMem_of_splitOn (s := s) (by rw [hs]; exact List.mem_cons_of_mem _ h)

theorem mem_parts {s v : Text} (h : v ∈ s.parts) : v ≠ [] ∧ nul ∉ v := by
  obtain ⟨hm, hv⟩ := List.mem_filter.mp h
  exact ⟨by simpa using hv, notMem_of_splitOn hm⟩

theorem plain_of_mem_parts {t : Text} {s : String} (h : lit s ∈ t.parts) : Plain s := by
  obtain ⟨ne, hn⟩ := mem_parts h
  refine ⟨fun e => ne (by rw [e]; rfl), fun hc => hn ?_⟩
  exact List.mem_map.mpr ⟨_, hc, rfl⟩

end Text

section
variable {model priority caller requestId : String} {t : Nat}

theorem hset_plain (hm : Plain model) (hp : Plain priority) (hc : Plain caller) (hr : Plain requestId) :
    RawHash.hset (Text.join (fieldValues model priority t caller requestId)).parts .empty =
      some (intendedHash model priority t caller requestId) := by
  rw [parts_fieldValues hp hc hr, Text.parts_plain hm]
  simp only [List.cons_append, List.nil_append, RawHash.hset, Option.some.injEq]
  funext field
  simp only [Function.update_apply, intendedHash, RawHash.empty]
  split_ifs <;> simp_all

/-- No hash that the script writes has a model name that is empty or holds NUL. -/
theorem plain_of_hset {values : List Text} {h : RawHash} (hh : RawHash.hset (Text.join values).parts .empty = some h)
    (hm : h (lit "model") = some (lit model)) : Plain model := by
  rcases RawHash.value_of_hset hh hm with hv | hv
  · cases hv
  · exact Text.plain_of_mem_parts hv

end

/-! ## The call -/

/-- What is left after `evalsha_enqueue_job`: either the job is in the queue at its score and its hash has the
intended fields and no other, or the queue and the hash are as they were. -/
def Faithful (c : AppConfig) (r : Redis) (sub : Submission) (j text : String) (score : Double) (ts : Nat) : Prop :=
  let r' := (Admit.enqueueing sub j text score ts).serve c r
  match Admit.enqueueOutcome c r sub j text score ts with
  | .done h =>
    (score, j) ∈ (r'.queue sub.model).entries ∧ r'.job j = some ⟨h, none⟩ ∧
      ∃ raw, RawHash.hset (Text.join (fieldValues sub.model text ts sub.caller sub.requestId)).parts .empty = some raw ∧
        raw.view = h ∧ raw = intendedHash sub.model text ts sub.caller sub.requestId
  | .full | .refused | .misfiled => r'.queue = r.queue ∧ r'.job = r.job

section
variable {c : AppConfig} {r : Redis} {sub : Submission} {j text : String} {score : Double} {ts : Nat}

theorem SortedSet.mem_entries_add_self {σ α : Type*} [LinearOrder σ] [LinearOrder α] (z : SortedSet σ α) (a : α) (x : σ) :
    (x, a) ∈ (z.add a x).entries := by
  simp [add]

/-- The script's reply, with what `HSET` did when it came that far. -/
theorem enqueueOutcome_cases (c : AppConfig) (sub : Submission) (text : String) (score : Double) (ts : Nat)
    (fresh : r.job j = none) :
    (c.maxQueueDepth sub.model ≤ (r.queue sub.model).card ∧ Admit.enqueueOutcome c r sub j text score ts = .full) ∨
    (score = .nan ∧ Admit.enqueueOutcome c r sub j text score ts = .refused) ∨
    (¬c.maxQueueDepth sub.model ≤ (r.queue sub.model).card ∧ score ≠ .nan ∧
      ((RawHash.hset (Text.join (fieldValues sub.model text ts sub.caller sub.requestId)).parts .empty = none ∧
          Admit.enqueueOutcome c r sub j text score ts = .misfiled) ∨
        ∃ raw, RawHash.hset (Text.join (fieldValues sub.model text ts sub.caller sub.requestId)).parts .empty = some raw ∧
          Admit.enqueueOutcome c r sub j text score ts = .done raw.view)) := by
  have hash : r.hashOf j = RawHash.view .empty := by simp [Redis.hashOf, fresh, RawHash.view, RawHash.empty]
  unfold Admit.enqueueOutcome Redis.enqueueOutcome
  by_cases full : c.maxQueueDepth sub.model ≤ (r.queue sub.model).card
  · exact .inl ⟨full, if_pos full⟩
  by_cases nan : score = .nan
  · exact .inr (.inl ⟨nan, by rw [if_neg full, if_pos nan]⟩)
  refine .inr (.inr ⟨full, nan, ?_⟩)
  rw [if_neg full, if_neg nan, enqueuedHash, hash, ← RawHash.view_hset]
  cases hh : RawHash.hset (Text.join (fieldValues sub.model text ts sub.caller sub.requestId)).parts .empty with
  | none => exact .inl ⟨rfl, rfl⟩
  | some raw => exact .inr ⟨raw, rfl, rfl⟩

theorem faithful_of_untouched (h : Admit.enqueueOutcome c r sub j text score ts = .full ∨
    Admit.enqueueOutcome c r sub j text score ts = .refused) : Faithful c r sub j text score ts := by
  rcases h with h | h <;> simp only [Faithful, Admit.serve, h] <;> exact ⟨rfl, rfl⟩

theorem faithful_of_done {raw : RawHash} (fresh : r.job j = none)
    (hh : RawHash.hset (Text.join (fieldValues sub.model text ts sub.caller sub.requestId)).parts .empty = some raw)
    (h : Admit.enqueueOutcome c r sub j text score ts = .done raw.view) :
    Faithful c r sub j text score ts ↔ raw = intendedHash sub.model text ts sub.caller sub.requestId := by
  simp only [Faithful, Admit.serve, h, Redis.enqueueJob]
  constructor
  · rintro ⟨-, -, raw', hh', -, rfl⟩
    exact Option.some.inj (hh.symm.trans hh')
  · intro he
    refine ⟨?_, ?_, raw, hh, rfl, he⟩
    · simp [Redis.hset, Redis.addQueued, SortedSet.mem_entries_add_self]
    · simp [Redis.hset, Redis.addQueued, fresh]

theorem not_faithful_of_misfiled (absent : j ∉ r.queue sub.model)
    (h : Admit.enqueueOutcome c r sub j text score ts = .misfiled) : ¬Faithful c r sub j text score ts := by
  simp only [Faithful, Admit.serve, h, Redis.enqueueJob]
  rintro ⟨hq, -⟩
  have : j ∈ (r.addQueued sub.model j score).queue sub.model := by simp [Redis.addQueued]
  exact absent (hq ▸ this)

/-- A call for a job that is nowhere yet leaves what it should exactly when the queue is full, or the score is
`nan`, or the model name is not empty and holds no NUL. -/
theorem faithful_iff (c : AppConfig) (r : Redis) (sub : Submission) (j : String) (p : PyNum) (score : Double) (ts : Nat)
    (fresh : r.job j = none) (absent : j ∉ r.queue sub.model) : Faithful c r sub j p.text score ts ↔
      c.maxQueueDepth sub.model ≤ (r.queue sub.model).card ∨ score = .nan ∨ Plain sub.model := by
  rcases enqueueOutcome_cases c sub p.text score ts fresh with
    ⟨full, h⟩ | ⟨nan, h⟩ | ⟨full, nan, ⟨hh, h⟩ | ⟨raw, hh, h⟩⟩
  · exact iff_of_true (faithful_of_untouched (.inl h)) (.inl full)
  · exact iff_of_true (faithful_of_untouched (.inr h)) (.inr (.inl nan))
  · simp only [not_faithful_of_misfiled absent h, full, nan, false_or, false_iff]
    intro plain
    rw [hset_plain plain (plain_text p) sub.caller_plain sub.requestId_plain] at hh
    cases hh
  · rw [faithful_of_done fresh hh h]
    simp only [full, nan, false_or]
    constructor
    · rintro rfl
      exact plain_of_hset hh (by simp [intendedHash])
    · intro plain
      exact Option.some.inj (hh.symm.trans (hset_plain plain (plain_text p) sub.caller_plain sub.requestId_plain))

end

def unnamedModel : Submission := { otherRequest with model := "" }

/-- The job for it is in the queue when the script fails, and has no hash. -/
theorem faithful_fails : ¬∀ (c : AppConfig) (r : Redis) (sub : Submission) (j : String) (p : PyNum) (score : Double) (ts : Nat),
    r.job j = none → j ∉ r.queue sub.model → Faithful c r sub j p.text score ts := fun h =>
  not_faithful_of_misfiled (by decide) (by decide +kernel)
    (h chatOnly chatOnly.initRedis unnamedModel "a" (.int 5) (.finite 0) 0 rfl (by decide))

theorem faithful_iff_run :
    Faithful chatOnly chatOnly.initRedis (chatRequest (.obj []) .null none) "a" (PyNum.int 5).text (.finite 0) 0 ↔
      chatOnly.maxQueueDepth "chat" ≤ (chatOnly.initRedis.queue "chat").card ∨ Double.finite 0 = .nan ∨ Plain "chat" :=
  faithful_iff chatOnly chatOnly.initRedis (chatRequest (.obj []) .null none) "a" (.int 5) (.finite 0) 0 rfl (by decide)

end AdmissionScheduler
