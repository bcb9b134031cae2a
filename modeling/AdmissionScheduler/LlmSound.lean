import AdmissionScheduler.LlmClient

/-!
# How a call to the model ends

Each attempt has one of finitely many ends, by the class of what was raised, by
the status or by the shape of the body. Which of them a call reports as it should
is decided by the attempt that ends it.
-/

namespace AdmissionScheduler.Llm

open Program

/-! ## Replies that trip the reader -/

def Uncaught {α : Type} (x : Except PyError α) : Prop := ∃ e, x = .error e ∧ e.caught = false

section
variable {α β : Type} {x : Except PyError α} {f : α → Except PyError β} {v w d : Json} {key : String}

theorem uncaught_bind : Uncaught (x >>= f) ↔ Uncaught x ∨ ∃ a, x = .ok a ∧ Uncaught (f a) := by
  cases x with
  | error e => simp [Uncaught, bind, Except.bind]
  | ok a => simp [Uncaught, bind, Except.bind]

theorem not_uncaught_ok {a : α} : ¬Uncaught (.ok a : Except PyError α) := by
  rintro ⟨e, h, -⟩
  cases h

theorem not_uncaught_item : ¬Uncaught (item v key) := by
  rintro ⟨e, h, he⟩
  unfold item at h
  split at h
  · split at h <;> cases h
    cases he
  · cases h
    cases he

theorem item_eq_ok : item v key = .ok w ↔ ∃ kvs, v = .obj kvs ∧ Json.field? kvs key = some w := by
  cases v with
  | obj kvs => cases h : Json.field? kvs key <;> simp [item, h]
  | _ => simp [item]

theorem uncaught_first : Uncaught (first v) ↔ v = .arr [] ∨ v = .str "" := by
  cases v with
  | arr xs => cases xs <;> simp [Uncaught, first, PyError.caught]
  | str s =>
    cases hs : s.toList with
    | nil =>
      have : s = "" := by rw [← String.toList_inj, hs]; rfl
      simp [Uncaught, first, this, PyError.caught]
    | cons c cs =>
      have : s ≠ "" := by rintro rfl; cases hs
      simp [Uncaught, first, hs, this]
  | _ => simp [Uncaught, first, PyError.caught]

/-- A first element that has a key is the first of a list. -/
theorem first_eq_obj {kvs : List (String × Json)} : first v = .ok (.obj kvs) ↔ ∃ rest, v = .arr (.obj kvs :: rest) := by
  cases v with
  | arr xs => cases xs <;> simp [first]
  | str s => cases hs : s.toList <;> simp [first, hs]
  | _ => simp [first]

theorem uncaught_get : Uncaught (get v key d) ↔ ∀ kvs, v ≠ .obj kvs := by
  cases v <;> simp [Uncaught, get, PyError.caught]

theorem uncaught_stripText : Uncaught (stripText v) ↔ ∀ s, v ≠ .str s := by
  cases v <;> simp [Uncaught, stripText, PyError.caught]

def Infinite (v : Json) : Prop := ∃ x b, v = .float x ∧ x.toDouble = .inf b

theorem uncaught_toInt : Uncaught (toInt v) ↔ Infinite v := by
  cases v with
  | float x =>
    have hf : Infinite (.float x) ↔ ∃ b, x.toDouble = .inf b := by simp [Infinite]
    rw [toInt, hf]
    cases x.toDouble with
    | finite u => exact iff_of_false not_uncaught_ok (by rintro ⟨b, h⟩; cases h)
    | inf b => exact iff_of_true ⟨_, rfl, rfl⟩ ⟨b, rfl⟩
    | nan => simp [Uncaught, floatToInt, PyError.caught]
  | str s => cases h : pyInt s <;> simp [Uncaught, toInt, h, Infinite, PyError.caught]
  | _ => simp [Uncaught, toInt, Infinite, PyError.caught]

def NotText (v : Json) : Prop := v.truthy = true ∧ ∀ s, v ≠ .str s

def NotDict (v : Json) : Prop := v.truthy = true ∧ ∀ kvs, v ≠ .obj kvs

/-- Of the counts under these keys the first that `int()` refuses is infinite. -/
def CountsTrip (usage : List (String × Json)) : List String → Prop
  | [] => False
  | key :: keys => Infinite ((Json.field? usage key).getD (.int 0)) ∨
    (∃ n, toInt ((Json.field? usage key).getD (.int 0)) = .ok n) ∧ CountsTrip usage keys

def countKeys : List String := ["prompt_tokens", "completion_tokens", "total_tokens"]

/-- The message, or the usage beside it, is not of the shape that the reader takes for granted. -/
def MessageTrips (kvs : List (String × Json)) (msg : Json) : Prop :=
  (∀ m, msg ≠ .obj m) ∨ ∃ m, msg = .obj m ∧
    (NotText ((Json.field? m "content").getD .null) ∨ ¬NotText ((Json.field? m "content").getD .null) ∧
      (NotDict ((Json.field? kvs "usage").getD .null) ∨
        ∃ usage, orElse ((Json.field? kvs "usage").getD .null) (.obj []) = .obj usage ∧ CountsTrip usage countKeys))

/-- The shapes of a decoded body that the reader has no answer to. -/
def Trips (d : Json) : Prop :=
  ∃ kvs choices, d = .obj kvs ∧ Json.field? kvs "choices" = some choices ∧
    (choices = .arr [] ∨ choices = .str "" ∨ ∃ ckvs rest msg, choices = .arr (.obj ckvs :: rest) ∧
      Json.field? ckvs "message" = some msg ∧ MessageTrips kvs msg)

theorem orElse_text : (∀ s, orElse v (.str "") ≠ .str s) ↔ NotText v := by
  unfold orElse NotText
  cases v.truthy <;> simp

theorem orElse_dict : (∀ kvs, orElse v (.obj []) ≠ .obj kvs) ↔ NotDict v := by
  unfold orElse NotDict
  cases v.truthy <;> simp

theorem stripText_ok : (∃ s, stripText v = .ok s) ↔ ¬∀ s, v ≠ .str s := by
  cases v <;> simp [stripText]

theorem tokens_obj {usage : List (String × Json)} :
    tokens (.obj usage) key = toInt ((Json.field? usage key).getD (.int 0)) := rfl

theorem uncaught_tokens : (∀ kvs, v ≠ .obj kvs) → Uncaught (tokens v key) := by
  intro h
  rw [tokens, uncaught_bind, uncaught_get]
  exact .inl h

/-- The three counts, read one after the other. -/
theorem uncaught_counts : (Uncaught (tokens v "prompt_tokens") ∨ (∃ n, tokens v "prompt_tokens" = .ok n) ∧
      (Uncaught (tokens v "completion_tokens") ∨ (∃ n, tokens v "completion_tokens" = .ok n) ∧
        Uncaught (tokens v "total_tokens"))) ↔
    (∀ kvs, v ≠ .obj kvs) ∨ ∃ usage, v = .obj usage ∧ CountsTrip usage countKeys := by
  by_cases hv : ∀ kvs, v ≠ .obj kvs
  · exact iff_of_true (.inl (uncaught_tokens hv)) (.inl hv)
  · rw [or_iff_right hv]
    obtain ⟨usage, rfl⟩ := not_forall_not.mp hv
    simp only [tokens_obj, uncaught_toInt, Json.obj.injEq, exists_eq_left', CountsTrip, countKeys, and_false, or_false]

theorem uncaught_readMessage {alias_ : String} {kvs : List (String × Json)} :
    Uncaught (readMessage alias_ (.obj kvs) w) ↔ MessageTrips kvs w := by
  unfold readMessage MessageTrips
  by_cases hw : ∀ m, w ≠ .obj m
  · refine iff_of_true ?_ (.inl hw)
    rw [uncaught_bind, uncaught_get]
    exact .inl hw
  · rw [or_iff_right hw]
    obtain ⟨m, rfl⟩ := not_forall_not.mp hw
    simp only [uncaught_bind, get, pure, Except.pure, not_uncaught_ok, false_or, or_false, and_false, exists_false,
      Except.ok.injEq, Json.obj.injEq, exists_eq_left', exists_and_right, uncaught_stripText, stripText_ok,
      uncaught_counts, orElse_text, orElse_dict]

theorem uncaught_parseReply {alias_ : String} : Uncaught (parseReply alias_ (.json d)) ↔ Trips d := by
  unfold parseReply Trips
  simp only [uncaught_bind, Body.read, not_uncaught_ok, false_or, Except.ok.injEq, exists_eq_left', not_uncaught_item,
    item_eq_ok]
  constructor
  · rintro ⟨choices, ⟨kvs, rfl, hc⟩, h⟩
    refine ⟨kvs, choices, rfl, hc, ?_⟩
    rcases h with h | ⟨-, hfirst, msg, ⟨ckvs, rfl, hm⟩, h⟩
    · exact (uncaught_first.mp h).elim .inl fun h => .inr (.inl h)
    · obtain ⟨rest, rfl⟩ := first_eq_obj.mp hfirst
      exact .inr (.inr ⟨ckvs, rest, msg, rfl, hm, uncaught_readMessage.mp h⟩)
  · rintro ⟨kvs, choices, rfl, hc, h⟩
    refine ⟨choices, ⟨kvs, rfl, hc⟩, ?_⟩
    rcases h with h | h | ⟨ckvs, rest, msg, rfl, hm, h⟩
    · exact .inl (uncaught_first.mpr (.inl h))
    · exact .inl (uncaught_first.mpr (.inr h))
    · exact .inr ⟨_, first_eq_obj.mpr ⟨rest, rfl⟩, msg, ⟨ckvs, rfl, hm⟩, uncaught_readMessage.mpr h⟩

end

/-! ## Attempts -/

/-- What `httpx` comes to, for one request. -/
abbrev Attempt := Except HttpxError Response

/-- The connection failed, or the server did. -/
def Retryable (o : Attempt) : Prop := o = .error .connectError ∨ ∃ r, o = .ok r ∧ 500 ≤ r.statusCode

def TimedOut (o : Attempt) : Prop := ∃ e, o = .error e ∧ e.isTimeout = true

def Escapes (o : Attempt) : Prop := (∃ e, o = .error e ∧ e.isHTTPError = false) ∨
  ∃ r, o = .ok r ∧ r.statusCode < 400 ∧ (r.body = .tooDeep ∨ ∃ d, r.body = .json d ∧ Trips d)

/-- The ends that are not reported as they should be. -/
def Misreported (o : Attempt) : Prop := (TimedOut o ∧ o ≠ .error .readTimeout) ∨ Escapes o

structure Settled {α : Type} (o : Attempt) (t : Except Raised α) : Prop where
  escapes : (∃ e, t = .error e ∧ e.isLLMError = false) ↔ Escapes o
  timeout : (∃ n a, t = .error (.llmTimeout n a)) ↔ o = .error .readTimeout

/-- Only what is raised counts. -/
theorem Settled.congr {α β : Type} {o : Attempt} {t : Except Raised α} {u : Except Raised β} (h : Settled o t)
    (hu : ∀ e, u = .error e ↔ t = .error e) : Settled o u := by
  constructor
  · rw [← h.escapes]
    simp only [hu]
  · rw [← h.timeout]
    simp only [hu]

section
variable {e : HttpxError} {r : Response} {alias_ : String} {timeout : PyFloat} {t : Except Raised (Option LLMResult)}

theorem retryable_error : Retryable (.error e) ↔ e = .connectError := by simp [Retryable]

theorem retryable_ok : Retryable (.ok r) ↔ 500 ≤ r.statusCode := by simp [Retryable]

theorem escapes_error : Escapes (.error e) ↔ e.isHTTPError = false := by simp [Escapes]

theorem escapes_ok : Escapes (.ok r) ↔
    r.statusCode < 400 ∧ (r.body = .tooDeep ∨ ∃ d, r.body = .json d ∧ Trips d) := by simp [Escapes]

/-- What the handler makes of an exception. -/
theorem settled_error (ht : t = (onError alias_ timeout (.httpx e)).map fun _ => none) :
    (t = .ok none ↔ Retryable (.error e)) ∧ Settled (.error e) t := by
  subst ht
  rw [retryable_error]
  refine ⟨?_, ?_, ?_⟩
  · cases e <;> simp [onError, Except.map]
  · rw [escapes_error]
    cases e <;> simp [onError, Except.map, HttpxError.isHTTPError, Raised.isLLMError]
  · cases e <;> simp [onError, Except.map, HttpxError.isHTTPError]

theorem uncaught_body {b : Body} : Uncaught (parseReply alias_ b) ↔ b = .tooDeep ∨ ∃ d, b = .json d ∧ Trips d := by
  cases b with
  | notJson => simp [Uncaught, parseReply, Body.read, bind, Except.bind, PyError.caught]
  | tooDeep => simp [Uncaught, parseReply, Body.read, bind, Except.bind, PyError.caught]
  | json d => simp [uncaught_parseReply]

theorem settled_ok (ht : t = readResponse alias_ r) : (t = .ok none ↔ Retryable (.ok r)) ∧ Settled (.ok r) t := by
  subst ht
  rw [retryable_ok]
  unfold readResponse
  by_cases h₅ : r.statusCode ≥ 500
  · have h₄ : ¬r.statusCode < 400 := by omega
    rw [if_pos h₅]
    refine ⟨iff_of_true rfl h₅, ?_, ?_⟩
    · rw [escapes_ok]
      simp [h₄]
    · simp
  rw [if_neg h₅]
  by_cases h₄ : r.statusCode ≥ 400
  · rw [if_pos h₄]
    refine ⟨iff_of_false (by simp) h₅, ?_, ?_⟩
    · rw [escapes_ok]
      simp [Nat.not_lt.mpr h₄, Raised.isLLMError]
    · simp
  rw [if_neg h₄]
  have hbody : Uncaught (parseReply alias_ r.body) ↔ _ := uncaught_body
  cases hp : parseReply alias_ r.body with
  | ok result =>
    rw [hp] at hbody
    refine ⟨iff_of_false (by simp) h₅, ?_, ?_⟩
    · rw [escapes_ok, ← hbody]
      simp [not_uncaught_ok]
    · simp
  | error e =>
    rw [hp] at hbody
    refine ⟨iff_of_false (by simp) h₅, ?_, ?_⟩
    · rw [escapes_ok, ← hbody]
      cases hc : e.caught <;> simp [Uncaught, hc, Nat.not_le.mp h₄, Raised.isLLMError]
    · cases hc : e.caught <;> simp [hc]

end

abbrev Calls := History Request (fun _ => Response) Raised Unit

def Answers (o₁ o₂ : Attempt) (h : Calls) (e : Program.Entry Request (fun _ => Response) Raised Unit) : Prop :=
  e.reply = (if h = [] then o₁ else o₂).mapError .httpx

section
variable {messages : Json} {maxTokens : Nat} {temperature : PyFloat} {extraBody : List (String × Json)}
  {o o₁ o₂ : Attempt} {h h' : Calls} {alias_ : String} {timeout : PyFloat}

theorem tryOne_runs {t : Except Raised (Option LLMResult)} (ho : (if h = [] then o₁ else o₂) = o)
    (hr : Runs (Answers o₁ o₂) (tryOne messages maxTokens temperature extraBody alias_ timeout) h h' t) :
    h' = ⟨request messages maxTokens temperature extraBody alias_ timeout, o.mapError .httpx, ()⟩ :: h ∧
      (t = .ok none ↔ Retryable o) ∧ Settled o t := by
  unfold tryOne at hr
  cases hr with
  | @call _ _ _ _ _ x u allowed rest =>
    have hx : x = o.mapError .httpx := by rw [← ho]; exact allowed
    subst hx
    cases o with
    | error e =>
      have hend : Runs (Answers o₁ o₂) (.done ((onError alias_ timeout (.httpx e)).map fun _ => none))
          (⟨request messages maxTokens temperature extraBody alias_ timeout, .error (.httpx e), u⟩ :: h) h' t := by
        cases e <;> exact rest
      cases hend
      exact ⟨rfl, settled_error rfl⟩
    | ok r =>
      have hend : Runs (Answers o₁ o₂) (.done (readResponse alias_ r))
          (⟨request messages maxTokens temperature extraBody alias_ timeout, .ok r, u⟩ :: h) h' t := rest
      cases hend
      exact ⟨rfl, settled_ok rfl⟩

theorem not_misreported_of_retryable (h : Retryable o) : ¬Misreported o := by
  rcases h with rfl | ⟨r, rfl, hs⟩
  · rintro (⟨⟨e, he, ht⟩, -⟩ | he)
    · cases he
      cases ht
    · rw [escapes_error] at he
      cases he
  · rintro (⟨⟨e, he, -⟩, -⟩ | he)
    · cases he
    · rw [escapes_ok] at he
      omega

/-- The error raised when nothing else is left to try. -/
theorem settled_unavailable {f : Failure} (h : Retryable o) : Settled o (.error (.llmError f) : Except Raised LLMResult) := by
  have hno := not_misreported_of_retryable h
  constructor
  · refine iff_of_false ?_ fun he => hno (.inr he)
    rintro ⟨e, he, hl⟩
    cases he
    cases hl
  · refine iff_of_false (by simp) ?_
    rintro rfl
    rw [retryable_error] at h
    cases h

def Contacted (role : Role) (o₁ : Attempt) : Prop := role.fallbackAlias.isSome = true ∧ Retryable o₁

/-- The call is over after one attempt, or goes on to the fallback. -/
theorem call_runs {role : Role} {r : Except Raised LLMResult}
    (hr : Runs (Answers o₁ o₂) (call messages maxTokens temperature extraBody role) [] h r) :
    (¬Contacted role o₁ ∧ Settled o₁ r ∧ ∃ q, h = [⟨q, o₁.mapError .httpx, ()⟩]) ∨
      (Contacted role o₁ ∧ Settled o₂ r ∧ ∃ q fallback, role.fallbackAlias = some fallback ∧
        h = [⟨request messages maxTokens temperature extraBody fallback role.fallbackTimeout, o₂.mapError .httpx, ()⟩,
          ⟨q, o₁.mapError .httpx, ()⟩]) := by
  obtain ⟨h₁, t₁, hr₁, hrest⟩ := Runs.of_handle hr
  obtain ⟨rfl, hretry₁, hs₁⟩ := tryOne_runs (if_pos rfl) hr₁
  have hover : t₁ ≠ .ok none → ¬Contacted role o₁ := fun hne hc => hne (hretry₁.mpr hc.2)
  cases t₁ with
  | error e =>
    cases hrest
    exact .inl ⟨hover (by simp), hs₁.congr (by simp), _, rfl⟩
  | ok result =>
    cases result with
    | some result =>
      cases hrest
      exact .inl ⟨hover (by simp), hs₁.congr (by simp), _, rfl⟩
    | none =>
      have hre : Retryable o₁ := hretry₁.mp rfl
      cases hf : role.fallbackAlias with
      | none =>
        simp only [hf] at hrest
        cases hrest
        exact .inl ⟨fun hc => by simp [Contacted, hf] at hc, settled_unavailable hre, _, rfl⟩
      | some fallback =>
        simp only [hf] at hrest
        obtain ⟨h₂, t₂, hr₂, hend⟩ := Runs.of_handle hrest
        obtain ⟨rfl, hretry₂, hs₂⟩ := tryOne_runs (if_neg (List.cons_ne_nil _ _)) hr₂
        refine .inr ⟨⟨by simp [hf], hre⟩, ?_⟩
        cases t₂ with
        | error e =>
          cases hend
          exact ⟨hs₂.congr (by simp), _, fallback, rfl, rfl⟩
        | ok result =>
          cases result with
          | some result =>
            cases hend
            exact ⟨hs₂.congr (by simp), _, fallback, rfl, rfl⟩
          | none =>
            cases hend
            exact ⟨settled_unavailable (hretry₂.mp rfl), _, fallback, rfl, rfl⟩

def EndsWith (role : Role) (o₁ o₂ o : Attempt) : Prop := (Contacted role o₁ ∧ o = o₂) ∨ (¬Contacted role o₁ ∧ o = o₁)

theorem exists_endsWith (role : Role) (o₁ o₂ : Attempt) : ∃ o, EndsWith role o₁ o₂ o := by
  by_cases hc : Contacted role o₁
  · exact ⟨o₂, .inl ⟨hc, rfl⟩⟩
  · exact ⟨o₁, .inr ⟨hc, rfl⟩⟩

end

def AsksFallback (messages : Json) (maxTokens : Nat) (temperature : PyFloat) (extraBody : List (String × Json))
    (role : Role) (h : Calls) : Prop :=
  ∃ q₂ q₁ fallback, h = [q₂, q₁] ∧ role.fallbackAlias = some fallback ∧
    q₂.op = request messages maxTokens temperature extraBody fallback role.fallbackTimeout

def LastTimedOut (h : Calls) : Prop := ∃ q rest e, h = q :: rest ∧ q.reply = .error (.httpx e) ∧ e.isTimeout = true

/-- What a caller relies on, of a call with the requests `h` and the result `r`. -/
structure Conservative (messages : Json) (maxTokens : Nat) (temperature : PyFloat) (extraBody : List (String × Json))
    (role : Role) (o₁ : Attempt) (h : Calls) (r : Except Raised LLMResult) : Prop where
  total : ∀ e, r = .error e → e.isLLMError = true
  timeout : (∃ n a, r = .error (.llmTimeout n a)) ↔ LastTimedOut h
  fallback : AsksFallback messages maxTokens temperature extraBody role h ↔ Contacted role o₁
  atMostTwo : h.length ≤ 2

section
variable {messages : Json} {maxTokens : Nat} {temperature : PyFloat} {extraBody : List (String × Json)}
  {o o₁ o₂ : Attempt} {h : Calls} {role : Role} {r : Except Raised LLMResult}

theorem lastTimedOut_cons {q : Entry Request (fun _ => Response) Raised Unit} (hq : q.reply = o.mapError .httpx) :
    LastTimedOut (q :: h) ↔ TimedOut o := by
  constructor
  · rintro ⟨q', rest, e, heq, hr, ht⟩
    cases heq
    rw [hq] at hr
    cases o with
    | error e' =>
      cases hr
      exact ⟨_, rfl, ht⟩
    | ok r => cases hr
  · rintro ⟨e, rfl, ht⟩
    exact ⟨q, h, e, rfl, hq, ht⟩

/-- The attempt that ends a call settles it. -/
theorem settled_of_runs (ho : EndsWith role o₁ o₂ o)
    (hr : Runs (Answers o₁ o₂) (call messages maxTokens temperature extraBody role) [] h r) :
    Settled o r ∧ (LastTimedOut h ↔ TimedOut o) ∧
      (AsksFallback messages maxTokens temperature extraBody role h ↔ Contacted role o₁) ∧ h.length ≤ 2 := by
  rcases call_runs hr with ⟨hc, hs, q, rfl⟩ | ⟨hc, hs, q, fallback, hf, rfl⟩
  · obtain ⟨hc', -⟩ | ⟨-, rfl⟩ := ho
    · exact absurd hc' hc
    · refine ⟨hs, lastTimedOut_cons rfl, iff_of_false ?_ hc, by simp⟩
      rintro ⟨q₂, q₁, fallback, h, -⟩
      cases h
  · obtain ⟨-, rfl⟩ | ⟨hc', -⟩ := ho
    · exact ⟨hs, lastTimedOut_cons rfl, iff_of_true ⟨_, _, fallback, rfl, hf, rfl⟩ hc, by simp⟩
    · exact absurd hc hc'

theorem timedOut_iff (h : ¬Misreported o) : TimedOut o ↔ o = .error .readTimeout := by
  constructor
  · intro ht
    exact by_contra fun hne => h (.inl ⟨ht, hne⟩)
  · rintro rfl
    exact ⟨_, rfl, rfl⟩

/-- Some run of the call, which the attempt `o` ends. -/
theorem exists_call (messages : Json) (maxTokens : Nat) (temperature : PyFloat) (extraBody : List (String × Json))
    (role : Role) (o₁ o₂ : Attempt) :
    ∃ h r, Runs (Answers o₁ o₂) (call messages maxTokens temperature extraBody role) [] h r :=
  exists_runs (fun h _ => ⟨(if h = [] then o₁ else o₂).mapError .httpx, (), rfl⟩) _ []

/-- A call keeps to what its callers rely on exactly when the attempt that ends it is reported for what it is. -/
theorem call_conservative_iff : (∀ h r, Runs (Answers o₁ o₂) (call messages maxTokens temperature extraBody role) [] h r →
      Conservative messages maxTokens temperature extraBody role o₁ h r) ↔
    ∀ o, EndsWith role o₁ o₂ o → ¬Misreported o := by
  constructor
  · intro hall o ho
    obtain ⟨h, r, hr⟩ := exists_call messages maxTokens temperature extraBody role o₁ o₂
    have hkeep := hall h r hr
    obtain ⟨hs, hlast, -⟩ := settled_of_runs ho hr
    rintro (⟨ht, hne⟩ | he)
    · exact hne (hs.timeout.mp (hkeep.timeout.mpr (hlast.mpr ht)))
    · obtain ⟨e, he, hl⟩ := hs.escapes.mpr he
      rw [hkeep.total e he] at hl
      cases hl
  · intro hno h r hr
    obtain ⟨o, ho⟩ := exists_endsWith role o₁ o₂
    obtain ⟨hs, hlast, hf, hlen⟩ := settled_of_runs ho hr
    refine ⟨?_, hs.timeout.trans ((timedOut_iff (hno o ho)).symm.trans hlast.symm), hf, hlen⟩
    intro e he
    cases hl : e.isLLMError with
    | true => rfl
    | false => exact absurd (hs.escapes.mp ⟨e, he, hl⟩) fun he => hno o ho (.inr he)

/-! ## A reply without choices -/

def zero : PyFloat := .finite false [⟨0, by decide⟩] 1

def triageRole : Role where
  name := "triage"
  primaryAlias := "tool-worker"
  fallbackAlias := none
  llmTimeout := .finite false [⟨1, by decide⟩, ⟨2, by decide⟩] 3
  fallbackTimeout := zero

def noChoices : Attempt := .ok ⟨200, "\x7b\"choices\": []\x7d", .json (.obj [("choices", .arr [])])⟩

theorem noChoices_escapes : Escapes noChoices := by
  unfold noChoices
  rw [escapes_ok]
  exact ⟨by decide, .inr ⟨_, rfl, _, _, rfl, rfl, .inl rfl⟩⟩

theorem index_error_escapes : ¬ ∀ (messages : Json) (maxTokens : Nat) (temperature : PyFloat)
    (extraBody : List (String × Json)) (role : Role) (o₁ o₂ : Attempt) (h : Calls) (r : Except Raised LLMResult),
    Runs (Answers o₁ o₂) (call messages maxTokens temperature extraBody role) [] h r →
      Conservative messages maxTokens temperature extraBody role o₁ h r := by
  intro hall
  obtain ⟨h, r, hr⟩ := exists_call (.arr []) 200 zero [] triageRole noChoices noChoices
  have hend : EndsWith triageRole noChoices noChoices noChoices := .inr ⟨fun hc => absurd hc.1 (by decide), rfl⟩
  obtain ⟨e, he, hl⟩ := (settled_of_runs hend hr).1.escapes.mpr noChoices_escapes
  rw [(hall _ _ _ _ _ _ _ _ _ hr).total e he] at hl
  cases hl

end

end AdmissionScheduler.Llm
