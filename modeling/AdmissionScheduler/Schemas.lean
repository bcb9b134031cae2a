import AdmissionScheduler.BaseModel
import AdmissionScheduler.Trace

/-!
# Request bodies

The schemas of the two endpoints that submit a job, the submission that they make
of a body and what the forwarder posts for it. Bodies are what `json.loads` makes
of them.
-/

namespace AdmissionScheduler

open BaseModel
open Json (field? Same KeepsAt)

/-- The conversions of scalars that `pydantic` makes when it is not strict. -/
structure Lax where
  float : Json → Option PyFloat
  int : Json → Option Int
  bool : Json → Option Bool
  float_float : ∀ x, float (.float x) = some x
  /-- An integer becomes the nearest double. -/
  float_int : ∀ n x, float (.int n) = some x → x.toDouble = Double.ofInt n
  int_int : ∀ n, int (.int n) = some n
  /-- A float becomes an integer only if that loses nothing. -/
  int_float : ∀ x n, int (.float x) = some n → x.toDouble = .finite (n * 2 ^ 1074)

/-! ## Schemas -/

def chatMessage : BaseModel where
  fields := [⟨"role", str, none⟩, ⟨"content", fun v => (str v).or (list v), none⟩]
  extraAllowed := false
  nodup := by decide

section
variable (lax : Lax)

def Lax.floatType (v : Json) : Option Json := (lax.float v).map .float

def Lax.intType (v : Json) : Option Json := (lax.int v).map .int

def Lax.boolType (v : Json) : Option Json := (lax.bool v).map .bool

def chatCompletionRequest : BaseModel where
  fields := [⟨"model", str, none⟩, ⟨"messages", listOf chatMessage.type, none⟩,
    ⟨"temperature", optional lax.floatType, some .null⟩, ⟨"max_tokens", optional lax.intType, some .null⟩,
    ⟨"stream", lax.boolType, some (.bool false)⟩, ⟨"metadata", optional dict, some .null⟩]
  extraAllowed := true
  nodup := by simp

def jobSubmitRequest : BaseModel where
  fields := [⟨"model", str, none⟩, ⟨"messages", listOf chatMessage.type, none⟩,
    ⟨"temperature", optional lax.floatType, some .null⟩, ⟨"max_tokens", optional lax.intType, some .null⟩,
    ⟨"metadata", optional dict, some .null⟩, ⟨"priority", optional lax.intType, some .null⟩]
  extraAllowed := true
  nodup := by simp

/-! ## Endpoints -/

/-- `POST /v1/chat/completions`; `none` is the response 422. -/
def postChatCompletions (requestId : { s : String // Plain s }) (body : Json) (xCaller : Option Header)
    (idempotencyKey : Option String) : Option Submission :=
  match body with
  | .obj kvs => ((chatCompletionRequest lax).validate kvs).bind fun l =>
    match field? l "model", field? l "metadata" with
    | some (.str model), some (.obj metadata) =>
      some (chatCompletions requestId model (.obj (dump l)) (some metadata) xCaller idempotencyKey)
    | some (.str model), _ => some (chatCompletions requestId model (.obj (dump l)) none xCaller idempotencyKey)
    | _, _ => none
  | _ => none

/-- `POST /jobs`; `none` is the response 422. -/
def postJobs (requestId : { s : String // Plain s }) (body : Json) (xCaller : Option Header)
    (idempotencyKey : Option String) : Option Submission :=
  match body with
  | .obj kvs => ((jobSubmitRequest lax).validate kvs).bind fun l =>
    match field? l "model", field? l "priority" with
    | some (.str model), some (.int n) =>
      some (submitJob requestId model (.obj (dump l)) (some n) xCaller idempotencyKey)
    | some (.str model), _ => some (submitJob requestId model (.obj (dump l)) none xCaller idempotencyKey)
    | _, _ => none
  | _ => none

end

/-- The `safe_payload` that `forward` posts; `dict(payload)` raises on anything but an object. -/
def safePayload : Json → Option (List (String × Json))
  | .obj kvs => some ((kvs.filter fun p => p.1 ≠ "stream") ++ [("stream", .bool false)])
  | _ => none

/-! ## As is -/

def SameMessage : Json → Json → Prop
  | .obj a, .obj b => ∀ k, KeepsAt Same none (field? a k) (field? b k)
  | _, _ => False

def SameAt (k : String) (v w : Json) : Prop :=
  match k, v, w with
  | "messages", .arr xs, .arr ys => List.Forall₂ SameMessage xs ys
  | _, v, w => Same v w

def AsIs (M : BaseModel) (body payload : Json) : Prop :=
  ∃ given posted, body = .obj given ∧ safePayload payload = some posted ∧ field? posted "stream" = some (.bool false) ∧
    ∀ k, k ≠ "stream" → KeepsAt (SameAt k) (M.defaultOf k) (field? given k) (field? posted k)

/-! ## What is kept -/

def isDouble : Json → Bool
  | .null | .float _ => true
  | .int n => Double.ofInt n = .finite (n * 2 ^ 1074)
  | _ => false

def isNumber : Json → Bool
  | .null | .int _ | .float _ => true
  | _ => false

/-- No message has a value under another key than `role` and `content`. -/
def keepsMessage : Json → Bool
  | .obj kvs => chatMessage.losesNothing kvs
  | _ => true

def keepsMessages : Json → Bool
  | .arr xs => xs.all keepsMessage
  | _ => true

def keepsChat : Json → Bool
  | .obj kvs => (field? kvs "messages").all keepsMessages && (field? kvs "temperature").all isDouble &&
    (field? kvs "max_tokens").all isNumber
  | _ => true

def keepsJob : Json → Bool
  | .obj kvs => keepsChat (.obj kvs) && (field? kvs "priority").all isNumber
  | _ => true

end AdmissionScheduler
