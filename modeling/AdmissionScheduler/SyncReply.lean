import AdmissionScheduler.Redis
import AdmissionScheduler.Admission

/-!
# The reply to a chat completion

What `chat_completions` answers once `admit` has returned and, on the sync path,
the wait has ended. The response of the backend was stored as the gzip of its
JSON, and reading it back gives the same value. `JSONResponse` encodes with
`allow_nan=False` and `ensure_ascii=False`, so a number beyond the range of a
double raises, and so does half of a surrogate pair, for which UTF-8 has no bytes.

A text of Python may hold such a half, which `json.loads` makes of the escape
`\ud83d`, and a `String` may not. Which code points a text stands for is
therefore a parameter.
-/

namespace AdmissionScheduler

namespace Json

mutual
/-- `json.dumps(.., allow_nan=False)` accepts the value. -/
def finite : Json → Bool
  | .null | .bool _ | .int _ | .str _ => true
  | .float (.finite ..) => true
  | .float (.inf _) | .float .nan => false
  | .arr xs => finiteList xs
  | .obj kvs => finiteFields kvs
def finiteList : List Json → Bool
  | [] => true
  | x :: xs => x.finite && finiteList xs
def finiteFields : List (String × Json) → Bool
  | [] => true
  | (_, x) :: kvs => x.finite && finiteFields kvs
end

section
variable (codes : String → List Nat)

def utf8Text (s : String) : Bool := (codes s).all fun n => n < 0xd800 || 0xdfff < n

mutual
/-- `json.dumps(.., ensure_ascii=False).encode("utf-8")` accepts every text of the value. -/
def utf8 : Json → Bool
  | .null | .bool _ | .int _ | .float _ => true
  | .str s => utf8Text codes s
  | .arr xs => utf8List xs
  | .obj kvs => utf8Fields kvs
def utf8List : List Json → Bool
  | [] => true
  | x :: xs => x.utf8 && utf8List xs
def utf8Fields : List (String × Json) → Bool
  | [] => true
  | (k, x) :: kvs => utf8Text codes k && x.utf8 && utf8Fields kvs
end

end

end Json

/-- A text of scalar values stands for itself. -/
def ownCodes (s : String) : List Nat := s.toList.map Char.toNat

structure Reply where
  code : Nat
  content : Json
  headers : List (String × String)
  deriving DecidableEq

/-- `JSONResponse(..)`; `none` is the `ValueError` or the `UnicodeEncodeError`. -/
def jsonResponse (codes : String → List Nat) (code : Nat) (content : Json) (headers : List (String × String)) :
    Option Reply :=
  if content.finite && content.utf8 codes then some ⟨code, content, headers⟩ else none

def statusToHttp : JobStatus → Nat
  | .failed => 502
  | .timeout => 504
  | .cancelled => 409
  | .rejected => 429
  | .queued | .dispatched | .completed | .cancelling => 500

def Redis.loadResponseBlob (r : Redis) (j : String) : Option Json := (r.hashOf j).responseBlob

section
variable (codes : String → List Nat) (c : AppConfig) (r : Redis) (model : String)

/-- The reply after the wait, whose result has a status and nothing else. -/
def syncReply (j : String) : Option JobStatus → Option Reply
  | none =>
    jsonResponse codes 504
      (.obj [("error", .str "sync_timeout"), ("job_id", .str j),
        ("message", .str ("Request timed out after " ++ toString (c.syncTimeout model) ++ "s. Poll via X-Job-Id."))])
      [("X-Job-Id", j)]
  | some status =>
    let error := jsonResponse codes (statusToHttp status)
      (.obj [("error", .str "failed"), ("job_id", .str j), ("status", .str status.value)]) [("X-Job-Id", j)]
    if status = .completed then
      match r.loadResponseBlob j with
      | some blob => if blob.truthy then jsonResponse codes 200 blob [("X-Job-Id", j)] else error
      | none => error
    else error

/-- `chat_completions` from the return of `admit` on; `result` is what the wait of the sync path returns. -/
def chatCompletionsReply (useAsync : Bool) (result : Option JobStatus) : AdmissionOutcome → Option Reply
  | .rejected j drain =>
    jsonResponse codes 429 (.obj [("error", .str "queue_full"), ("job_id", .str j)])
      (if drain = 0 then [] else [("Retry-After", toString drain)])
  | .idempotentHit j =>
    jsonResponse codes 200 (.obj [("job_id", .str j), ("status", .str JobStatus.queued.value)]) [("X-Job-Id", j)]
  | .queued j position =>
    if useAsync then
      jsonResponse codes 202
        (.obj [("job_id", .str j), ("status", .str JobStatus.queued.value), ("position_in_queue", .int position)])
        [("X-Job-Id", j)]
    else syncReply codes c r model j result

end

end AdmissionScheduler
