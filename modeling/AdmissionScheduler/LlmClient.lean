import AdmissionScheduler.Program
import AdmissionScheduler.PyText
import AdmissionScheduler.PyValue

/-!
# The client of the model

`orchestrator/llm.py`: one request to the primary alias, perhaps one to the
fallback, and the answer read out of whatever JSON comes back. Reading goes down
by index and by attribute without looking at types first, so each access raises
what Python raises for the type it meets.
-/

namespace AdmissionScheduler.Llm

open PyText

/-! ## What can be raised -/

inductive HttpxError where
  | connectTimeout | readTimeout | writeTimeout | poolTimeout
  | connectError | readError | writeError | closeError
  | localProtocolError | remoteProtocolError | proxyError | unsupportedProtocol
  | decodingError | tooManyRedirects | httpStatusError
  -- these three are no `HTTPError`
  | invalidURL | cookieConflict | streamError
  deriving DecidableEq, Repr

namespace HttpxError

def isTimeout : HttpxError → Bool
  | connectTimeout | readTimeout | writeTimeout | poolTimeout => true
  | _ => false

def isHTTPError : HttpxError → Bool
  | invalidURL | cookieConflict | streamError => false
  | _ => true

end HttpxError

inductive PyError where
  | keyError | valueError | typeError
  | indexError | attributeError | overflowError
  -- the decoder's, on a text that nests too deeply
  | recursionError
  deriving DecidableEq, Repr

def PyError.caught : PyError → Bool
  | keyError | valueError | typeError => true
  | indexError | attributeError | overflowError | recursionError => false

/-- What an `LLMError` is about, with what its text quotes. -/
inductive Failure where
  | http (alias_ : String) (e : HttpxError)
  | clientError (alias_ : String) (statusCode : Nat) (body : String)
  | malformed (alias_ : String) (e : PyError) (body : String)
  | noFallback (primary : String)
  | bothUnavailable (primary fallback : String)
  deriving DecidableEq

inductive Raised where
  | llmTimeout (timeout : PyFloat) (alias_ : String)
  | llmError (f : Failure)
  | httpx (e : HttpxError)
  | python (e : PyError)
  deriving DecidableEq

def Raised.isLLMError : Raised → Bool
  | llmTimeout .. | llmError _ => true
  | httpx _ | python _ => false

/-! ## Requests and replies -/

structure Role where
  name : String
  primaryAlias : String
  fallbackAlias : Option String
  llmTimeout : PyFloat
  fallbackTimeout : PyFloat

structure Request where
  payload : List (String × Json)
  timeout : PyFloat

inductive Body where
  | notJson
  | tooDeep
  | json (d : Json)

structure Response where
  statusCode : Nat
  text : String
  body : Body

structure LLMResult where
  content : String
  model : Json
  promptTokens : Int
  completionTokens : Int
  totalTokens : Int

abbrev Client := Program Request (fun _ => Response) Raised

/-! ## Reading a reply -/

def Body.read : Body → Except PyError Json
  | notJson => .error .valueError
  | tooDeep => .error .recursionError
  | json d => .ok d

def item (v : Json) (key : String) : Except PyError Json :=
  match v with
  | .obj kvs => match Json.field? kvs key with
    | some w => .ok w
    | none => .error .keyError
  | _ => .error .typeError

def first : Json → Except PyError Json
  | .arr (x :: _) => .ok x
  | .arr [] => .error .indexError
  | .str s => match s.toList with
    | c :: _ => .ok (.str (String.ofList [c]))
    | [] => .error .indexError
  -- the keys of a JSON object are texts
  | .obj _ => .error .keyError
  | _ => .error .typeError

def get (v : Json) (key : String) (default : Json) : Except PyError Json :=
  match v with
  | .obj kvs => .ok ((Json.field? kvs key).getD default)
  | _ => .error .attributeError

/-- `v or default` -/
def orElse (v default : Json) : Json := if v.truthy then v else default

def stripText : Json → Except PyError String
  | .str s => .ok (String.ofList (stripSpace s.toList))
  | _ => .error .attributeError

def floatToInt : Double → Except PyError Int
  | .finite u => .ok (u.tdiv (2 ^ 1074))
  | .inf _ => .error .overflowError
  | .nan => .error .valueError

def toInt : Json → Except PyError Int
  | .int n => .ok n
  | .bool b => .ok (if b then 1 else 0)
  | .float x => floatToInt x.toDouble
  | .str s => match pyInt s with
    | some n => .ok n
    | none => .error .valueError
  | .null | .arr _ | .obj _ => .error .typeError

def tokens (usage : Json) (key : String) : Except PyError Int := do
  toInt (← get usage key (.int 0))

def readMessage (alias_ : String) (d msg : Json) : Except PyError LLMResult := do
  let content ← stripText (orElse (← get msg "content" .null) (.str ""))
  let usage := orElse (← get d "usage" .null) (.obj [])
  return {
    content
    model := ← get d "model" (.str alias_)
    promptTokens := ← tokens usage "prompt_tokens"
    completionTokens := ← tokens usage "completion_tokens"
    totalTokens := ← tokens usage "total_tokens" }

def parseReply (alias_ : String) (body : Body) : Except PyError LLMResult := do
  let d ← body.read
  let msg ← item (← first (← item d "choices")) "message"
  readMessage alias_ d msg

/-! ## The call -/

/-- The `except` clauses around the request; `none` is an end after which the fallback is tried. -/
def onError (alias_ : String) (timeout : PyFloat) : Raised → Except Raised (Option Response)
  | .httpx .connectError => .ok none
  | .httpx .readTimeout => .error (.llmTimeout timeout alias_)
  | .httpx e => .error (if e.isHTTPError then .llmError (.http alias_ e) else .httpx e)
  | e => .error e

def readResponse (alias_ : String) (r : Response) : Except Raised (Option LLMResult) :=
  if r.statusCode ≥ 500 then .ok none
  else if r.statusCode ≥ 400 then .error (.llmError (.clientError alias_ r.statusCode (clip 300 r.text)))
  else match parseReply alias_ r.body with
    | .ok result => .ok (some result)
    | .error e => .error (if e.caught then .llmError (.malformed alias_ e (clip 300 r.text)) else .python e)

section
variable (messages : Json) (maxTokens : Nat) (temperature : PyFloat) (extraBody : List (String × Json))

/-- The payload; `extra_body` takes precedence, as the last of equal keys does. -/
def request (alias_ : String) (timeout : PyFloat) : Request where
  payload := [("model", .str alias_), ("messages", messages), ("max_tokens", .int maxTokens),
    ("temperature", .float temperature)] ++ extraBody
  timeout := timeout

def tryOne (alias_ : String) (timeout : PyFloat) : Client (Option LLMResult) := do
  let post : Client Response := Program.perform (request messages maxTokens temperature extraBody alias_ timeout)
  let reply : Option Response ← (do return some (← post)).catching fun e => Program.ofExcept (onError alias_ timeout e)
  match reply with
  | none => return none
  | some r => Program.ofExcept (readResponse alias_ r)

def call (role : Role) : Client LLMResult := do
  match ← tryOne messages maxTokens temperature extraBody role.primaryAlias role.llmTimeout with
  | some result => return result
  | none =>
    match role.fallbackAlias with
    | none => Program.raise (.llmError (.noFallback role.primaryAlias))
    | some fallback =>
      match ← tryOne messages maxTokens temperature extraBody fallback role.fallbackTimeout with
      | some result => return result
      | none => Program.raise (.llmError (.bothUnavailable role.primaryAlias fallback))

end

end AdmissionScheduler.Llm
