import AdmissionScheduler.JsonEncoder
import AdmissionScheduler.Dispatcher
import AdmissionScheduler.SyncReply

/-!
# Values in a job hash

The system keeps the payload and the response of a job as values; the code keeps
them as the text of `json.dumps`, the response compressed. A hash that holds the
texts is read as the hash that holds the values (`stored_json_agrees`).
-/

namespace AdmissionScheduler

open JsonDecoder JsonEncoder

/-- The two fields of a job hash that hold JSON, as the server has them. -/
structure StoredFields (β : Type) where
  payloadJson : Option (List Char)
  responseBlob : Option β

section
variable {β : Type} (gzip : List Char → β) (gunzip : β → Option (List Char))
  (headroom room : Nat) (float : List Char → PyFloat)

/-- `_store_payload`; `json.dumps` raises where there is no result. -/
def storePayload (payload : Json) (f : StoredFields β) : Option (StoredFields β) :=
  (dumps true room payload).map fun text => { f with payloadJson := some text }

def storeResponse (response : Json) (f : StoredFields β) : Option (StoredFields β) :=
  (dumps true room response).map fun text => { f with responseBlob := some (gzip text) }

/-- `json.loads` of `payload_json` in the dispatcher: an empty field counts as absent, and what is no JSON as `{}`. -/
def loadPayload (f : StoredFields β) : Json :=
  match loads headroom float ((f.payloadJson.filter (· ≠ [])).getD ['\x7b', '\x7d']) with
  | .ok v => v
  | .error _ => .obj []

def loadResponseBlob (f : StoredFields β) : Option Json :=
  f.responseBlob.bind fun raw =>
    match (gunzip raw).map (loads headroom float) with
    | some (.ok v) => some v
    | _ => none

inductive JsonWrite where
  | payload (v : Json)
  | response (v : Json) (ts : Nat)

def JsonWrite.value : JsonWrite → Json
  | .payload v | .response v _ => v

def JsonWrite.store (f : StoredFields β) : JsonWrite → Option (StoredFields β)
  | .payload v => storePayload room v f
  | .response v _ => storeResponse gzip room v f

def JsonWrite.write (h : JobHash) : JsonWrite → JobHash
  | .payload v => { h with payloadJson := some v }
  | .response v ts => (Verdict.completed v).write ts h

/-- The text of a value that is read back as the value. -/
def TextOf (v : Json) (text : List Char) : Prop := text ≠ [] ∧ loads headroom float text = .ok v

structure Stores (f : StoredFields β) (h : JobHash) : Prop where
  payload : Option.Rel (TextOf headroom float) h.payloadJson f.payloadJson
  response : Option.Rel (fun v raw => ∃ text, gunzip raw = some text ∧ TextOf headroom float v text) h.responseBlob
    f.responseBlob

variable {gzip gunzip headroom room float} {f f' : StoredFields β} {h : JobHash} {v : Json}

theorem textOf_dumps {text : List Char} (hroom : room ≤ headroom + 1) (hf : ∀ x ∈ floats v, Faithful float x)
    (hd : dumps true room v = some text) : TextOf headroom float v text := by
  have hread := loads_dumps hroom hf hd
  refine ⟨?_, hread⟩
  rintro rfl
  cases hread

theorem Stores.write {w : JsonWrite} (hgzip : ∀ text, gunzip (gzip text) = some text) (hroom : room ≤ headroom + 1)
    (hf : ∀ x ∈ floats w.value, Faithful float x) (hs : Stores gunzip headroom float f h)
    (hw : w.store gzip room f = some f') : Stores gunzip headroom float f' (w.write h) := by
  cases w with
  | payload v =>
    obtain ⟨text, hd, rfl⟩ := Option.map_eq_some_iff.mp hw
    exact ⟨.some (textOf_dumps hroom hf hd), hs.response⟩
  | response v ts =>
    obtain ⟨text, hd, rfl⟩ := Option.map_eq_some_iff.mp hw
    exact ⟨hs.payload, .some ⟨text, hgzip text, textOf_dumps hroom hf hd⟩⟩

theorem Stores.loadPayload (hs : Stores gunzip headroom float f h) : loadPayload headroom float f = h.payload := by
  unfold AdmissionScheduler.loadPayload JobHash.payload
  have hp := hs.payload
  cases hv : h.payloadJson with
  | none =>
    rw [hv] at hp
    cases hf : f.payloadJson with
    | none => rfl
    | some text =>
      rw [hf] at hp
      cases hp
  | some v =>
    rw [hv] at hp
    cases hf : f.payloadJson with
    | none =>
      rw [hf] at hp
      cases hp
    | some text =>
      rw [hf] at hp
      cases hp with
      | some ht =>
        have hfilter : (some text).filter (· ≠ []) = some text := by simp [ht.1]
        rw [hfilter, Option.getD_some, ht.2]
        rfl

theorem Stores.loadResponseBlob (hs : Stores gunzip headroom float f h) :
    loadResponseBlob gunzip headroom float f = h.responseBlob := by
  unfold AdmissionScheduler.loadResponseBlob
  have hp := hs.response
  cases hv : h.responseBlob with
  | none =>
    rw [hv] at hp
    cases hf : f.responseBlob with
    | none => rfl
    | some raw =>
      rw [hf] at hp
      cases hp
  | some v =>
    rw [hv] at hp
    cases hf : f.responseBlob with
    | none =>
      rw [hf] at hp
      cases hp
    | some raw =>
      rw [hf] at hp
      cases hp with
      | some ht =>
        obtain ⟨text, hgunzip, -, hread⟩ := ht
        simp [hgunzip, hread]

theorem Stores.writes (hgzip : ∀ text, gunzip (gzip text) = some text) (hroom : room ≤ headroom + 1) {ws : List JsonWrite}
    (hf : ∀ w ∈ ws, ∀ x ∈ floats w.value, Faithful float x) (hs : Stores gunzip headroom float f h)
    (hw : ws.foldlM (fun f w => JsonWrite.store gzip room f w) f = some f') :
    Stores gunzip headroom float f' (ws.foldl JsonWrite.write h) := by
  induction ws generalizing f h with
  | nil =>
    cases hw
    exact hs
  | cons w ws ih =>
    rw [List.foldlM_cons] at hw
    obtain ⟨g, hg, hw⟩ := Option.bind_eq_some_iff.mp hw
    exact ih (fun w' hw' => hf w' (.tail _ hw')) (hs.write hgzip hroom (hf w (.head _)) hg) hw

/-- After any writes of payloads and responses, what is read from the texts is what the hash of values holds. -/
theorem stored_json_agrees (hgzip : ∀ text, gunzip (gzip text) = some text) (hroom : room ≤ headroom + 1)
    (ws : List JsonWrite) (hf : ∀ w ∈ ws, ∀ x ∈ floats w.value, Faithful float x)
    (hs : ws.foldlM (fun f w => JsonWrite.store gzip room f w) ⟨none, none⟩ = some f) :
    loadPayload headroom float f = (ws.foldl JsonWrite.write {}).payload ∧
      loadResponseBlob gunzip headroom float f = (ws.foldl JsonWrite.write {}).responseBlob := by
  have hempty : Stores gunzip headroom float ⟨none, none⟩ {} := ⟨.none, .none⟩
  have hstores := hempty.writes hgzip hroom hf hs
  exact ⟨hstores.loadPayload, hstores.loadResponseBlob⟩

end

def temperature : PyFloat := .finite false [⟨5, by decide⟩] 0

def storedWrites : List JsonWrite :=
  [.payload (.obj [("model", .str "chat"), ("messages", .arr [.obj [("content", .str "\"é\"\n")]]),
      ("temperature", .float temperature)]),
    .response (.obj [("usage", .obj [("total_tokens", .int (-3))]), ("choices", .arr [])]) 7]

theorem stored_json_agrees_run : ∃ f : StoredFields (List Char),
    storedWrites.foldlM (fun f w => JsonWrite.store id 990 f w) ⟨none, none⟩ = some f ∧
    loadPayload 990 (fun _ => temperature) f = (storedWrites.foldl JsonWrite.write {}).payload ∧
      loadResponseBlob some 990 (fun _ => temperature) f = (storedWrites.foldl JsonWrite.write {}).responseBlob := by
  refine ⟨_, rfl, stored_json_agrees (fun _ => rfl) (show 990 ≤ 990 + 1 by decide) storedWrites ?_ rfl⟩
  intro w hw x hx
  have hx : x = temperature := by
    rcases List.mem_pair.mp hw with rfl | rfl
    · exact List.mem_singleton.mp hx
    · cases hx
  rw [hx]
  exact ⟨.inr ⟨_, _, rfl, by decide⟩, rfl⟩

end AdmissionScheduler
