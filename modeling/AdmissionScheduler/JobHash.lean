import AdmissionScheduler.Config

/-!
# The job hash and how it is enqueued

The hash `job:{job_id}` and the one way `admit` writes it: the values are joined
by NUL into one text that `ENQUEUE_JOB_SCRIPT` splits again, dropping empty
parts, and hands to `HSET` in pairs.
-/

namespace AdmissionScheduler

structure JobHash where
  model : Option String := none
  status : Option JobStatus := none
  priority : Option String := none
  enqueueTs : Option Nat := none
  caller : Option String := none
  requestId : Option String := none
  payloadJson : Option Json := none
  dispatchTs : Option Nat := none
  completeTs : Option Nat := none
  responseBlob : Option Json := none
  errorClass : Option ErrorClass := none
  errorMessage : Option String := none
  httpStatus : Option Int := none
  deriving DecidableEq

/-- A text the script keeps whole: a header value, a UUID, a number. -/
def Plain (s : String) : Prop := s ≠ "" ∧ '\x00' ∉ s.toList

instance (s : String) : Decidable (Plain s) := inferInstanceAs (Decidable (_ ∧ _))

theorem plain_text (x : PyNum) : Plain x.text := by
  have digit : ∀ {c : Char}, c.isDigit = true → c ≠ '\x00' := fun h e => by subst e; revert h; decide
  have digits : ∀ n, '\x00' ∉ Nat.toDigits 10 n := fun n hm =>
    digit (Nat.isDigit_of_mem_toDigits (by decide) (by decide) hm) rfl
  have digitText : ∀ ds, '\x00' ∉ PyFloat.digitText ds := by
    intro ds hm
    obtain ⟨c, -, hc⟩ := List.mem_map.mp hm
    revert hc; revert c; decide
  have signText : ∀ b, '\x00' ∉ PyFloat.signText b := by decide
  cases x with
  | int n =>
    have hn : ∀ k : Nat, k.repr.toList ≠ [] := fun k => by rw [Nat.toList_repr]; exact Nat.toDigits_ne_nil
    simp only [PyNum.text, Plain, Int.toString_eq_repr, Int.repr_eq_if]
    split
    · refine ⟨fun h => hn n.toNat (by rw [h]; rfl), ?_⟩
      rw [Nat.toList_repr]; exact digits _
    · refine ⟨fun h => hn (-n).toNat ?_, ?_⟩
      · have := congrArg String.toList h
        simp at this
      · rw [String.toList_append, Nat.toList_repr, List.mem_append, not_or]
        exact ⟨by decide, digits _⟩
  | bool b => cases b <;> decide
  | float x =>
    cases x with
    | finite neg ds decpt =>
      constructor
      · intro h
        have := congrArg String.toList h
        simp only [PyNum.text, PyFloat.repr, String.toList_ofList] at this
        split at this
        · split at this
          · simp at this
          · split at this <;> simp at this
        · simp at this
      · simp only [PyNum.text, PyFloat.repr, String.toList_ofList, List.mem_append, not_or]
        refine ⟨signText neg, ?_⟩
        split
        · split
          · simp [digitText]
          · split <;> simp [digitText]
        · simp only [List.mem_append, List.mem_cons, not_or]
          refine ⟨⟨digitText _, ?_⟩, by decide, ?_, ?_, digits _⟩
          · split <;> simp [digitText]
          · split <;> decide
          · split <;> simp
    | inf neg => cases neg <;> decide
    | nan => decide

/-! ## Joined texts -/

/-- A symbol of the joined text; the ISO text of a timestamp, which has no NUL, is one symbol. -/
inductive Sym where
  | char (c : Char)
  | iso (t : Nat)
  deriving DecidableEq

abbrev Text := List Sym

def lit (s : String) : Text := s.toList.map Sym.char

@[simp] theorem lit_inj {s t : String} : lit s = lit t ↔ s = t := by
  rw [lit, lit, (List.map_injective_iff.mpr fun a b h => Sym.char.inj h).eq_iff, String.toList_inj]

namespace Text

def nul : Sym := .char '\x00'

def join (vs : List Text) : Text := List.intercalate [nul] vs

/-- `gmatch(s .. NUL, '([^%z]*)%z')` without the empty parts. -/
def parts (s : Text) : List Text := (s.splitOn nul).filter (· ≠ [])

def toString? : Text → Option String
  | [] => some ""
  | .char c :: s => (toString? s).map fun r => String.ofList (c :: r.toList)
  | .iso _ :: _ => none

def toIso? : Text → Option Nat
  | [.iso t] => some t
  | _ => none

theorem toString_lit (s : String) : toString? (lit s) = some s := by
  have h : ∀ cs : List Char, toString? (cs.map Sym.char) = some (String.ofList cs) := by
    intro cs
    induction cs with
    | nil => rfl
    | cons c cs ih => simp [toString?, ih]
  rw [lit, h, String.ofList_toList]

theorem nul_notMem_lit {s : String} (h : '\x00' ∉ s.toList) : nul ∉ lit s := by
  simpa [nul, lit] using h

theorem lit_ne_nil {s : String} (h : s ≠ "") : lit s ≠ [] := by
  simpa [lit] using h

theorem splitOn_join (v : Text) (vs : List Text) :
    (join (v :: vs)).splitOn nul = (v :: vs).flatMap fun w => w.splitOn nul := by
  induction vs generalizing v with
  | nil => simp [join]
  | cons w vs ih =>
    have hj : join (v :: w :: vs) = v ++ nul :: join (w :: vs) := by simp [join]
    rw [hj, List.splitOn_eq_splitOnP, List.splitOnP_append_cons _ _ (by simp), List.flatMap_cons, ← ih]
    rfl

theorem parts_join (v : Text) (vs : List Text) : parts (join (v :: vs)) = (v :: vs).flatMap parts := by
  rw [parts, splitOn_join, List.filter_flatMap]
  rfl

theorem parts_whole {v : Text} (hn : nul ∉ v) (hv : v ≠ []) : parts v = [v] := by
  rw [parts, List.splitOn_eq_singleton hn]
  simp [hv]

theorem parts_plain {s : String} (h : Plain s) : parts (lit s) = [lit s] :=
  parts_whole (nul_notMem_lit h.2) (lit_ne_nil h.1)

theorem parts_iso (t : Nat) : parts [Sym.iso t] = [[Sym.iso t]] := parts_whole (by simp [nul]) (by simp)

end Text

/-! ## `HSET` of the parts -/

namespace JobHash

/-- One field of the script's `HSET`. Other names come only from a model name that holds NUL; no
such model has a worker, and nothing else reads them. -/
def put (field value : Text) (h : JobHash) : JobHash :=
  if field = lit "model" then { h with model := value.toString? }
  else if field = lit "status" then { h with status := value.toString?.bind JobStatus.parse }
  else if field = lit "priority" then { h with priority := value.toString? }
  else if field = lit "enqueue_ts" then { h with enqueueTs := value.toIso? }
  else if field = lit "caller" then { h with caller := value.toString? }
  else if field = lit "request_id" then { h with requestId := value.toString? }
  else h

/-- `HSET` with the given arguments; `none` is its error on an odd number of them. -/
def putAll : List Text → JobHash → Option JobHash
  | [], h => some h
  | [_], _ => none
  | field :: value :: rest, h => putAll rest (h.put field value)

theorem putAll_append {ps qs : List Text} {h h' : JobHash} (hp : putAll ps h = some h') :
    putAll (ps ++ qs) h = putAll qs h' := by
  fun_induction putAll ps h with
  | case1 => cases hp; rfl
  | case2 => cases hp
  | case3 h f v rest ih => exact ih hp

theorem putAll_odd {ps : List Text} {h : JobHash} : putAll ps h = none ↔ ps.length % 2 = 1 := by
  fun_induction putAll ps h with
  | case1 => simp
  | case2 => simp
  | case3 h f v rest ih => rw [ih]; simp only [List.length_cons]; omega

theorem put_payloadJson (field value : Text) (h : JobHash) : (h.put field value).payloadJson = h.payloadJson := by
  unfold put
  split_ifs <;> rfl

theorem putAll_payloadJson {ps : List Text} {h h' : JobHash} (hp : putAll ps h = some h') :
    h'.payloadJson = h.payloadJson := by
  fun_induction putAll ps h with
  | case1 => cases hp; rfl
  | case2 => cases hp
  | case3 h f v rest ih => rw [ih hp, put_payloadJson]

end JobHash

def fieldValues (model priority : String) (enqueueTs : Nat) (caller requestId : String) : List Text :=
  [lit "model", lit model, lit "status", lit JobStatus.queued.value, lit "priority", lit priority,
    lit "enqueue_ts", [.iso enqueueTs], lit "caller", lit caller, lit "request_id", lit requestId]

/-- What the script's `HSET` makes of the hash it finds; `none` when it fails. -/
def enqueuedHash (values : List Text) (h : JobHash) : Option JobHash := JobHash.putAll (Text.join values).parts h

section
variable {model priority caller requestId : String} {t : Nat}

theorem parts_fieldValues (hp : Plain priority) (hc : Plain caller) (hr : Plain requestId) :
    (Text.join (fieldValues model priority t caller requestId)).parts =
      (lit "model" :: (lit model).parts) ++
        [lit "status", lit JobStatus.queued.value, lit "priority", lit priority, lit "enqueue_ts", [.iso t],
          lit "caller", lit caller, lit "request_id", lit requestId] := by
  unfold fieldValues
  rw [Text.parts_join]
  simp only [List.flatMap_cons, List.flatMap_nil, Text.parts_plain hp, Text.parts_plain hc, Text.parts_plain hr,
    Text.parts_iso, Text.parts_plain (show Plain "model" by decide), Text.parts_plain (show Plain "status" by decide),
    Text.parts_plain (show Plain JobStatus.queued.value by decide), Text.parts_plain (show Plain "priority" by decide),
    Text.parts_plain (show Plain "enqueue_ts" by decide), Text.parts_plain (show Plain "caller" by decide),
    Text.parts_plain (show Plain "request_id" by decide)]
  simp

/-- However the model name splits, the later fields end up as `admit` meant them. -/
theorem enqueuedHash_fields (hp : Plain priority) (hc : Plain caller) (hr : Plain requestId) {h₀ h : JobHash}
    (hh : enqueuedHash (fieldValues model priority t caller requestId) h₀ = some h) :
    h.status = some .queued ∧ h.priority = some priority ∧ h.enqueueTs = some t ∧ h.caller = some caller ∧
      h.requestId = some requestId := by
  unfold enqueuedHash at hh
  rw [parts_fieldValues hp hc hr] at hh
  cases hm : JobHash.putAll (lit "model" :: (lit model).parts) h₀ with
  | none =>
    have ho := JobHash.putAll_odd.mp hm
    rw [JobHash.putAll_odd.mpr] at hh
    · cases hh
    · rw [List.length_append, Nat.add_mod, ho]; simp
  | some h₁ =>
    rw [JobHash.putAll_append hm] at hh
    simp only [JobHash.putAll, JobHash.put, lit_inj, String.reduceEq, if_true, if_false, Option.some.injEq,
      Text.toString_lit, Text.toIso?, Option.bind_some, JobStatus.parse_value] at hh
    subst hh
    simp

end

end AdmissionScheduler
