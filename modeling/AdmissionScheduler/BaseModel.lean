import AdmissionScheduler.PyValue
import Mathlib.Data.List.Forall2

/-!
# Models of JSON objects

A model declares keys, each with a type and, when it is optional, with a default.
Validation reads the declared keys, and keeps the others only if the model allows
them; a dump leaves out what is null. A type gives the value that a dump emits for
the value it accepts.
-/

namespace AdmissionScheduler

namespace Json

/-! ## Members -/

section
variable {kvs : List (String × Json)} {k : String}

theorem field?_append (a b : List (String × Json)) (k : String) : field? (a ++ b) k = (field? b k).or (field? a k) := by
  unfold field?
  rw [List.reverse_append, List.find?_append]
  cases b.reverse.find? fun p => p.1 = k <;> rfl

theorem field?_cons (k' : String) (v : Json) (kvs : List (String × Json)) (k : String) :
    field? ((k', v) :: kvs) k = (field? kvs k).or (if k' = k then some v else none) := by
  rw [← List.singleton_append, field?_append]
  congr 1
  by_cases h : k' = k <;> simp [field?, h]

theorem field?_filter (keep : String → Bool) (kvs : List (String × Json)) (k : String) :
    field? (kvs.filter fun p => keep p.1) k = if keep k then field? kvs k else none := by
  induction kvs with
  | nil => simp [field?]
  | cons p kvs ih =>
    obtain ⟨k', v⟩ := p
    rw [List.filter_cons, field?_cons]
    by_cases hk : k' = k
    · subst hk
      by_cases h : keep k' = true
      · rw [if_pos h, field?_cons, ih, if_pos h, if_pos h]
      · rw [if_neg h, ih, if_neg h, if_neg h]
    · rw [if_neg hk, Option.or_none, ← ih]
      by_cases h : keep k' = true
      · rw [if_pos h, field?_cons, if_neg hk, Option.or_none]
      · rw [if_neg h]

theorem field?_eq_none (h : ∀ p ∈ kvs, p.1 ≠ k) : field? kvs k = none := by
  unfold field?
  rw [List.find?_eq_none.mpr fun p hp => by simpa using h p (List.mem_reverse.mp hp)]
  rfl

theorem exists_mem_of_field? {v : Json} (h : field? kvs k = some v) : ∃ p ∈ kvs, p.1 = k := by
  by_contra none
  push Not at none
  rw [field?_eq_none none] at h
  cases h

theorem exists_field? {p : String × Json} (h : p ∈ kvs) : ∃ v, field? kvs p.1 = some v := by
  cases hf : field? kvs p.1 with
  | some v => exact ⟨v, rfl⟩
  | none =>
    unfold field? at hf
    rw [Option.map_eq_none_iff, List.find?_eq_none] at hf
    exact absurd (decide_eq_true rfl) (hf p (List.mem_reverse.mpr h))

end

/-! ## The same value -/

/-- The value of a number, in units of `2 ^ -1074`. -/
def units : Json → Option Int
  | .int n => some (n * 2 ^ 1074)
  | .float x => match x.toDouble with | .finite u => some u | _ => none
  | _ => none

/-- JSON does not tell an integer from a float of the same value. -/
def Same (v w : Json) : Prop := v = w ∨ ∃ u, v.units = some u ∧ w.units = some u

theorem Same.refl (v : Json) : Same v v := .inl rfl

/-- What became of the value of one key: an optional key may have been left out when it was null, and may have its
default when it was absent. -/
def KeepsAt (R : Json → Json → Prop) (default : Option Json) : Option Json → Option Json → Prop
  | some v, some w => R v w
  | some v, none => v = .null
  | none, some w => default = some w
  | none, none => True

end Json

open Json

/-! ## Types -/

namespace BaseModel

def optional (t : Json → Option Json) : Json → Option Json
  | .null => some .null
  | v => t v

def listOf (t : Json → Option Json) : Json → Option Json
  | .arr xs => (xs.mapM t).map .arr
  | _ => none

def str : Json → Option Json
  | .str s => some (.str s)
  | _ => none

def list : Json → Option Json
  | .arr xs => some (.arr xs)
  | _ => none

def dict : Json → Option Json
  | .obj kvs => some (.obj kvs)
  | _ => none

/-- A type that gives back what it accepts. -/
def Exact (t : Json → Option Json) : Prop := ∀ v w, t v = some w → w = v

theorem exact_str : Exact str := by
  intro v w h
  cases v <;> cases h; rfl

theorem exact_list : Exact list := by
  intro v w h
  cases v <;> cases h; rfl

theorem exact_dict : Exact dict := by
  intro v w h
  cases v <;> cases h; rfl

theorem Exact.optional {t : Json → Option Json} (ht : Exact t) : Exact (optional t) := by
  intro v w h
  cases v with
  | null => cases h; rfl
  | _ => exact ht _ w h

theorem Exact.or {t u : Json → Option Json} (ht : Exact t) (hu : Exact u) : Exact fun v => (t v).or (u v) := by
  intro v w h
  rcases Option.or_eq_some_iff.mp h with h | ⟨-, h⟩
  · exact ht v w h
  · exact hu v w h

theorem mapM_eq_some_iff {α β : Type} {t : α → Option β} : ∀ {xs : List α} {ys : List β},
    xs.mapM t = some ys ↔ List.Forall₂ (fun x y => t x = some y) xs ys
  | [], ys => by cases ys <;> simp
  | x :: xs, ys => by
    simp only [List.mapM_cons, Option.bind_eq_bind, Option.bind_eq_some_iff, Option.pure_def, Option.some.injEq]
    constructor
    · rintro ⟨y, hy, ys, hys, rfl⟩
      exact .cons hy (mapM_eq_some_iff.mp hys)
    · intro h
      cases h with
      | cons hy hys => exact ⟨_, hy, _, mapM_eq_some_iff.mpr hys, rfl⟩

structure Field where
  name : String
  type : Json → Option Json
  /-- None for a required key. -/
  default : Option Json

def Field.read (f : Field) (kvs : List (String × Json)) : Option Json :=
  match field? kvs f.name with
  | some v => f.type v
  | none => f.default

def readAll (kvs : List (String × Json)) : List Field → Option (List (String × Json))
  | [] => some []
  | f :: fs => (f.read kvs).bind fun v => (readAll kvs fs).map fun l => (f.name, v) :: l

end BaseModel

structure BaseModel where
  fields : List BaseModel.Field
  extraAllowed : Bool
  nodup : (fields.map BaseModel.Field.name).Nodup

namespace BaseModel

/-- `model_dump(exclude_none=True)` -/
def dump (kvs : List (String × Json)) : List (String × Json) := kvs.filter fun p => !decide (field? kvs p.1 = some .null)

section
variable (M : BaseModel)

def declares (k : String) : Bool := M.fields.any fun f => f.name = k

def extras (kvs : List (String × Json)) : List (String × Json) :=
  if M.extraAllowed then kvs.filter fun p => !M.declares p.1 else []

/-- `none` is the `ValidationError`. -/
def validate (kvs : List (String × Json)) : Option (List (String × Json)) := (readAll kvs M.fields).map (· ++ M.extras kvs)

def type : Json → Option Json
  | .obj kvs => (M.validate kvs).map fun l => .obj (dump l)
  | _ => none

def defaultOf (k : String) : Option Json := (M.fields.find? fun f => f.name = k).bind Field.default

/-- What the model drops was null. -/
def losesNothing (kvs : List (String × Json)) : Bool :=
  M.extraAllowed || kvs.all fun p => M.declares p.1 || decide (field? kvs p.1 = some .null)

end

section
variable {M : BaseModel} {kvs l : List (String × Json)}

theorem readAll_field? : ∀ {fs : List Field} {l}, readAll kvs fs = some l → (fs.map Field.name).Nodup →
    (∀ f ∈ fs, ∃ v, f.read kvs = some v ∧ field? l f.name = some v) ∧ ∀ k, k ∉ fs.map Field.name → field? l k = none
  | [], l, h, _ => by
    cases h
    exact ⟨by simp, fun _ _ => rfl⟩
  | f :: fs, l, h, nodup => by
    simp only [readAll, Option.bind_eq_some_iff, Option.map_eq_some_iff] at h
    obtain ⟨v, hv, l', hl', rfl⟩ := h
    rw [List.map_cons, List.nodup_cons] at nodup
    obtain ⟨found, missing⟩ := readAll_field? hl' nodup.2
    refine ⟨List.forall_mem_cons.mpr ⟨⟨v, hv, ?_⟩, fun g hg => ?_⟩, fun k hk => ?_⟩
    · rw [field?_cons, missing _ nodup.1, if_pos rfl, Option.none_or]
    · obtain ⟨w, hw, hf⟩ := found g hg
      exact ⟨w, hw, by rw [field?_cons, hf, Option.some_or]⟩
    · rw [List.map_cons, List.mem_cons, not_or] at hk
      rw [field?_cons, missing k hk.2, if_neg (Ne.symm hk.1), Option.none_or]

theorem declares_iff {k : String} : M.declares k = true ↔ k ∈ M.fields.map Field.name := by
  simp [declares]

theorem field?_extras (k : String) :
    field? (M.extras kvs) k = if M.extraAllowed = true ∧ M.declares k = false then field? kvs k else none := by
  unfold extras
  by_cases h : M.extraAllowed = true
  · rw [if_pos h, field?_filter fun k => !M.declares k]
    cases M.declares k <;> simp [h]
  · rw [if_neg h, if_neg fun h' => h h'.1]
    rfl

theorem field?_validate (h : M.validate kvs = some l) :
    (∀ f ∈ M.fields, ∃ v, f.read kvs = some v ∧ field? l f.name = some v) ∧
      ∀ k, M.declares k = false → field? l k = if M.extraAllowed then field? kvs k else none := by
  obtain ⟨l', hl', rfl⟩ := Option.map_eq_some_iff.mp h
  obtain ⟨found, missing⟩ := readAll_field? hl' M.nodup
  constructor
  · intro f hf
    obtain ⟨v, hv, hl⟩ := found f hf
    have declared : M.declares f.name = true := declares_iff.mpr (List.mem_map_of_mem hf)
    exact ⟨v, hv, by rw [field?_append, field?_extras, if_neg (by simp [declared]), hl, Option.none_or]⟩
  · intro k hk
    have undeclared : k ∉ M.fields.map Field.name := fun mem => by rw [declares_iff.mpr mem] at hk; cases hk
    rw [field?_append, field?_extras, missing k undeclared, Option.or_none]
    simp only [hk, and_true]

theorem field?_dump (l : List (String × Json)) (k : String) :
    field? (dump l) k = if field? l k = some .null then none else field? l k := by
  unfold dump
  rw [field?_filter fun k => !decide (field? l k = some .null)]
  by_cases h : field? l k = some .null <;> simp [h]

theorem defaultOf_name {f : Field} (hf : f ∈ M.fields) : M.defaultOf f.name = f.default := by
  have nodup := M.nodup
  unfold defaultOf
  generalize M.fields = fs at hf nodup
  induction fs with
  | nil => cases hf
  | cons g fs ih =>
    rw [List.map_cons, List.nodup_cons] at nodup
    rcases List.mem_cons.mp hf with rfl | hf
    · simp
    · have other : g.name ≠ f.name := fun e => nodup.1 (e ▸ List.mem_map_of_mem hf)
      rw [List.find?_cons_of_neg (by simpa using other)]
      exact ih hf nodup.2

/-- A declared key keeps its value exactly if its type does. -/
theorem keepsAt_field {R : Json → Json → Prop} (h : M.validate kvs = some l) {f : Field} (hf : f ∈ M.fields) :
    KeepsAt R (M.defaultOf f.name) (field? kvs f.name) (field? (dump l) f.name) ↔
      ∀ v w, field? kvs f.name = some v → f.type v = some w → if w = .null then v = .null else R v w := by
  obtain ⟨w, hw, hl⟩ := (field?_validate h).1 f hf
  rw [field?_dump, hl, defaultOf_name hf]
  unfold Field.read at hw
  cases hv : field? kvs f.name with
  | none =>
    rw [hv] at hw
    refine iff_of_true ?_ fun v w hv => by cases hv
    by_cases null : w = .null
    · simp only [null, if_true, KeepsAt]
    · simp only [Option.some.injEq, null, if_false, KeepsAt]; exact hw
  | some v =>
    rw [hv] at hw
    have only : (∀ v' w', some v = some v' → f.type v' = some w' → if w' = .null then v' = .null else R v' w') ↔
        if w = .null then v = .null else R v w := by
      constructor
      · intro all
        exact all v w rfl hw
      · intro this v' w' hv' hw'
        cases hv'
        obtain rfl : w = w' := Option.some.inj (hw.symm.trans hw')
        exact this
    rw [only]
    by_cases null : w = .null <;> simp [null, KeepsAt]

/-- Any other key is kept if the model allows it, and else only null is not lost. -/
theorem keepsAt_extra {R : Json → Json → Prop} (refl : ∀ v, R v v) (h : M.validate kvs = some l) {k : String}
    (hk : M.declares k = false) : KeepsAt R (M.defaultOf k) (field? kvs k) (field? (dump l) k) ↔
      M.extraAllowed = true ∨ ∀ v, field? kvs k = some v → v = .null := by
  rw [field?_dump, (field?_validate h).2 k hk]
  by_cases allowed : M.extraAllowed = true
  · rw [if_pos allowed]
    refine iff_of_true ?_ (.inl allowed)
    cases hv : field? kvs k with
    | none => simp only [reduceCtorEq, if_false, KeepsAt]
    | some v =>
      by_cases null : v = .null
      · simp only [null, if_true, KeepsAt]
      · simp only [Option.some.injEq, null, if_false, KeepsAt]; exact refl v
  · rw [if_neg allowed]
    cases hv : field? kvs k <;> simp [KeepsAt, allowed]

theorem losesNothing_iff : M.losesNothing kvs = true ↔
    M.extraAllowed = true ∨ ∀ k, M.declares k = false → ∀ v, field? kvs k = some v → v = .null := by
  unfold losesNothing
  rw [Bool.or_eq_true, List.all_eq_true]
  refine or_congr_right ⟨fun h k hk v hv => ?_, fun h p hp => ?_⟩
  · obtain ⟨p, hp, rfl⟩ := exists_mem_of_field? hv
    have := h p hp
    rw [hk, Bool.false_or, decide_eq_true_eq, hv] at this
    exact Option.some.inj this
  · cases hk : M.declares p.1 with
    | true => rfl
    | false =>
      obtain ⟨v, hv⟩ := exists_field? hp
      rw [Bool.false_or, decide_eq_true_eq, hv, h p.1 hk v hv]

/-- A model whose types give back what they accept keeps every key exactly if it loses nothing. -/
theorem keeps_iff {R : Json → Json → Prop} (refl : ∀ v, R v v) (exact : ∀ f ∈ M.fields, Exact f.type)
    (h : M.validate kvs = some l) :
    (∀ k, KeepsAt R (M.defaultOf k) (field? kvs k) (field? (dump l) k)) ↔ M.losesNothing kvs = true := by
  rw [losesNothing_iff]
  constructor
  · intro keeps
    by_cases allowed : M.extraAllowed = true
    · exact .inl allowed
    · refine .inr fun k hk => ?_
      exact ((keepsAt_extra refl h hk).mp (keeps k)).resolve_left allowed
  · intro kept k
    cases hk : M.declares k with
    | true =>
      obtain ⟨f, hf, rfl⟩ := List.mem_map.mp (declares_iff.mp hk)
      refine (keepsAt_field h hf).mpr fun v w _ hw => ?_
      rw [exact f hf v w hw]
      split
      · assumption
      · exact refl v
    | false => exact (keepsAt_extra refl h hk).mpr (kept.imp_right fun lost => lost k hk)

end

end BaseModel

end AdmissionScheduler
