import AdmissionScheduler.PyValue

/-!
# Reading JSON

`json.loads` as a machine that takes one character of the text at a time. Its
state holds the containers that are open, so that what has been read is never
looked at again; a text that was read can be followed by more without a change to
what the machine made of it.
-/

namespace AdmissionScheduler.JsonDecoder

inductive LoadsError where
  -- `JSONDecodeError`
  | decode
  -- the `ValueError` of `int()` about a text of more than 4300 digits
  | tooManyDigits
  | recursion
  -- no error: the value holds half a surrogate pair, which no `String` does
  | surrogate
  deriving DecidableEq, Repr

/-! ## States -/

/-- A container of which the next value is being read. -/
inductive Frame where
  | arr (xs : List Json)
  | member (kvs : List (String × Json)) (key : String)

inductive Target where
  | value (st : List Frame)
  | key (kvs : List (String × Json)) (st : List Frame)

inductive Escape where
  | none
  | backslash
  | hex (n left : Nat)
  -- after the first half of a surrogate pair
  | high (hi : Nat)
  | highBackslash (hi : Nat)
  | low (hi n left : Nat)

inductive Phase where
  | minus | zero | int | dot | frac
  | exp (fraction : Bool)
  | expSign (fraction : Bool)
  | expDigits

inductive State where
  | value (st : List Frame)
  | firstItem (st : List Frame)
  | afterItem (xs : List Json) (st : List Frame)
  | firstKey (st : List Frame)
  | key (kvs : List (String × Json)) (st : List Frame)
  | colon (kvs : List (String × Json)) (k : String) (st : List Frame)
  | afterMember (kvs : List (String × Json)) (st : List Frame)
  | string (t : Target) (cs : List Char) (e : Escape)
  -- `next` and `rest` are still to come
  | literal (next : Char) (rest : List Char) (v : Json) (st : List Frame)
  | number (p : Phase) (cs : List Char) (st : List Frame)
  | done (v : Json)

def endValue (v : Json) : List Frame → State
  | [] => .done v
  | .arr xs :: st => .afterItem (xs ++ [v]) st
  | .member kvs k :: st => .afterMember (kvs ++ [(k, v)]) st

def endString (s : String) : Target → State
  | .value st => endValue (.str s) st
  | .key kvs st => .colon kvs s st

/-! ## Characters -/

def blank (c : Char) : Bool := c = ' ' || c = '\t' || c = '\n' || c = '\r'

def escapes : List (Char × Char) :=
  [('"', '"'), ('\\', '\\'), ('/', '/'), ('b', '\x08'), ('f', '\x0c'), ('n', '\n'), ('r', '\r'), ('t', '\t')]

def hexDigit? (c : Char) : Option Nat :=
  if c.isDigit then some (c.toNat - '0'.toNat)
  else if 'a' ≤ c ∧ c ≤ 'f' then some (c.toNat - 'a'.toNat + 10)
  else if 'A' ≤ c ∧ c ≤ 'F' then some (c.toNat - 'A'.toNat + 10)
  else none

def isHigh (n : Nat) : Bool := 0xd800 ≤ n ∧ n ≤ 0xdbff

def isLow (n : Nat) : Bool := 0xdc00 ≤ n ∧ n ≤ 0xdfff

/-- The code point of a surrogate pair. -/
def joined (hi lo : Nat) : Nat := 0x10000 + (hi - 0xd800) * 0x400 + (lo - 0xdc00)

def readInt (cs : List Char) : Except LoadsError Json :=
  let (sign, ds) := if cs.head? = some '-' then ((-1 : Int), cs.tail) else (1, cs)
  if 4300 < ds.length then .error .tooManyDigits
  else .ok (.int (sign * (ds.foldl (fun n c => 10 * n + (c.toNat - '0'.toNat)) 0 : Nat)))

def endHex (t : Target) (cs : List Char) (n : Nat) : Except LoadsError State :=
  if isHigh n then .ok (.string t cs (.high n))
  else if isLow n then .error .surrogate
  else .ok (.string t (cs ++ [Char.ofNat n]) .none)

def endLow (t : Target) (cs : List Char) (hi n : Nat) : Except LoadsError State :=
  if isLow n then .ok (.string t (cs ++ [Char.ofNat (joined hi n)]) .none) else .error .surrogate

/-! ## One character

`headroom` is how many containers the interpreter lets stand open around another,
`float` the value of a literal that is no integer. -/

section
variable (headroom : Nat) (float : List Char → PyFloat)

def stepString (t : Target) (cs : List Char) (c : Char) : Escape → Except LoadsError State
  | .none =>
    if c = '"' then .ok (endString (String.ofList cs) t)
    else if c = '\\' then .ok (.string t cs .backslash)
    else if c < ' ' then .error .decode
    else .ok (.string t (cs ++ [c]) .none)
  | .backslash =>
    if c = 'u' then .ok (.string t cs (.hex 0 4))
    else match escapes.lookup c with
      | some d => .ok (.string t (cs ++ [d]) .none)
      | none => .error .decode
  | .hex n left => match hexDigit? c with
    | none => .error .decode
    | some d => if left = 1 then endHex t cs (16 * n + d) else .ok (.string t cs (.hex (16 * n + d) (left - 1)))
  | .high hi => if c = '\\' then .ok (.string t cs (.highBackslash hi)) else .error .surrogate
  | .highBackslash hi => if c = 'u' then .ok (.string t cs (.low hi 0 4)) else .error .surrogate
  | .low hi n left => match hexDigit? c with
    | none => .error .decode
    | some d => if left = 1 then endLow t cs hi (16 * n + d) else .ok (.string t cs (.low hi (16 * n + d) (left - 1)))

def startValue (c : Char) (st : List Frame) : Except LoadsError State :=
  if c = '"' then .ok (.string (.value st) [] .none)
  else if c = '\x7b' then if st.length ≤ headroom then .ok (.firstKey st) else .error .recursion
  else if c = '[' then if st.length ≤ headroom then .ok (.firstItem st) else .error .recursion
  else if c = 'n' then .ok (.literal 'u' ['l', 'l'] .null st)
  else if c = 't' then .ok (.literal 'r' ['u', 'e'] (.bool true) st)
  else if c = 'f' then .ok (.literal 'a' ['l', 's', 'e'] (.bool false) st)
  else if c = 'N' then .ok (.literal 'a' ['N'] (.float .nan) st)
  else if c = 'I' then .ok (.literal 'n' ['f', 'i', 'n', 'i', 't', 'y'] (.float (.inf false)) st)
  else if c = '-' then .ok (.number .minus [c] st)
  else if c = '0' then .ok (.number .zero [c] st)
  else if c.isDigit then .ok (.number .int [c] st)
  else .error .decode

/-- How a number goes on; `none` when it does not. -/
def Phase.next (c : Char) : Phase → Option Phase
  | minus => if c = '0' then some zero else if c.isDigit then some int else none
  | zero => if c = '.' then some dot else if c = 'e' ∨ c = 'E' then some (exp false) else none
  | int =>
    if c.isDigit then some int else if c = '.' then some dot else if c = 'e' ∨ c = 'E' then some (exp false) else none
  | dot => if c.isDigit then some frac else none
  | frac => if c.isDigit then some frac else if c = 'e' ∨ c = 'E' then some (exp true) else none
  | exp b => if c.isDigit then some expDigits else if c = '+' ∨ c = '-' then some (expSign b) else none
  | expSign _ | expDigits => if c.isDigit then some expDigits else none

/-- The value of a number that is over. Where a fraction or an exponent has been begun only, the
number ends before it and what follows is an error. -/
def endNumber (cs : List Char) : Phase → Except LoadsError Json
  | .minus => .error .decode
  | .zero | .int => readInt cs
  | .frac | .expDigits => .ok (.float (float cs))
  | .dot | .exp false | .expSign false => do
    let _ ← readInt (cs.takeWhile fun c => c = '-' ∨ c.isDigit)
    .error .decode
  | .exp true | .expSign true => .error .decode

def stepItem (xs : List Json) (st : List Frame) (c : Char) : Except LoadsError State :=
  if blank c then .ok (.afterItem xs st)
  else if c = ',' then .ok (.value (.arr xs :: st))
  else if c = ']' then .ok (endValue (.arr xs) st)
  else .error .decode

def stepMember (kvs : List (String × Json)) (st : List Frame) (c : Char) : Except LoadsError State :=
  if blank c then .ok (.afterMember kvs st)
  else if c = ',' then .ok (.key kvs st)
  else if c = '\x7d' then .ok (endValue (.obj kvs) st)
  else .error .decode

def stepAfter (v : Json) (c : Char) : List Frame → Except LoadsError State
  | [] => if blank c then .ok (.done v) else .error .decode
  | .arr xs :: st => stepItem (xs ++ [v]) st c
  | .member kvs k :: st => stepMember (kvs ++ [(k, v)]) st c

def step (s : State) (c : Char) : Except LoadsError State :=
  match s with
  | .value st => if blank c then .ok s else startValue headroom c st
  | .firstItem st =>
    if blank c then .ok s else if c = ']' then .ok (endValue (.arr []) st) else startValue headroom c (.arr [] :: st)
  | .afterItem xs st => stepItem xs st c
  | .firstKey st =>
    if blank c then .ok s
    else if c = '\x7d' then .ok (endValue (.obj []) st)
    else if c = '"' then .ok (.string (.key [] st) [] .none)
    else .error .decode
  | .key kvs st =>
    if blank c then .ok s else if c = '"' then .ok (.string (.key kvs st) [] .none) else .error .decode
  | .colon kvs k st =>
    if blank c then .ok s else if c = ':' then .ok (.value (.member kvs k :: st)) else .error .decode
  | .afterMember kvs st => stepMember kvs st c
  | .string t cs e => stepString t cs c e
  | .literal next rest v st =>
    if c ≠ next then .error .decode
    else match rest with
      | [] => .ok (endValue v st)
      | d :: ds => .ok (.literal d ds v st)
  | .number p cs st => match p.next c with
    | some p => .ok (.number p (cs ++ [c]) st)
    | none =>
      match p with
      | .minus => if c = 'I' then .ok (.literal 'n' ['f', 'i', 'n', 'i', 't', 'y'] (.float (.inf true)) st) else .error .decode
      | p => do stepAfter (← endNumber float cs p) c st
  | .done _ => if blank c then .ok s else .error .decode

def finish : State → Except LoadsError Json
  | .done v => .ok v
  | .number p cs st => do
    let v ← endNumber float cs p
    if st.isEmpty then .ok v else .error .decode
  | _ => .error .decode

def run (s : State) (cs : List Char) : Except LoadsError State := cs.foldlM (step headroom float) s

/-- `json.loads` -/
def loads (text : List Char) : Except LoadsError Json := do
  finish float (← run headroom float (.value []) text)

end

end AdmissionScheduler.JsonDecoder
