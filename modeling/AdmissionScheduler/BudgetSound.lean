import AdmissionScheduler.Budget
import AdmissionScheduler.Tally

/-!
# The ledger of a token budget

While a counter lives, it is the sum of what its calls have added: the actual
tokens of those that are through, the reserved tokens of those that are not, and
the increments that are about to be put back. So whoever gets a reservation got
it with all the others below the cap. When the key has expired, 48 hours after
the last reservation, the counter starts again and the sum does not.
-/

namespace AdmissionScheduler.Budget

/-! ## What each call has added -/

namespace Call

def committedTokens (k : String) : Call → Int
  | committed res actual => if res.key = k then actual else 0
  | _ => 0

def outstandingTokens (k : String) : Call → Int
  | granted res | committing res _ | uncorrected res _ => if res.key = k then res.reserved else 0
  | expiring role k' expected newTotal => if k' = k ∧ newTotal ≤ role.dailyTokenCap then expected else 0
  | _ => 0

/-- The increment that a call is going to put back. -/
def pendingTokens (k : String) : Call → Int
  | expiring role k' expected newTotal => if k' = k ∧ role.dailyTokenCap < newTotal then expected else 0
  | rollingBack _ k' expected _ => if k' = k then expected else 0
  | _ => 0

def charge (k : String) (p : Call) : Int := p.committedTokens k + p.outstandingTokens k + p.pendingTokens k

/-- The key of a reservation that is made, or will be once its `EXPIRE` is through. -/
def grantedKey : Call → Option String
  | granted res | committing res _ | committed res _ | uncorrected res _ => some res.key
  | expiring role k _ newTotal => if newTotal ≤ role.dailyTokenCap then some k else none
  | _ => none

def key? : Call → Option String
  | reserving _ k _ | expiring _ k _ _ | rollingBack _ k _ _ => some k
  | granted res | committing res _ | committed res _ | uncorrected res _ => some res.key
  | idle | exceeded _ | unavailable | raised => none

def expected : Call → Int
  | reserving _ _ expected | expiring _ _ expected _ | rollingBack _ _ expected _ => expected
  | _ => 0

end Call

def committed (k : String) (s : State) : Int := tally (Call.committedTokens k) s.begun s.calls

def outstanding (k : String) (s : State) : Int := tally (Call.outstandingTokens k) s.begun s.calls

def pending (k : String) (s : State) : Int := tally (Call.pendingTokens k) s.begun s.calls

def Faultless : State → Action → Prop
  | _, .reserve _ _ expected => 0 ≤ expected
  | _, .commit _ actual => 0 ≤ actual
  | _, .fail .. => False
  | _, .go _ | _, .tick _ => True

instance : ∀ s a, Decidable (Faultless s a)
  | _, .reserve _ _ expected => inferInstanceAs (Decidable (0 ≤ expected))
  | _, .commit _ actual => inferInstanceAs (Decidable (0 ≤ actual))
  | _, .fail .. => inferInstanceAs (Decidable False)
  | _, .go _ | _, .tick _ => inferInstanceAs (Decidable True)

def survives (k : String) (s : State) : Action → Bool
  | .tick δ => (s.counters.value k).all fun e => e.alive (s.counters.now + δ)
  | _ => true

def Kept (k : String) (s : State) (a : Action) : Prop := Faultless s a ∧ survives k s a = true

instance (k : String) (s : State) (a : Action) : Decidable (Kept k s a) := inferInstanceAs (Decidable (_ ∧ _))

/-! ## Commands -/

namespace Counters

variable {c c' : Counters} {k k' : String} {n : Int}

theorem value_incrby (h : c.incrby k n = some c') :
    c'.value = Function.update c.value k (some ⟨c.used k + n, (c.value k).bind Entry.expireAt⟩) := by
  unfold incrby at h
  split at h
  · cases h; rfl
  · cases h

theorem used_incrby (h : c.incrby k n = some c') (k' : String) :
    c'.used k' = c.used k' + if k = k' then n else 0 := by
  unfold used
  rw [value_incrby h]
  by_cases hk : k = k'
  · subst hk; simp [used]
  · rw [if_neg hk, Function.update_of_ne (Ne.symm hk)]; simp

theorem used_expire (k' : String) : (c.expire k).used k' = c.used k' := by
  unfold used expire
  by_cases hk : k' = k
  · subst hk; cases c.value k' <;> simp
  · simp [Function.update_of_ne hk]

theorem used_tick {δ : Nat} (h : ((c.value k).all fun e => e.alive (c.now + δ)) = true) :
    (c.tick δ).used k = c.used k := by
  unfold used tick
  cases hv : c.value k with
  | none => simp [hv]
  | some e =>
    rw [hv] at h
    have alive : e.alive (c.now + δ) = true := h
    simp [hv, Option.filter, alive]

end Counters

section
variable {c c' : Counters} {p p' : Call} {k : String}

/-- A command changes the counter by what it changes the call's charge. -/
theorem Call.charge_go (h : p.serve c = some c') :
    c'.used k - c.used k = (p.resume c').charge k - p.charge k := by
  cases p with
  | reserving role k' expected =>
    rw [Counters.used_incrby h k]
    simp only [resume, charge, committedTokens, outstandingTokens, pendingTokens]
    by_cases hk : k' = k
    · by_cases hcap : c'.used k' ≤ role.dailyTokenCap
      · simp [hk, hk ▸ hcap, Int.not_lt.mpr (hk ▸ hcap)]
      · simp [hk, hk ▸ hcap, Int.not_le.mp (hk ▸ hcap)]
    · simp [hk]
  | expiring role k' expected newTotal =>
    cases h
    rw [Counters.used_expire]
    by_cases hcap : newTotal > role.dailyTokenCap
    · have : ¬newTotal ≤ role.dailyTokenCap := by omega
      by_cases hk : k' = k <;> simp [resume, charge, committedTokens, outstandingTokens, pendingTokens, hk, hcap, this]
    · have : newTotal ≤ role.dailyTokenCap := by omega
      by_cases hk : k' = k <;> simp [resume, charge, committedTokens, outstandingTokens, pendingTokens, hk, hcap, this]
  | rollingBack role k' expected newTotal =>
    rw [Counters.used_incrby h k]
    by_cases hk : k' = k <;> simp [resume, charge, committedTokens, outstandingTokens, pendingTokens, hk]
  | committing res actual =>
    rw [Counters.used_incrby h k]
    by_cases hk : res.key = k <;> simp [resume, charge, committedTokens, outstandingTokens, pendingTokens, hk]
  | idle | granted | exceeded | unavailable | committed | uncorrected | raised => cases h

theorem Call.charge_commit {actual : Int} (h : p.commit actual = some p') : p'.charge k = p.charge k := by
  cases p with
  | granted res =>
    cases h
    split
    · rename_i h0
      have : actual = res.reserved := by omega
      simp [charge, committedTokens, outstandingTokens, pendingTokens, this]
    · simp [charge, committedTokens, outstandingTokens, pendingTokens]
  | _ => cases h

theorem Call.grantedKey_go (h : p.serve c = some c') (hk : (p.resume c').grantedKey = some k) :
    p.grantedKey = some k ∨ ∃ role expected, p = .reserving role k expected ∧ c'.used k ≤ role.dailyTokenCap := by
  cases p with
  | reserving role k' expected =>
    simp only [resume, grantedKey, Option.ite_none_right_eq_some, Option.some.injEq] at hk
    obtain ⟨hcap, rfl⟩ := hk
    exact .inr ⟨role, expected, rfl, hcap⟩
  | expiring role k' expected newTotal =>
    left
    simp only [resume] at hk
    split at hk
    · cases hk
    · rename_i hcap
      simp only [grantedKey, if_pos (Int.not_lt.mp hcap)]; exact hk
  | rollingBack => cases hk
  | committing res actual => exact .inl hk
  | idle | granted | exceeded | unavailable | committed | uncorrected | raised => cases h

theorem Call.key_go (h : p.serve c = some c') (hk : (p.resume c').key? = some k) : p.key? = some k := by
  cases p with
  | reserving | rollingBack => first | exact hk | cases hk
  | expiring role k' expected newTotal => simp only [resume] at hk; split at hk <;> exact hk
  | committing => exact hk
  | idle | granted | exceeded | unavailable | committed | uncorrected | raised => cases h

theorem Call.expected_go (h : p.serve c = some c') (hp : 0 ≤ p.expected) : 0 ≤ (p.resume c').expected := by
  cases p with
  | reserving | committing => exact hp
  | expiring => simp only [resume]; split <;> first | exact hp | exact Int.le_refl 0
  | rollingBack => exact Int.le_refl 0
  | idle | granted | exceeded | unavailable | committed | uncorrected | raised => cases h

theorem Call.commit_inv {actual : Int} (h : p.commit actual = some p') :
    ∃ res, p = .granted res ∧ (p' = .committed res actual ∨ p' = .committing res actual) := by
  cases p with
  | granted res =>
    cases h
    refine ⟨res, rfl, ?_⟩
    split
    · exact .inl rfl
    · exact .inr rfl
  | _ => cases h

theorem Call.pending_nonneg (h : 0 ≤ p.expected) : 0 ≤ p.pendingTokens k := by
  cases p with
  | expiring | rollingBack => simp only [pendingTokens]; split <;> first | exact h | exact Int.le_refl 0
  | _ => exact Int.le_refl 0

end

/-! ## Steps -/

inductive Turn (today : Nat → String) (s : State) : Action → State → Prop
  | reserve {n role expected} (idle : s.calls n = .idle) (nonneg : 0 ≤ expected) :
    Turn today s (.reserve n role expected)
      { s with
        calls := Function.update s.calls n (.reserving role (key role.name (today s.counters.now)) expected)
        begun := insert n s.begun }
  | commit {n actual p} (move : (s.calls n).commit actual = some p) :
    Turn today s (.commit n actual) { s with calls := Function.update s.calls n p }
  | go {n c} (served : (s.calls n).serve s.counters = some c) :
    Turn today s (.go n) { s with counters := c, calls := Function.update s.calls n ((s.calls n).resume c) }
  | tick {δ} : Turn today s (.tick δ) { s with counters := s.counters.tick δ }

section
variable {today : Nat → String} {s t : State} {a : Action} {k : String} {ok : State → Action → Prop}

theorem step_turn (hok : Faultless s a) (h : step today s a = some t) : Turn today s a t := by
  cases a with
  | reserve n role expected =>
    simp only [step] at h
    split at h
    · cases h; exact .reserve ‹_› hok
    · cases h
  | commit n actual =>
    obtain ⟨p, hp, rfl⟩ := Option.map_eq_some_iff.mp h
    exact .commit hp
  | go n =>
    obtain ⟨c, hc, rfl⟩ := Option.map_eq_some_iff.mp h
    exact .go hc
  | fail => exact hok.elim
  | tick δ => cases h; exact .tick

inductive Turned (today : Nat → String) (s : State) (a : Action) (t : State) (n : Nat) : Call → Prop
  | same : Turned today s a t n (s.calls n)
  | reserve {role expected} (act : a = .reserve n role expected) (nonneg : 0 ≤ expected) :
    Turned today s a t n (.reserving role (key role.name (today s.counters.now)) expected)
  | commit {res actual p} (granted : s.calls n = .granted res) (moved : p = .committed res actual ∨ p = .committing res actual) :
    Turned today s a t n p
  | go (act : a = .go n) (served : (s.calls n).serve s.counters = some t.counters) :
    Turned today s a t n ((s.calls n).resume t.counters)

theorem Turn.turned (h : Turn today s a t) (n : Nat) : Turned today s a t n (t.calls n) := by
  have other : ∀ {l p}, n ≠ l → Function.update s.calls l p n = s.calls n := fun hn => Function.update_of_ne hn _ _
  cases h with
  | @reserve l role expected idle nonneg =>
    by_cases hn : n = l
    · subst hn
      simp only [Function.update_self]
      exact .reserve rfl nonneg
    · simp only [other hn]; exact .same
  | @commit l actual p move =>
    by_cases hn : n = l
    · subst hn
      obtain ⟨res, hp, hp'⟩ := Call.commit_inv move
      simp only [Function.update_self]
      exact .commit hp hp'
    · simp only [other hn]; exact .same
  | @go l c served =>
    by_cases hn : n = l
    · subst hn
      simp only [Function.update_self]
      exact .go rfl served
    · simp only [other hn]; exact .same
  | tick => exact .same

structure Balanced (k : String) (s : State) : Prop where
  idle : ∀ n, n ∉ s.begun → s.calls n = .idle
  expected : ∀ n, 0 ≤ (s.calls n).expected
  used : s.counters.used k = tally (Call.charge k) s.begun s.calls

theorem balanced_init : Balanced k initState := ⟨fun _ _ => rfl, fun _ => Int.le_refl 0, rfl⟩

theorem Balanced.begun (hb : Balanced k s) {n : Nat} (h : s.calls n ≠ .idle) : n ∈ s.begun := by
  by_contra hn
  exact h (hb.idle n hn)

theorem Turn.expected (h : Turn today s a t) (hs : ∀ n, 0 ≤ (s.calls n).expected) (n : Nat) :
    0 ≤ (t.calls n).expected := by
  have turned := h.turned n
  generalize t.calls n = p at turned
  cases turned with
  | same => exact hs n
  | reserve act nonneg => exact nonneg
  | commit granted moved => rcases moved with rfl | rfl <;> exact Int.le_refl 0
  | go act served => exact Call.expected_go served (hs n)

/-- A step of a call that has begun, to `p` with the counters `c`. -/
theorem Balanced.update (hb : Balanced k s) {n : Nat} {p : Call} {c : Counters} (begun : n ∈ s.begun)
    (expected : ∀ l, 0 ≤ (Function.update s.calls n p l).expected)
    (used : c.used k - s.counters.used k = p.charge k - (s.calls n).charge k) :
    Balanced k { s with counters := c, calls := Function.update s.calls n p } where
  idle l hl := by
    have ne : l ≠ n := fun e => hl (e ▸ begun)
    simp only [Function.update_of_ne ne]
    exact hb.idle l hl
  expected := expected
  used := by
    simp only [tally_update begun]
    have := hb.used
    omega

theorem balanced_step (hb : Balanced k s) (hok : Kept k s a) (h : step today s a = some t) : Balanced k t := by
  have turn := step_turn hok.1 h
  have expected := turn.expected hb.expected
  cases turn with
  | @reserve n role amount idle nonneg =>
    have zero : Call.charge k (s.calls n) = 0 := by rw [idle]; rfl
    refine ⟨fun l hl => ?_, expected, ?_⟩
    · have ne : l ≠ n ∧ l ∉ s.begun := by simpa using hl
      simp only [Function.update_of_ne ne.1]
      exact hb.idle l ne.2
    · simp only [tally_begin fun _ => zero]
      rw [hb.used, zero, Int.sub_zero]
      exact (Int.add_zero _).symm
  | @commit n actual p move =>
    obtain ⟨res, hp, -⟩ := Call.commit_inv move
    refine hb.update (hb.begun (by rw [hp]; intro he; cases he)) expected ?_
    rw [Call.charge_commit move]; omega
  | @go n c served =>
    refine hb.update (hb.begun fun hi => ?_) expected (Call.charge_go served)
    rw [hi] at served; cases served
  | @tick δ =>
    refine ⟨hb.idle, expected, ?_⟩
    rw [← hb.used]
    exact Counters.used_tick hok.2

theorem balanced (h : (system today).Reach (Kept k) s) : Balanced k s :=
  h.invariant balanced_init fun _ _ _ _ hb hok hs => balanced_step hb hok hs

theorem Balanced.ledger (hb : Balanced k s) : s.counters.used k = committed k s + outstanding k s + pending k s := by
  rw [hb.used, committed, outstanding, pending, ← tally_add, ← tally_add]
  rfl

theorem Balanced.granted_le_used (hb : Balanced k s) : committed k s + outstanding k s ≤ s.counters.used k := by
  have : 0 ≤ pending k s := tally_nonneg fun n => Call.pending_nonneg (hb.expected n)
  rw [hb.ledger]; omega

/-! ## Where a reservation comes from -/

/-- Call `n` of `s` began on a day whose counter is `k`. -/
def Began (today : Nat → String) (ok : State → Action → Prop) (n : Nat) (k : String) (s : State) : Prop :=
  ∃ u v role expected, (system today).Reach ok u ∧ step today u (.reserve n role expected) = some v ∧
    (system today).Leads ok v s ∧ k = key role.name (today u.counters.now)

/-- When call `n` of `s` incremented `k`, all reservations together, its own among them, were within the cap. -/
def WithinCap (today : Nat → String) (ok : State → Action → Prop) (n : Nat) (k : String) (s : State) : Prop :=
  ∃ u v role expected, (system today).Reach ok u ∧ u.calls n = .reserving role k expected ∧
    step today u (.go n) = some v ∧ (system today).Leads ok v s ∧
    committed k v + outstanding k v ≤ role.dailyTokenCap

theorem Began.step (hb : Began today ok n k s) (hok : ok s a) (h : step today s a = some t) : Began today ok n k t := by
  obtain ⟨u, v, role, e, hr, hs, hl, hk⟩ := hb
  exact ⟨u, v, role, e, hr, hs, hl.step hok h, hk⟩

theorem WithinCap.step (hw : WithinCap today ok n k s) (hok : ok s a) (h : step today s a = some t) :
    WithinCap today ok n k t := by
  obtain ⟨u, v, role, e, hr, hp, hs, hl, hle⟩ := hw
  exact ⟨u, v, role, e, hr, hp, hs, hl.step hok h, hle⟩

theorem began (hf : ∀ s a, ok s a → Faultless s a) (h : (system today).Reach ok s) {n : Nat}
    (hn : (s.calls n).key? = some k) : Began today ok n k s := by
  refine h.invariant (I := fun s => (s.calls n).key? = some k → Began today ok n k s) (fun hn => by cases hn) ?_ hn
  intro u a v hr hi hok hs hn
  have old : (u.calls n).key? = some k → Began today ok n k v := fun hk => (hi hk).step hok hs
  have turned := (step_turn (hf u a hok) hs).turned n
  generalize v.calls n = p at turned hn
  cases turned with
  | same => exact old hn
  | reserve act nonneg =>
    cases hn
    exact ⟨u, v, _, _, hr, act ▸ hs, .refl, rfl⟩
  | commit granted moved =>
    refine old ?_
    rw [granted]
    rcases moved with rfl | rfl <;> exact hn
  | go act served => exact old (Call.key_go served hn)

theorem withinCap (h : (system today).Reach (Kept k) s) {n : Nat} (hn : (s.calls n).grantedKey = some k) :
    WithinCap today (Kept k) n k s := by
  refine h.invariant (I := fun s => (s.calls n).grantedKey = some k → WithinCap today (Kept k) n k s)
    (fun hn => by cases hn) ?_ hn
  intro u a v hr hi hok hs hn
  have old : (u.calls n).grantedKey = some k → WithinCap today (Kept k) n k v := fun hk => (hi hk).step hok hs
  have turned := (step_turn hok.1 hs).turned n
  generalize v.calls n = p at turned hn
  cases turned with
  | same => exact old hn
  | reserve => cases hn
  | commit granted moved =>
    refine old ?_
    rw [granted]
    rcases moved with rfl | rfl <;> exact hn
  | go act served =>
    rcases Call.grantedKey_go served hn with hk | ⟨role, expected, hp, hle⟩
    · exact old hk
    · have after := balanced (hr.next hok hs)
      exact ⟨u, v, role, expected, hr, hp, act ▸ hs, .refl, after.granted_le_used.trans hle⟩

/-- A commit adds what was used beyond the reservation to the counter of the day the call began on, and
touches no other. -/
theorem commit_go {n : Nat} {res : Reservation} {actual : Int} (hn : s.calls n = .committing res actual)
    (h : step today s (.go n) = some t) :
    t.counters.used res.key = s.counters.used res.key + (actual - res.reserved) ∧
      ∀ k, k ≠ res.key → t.counters.value k = s.counters.value k := by
  obtain ⟨c, hc, rfl⟩ := Option.map_eq_some_iff.mp h
  rw [hn] at hc
  refine ⟨by simpa using Counters.used_incrby hc res.key, fun k hk => ?_⟩
  change c.value k = _
  rw [Counters.value_incrby hc, Function.update_of_ne hk]

/-- Without failing commands and as long as the counter of `k` does not expire: it is what the calls have
added; every reservation on it was made with all of them within the cap; and a commit adjusts the counter
of the day its call began on. -/
theorem budget_ledger (h : (system today).Reach (Kept k) s) :
    s.counters.used k = committed k s + outstanding k s + pending k s ∧
    (∀ n, (s.calls n).grantedKey = some k → WithinCap today (Kept k) n k s) ∧
    ∀ n res actual t, s.calls n = .committing res actual → step today s (.go n) = some t →
      Began today (Kept k) n res.key s ∧
      t.counters.used res.key = s.counters.used res.key + (actual - res.reserved) ∧
      ∀ k, k ≠ res.key → t.counters.value k = s.counters.value k :=
  ⟨(balanced h).ledger, fun _ hn => withinCap h hn, fun _ _ _ _ hn hs =>
    ⟨began (fun _ _ hok => hok.1) h (by rw [hn]; rfl), commit_go hn hs⟩⟩

end

def julyDay (now : Nat) : String := s!"2026-07-{25 + now / (86400 * second)}"

def tenTokens : Role := ⟨"triage", 10⟩

/-- Two days after the last reservation the counter is gone, and what was committed is not. -/
theorem budget_ledger_fails : ¬∀ k s, (system julyDay).Reach Faultless s →
    s.counters.used k = committed k s + outstanding k s + pending k s := by
  intro h
  obtain ⟨s, hr, gone, sum⟩ := (system julyDay).reach_of_exec Faultless
    [.reserve 0 tenTokens 6, .go 0, .go 0, .commit 0 4, .go 0, .tick ttl]
    (fun s => s.counters.used (key "triage" "2026-07-25") = 0 ∧ committed (key "triage" "2026-07-25") s +
      outstanding (key "triage" "2026-07-25") s + pending (key "triage" "2026-07-25") s = 4) (by decide +kernel)
  have := h (key "triage" "2026-07-25") s hr
  rw [gone, sum] at this
  cases this

/-- Six tokens are reserved, six more are over the cap and on their way back, and the first call, a day later,
has used four. -/
theorem budget_ledger_run : ∃ s, (system julyDay).Reach (Kept (key "triage" "2026-07-25")) s ∧
    committed (key "triage" "2026-07-25") s = 4 ∧ pending (key "triage" "2026-07-25") s = 6 ∧
      s.counters.used (key "triage" "2026-07-25") = committed (key "triage" "2026-07-25") s +
        outstanding (key "triage" "2026-07-25") s + pending (key "triage" "2026-07-25") s ∧
      WithinCap julyDay (Kept (key "triage" "2026-07-25")) 0 (key "triage" "2026-07-25") s := by
  obtain ⟨s, hr, hc, hp, hg⟩ := (system julyDay).reach_of_exec (Kept (key "triage" "2026-07-25"))
    [.reserve 0 tenTokens 6, .go 0, .go 0, .reserve 1 tenTokens 6, .go 1, .go 1, .tick (86400 * second), .commit 0 4, .go 0]
    (fun s => committed (key "triage" "2026-07-25") s = 4 ∧ pending (key "triage" "2026-07-25") s = 6 ∧
      (s.calls 0).grantedKey = some (key "triage" "2026-07-25")) (by decide +kernel)
  have hl := budget_ledger hr
  exact ⟨s, hr, hc, hp, hl.1, hl.2.1 0 hg⟩

end AdmissionScheduler.Budget
