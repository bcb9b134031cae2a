import AdmissionScheduler.BudgetSound

/-!
# Refused reservations

A call that goes over the cap has incremented the counter before it knows, and
puts the increment back with a second command. Between the two the counter shows
more than what is committed and outstanding, and another call may be refused for
it. The counter never shows more than all charges together, even when it expires,
so this is the only way.
-/

namespace AdmissionScheduler.Budget

namespace Call

def Sound : Call → Prop
  | reserving _ _ expected | expiring _ _ expected _ | rollingBack _ _ expected _ => 0 ≤ expected
  | granted res | uncorrected res _ => 0 ≤ res.reserved
  | committing res actual => 0 ≤ res.reserved ∧ 0 ≤ actual
  | committed _ actual => 0 ≤ actual
  | idle | exceeded _ | unavailable | raised => True

/-- `BudgetExceeded` is raised, or will be once the commands in between are through. -/
def refused : Call → Bool
  | expiring role _ _ newTotal => role.dailyTokenCap < newTotal
  | rollingBack .. | exceeded _ => true
  | _ => false

variable {c c' : Counters} {p p' : Call} {k : String}

theorem charge_nonneg (h : p.Sound) : 0 ≤ p.charge k := by
  have ite_nonneg : ∀ {q : Prop} [Decidable q] {n : Int}, 0 ≤ n → 0 ≤ if q then n else 0 := by
    intro q _ n hn
    split
    · exact hn
    · exact Int.le_refl 0
  cases p with
  | expiring role k' expected newTotal =>
    exact Int.add_nonneg (Int.add_nonneg (Int.le_refl 0) (ite_nonneg h)) (ite_nonneg h)
  | rollingBack => exact Int.add_nonneg (Int.le_refl 0) (ite_nonneg h)
  | granted | uncorrected => exact Int.add_nonneg (Int.add_nonneg (Int.le_refl 0) (ite_nonneg h)) (Int.le_refl 0)
  | committing => exact Int.add_nonneg (Int.add_nonneg (Int.le_refl 0) (ite_nonneg h.1)) (Int.le_refl 0)
  | committed => exact Int.add_nonneg (Int.add_nonneg (ite_nonneg h) (Int.le_refl 0)) (Int.le_refl 0)
  | idle | reserving | exceeded | unavailable | raised => exact Int.le_refl 0

theorem sound_go (h : p.serve c = some c') (hp : p.Sound) : (p.resume c').Sound := by
  cases p with
  | reserving => exact hp
  | expiring => simp only [resume]; split <;> exact hp
  | rollingBack => trivial
  | committing => exact hp.2
  | idle | granted | exceeded | unavailable | committed | uncorrected | raised => cases h

theorem sound_commit {actual : Int} (h : p.commit actual = some p') (ha : 0 ≤ actual) (hp : p.Sound) : p'.Sound := by
  obtain ⟨res, rfl, rfl | rfl⟩ := commit_inv h
  · exact ha
  · exact ⟨hp, ha⟩

theorem refused_go (h : p.serve c = some c') (hr : (p.resume c').refused = true) :
    p.refused = true ∨ ∃ role k expected, p = .reserving role k expected ∧ role.dailyTokenCap < c'.used k := by
  cases p with
  | reserving role k expected => exact .inr ⟨role, k, expected, rfl, of_decide_eq_true hr⟩
  | expiring role k expected newTotal =>
    left
    simp only [resume] at hr
    split at hr
    · exact decide_eq_true ‹_›
    · cases hr
  | rollingBack => exact .inl rfl
  | committing => cases hr
  | idle | granted | exceeded | unavailable | committed | uncorrected | raised => cases h

end Call

section
variable {today : Nat → String} {s t : State} {a : Action} {k : String}

theorem Counters.used_tick_or {c : Counters} {δ : Nat} : (c.tick δ).used k = c.used k ∨ (c.tick δ).used k = 0 := by
  unfold used tick
  cases hv : c.value k with
  | none => exact .inl (by simp [hv])
  | some e => by_cases alive : e.alive (c.now + δ) = true <;> simp [hv, Option.filter, alive]

/-- The counter of `k` shows at most the sum of the charges, none of which is negative. -/
structure Covered (k : String) (s : State) : Prop where
  idle : ∀ n, n ∉ s.begun → s.calls n = .idle
  sound : ∀ n, (s.calls n).Sound
  used : s.counters.used k ≤ tally (Call.charge k) s.begun s.calls

theorem covered_init : Covered k initState := ⟨fun _ _ => rfl, fun _ => trivial, Int.le_refl 0⟩

theorem Covered.update (hc : Covered k s) {n : Nat} {p : Call} {c : Counters} (busy : s.calls n ≠ .idle)
    (sound : p.Sound) (used : c.used k - s.counters.used k = p.charge k - (s.calls n).charge k) :
    Covered k { s with counters := c, calls := Function.update s.calls n p } where
  idle l hl := by
    have ne : l ≠ n := by
      rintro rfl
      exact busy (hc.idle l hl)
    simp only [Function.update_of_ne ne]
    exact hc.idle l hl
  sound := Function.forall_update_iff s.calls (fun _ p => p.Sound) |>.mpr ⟨sound, fun l _ => hc.sound l⟩
  used := by
    have begun : n ∈ s.begun := by
      by_contra hn
      exact busy (hc.idle n hn)
    simp only [tally_update begun]
    have := hc.used
    omega

theorem covered_step (hc : Covered k s) (hok : Faultless s a) (h : step today s a = some t) : Covered k t := by
  cases step_turn hok h with
  | @reserve n role amount idle nonneg =>
    have zero : Call.charge k (s.calls n) = 0 := by rw [idle]; rfl
    constructor
    · intro l hl
      have ne : l ≠ n ∧ l ∉ s.begun := by simpa using hl
      simp only [Function.update_of_ne ne.1]
      exact hc.idle l ne.2
    · exact Function.forall_update_iff s.calls (fun _ p => p.Sound) |>.mpr ⟨nonneg, fun l _ => hc.sound l⟩
    · simp only [tally_begin fun _ => zero]
      rw [zero, Int.sub_zero]
      exact hc.used.trans_eq (Int.add_zero _).symm
  | @commit n actual p move =>
    refine hc.update ?_ (Call.sound_commit move hok (hc.sound n)) (by rw [Call.charge_commit move]; omega)
    obtain ⟨res, hp, -⟩ := Call.commit_inv move
    rw [hp]
    intro he
    cases he
  | @go n c served =>
    refine hc.update ?_ (Call.sound_go served (hc.sound n)) (Call.charge_go served)
    intro hi
    rw [hi] at served
    cases served
  | @tick δ =>
    refine ⟨hc.idle, hc.sound, ?_⟩
    rcases Counters.used_tick_or (k := k) (c := s.counters) (δ := δ) with h | h
    · exact h ▸ hc.used
    · rw [h]
      exact tally_nonneg fun n => Call.charge_nonneg (hc.sound n)

theorem covered (h : (system today).Reach Faultless s) : Covered k s :=
  h.invariant covered_init fun _ _ _ _ hc hok hs => covered_step hc hok hs

/-! ## What a refusal shows -/

/-- What is about to be put back decides nothing: a call that fits would fit beside it as well. -/
def Undisturbed (s : State) : Action → Prop
  | .go n => ∀ role k expected, s.calls n = .reserving role k expected →
      committed k s + outstanding k s + expected ≤ role.dailyTokenCap →
        committed k s + outstanding k s + pending k s + expected ≤ role.dailyTokenCap
  | _ => True

instance (s : State) (n : Nat) : Decidable (Undisturbed s (.go n)) :=
  match h : s.calls n with
  | .reserving role k e =>
    decidable_of_iff (committed k s + outstanding k s + e ≤ role.dailyTokenCap →
      committed k s + outstanding k s + pending k s + e ≤ role.dailyTokenCap)
      ⟨fun fits _ _ _ hp => by rw [h] at hp; cases hp; exact fits, fun fits => fits role k e h⟩
  | .idle | .expiring .. | .rollingBack .. | .granted _ | .exceeded _ | .unavailable | .committing .. | .committed ..
  | .uncorrected .. | .raised => isTrue fun _ _ _ hp => by rw [h] at hp; cases hp

instance : ∀ s a, Decidable (Undisturbed s a)
  | _, .go _ => inferInstance
  | _, .reserve .. | _, .commit .. | _, .fail .. | _, .tick _ => isTrue trivial

def Careful (s : State) (a : Action) : Prop := Faultless s a ∧ Undisturbed s a

instance (s : State) (a : Action) : Decidable (Careful s a) := inferInstanceAs (Decidable (_ ∧ _))

/-- When call `n` of `s` incremented its counter, it went over the cap beside what was committed and outstanding. -/
def OverCap (today : Nat → String) (n : Nat) (s : State) : Prop :=
  ∃ u v role k expected, (system today).Reach Careful u ∧ u.calls n = .reserving role k expected ∧
    step today u (.go n) = some v ∧ (system today).Leads Careful v s ∧
    role.dailyTokenCap < committed k u + outstanding k u + expected

theorem OverCap.step {n : Nat} (ho : OverCap today n s) (hok : Careful s a) (h : step today s a = some t) :
    OverCap today n t := by
  obtain ⟨u, v, role, k, e, hr, hp, hs, hl, hlt⟩ := ho
  exact ⟨u, v, role, k, e, hr, hp, hs, hl.step hok h, hlt⟩

theorem charge_eq (k : String) (s : State) :
    tally (Call.charge k) s.begun s.calls = committed k s + outstanding k s + pending k s := by
  rw [committed, outstanding, pending, ← tally_add, ← tally_add]
  rfl

theorem overCap (h : (system today).Reach Careful s) {n : Nat} (hn : (s.calls n).refused = true) :
    OverCap today n s := by
  refine h.invariant (I := fun s => (s.calls n).refused = true → OverCap today n s) (fun hn => by cases hn) ?_ hn
  intro u a v hr hi hok hs hn
  have old : (u.calls n).refused = true → OverCap today n v := fun hu => (hi hu).step hok hs
  have turned := (step_turn hok.1 hs).turned n
  generalize v.calls n = p at turned hn
  cases turned with
  | same => exact old hn
  | reserve => cases hn
  | commit granted moved => rcases moved with rfl | rfl <;> cases hn
  | go act served =>
    subst act
    rcases Call.refused_go served hn with hu | ⟨role, k, expected, hp, hlt⟩
    · exact old hu
    · refine ⟨u, v, role, k, expected, hr, hp, hs, .refl, ?_⟩
      have shown := (covered (k := k) (hr.mono fun _ _ hok => hok.1)).used
      have grew : v.counters.used k = u.counters.used k + expected := by
        rw [hp] at served
        simpa using Counters.used_incrby served k
      rw [charge_eq] at shown
      by_contra hle
      have fits := hok.2 role k expected hp (by omega)
      omega

/-- As long as what is put back decides nothing, whoever is refused would have gone over the cap; and as long as
a counter does not expire, it is what the other calls have added. -/
theorem refused_over_cap (today : Nat → String) :
    (∀ s n, (system today).Reach Careful s → (s.calls n).refused = true → OverCap today n s) ∧
      ∀ k s n message, (system today).Reach (Kept k) s → s.calls n = .exceeded message →
        s.counters.used k = tally (Call.charge k) (s.begun.erase n) s.calls := by
  refine ⟨fun _ _ h hn => overCap h hn, ?_⟩
  intro k s n message h hn
  have hb := balanced h
  have begun : n ∈ s.begun := by
    apply hb.begun
    rw [hn]
    intro he
    cases he
  rw [hb.used, tally_erase begun, hn]
  exact Int.add_zero _

end

/-- Five of ten tokens are reserved, and six more are refused. -/
theorem refused_over_cap_run : ∃ s, (system julyDay).Reach Careful s ∧ (s.calls 1).refused = true ∧
    OverCap julyDay 1 s := by
  obtain ⟨s, hr, hn⟩ := (system julyDay).reach_of_exec Careful
    [.reserve 0 tenTokens 5, .go 0, .go 0, .reserve 1 tenTokens 6, .go 1, .go 1] (fun s => (s.calls 1).refused = true)
    (by decide +kernel)
  exact ⟨s, hr, hn, (refused_over_cap julyDay).1 s 1 hr hn⟩

/-- Five of ten tokens are reserved, six more are on their way back, and four are refused. -/
theorem refused_within_cap : ∃ u t, (system julyDay).Reach (Kept (key "triage" "2026-07-25")) u ∧
    u.calls 2 = .reserving tenTokens (key "triage" "2026-07-25") 4 ∧
    committed (key "triage" "2026-07-25") u + outstanding (key "triage" "2026-07-25") u + 4 ≤ tenTokens.dailyTokenCap ∧
    (system julyDay).Leads (Kept (key "triage" "2026-07-25")) u t ∧
    t.calls 2 = .exceeded (exceededMessage tenTokens 4 15) := by
  obtain ⟨u, hr, hn, hle, hx⟩ := (system julyDay).reach_of_exec (Kept (key "triage" "2026-07-25"))
    [.reserve 0 tenTokens 5, .go 0, .go 0, .reserve 1 tenTokens 6, .go 1, .reserve 2 tenTokens 4]
    (fun u => u.calls 2 = .reserving tenTokens (key "triage" "2026-07-25") 4 ∧
      committed (key "triage" "2026-07-25") u + outstanding (key "triage" "2026-07-25") u + 4 ≤ tenTokens.dailyTokenCap ∧
      ((system julyDay).exec (Kept (key "triage" "2026-07-25")) u [.go 2, .go 2, .go 2]).any
        (fun t => decide (t.calls 2 = .exceeded (exceededMessage tenTokens 4 15))) = true) (by decide +kernel)
  obtain ⟨t, hl, ht⟩ := Machine.leads_of_any hx
  exact ⟨u, t, hr, hn, hle, hl, ht⟩

end AdmissionScheduler.Budget
