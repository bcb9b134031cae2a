import AdmissionScheduler.LabelSound

/-!
# The daemon

`loop` and `amain` of `orchestrator/main.py`, around the team. A tick starts one
heartbeat of each agent and waits until all are done or one has raised; those
that are left behind then go on, side by side with the next tick. Signals come
at any time once the loop runs. What the end of the process does to heartbeats
that are still running is left out.
-/

namespace AdmissionScheduler.Orchestrator

open Program Crew

abbrev Heartbeat := Nat × Job

namespace Daemon

inductive Phase where
  | booting
  /-- `while not stop.is_set()` -/
  | checking
  | starting
  | gathering
  | failing (e : Raised)
  | waiting
  | stopping
  | ended
  | crashed (e : Raised)
  deriving DecidableEq

/-- An entry of the audit log under the role `orchestrator`, or a signal; a failed tick has its number. -/
inductive Note where
  | boot | heartbeatStart | shutdown | signal
  | heartbeatFail (tick : Nat) (error : String)
  deriving DecidableEq

structure State where
  team : TeamState Heartbeat
  phase : Phase
  /-- how many ticks were started -/
  ticks : Nat
  stop : Bool
  /-- the newest first -/
  notes : List Note

inductive Act where
  /-- `log_event` comes back. -/
  | logged (r : Except Raised Unit)
  | check
  /-- `gather` comes back: all are done, or the one of an agent has raised. -/
  | gathered (raised : Option Job)
  /-- `wait_for` comes back. -/
  | timeout | woken
  | signal
  | heartbeat (i : Heartbeat) (x : Answer)
  | hub (e : Event Heartbeat)

def Act.own : Act → Bool
  | .logged _ | .check | .gathered _ | .timeout | .woken => true
  | .signal | .heartbeat .. | .hub _ => false

def result (s : State) (i : Heartbeat) : Option (Except Raised Unit) :=
  match s.team.party i with
  | some ⟨_, .done r, _⟩ => some r
  | _ => none

section
variable (isWord : Char → Bool) (root : Path) (bot : String) (once : Bool)

def oneTick (s : State) : State where
  team := { s.team with
    party := fun i => if i.1 = s.ticks then some ⟨i.2, heartbeat isWord root i.2, []⟩ else s.team.party i }
  phase := .gathering
  ticks := s.ticks + 1
  stop := s.stop
  notes := s.notes

/-- What `one_tick` raises goes out of `amain` with `--once`, and is logged by `loop` unless it is no `Exception`. -/
def raised (s : State) (e : Raised) : State :=
  { s with phase := if once || e.isBase then .crashed e else .failing e }

def step (s : State) : Act → Option State
  | .logged r =>
    match s.phase, r with
    | .booting, .ok _ =>
      let s := { s with notes := .boot :: s.notes }
      some (if once then oneTick isWord root s else { s with phase := .checking })
    | .starting, .ok _ => some (oneTick isWord root { s with notes := .heartbeatStart :: s.notes })
    | .failing e, .ok _ => some { s with
        phase := .waiting, notes := .heartbeatFail (s.ticks - 1) e.text :: s.notes }
    | .stopping, .ok _ => some { s with phase := .ended, notes := .shutdown :: s.notes }
    | .booting, .error e | .starting, .error e | .failing _, .error e | .stopping, .error e =>
      some { s with phase := .crashed e }
    | _, _ => none
  | .check => if s.phase = .checking then some { s with phase := if s.stop then .stopping else .starting } else none
  | .gathered none =>
    if s.phase = .gathering ∧ [Job.ceo, .triage, .backend].all (fun j => result s (s.ticks - 1, j) = some (.ok ())) then
      some { s with phase := if once then .ended else .waiting }
    else none
  | .gathered (some j) =>
    if s.phase = .gathering then
      match result s (s.ticks - 1, j) with
      | some (.error e) => some (raised once s e)
      | _ => none
    else none
  | .timeout => if s.phase = .waiting then some { s with phase := .checking } else none
  | .woken => if s.phase = .waiting ∧ s.stop = true then some { s with phase := .checking } else none
  | .signal =>
    -- the handlers are there as soon as the loop is
    if once ∨ s.phase = .booting then none else some { s with stop := true, notes := .signal :: s.notes }
  | .heartbeat i x => ((teamMachine isWord root bot).step s.team (.answer i x)).map fun t => { s with team := t }
  | .hub e => ((teamMachine isWord root bot).step s.team (.event e)).map fun t => { s with team := t }

def machine : Machine State Act where
  init := ⟨⟨[], fun _ => none⟩, .booting, 0, false, []⟩
  step := step isWord root bot once

variable {isWord : Char → Bool} {root : Path} {bot : String} {once : Bool} {s t : State} {a : Act}

/-! ## What a step does -/

def Phase.quiet : Phase → Bool
  | .checking | .starting | .waiting | .stopping | .ended => true
  | .booting | .gathering | .failing _ | .crashed _ => false

/-- How many steps the loop has left at most once it was told to stop. -/
def Phase.rank : Phase → Nat
  | .booting => 7
  | .starting => 6
  | .gathering => 5
  | .failing _ => 4
  | .waiting => 3
  | .checking => 2
  | .stopping => 1
  | .ended | .crashed _ => 0

inductive Moves (isWord : Char → Bool) (root : Path) (bot : String) (once : Bool) (s : State) (a : Act) : State → Prop
  | tick (n : Note) (h : s.phase = .booting ∨ s.phase = .starting) :
    Moves isWord root bot once s a (oneTick isWord root { s with notes := n :: s.notes })
  | over {p : Phase} (h : s.phase = .gathering) (hp : p.quiet = true) (hr : p.rank ≤ 4)
      (hok : ∀ j, result s (s.ticks - 1, j) = some (.ok ())) : Moves isWord root bot once s a { s with phase := p }
  | raised {j : Job} {e : Raised} (h : s.phase = .gathering) (he : result s (s.ticks - 1, j) = some (.error e)) :
    Moves isWord root bot once s a (raised once s e)
  | failed {e : Raised} (h : s.phase = .failing e) : Moves isWord root bot once s a
      { s with phase := .waiting, notes := .heartbeatFail (s.ticks - 1) e.text :: s.notes }
  | on {p : Phase} (l : List Note) (h : s.phase = .booting ∨ s.phase.quiet = true) (hp : p.quiet = true)
      (hr : s.stop = true → p.rank < s.phase.rank) :
    Moves isWord root bot once s a { s with phase := p, notes := l ++ s.notes }
  | crash (e : Raised) (hr : 0 < s.phase.rank) : Moves isWord root bot once s a { s with phase := .crashed e }
  | signal (n : Note) (h : s.phase ≠ .booting) (ha : a.own = false) :
    Moves isWord root bot once s a { s with stop := true, notes := n :: s.notes }
  | team {b : TeamAct Heartbeat} {t : TeamState Heartbeat} (h : (teamMachine isWord root bot).step s.team b = some t)
      (hb : ∀ i j, b ≠ .start i j) (ha : a.own = false) : Moves isWord root bot once s a { s with team := t }

theorem moves (h : (machine isWord root bot once).step s a = some t) : Moves isWord root bot once s a t := by
  cases a with
  | logged r =>
    simp only [machine, step] at h
    split at h
    · rename_i hp
      cases h
      by_cases ho : once = true
      · rw [if_pos ho]
        exact .tick _ (.inl hp)
      · rw [if_neg ho]
        refine .on [_] (.inl hp) rfl fun _ => ?_
        rw [hp]
        decide
    · rename_i hp
      cases h
      exact .tick _ (.inr hp)
    · rename_i hp
      cases h
      exact .failed hp
    · rename_i hp
      cases h
      refine .on [_] (.inr ?_) rfl fun _ => ?_ <;> rw [hp] <;> decide
    iterate 4
      · rename_i hp
        cases h
        refine .crash _ ?_
        rw [hp]
        exact Nat.zero_lt_succ _
    · cases h
  | check =>
    simp only [machine, step] at h
    split at h
    · rename_i hp
      cases h
      by_cases hstop : s.stop = true
      · rw [if_pos hstop]
        refine .on [] (.inr ?_) rfl fun _ => ?_ <;> rw [hp] <;> decide
      · rw [if_neg hstop]
        exact .on [] (.inr (by rw [hp]; rfl)) rfl fun h => absurd h hstop
    · cases h
  | gathered j =>
    cases j with
    | none =>
      simp only [machine, step] at h
      split at h
      · rename_i hg
        cases h
        refine .over hg.1 ?_ ?_ fun j => ?_
        · cases once <;> rfl
        · cases once <;> decide
        · have hall := List.all_eq_true.mp hg.2 j (by cases j <;> decide)
          exact of_decide_eq_true hall
      · cases h
    | some j =>
      simp only [machine, step] at h
      split at h
      · rename_i hg
        split at h
        · rename_i he
          cases h
          exact .raised hg he
        · cases h
      · cases h
  | timeout =>
    simp only [machine, step] at h
    split at h
    · rename_i hp
      cases h
      refine .on [] (.inr ?_) rfl fun _ => ?_ <;> rw [hp] <;> decide
    · cases h
  | woken =>
    simp only [machine, step] at h
    split at h
    · rename_i hp
      cases h
      refine .on [] (.inr ?_) rfl fun _ => ?_ <;> rw [hp.1] <;> decide
    · cases h
  | signal =>
    simp only [machine, step] at h
    split at h
    · cases h
    · rename_i hp
      cases h
      exact .signal _ (fun h => hp (.inr h)) rfl
  | heartbeat i x =>
    obtain ⟨t, ht, rfl⟩ := Option.map_eq_some_iff.mp h
    exact .team ht nofun rfl
  | hub e =>
    obtain ⟨t, ht, rfl⟩ := Option.map_eq_some_iff.mp h
    exact .team ht nofun rfl

/-! ## One tick after the other -/

/-- All heartbeats of tick `k` came to their end, or one raised, which was logged. -/
def Over (s : State) (k : Nat) : Prop :=
  (∀ j, result s (k, j) = some (.ok ())) ∨
  ∃ j e, result s (k, j) = some (.error e) ∧ e.isBase = false ∧ .heartbeatFail k e.text ∈ s.notes

def Last (s : State) : Phase → Prop
  | .booting => s.ticks = 0
  | .gathering | .crashed _ => True
  | .failing e => e.isBase = false ∧ ∃ j, result s (s.ticks - 1, j) = some (.error e)
  | .checking | .starting | .waiting | .stopping | .ended => ∀ k, k + 1 = s.ticks → Over s k

structure InTurn (s : State) : Prop where
  started : ∀ i, (s.team.party i).isSome = true ↔ i.1 < s.ticks
  past : ∀ k, k + 1 < s.ticks → Over s k
  last : Last s s.phase

theorem Over.mono {k : Nat} (h : Over s k) (hr : ∀ i r, result s i = some r → result t i = some r)
    (hn : ∀ n ∈ s.notes, n ∈ t.notes) : Over t k :=
  h.imp (fun h j => hr _ _ (h j)) fun ⟨j, e, he, hb, hm⟩ => ⟨j, e, hr _ _ he, hb, hn _ hm⟩

theorem Last.mono {p : Phase} (h : Last s p) (ht : t.ticks = s.ticks)
    (hr : ∀ i r, result s i = some r → result t i = some r) (hn : ∀ n ∈ s.notes, n ∈ t.notes) : Last t p := by
  cases p with
  | booting => exact ht.trans h
  | gathering | crashed e => trivial
  | failing e =>
    obtain ⟨hb, j, he⟩ := h
    refine ⟨hb, j, ?_⟩
    rw [ht]
    exact hr _ _ he
  | checking | starting | waiting | stopping | ended => exact fun k hk => (h k (hk.trans ht)).mono hr hn

theorem InTurn.mono (h : InTurn s) (hs : ∀ i, (t.team.party i).isSome = (s.team.party i).isSome)
    (ht : t.ticks = s.ticks) (hr : ∀ i r, result s i = some r → result t i = some r)
    (hn : ∀ n ∈ s.notes, n ∈ t.notes) (hlast : Last s t.phase) : InTurn t where
  started i := by
    rw [hs, ht]
    exact h.started i
  past k hk := (h.past k (ht ▸ hk)).mono hr hn
  last := hlast.mono ht hr hn

theorem last_of_quiet {p : Phase} (hp : p.quiet = true) (h : ∀ k, k + 1 = s.ticks → Over s k) : Last s p := by
  cases p with
  | booting | gathering | failing e | crashed e => cases hp
  | checking | starting | waiting | stopping | ended => exact h

theorem Last.over (h : Last s s.phase) (hp : s.phase = .booting ∨ s.phase.quiet = true) :
    ∀ k, k + 1 = s.ticks → Over s k := by
  intro k hk
  cases hphase : s.phase with
  | booting =>
    rw [hphase] at h
    cases hk.trans h
  | gathering | failing e | crashed e =>
    rw [hphase] at hp
    obtain hp | hp := hp <;> cases hp
  | checking | starting | waiting | stopping | ended =>
    rw [hphase] at h
    exact h k hk

theorem team_keeps {a : TeamAct Heartbeat} {u : TeamState Heartbeat}
    (h : (teamMachine isWord root bot).step s.team a = some u) (ha : ∀ i j, a ≠ .start i j) :
    (∀ i, (u.party i).isSome = (s.team.party i).isSome) ∧
    ∀ i r, result s i = some r → result { s with team := u } i = some r := by
  obtain ⟨i, j, rfl, -, -⟩ | ⟨i, x, j, o, next, h, r, l, -, hv, rfl⟩ | ⟨e, -, -, rfl⟩ := Crew.step_cases h
  · exact absurd rfl (ha i j)
  · refine ⟨fun i' => ?_, fun i' r' hr => ?_⟩
    · by_cases hi : i' = i
      · subst hi
        simp only [Function.update_self, hv.waits, Option.isSome_some]
      · simp only [Function.update_of_ne hi]
    · have hne : i' ≠ i := by
        rintro rfl
        simp only [result, hv.waits] at hr
        cases hr
      simpa only [result, Function.update_of_ne hne] using hr
  · exact ⟨fun _ => rfl, fun _ _ => id⟩

theorem result_oneTick (h : ∀ i, (s.team.party i).isSome = true ↔ i.1 < s.ticks) {i : Heartbeat}
    {r : Except Raised Unit} (hr : result s i = some r) : result (oneTick isWord root s) i = some r := by
  have hlt : i.1 < s.ticks := by
    refine (h i).mp ?_
    unfold result at hr
    split at hr
    · rename_i hp
      rw [hp]
      rfl
    · cases hr
  unfold result oneTick
  simp only [if_neg (Nat.ne_of_lt hlt)]
  exact hr

theorem inTurn (hs : (machine isWord root bot once).Reach Machine.Any s) : InTurn s := by
  refine hs.invariant (I := InTurn) ⟨fun i => by simp [machine], nofun, rfl⟩ ?_
  intro s a t hr hi _ hstep
  obtain ⟨n, hp⟩ | ⟨hp, hq, -, hok⟩ | ⟨hp, he⟩ | ⟨hp⟩ | ⟨l, hp, hq, -⟩ | ⟨e, -⟩ | ⟨n, -, -⟩ | ⟨h, hb, -⟩ :=
    moves hstep
  · have hover : ∀ k, k < s.ticks → Over s k := by
      intro k hk
      rcases Nat.lt_or_eq_of_le (Nat.succ_le_of_lt hk) with hlt | heq
      · exact hi.past k hlt
      · exact hi.last.over (hp.imp_right fun h => by rw [h]; rfl) k heq
    refine ⟨fun i => ?_, fun k hk => ?_, trivial⟩
    · simp only [oneTick]
      split
      · exact iff_of_true rfl (by omega)
      · rw [hi.started i]
        omega
    · refine (hover k (Nat.lt_of_succ_lt_succ hk)).mono (fun i r => ?_) fun n hn => List.mem_cons_of_mem _ hn
      exact result_oneTick (s := { s with notes := n :: s.notes }) hi.started
  · refine hi.mono (fun _ => rfl) rfl (fun _ _ => id) (fun _ => id) (last_of_quiet hq fun k hk => .inl ?_)
    rw [show k = s.ticks - 1 by omega]
    exact hok
  · refine hi.mono (fun _ => rfl) rfl (fun _ _ => id) (fun _ => id) ?_
    rename_i j e
    unfold raised
    cases hb : e.isBase with
    | true =>
      rw [Bool.or_true]
      trivial
    | false =>
      cases once with
      | true => trivial
      | false => exact ⟨hb, j, he⟩
  · rename_i e
    have hlast := hi.last
    rw [hp] at hlast
    obtain ⟨hb, j, he⟩ := hlast
    refine ⟨hi.started, fun k hk => (hi.past k hk).mono (fun _ _ => id) fun n hn => List.mem_cons_of_mem _ hn,
      fun k hk => .inr ⟨j, e, ?_, hb, ?_⟩⟩
    · rw [show k = s.ticks - 1 by exact (Nat.sub_eq_of_eq_add hk.symm).symm]
      exact he
    · rw [show k = s.ticks - 1 by exact (Nat.sub_eq_of_eq_add hk.symm).symm]
      exact .head _
  · exact hi.mono (fun _ => rfl) rfl (fun _ _ => id) (fun _ => List.mem_append_right _)
      (last_of_quiet hq (hi.last.over hp))
  · exact hi.mono (fun _ => rfl) rfl (fun _ _ => id) (fun _ => id) trivial
  · exact hi.mono (fun _ => rfl) rfl (fun _ _ => id) (fun _ => List.mem_cons_of_mem _) hi.last
  · obtain ⟨hparty, hresult⟩ := team_keeps h hb
    exact hi.mono hparty rfl hresult (fun _ => id) hi.last

theorem start_step {u : TeamState Heartbeat} {i : Heartbeat} (hu : u.party i = none) :
    (teamMachine isWord root bot).step u (.start i i.2) =
      some { u with party := Function.update u.party i (some ⟨i.2, heartbeat isWord root i.2, []⟩) } := by
  simp only [teamMachine, Crew.machine, Crew.step, hu]
  rfl

/-- The heartbeats of one tick, started one by one. -/
theorem leads_starts {k : Nat} {l : List Job} {u : TeamState Heartbeat} (hl : l.Nodup)
    (hu : ∀ j ∈ l, u.party (k, j) = none) :
    (teamMachine isWord root bot).Leads Machine.Any u
      { u with party := fun i =>
          if i.1 = k ∧ i.2 ∈ l then some ⟨i.2, heartbeat isWord root i.2, []⟩ else u.party i } := by
  induction l generalizing u with
  | nil => simpa using Machine.Leads.refl
  | cons j l ih =>
    obtain ⟨hj, hl⟩ := List.nodup_cons.mp hl
    refine (Machine.Leads.refl.step trivial (start_step (hu j (.head _)))).trans ?_
    have hrest := ih (u := { u with
      party := Function.update u.party (k, j) (some ⟨j, heartbeat isWord root j, []⟩) }) hl ?_
    · convert hrest using 2
      funext i
      obtain ⟨k', j'⟩ := i
      by_cases heq : (k', j') = (k, j)
      · cases heq
        simp [hj]
      · simp only [Function.update_of_ne heq]
        have hiff : k' = k ∧ j' ∈ j :: l ↔ k' = k ∧ j' ∈ l := by
          refine and_congr_right fun hk => ?_
          rw [List.mem_cons, or_iff_right]
          rintro rfl
          exact heq (by rw [hk])
        simp only [hiff]
    · intro j' hj'
      have hne : (k, j') ≠ (k, j) := by
        intro heq
        cases heq
        exact hj hj'
      exact (Function.update_of_ne hne _ _).trans (hu j' (.tail _ hj'))

theorem leads_oneTick (h : ∀ j, s.team.party (s.ticks, j) = none) :
    (teamMachine isWord root bot).Leads Machine.Any s.team (oneTick isWord root s).team := by
  have hall : ∀ j, j ∈ [Job.ceo, .triage, .backend] := by
    intro j
    cases j <;> decide
  have hleads : (teamMachine isWord root bot).Leads Machine.Any s.team _ :=
    leads_starts (k := s.ticks) (l := [.ceo, .triage, .backend]) (by decide) fun j _ => h j
  simp only [hall, and_true] at hleads
  exact hleads

theorem team_reach (hs : (machine isWord root bot once).Reach Machine.Any s) :
    (teamMachine isWord root bot).Reach Machine.Any s.team := by
  refine hs.simulate State.team rfl ?_
  intro s a t hr _ hstep
  obtain ⟨n, hp⟩ | ⟨hp, hq, -, hok⟩ | ⟨hp, he⟩ | ⟨hp⟩ | ⟨l, hp, hq, -⟩ | ⟨e, -⟩ | ⟨n, -, -⟩ | ⟨h, hb, -⟩ :=
    moves hstep
  · refine leads_oneTick (s := { s with notes := n :: s.notes }) fun j => ?_
    refine Option.not_isSome_iff_eq_none.mp fun h => ?_
    exact absurd (((inTurn hr).started (s.ticks, j)).mp h) (Nat.lt_irrefl _)
  iterate 6
    · exact .refl
  · exact Machine.Leads.refl.step trivial h

def Running (s : State) (i : Heartbeat) : Prop := ∃ j o next h, s.team.party i = some ⟨j, .call o next, h⟩

/-- **One tick at a time.** What the daemon's heartbeats do is a run of the team. No heartbeat starts while all
those of the tick before are well and running: one that still runs when a later tick has begun was left behind,
since another agent's heartbeat of its own tick raised an `Exception`, which was logged. -/
theorem ticks_in_turn (hs : (machine isWord root bot once).Reach Machine.Any s) :
    (teamMachine isWord root bot).Reach Machine.Any s.team ∧
    ∀ k j, Running s (k, j) → k + 1 < s.ticks →
      ∃ j' e, j' ≠ j ∧ result s (k, j') = some (.error e) ∧ e.isBase = false ∧
        .heartbeatFail k e.text ∈ s.notes := by
  refine ⟨team_reach hs, ?_⟩
  intro k j hrun hk
  have hnone : result s (k, j) = none := by
    obtain ⟨j', o, next, h, hp⟩ := hrun
    simp only [result, hp]
  rcases (inTurn hs).past k hk with hall | ⟨j', e, he, hb, hn⟩
  · rw [hall j] at hnone
    cases hnone
  · refine ⟨j', e, ?_, he, hb, hn⟩
    rintro rfl
    rw [he] at hnone
    cases hnone

/-- The CEO is paused and cannot log it; the tick fails, and the next one starts beside the other two. -/
def lateScript : List Act :=
  [.logged (.ok ()), .check, .logged (.ok ()),
    .heartbeat (0, .ceo) (.done fun | .getenv _ => some "1" | o => noReply o),
    .heartbeat (0, .ceo) (.refused (.other "No space left on device")), .gathered (some .ceo), .logged (.ok ()),
    .timeout, .check, .logged (.ok ())]

def isRunning (s : State) (i : Heartbeat) : Bool :=
  match s.team.party i with
  | some ⟨_, .call .., _⟩ => true
  | _ => false

theorem ticks_in_turn_run : ∃ s, (machine (fun _ => true) [] "kola-team-bot" false).Reach Machine.Any s ∧
    s.ticks = 2 ∧ ∃ j' e, j' ≠ .backend ∧ result s (0, j') = some (.error e) ∧ e.isBase = false ∧
      .heartbeatFail 0 e.text ∈ s.notes := by
  obtain ⟨s, hs, hticks, hrun⟩ := Machine.reach_of_exec (machine (fun _ => true) [] "kola-team-bot" false) Machine.Any
    lateScript (fun s => s.ticks = 2 ∧ isRunning s (0, .backend) = true) (by decide +kernel)
  have hrunning : Running s (0, .backend) := by
    unfold isRunning at hrun
    split at hrun
    · exact ⟨_, _, _, _, ‹_›⟩
    · cases hrun
  exact ⟨s, hs, hticks, (ticks_in_turn hs).2 0 .backend hrunning (by rw [hticks]; decide)⟩

/-! ## The end of the loop -/

def owed (p : Phase) : Nat := if Phase.rank .starting ≤ p.rank then 1 else 0

theorem stop_armed (hs : (machine isWord root bot once).Reach Machine.Any s) :
    s.stop = true → s.phase ≠ .booting := by
  refine hs.invariant (I := fun s => s.stop = true → s.phase ≠ .booting) nofun ?_
  intro s a t _ hi _ hstep
  obtain ⟨n, hp⟩ | ⟨hp, hq, -, -⟩ | ⟨hp, he⟩ | ⟨hp⟩ | ⟨l, hp, hq, -⟩ | ⟨e, -⟩ | ⟨n, hp, -⟩ | ⟨h, -, -⟩ := moves hstep
  · exact fun _ => nofun
  · rintro - rfl
    cases hq
  · intro _ h
    unfold raised at h
    split at h <;> cases h
  · exact fun _ => nofun
  · rintro - rfl
    cases hq
  · exact fun _ => nofun
  · exact fun _ => hp
  · exact hi

theorem owed_le {p q : Phase} (h : q.rank ≤ p.rank) : owed q ≤ owed p := by
  unfold owed
  split <;> split <;> omega

theorem stop_step (hstop : s.stop = true) (h : (machine isWord root bot once).step s a = some t) :
    t.stop = true ∧ a.own.toNat + t.phase.rank ≤ s.phase.rank ∧ t.ticks + owed t.phase ≤ s.ticks + owed s.phase := by
  have hone := Bool.toNat_le a.own
  -- every step but the one that starts a tick leaves their number alone
  have hdown : t.stop = true → t.ticks = s.ticks → a.own.toNat + t.phase.rank ≤ s.phase.rank →
      t.stop = true ∧ a.own.toNat + t.phase.rank ≤ s.phase.rank ∧
        t.ticks + owed t.phase ≤ s.ticks + owed s.phase := by
    intro ht hticks hr
    refine ⟨ht, hr, ?_⟩
    rw [hticks]
    exact Nat.add_le_add_left (owed_le (by omega)) _
  obtain ⟨n, hp⟩ | ⟨hp, hq, hr, -⟩ | ⟨hp, he⟩ | ⟨hp⟩ | ⟨l, hp, hq, hr⟩ | ⟨e, hr⟩ | ⟨n, hp, ha⟩ | ⟨h, -, ha⟩ := moves h
  · refine ⟨hstop, ?_, ?_⟩
    · change a.own.toNat + 5 ≤ _
      rcases hp with hp | hp <;> rw [hp] <;> simp only [Phase.rank] <;> omega
    · change s.ticks + 1 + 0 ≤ _
      rcases hp with hp | hp <;> rw [hp] <;> exact Nat.le_refl _
  · refine hdown hstop rfl ?_
    rw [hp]
    exact Nat.add_le_add hone hr
  · refine hdown hstop rfl ?_
    have hraised : ∀ e, (raised once s e).phase.rank ≤ 4 := by
      intro e
      unfold raised
      split <;> exact Nat.le_of_ble_eq_true rfl
    rw [hp]
    exact Nat.add_le_add hone (hraised _)
  · refine hdown hstop rfl ?_
    rw [hp]
    exact Nat.add_le_add_right hone 3
  · exact hdown hstop rfl ((Nat.add_le_add_right hone _).trans (by rw [Nat.add_comm]; exact hr hstop))
  · exact hdown hstop rfl (hone.trans hr)
  · exact hdown rfl rfl (by rw [ha]; simp)
  · exact hdown hstop rfl (by rw [ha]; simp)

theorem stop_run : ∀ {l : List Act} {s t : State}, s.stop = true →
    (machine isWord root bot once).exec Machine.Any s l = some t →
    t.stop = true ∧ l.countP Act.own + t.phase.rank ≤ s.phase.rank ∧
      t.ticks + owed t.phase ≤ s.ticks + owed s.phase
  | [], s, t, hstop, h => by
    cases h
    exact ⟨hstop, by simp, Nat.le_refl _⟩
  | a :: l, s, t, hstop, h => by
    simp only [Machine.exec] at h
    split at h
    · obtain ⟨u, hu, ht⟩ := Option.bind_eq_some_iff.mp h
      obtain ⟨hustop, hurank, huticks⟩ := stop_step hstop hu
      obtain ⟨htstop, htrank, htticks⟩ := stop_run hustop ht
      refine ⟨htstop, ?_, htticks.trans huticks⟩
      have hcount : (a :: l).countP Act.own = l.countP Act.own + a.own.toNat := by
        rw [List.countP_cons]
        cases a.own <;> rfl
      omega
    · cases h

def Phase.over : Phase → Bool
  | .ended | .crashed _ => true
  | _ => false

/-- Once the heartbeats of its tick are done, nothing holds the loop up. -/
theorem step_of_done (hover : s.phase.over = false)
    (hdone : s.phase = .gathering → ∀ j, (result s (s.ticks - 1, j)).isSome = true) :
    ∃ a, a.own = true ∧ ((machine isWord root bot once).step s a).isSome = true := by
  cases hp : s.phase with
  | booting => exact ⟨.logged (.ok ()), rfl, by simp [machine, step, hp]⟩
  | starting => exact ⟨.logged (.ok ()), rfl, by simp [machine, step, hp]⟩
  | failing e => exact ⟨.logged (.ok ()), rfl, by simp [machine, step, hp]⟩
  | stopping => exact ⟨.logged (.ok ()), rfl, by simp [machine, step, hp]⟩
  | checking => exact ⟨.check, rfl, by simp [machine, step, hp]⟩
  | waiting => exact ⟨.timeout, rfl, by simp [machine, step, hp]⟩
  | ended => rw [hp] at hover; cases hover
  | crashed e => rw [hp] at hover; cases hover
  | gathering =>
    by_cases herr : ∃ j e, result s (s.ticks - 1, j) = some (.error e)
    · obtain ⟨j, e, he⟩ := herr
      exact ⟨.gathered (some j), rfl, by simp [machine, step, hp, he]⟩
    · refine ⟨.gathered none, rfl, ?_⟩
      have hok : ∀ j, result s (s.ticks - 1, j) = some (.ok ()) := by
        intro j
        obtain ⟨r, hr⟩ := Option.isSome_iff_exists.mp (hdone hp j)
        cases r with
        | ok u => exact hr
        | error e => exact absurd ⟨j, e, hr⟩ herr
      simp [machine, step, hp, hok]

/-- **Shutting down.** After a signal the loop takes at most six steps of its own, whatever the heartbeats and the
hub do, and starts at most one more tick: none unless its start was just being logged. Until it is over, nothing but
the heartbeats of its tick can hold it up. -/
theorem stop_ends (isWord : Char → Bool) (root : Path) (bot : String) (once : Bool) (s : State)
    (hs : (machine isWord root bot once).Reach Machine.Any s) (hstop : s.stop = true) (l : List Act) (t : State)
    (hl : (machine isWord root bot once).exec Machine.Any s l = some t) :
    l.countP Act.own ≤ 6 ∧ t.ticks ≤ s.ticks + 1 ∧ (s.phase ≠ .starting → t.ticks ≤ s.ticks) ∧
    (t.phase.over = false → (t.phase = .gathering → ∀ j, (result t (t.ticks - 1, j)).isSome = true) →
      ∃ a, a.own = true ∧ ((machine isWord root bot once).step t a).isSome = true) := by
  obtain ⟨-, hrank, hticks⟩ := stop_run hstop hl
  have hbooting := stop_armed hs hstop
  refine ⟨?_, ?_, fun hp => ?_, step_of_done⟩
  · have hsix : s.phase.rank ≤ 6 := by
      cases hp : s.phase with
      | booting => exact absurd hp hbooting
      | _ => simp only [Phase.rank]; decide
    omega
  · have hone : owed s.phase ≤ 1 := by
      unfold owed
      split <;> decide
    omega
  · have hzero : owed s.phase = 0 := by
      cases hq : s.phase with
      | booting => exact absurd hq hbooting
      | starting => exact absurd hq hp
      | _ => rfl
    omega

/-- The signal comes while the start of the tick is logged, and another one while the tick is gathered. -/
def stopScript : List Act := [.logged (.ok ()), .check, .signal]

def afterStop : List Act := [.logged (.ok ()), .signal]

theorem stop_ends_run : ∃ s t, (machine (fun _ => true) [] "kola-team-bot" false).exec Machine.Any s afterStop = some t ∧
    s.stop = true ∧ afterStop.countP Act.own ≤ 6 ∧ t.ticks ≤ s.ticks + 1 ∧ (s.phase ≠ .starting → t.ticks ≤ s.ticks) ∧
    (t.phase.over = false → (t.phase = .gathering → ∀ j, (result t (t.ticks - 1, j)).isSome = true) →
      ∃ a, a.own = true ∧ ((machine (fun _ => true) [] "kola-team-bot" false).step t a).isSome = true) := by
  obtain ⟨s, hs, hstop, hl⟩ := Machine.reach_of_exec (machine (fun _ => true) [] "kola-team-bot" false) Machine.Any
    stopScript (fun s => s.stop = true ∧
      ((machine (fun _ => true) [] "kola-team-bot" false).exec Machine.Any s afterStop).isSome = true)
    (by decide +kernel)
  obtain ⟨t, ht⟩ := Option.isSome_iff_exists.mp hl
  exact ⟨s, t, ht, hstop, stop_ends (fun _ => true) [] "kola-team-bot" false s hs hstop afterStop t ht⟩

end

end Daemon

end AdmissionScheduler.Orchestrator
