import AdmissionScheduler.Machine
import AdmissionScheduler.Operations
import Mathlib.Logic.Function.Basic

/-!
# The installation token

`GitHubApp.token` of `orchestrator/github_app.py`: the token is cached until ten
minutes before it expires, and a lock keeps the heartbeats from renewing it side
by side. Here any number of callers ask for it, the answers of GitHub come when
and as they come, and time passes. Times are microseconds of the wall clock,
counted from when the client was made. A token that is no text and a date
without a zone are left out, which GitHub never gives.
-/

namespace AdmissionScheduler.Orchestrator

open PyText

def renewMargin : Int := 600 * 1000000

structure GitHubApp where
  token : Option String
  expires : Option Int
  deriving DecidableEq

inductive KeyFile where
  | there
  | missing (path : String)
  | unreadable (e : Raised)

/-- What the request for a token comes back with; a field is `none` when the body does not hold it as expected. -/
inductive TokenReply where
  | raised (e : Raised)
  | response (status : Int) (text : String) (token : Option String) (expires : Option Int)
  deriving DecidableEq

namespace GitHubApp

def fresh (c : GitHubApp) (now : Int) : Option String :=
  match c.token, c.expires with
  | some t, some e => if t ≠ "" ∧ renewMargin < e - now then some t else none
  | _, _ => none

def prepare (appId installationId : String) : KeyFile → Option Raised
  | key =>
    if appId = "" ∨ installationId = "" then
      some (.gitHubApp "KOLA_TEAM_APP_ID ou KOLA_TEAM_APP_INSTALLATION_ID manquant dans .env")
    else match key with
      | .there => none
      | .missing path => some (.gitHubApp ("clé privée GitHub App introuvable : " ++ path))
      | .unreadable e => some e

/-- The rest of `_refresh` and of `token`: the token is stored before its expiry is read. -/
def refreshed (c : GitHubApp) : TokenReply → GitHubApp × Except Raised String
  | .raised e => (c, .error e)
  | .response status text token expires =>
    if status ≠ 201 then
      (c, .error (.gitHubApp ("echec génération installation token : " ++ toString status ++ " " ++ clip 300 text)))
    else
      match token, expires with
      | none, _ => (c, .error (.other "'token'"))
      | some t, none => ({ c with token := some t }, .error (.other "expires_at"))
      | some t, some e => (⟨some t, some e⟩, if t = "" then .error (.other "") else .ok t)

end GitHubApp

/-! ## Callers -/

namespace TokenCache

inductive Caller where
  | idle | waiting | refreshing
  deriving DecidableEq

/-- What happened, the newest first. -/
inductive Note (ι : Type) where
  /-- GitHub gave a token -/
  | issued (token : String) (expires at_ : Int)
  | returned (i : ι) (token : String) (at_ : Int) (cached : Bool)
  | failed (i : ι) (e : Raised)
  deriving DecidableEq

structure State (ι : Type) where
  now : Int
  app : GitHubApp
  lock : Option ι
  caller : ι → Caller
  notes : List (Note ι)

inductive Act (ι : Type) where
  | call (i : ι)
  | acquire (i : ι) (key : KeyFile)
  | respond (i : ι) (r : TokenReply)
  | cancel (i : ι) (e : Raised)
  | tick (δ : Nat)

def lastIssued {ι : Type} : List (Note ι) → Option (String × Int)
  | [] => none
  | .issued tok e _ :: _ => some (tok, e)
  | _ :: l => lastIssued l

def issues {ι : Type} : List (Note ι) → Nat
  | [] => 0
  | .issued .. :: l => issues l + 1
  | _ :: l => issues l

def issuedBy {ι : Type} (now : Int) : TokenReply → List (Note ι)
  | .response 201 _ (some t) (some e) => [.issued t e now]
  | _ => []

def outcome {ι : Type} (i : ι) (now : Int) : Except Raised String → Note ι
  | .ok t => .returned i t now false
  | .error e => .failed i e

section
variable {ι : Type} [DecidableEq ι] (appId installationId : String)

def step (s : State ι) : Act ι → Option (State ι)
  | .call i => if s.caller i = .idle then some { s with caller := Function.update s.caller i .waiting } else none
  | .acquire i key =>
    if s.caller i = .waiting ∧ s.lock = none then
      match s.app.fresh s.now with
      | some t => some { s with
          caller := Function.update s.caller i .idle, notes := .returned i t s.now true :: s.notes }
      | none =>
        match GitHubApp.prepare appId installationId key with
        | some e => some { s with
            caller := Function.update s.caller i .idle, notes := .failed i e :: s.notes }
        | none => some { s with caller := Function.update s.caller i .refreshing, lock := some i }
    else none
  | .respond i r =>
    if s.caller i = .refreshing then
      some { s with
        app := (s.app.refreshed r).1
        lock := none
        caller := Function.update s.caller i .idle
        notes := outcome i s.now (s.app.refreshed r).2 :: (issuedBy s.now r ++ s.notes) }
    else none
  | .cancel i e =>
    match s.caller i with
    | .idle => none
    | .waiting => some { s with caller := Function.update s.caller i .idle, notes := .failed i e :: s.notes }
    | .refreshing => some { s with
        caller := Function.update s.caller i .idle, lock := none, notes := .failed i e :: s.notes }
  | .tick δ => some { s with now := s.now + δ }

def machine : Machine (State ι) (Act ι) where
  init := ⟨0, ⟨none, none⟩, none, fun _ => .idle, []⟩
  step := step appId installationId

end

/-! ## What a step does -/

section
variable {ι : Type} [DecidableEq ι] {appId installationId : String} {s t : State ι} {a : Act ι}
  {ok : State ι → Act ι → Prop}

theorem step_cases (h : (machine appId installationId).step s a = some t) :
    (∃ i, a = .call i ∧ s.caller i = .idle ∧ t = { s with caller := Function.update s.caller i .waiting }) ∨
    (∃ i key tok, a = .acquire i key ∧ s.lock = none ∧ s.caller i = .waiting ∧ s.app.fresh s.now = some tok ∧
      t = { s with caller := Function.update s.caller i .idle, notes := .returned i tok s.now true :: s.notes }) ∨
    (∃ i key, a = .acquire i key ∧ s.lock = none ∧ s.caller i = .waiting ∧ s.app.fresh s.now = none ∧
      t = { s with caller := Function.update s.caller i .refreshing, lock := some i }) ∨
    (∃ i r, a = .respond i r ∧ s.caller i = .refreshing ∧
      t = { s with
        app := (s.app.refreshed r).1
        lock := none
        caller := Function.update s.caller i .idle
        notes := outcome i s.now (s.app.refreshed r).2 :: (issuedBy s.now r ++ s.notes) }) ∨
    (∃ i e, s.caller i = .waiting ∧
      t = { s with caller := Function.update s.caller i .idle, notes := .failed i e :: s.notes }) ∨
    (∃ i e, s.caller i = .refreshing ∧
      t = { s with caller := Function.update s.caller i .idle, lock := none, notes := .failed i e :: s.notes }) ∨
    ∃ δ : Nat, a = .tick δ ∧ t = { s with now := s.now + δ } := by
  cases a with
  | call i =>
    simp only [machine, step] at h
    split at h
    · cases h
      exact .inl ⟨i, rfl, ‹_›, rfl⟩
    · cases h
  | acquire i key =>
    simp only [machine, step] at h
    split at h
    · rename_i hc
      split at h
      · cases h
        exact .inr (.inl ⟨i, key, _, rfl, hc.2, hc.1, ‹_›, rfl⟩)
      · split at h
        · cases h
          exact .inr (.inr (.inr (.inr (.inl ⟨i, _, hc.1, rfl⟩))))
        · cases h
          exact .inr (.inr (.inl ⟨i, key, rfl, hc.2, hc.1, ‹_›, rfl⟩))
    · cases h
  | respond i r =>
    simp only [machine, step] at h
    split at h
    · cases h
      exact .inr (.inr (.inr (.inl ⟨i, r, rfl, ‹_›, rfl⟩)))
    · cases h
  | cancel i e =>
    simp only [machine, step] at h
    split at h
    · cases h
    · cases h
      exact .inr (.inr (.inr (.inr (.inl ⟨i, e, ‹_›, rfl⟩))))
    · cases h
      exact .inr (.inr (.inr (.inr (.inr (.inl ⟨i, e, ‹_›, rfl⟩)))))
  | tick δ =>
    cases h
    exact .inr (.inr (.inr (.inr (.inr (.inr ⟨δ, rfl, rfl⟩)))))

/-! ## The lock -/

/-- Whoever renews the token holds the lock. -/
def Locked (s : State ι) : Prop := ∀ i, s.caller i = .refreshing ↔ s.lock = some i

theorem Locked.update {i : ι} {c : Caller} (hl : Locked s) (hi : s.caller i ≠ .refreshing) (hc : c ≠ .refreshing) :
    ∀ j, Function.update s.caller i c j = .refreshing ↔ s.lock = some j := by
  intro j
  by_cases hj : j = i
  · subst hj
    rw [Function.update_self]
    exact ⟨fun h => absurd h hc, fun h => absurd ((hl j).mpr h) hi⟩
  · rw [Function.update_of_ne hj]
    exact hl j

theorem Locked.release {i : ι} (hl : Locked s) (hi : s.caller i = .refreshing) :
    ∀ j, Function.update s.caller i .idle j = .refreshing ↔ (none : Option ι) = some j := by
  intro j
  by_cases hj : j = i
  · subst hj
    rw [Function.update_self]
    exact iff_of_false nofun nofun
  · rw [Function.update_of_ne hj, hl j, (hl i).mp hi]
    exact ⟨fun h => absurd (Option.some.inj h).symm hj, fun h => by cases h⟩

theorem locked (hs : (machine appId installationId).Reach ok s) : Locked s := by
  refine hs.invariant (I := Locked) (fun i => iff_of_false nofun nofun) ?_
  intro s a t _ hl _ hstep
  obtain ⟨i, -, hi, rfl⟩ | ⟨i, key, tok, -, -, hi, -, rfl⟩ | ⟨i, key, -, hn, hi, -, rfl⟩ | ⟨i, r, -, hi, rfl⟩ |
    ⟨i, e, hi, rfl⟩ | ⟨i, e, hi, rfl⟩ | ⟨δ, -, rfl⟩ := step_cases hstep
  · exact hl.update (by rw [hi]; nofun) nofun
  · exact hl.update (by rw [hi]; nofun) nofun
  · intro j
    by_cases hj : j = i
    · subst hj
      exact iff_of_true (Function.update_self ..) rfl
    · change Function.update s.caller i .refreshing j = .refreshing ↔ some i = some j
      rw [Function.update_of_ne hj, hl j, hn]
      exact ⟨fun h => (nomatch h), fun h => absurd (Option.some.inj h).symm hj⟩
  · exact hl.release hi
  · exact hl.update (by rw [hi]; nofun) nofun
  · exact hl.release hi
  · exact hl

/-! ## The cache -/

omit [DecidableEq ι] in
theorem fresh_iff {c : GitHubApp} {now : Int} {tok : String} : c.fresh now = some tok ↔
    ∃ e, c.token = some tok ∧ c.expires = some e ∧ tok ≠ "" ∧ renewMargin < e - now := by
  obtain ⟨token, expires⟩ := c
  cases token with
  | none => simp [GitHubApp.fresh]
  | some t =>
    cases expires with
    | none => simp [GitHubApp.fresh]
    | some e =>
      simp only [GitHubApp.fresh, Option.some.injEq]
      by_cases hc : t ≠ "" ∧ renewMargin < e - now
      · rw [if_pos hc, Option.some.injEq]
        constructor
        · rintro rfl
          exact ⟨e, rfl, rfl, hc⟩
        · rintro ⟨e, rfl, -⟩
          rfl
      · rw [if_neg hc]
        refine iff_of_false nofun ?_
        rintro ⟨e', rfl, rfl, h⟩
        exact hc h

/-- What a reply leaves in the cache, what comes of it, and what it is noted as. -/
inductive Refreshes (c : GitHubApp) (now : Int) : GitHubApp → Except Raised String → List (Note ι) → Prop
  | kept (e : Raised) : Refreshes c now c (.error e) []
  | half {tok : String} (e : Raised) (named : tok ≠ "") : Refreshes c now { c with token := some tok } (.error e) []
  | given {tok : String} (expires : Int) (named : tok ≠ "") :
    Refreshes c now ⟨some tok, some expires⟩ (.ok tok) [.issued tok expires now]

/-- GitHub gives no empty token. -/
def Named (_ : State ι) : Act ι → Prop
  | .respond _ (.response _ _ (some tok) _) => tok ≠ ""
  | _ => True

instance (s : State ι) : DecidablePred (Named s)
  | .respond _ (.response _ _ (some tok) _) => inferInstanceAs (Decidable (tok ≠ ""))
  | .respond _ (.response _ _ none _) | .respond _ (.raised _) | .call _ | .acquire .. | .cancel .. | .tick _ =>
    .isTrue trivial

omit [DecidableEq ι] in
theorem refreshes {c : GitHubApp} {n : Int} {i : ι} {r : TokenReply} (hn : Named s (.respond i r)) :
    Refreshes c n (c.refreshed r).1 (c.refreshed r).2 (issuedBy (ι := ι) n r) := by
  cases r with
  | raised e => exact .kept e
  | response status text token expires =>
    by_cases hs : status = 201
    · subst hs
      cases token with
      | none => exact .kept _
      | some tok =>
        have htok : tok ≠ "" := hn
        cases expires with
        | none => exact .half _ htok
        | some e =>
          have hgiven : Refreshes c n ⟨some tok, some e⟩ (.ok tok) [Note.issued (ι := ι) tok e n] := .given e htok
          simpa [GitHubApp.refreshed, issuedBy, htok] using hgiven
    · have hnone : issuedBy (ι := ι) n (.response status text token expires) = [] := by
        unfold issuedBy
        split
        · rename_i heq
          cases heq
          exact absurd rfl hs
        · rfl
      simp only [hnone, GitHubApp.refreshed, ne_eq, hs, not_false_eq_true, ite_true]
      exact .kept _

/-- The token and the expiry in the cache belong together, or the expiry has passed too far to be trusted. -/
structure Paired (s : State ι) : Prop where
  named : s.app.token ≠ some ""
  both : s.app.expires ≠ none → s.app.token ≠ none
  good : ∀ tok e, s.app.token = some tok → s.app.expires = some e →
    lastIssued s.notes = some (tok, e) ∨ e ≤ s.now + renewMargin
  stale : s.lock ≠ none → ∀ e, s.app.expires = some e → e ≤ s.now + renewMargin

omit [DecidableEq ι] in
theorem Paired.of_not_fresh (hp : Paired s) (hf : s.app.fresh s.now = none) {e : Int} (he : s.app.expires = some e) :
    e ≤ s.now + renewMargin := by
  obtain ⟨tok, htok⟩ := Option.ne_none_iff_exists'.mp (hp.both (by rw [he]; nofun))
  by_contra hlt
  have hfresh : s.app.fresh s.now = some tok :=
    fresh_iff.mpr ⟨e, htok, he, fun h => hp.named (h ▸ htok), by omega⟩
  rw [hf] at hfresh
  cases hfresh

omit [DecidableEq ι] in
theorem Paired.noted (hp : Paired s) {notes : List (Note ι)} {caller : ι → Caller} {lock : Option ι}
    (hnotes : lastIssued notes = lastIssued s.notes) (hlock : lock ≠ none → s.lock ≠ none) :
    Paired { s with notes := notes, caller := caller, lock := lock } where
  named := hp.named
  both := hp.both
  good tok e ht he := (hp.good tok e ht he).imp_left fun h => hnotes.trans h
  stale hl := hp.stale (hlock hl)

theorem paired (hs : (machine appId installationId).Reach Named s) : Paired s := by
  refine hs.invariant (I := Paired) ⟨nofun, nofun, nofun, nofun⟩ ?_
  intro s a t hr hp hok hstep
  obtain ⟨i, -, -, rfl⟩ | ⟨i, key, tok, -, -, -, -, rfl⟩ | ⟨i, key, -, -, -, hf, rfl⟩ | ⟨i, r, rfl, hi, rfl⟩ |
    ⟨i, e, -, rfl⟩ | ⟨i, e, -, rfl⟩ | ⟨δ, -, rfl⟩ := step_cases hstep
  · exact hp.noted rfl id
  · exact hp.noted rfl id
  · exact ⟨hp.named, hp.both, hp.good, fun _ e he => hp.of_not_fresh hf he⟩
  · have hlock : s.lock ≠ none := by
      rw [(locked hr i).mp hi]
      nofun
    have hrefreshes := refreshes (c := s.app) (n := s.now) hok
    revert hrefreshes
    generalize (s.app.refreshed r).1 = app, (s.app.refreshed r).2 = result, issuedBy s.now r = given
    intro hrefreshes
    cases hrefreshes with
    | kept e => exact hp.noted rfl fun h => absurd rfl h
    | half e named =>
      refine ⟨fun h => named (Option.some.inj h), fun _ => nofun, fun _ e' _ he => .inr ?_, fun h => absurd rfl h⟩
      exact hp.stale hlock e' he
    | given expires named =>
      refine ⟨fun h => named (Option.some.inj h), fun _ => nofun, ?_, fun h => absurd rfl h⟩
      intro tok e ht he
      cases ht
      cases he
      exact .inl rfl
  · exact hp.noted rfl id
  · exact hp.noted rfl fun h => absurd rfl h
  · refine ⟨hp.named, hp.both, fun tok e ht he => (hp.good tok e ht he).imp_right fun h => ?_, fun hl e he => ?_⟩
    · change e ≤ s.now + δ + renewMargin
      omega
    · have := hp.stale hl e he
      change e ≤ s.now + δ + renewMargin
      omega

/-! ## What is returned -/

def Granted (l : List (Note ι)) : Note ι → Prop
  | .returned _ tok at_ true => ∃ e, lastIssued l = some (tok, e) ∧ at_ + renewMargin < e
  | .returned _ tok at_ false => ∃ e l', l = .issued tok e at_ :: l'
  | _ => True

def AllGranted (l : List (Note ι)) : Prop := ∀ n l', n :: l' <:+ l → Granted l' n

omit [DecidableEq ι] in
theorem AllGranted.cons {n : Note ι} {l : List (Note ι)} (hn : Granted l n) (hl : AllGranted l) :
    AllGranted (n :: l) := by
  intro n' l' hs
  rcases List.suffix_cons_iff.mp hs with heq | hs
  · cases heq
    exact hn
  · exact hl n' l' hs

/-- **The token that is handed out.** However the callers, the replies of GitHub, the cancellations and the clock
interleave, one caller at most asks GitHub for a token. A token returned from the cache is the one given last and
its own expiry lies more than the margin ahead; any other one is the token that very call was given. -/
theorem tokens_fresh (hs : (machine appId installationId).Reach Named s) :
    (∀ i j, s.caller i = .refreshing → s.caller j = .refreshing → i = j) ∧
    ∀ n l, n :: l <:+ s.notes → Granted l n := by
  constructor
  · intro i j hi hj
    have hlocked := locked hs
    exact Option.some.inj (((hlocked i).mp hi).symm.trans ((hlocked j).mp hj))
  · refine hs.invariant (I := fun s => AllGranted s.notes) ?_ ?_
    · intro n l h
      exact absurd (List.suffix_nil.mp h) (List.cons_ne_nil _ _)
    intro s a t hr hg hok hstep
    obtain ⟨i, -, -, rfl⟩ | ⟨i, key, tok, -, -, -, hf, rfl⟩ | ⟨i, key, -, -, -, -, rfl⟩ | ⟨i, r, rfl, -, rfl⟩ |
      ⟨i, e, -, rfl⟩ | ⟨i, e, -, rfl⟩ | ⟨δ, -, rfl⟩ := step_cases hstep
    · exact hg
    · refine AllGranted.cons ?_ hg
      obtain ⟨e, ht, he, -, hlt⟩ := fresh_iff.mp hf
      refine ⟨e, ((paired hr).good tok e ht he).resolve_right fun h => ?_, ?_⟩ <;> omega
    · exact hg
    · have hrefreshes := refreshes (c := s.app) (n := s.now) hok
      revert hrefreshes
      generalize (s.app.refreshed r).1 = app, (s.app.refreshed r).2 = result, issuedBy s.now r = given
      intro hrefreshes
      cases hrefreshes with
      | kept e => exact AllGranted.cons trivial hg
      | half e named => exact AllGranted.cons trivial hg
      | given expires named => exact AllGranted.cons ⟨expires, _, rfl⟩ (AllGranted.cons trivial hg)
    · exact AllGranted.cons trivial hg
    · exact AllGranted.cons trivial hg
    · exact hg

/-- Two callers at once, a reply without an expiry, a token and a call after it. -/
def freshScript : List (Act Bool) :=
  [.call true, .call false, .acquire true .there, .respond true (.response 201 "" (some "t") none),
    .acquire false .there, .respond false (.response 201 "" (some "u") (some 3600000000)), .call true, .tick 5,
    .acquire true .there]

theorem tokens_fresh_run : ∃ s, (machine (ι := Bool) "1" "2").Reach Named s ∧
    s.notes = [.returned true "u" 5 true, .returned false "u" 0 false, .issued "u" 3600000000 0,
      .failed true (.other "expires_at")] ∧
    (∀ i j, s.caller i = .refreshing → s.caller j = .refreshing → i = j) ∧
    ∀ n l, n :: l <:+ s.notes → Granted l n := by
  obtain ⟨s, hr, hn⟩ := Machine.reach_of_exec (machine "1" "2") Named freshScript
    (fun s => s.notes = [.returned true "u" 5 true, .returned false "u" 0 false, .issued "u" 3600000000 0,
      .failed true (.other "expires_at")]) (by decide +kernel)
  exact ⟨s, hr, hn, tokens_fresh hr⟩

/-! ## How often it is renewed -/

/-- GitHub gives no token that is good for less than `life` when its reply is read. -/
def Lasting (life : Int) (s : State ι) : Act ι → Prop
  | .respond _ (.response status _ _ (some e)) => status = 201 → s.now + life ≤ e
  | _ => True

instance (life : Int) (s : State ι) : DecidablePred (Lasting life s)
  | .respond _ (.response status _ _ (some e)) => inferInstanceAs (Decidable (status = 201 → s.now + life ≤ e))
  | .respond _ (.response _ _ _ none) | .respond _ (.raised _) | .call _ | .acquire .. | .cancel .. | .tick _ =>
    .isTrue trivial

def NamedLasting (life : Int) (s : State ι) (a : Act ι) : Prop := Named s a ∧ Lasting life s a

instance (life : Int) (s : State ι) : DecidablePred (NamedLasting life s) := fun _ => inferInstanceAs (Decidable (_ ∧ _))

structure Spaced (life : Int) (s : State ι) (r : Int) : Prop where
  past : r ≤ s.now
  spaced : ((issues s.notes : Int) - 1) * (life - renewMargin) ≤ r
  lasting : ∃ e, s.app.expires = some e ∧ r + life ≤ e

omit [DecidableEq ι] in
theorem Lasting.issued {life : Int} {i : ι} {r : TokenReply} (h : Lasting life s (.respond i r)) :
    ∀ tok e at_, .issued tok e at_ ∈ issuedBy (ι := ι) s.now r → s.now + life ≤ e := by
  intro tok e at_ hm
  unfold issuedBy at hm
  split at hm
  · rename_i text tok' e'
    obtain ⟨rfl, rfl, rfl⟩ := Note.issued.inj (List.mem_singleton.mp hm)
    exact h rfl
  · cases hm

def AllSpaced (life : Int) (s : State ι) : Prop := 0 ≤ s.now ∧ (issues s.notes = 0 ∨ ∃ r, Spaced life s r)

omit [DecidableEq ι] in
theorem AllSpaced.noted {life : Int} (h : AllSpaced life s) (he : t.app.expires = s.app.expires)
    (hn : issues t.notes = issues s.notes) (ht : s.now ≤ t.now) : AllSpaced life t := by
  refine ⟨h.1.trans ht, h.2.imp (fun h0 => hn.trans h0) fun ⟨r, hr⟩ => ⟨r, hr.past.trans ht, ?_, ?_⟩⟩
  · rw [hn]
    exact hr.spaced
  · rw [he]
    exact hr.lasting

omit [DecidableEq ι] in
theorem AllSpaced.next {life : Int} (h : AllSpaced life s) (hp : Paired s) (hl : s.lock ≠ none) :
    (issues s.notes : Int) * (life - renewMargin) ≤ s.now := by
  rcases h.2 with h0 | ⟨r, hr⟩
  · rw [h0]
    simpa using h.1
  · obtain ⟨e, he, hle⟩ := hr.lasting
    have hstale := hp.stale hl e he
    have hspaced := hr.spaced
    rw [Int.sub_mul, Int.one_mul] at hspaced
    omega

theorem allSpaced {life : Int} (hs : (machine appId installationId).Reach (NamedLasting life) s) : AllSpaced life s := by
  refine hs.invariant (I := AllSpaced life) ⟨le_rfl, .inl rfl⟩ ?_
  intro s a t hr hi hok hstep
  have hr' := Machine.Reach.mono (fun _ _ h => h.1) hr
  obtain ⟨i, -, -, rfl⟩ | ⟨i, key, tok, -, -, -, -, rfl⟩ | ⟨i, key, -, -, -, -, rfl⟩ | ⟨i, r, rfl, hc, rfl⟩ |
    ⟨i, e, -, rfl⟩ | ⟨i, e, -, rfl⟩ | ⟨δ, -, rfl⟩ := step_cases hstep
  · exact hi.noted rfl rfl le_rfl
  · exact hi.noted rfl rfl le_rfl
  · exact hi.noted rfl rfl le_rfl
  · have hlock : s.lock ≠ none := by
      rw [(locked hr' i).mp hc]
      nofun
    have hrefreshes := refreshes (c := s.app) (n := s.now) hok.1
    have hgiven := hok.2.issued
    revert hrefreshes hgiven
    generalize (s.app.refreshed r).1 = app, (s.app.refreshed r).2 = result, issuedBy s.now r = given
    intro hrefreshes hgiven
    cases hrefreshes with
    | kept e => exact hi.noted rfl rfl le_rfl
    | half e named => exact hi.noted rfl rfl le_rfl
    | given expires named =>
      refine ⟨hi.1, .inr ⟨s.now, le_rfl, ?_, expires, rfl, hgiven _ _ _ (.head _)⟩⟩
      have hnext := hi.next (paired hr') hlock
      change (((issues s.notes + 1 : Nat) : Int) - 1) * (life - renewMargin) ≤ s.now
      simpa using hnext
  · exact hi.noted rfl rfl le_rfl
  · exact hi.noted rfl rfl le_rfl
  · refine hi.noted rfl rfl ?_
    change s.now ≤ s.now + δ
    omega

/-- **How often a token is renewed.** Where every token is good for `life` when its reply is read, the tokens
after the first are that far apart, less the margin, whoever calls and whatever fails in between. -/
theorem renewals_spaced {life : Int} (hs : (machine appId installationId).Reach (NamedLasting life) s) :
    ((issues s.notes : Int) - 1) * (life - renewMargin) ≤ s.now ∨ issues s.notes = 0 := by
  rcases (allSpaced hs).2 with h0 | ⟨r, hr⟩
  · exact .inr h0
  · exact .inl (hr.spaced.trans hr.past)

/-- The second token is asked for as soon as the first has ten minutes left. -/
def spacedScript : List (Act Bool) :=
  [.call true, .acquire true .there, .respond true (.response 201 "" (some "t") (some 3600000000)),
    .tick 3000000000, .call true, .acquire true .there,
    .respond true (.response 201 "" (some "u") (some 6600000000))]

theorem renewals_spaced_run : ∃ s, (machine (ι := Bool) "1" "2").Reach (NamedLasting 3600000000) s ∧
    issues s.notes = 2 ∧ s.now = 3000000000 ∧
    (((issues s.notes : Int) - 1) * (3600000000 - renewMargin) ≤ s.now ∨ issues s.notes = 0) := by
  obtain ⟨s, hr, hn⟩ := Machine.reach_of_exec (machine "1" "2") (NamedLasting 3600000000) spacedScript
    (fun s => issues s.notes = 2 ∧ s.now = 3000000000) (by decide +kernel)
  exact ⟨s, hr, hn.1, hn.2, renewals_spaced hr⟩

end

end TokenCache

end AdmissionScheduler.Orchestrator
