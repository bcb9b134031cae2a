import AdmissionScheduler.TeamSound

/-!
# What is merged, and what was checked

The files of a pull request, its head for the runs, and the merge are separate
requests, and each of them means the head of the moment. The merge names no
commit. It takes the commit that was checked exactly when the pushes since the
files were read have left the head where it was, both when the head was read and
when the merge came.
-/

namespace AdmissionScheduler.Orchestrator

open Program Log Crew

variable {ι : Type} [DecidableEq ι] (isWord : Char → Bool) (teamRoot : Path) (bot : String)

abbrev TeamState (ι : Type) := Crew.State Op Reply Raised ι Job (Event ι)

abbrev TeamAct (ι : Type) := Crew.Act ι Job Answer (Event ι)

def teamMachine : Machine (TeamState ι) (TeamAct ι) := (team isWord teamRoot bot).machine

/-- In state `s`, a heartbeat of the CEO that has seen `h` gets `n` merged at `sha`. -/
def Merges (s : TeamState ι) (n : Nat) (sha : String) (h : History Op Reply Raised (Log ι)) : Prop :=
  ∃ i x title message next r l, (team isWord teamRoot bot).Serves s i x .ceo (.mergePr n title message) next h r l ∧
    .merged n sha (some ⟨i, .ceo⟩) ∈ l

/-- The last review in `h` read `files` at `w₁`, the head `p` at `w₂`, then the runs of that head, and passed. -/
def Checked (n : Nat) (h : History Op Reply Raised (Log ι)) (files : List PrFile) (p : PullInfo) (w₁ w₂ : Log ι) :
    Prop :=
  ∃ pr status body x t h₀, h = ⟨.approvePr n body, x, t⟩ :: h₀ ∧ Listed pr h ∧ pr.number = n ∧
    Fetched n files p w₁ w₂ status h₀ ∧ Accepts isWord pr files status

/-- Every push to the branch of `n` from `w` to `w'` is undone, or was to the commit that was there already. -/
def HeadKept (n : Nat) (w w' : Log ι) : Prop :=
  ∀ p ∈ pull n w, ∀ sha ∈ head p.branch (since w w'), head p.branch w = some sha

variable {isWord teamRoot bot}

omit [DecidableEq ι] in
theorem pullHead_iff {n : Nat} {w w' : Log ι} {sha : String} (h : w <:+ w') (hw : pullHead n w = some sha) :
    pullHead n w' = some sha ↔ HeadKept n w w' := by
  obtain ⟨p, hp, hh⟩ := Option.bind_eq_some_iff.mp hw
  have hhead : pullHead n w' = (head p.branch (since w w')).or (head p.branch w) := by
    rw [pullHead, pull_suffix h hp, Option.bind_some, ← head_append, since_append h]
  have hkept : HeadKept n w w' ↔ ∀ c ∈ head p.branch (since w w'), sha = c := by
    simp [HeadKept, hp, hh]
  rw [hhead, hkept, hh]
  cases head p.branch (since w w') with
  | none => simp
  | some c => simp [eq_comm]

theorem fetched_entries {n : Nat} {files : List PrFile} {p : PullInfo} {τ : Type} {t₁ t₂ : τ} {status : PrStatus}
    {h : History Op Reply Raised τ} (hf : Fetched n files p t₁ t₂ status h) :
    ∃ h', ⟨.getPr n, .ok p, t₂⟩ :: ⟨.getPrFiles n, .ok files, t₁⟩ :: h' <:+ h := by
  cases hf with
  | checks => exact ⟨_, List.suffix_cons ..⟩
  | fallback => exact ⟨_, (List.suffix_cons ..).trans (List.suffix_cons ..)⟩

section
variable {n : Nat} {s : TeamState ι} {ok : TeamState ι → TeamAct ι → Prop} {sha : String}
  {h : History Op Reply Raised (Log ι)}

theorem checked_of_merges (hs : (teamMachine isWord teamRoot bot).Reach ok s)
    (hm : Merges isWord teamRoot bot s n sha h) : ∃ files p w₁ w₂, Checked isWord n h files p w₁ w₂ ∧
      (∃ c, pullHead n w₁ = some c ∧ files = (filesOf c w₁).take 100) ∧ pullHead n w₂ = some p.headSha ∧
      pullHead n s.log = some sha ∧ w₁ <:+ w₂ ∧ w₂ <:+ s.log := by
  obtain ⟨i, x, title, message, next, r, l, hserves, hl⟩ := hm
  obtain ⟨-, -, -, hsha⟩ := caused_serve hserves.served _ hl
  have hv : ∀ w i j o x r l, (team (ι := ι) isWord teamRoot bot).serve w i j o x = some (r, l) →
      Accurate ⟨o, r, l ++ w⟩ := fun _ _ _ _ _ _ _ => accurate_serve
  obtain ⟨pr, hlisted, hj⟩ := guarantee hv (G := Reviewed isWord) meets_ceoHeartbeat hs hserves rfl
  obtain ⟨hn, files, p, w₁, w₂, status, body, y, t, h₀, rfl, hf, ha⟩ := hj n title message rfl
  obtain ⟨h', hsuf⟩ := fetched_entries hf
  have hsuf := hsuf.trans (List.suffix_cons ⟨.approvePr n body, y, t⟩ h₀)
  have hhead := hsuf.subset List.mem_cons_self
  have hfiles := hsuf.subset (List.mem_cons_of_mem _ List.mem_cons_self)
  have hacc := valid hv hs i _ hserves.waits
  refine ⟨files, p, w₁, w₂, ⟨pr, status, body, y, t, h₀, rfl, hlisted, hn.symm, hf, ha⟩, hacc _ hfiles,
    pullHead_of_info (hacc _ hhead), hsha, ?_, stamps hs i _ hserves.waits _ hhead⟩
  exact sorted hs i _ hserves.waits ⟨.getPr n, .ok p, w₂⟩ _ hsuf ⟨.getPrFiles n, .ok files, w₁⟩ List.mem_cons_self

end

/-! ## Reviews under way -/

/-- The pull request whose files were read last, and when, unless they could not be read. -/
def underReview : History Op Reply Raised (Log ι) → Option (Nat × Log ι)
  | [] => none
  | ⟨.getPrFiles n, .ok _, w⟩ :: _ => some (n, w)
  | ⟨.getPrFiles _, .error _, _⟩ :: _ => none
  | _ :: h => underReview h

/-- A push leaves the head of a pull request where it is while a heartbeat has its files in hand. -/
def KeepsHeads (s : TeamState ι) (a : TeamAct ι) : Prop :=
  ∀ branch sha, a = .event (.pushed branch sha) → ∀ i p n w q, s.party i = some p →
    underReview p.seen = some (n, w) → pull n s.log = some q → q.branch = branch → head branch s.log = some sha

def HeadStays (w : Log ι) (h : History Op Reply Raised (Log ι)) : Prop :=
  ∀ n w₁, underReview h = some (n, w₁) → ∀ w', w₁ <:+ w' → w' <:+ w → pullHead n w' = pullHead n w₁

section
variable {n : Nat} {w w' w₁ l : Log ι} {h : History Op Reply Raised (Log ι)}

omit [DecidableEq ι] in
theorem mem_of_underReview (hu : underReview h = some (n, w)) : ∃ files, ⟨.getPrFiles n, .ok files, w⟩ ∈ h := by
  induction h with
  | nil => cases hu
  | cons e h ih =>
    unfold underReview at hu
    split at hu
    · cases hu
    · rename_i heq
      cases heq
      cases hu
      exact ⟨_, List.mem_cons_self⟩
    · cases hu
    · rename_i heq
      cases heq
      obtain ⟨files, hm⟩ := ih hu
      exact ⟨files, List.mem_cons_of_mem _ hm⟩

omit [DecidableEq ι] in
theorem underReview_cons {e : Program.Entry Op Reply Raised (Log ι)} (hu : underReview (e :: h) = some (n, w)) :
    w = e.stamp ∨ underReview h = some (n, w) := by
  unfold underReview at hu
  split at hu
  · cases hu
  · rename_i heq
    cases heq
    cases hu
    exact .inl rfl
  · cases hu
  · rename_i heq
    cases heq
    exact .inr hu

omit [DecidableEq ι] in
theorem suffix_append_cases (hs : w' <:+ l ++ w) : w' <:+ w ∨ ∃ l₂, l₂ <:+ l ∧ w' = l₂ ++ w := by
  obtain ⟨m, hm⟩ := hs
  obtain ⟨l₂, rfl, rfl⟩ | ⟨l₂, rfl, rfl⟩ := List.append_eq_append_iff.mp hm
  · exact .inr ⟨l₂, List.suffix_append .., rfl⟩
  · exact .inl (List.suffix_append ..)

def Still (branch : String) (w l : Log ι) : Prop := ∀ l₂, l₂ <:+ l → ∀ sha ∈ head branch l₂, head branch w = some sha

omit [DecidableEq ι] in
theorem pullHead_append {sha : String} {l₂ : Log ι} (hl : ∀ q ∈ pull n w, Still q.branch w l) (h₂ : l₂ <:+ l)
    (hw : pullHead n w = some sha) : pullHead n (l₂ ++ w) = some sha := by
  obtain ⟨q, hq, hh⟩ := Option.bind_eq_some_iff.mp hw
  rw [pullHead, pull_suffix (List.suffix_append ..) hq, Option.bind_some, head_append]
  cases hc : head q.branch l₂ with
  | none => rw [Option.none_or, hh]
  | some c => rw [Option.some_or, ← hl q hq l₂ h₂ c hc, hh]

omit [DecidableEq ι] in
theorem HeadStays.append (hh : HeadStays w h) (hacc : ∀ e ∈ h, Accurate e ∧ e.stamp <:+ w)
    (hl : ∀ n w₁, underReview h = some (n, w₁) → ∀ q ∈ pull n w, Still q.branch w l) : HeadStays (l ++ w) h := by
  intro n w₁ hu w' h₁ h₂
  obtain h₂ | ⟨l₂, hl₂, rfl⟩ := suffix_append_cases h₂
  · exact hh n w₁ hu w' h₁ h₂
  · obtain ⟨files, hm⟩ := mem_of_underReview hu
    obtain ⟨⟨sha, hsha, -⟩, hw⟩ := hacc _ hm
    rw [hsha]
    exact pullHead_append (hl n w₁ hu) hl₂ ((hh n w₁ hu w hw List.suffix_rfl).trans hsha)

omit [DecidableEq ι] in
theorem HeadStays.cons {e : Program.Entry Op Reply Raised (Log ι)} (hh : HeadStays w h) (he : e.stamp = w) :
    HeadStays w (e :: h) := by
  intro n w₁ hu w' h₁ h₂
  obtain rfl | hu := underReview_cons hu
  · rw [he] at h₁ ⊢
    rw [h₁.eq_of_length (Nat.le_antisymm h₁.length_le h₂.length_le)]
  · exact hh n w₁ hu w' h₁ h₂

omit [DecidableEq ι] in
theorem still_of_not_push {branch : String} (hl : ∀ b c, .pushed b c ∉ l) : Still branch w l := by
  intro l₂ h₂ sha hs
  obtain ⟨e, he, hs⟩ := List.exists_of_findSome?_eq_some hs
  cases e with
  | pushed b c => exact absurd (h₂.subset he) (hl b c)
  | _ => cases hs

omit [DecidableEq ι] in
theorem still_push {branch b c : String} (hc : b = branch → head branch w = some c) :
    Still branch w [.pushed b c] := by
  intro l₂ h₂ sha hs
  obtain rfl | rfl := List.suffix_cons_iff.mp h₂ |>.imp_right List.suffix_nil.mp
  · by_cases hb : b = branch
    · simp only [head, List.findSome?_cons, hb, if_true, Option.mem_def, Option.some.injEq] at hs
      rw [hc hb, hs]
    · simp [head, hb] at hs
  · cases hs

end

section
variable {isWord : Char → Bool} {teamRoot : Path} {bot : String} {s : TeamState ι}

theorem headStays (hs : (teamMachine isWord teamRoot bot).Reach KeepsHeads s) :
    ∀ i p, s.party i = some p → HeadStays s.log p.seen := by
  have hv : ∀ w i j o x r l, (team (ι := ι) isWord teamRoot bot).serve w i j o x = some (r, l) →
      Accurate ⟨o, r, l ++ w⟩ := fun _ _ _ _ _ _ _ => accurate_serve
  refine hs.invariant (I := fun s => ∀ i p, s.party i = some p → HeadStays s.log p.seen) (fun _ _ h => by cases h) ?_
  intro s a t hr ih hok hs
  have hacc : ∀ i p, s.party i = some p → ∀ e ∈ p.seen, Accurate e ∧ e.stamp <:+ s.log :=
    fun i p hp e he => ⟨valid hv hr i p hp e he, stamps hr i p hp e he⟩
  obtain ⟨i', j, -, -, rfl⟩ | ⟨i', x, j, o, next, h, r, l, rfl, hserves, rfl⟩ | ⟨e, rfl, -, rfl⟩ := step_cases hs
  · exact update_cases (K := fun _ (p : Party ..) => HeadStays s.log p.seen) ih fun _ _ hu => by cases hu
  · have hl : ∀ b c, .pushed b c ∉ l := fun b c hm => caused_serve hserves.served _ hm
    have hold : ∀ i p, s.party i = some p → HeadStays (l ++ s.log) p.seen := fun i p hp =>
      (ih i p hp).append (hacc i p hp) fun _ _ _ _ _ => still_of_not_push hl
    exact update_cases (K := fun _ (p : Party ..) => HeadStays (l ++ s.log) p.seen) hold ((hold i' _ hserves.waits).cons rfl)
  · intro i p hp
    refine (ih i p hp).append (l := [e]) (hacc i p hp) fun n w₁ hu q hq => ?_
    cases e with
    | pushed b c => exact still_push fun hb => hb ▸ hok b c rfl i p n w₁ q hp hu hq hb.symm
    | _ => exact still_of_not_push fun _ _ hm => by simp at hm

end

/-! ## Merges -/

section
variable {n : Nat} {h : History Op Reply Raised (Log ι)} {files : List PrFile} {p : PullInfo} {w₁ w₂ : Log ι}

omit [DecidableEq ι] in
theorem underReview_of_fetched {status : PrStatus} (hf : Fetched n files p w₁ w₂ status h) :
    underReview h = some (n, w₁) := by
  cases hf <;> rfl

omit [DecidableEq ι] in
theorem underReview_of_checked (hc : Checked isWord n h files p w₁ w₂) : underReview h = some (n, w₁) := by
  obtain ⟨pr, status, body, x, t, h₀, rfl, -, -, hf, -⟩ := hc
  exact (underReview_of_fetched hf :)

end

/-- A merge takes what was checked exactly when no push in between has left the head elsewhere; it always does in
runs where pushes leave the heads under review alone. -/
theorem merge_checked (isWord : Char → Bool) (teamRoot : Path) (bot : String) :
    (∀ (s : TeamState ι) n sha h, (teamMachine isWord teamRoot bot).Reach Machine.Any s →
      Merges isWord teamRoot bot s n sha h → ∃ files p w₁ w₂, Checked isWord n h files p w₁ w₂ ∧
        (∃ c, pullHead n w₁ = some c ∧ files = (filesOf c w₁).take 100) ∧ pullHead n w₂ = some p.headSha ∧
        ((pullHead n w₁ = some sha ∧ p.headSha = sha) ↔ HeadKept n w₁ w₂ ∧ HeadKept n w₁ s.log)) ∧
    ∀ (s : TeamState ι) n sha h, (teamMachine isWord teamRoot bot).Reach KeepsHeads s →
      Merges isWord teamRoot bot s n sha h → ∃ files p w₁ w₂, Checked isWord n h files p w₁ w₂ ∧
        files = (filesOf sha w₁).take 100 ∧ pullHead n w₁ = some sha ∧ p.headSha = sha := by
  constructor
  · intro s n sha h hs hm
    obtain ⟨files, p, w₁, w₂, hc, ⟨c, hw₁, hfiles⟩, hw₂, hsha, h₁₂, h₂⟩ := checked_of_merges hs hm
    refine ⟨files, p, w₁, w₂, hc, ⟨c, hw₁, hfiles⟩, hw₂, ?_⟩
    rw [← pullHead_iff h₁₂ hw₁, ← pullHead_iff (h₁₂.trans h₂) hw₁, hw₁, hw₂, hsha]
    simp only [Option.some.injEq]
    constructor
    · rintro ⟨rfl, rfl⟩
      exact ⟨rfl, rfl⟩
    · rintro ⟨rfl, rfl⟩
      exact ⟨rfl, rfl⟩
  · intro s n sha h hs hm
    obtain ⟨files, p, w₁, w₂, hc, ⟨c, hw₁, hfiles⟩, hw₂, hsha, h₁₂, h₂⟩ := checked_of_merges hs hm
    obtain ⟨i, x, title, message, next, r, l, hserves, -⟩ := hm
    have hstays := headStays hs i _ hserves.waits n w₁ (underReview_of_checked hc)
    have hnow := hstays s.log (h₁₂.trans h₂) List.suffix_rfl
    have hread := hstays w₂ h₁₂ h₂
    rw [hsha] at hnow
    rw [hw₂, ← hnow, Option.some.injEq] at hread
    rw [hw₁, Option.some.injEq] at hnow
    exact ⟨files, p, w₁, w₂, hc, hnow ▸ hfiles, hnow ▸ hw₁, hread⟩

/-! ## Runs -/

section
variable {isWord : Char → Bool} {teamRoot : Path} {bot : String} {s : TeamState ι} {i : ι} {n : Nat} {pr : PullInfo}
  {h : History Op Reply Raised (Log ι)}

def mergesNext (s : TeamState ι) (i : ι) : Option (Nat × History Op Reply Raised (Log ι)) :=
  match s.party i with
  | some ⟨.ceo, .call (.mergePr n _ _) _, h⟩ => some (n, h)
  | _ => none

omit [DecidableEq ι] in
theorem merges_of_next (hn : mergesNext s i = some (n, h)) (ho : isOpen n s.log = true)
    (hp : pullInfo n s.log = some pr) : Merges isWord teamRoot bot s n pr.headSha h := by
  unfold mergesNext at hn
  split at hn
  · rename_i n' title message next h' hparty
    cases hn
    have he : effect bot s.log ⟨i, .ceo⟩ (.mergePr n title message) () =
        some ((), [.merged n pr.headSha (some ⟨i, .ceo⟩)]) := by
      rw [effect, if_pos ho, hp, Option.map_some]
    have hserve : serve bot s.log i .ceo (.mergePr n title message) (.done noReply) =
        some (.ok (), [.merged n pr.headSha (some ⟨i, .ceo⟩)]) := by
      rw [serve, he, Option.map_some]
    exact ⟨i, .done noReply, title, message, next, _, _, ⟨hparty, hserve⟩, List.mem_singleton_self _⟩
  · cases hn

end

/-- A pull request whose one file and one check run are fine at `c1`; what is pushed as `c2` changes a secret. -/
def featureBranch : List (TeamAct Unit) := [
  .event (.pushed "feat" "c1"),
  .event (.opened 3 { login := "kola-backend-agent", branch := "feat", red := false }),
  .event (.described 3 { title := "feat: a", body := some "## What\n## Why\n## Test", draft := false }),
  .event (.diffed "c1" [⟨"apps/api/a.py", none, some "modified", some 1, some 0, none⟩]),
  .event (.diffed "c2" [⟨".env", none, some "modified", some 1, some 0, none⟩]),
  .event (.checked "c1" [⟨"tests", some "completed", some "success"⟩]),
  .event (.checked "c2" [⟨"tests", some "completed", some "success"⟩]),
  .start () .ceo]

def listingFeature : Answer := .done fun
  | .listOpenPrs => [{ number := 3, title := "feat: a", body := some "## What\n## Why\n## Test", draft := false,
                       login := "kola-backend-agent", headSha := "c1", labels := ∅ }]
  | o => noReply o

/-- The review up to the merge, with `between` after the files were read. -/
def reviewAround (between : List (TeamAct Unit)) : List (TeamAct Unit) :=
  featureBranch ++ List.replicate 3 (.answer () listingFeature) ++ between ++ List.replicate 3 (.answer () listingFeature)

def pushesFirst (s : TeamState Unit) : TeamAct Unit → Bool
  | .event (.pushed ..) => (s.party ()).isNone
  | _ => true

theorem keepsHeads_of_pushesFirst {s : TeamState Unit} {a : TeamAct Unit} (h : pushesFirst s a = true) :
    KeepsHeads s a := by
  rintro branch sha rfl ⟨⟩ p n w q hp
  rw [pushesFirst, hp] at h
  cases h

/-- The merge that is due takes `sha`, while the files were read at `read`. -/
def Due (read sha : String) (s : TeamState Unit) : Prop :=
  ∃ due ∈ mergesNext s (), due.1 = 3 ∧ isOpen 3 s.log = true ∧ (pullInfo 3 s.log).map PullInfo.headSha = some sha ∧
    ∃ reviewed ∈ underReview due.2, pullHead 3 reviewed.2 = some read

instance (read sha : String) (s : TeamState Unit) : Decidable (Due read sha s) :=
  inferInstanceAs (Decidable (∃ due ∈ mergesNext s (), _ ∧ _ ∧ _ ∧ ∃ reviewed ∈ underReview due.2, _))

theorem merges_of_due {read sha : String} {s : TeamState Unit} (h : Due read sha s) (isWord : Char → Bool)
    (teamRoot : Path) (bot : String) : ∃ seen, Merges isWord teamRoot bot s 3 sha seen ∧
      ∀ n w, underReview seen = some (n, w) → pullHead 3 w = some read := by
  obtain ⟨⟨n, seen⟩, hn, rfl, ho, hp, reviewed, hr, hread⟩ := h
  obtain ⟨pr, hinfo, rfl⟩ := Option.map_eq_some_iff.mp hp
  refine ⟨seen, merges_of_next hn ho hinfo, fun n w hu => ?_⟩
  cases hr.symm.trans hu
  exact hread

theorem merge_checked_run : ∃ (s : TeamState Unit) (h : _) (files : _) (p : PullInfo) (w₁ w₂ : _),
    Merges (fun _ => true) [] "kola-team-bot" s 3 "c1" h ∧ Checked (fun _ => true) 3 h files p w₁ w₂ ∧
      pullHead 3 w₁ = some "c1" ∧ p.headSha = "c1" ∧ ∃ files p w₁ w₂, Checked (fun _ => true) 3 h files p w₁ w₂ ∧
        ((pullHead 3 w₁ = some "c1" ∧ p.headSha = "c1") ↔ HeadKept 3 w₁ w₂ ∧ HeadKept 3 w₁ s.log) := by
  obtain ⟨s, hs, hd⟩ := Machine.reach_of_exec (teamMachine (fun _ => true) [] "kola-team-bot")
    (fun s a => pushesFirst s a = true) (reviewAround []) (Due "c1" "c1") (by decide +kernel)
  obtain ⟨seen, hm, -⟩ := merges_of_due hd (fun _ => true) [] "kola-team-bot"
  obtain ⟨files, p, w₁, w₂, hc, -, hread, hhead⟩ := (merge_checked (fun _ => true) [] "kola-team-bot").2 s 3 "c1" seen
    (hs.mono fun _ _ => keepsHeads_of_pushesFirst) hm
  obtain ⟨files', p', w₁', w₂', hc', -, -, hiff⟩ :=
    (merge_checked (fun _ => true) [] "kola-team-bot").1 s 3 "c1" seen hs.any hm
  exact ⟨s, seen, files, p, w₁, w₂, hm, hc, hread, hhead, files', p', w₁', w₂', hc', hiff⟩

/-- A push between the two reads: the files are those of `c1`, what is merged is `c2`. -/
theorem merge_unchecked : ¬∀ (s : TeamState Unit) n sha h,
    (teamMachine (fun _ => true) [] "kola-team-bot").Reach Machine.Any s →
      Merges (fun _ => true) [] "kola-team-bot" s n sha h → ∃ files p w₁ w₂,
        Checked (fun _ => true) n h files p w₁ w₂ ∧ pullHead n w₁ = some sha ∧ p.headSha = sha := by
  intro hall
  obtain ⟨s, hs, hd⟩ := Machine.reach_of_exec (teamMachine (fun _ => true) [] "kola-team-bot") Machine.Any
    (reviewAround [.event (.pushed "feat" "c2")]) (Due "c1" "c2") (by decide +kernel)
  obtain ⟨seen, hm, hread⟩ := merges_of_due hd (fun _ => true) [] "kola-team-bot"
  obtain ⟨files, p, w₁, w₂, hc, hw₁, -⟩ := hall s 3 "c2" seen hs hm
  have heq := (hread 3 w₁ (underReview_of_checked hc)).symm.trans hw₁
  exact absurd (Option.some.inj heq) (by decide)

end AdmissionScheduler.Orchestrator
