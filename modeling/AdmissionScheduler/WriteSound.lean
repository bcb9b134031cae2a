import AdmissionScheduler.BackendSound

/-!
# Where the backend agent writes

Validation trims a path and compares it with the forbidden patterns; writing
joins it to the worktree and lets the file system resolve it. The two agree on
plain relative paths, whatever white space is around them: every pattern has at
most one star, and no pattern begins or ends with what is trimmed. They come
apart where the path leaves the worktree or spells a forbidden path in another
way.
-/

namespace AdmissionScheduler.Orchestrator

open PosixPath PyText Program

/-! ## Patterns and trimming -/

/-- `prefix*suffix` or a literal, with nothing at its ends that trimming takes off. -/
def Sturdy (pattern : List Char) : Prop :=
  let a := pattern.takeWhile (· ≠ '*')
  let b := (pattern.dropWhile (· ≠ '*')).tail
  (∀ c ∈ a, Glob.Literal c) ∧ (∀ c ∈ b, Glob.Literal c) ∧ a ++ b ≠ [] ∧
    (∀ x ∈ (a ++ b).head?, isSpace x = false ∧ x ≠ '/') ∧ ∀ x ∈ (a ++ b).getLast?, isSpace x = false

-- not by going through all characters
instance (pattern : List Char) : Decidable (Sturdy pattern) :=
  letI (l : List Char) : Decidable (∀ c ∈ l, Glob.Literal c) := List.decidableBAll _ l
  letI (p : Char → Prop) [DecidablePred p] (o : Option Char) : Decidable (∀ c ∈ o, p c) := Option.decidableForallMem o
  inferInstanceAs (Decidable (_ ∧ _ ∧ _ ∧ _ ∧ _))

theorem sturdy_patterns : ∀ pat ∈ forbiddenPatterns, Sturdy pat.toList := by decide

theorem Sturdy.trim {pattern s : List Char} (hp : Sturdy pattern) (hs : Glob.fnmatch s pattern = true) :
    Glob.fnmatch (lstrip '/' (stripSpace s)) pattern = true := by
  obtain ⟨ha, hb, hne, hf, hl⟩ := hp
  have hstar := List.head?_dropWhile_not (· ≠ '*') pattern
  generalize hd : pattern.dropWhile (· ≠ '*') = r at hstar hb hne hf hl
  have heq : pattern = pattern.takeWhile (· ≠ '*') ++ r := by rw [← hd, List.takeWhile_append_dropWhile]
  generalize pattern.takeWhile (· ≠ '*') = a at heq ha hne hf hl
  subst heq
  cases r with
  | nil =>
    simp only [List.append_nil, List.tail_nil] at hs hne hf hl ⊢
    rw [Glob.fnmatch_literal ha] at hs ⊢
    obtain ⟨m', h, hm⟩ := trim_between (a := a) (b := []) (m := []) (by simpa) (by simpa) (by simpa)
    rw [hs]
    simpa [hm rfl] using h
  | cons c b =>
    obtain rfl : c = '*' := by simpa using hstar
    rw [List.tail_cons] at hb hne hf hl
    rw [Glob.fnmatch_around ha hb] at hs ⊢
    obtain ⟨m, rfl⟩ := hs
    obtain ⟨m', h, -⟩ := trim_between (m := m) hne hf hl
    exact ⟨m', h⟩

/-- What is forbidden is forbidden after trimming. -/
theorem matchesForbidden_trim {s : String} (h : matchesForbidden s ≠ none) :
    matchesForbidden (String.ofList (lstrip '/' (stripSpace s.toList))) ≠ none := by
  rw [matchesForbidden, Ne, List.find?_eq_none] at h ⊢
  push Not at h ⊢
  obtain ⟨pat, hm, hp⟩ := h
  refine ⟨pat, hm, ?_⟩
  rw [String.toList_ofList]
  exact (sturdy_patterns pat hm).trim hp

/-! ## Places -/

section
variable (wt : Worktree)

/-- In the worktree, on no forbidden path. -/
def Inside (p : Path) : Prop :=
  ∃ rel, relativeTo (resolve wt.path) (resolve p) = some rel ∧ matchesForbidden (String.ofList (text rel)) = none

/-- `s` leads out of the worktree. -/
def Leaves (s : String) : Prop := relativeTo (resolve wt.path) (resolve (join wt.path s.toList)) = none

/-- `s` is not plain, and leads to a forbidden path in the worktree. -/
def Disguises (s : String) : Prop :=
  ¬PosixPath.Plain s.toList ∧ ∃ rel, relativeTo (resolve wt.path) (resolve (join wt.path s.toList)) = some rel ∧
    matchesForbidden (String.ofList (text rel)) ≠ none

variable {wt} {s : String}

theorem inside_iff (hs : matchesForbidden (String.ofList (lstrip '/' (stripSpace s.toList))) = none) :
    Inside wt (join wt.path s.toList) ↔ ¬Leaves wt s ∧ ¬Disguises wt s := by
  by_cases hp : PosixPath.Plain s.toList
  · have hr : relativeTo (resolve wt.path) (resolve (join wt.path s.toList)) = some (s.toList.splitOn '/') := by
      rw [hp.resolve_join, relativeTo_append]
    have hf : matchesForbidden s = none := not_not.mp fun h => matchesForbidden_trim h hs
    refine iff_of_true ⟨_, hr, ?_⟩ ⟨fun h => (by cases hr.symm.trans h), fun h => h.1 hp⟩
    rw [text_splitOn, String.ofList_toList]
    exact hf
  · simp only [Inside, Leaves, Disguises, hp, not_false_iff, true_and]
    cases relativeTo (resolve wt.path) (resolve (join wt.path s.toList)) <;> simp

end

/-! ## Entries -/

namespace BackendAgent

variable {wt : Worktree} {f : Json} {c : GeneratedChanges} {l : List Json}

theorem of_violation (h : violation f = .ok none) : ∃ s, entryPath f = .ok s ∧
    matchesForbidden (String.ofList (lstrip '/' (stripSpace s.toList))) = none := by
  unfold violation at h
  cases f with
  | obj kvs =>
    have hg : ∀ v, given kvs "path" = some v → Json.field? kvs "path" = some v := fun v hv =>
      (Option.filter_eq_some_iff.mp hv).1
    cases hp : given kvs "path" with
    | none => simp [checkedPath, hp] at h
    | some v =>
      cases v with
      | str s =>
        refine ⟨s, by simp [entryPath, hg _ hp], ?_⟩
        simp only [checkedPath, hp] at h
        split at h
        · cases h
        · simpa using h
      | _ => simp [checkedPath, hp] at h
  | _ => simp [checkedPath] at h

theorem of_violations : ∀ {l : List Json}, violations l = .ok [] → ∀ f ∈ l, violation f = .ok none
  | [], _ => fun _ h => absurd h List.not_mem_nil
  | f :: l, h => by
    rw [violations] at h
    cases hf : violation f with
    | error e => rw [hf] at h; cases h
    | ok v =>
      cases hl : violations l with
      | error e => rw [hf, hl] at h; cases h
      | ok bad =>
        rw [hf, hl] at h
        have hn : v.toList ++ bad = [] := Except.ok.inj h
        obtain ⟨hv, rfl⟩ := List.append_eq_nil_iff.mp hn
        refine List.forall_mem_cons.mpr ⟨?_, of_violations hl⟩
        rw [hf, Option.toList_eq_nil_iff.mp hv]

def writable (wt : Worktree) (f : Json) : Bool :=
  match entryPath f, entryContent f with
  | .ok s, .ok _ => (join wt.path s.toList).all fun c => '\x00' ∉ c
  | _, _ => false

theorem writable_iff : writable wt f = true ↔ ∃ s content, entryPath f = .ok s ∧ entryContent f = .ok content ∧
    ∀ c ∈ join wt.path s.toList, '\x00' ∉ c := by
  unfold writable
  cases entryPath f <;> cases entryContent f <;> simp

variable {A : History Op Reply Raised Unit → Program.Entry Op Reply Raised Unit → Prop}
  {h : History Op Reply Raised Unit}

/-- Writing an entry is writing its own file, and needs all that `writable` asks for. -/
theorem meets_writeFile : Meets A
    (fun _ o => ∀ p content, o = .writeText p content → writable wt f = true ∧
      ∃ s, entryPath f = .ok s ∧ p = join wt.path s.toList)
    (fun _ r => r = .ok () → writable wt f = true) (writeFile wt f) h := by
  refine meets_bind.mpr (meets_done.mpr ?_)
  cases hp : entryPath f with
  | error e => exact fun hr => by cases hr
  | ok s =>
    refine meets_bind.mpr (meets_ite.mpr ⟨fun _ hr => (by cases hr), fun _ => ?_⟩)
    refine (meets_act (o := .mkdir _)).mpr ?_
    refine ⟨fun _ _ he => (by cases he), fun x t _ => ?_⟩
    rcases x with e | _
    · exact fun hr => (by cases hr)
    refine meets_bind.mpr (meets_done.mpr ?_)
    cases hc : entryContent f with
    | error e => exact fun hr => (by cases hr)
    | ok content =>
      refine meets_ite.mpr ⟨fun _ hr => (by cases hr), fun hz => ?_⟩
      have hw : writable wt f = true := writable_iff.mpr ⟨s, content, hp, hc, by simpa using hz⟩
      refine (meets_act (o := .writeText _ content)).mpr ?_
      refine ⟨fun p content he => ?_, fun _ _ _ _ => hw⟩
      cases he
      exact ⟨hw, s, rfl, rfl⟩

theorem meets_writeAll : Meets A
    (fun _ o => ∀ p content, o = .writeText p content →
      ∃ f ∈ l.takeWhile (writable wt), ∃ s, entryPath f = .ok s ∧ p = join wt.path s.toList)
    (fun _ _ => True) (Program.each (writeFile wt) l) h := by
  induction l generalizing h with
  | nil => trivial
  | cons f l ih =>
    refine meets_bind.mpr ((meets_writeFile.mono fun h r hr => ?_).weaken fun h o ho p content e => ?_)
    · rcases r with _ | _
      · trivial
      refine ih.weaken fun _ o ho p content e => ?_
      obtain ⟨g, hg, hs⟩ := ho p content e
      exact ⟨g, by simp [hr rfl, hg], hs⟩
    · obtain ⟨hw, hs⟩ := ho p content e
      exact ⟨f, by simp [hw], hs⟩

theorem runs_writeFile {s : String} (hw : writable wt f = true) (hs : entryPath f = .ok s) :
    ∃ content h', Runs (fun _ _ => True) (writeFile wt f) h
      (⟨.writeText (join wt.path s.toList) content, .ok (), ()⟩ :: h') (.ok ()) := by
  obtain ⟨s', content, hs', hc, hz⟩ := writable_iff.mp hw
  obtain rfl : s = s' := Except.ok.inj (hs.symm.trans hs')
  have hz' : ∀ c ∈ (join wt.path s.toList).dropLast, '\x00' ∉ c := fun c hm => hz c (List.dropLast_subset _ hm)
  let made : Program.Entry Op Reply Raised Unit := ⟨.mkdir (join wt.path s.toList).dropLast, .ok (), ()⟩
  let written : Program.Entry Op Reply Raised Unit := ⟨.writeText (join wt.path s.toList) content, .ok (), ()⟩
  have hm : Runs (fun _ _ => True) (guardZero (join wt.path s.toList).dropLast
      (act (.mkdir (join wt.path s.toList).dropLast))) h (made :: h) (.ok ()) := by
    rw [guardZero, if_neg (by simpa using hz')]
    exact .perform trivial
  have ht : Runs (fun _ _ => True) (guardZero (join wt.path s.toList)
      (act (.writeText (join wt.path s.toList) content))) (made :: h) (written :: made :: h) (.ok ()) := by
    rw [guardZero, if_neg (by simpa using hz)]
    exact .perform trivial
  refine ⟨content, made :: h, ?_⟩
  rw [writeFile, hs, hc]
  exact Runs.bind .done (hm.bind (Runs.bind .done ht))

/-- Every entry up to the first that is not writable gets written in some run. -/
theorem exists_write {s : String} (hf : f ∈ l.takeWhile (writable wt)) (hs : entryPath f = .ok s) :
    ∃ h' r, Runs (fun _ _ => True) (Program.each (writeFile wt) l) h h' r ∧
      ∃ e ∈ h', ∃ content, e.op = .writeText (join wt.path s.toList) content := by
  induction l generalizing h with
  | nil => cases hf
  | cons g l ih =>
    by_cases hg : writable wt g = true
    · obtain ⟨s', -, hs', -⟩ := writable_iff.mp hg
      obtain ⟨content, h₁, hr⟩ := runs_writeFile (h := h) hg hs'
      rw [List.takeWhile_cons_of_pos hg, List.mem_cons] at hf
      rcases hf with rfl | hf
      · obtain ⟨h', r, hl⟩ := exists_runs (A := fun _ _ => True) (fun _ _ => ⟨.error (.other ""), (), trivial⟩)
          (Program.each (writeFile wt) l) _
        obtain rfl : s = s' := Except.ok.inj (hs.symm.trans hs')
        exact ⟨h', r, hr.bind hl, _, hl.suffix.subset (List.mem_cons_self ..), content, rfl⟩
      · obtain ⟨h', r, hl, he⟩ := ih hf
        exact ⟨h', r, hr.bind hl, he⟩
    · rw [List.takeWhile_cons_of_neg hg] at hf
      cases hf

end BackendAgent

/-! ## Whole runs -/

section
open BackendAgent Worktree

variable {wt : Worktree} {B : Raised → Prop} {α : Type}

def WritesAccepted (wt : Worktree) (o : Op) : Prop := ∀ p content, o = .writeText p content → Accepted wt p

theorem writesAccepted_of_allowed {o : Op} (ho : Allowed wt o) : WritesAccepted wt o := by
  rintro p content rfl
  obtain h | ⟨p', content', heq, ha⟩ := ho
  · cases h
  · cases heq
    exact ha

theorem accepted_of_allowed {p : Agent α} (hp : Tame (Allowed wt) B p) : Tame (WritesAccepted wt) B p :=
  hp.mono fun _ => writesAccepted_of_allowed

theorem accepted_of_quiet {p : Agent α} (hp : Tame (isQuiet · = true) B p) : Tame (WritesAccepted wt) B p :=
  accepted_of_allowed (allowed_of_quiet hp)

theorem accepted_block {number : Nat} {reason : String} : Tame (WritesAccepted wt) IsBase (block number reason) :=
  .bind (tame_act fun _ _ h => by cases h) fun _ =>
    .bind (tame_catchingGitHub (tame_act fun _ _ h => by cases h) fun _ => trivial) fun _ =>
    .bind (tame_catchingGitHub (tame_act fun _ _ h => by cases h) fun _ => trivial) fun _ =>
    tame_act fun _ _ h => by cases h

theorem accepted_publish {issue : IssueInfo} {changes : GeneratedChanges} {test : TestResult} :
    Tame (WritesAccepted wt) IsBase (publish wt issue changes test) :=
  (accepted_of_quiet quiet_openPr).bind fun _ => (accepted_of_quiet quiet_commentPrWithTests).bind fun _ =>
    .bind (tame_act fun _ _ h => by cases h) fun _ => .bind (tame_act fun _ _ h => by cases h) fun _ =>
    .bind (tame_act fun _ _ h => by cases h) fun _ => tame_act fun _ _ h => by cases h

theorem accepted_implement {issue : IssueInfo} : Tame (WritesAccepted wt) IsBase (implement wt issue) := by
  refine .bind (tame_catchingGitHub (tame_act fun _ _ h => by cases h) fun _ => trivial) fun _ => ?_
  refine (accepted_of_quiet quiet_generateChanges).bind fun changes => ?_
  rcases changes with _ | changes
  · exact accepted_block
  refine .ofExcept_bind (ordinary_validatePaths changes) fun forbidden hv => ?_
  by_cases hf : forbidden = []
  · subst hf
    refine (accepted_of_allowed (allowed_writeFiles hv)).bind fun _ => ?_
    refine (accepted_of_allowed allowed_runTestsWithRetries).bind fun _ => ?_
    refine (accepted_of_quiet quiet_commitAndPush).bind fun msg => ?_
    cases msg with
    | none => exact accepted_publish
    | some msg => exact accepted_block
  · rw [if_pos hf]
    exact accepted_block

variable {A : History Op Reply Raised Unit → Program.Entry Op Reply Raised Unit → Prop}
  {G : History Op Reply Raised Unit → Op → Prop} {h : History Op Reply Raised Unit} {root : Path}

theorem meets_createWorktree {role : AgentRole} {issueId : Nat} {title : String}
    (hg : ∀ h o, isQuiet o = true → G h o) : Meets A G
      (fun _ r => ∀ wt, r = .ok wt → wt.path = worktreeDir root role issueId title)
      (createWorktree root role issueId title) h := by
  have hend : ∀ h, Meets A G (fun _ r => ∀ wt, r = .ok wt → wt.path = worktreeDir root role issueId title) (do
      configureIdentity (worktreeDir root role issueId title) role
      installHook root (worktreeDir root role issueId title)
      return ({ path := worktreeDir root role issueId title, branch := branchName role issueId title } : Worktree)) h :=
    fun h => quiet_configureIdentity.bind_meets hg (fun _ h => quiet_installHook.bind_meets hg
      (fun _ _ wt he => by cases he; rfl) fun _ _ _ he => by cases he) fun _ _ _ he => by cases he
  refine (quiet_act (B := IsBase) rfl).bind_meets hg (fun _ h => ?_) fun _ _ _ he => by cases he
  refine (quiet_act (B := IsBase) rfl).bind_meets hg (fun there h => meets_ite.mpr ⟨fun _ => ?_, fun _ => ?_⟩)
    fun _ _ _ he => by cases he
  · exact (quiet_act (B := IsBase) rfl).bind_meets hg (fun r h => meets_ite.mpr ⟨fun _ => hend h,
      fun _ _ he => by cases he⟩) fun _ _ _ he => by cases he
  · exact quiet_gitOrRaise.bind_meets hg (fun _ h => hend h) fun _ _ _ he => by cases he

/-- A write, if it is one, of an accepted file in the worktree of the issue. -/
def WritesOwn (root : Path) (issue : IssueInfo) (_ : History Op Reply Raised Unit) (o : Op) : Prop :=
  ∀ p content, o = .writeText p content →
    ∃ wt, wt.path = worktreeDir root backendRole issue.number issue.title ∧ Accepted wt p

variable {issue : IssueInfo}

theorem writesOwn_of_quiet : ∀ h o, isQuiet o = true → WritesOwn root issue h o := by
  rintro h o ho p content rfl
  cases ho

theorem meets_workOne : Meets A (WritesOwn root issue) (fun _ _ => True) (workOne root issue) h := by
  have hblock : ∀ (reason : String) h, Meets A (WritesOwn root issue) (fun _ _ => True) (block issue.number reason) h :=
    fun reason h => by
      have hb : Tame (WritesAccepted ⟨worktreeDir root backendRole issue.number issue.title, ""⟩) IsBase
          (block issue.number reason) := accepted_block
      exact hb.guarantee fun _ _ ho p content he => ⟨_, rfl, ho p content he⟩
  have hfailed : ∀ (e : Raised) h, Meets A (WritesOwn root issue)
      (fun _ r => ∀ wt : Worktree, r = .ok (some wt) → wt.path = worktreeDir root backendRole issue.number issue.title)
      (blockSetUp issue.number e) h := by
    intro e h
    cases e with
    | worktree e =>
      refine meets_bind.mpr ((hblock _ h).mono fun h r _ => ?_)
      rcases r with _ | _
      · exact fun _ he => by cases he
      · exact fun _ he => by cases he
    | _ => exact fun _ he => by cases he
  refine guarantee_bind (guarantee_act (writesOwn_of_quiet _ _ rfl)) fun _ h => ?_
  refine guarantee_bind (guarantee_act fun _ _ he => by cases he) fun _ h => ?_
  have hsetUp : Meets A (WritesOwn root issue)
      (fun _ r => ∀ wt, r = .ok (some wt) → wt.path = worktreeDir root backendRole issue.number issue.title)
      (setUp root issue) h := by
    refine meets_catching.mpr (quiet_ensureBaseUptodate.bind_meets writesOwn_of_quiet (fun _ h => ?_) fun h e => ?_)
    · refine meets_bind.mpr ((meets_createWorktree writesOwn_of_quiet).mono fun h r hr => ?_)
      rcases r with e | wt
      · exact hfailed e h
      · rintro _ ⟨⟩
        exact hr wt rfl
    · exact hfailed e h
  refine meets_bind.mpr (hsetUp.mono fun h r hr => ?_)
  rcases r with _ | (_ | wt)
  · trivial
  · trivial
  have hown : ∀ h o, WritesAccepted wt o → WritesOwn root issue h o :=
    fun h o ho p content he => ⟨wt, hr wt rfl, ho p content he⟩
  exact guarantee_ensuring (guarantee_catchingAll (accepted_implement.guarantee hown) fun e h => hblock _ h)
    fun h => quiet_cleanUp.guarantee writesOwn_of_quiet

end

open BackendAgent

def WritesInside (wt : Worktree) (h : History Op Reply Raised Unit) : Prop :=
  ∀ e ∈ h, ∀ p content, e.op = .writeText p content → Inside wt p

theorem writesInside_iff (wt : Worktree) (c : GeneratedChanges) (l : List Json) (hv : validatePaths c = .ok [])
    (hl : c.entries = .ok l) :
    (∀ h r, Runs (fun _ _ => True) (writeFiles wt c) [] h r → WritesInside wt h) ↔
      ∀ f ∈ l.takeWhile (writable wt), ∀ s, entryPath f = .ok s → ¬Leaves wt s ∧ ¬Disguises wt s := by
  have hw : writeFiles wt c = Program.each (writeFile wt) l := by rw [writeFiles, hl]; rfl
  have hf : ∀ f ∈ l.takeWhile (writable wt), ∀ s, entryPath f = .ok s →
      (Inside wt (join wt.path s.toList) ↔ ¬Leaves wt s ∧ ¬Disguises wt s) := by
    intro f hm s hs
    rw [validatePaths, hl] at hv
    obtain ⟨s', hs', ht⟩ := of_violation (of_violations hv f (List.takeWhile_subset _ hm))
    obtain rfl : s = s' := Except.ok.inj (hs.symm.trans hs')
    exact inside_iff ht
  rw [hw]
  constructor
  · intro hall f hm s hs
    obtain ⟨h, r, hr, e, he, content, ho⟩ := exists_write (h := []) hm hs
    exact (hf f hm s hs).mp (hall h r hr e he _ content ho)
  · intro hc h r hr e he p content ho
    obtain ⟨h₁, hsuf⟩ : ∃ h₁, e :: h₁ <:+ h := by
      obtain ⟨k, h₁, rfl⟩ := List.append_of_mem he
      exact ⟨h₁, List.suffix_append ..⟩
    have hg := (meets_writeAll.entries hr (fun e h₁ hs => by simpa using hs.length_le) e h₁ hsuf).1
    obtain ⟨f, hm, s, hs, rfl⟩ := hg p content ho
    exact (hf f hm s hs).mpr (hc f hm s hs)

/-- A run writes nothing but entries of answers that passed validation, to the worktree of its issue; and what such an
answer gets written stays inside exactly when no path leaves the worktree or spells a forbidden one in another way. -/
theorem writes_validated (root : Path) (issue : IssueInfo) :
    (∀ (h : History Op Reply Raised Unit) r, Runs (fun _ _ => True) (workOne root issue) [] h r →
      ∀ e ∈ h, ∀ p content, e.op = .writeText p content →
        ∃ wt, wt.path = Worktree.worktreeDir root backendRole issue.number issue.title ∧ Accepted wt p) ∧
    ∀ wt c l, validatePaths c = .ok [] → c.entries = .ok l →
      ((∀ h r, Runs (fun _ _ => True) (writeFiles wt c) [] h r → WritesInside wt h) ↔
        ∀ f ∈ l.takeWhile (writable wt), ∀ s, entryPath f = .ok s → ¬Leaves wt s ∧ ¬Disguises wt s) := by
  refine ⟨fun h r hr e he => ?_, writesInside_iff⟩
  obtain ⟨h₁, hsuf⟩ : ∃ h₁, e :: h₁ <:+ h := by
    obtain ⟨k, h₁, rfl⟩ := List.append_of_mem he
    exact ⟨h₁, List.suffix_append ..⟩
  exact (meets_workOne.entries hr (fun e h₁ hs => by simpa using hs.length_le) e h₁ hsuf).1

def answer (path : String) : GeneratedChanges where
  summary := "s"
  why := "w"
  files := .arr [.obj [("path", .str path), ("content", .str "x")]]
  tests := []
  testCommand := none

def someWorktree : Worktree := { path := ["work".toList, "41-task".toList], branch := "agents/backend/41-task" }

theorem writes_validated_run :
    (∀ h r, Runs (fun _ _ => True) (writeFiles someWorktree (answer "apps/api/utils/money.py")) [] h r →
        WritesInside someWorktree h) ↔
      ∀ f ∈ [Json.obj [("path", .str "apps/api/utils/money.py"), ("content", .str "x")]].takeWhile
          (writable someWorktree),
        ∀ s, entryPath f = .ok s → ¬Leaves someWorktree s ∧ ¬Disguises someWorktree s :=
  (writes_validated [] ⟨41, "task", ∅⟩).2 someWorktree (answer "apps/api/utils/money.py") _ rfl rfl

theorem writes_outside : ¬∀ wt c, validatePaths c = .ok [] →
    ∀ h r, Runs (fun _ _ => True) (writeFiles wt c) [] h r → WritesInside wt h := by
  intro hall
  have hv : validatePaths (answer "../pwned.py") = .ok [] := rfl
  have hp : entryPath (.obj [("path", .str "../pwned.py"), ("content", .str "x")]) = .ok "../pwned.py" := rfl
  have hf : .obj [("path", .str "../pwned.py"), ("content", .str "x")] ∈
      [.obj [("path", .str "../pwned.py"), ("content", .str "x")]].takeWhile (writable someWorktree) := by decide
  obtain ⟨h, r, hr, e, he, content, ho⟩ := exists_write (h := []) hf hp
  obtain ⟨rel, hrel, -⟩ := hall someWorktree _ hv h r hr e he _ content ho
  exact absurd hrel (by rw [show relativeTo _ _ = none by decide]; exact Option.some_ne_none _ ∘ Eq.symm)

end AdmissionScheduler.Orchestrator
