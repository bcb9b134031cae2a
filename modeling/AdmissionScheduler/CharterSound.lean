import AdmissionScheduler.ReviewSound
import Mathlib.Algebra.Order.BigOperators.Group.List

/-!
# What the charter's rules make of a pull request

§3 judges the runs and the files one at a time, but for the size of the diff,
which is a sum: the order says nothing, and what passes with more entries passes
with fewer. The authors and the paths it knows are patterns, whose language is
written out here, and §4 looks for keys in the lines that it takes for added.
-/

namespace AdmissionScheduler.Orchestrator

open PyText Program

/-! ## The verdict and the lists it is about -/

def changedLines (f : PrFile) : Int := f.additions.getD 0 + f.deletions.getD 0

structure CleanFile (f : PrFile) : Prop where
  allowed : matchesForbidden f.filename = none
  dependency : ¬(baseName f.filename ∈ depFilenames ∧ (f.status = some "added" ∨ f.status = some "modified"))
  finished : placeholder [f] = none

theorem diffTotal_eq (files : List PrFile) : diffTotal files = (files.map changedLines).sum := by
  rw [List.sum_eq_foldl, List.foldl_map]
  rfl

theorem changedDependency_eq_none {files : List PrFile} : changedDependency files = none ↔
    ∀ f ∈ files, ¬(baseName f.filename ∈ depFilenames ∧ (f.status = some "added" ∨ f.status = some "modified")) := by
  simp [changedDependency]

theorem placeholder_eq_none {files : List PrFile} : placeholder files = none ↔ ∀ f ∈ files, placeholder [f] = none := by
  unfold placeholder
  simp only [List.findSome?_eq_none_iff, List.mem_singleton, forall_eq]

/-- The verdict as a condition on each run, on each file, and on one sum. -/
theorem checkCharter3_ok_iff {pr : PullInfo} {files : List PrFile} {status : PrStatus} :
    (checkCharter3 pr files status).ok = true ↔
      (isAgentPr pr = true ∧ missingSection pr = none) ∧
        (status.checkRuns ≠ [] ∧ ∀ cr ∈ status.checkRuns, passing cr = true) ∧
          (∀ f ∈ files, CleanFile f) ∧ (files.map changedLines).sum < maxPrDiffLines := by
  have hclean : (∀ f ∈ files, CleanFile f) ↔ (∀ f ∈ files, matchesForbidden f.filename = none) ∧
      changedDependency files = none ∧ placeholder files = none := by
    rw [changedDependency_eq_none, placeholder_eq_none]
    constructor
    · intro h
      exact ⟨fun f hf => (h f hf).allowed, fun f hf => (h f hf).dependency, fun f hf => (h f hf).finished⟩
    · intro ⟨h₁, h₂, h₃⟩ f hf
      exact ⟨h₁ f hf, h₂ f hf, h₃ f hf⟩
  rw [checkCharter3_ok, hclean, diffTotal_eq]
  tauto

def Counted (f : PrFile) : Prop := 0 ≤ f.additions.getD 0 ∧ 0 ≤ f.deletions.getD 0

instance (f : PrFile) : Decidable (Counted f) := inferInstanceAs (Decidable (_ ∧ _))

theorem Counted.nonneg {f : PrFile} (h : Counted f) : 0 ≤ changedLines f := Int.add_nonneg h.1 h.2

section
variable {pr : PullInfo} {files files' : List PrFile} {status status' : PrStatus}

theorem ok_perm (hf : files.Perm files') (hr : status.checkRuns.Perm status'.checkRuns) :
    (checkCharter3 pr files status).ok = (checkCharter3 pr files' status').ok := by
  rw [Bool.eq_iff_iff, checkCharter3_ok_iff, checkCharter3_ok_iff, (hf.map changedLines).sum_eq]
  have hne : status.checkRuns ≠ [] ↔ status'.checkRuns ≠ [] := by
    rw [← List.length_pos_iff, ← List.length_pos_iff, hr.length_eq]
  simp only [hne, hf.mem_iff, hr.mem_iff]

theorem ok_sublist_files (hc : ∀ f ∈ files, Counted f) (hs : files'.Sublist files)
    (hok : (checkCharter3 pr files status).ok = true) : (checkCharter3 pr files' status).ok = true := by
  obtain ⟨hpr, hruns, hclean, hsum⟩ := checkCharter3_ok_iff.mp hok
  have hle : (files'.map changedLines).sum ≤ (files.map changedLines).sum := by
    refine (hs.map changedLines).sum_le_sum fun n hn => ?_
    obtain ⟨f, hf, rfl⟩ := List.mem_map.mp hn
    exact (hc f hf).nonneg
  exact checkCharter3_ok_iff.mpr ⟨hpr, hruns, fun f hf => hclean f (hs.subset hf), Int.lt_of_le_of_lt hle hsum⟩

theorem ok_sublist_runs (hs : status'.checkRuns.Sublist status.checkRuns) (hne : status'.checkRuns ≠ [])
    (hok : (checkCharter3 pr files status).ok = true) : (checkCharter3 pr files status').ok = true := by
  obtain ⟨hpr, ⟨-, hpass⟩, hclean, hsum⟩ := checkCharter3_ok_iff.mp hok
  exact checkCharter3_ok_iff.mpr ⟨hpr, ⟨hne, fun cr hcr => hpass cr (hs.subset hcr)⟩, hclean, hsum⟩

end

/-- The order of files and runs decides nothing, and leaving some out, but for the last run, keeps what passed. -/
theorem verdict_antitone (pr : PullInfo) (files files' : List PrFile) (status status' : PrStatus) :
    (files.Perm files' → status.checkRuns.Perm status'.checkRuns →
        (checkCharter3 pr files status).ok = (checkCharter3 pr files' status').ok) ∧
      ((∀ f ∈ files, Counted f) → files'.Sublist files →
        (checkCharter3 pr files status).ok = true → (checkCharter3 pr files' status).ok = true) ∧
      (status'.checkRuns.Sublist status.checkRuns → status'.checkRuns ≠ [] →
        (checkCharter3 pr files status).ok = true → (checkCharter3 pr files status').ok = true) ∧
      (∀ f, (∀ g ∈ files', Counted g) → files'.Perm (f :: files) →
        (checkCharter3 pr files status).ok = false → (checkCharter3 pr files' status).ok = false) ∧
      ∀ cr, status.checkRuns ≠ [] → status'.checkRuns.Perm (cr :: status.checkRuns) →
        (checkCharter3 pr files status).ok = false → (checkCharter3 pr files status').ok = false := by
  refine ⟨ok_perm, ok_sublist_files, ok_sublist_runs, ?_, ?_⟩
  · intro f hc hp hno
    have hc' : ∀ g ∈ f :: files, Counted g := fun g hg => hc g (hp.mem_iff.mpr hg)
    rw [ok_perm hp (List.Perm.refl _), Bool.eq_false_iff]
    intro hok
    rw [ok_sublist_files hc' (List.sublist_cons_self f files) hok] at hno
    cases hno
  · intro cr hne hp hno
    have hsame : (checkCharter3 pr files status').ok = (checkCharter3 pr files ⟨0, cr :: status.checkRuns⟩).ok :=
      ok_perm (List.Perm.refl _) hp
    rw [hsame, Bool.eq_false_iff]
    intro hok
    rw [ok_sublist_runs (List.sublist_cons_self cr _) hne hok] at hno
    cases hno

def docChange : PrFile where
  filename := "docs/README.md"
  previousFilename := none
  status := some "modified"
  additions := some 3
  deletions := some 1
  patch := some "@@ -1 +1,3 @@\n+Hello\n"

def testsPassed : CheckRun where
  name := "tests"
  status := some "completed"
  conclusion := some "success"

def envChange : PrFile := { docChange with filename := ".env" }

theorem docChange_clean : CleanFile docChange := ⟨by decide, by decide, by decide⟩

/-- A small change of the documentation passes, once a check has. -/
theorem docChange_ok {pr : PullInfo} {n : Int} (hpr : isAgentPr pr = true ∧ missingSection pr = none) :
    (checkCharter3 pr [docChange] ⟨n, [testsPassed]⟩).ok = true := by
  refine checkCharter3_ok_iff.mpr ⟨hpr, ⟨List.cons_ne_nil _ _, ?_⟩, ?_, by decide⟩
  · intro cr hcr
    rw [List.mem_singleton.mp hcr]
    decide
  · intro f hf
    rw [List.mem_singleton.mp hf]
    exact docChange_clean

theorem movedWorkflow_complete : isAgentPr movedWorkflow.info = true ∧ missingSection movedWorkflow.info = none :=
  ⟨by decide, by decide⟩

theorem envChange_refused {status : PrStatus} : (checkCharter3 movedWorkflow.info [envChange] status).ok = false := by
  rw [Bool.eq_false_iff]
  intro h
  have hallowed : matchesForbidden ".env" = none := ((checkCharter3_ok_iff.mp h).2.2.1 _ (.head _)).allowed
  exact absurd hallowed (by decide)

theorem no_runs_refused {pr : PullInfo} {files : List PrFile} {n : Int} : (checkCharter3 pr files ⟨n, []⟩).ok = false := by
  rw [Bool.eq_false_iff]
  intro h
  exact (checkCharter3_ok_iff.mp h).2.1.1 rfl

theorem verdict_antitone_doc :
    (checkCharter3 movedWorkflow.info [docChange, envChange] ⟨1, [testsPassed]⟩).ok = false ∧
      (checkCharter3 movedWorkflow.info [] ⟨1, [testsPassed]⟩).ok = true := by
  constructor
  · exact (verdict_antitone movedWorkflow.info [envChange] [docChange, envChange] ⟨1, [testsPassed]⟩ ⟨0, []⟩).2.2.2.1
      docChange (by decide) (List.Perm.refl _) envChange_refused
  · exact (verdict_antitone movedWorkflow.info [docChange] [] ⟨1, [testsPassed]⟩ ⟨0, []⟩).2.1
      (by decide) (List.nil_sublist _) (docChange_ok movedWorkflow_complete)

/-- A run is what a pull request without any was refused for. -/
theorem first_run_accepts : ¬ ∀ (pr : PullInfo) (files : List PrFile) (runs : List CheckRun) (cr : CheckRun) (n : Int),
    (∀ f ∈ files, Counted f) → (checkCharter3 pr files ⟨n, runs⟩).ok = false →
      (checkCharter3 pr files ⟨n + 1, cr :: runs⟩).ok = false := by
  intro h
  have hno := h movedWorkflow.info [docChange] [] testsPassed 0 (by decide) no_runs_refused
  rw [docChange_ok movedWorkflow_complete] at hno
  cases hno

/-! ## The accounts -/

def teamAccounts : List String :=
  agentRoles.map (fun r => "kola-" ++ r ++ "-agent") ++ ["kola-team-bot", "kola-team-bot[bot]"]

/-- A login that is no account of the team and matches all the same. -/
def Lookalike (login : String) : Prop :=
  (∃ r ∈ agentRoles, login = "kola-" ++ r ++ "-agent\n") ∨
    ∃ rest, login = "kola-team-bot" ++ rest ∧ rest ≠ "" ∧ rest ≠ "[bot]"

theorem prefix_iff {a s : String} : a.toList.isPrefixOf s.toList = true ↔ ∃ rest, s = a ++ rest := by
  rw [List.isPrefixOf_iff_prefix]
  constructor
  · intro ⟨rest, h⟩
    exact ⟨String.ofList rest, by rw [← String.toList_inj, String.toList_append, String.toList_ofList, h]⟩
  · rintro ⟨rest, rfl⟩
    rw [String.toList_append]
    exact List.prefix_append ..

theorem agentUser_iff {login : String} : agentUser login = true ↔ login ∈ teamAccounts ∨ Lookalike login := by
  have hroles : agentRoles.any (fun r => login = "kola-" ++ r ++ "-agent" ∨ login = "kola-" ++ r ++ "-agent\n") = true ↔
      login ∈ agentRoles.map (fun r => "kola-" ++ r ++ "-agent") ∨
        ∃ r ∈ agentRoles, login = "kola-" ++ r ++ "-agent\n" := by
    simp only [List.any_eq_true, decide_eq_true_eq, List.mem_map, and_or_left, exists_or, @eq_comm _ _ login]
  have hbot : (∃ rest, login = "kola-team-bot" ++ rest) ↔ login ∈ ["kola-team-bot", "kola-team-bot[bot]"] ∨
      ∃ rest, login = "kola-team-bot" ++ rest ∧ rest ≠ "" ∧ rest ≠ "[bot]" := by
    constructor
    · rintro ⟨rest, rfl⟩
      by_cases h₁ : rest = ""
      · exact .inl (by simp [h₁])
      by_cases h₂ : rest = "[bot]"
      · exact .inl (by simp [h₂])
      exact .inr ⟨rest, rfl, h₁, h₂⟩
    · rintro (h | ⟨rest, h, -⟩)
      · rcases List.mem_pair.mp h with rfl | rfl
        · exact ⟨"", rfl⟩
        · exact ⟨"[bot]", rfl⟩
      · exact ⟨rest, h⟩
  rw [agentUser, Bool.or_eq_true, prefix_iff, hroles, hbot, teamAccounts, List.mem_append, Lookalike]
  exact or_or_or_comm

theorem not_team_of_lookalike {login : String} (h : Lookalike login) : login ∉ teamAccounts := by
  rcases h with ⟨r, hr, rfl⟩ | ⟨rest, rfl, h₁, h₂⟩
  · revert r
    decide
  · have hbot : ∀ a ∈ teamAccounts, "kola-team-bot".toList.isPrefixOf a.toList = true →
        a ∈ ["kola-team-bot", "kola-team-bot[bot]"] := by decide
    intro hm
    have hcut : ∀ s, "kola-team-bot" ++ rest = "kola-team-bot" ++ s → rest = s := by
      intro s h
      rwa [← String.toList_inj, String.toList_append, String.toList_append, List.append_cancel_left_eq,
        String.toList_inj] at h
    rcases List.mem_pair.mp (hbot _ hm (prefix_iff.mpr ⟨rest, rfl⟩)) with h | h
    · exact h₁ (hcut "" h)
    · exact h₂ (hcut "[bot]" h)

/-- A review of a pull request by nobody the rules know asks for nothing. -/
theorem review_idle {isWord : Char → Bool} {pr : PullInfo} (hno : isAgentPr pr = false)
    {A : History Op Reply Raised Unit → Program.Entry Op Reply Raised Unit → Prop} {h : History Op Reply Raised Unit}
    {r : Except Raised Unit} (hr : Runs A (CeoAgent.reviewPr isWord pr) [] h r) : h = [] := by
  have hdone : CeoAgent.reviewPr isWord pr = pure () := by simp [CeoAgent.reviewPr, hno]
  rw [hdone] at hr
  cases hr
  rfl

/-- Exactly the lookalikes are taken for the team; what is taken for nobody is never merged. -/
theorem agents_exact (isWord : Char → Bool) (pr : PullInfo) :
    ((isAgentPr pr = true ↔ pr.login ∈ teamAccounts) ∧
        (pr.login ∉ teamAccounts → ∀ (A : History Op Reply Raised Unit → Program.Entry Op Reply Raised Unit → Prop) h r,
          Runs A (CeoAgent.reviewPr isWord pr) [] h r → ∀ e ∈ h, isMerge e.op = false)) ↔
      ¬Lookalike pr.login := by
  have hiff : isAgentPr pr = true ↔ pr.login ∈ teamAccounts ∨ Lookalike pr.login := agentUser_iff
  constructor
  · intro ⟨h, _⟩ hl
    exact not_team_of_lookalike hl (h.mp (hiff.mpr (.inr hl)))
  · intro hl
    have hteam : isAgentPr pr = true ↔ pr.login ∈ teamAccounts := by rw [hiff, or_iff_left hl]
    refine ⟨hteam, ?_⟩
    intro hno A h r hr e he
    rw [review_idle (Bool.eq_false_iff.mpr (mt hteam.mp hno)) hr] at he
    cases he

/-- Anyone may register a name that begins like the bot's. -/
def outsider : PullRequest where
  info := { movedWorkflow.info with login := "kola-team-bot-evil" }
  files := [docChange]
  checkRuns := [testsPassed]
  workflowRuns := []

theorem docChange_safe : (checkCharter4 (fun _ => false) [docChange]).ok = true := by
  rw [checkCharter4, firstReason_ok]
  simp only [List.forall_mem_cons, List.not_mem_nil, false_imp_iff, implies_true, and_true, forbiddenFile_eq_none]
  exact ⟨docChange_clean.allowed, by decide, by decide⟩

theorem outsider_merged : outsider.info.login ∉ teamAccounts ∧ isAgentPr outsider.info = true ∧
    ∃ h r, Runs (fun _ => outsider.FirstPage) (CeoAgent.reviewPr (fun _ => false) outsider.info) [] h r ∧
      ∃ e ∈ h, isMerge e.op = true := by
  have hagent : isAgentPr outsider.info = true := by decide
  have ha : Accepts (fun _ => false) outsider.info outsider.files ⟨1, outsider.checkRuns⟩ :=
    ⟨rfl, docChange_safe, docChange_ok ⟨hagent, movedWorkflow_complete.2⟩⟩
  exact ⟨by decide, hagent, PullRequest.exists_merge (.inl rfl) ha⟩

/-! ## The zones -/

/-- What stands before and after the star of the patterns that have one. -/
def wildZones : List (String × String) := [
  (".env.", ""), ("", ".env"),
  ("docker-compose", ".yml"), ("Dockerfile", ""),
  ("infra/docker/", ""),
  (".github/", ""),
  ("apps/api/alembic/versions/", ""),
  ("alembic/versions/", ""),
  ("apps/api/routers/auth", ".py"), ("apps/api/routers/auth/", ""),
  ("apps/api/services/aml_service", ".py"),
  ("apps/api/services/kyc_service", ".py"),
  ("apps/api/models/", ""), ("apps/api/config", ".py"),
  ("apps/web/next.config.", "")]

def plainZones : List String := [
  ".env", ".dockerignore", "apps/api/alembic.ini", "alembic.ini", "apps/api/models.py", "apps/api/db.py",
  "apps/api/main.py", "apps/web/tsconfig.json", "apps/web/package.json", "apps/web/middleware.ts",
  "apps/web/app/layout.tsx", "CODEOWNERS"]

def zoneDirectories : List String := [
  "infra/docker/", ".github/", "apps/api/alembic/versions/", "alembic/versions/", "apps/api/routers/auth/",
  "apps/api/models/"]

/-- `path` lies between the two halves of a pattern, which do not overlap. -/
def InZone (path : String) (z : String × String) : Prop := ∃ m, path = z.1 ++ m ++ z.2

theorem forbiddenPatterns_perm :
    forbiddenPatterns.Perm (plainZones ++ wildZones.map fun z => z.1 ++ "*" ++ z.2) := by decide

theorem forbidden_iff {path : String} :
    (matchesForbidden path).isSome = true ↔ path ∈ plainZones ∨ ∃ z ∈ wildZones, InZone path z := by
  have hplain : ∀ pat ∈ plainZones, Glob.Literals pat.toList := by decide
  have hwild : ∀ z ∈ wildZones, Glob.Literals z.1.toList ∧ Glob.Literals z.2.toList := by decide
  have hstar : ∀ z ∈ wildZones, Glob.fnmatch path.toList (z.1 ++ "*" ++ z.2).toList = true ↔ InZone path z := by
    intro z hz
    have htext : (z.1 ++ "*" ++ z.2).toList = z.1.toList ++ '*' :: z.2.toList := by simp
    rw [htext, Glob.fnmatch_around (hwild z hz).1 (hwild z hz).2]
    constructor
    · intro ⟨m, h⟩
      exact ⟨String.ofList m, by rw [← String.toList_inj, h]; simp⟩
    · rintro ⟨m, rfl⟩
      exact ⟨m.toList, by simp⟩
  rw [matchesForbidden, List.find?_isSome]
  simp only [forbiddenPatterns_perm.mem_iff, List.mem_append, List.mem_map, or_and_right, exists_or]
  refine or_congr ?_ ?_
  · constructor
    · intro ⟨pat, hm, hpat⟩
      rwa [← String.toList_inj.mp ((Glob.fnmatch_literal (hplain pat hm)).mp hpat)] at hm
    · intro hm
      exact ⟨path, hm, (Glob.fnmatch_literal (hplain path hm)).mpr rfl⟩
  · constructor
    · rintro ⟨-, ⟨z, hz, rfl⟩, hm⟩
      exact ⟨z, hz, (hstar z hz).mp hm⟩
    · intro ⟨z, hz, hm⟩
      exact ⟨_, ⟨z, hz, rfl⟩, (hstar z hz).mpr hm⟩

def IsDirectory (d : String) : Prop := d = "" ∨ ∃ e, d = e ++ "/"

def EnvName (b : String) : Prop := b = ".env" ∨ (∃ x, b = ".env." ++ x) ∨ ∃ x, b = x ++ ".env"

theorem suffix_iff {a s : String} : a.toList <:+ s.toList ↔ ∃ x, s = x ++ a := by
  constructor
  · intro ⟨x, h⟩
    exact ⟨String.ofList x, by rw [← String.toList_inj, String.toList_append, String.toList_ofList, h]⟩
  · rintro ⟨x, rfl⟩
    rw [String.toList_append]
    exact List.suffix_append ..

theorem envName_length {b : String} (hb : EnvName b) : ".env".toList.length ≤ b.toList.length := by
  rcases hb with rfl | ⟨x, rfl⟩ | ⟨x, rfl⟩ <;> simp

/-- An end that is shorter than a file's name is an end of the name. -/
theorem ends_env_iff {d b : String} (hb : EnvName b) : InZone (d ++ b) ("", ".env") ↔ ∃ x, b = x ++ ".env" := by
  constructor
  · intro ⟨m, h⟩
    have hs : ".env".toList <:+ (d ++ b).toList := suffix_iff.mpr ⟨m, by simpa using h⟩
    rw [String.toList_append] at hs
    exact suffix_iff.mp (List.suffix_of_suffix_length_le hs (List.suffix_append ..) (envName_length hb))
  · rintro ⟨x, rfl⟩
    exact ⟨d ++ x, by simp [String.append_assoc]⟩

theorem begins_env_iff {d b : String} (hd : IsDirectory d) (hne : d ≠ "") :
    InZone (d ++ b) (".env.", "") ↔ ∃ x, d = ".env." ++ x := by
  constructor
  · intro ⟨m, h⟩
    have hp : ".env.".toList <+: (d ++ b).toList := by
      rw [← List.isPrefixOf_iff_prefix]
      exact prefix_iff.mpr ⟨m, by simpa using h⟩
    obtain ⟨e, rfl⟩ := hd.resolve_left hne
    rw [String.toList_append] at hp
    rcases List.prefix_or_prefix_of_prefix hp (List.prefix_append ..) with hp | hp
    · exact prefix_iff.mp (List.isPrefixOf_iff_prefix.mpr hp)
    · have hslash : '/' ∈ ".env.".toList := hp.subset (by simp)
      exact absurd hslash (by decide)
  · rintro ⟨x, rfl⟩
    exact ⟨x ++ b, by simp [String.append_assoc]⟩

theorem plain_not_env {d x : String} : d ++ (".env." ++ x) ∉ plainZones := by
  have hno : ∀ p ∈ plainZones, ¬".env.".toList <:+: p.toList := by decide
  intro hm
  refine hno _ hm ⟨d.toList, x.toList, ?_⟩
  simp

/-- A file that holds settings of an environment is forbidden at the root, or by how its name ends, or with its place. -/
theorem env_forbidden_iff {d b : String} (hd : IsDirectory d) (hb : EnvName b) :
    ((matchesForbidden (d ++ b)).isSome = true ∧
        ∀ zone ∈ zoneDirectories, ∀ path, (matchesForbidden (zone ++ path)).isSome = true) ↔
      d = "" ∨ (∃ x, b = x ++ ".env") ∨ (∃ x, d = ".env." ++ x) ∨ ∃ z ∈ wildZones.drop 2, InZone (d ++ b) z := by
  have hzones : ∀ zone ∈ zoneDirectories, ∀ path, (matchesForbidden (zone ++ path)).isSome = true := by
    intro zone hz path
    have hw : (zone, "") ∈ wildZones := by
      revert zone
      decide
    exact forbidden_iff.mpr (.inr ⟨(zone, ""), hw, path, by simp⟩)
  rw [and_iff_left hzones, forbidden_iff]
  by_cases hroot : d = ""
  · subst hroot
    refine iff_of_true ?_ (.inl rfl)
    rcases hb with rfl | ⟨x, rfl⟩ | ⟨x, rfl⟩
    · exact .inl (by decide)
    · exact .inr ⟨(".env.", ""), by decide, x, by simp⟩
    · exact .inr ⟨("", ".env"), by decide, x, by simp⟩
  · have hsplit : (∃ z ∈ wildZones, InZone (d ++ b) z) ↔ (∃ x, d = ".env." ++ x) ∨ (∃ x, b = x ++ ".env") ∨
        ∃ z ∈ wildZones.drop 2, InZone (d ++ b) z := by
      rw [← begins_env_iff hd hroot (b := b), ← ends_env_iff (d := d) hb]
      simp [wildZones]
    rw [hsplit, or_iff_right hroot]
    constructor
    · rintro (hm | h)
      · rcases hb with rfl | ⟨x, rfl⟩ | hx
        · exact .inl ⟨"", by simp⟩
        · exact absurd hm plain_not_env
        · exact .inl hx
      · tauto
    · tauto

theorem env_forbidden_nested : (matchesForbidden ("apps/api/" ++ "local.env")).isSome = true :=
  ((env_forbidden_iff (.inr ⟨"apps/api", rfl⟩) (.inr (.inr ⟨"local", rfl⟩))).mpr (.inr (.inl ⟨"local", rfl⟩))).1

theorem nested_env_allowed : IsDirectory "apps/api/" ∧ EnvName ".env.local" ∧
    matchesForbidden ("apps/api/" ++ ".env.local") = none :=
  ⟨.inr ⟨"apps/api", rfl⟩, .inr (.inl ⟨"local", rfl⟩), by decide⟩

/-! ## Keys in added lines -/

/-- The lines of a patch as git cuts it. -/
def gitLines (f : PrFile) : List (List Char) := (f.patch.getD "").toList.splitOn '\n'

/-- The contents of the lines that a patch without file headers adds. -/
def addedContents (f : PrFile) : List (List Char) := ((gitLines f).filter "+".toList.isPrefixOf).map (List.drop 1)

def AddsKey (files : List PrFile) : Prop := ∃ f ∈ files, ∃ c ∈ addedContents f, hasSecret c = true

/-- A line of git's, cut at all of Python's line breaks, has a piece that counts as added and holds a key. -/
def Shown (g : List Char) : Prop := ∃ piece ∈ splitlines g, isAddedLine piece = true ∧ hasSecret piece = true

/-- No key begins with a plus sign. -/
theorem hasSecret_plus {s : List Char} : hasSecret ('+' :: s) = hasSecret s := by
  have hno : secretHere ('+' :: s) = false := by simp [secretHere, keyHere]
  rw [hasSecret, List.tails, List.any_cons, hno, Bool.false_or]
  rfl

theorem addedSecret_iff {files : List PrFile} :
    (addedSecret files).isSome = true ↔ ∃ f ∈ files, ∃ g ∈ gitLines f, Shown g := by
  have hany : ∀ s, (splitlines s).any (fun line => isAddedLine line && hasSecret line) =
      (s.splitOn '\n').any fun g => (splitlines g).any fun line => isAddedLine line && hasSecret line :=
    any_splitlines (by decide)
  rw [addedSecret, Option.isSome_map, List.find?_isSome]
  refine exists_congr fun f => and_congr_right fun _ => ?_
  rw [patchLines, hany]
  simp only [gitLines, Shown, List.any_eq_true, Bool.and_eq_true]

theorem checkCharter4_refuses {isWord : Char → Bool} {files : List PrFile} : (checkCharter4 isWord files).ok = false ↔
    (∃ f ∈ files, (matchesForbidden f.filename).isSome = true) ∨ (prodInConfig isWord files).isSome = true ∨
      ∃ f ∈ files, ∃ g ∈ gitLines f, Shown g := by
  have hfile : (∃ f ∈ files, (matchesForbidden f.filename).isSome = true) ↔
      ¬∀ f ∈ files, matchesForbidden f.filename = none := by
    simp [Option.isSome_iff_ne_none]
  rw [Bool.eq_false_iff, ne_eq, checkCharter4, firstReason_ok, ← addedSecret_iff, hfile]
  simp only [List.forall_mem_cons, List.not_mem_nil, false_imp_iff, implies_true, and_true, forbiddenFile_eq_none,
    Option.isSome_iff_ne_none]
  tauto

theorem splitlines_whole {s : List Char} (hne : s ≠ []) (hs : ∀ c ∈ s, isLineBreak c = false) : splitlines s = [s] := by
  induction s with
  | nil => exact absurd rfl hne
  | cons c s ih =>
    rw [splitlines_cons (hs c (List.mem_cons_self ..))]
    cases s with
    | nil => rfl
    | cons d s => rw [ih (List.cons_ne_nil d s) fun x hx => hs x (List.mem_cons_of_mem c hx)]; rfl

/-- What hides a key is a content that looks like a file's header, or a line break that is not git's. -/
theorem shown_of_plain {c : List Char} (hsec : hasSecret c = true) (hhead : ¬"++".toList <+: c)
    (hbreak : ∀ x ∈ c, isLineBreak x = false) : Shown ('+' :: c) := by
  have hwhole : splitlines ('+' :: c) = ['+' :: c] :=
    splitlines_whole (List.cons_ne_nil _ _) (List.forall_mem_cons.mpr ⟨rfl, hbreak⟩)
  have hadded : isAddedLine ('+' :: c) = true := by
    rw [← List.isPrefixOf_iff_prefix, Bool.not_eq_true] at hhead
    have htriple : "+++".toList.isPrefixOf ('+' :: c) = "++".toList.isPrefixOf c := rfl
    rw [isAddedLine, htriple, hhead]
    rfl
  exact ⟨'+' :: c, by rw [hwhole]; exact List.mem_singleton.mpr rfl, hadded, by rw [hasSecret_plus, hsec]⟩

/-- A pull request that adds a key is refused exactly when it is refused anyway or a key stands where it is looked for. -/
theorem keys_refused_iff (isWord : Char → Bool) (files : List PrFile) :
    ((AddsKey files → (checkCharter4 isWord files).ok = false) ↔
      (AddsKey files → (∃ f ∈ files, (matchesForbidden f.filename).isSome = true) ∨
        (prodInConfig isWord files).isSome = true ∨ ∃ f ∈ files, ∃ g ∈ gitLines f, Shown g)) ∧
    ∀ f ∈ files, ∀ c ∈ addedContents f, hasSecret c = true → ¬"++".toList <+: c →
      (∀ x ∈ c, isLineBreak x = false) → (checkCharter4 isWord files).ok = false := by
  constructor
  · rw [checkCharter4_refuses]
  · intro f hf c hc hsec hhead hbreak
    obtain ⟨g, hg, rfl⟩ := List.mem_map.mp hc
    obtain ⟨hg, hplus⟩ := List.mem_filter.mp hg
    obtain ⟨c, rfl⟩ := List.isPrefixOf_iff_prefix.mp hplus
    exact checkCharter4_refuses.mpr (.inr (.inr ⟨f, hf, _, hg, shown_of_plain hsec hhead hbreak⟩))

def oneLine (content : String) : PrFile where
  filename := "docs/setup.md"
  previousFilename := none
  status := some "added"
  additions := some 1
  deletions := some 0
  patch := some ("@@ -0,0 +1 @@\n+" ++ content)

theorem plain_key_refused : AddsKey [oneLine "key=sk-0123456789abcdef"] ∧
    (checkCharter4 (fun _ => false) [oneLine "key=sk-0123456789abcdef"]).ok = false := by
  have hadded : "key=sk-0123456789abcdef".toList ∈ addedContents (oneLine "key=sk-0123456789abcdef") := by decide
  have hfile := List.mem_singleton_self (oneLine "key=sk-0123456789abcdef")
  have hbreak : ∀ x ∈ "key=sk-0123456789abcdef".toList, isLineBreak x = false := by simp [isLineBreak]
  exact ⟨⟨_, hfile, _, hadded, by decide⟩, (keys_refused_iff _ _).2 _ hfile _ hadded (by decide) (by decide) hbreak⟩

/-- Content that begins with plus signs, as a line of a patch in a patch would. -/
def leak : PrFile := oneLine "++sk-0123456789abcdef"

theorem hidden_key : AddsKey [leak] ∧ (checkCharter4 (fun _ => false) [leak]).ok = true :=
  ⟨⟨leak, by decide, "++sk-0123456789abcdef".toList, by decide, by decide⟩, by decide⟩

end AdmissionScheduler.Orchestrator
