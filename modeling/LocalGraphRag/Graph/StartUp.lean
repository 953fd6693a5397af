import LocalGraphRag.Systems.Runs
import LocalGraphRag.Graph.MigrationMeaning

/-!
# Concurrent start-up

Any number of processes construct a `GraphStore` on one file at the same time. The
baseline script runs outside the lock, one statement after the other; the version
is read once without the lock and once more under it. A process can fail at any
statement, and others can write to the file once their constructor has returned.

## Implementation notes

A reader sees the last commit. A statement that has to write waits for the write
lock, so its event is not possible while another process holds the lock, and a
process that gives up waiting fails. The baseline script never redefines a table,
because a migration that drops one creates it again before anyone can see it gone.
-/

namespace LocalGraphRag.Graph

open Relational Systems

/-- Where a process is in the constructor. -/
inductive Phase where
  | script (rest : List Definition)
  | check
  | begin
  | reread
  | migrating (rest : List Statement)
  | returned
  | failed
  deriving DecidableEq

/-- The open write transaction: its owner, the file as the owner sees it, and the
migration statements executed in it. -/
structure WriteTransaction where
  owner : Nat
  work : Database
  executed : List Statement

/-- The last commit, the open transaction, the processes, and as a history variable
the migration statements that were committed. -/
@[ext] structure StartUp where
  file : Database
  writer : Option WriteTransaction
  phase : Nat → Phase
  executed : List Statement

/-- A process executes its next statement, or fails there, or writes rows after its
constructor has returned. -/
inductive StartUpEvent where
  | next (p : Nat)
  | fail (p : Nat)
  | write (p : Nat) (db : Database)

namespace StartUp

/-- All processes are about to start. -/
def start (db : Database) : StartUp := ⟨db, none, fun _ => .script baseline, []⟩

/-- The process goes on to another phase. -/
def goTo (σ : StartUp) (p : Nat) (phase : Phase) : StartUp :=
  { σ with phase := Function.update σ.phase p phase }

/-- One statement of the constructor. -/
def next (σ : StartUp) (p : Nat) : Option StartUp :=
  match σ.phase p with
  | .script [] => some (σ.goTo p .check)
  | .script (o :: rest) =>
      if σ.file.Has o.name then some (σ.goTo p (.script rest))
      else match σ.writer, σ.file.create o with
        | none, .ok db => some ({ σ with file := db }.goTo p (.script rest))
        | _, _ => none
  | .check =>
      if migrations.length ≤ σ.file.userVersion then some (σ.goTo p .returned)
      else some (σ.goTo p .begin)
  | .begin =>
      if σ.writer.isNone then
        some ({ σ with writer := some ⟨p, σ.file, []⟩ }.goTo p .reread)
      else none
  | .reread => do
      let tx ← σ.writer
      return σ.goTo p (.migrating (migrationStatements tx.work.userVersion))
  | .migrating [] => do
      let tx ← σ.writer
      return { σ with
        file := tx.work
        writer := none
        executed := σ.executed ++ tx.executed }.goTo p .returned
  | .migrating (statement :: rest) => do
      let tx ← σ.writer
      let db ← (statement.exec tx.work).toOption
      return { σ with
        writer := some ⟨tx.owner, db, tx.executed ++ [statement]⟩ }.goTo p (.migrating rest)
  | .returned => none
  | .failed => none

/-- An exception or a crash: an open transaction of the process is rolled back. -/
def fail (σ : StartUp) (p : Nat) : StartUp :=
  { σ with writer := σ.writer.filter fun tx => tx.owner ≠ p }.goTo p .failed

/-- A committed transaction of a process whose constructor has returned. -/
def write (σ : StartUp) (p : Nat) (db : Database) : Option StartUp :=
  if σ.phase p = .returned ∧ σ.writer.isNone ∧ db.userVersion = σ.file.userVersion ∧
      db.objects = σ.file.objects then
    some { σ with file := db }
  else none

def step (σ : StartUp) : StartUpEvent → Option StartUp
  | .next p => σ.next p
  | .fail p => some (σ.fail p)
  | .write p db => σ.write p db

end StartUp

/-- The objects after a statement that succeeds. -/
def Statement.define (objects : Finset Definition) : Statement → Finset Definition
  | .createIfNotExists o =>
      if ∃ o' ∈ objects, o'.name = o.name then objects else insert o objects
  | .create o => insert o objects
  | .dropTable name => objects.filter fun o => o.name ≠ name ∧ o.on ≠ some name
  | _ => objects

/-- The version after a statement that succeeds. -/
def Statement.versionAfter (version : Nat) : Statement → Nat
  | .setUserVersion version' => version'
  | _ => version

/-- The schema that the first migrations leave. -/
def schemaAt (version : Nat) : Finset Definition :=
  (migrations.take version).flatten.foldl Statement.define baseline.toFinset

theorem schemaAt_migrated : schemaAt migrations.length = migratedSchema := by decide

theorem clear_userVersion (db : Database) (o : Definition) :
    (db.clear o).userVersion = db.userVersion := by
  cases o <;> rfl

theorem create_ok {db db' : Database} {o : Definition} (h : db.create o = .ok db') :
    ¬ db.Has o.name ∧ db'.objects = insert o db.objects ∧ db'.userVersion = db.userVersion := by
  unfold Database.create at h
  split_ifs at h with hhas hon
  cases h
  exact ⟨hhas, rfl, clear_userVersion db o⟩

/-- A statement defines what it says, and sets the version or leaves it alone. -/
theorem exec_ok {db db' : Database} {statement : Statement}
    (h : statement.exec db = .ok db') :
    db'.objects = statement.define db.objects ∧
      db'.userVersion = statement.versionAfter db.userVersion := by
  cases statement with
  | createIfNotExists o =>
      simp only [Statement.exec] at h
      split_ifs at h with hhas
      · cases h
        exact ⟨(if_pos hhas).symm, rfl⟩
      · obtain ⟨-, hobjects, hversion⟩ := create_ok h
        exact ⟨hobjects.trans (if_neg hhas).symm, hversion⟩
  | create o => exact (create_ok h).2
  | dropTable name =>
      simp only [Statement.exec, Database.drop] at h
      split_ifs at h
      cases h
      exact ⟨rfl, rfl⟩
  | backfillMentions =>
      simp only [Statement.exec, Database.check] at h
      split_ifs at h
      cases h
      exact ⟨rfl, rfl⟩
  | deleteUnreferenced =>
      simp only [Statement.exec, Database.check] at h
      split_ifs at h
      cases h
      exact ⟨rfl, rfl⟩
  | setUserVersion version =>
      cases h
      exact ⟨rfl, rfl⟩

theorem foldlM_exec_ok {db db' : Database} {statements : List Statement}
    (h : statements.foldlM Statement.exec db = .ok db') :
    db'.objects = statements.foldl Statement.define db.objects ∧
      db'.userVersion = statements.foldl Statement.versionAfter db.userVersion := by
  induction statements generalizing db with
  | nil =>
      cases h
      exact ⟨rfl, rfl⟩
  | cons statement statements ih =>
      rw [List.foldlM_cons] at h
      cases hexec : statement.exec db with
      | error e =>
          rw [hexec] at h
          cases h
      | ok db₁ =>
          rw [hexec] at h
          obtain ⟨hobjects, hversion⟩ := exec_ok hexec
          have hrest := ih h
          rw [hobjects, hversion] at hrest
          exact hrest

/-- The migrations from any version end at the last one, with its schema. -/
theorem migrationStatements_last {version : Nat} (h : version ≤ migrations.length) :
    (migrationStatements version).foldl Statement.define (schemaAt version) =
        schemaAt migrations.length ∧
      (migrationStatements version).foldl Statement.versionAfter version =
        migrations.length := by
  have hbound : version ∈ Finset.range 4 := Finset.mem_range.mpr (Nat.lt_succ_of_le h)
  revert version
  decide

/-- All tables of the baseline script exist. -/
def HasBaseline (db : Database) : Prop := ∀ o ∈ baseline, db.Has o.name

/-- A subset of the baseline with all its names is the baseline. -/
theorem objects_eq_of_hasBaseline {db : Database} (h : HasBaseline db)
    (hsub : db.objects ⊆ baseline.toFinset) : db.objects = baseline.toFinset := by
  apply Finset.Subset.antisymm hsub
  intro o ho
  have hinj : ∀ o ∈ baseline, ∀ o' ∈ baseline, o'.name = o.name → o' = o := by decide
  rw [List.mem_toFinset] at ho
  obtain ⟨o', ho', hname⟩ := h o ho
  rw [← hinj o ho o' (List.mem_toFinset.mp (hsub ho')) hname]
  exact ho'

theorem hasBaseline_schemaAt {db : Database} {version : Nat} (h : version ≤ migrations.length)
    (hobjects : db.objects = schemaAt version) : HasBaseline db := by
  have hall : ∀ version ∈ Finset.range 4, ∀ o ∈ baseline,
      ∃ o' ∈ schemaAt version, o'.name = o.name := by decide
  unfold HasBaseline Database.Has
  rw [hobjects]
  exact hall version (Finset.mem_range.mpr (Nat.lt_succ_of_le h))

/-- The committed file: as the first migrations left it, or a part of the baseline of
a new file, and none of the others executed; or all of them executed. -/
def FileOk (version : Nat) (db : Database) (executed : List Statement) : Prop :=
  (executed = [] ∧ db.userVersion = version ∧
    (db.objects = schemaAt version ∨ (version = 0 ∧ db.objects ⊆ baseline.toFinset))) ∨
  (executed = migrationStatements version ∧ db.userVersion = migrations.length ∧
    db.objects = schemaAt migrations.length)

/-- What a process that got to a phase may rely on. -/
def PhaseOk (db : Database) (writer : Option WriteTransaction) (p : Nat) : Phase → Prop
  | .script rest => ∃ done, baseline = done ++ rest ∧ ∀ o ∈ done, db.Has o.name
  | .check => HasBaseline db
  | .begin => HasBaseline db
  | .reread => HasBaseline db ∧ writer = some ⟨p, db, []⟩
  | .migrating rest => HasBaseline db ∧ ∃ tx, writer = some tx ∧ tx.owner = p ∧
      migrationStatements db.userVersion = tx.executed ++ rest ∧
      tx.executed.foldlM Statement.exec db = .ok tx.work
  | .returned => db.userVersion = migrations.length
  | .failed => True

/-- The phases in which a process holds the write lock. -/
def Phase.Writing : Phase → Prop
  | .reread => True
  | .migrating _ => True
  | _ => False

/-- The invariant of a start-up on a file of this version. -/
structure Consistent (version : Nat) (σ : StartUp) : Prop where
  file : FileOk version σ.file σ.executed
  phase : ∀ p, PhaseOk σ.file σ.writer p (σ.phase p)
  writer : ∀ tx ∈ σ.writer, (σ.phase tx.owner).Writing

section Frame
variable {version : Nat} {db db' : Database} {writer writer' : Option WriteTransaction}
  {p : Nat} {σ : StartUp}

/-- A phase is not disturbed while names and the last version stay, and its own
transaction is left alone. -/
theorem PhaseOk.frame {phase : Phase} (h : PhaseOk db writer p phase)
    (hhas : ∀ o ∈ baseline, db.Has o.name → db'.Has o.name)
    (hversion : db.userVersion = migrations.length → db'.userVersion = migrations.length)
    (hwriter : ∀ tx ∈ writer, tx.owner = p → writer' = writer ∧ db' = db) :
    PhaseOk db' writer' p phase := by
  cases phase with
  | script rest =>
      obtain ⟨done, hdone, hall⟩ := h
      exact ⟨done, hdone, fun o ho => hhas o (hdone ▸ List.mem_append_left rest ho) (hall o ho)⟩
  | check => exact fun o ho => hhas o ho (h o ho)
  | begin => exact fun o ho => hhas o ho (h o ho)
  | reread =>
      obtain ⟨hwriter', rfl⟩ := hwriter _ h.2 rfl
      rwa [hwriter']
  | migrating rest =>
      obtain ⟨-, tx, htx, howner, -⟩ := id h
      obtain ⟨hwriter', rfl⟩ := hwriter tx htx howner
      rwa [hwriter']
  | returned => exact hversion h
  | failed => trivial

/-- One process goes on; the others see a file and a transaction that suit them. -/
theorem Consistent.goTo {phase : Phase} (hfile : FileOk version σ.file σ.executed)
    (hothers : ∀ q, q ≠ p → PhaseOk σ.file σ.writer q (σ.phase q))
    (hphase : PhaseOk σ.file σ.writer p phase)
    (hwriter : ∀ tx ∈ σ.writer, (tx.owner = p → phase.Writing) ∧
      (tx.owner ≠ p → (σ.phase tx.owner).Writing)) : Consistent version (σ.goTo p phase) := by
  refine ⟨hfile, fun q => ?_, fun tx htx => ?_⟩
  · by_cases hq : q = p
    · subst hq
      simpa only [StartUp.goTo, Function.update_self] using hphase
    · simpa only [StartUp.goTo, Function.update_of_ne hq] using hothers q hq
  · by_cases hq : tx.owner = p
    · simpa only [StartUp.goTo, hq, Function.update_self] using (hwriter tx htx).1 hq
    · simpa only [StartUp.goTo, Function.update_of_ne hq] using (hwriter tx htx).2 hq

/-- A process that holds no lock goes on without touching the file. -/
theorem Consistent.goTo_idle {phase : Phase} (h : Consistent version σ)
    (hidle : ¬ (σ.phase p).Writing) (hphase : PhaseOk σ.file σ.writer p phase) :
    Consistent version (σ.goTo p phase) := by
  apply Consistent.goTo h.file (fun q _ => h.phase q) hphase
  intro tx htx
  refine ⟨fun howner => ?_, fun _ => h.writer tx htx⟩
  exact absurd (howner ▸ h.writer tx htx) hidle

/-- What one event may do to the committed file: nothing, a missing table of the
baseline before anything was migrated, all migrations at once, or a write. -/
inductive FileChange (version : Nat) (event : StartUpEvent) (σ σ' : StartUp) : Prop
  | none (hfile : σ'.file = σ.file) (hexecuted : σ'.executed = σ.executed)
  | baseline (o : Definition) (hversion : σ.file.userVersion < migrations.length)
      (hexecuted : σ'.executed = σ.executed) (hcreate : σ.file.create o = .ok σ'.file)
  | migrations (hversion : σ.file.userVersion < migrations.length)
      (hbefore : σ.executed = []) (hafter : σ'.executed = migrationStatements version)
      (hexec : (migrationStatements version).foldlM Statement.exec σ.file = .ok σ'.file)
  | write (p : Nat) (db : Database) (hevent : event = .write p db)
      (hversion : σ'.file.userVersion = σ.file.userVersion)
      (hobjects : σ'.file.objects = σ.file.objects) (hexecuted : σ'.executed = σ.executed)

section Steps
variable {σ' : StartUp} (h : Consistent version σ)

include h

theorem Consistent.userVersion_le (hversion : version ≤ migrations.length) :
    σ.file.userVersion ≤ migrations.length := by
  obtain ⟨-, hv, -⟩ | ⟨-, hv, -⟩ := h.file
  · omega
  · omega

/-- A statement of the baseline script. -/
theorem Consistent.next_script (hversion : version ≤ migrations.length) {o : Definition}
    {rest : List Definition} (hphase : σ.phase p = .script (o :: rest))
    (hnext : σ.next p = some σ') : Consistent version σ' ∧ FileChange version (.next p) σ σ' := by
  have hidle : ¬ (σ.phase p).Writing := by
    rw [hphase]
    exact id
  obtain ⟨done, hdone, hall⟩ : PhaseOk σ.file σ.writer p (.script (o :: rest)) :=
    hphase ▸ h.phase p
  have ho : o ∈ baseline := by simp [hdone]
  have hsplit : baseline = (done ++ [o]) ++ rest := by simp [hdone]
  simp only [StartUp.next, hphase] at hnext
  split_ifs at hnext with hhas
  · cases hnext
    refine ⟨h.goTo_idle hidle ⟨done ++ [o], hsplit, fun o' ho' => ?_⟩, .none rfl rfl⟩
    obtain ho' | ho' := List.mem_append.mp ho'
    · exact hall o' ho'
    · rw [List.mem_singleton.mp ho']
      exact hhas
  · cases hwriter : σ.writer with
    | some tx => simp [hwriter] at hnext
    | none =>
        cases hcreate : σ.file.create o with
        | error e => simp [hwriter, hcreate] at hnext
        | ok db =>
            simp only [hwriter, hcreate, Option.some.injEq] at hnext
            subst hnext
            obtain ⟨-, hobjects, huser⟩ := create_ok hcreate
            have hmono : ∀ o' ∈ baseline, σ.file.Has o'.name → db.Has o'.name := by
              rintro o' - ⟨x, hx, hname⟩
              exact ⟨x, by simp [hobjects, hx], hname⟩
            -- a missing table means that the file is still a part of the baseline
            obtain ⟨hexecuted, hv, hzero, hsub⟩ : σ.executed = [] ∧
                σ.file.userVersion = version ∧ version = 0 ∧
                σ.file.objects ⊆ baseline.toFinset := by
              obtain ⟨hexecuted, hv, hobj | ⟨hzero, hsub⟩⟩ | ⟨-, -, hobj⟩ := h.file
              · exact absurd (hasBaseline_schemaAt hversion hobj o ho) hhas
              · exact ⟨hexecuted, hv, hzero, hsub⟩
              · exact absurd (hasBaseline_schemaAt le_rfl hobj o ho) hhas
            constructor
            · refine Consistent.goTo (Or.inl ⟨hexecuted, huser.trans hv, Or.inr ⟨hzero, ?_⟩⟩)
                (fun q _ => (h.phase q).frame hmono (fun hq => huser.trans hq)
                  (by simp [hwriter]))
                ⟨done ++ [o], hsplit, fun o' ho' => ?_⟩ (by simp)
              · change db.objects ⊆ _
                rw [hobjects]
                exact Finset.insert_subset (List.mem_toFinset.mpr ho) hsub
              · obtain hd | hd := List.mem_append.mp ho'
                · exact hmono o' (hsplit ▸ List.mem_append_left rest ho') (hall o' hd)
                · rw [List.mem_singleton.mp hd]
                  exact ⟨o, by simp [hobjects], rfl⟩
            · refine .baseline o ?_ rfl hcreate
              rw [hv, hzero]
              decide

/-- The two reads of the version, and the wait for the lock. -/
theorem Consistent.next_check (hversion : version ≤ migrations.length)
    (hphase : σ.phase p = .check) (hnext : σ.next p = some σ') :
    Consistent version σ' ∧ FileChange version (.next p) σ σ' := by
  have hidle : ¬ (σ.phase p).Writing := by
    rw [hphase]
    exact id
  have hbaseline : HasBaseline σ.file := by
    have hp := h.phase p
    rwa [hphase] at hp
  simp only [StartUp.next, hphase] at hnext
  split_ifs at hnext with hlast
  · cases hnext
    exact ⟨h.goTo_idle hidle (le_antisymm (h.userVersion_le hversion) hlast), .none rfl rfl⟩
  · cases hnext
    exact ⟨h.goTo_idle hidle hbaseline, .none rfl rfl⟩

theorem Consistent.next_begin (hphase : σ.phase p = .begin) (hnext : σ.next p = some σ') :
    Consistent version σ' ∧ FileChange version (.next p) σ σ' := by
  have hbaseline : HasBaseline σ.file := by
    have hp := h.phase p
    rwa [hphase] at hp
  simp only [StartUp.next, hphase] at hnext
  split_ifs at hnext with hwriter
  cases hnext
  rw [Option.isNone_iff_eq_none] at hwriter
  refine ⟨Consistent.goTo h.file (fun q _ => (h.phase q).frame (fun _ _ => id) id ?_)
    ⟨hbaseline, rfl⟩ ?_, .none rfl rfl⟩
  · simp [hwriter]
  · rintro tx ⟨⟩
    exact ⟨fun _ => trivial, fun howner => absurd rfl howner⟩

theorem Consistent.next_reread (hphase : σ.phase p = .reread) (hnext : σ.next p = some σ') :
    Consistent version σ' ∧ FileChange version (.next p) σ σ' := by
  obtain ⟨hbaseline, hwriter⟩ : PhaseOk σ.file σ.writer p .reread := hphase ▸ h.phase p
  simp only [StartUp.next, hphase, hwriter] at hnext
  cases hnext
  refine ⟨Consistent.goTo h.file (fun q _ => h.phase q) ?_ fun tx htx => ?_, .none rfl rfl⟩
  · exact ⟨hbaseline, _, hwriter, rfl, rfl, rfl⟩
  · exact ⟨fun _ => trivial, fun _ => h.writer tx htx⟩

/-- A statement of a migration, in the transaction of the process. -/
theorem Consistent.next_statement {statement : Statement} {rest : List Statement}
    (hphase : σ.phase p = .migrating (statement :: rest)) (hnext : σ.next p = some σ') :
    Consistent version σ' ∧ FileChange version (.next p) σ σ' := by
  obtain ⟨hbaseline, tx, hwriter, howner, hsplit, hexec⟩ :
    PhaseOk σ.file σ.writer p (.migrating (statement :: rest)) := hphase ▸ h.phase p
  simp only [StartUp.next, hphase, hwriter] at hnext
  obtain ⟨tx', htx', hnext⟩ := Option.bind_eq_some_iff.mp hnext
  cases htx'
  obtain ⟨db, hdb, hnext⟩ := Option.bind_eq_some_iff.mp hnext
  cases hnext
  have hok : statement.exec tx.work = .ok db := by
    cases hresult : statement.exec tx.work with
    | error e => simp [hresult, Except.toOption] at hdb
    | ok db' => simpa [hresult, Except.toOption] using hdb
  refine ⟨Consistent.goTo h.file (fun q hq => (h.phase q).frame (fun _ _ => id) id ?_)
    ⟨hbaseline, _, rfl, howner, ?_, ?_⟩ ?_, .none rfl rfl⟩
  · intro tx' htx' howner'
    rw [hwriter] at htx'
    cases htx'
    exact absurd (howner'.symm.trans howner) hq
  · rw [hsplit, List.append_assoc]
    rfl
  · rw [List.foldlM_append, hexec]
    simp only [List.foldlM_cons, List.foldlM_nil, bind, Except.bind, hok, pure, Except.pure]
  · rintro _ ⟨⟩
    exact ⟨fun _ => trivial, fun hne => absurd howner hne⟩

/-- A commit ends the transaction, so no other process was writing. -/
theorem Consistent.commit {tx : WriteTransaction} (hwriter : σ.writer = some tx)
    (howner : tx.owner = p) {executed : List Statement}
    (hfile : FileOk version tx.work executed)
    (hhas : ∀ o ∈ baseline, σ.file.Has o.name → tx.work.Has o.name)
    (huser : tx.work.userVersion = migrations.length) :
    Consistent version
      ({ σ with file := tx.work, writer := none, executed := executed }.goTo p .returned) := by
  refine Consistent.goTo hfile (fun q hq => (h.phase q).frame hhas (fun _ => huser) ?_) huser
    (by simp)
  intro tx' htx' howner'
  rw [hwriter] at htx'
  cases htx'
  exact absurd (howner'.symm.trans howner) hq

/-- The commit: what was executed are all migrations of the file. -/
theorem Consistent.next_commit (hversion : version ≤ migrations.length)
    (hphase : σ.phase p = .migrating []) (hnext : σ.next p = some σ') :
    Consistent version σ' ∧ FileChange version (.next p) σ σ' := by
  obtain ⟨hbaseline, tx, hwriter, howner, hsplit, hexec⟩ :
    PhaseOk σ.file σ.writer p (.migrating []) := hphase ▸ h.phase p
  rw [List.append_nil] at hsplit
  rw [← hsplit] at hexec
  simp only [StartUp.next, hphase, hwriter] at hnext
  cases hnext
  by_cases hold : σ.file.userVersion < migrations.length
  · obtain ⟨hexecuted, hv, hobjects⟩ := h.file.resolve_right fun hdone => by
      rw [hdone.2.1] at hold
      exact absurd hold (lt_irrefl _)
    have hschema : σ.file.objects = schemaAt version := by
      obtain hobjects | ⟨rfl, hsub⟩ := hobjects
      · exact hobjects
      · exact objects_eq_of_hasBaseline hbaseline hsub
    obtain ⟨hdefined, huser⟩ := foldlM_exec_ok hexec
    obtain ⟨hlast, hlastVersion⟩ := migrationStatements_last hversion
    rw [hschema, hv, hlast] at hdefined
    rw [hv, hlastVersion] at huser
    rw [hv] at hsplit hexec
    have hdone : σ.executed ++ tx.executed = migrationStatements version := by
      rw [hexecuted, ← hsplit, List.nil_append]
    exact ⟨h.commit hwriter howner (Or.inr ⟨hdone, huser, hdefined⟩)
      (fun o ho _ => hasBaseline_schemaAt le_rfl hdefined o ho) huser,
      .migrations hold hexecuted hdone hexec⟩
  · -- another process migrated before this one got the lock
    have huser : σ.file.userVersion = migrations.length :=
      le_antisymm (h.userVersion_le hversion) (not_lt.mp hold)
    have hnone : migrationStatements σ.file.userVersion = [] := by
      rw [huser]
      rfl
    rw [hnone] at hsplit hexec
    have hwork : tx.work = σ.file := (Except.ok.inj hexec).symm
    have hexecuted : σ.executed ++ tx.executed = σ.executed := by
      rw [← hsplit, List.append_nil]
    refine ⟨h.commit hwriter howner ?_ (fun o _ hhas => hwork ▸ hhas) (hwork ▸ huser),
      .none hwork hexecuted⟩
    rw [hwork, hexecuted]
    exact h.file

/-- One statement of any process keeps the invariant. -/
theorem Consistent.next (hversion : version ≤ migrations.length) (hnext : σ.next p = some σ') :
    Consistent version σ' ∧ FileChange version (.next p) σ σ' := by
  cases hphase : σ.phase p with
  | script rest =>
      cases rest with
      | nil =>
          have hidle : ¬ (σ.phase p).Writing := by
            rw [hphase]
            exact id
          obtain ⟨done, hdone, hall⟩ : PhaseOk σ.file σ.writer p (.script []) :=
            hphase ▸ h.phase p
          rw [List.append_nil] at hdone
          simp only [StartUp.next, hphase] at hnext
          cases hnext
          exact ⟨h.goTo_idle hidle fun o ho => hall o (hdone ▸ ho), .none rfl rfl⟩
      | cons o rest => exact h.next_script hversion hphase hnext
  | check => exact h.next_check hversion hphase hnext
  | begin => exact h.next_begin hphase hnext
  | reread => exact h.next_reread hphase hnext
  | migrating rest =>
      cases rest with
      | nil => exact h.next_commit hversion hphase hnext
      | cons statement rest => exact h.next_statement hphase hnext
  | returned => simp [StartUp.next, hphase] at hnext
  | failed => simp [StartUp.next, hphase] at hnext

/-- A failure rolls back the transaction of its process and no other. -/
theorem Consistent.fail : Consistent version (σ.fail p) := by
  refine Consistent.goTo h.file (fun q hq => (h.phase q).frame (fun _ _ => id) id ?_) trivial ?_
  · intro tx htx howner
    refine ⟨?_, rfl⟩
    rw [Option.mem_def.mp htx, Option.filter_some]
    simp [howner, hq]
  · intro tx htx
    obtain ⟨hmem, howner⟩ := Option.mem_filter_iff.mp htx
    simp only [ne_eq, decide_eq_true_eq] at howner
    exact ⟨fun heq => absurd heq howner, fun _ => h.writer tx hmem⟩

/-- Others write to the file only between transactions, and only rows. -/
theorem Consistent.write {db : Database} (hwrite : σ.write p db = some σ') :
    Consistent version σ' ∧ FileChange version (.write p db) σ σ' := by
  unfold StartUp.write at hwrite
  split_ifs at hwrite with hcond
  cases hwrite
  obtain ⟨-, hwriter, huser, hobjects⟩ := hcond
  rw [Option.isNone_iff_eq_none] at hwriter
  refine ⟨⟨?_, fun q => (h.phase q).frame ?_ (fun hq => huser.trans hq) (by simp [hwriter]),
    h.writer⟩, .write p db rfl huser hobjects rfl⟩
  · unfold FileOk
    rw [huser, hobjects]
    exact h.file
  · intro o _ hhas
    unfold Database.Has
    rwa [hobjects]

/-- Every event keeps the invariant and changes the file as said. -/
theorem Consistent.step (hversion : version ≤ migrations.length) {event : StartUpEvent}
    (hstep : σ.step event = some σ') :
    Consistent version σ' ∧ FileChange version event σ σ' := by
  cases event with
  | next p => exact h.next hversion hstep
  | fail p =>
      cases hstep
      exact ⟨h.fail, .none rfl rfl⟩
  | write p db => exact h.write hstep

omit h in
/-- Nothing has started. -/
theorem consistent_start (hschema : db.objects = schemaAt db.userVersion ∨
      (db.userVersion = 0 ∧ db.objects = ∅)) :
    Consistent db.userVersion (StartUp.start db) := by
  refine ⟨Or.inl ⟨rfl, rfl, hschema.imp_right fun hempty => ⟨hempty.1, ?_⟩⟩,
    fun p => ⟨[], rfl, by simp⟩, by simp [StartUp.start]⟩
  simp [StartUp.start, hempty.2]

end Steps

/-- Two processes on an empty file; the second waits for the lock of the first. -/
def twoProcesses : List StartUpEvent :=
  List.replicate 8 (.next 0) ++ List.replicate 8 (.next 1) ++
    [.next 0, .next 1, .next 0, .next 0] ++ List.replicate 15 (.next 0) ++
    [.next 1, .next 1, .next 1]

end Frame

end LocalGraphRag.Graph
