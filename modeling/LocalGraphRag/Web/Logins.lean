import LocalGraphRag.Systems.Runs
import LocalGraphRag.Web.UserStore

/-!
# Logins beside changes of users

A login reads the hash, checks the password in a thread and creates the session, each
as a step of its own; the command-line tool of another process changes users in
between. A session is meant to end when the password that it was obtained with does.

## Implementation notes

bcrypt and SHA-256 are parameters; `checkpw` is `none` where it raises. A hash from the
store was bound as UTF-8, so that encoding it does not raise.
-/

namespace LocalGraphRag.Web

open LocalGraphRag.Python LocalGraphRag.Relational LocalGraphRag.Systems

/-- What the handlers use of libraries and settings. -/
structure Server (τ : Type) where
  sha256 : Bytes → Text
  checkpw : Bytes → Bytes → Option Bool
  dummyHash : Bytes
  sessionExpirySeconds : τ

def bcryptMaxPasswordBytes : Nat := 72

def passwordFitsBcrypt (password : Text) : Bool :=
  (utf8 password).length ≤ bcryptMaxPasswordBytes

/-- Where a login stands. The hash that it read stays with it as long as it lives. -/
inductive LoginPhase where
  | idle
  | started (username password : Text)
  | checking (username password : Text) (stored : Option Text)
  | matched (username password stored : Text)
  | refused
  | raised
  | done (username password stored token : Text)
  deriving DecidableEq

structure Logins (τ : Type) where
  store : UserStore τ
  phase : Nat → LoginPhase

inductive LoginEvent (τ : Type) where
  | login (i : Nat) (username password : Text)
  | getHash (i : Nat)
  | checkpw (i : Nat)
  | createSession (i : Nat) (now : τ) (random : Bytes)
  | upsertUser (username passwordHash : Text)
  | deleteUser (username : Text)
  | logout (token : Text)
  | purgeExpiredSessions (now : τ)

namespace Logins

variable {τ : Type}

def start : Logins τ := ⟨UserStore.empty, fun _ => .idle⟩

def goTo (σ : Logins τ) (i : Nat) (phase : LoginPhase) : Logins τ :=
  { σ with phase := Function.update σ.phase i phase }

@[simp] theorem goTo_phase_self (σ : Logins τ) (i : Nat) (phase : LoginPhase) :
    (σ.goTo i phase).phase i = phase := Function.update_self ..

theorem goTo_phase_of_ne (σ : Logins τ) {i j : Nat} (h : j ≠ i) (phase : LoginPhase) :
    (σ.goTo i phase).phase j = σ.phase j := Function.update_of_ne h ..

/-- A call that raises leaves the store as it is. -/
def commit (σ : Logins τ) (result : Except UserStoreError (UserStore τ)) : Logins τ :=
  { σ with store := result.toOption.getD σ.store }

/-- A login for a new request: the password has to be one that bcrypt takes. -/
def arrive (username password : Text) : LoginPhase :=
  if ¬ Encodable password then .raised
  else if passwordFitsBcrypt password then .started username password
  else .refused

/-- The check runs for a user who does not exist as well, against a dummy. -/
def hashToCheck (server : Server τ) : Option Text → Bytes
  | some (c :: stored) => utf8 (c :: stored)
  | _ => server.dummyHash

def checked (server : Server τ) (username password : Text) (stored : Option Text) : LoginPhase :=
  match server.checkpw (utf8 password) (hashToCheck server stored), stored with
  | none, _ => .raised
  | some true, some (c :: stored) => .matched username password (c :: stored)
  | some _, _ => .refused

def step [LinearOrder τ] [Add τ] (server : Server τ) (σ : Logins τ) :
    LoginEvent τ → Option (Logins τ)
  | .login i username password =>
      if σ.phase i = .idle then some (σ.goTo i (arrive username password)) else none
  | .getHash i =>
      match σ.phase i with
      | .started username password =>
          match σ.store.getHash username with
          | .ok stored => some (σ.goTo i (.checking username password stored))
          | .error _ => some (σ.goTo i .raised)
      | _ => none
  | .checkpw i =>
      match σ.phase i with
      | .checking username password stored =>
          some (σ.goTo i (checked server username password stored))
      | _ => none
  | .createSession i now random =>
      match σ.phase i with
      | .matched username password stored =>
          match σ.store.createSession server.sha256 now random username
              server.sessionExpirySeconds with
          | .ok (token, store) =>
              some { σ.goTo i (.done username password stored token) with store }
          | .error _ => some (σ.goTo i .raised)
      | _ => none
  | .upsertUser username passwordHash =>
      some (σ.commit (σ.store.upsertUser username passwordHash))
  | .deleteUser username => some (σ.commit (σ.store.deleteUser username))
  | .logout token =>
      if token = [] then some σ
      else some (σ.commit (σ.store.deleteSession server.sha256 token))
  | .purgeExpiredSessions now => some (σ.commit (.ok (σ.store.purgeExpiredSessions now)))

/-- Some login created the session, with a password that matches the hash. -/
def Obtained (server : Server τ) (σ : Logins τ) (digest username stored : Text) : Prop :=
  ∃ i password token, σ.phase i = .done username password stored token ∧
    server.sha256 (utf8 token) = digest ∧
    server.checkpw (utf8 password) (utf8 stored) = some true

/-- The login behind each valid session checked its password against the hash that is
stored now. -/
def SessionsCurrent [LinearOrder τ] (server : Server τ) (σ : Logins τ) : Prop :=
  ∀ now token username,
    σ.store.validateSession server.sha256 now token = .ok (some username) →
    ∃ stored, ⟨username, stored⟩ ∈ σ.store.users ∧
      Obtained server σ (server.sha256 (utf8 token)) username stored

/-- A login that creates its session finds the hash that it read, or no user. -/
def HashUnchanged (σ : Logins τ) : LoginEvent τ → Prop
  | .createSession i _ _ => ∀ username password stored,
      σ.phase i = .matched username password stored →
      ∀ hash, ⟨username, hash⟩ ∈ σ.store.users → hash = stored
  | _ => True

/-- What guarded logins keep. -/
structure Current (server : Server τ) (σ : Logins τ) : Prop where
  obtained : ∀ row ∈ σ.store.sessions, ∀ stored, ⟨row.username, stored⟩ ∈ σ.store.users →
    Obtained server σ row.token row.username stored
  matched : ∀ i username password stored, σ.phase i = .matched username password stored →
    server.checkpw (utf8 password) (utf8 stored) = some true

section Steps
variable {server : Server τ} {σ σ' : Logins τ}

theorem Current.sessionsCurrent [LinearOrder τ] (h : Current server σ) :
    SessionsCurrent server σ := by
  intro now token username hvalid
  obtain ⟨-, ⟨stored, huser⟩, expiresAt, hrow, -⟩ :=
    UserStore.validateSession_eq_some_iff.mp hvalid
  exact ⟨stored, huser, h.obtained _ hrow stored huser⟩

/-- A store that loses sessions, and keeps the users of those that are left. -/
theorem Current.of_store (h : Current server σ) {s : UserStore τ}
    (hs : ∀ row ∈ s.sessions, row ∈ σ.store.sessions ∧
      ∀ stored, ⟨row.username, stored⟩ ∈ s.users → ⟨row.username, stored⟩ ∈ σ.store.users) :
    Current server { σ with store := s } where
  obtained := fun row hrow stored huser =>
    h.obtained row (hs row hrow).1 stored ((hs row hrow).2 stored huser)
  matched := h.matched

theorem Current.commit (h : Current server σ) {result : Except UserStoreError (UserStore τ)}
    (hs : ∀ s, result = .ok s → ∀ row ∈ s.sessions, row ∈ σ.store.sessions ∧
      ∀ stored, ⟨row.username, stored⟩ ∈ s.users → ⟨row.username, stored⟩ ∈ σ.store.users) :
    Current server (σ.commit result) := by
  cases result with
  | error e => exact h
  | ok s => exact h.of_store (hs s rfl)

/-- A login that is not done moves on. -/
theorem Obtained.goTo {digest username stored : Text} (h : Obtained server σ digest username stored)
    {i : Nat} {phase : LoginPhase}
    (hold : ∀ username password stored token, σ.phase i ≠ .done username password stored token) :
    Obtained server (σ.goTo i phase) digest username stored := by
  obtain ⟨j, password, token, hphase, hdigest, hcheck⟩ := h
  refine ⟨j, password, token, ?_, hdigest, hcheck⟩
  have hne : j ≠ i := fun hij => hold _ _ _ _ (hij ▸ hphase)
  exact (goTo_phase_of_ne σ hne _).trans hphase

theorem Current.goTo (h : Current server σ) {i : Nat} {phase : LoginPhase}
    (hold : ∀ username password stored token, σ.phase i ≠ .done username password stored token)
    (hmatched : ∀ username password stored, phase = .matched username password stored →
      server.checkpw (utf8 password) (utf8 stored) = some true) :
    Current server (σ.goTo i phase) where
  obtained := fun row hrow stored huser => (h.obtained row hrow stored huser).goTo hold
  matched := by
    intro j username password stored hphase
    by_cases hji : j = i
    · subst hji
      rw [goTo_phase_self] at hphase
      exact hmatched _ _ _ hphase
    · rw [goTo_phase_of_ne σ hji] at hphase
      exact h.matched j _ _ _ hphase

/-- What a login does to the sessions when it creates its own. -/
theorem Current.createSession [LinearOrder τ] [Add τ] (h : Current server σ) {i : Nat} {now : τ}
    {random : Bytes} {username password stored token : Text} {s : UserStore τ}
    (hphase : σ.phase i = .matched username password stored)
    (hsame : ∀ hash, ⟨username, hash⟩ ∈ σ.store.users → hash = stored)
    (hcreate : σ.store.createSession server.sha256 now random username
      server.sessionExpirySeconds = .ok (token, s)) :
    Current server { σ.goTo i (.done username password stored token) with store := s } := by
  obtain ⟨-, rfl, hfresh, rfl⟩ := UserStore.createSession_eq_ok_iff.mp hcreate
  have hdone : Current server (σ.goTo i (.done username password stored (tokenHex random))) :=
    h.goTo (by simp [hphase]) (by simp)
  refine ⟨fun row hrow hash huser => ?_, hdone.matched⟩
  obtain hrow | ⟨rfl, -⟩ := (Table.mem_insertOrIgnore ..).mp hrow
  · exact hdone.obtained row hrow hash huser
  · rw [hsame hash huser]
    exact ⟨i, password, tokenHex random, goTo_phase_self .., rfl, h.matched i _ _ _ hphase⟩

theorem checked_matched {username password name password' stored' : Text} {stored : Option Text}
    (h : checked server username password stored = .matched name password' stored') :
    server.checkpw (utf8 password') (utf8 stored') = some true := by
  unfold checked at h
  split at h
  · cases h
  · rename_i hcheck
    cases h
    exact hcheck
  · cases h

section Events
variable [LinearOrder τ] [Add τ]

theorem Current.login (h : Current server σ) {i : Nat} {username password : Text}
    (hstep : σ.step server (.login i username password) = some σ') : Current server σ' := by
  obtain ⟨hidle, hmoved⟩ := Option.ite_none_right_eq_some.mp hstep
  cases hmoved
  apply h.goTo (by simp [hidle])
  intro _ _ _ harrive
  unfold arrive at harrive
  split_ifs at harrive

theorem Current.getHash (h : Current server σ) {i : Nat}
    (hstep : σ.step server (.getHash i) = some σ') : Current server σ' := by
  cases hphase : σ.phase i with
  | started username password =>
      simp only [Logins.step, hphase] at hstep
      cases hread : σ.store.getHash username with
      | ok stored =>
          rw [hread] at hstep
          cases hstep
          exact h.goTo (by simp [hphase]) (by simp)
      | error e =>
          rw [hread] at hstep
          cases hstep
          exact h.goTo (by simp [hphase]) (by simp)
  | _ =>
      simp only [Logins.step, hphase] at hstep
      cases hstep

theorem Current.checkpw (h : Current server σ) {i : Nat}
    (hstep : σ.step server (.checkpw i) = some σ') : Current server σ' := by
  cases hphase : σ.phase i with
  | checking username password stored =>
      simp only [Logins.step, hphase] at hstep
      cases hstep
      exact h.goTo (by simp [hphase]) fun _ _ _ => checked_matched
  | _ =>
      simp only [Logins.step, hphase] at hstep
      cases hstep

theorem Current.create (h : Current server σ) {i : Nat} {now : τ} {random : Bytes}
    (hguard : HashUnchanged σ (.createSession i now random))
    (hstep : σ.step server (.createSession i now random) = some σ') : Current server σ' := by
  cases hphase : σ.phase i with
  | matched username password stored =>
      simp only [Logins.step, hphase] at hstep
      cases hcreate : σ.store.createSession server.sha256 now random username
          server.sessionExpirySeconds with
      | ok r =>
          rw [hcreate] at hstep
          cases hstep
          exact h.createSession hphase (hguard _ _ _ hphase) hcreate
      | error e =>
          rw [hcreate] at hstep
          cases hstep
          exact h.goTo (by simp [hphase]) (by simp)
  | _ =>
      simp only [Logins.step, hphase] at hstep
      cases hstep

/-- A user who gets a hash loses the sessions. -/
theorem Current.upsertUser (h : Current server σ) {username passwordHash : Text}
    (hstep : σ.step server (.upsertUser username passwordHash) = some σ') :
    Current server σ' := by
  cases hstep
  apply h.commit
  intro s hs row hrow
  obtain ⟨husers, hsessions⟩ := UserStore.upsertUser_ok hs
  obtain ⟨hrow, hname⟩ := (hsessions row).mp hrow
  refine ⟨hrow, fun stored huser => ?_⟩
  obtain huser | huser := (husers _).mp huser
  · cases huser
    exact absurd rfl hname
  · exact huser.1

theorem Current.deleteUser (h : Current server σ) {username : Text}
    (hstep : σ.step server (.deleteUser username) = some σ') : Current server σ' := by
  cases hstep
  apply h.commit
  intro s hs row hrow
  obtain ⟨husers, hsessions⟩ := UserStore.deleteUser_ok hs
  exact ⟨((hsessions row).mp hrow).1, fun stored huser => ((husers _).mp huser).1⟩

theorem Current.logout (h : Current server σ) {token : Text}
    (hstep : σ.step server (.logout token) = some σ') : Current server σ' := by
  simp only [Logins.step] at hstep
  split_ifs at hstep
  · cases hstep
    exact h
  · cases hstep
    apply h.commit
    intro s hs row hrow
    obtain ⟨husers, hsessions⟩ := UserStore.deleteSession_ok hs
    exact ⟨((hsessions row).mp hrow).1, fun stored huser => husers ▸ huser⟩

theorem Current.purge (h : Current server σ) {now : τ}
    (hstep : σ.step server (.purgeExpiredSessions now) = some σ') : Current server σ' := by
  cases hstep
  apply h.commit
  rintro s ⟨⟩ row hrow
  exact ⟨(UserStore.mem_purgeExpiredSessions.mp hrow).1, fun stored huser => huser⟩

/-- A step that meets the guard keeps every session current. -/
theorem Current.step (h : Current server σ) {event : LoginEvent τ}
    (hguard : HashUnchanged σ event) (hstep : σ.step server event = some σ') :
    Current server σ' := by
  cases event with
  | login i username password => exact h.login hstep
  | getHash i => exact h.getHash hstep
  | checkpw i => exact h.checkpw hstep
  | createSession i now random => exact h.create hguard hstep
  | upsertUser username passwordHash => exact h.upsertUser hstep
  | deleteUser username => exact h.deleteUser hstep
  | logout token => exact h.logout hstep
  | purgeExpiredSessions now => exact h.purge hstep

end Events

theorem current_start : Current server (start : Logins τ) where
  obtained := fun row hrow => absurd hrow (Table.notMem_empty row)
  matched := fun _ _ _ _ h => by cases h

/-- A login that creates its session under another hash leaves one that is not current. -/
theorem not_sessionsCurrent_of_stale [LinearOrder τ] [Add τ] {i : Nat} {now : τ}
    {random : Bytes} {username password stored hash token : Text}
    (hphase : σ.phase i = .matched username password stored)
    (huser : ⟨username, hash⟩ ∈ σ.store.users) (hne : hash ≠ stored)
    (hstep : σ.step server (.createSession i now random) = some σ')
    (hdone : σ'.phase i = .done username password stored token)
    (hnew : ∀ j username password stored token', σ.phase j = .done username password stored token' →
      server.sha256 (utf8 token') ≠ server.sha256 (utf8 token))
    (hexpiry : now < now + server.sessionExpirySeconds) : ¬ SessionsCurrent server σ' := by
  simp only [Logins.step, hphase] at hstep
  cases hcreate : σ.store.createSession server.sha256 now random username
      server.sessionExpirySeconds with
  | error e =>
      rw [hcreate] at hstep
      cases hstep
      rw [goTo_phase_self] at hdone
      cases hdone
  | ok r =>
      rw [hcreate] at hstep
      cases hstep
      obtain ⟨hname, htoken, hfresh, hs⟩ := UserStore.createSession_eq_ok_iff.mp hcreate
      have hdone' : LoginPhase.done username password stored r.1 = _ :=
        (goTo_phase_self ..).symm.trans hdone
      cases hdone'
      intro hcurrent
      have hvalid : r.2.validateSession server.sha256 now r.1 = .ok (some username) := by
        rw [UserStore.validateSession_eq_some_iff, hs, htoken]
        refine ⟨tokenHex_encodable random, ⟨hash, huser⟩, _, ?_, hexpiry⟩
        exact (Table.mem_insertOrIgnore ..).mpr (Or.inr ⟨rfl, hfresh⟩)
      obtain ⟨hash', huser', j, password', token', hphase', hdigest, -⟩ :=
        hcurrent now r.1 username hvalid
      dsimp only at huser' hphase'
      rw [hs] at huser'
      cases σ.store.users.eq_of_key huser huser' rfl
      by_cases hji : j = i
      · subst hji
        rw [goTo_phase_self] at hphase'
        cases hphase'
        exact hne rfl
      · rw [goTo_phase_of_ne σ hji] at hphase'
        exact hnew j _ _ _ _ hphase' hdigest

end Steps

/-- In every run whose logins find the hash that they read when they create their
session, or no user, the login behind each valid session checked its password against
the hash that is stored. -/
theorem sessions_current [LinearOrder τ] [Add τ] {server : Server τ}
    {events : List (LoginEvent τ)}
    (hguard : Guarded (step server) HashUnchanged start events) {before : List (LoginEvent τ)}
    (hbefore : before <+: events) {σ : Logins τ} (h : run (step server) start before = some σ) :
    SessionsCurrent server σ := by
  have hcurrent := (hguard.of_prefix hbefore).invariant
    (fun _ _ _ hi hG hstep => Current.step hi hG hstep) current_start h
  exact hcurrent.sessionsCurrent

/-- A server whose hashes are the passwords themselves. -/
def sampleServer : Server Nat where
  sha256 := latin1
  checkpw := fun password hashed => some (password = hashed)
  dummyHash := []
  sessionExpirySeconds := 10

/-- A login of a user, up to its last step. -/
def beforeSession : List (LoginEvent Nat) :=
  [.upsertUser (text "a") (text "old"), .login 0 (text "a") (text "old"), .getHash 0, .checkpw 0]

/-- The user gets a new password, and a second login comes as far with it. -/
def afterChange : List (LoginEvent Nat) :=
  [.upsertUser (text "a") (text "new"), .login 1 (text "a") (text "new"), .getHash 1, .checkpw 1]

def changedPassword : List (LoginEvent Nat) :=
  beforeSession ++ ([.createSession 0 3 [7]] ++ (afterChange ++ [.createSession 1 5 [8]]))

theorem hash_eq_of_rows {users : Table UserRow UserRow.username} {username hash stored : Text}
    (hrows : users.rows = {⟨username, hash⟩}) (huser : ⟨username, stored⟩ ∈ users) :
    stored = hash := by
  rw [← Table.mem_rows, hrows, Finset.mem_singleton] at huser
  cases huser
  rfl

theorem guarded_changedPassword :
    Guarded (step sampleServer) HashUnchanged start changedPassword := by
  have hfirst : (run (step sampleServer) start beforeSession).any (fun σ =>
      σ.phase 0 = .matched (text "a") (text "old") (text "old") ∧
        σ.store.users.rows = {⟨text "a", text "old"⟩}) = true := by decide +kernel
  have hsecond : (run (step sampleServer) start
      (beforeSession ++ ([.createSession 0 3 [7]] ++ afterChange))).any (fun σ =>
        σ.phase 1 = .matched (text "a") (text "new") (text "new") ∧
          σ.store.users.rows = {⟨text "a", text "new"⟩}) = true := by decide +kernel
  have hchange : ∀ σ : Logins Nat, Guarded (step sampleServer) HashUnchanged σ afterChange :=
    fun σ => guarded_of_forall (by simp [afterChange, HashUnchanged])
  apply guarded_append
  · apply guarded_of_forall
    simp [beforeSession, HashUnchanged]
  intro σ hσ
  rw [hσ, Option.any_some, decide_eq_true_eq] at hfirst
  refine guarded_append ⟨fun username password stored hphase hash huser => ?_, fun _ _ => trivial⟩
    fun σ₁ hσ₁ => guarded_append (hchange σ₁) fun σ₂ hσ₂ =>
      ⟨fun username password stored hphase hash huser => ?_, fun _ _ => trivial⟩
  · rw [hfirst.1] at hphase
    cases hphase
    exact hash_eq_of_rows hfirst.2 huser
  · have hrun : run (step sampleServer) start
        (beforeSession ++ ([.createSession 0 3 [7]] ++ afterChange)) = some σ₂ := by
      exact run_append_eq_some.mpr ⟨σ, hσ, run_append_eq_some.mpr ⟨σ₁, hσ₁, hσ₂⟩⟩
    rw [hrun, Option.any_some, decide_eq_true_eq] at hsecond
    rw [hsecond.1] at hphase
    cases hphase
    exact hash_eq_of_rows hsecond.2 huser

/-- The first session is revoked, the second one is valid. -/
theorem sessions_current_changed : ∃ σ,
    run (step sampleServer) start changedPassword = some σ ∧
      σ.store.validateSession latin1 6 (tokenHex [7]) = .ok none ∧
      σ.store.validateSession latin1 6 (tokenHex [8]) = .ok (some (text "a")) ∧
      SessionsCurrent sampleServer σ := by
  have hrun : (run (step sampleServer) start changedPassword).any (fun σ =>
      σ.store.validateSession latin1 6 (tokenHex [7]) = .ok none ∧
        σ.store.validateSession latin1 6 (tokenHex [8]) = .ok (some (text "a"))) = true := by
    decide +kernel
  obtain ⟨σ, hσ, hvalid⟩ := (Option.any_eq_true ..).mp hrun
  obtain ⟨hrevoked, hvalid⟩ := of_decide_eq_true hvalid
  exact ⟨σ, hσ, hrevoked, hvalid,
    sessions_current guarded_changedPassword List.prefix_rfl hσ⟩

/-- The password is replaced before that step. -/
def overtaken : List (LoginEvent Nat) :=
  beforeSession ++ [.upsertUser (text "a") (text "new")]

/-- The session that the login creates then outlives the change. -/
theorem overtaken_login_keeps_session : ∃ σ,
    run (step sampleServer) start (overtaken ++ [.createSession 0 3 [7]]) = some σ ∧
      ¬ SessionsCurrent sampleServer σ := by
  have hread : (run (step sampleServer) start overtaken).any (fun σ =>
      σ.phase 0 = .matched (text "a") (text "old") (text "old") ∧
        ⟨text "a", text "new"⟩ ∈ σ.store.users ∧
        (σ.step sampleServer (.createSession 0 3 [7])).any fun σ' =>
          σ'.phase 0 = .done (text "a") (text "old") (text "old") (tokenHex [7])) = true := by
    decide +kernel
  obtain ⟨σ, hσ, hread⟩ := (Option.any_eq_true ..).mp hread
  obtain ⟨hphase, huser, hcreate⟩ := of_decide_eq_true hread
  obtain ⟨σ', hstep, hdone⟩ := (Option.any_eq_true ..).mp hcreate
  have hidle : ∀ j, σ.phase (j + 1) = .idle := by
    intro j
    have hother : (run (step sampleServer) start overtaken).map
        (fun σ => σ.phase (j + 1)) = some .idle := rfl
    rw [hσ] at hother
    exact Option.some.inj hother
  refine ⟨σ', run_append_eq_some.mpr ⟨σ, hσ, run_cons_eq_some.mpr ⟨σ', hstep, rfl⟩⟩, ?_⟩
  apply not_sessionsCurrent_of_stale hphase huser (by decide) hstep (of_decide_eq_true hdone)
  · intro j username password stored token hother
    cases j with
    | zero =>
        rw [hphase] at hother
        cases hother
    | succ j =>
        rw [hidle j] at hother
        cases hother
  · decide

end Logins

end LocalGraphRag.Web
