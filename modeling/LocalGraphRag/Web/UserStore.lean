import Mathlib.Algebra.Notation.Defs
import LocalGraphRag.Python.Text
import LocalGraphRag.Relational.Table

/-!
# The user and session store

`users` and `sessions` are two tables of one SQLite file, without a foreign key
between them. Every function is one transaction; one that raises leaves no trace.

## Implementation notes

Times are the values of `time.time()`, in any linear order with an addition: nothing
depends on how the sum with the expiry rounds. `created_at`, which no function reads,
is left out. A token is the hex form of its random bytes.
-/

namespace LocalGraphRag.Web

open LocalGraphRag.Python LocalGraphRag.Relational

structure UserRow where
  username : Text
  passwordHash : Text
  deriving DecidableEq

/-- A session; its token is the SHA-256 hex digest of the token that the client holds. -/
structure SessionRow (τ : Type) where
  token : Text
  username : Text
  expiresAt : τ
  deriving DecidableEq

structure UserStore (τ : Type) where
  users : Table UserRow UserRow.username
  sessions : Table (SessionRow τ) SessionRow.token

/-- What the functions raise: `UnicodeEncodeError`, or `IntegrityError` on a token that
is there. -/
inductive UserStoreError where
  | unencodable
  | integrity
  deriving DecidableEq

/-- One of the two hex digits of a byte. -/
def hexDigit (n : Fin 16) : CodePoint :=
  Fin.ofNat 0x110000 (if n.val < 10 then 0x30 + n.val else 0x57 + n.val)

/-- `secrets.token_hex`, from the bytes that it drew. -/
def tokenHex (random : Bytes) : Text :=
  random.flatMap fun b => [hexDigit (Fin.ofNat 16 (b.val / 16)), hexDigit (Fin.ofNat 16 b.val)]

theorem tokenHex_encodable (random : Bytes) : Encodable (tokenHex random) := by
  have hdigit : ∀ n, isSurrogate (hexDigit n) = false := by decide
  intro c hc
  obtain ⟨b, -, hc⟩ := List.mem_flatMap.mp hc
  obtain rfl | rfl := List.mem_pair.mp hc <;> apply hdigit

namespace UserStore

variable {τ : Type}

section Functions

/-- `init_db` on a new file. -/
def empty : UserStore τ := ⟨∅, ∅⟩

/-- Binding a text, or encoding it, raises if it has a lone surrogate. -/
def encoding (texts : List Text) : Except UserStoreError Unit :=
  if ∀ s ∈ texts, Encodable s then .ok () else .error .unencodable

/-- `_token_hash`: sessions are stored by hash. -/
def tokenHash (sha256 : Bytes → Text) (token : Text) : Except UserStoreError Text := do
  encoding [token]
  return sha256 (utf8 token)

def getHash (username : Text) (s : UserStore τ) : Except UserStoreError (Option Text) := do
  encoding [username]
  return (s.users.find? username).map UserRow.passwordHash

def upsertUser (username passwordHash : Text) (s : UserStore τ) :
    Except UserStoreError (UserStore τ) := do
  encoding [username, passwordHash]
  return { users := s.users.upsert ⟨username, passwordHash⟩
             (fun row => { row with passwordHash := passwordHash }) (fun _ => rfl)
           sessions := s.sessions.deleteWhere fun row => row.username = username }

def deleteUser (username : Text) (s : UserStore τ) :
    Except UserStoreError (UserStore τ) := do
  encoding [username]
  return { users := s.users.deleteWhere fun row => row.username = username
           sessions := s.sessions.deleteWhere fun row => row.username = username }

variable [LinearOrder τ]

def createSession [Add τ] (sha256 : Bytes → Text) (now : τ) (random : Bytes) (username : Text)
    (expirySeconds : τ) (s : UserStore τ) : Except UserStoreError (Text × UserStore τ) := do
  let token := tokenHex random
  let expiresAt := now + expirySeconds
  let hash ← tokenHash sha256 token
  encoding [username]
  match s.sessions.insertNew ⟨hash, username, expiresAt⟩ with
  | some sessions => return (token, { s with sessions })
  | none => .error .integrity

/-- The rows that the join of `sessions` and `users` selects. -/
def validSessions (hash : Text) (now : τ) (s : UserStore τ) : Finset (SessionRow τ × UserRow) :=
  (s.sessions.rows ×ˢ s.users.rows).filter fun p =>
    p.2.username = p.1.username ∧ p.1.token = hash ∧ p.1.expiresAt > now

def validateSession (sha256 : Bytes → Text) (now : τ) (token : Text) (s : UserStore τ) :
    Except UserStoreError (Option Text) := do
  let hash ← tokenHash sha256 token
  return fetchOne ((s.validSessions hash now).image fun p => p.1.username)

omit [LinearOrder τ] in
def deleteSession (sha256 : Bytes → Text) (token : Text) (s : UserStore τ) :
    Except UserStoreError (UserStore τ) := do
  let hash ← tokenHash sha256 token
  return { s with sessions := s.sessions.deleteWhere fun row => row.token = hash }

def purgeExpiredSessions (now : τ) (s : UserStore τ) : UserStore τ :=
  { s with sessions := s.sessions.deleteWhere fun row => row.expiresAt ≤ now }

end Functions

section Effects
variable {sha256 : Bytes → Text} {s s' : UserStore τ} {username : Text}

theorem encoding_bind_eq_ok {α : Type} {texts : List Text} {m : Except UserStoreError α} {a : α} :
    (do encoding texts; m) = .ok a ↔ (∀ t ∈ texts, Encodable t) ∧ m = .ok a := by
  unfold encoding
  split_ifs with h
  · exact (and_iff_right h).symm
  · constructor
    · intro hm
      cases hm
    · intro hm
      exact absurd hm.1 h

theorem tokenHash_bind_eq_ok {α : Type} {token : Text} {f : Text → Except UserStoreError α}
    {a : α} : (do let hash ← tokenHash sha256 token; f hash) = .ok a ↔
      Encodable token ∧ f (sha256 (utf8 token)) = .ok a := by
  unfold tokenHash
  rw [bind_assoc, encoding_bind_eq_ok, pure_bind, List.forall_mem_singleton]

theorem getHash_eq_some_iff {hash : Text} :
    s.getHash username = .ok (some hash) ↔ Encodable username ∧ ⟨username, hash⟩ ∈ s.users := by
  unfold getHash
  rw [encoding_bind_eq_ok, List.forall_mem_singleton]
  apply and_congr_right
  intro _
  change Except.ok _ = Except.ok _ ↔ _
  rw [Except.ok.injEq, Option.map_eq_some_iff]
  constructor
  · rintro ⟨row, hrow, rfl⟩
    obtain ⟨hmem, rfl⟩ := (Table.find?_eq_some_iff ..).mp hrow
    exact hmem
  · intro h
    exact ⟨⟨username, hash⟩, (Table.find?_eq_some_iff ..).mpr ⟨h, rfl⟩, rfl⟩

/-- The hash is set, and the sessions of the user are gone. -/
theorem upsertUser_ok {passwordHash : Text} (h : s.upsertUser username passwordHash = .ok s') :
    (∀ row, row ∈ s'.users ↔
      row = ⟨username, passwordHash⟩ ∨ (row ∈ s.users ∧ row.username ≠ username)) ∧
    ∀ row, row ∈ s'.sessions ↔ row ∈ s.sessions ∧ row.username ≠ username := by
  obtain ⟨-, h⟩ := encoding_bind_eq_ok.mp h
  cases h
  constructor
  · intro row
    apply (Table.mem_upsert s.users ⟨username, passwordHash⟩
      (fun row => { row with passwordHash := passwordHash }) (fun _ => rfl) row).trans
    constructor
    · rintro (⟨old, -, rfl, rfl⟩ | h | ⟨rfl, -⟩)
      · exact Or.inl rfl
      · exact Or.inr h
      · exact Or.inl rfl
    · rintro (rfl | h)
      · by_cases hold : ∃ old ∈ s.users, old.username = username
        · obtain ⟨old, hold, rfl⟩ := hold
          exact Or.inl ⟨old, hold, rfl, rfl⟩
        · exact Or.inr (Or.inr ⟨rfl, fun old hmem hname => hold ⟨old, hmem, hname⟩⟩)
      · exact Or.inr (Or.inl h)
  · intro row
    exact Table.mem_deleteWhere ..

/-- The user and its sessions are gone. -/
theorem deleteUser_ok (h : s.deleteUser username = .ok s') :
    (∀ row, row ∈ s'.users ↔ row ∈ s.users ∧ row.username ≠ username) ∧
    ∀ row, row ∈ s'.sessions ↔ row ∈ s.sessions ∧ row.username ≠ username := by
  obtain ⟨-, h⟩ := encoding_bind_eq_ok.mp h
  cases h
  exact ⟨fun _ => Table.mem_deleteWhere .., fun _ => Table.mem_deleteWhere ..⟩

/-- A new row for the digest of a token is all that changes. -/
theorem createSession_eq_ok_iff [LinearOrder τ] [Add τ] {now expirySeconds : τ} {random : Bytes}
    {token : Text} :
    s.createSession sha256 now random username expirySeconds = .ok (token, s') ↔
      Encodable username ∧ token = tokenHex random ∧
      (∀ row ∈ s.sessions, row.token ≠ sha256 (utf8 (tokenHex random))) ∧
      s' = ⟨s.users, s.sessions.insertOrIgnore
        ⟨sha256 (utf8 (tokenHex random)), username, now + expirySeconds⟩⟩ := by
  unfold createSession
  rw [tokenHash_bind_eq_ok, encoding_bind_eq_ok, List.forall_mem_singleton,
    and_iff_right (tokenHex_encodable random)]
  apply and_congr_right
  intro _
  cases hinsert : s.sessions.insertNew
    ⟨sha256 (utf8 (tokenHex random)), username, now + expirySeconds⟩ with
  | some sessions =>
      obtain ⟨hfresh, rfl⟩ := Table.insertNew_eq_some_iff.mp hinsert
      change Except.ok _ = Except.ok _ ↔ _
      rw [Except.ok.injEq, Prod.mk.injEq, and_iff_right hfresh]
      exact and_congr eq_comm eq_comm
  | none =>
      constructor
      · intro h
        cases h
      · rintro ⟨-, hfresh, -⟩
        rw [Table.insertNew_eq_some_iff.mpr ⟨hfresh, rfl⟩] at hinsert
        cases hinsert

/-- The sessions under the digest of the token are gone. -/
theorem deleteSession_ok {token : Text} (h : s.deleteSession sha256 token = .ok s') :
    s'.users = s.users ∧ ∀ row, row ∈ s'.sessions ↔
      row ∈ s.sessions ∧ row.token ≠ sha256 (utf8 token) := by
  obtain ⟨-, h⟩ := tokenHash_bind_eq_ok.mp h
  cases h
  exact ⟨rfl, fun _ => Table.mem_deleteWhere ..⟩

theorem mem_purgeExpiredSessions [LinearOrder τ] {now : τ} {row : SessionRow τ} :
    row ∈ (s.purgeExpiredSessions now).sessions ↔ row ∈ s.sessions ∧ now < row.expiresAt := by
  rw [← not_le]
  exact Table.mem_deleteWhere ..

/-- A valid session is an unexpired row of the token, of a user who exists. -/
theorem validateSession_eq_some_iff [LinearOrder τ] {now : τ} {token : Text} :
    s.validateSession sha256 now token = .ok (some username) ↔
      Encodable token ∧ (∃ hash, ⟨username, hash⟩ ∈ s.users) ∧
        ∃ expiresAt, ⟨sha256 (utf8 token), username, expiresAt⟩ ∈ s.sessions ∧
          now < expiresAt := by
  have hvalid : ∀ name, name ∈ (s.validSessions (sha256 (utf8 token)) now).image
        (fun p => p.1.username) ↔ (∃ hash, ⟨name, hash⟩ ∈ s.users) ∧
          ∃ expiresAt, ⟨sha256 (utf8 token), name, expiresAt⟩ ∈ s.sessions ∧
            now < expiresAt := by
    intro name
    rw [Finset.mem_image]
    constructor
    · rintro ⟨⟨row, user⟩, hp, rfl⟩
      obtain ⟨hrows, hname, htoken, hnow⟩ := Finset.mem_filter.mp hp
      obtain ⟨hrow, huser⟩ := Finset.mem_product.mp hrows
      dsimp only at hname htoken hnow ⊢
      rw [← htoken]
      refine ⟨⟨user.passwordHash, ?_⟩, row.expiresAt, hrow, hnow⟩
      rw [← hname]
      exact huser
    · rintro ⟨⟨hash, huser⟩, expiresAt, hrow, hnow⟩
      refine ⟨(⟨_, name, expiresAt⟩, ⟨name, hash⟩), Finset.mem_filter.mpr ⟨?_, rfl, rfl, hnow⟩, rfl⟩
      exact Finset.mem_product.mpr ⟨hrow, huser⟩
  unfold validateSession
  rw [tokenHash_bind_eq_ok]
  change _ ∧ Except.ok _ = Except.ok _ ↔ _
  rw [Except.ok.injEq, fetchOne_eq_some_iff, hvalid]
  apply and_congr_right
  intro _
  apply and_iff_left_of_imp
  -- the digest is the key of its table
  rintro ⟨-, expiresAt, hrow, -⟩ name hname
  obtain ⟨-, expiresAt', hrow', -⟩ := (hvalid name).mp hname
  cases s.sessions.eq_of_key hrow hrow' rfl
  exact le_rfl

end Effects

end UserStore

end LocalGraphRag.Web
