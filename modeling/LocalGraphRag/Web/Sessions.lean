import LocalGraphRag.Systems.History
import LocalGraphRag.Web.UserStore

/-!
# Which sessions are valid

A history is a list of timed calls of the store's functions, from an empty file. A row
of `sessions` is there exactly if a call of the history inserted it and none after it
removed it; with the same for `users`, this says which tokens are valid.

## Implementation notes

A call that raises is part of a history and changes nothing. SHA-256 is a parameter:
all that is asked of it is that no two tokens of the history have one digest.
-/

namespace LocalGraphRag.Web

open LocalGraphRag.Python LocalGraphRag.Relational LocalGraphRag.Systems

inductive Call (τ : Type) where
  | upsertUser (username passwordHash : Text)
  | deleteUser (username : Text)
  | createSession (random : Bytes) (username : Text) (expirySeconds : τ)
  | deleteSession (token : Text)
  | purgeExpiredSessions
  | validateSession (token : Text)
  deriving DecidableEq

namespace Call

variable {τ : Type}

/-- The user whose row the call may change. -/
def changedUser : Call τ → Option Text
  | upsertUser username _ => some username
  | deleteUser username => some username
  | _ => none

/-- The token that a session is created with. -/
def createdToken : Call τ → Option Text
  | createSession random _ _ => some (tokenHex random)
  | _ => none

/-- The token whose digest the call takes. -/
def hashedToken : Call τ → Option Text
  | createSession random _ _ => some (tokenHex random)
  | deleteSession token => some token
  | validateSession token => some token
  | _ => none

/-- Each text of the call can be encoded, so that it does not raise. -/
def Returns : Call τ → Prop
  | upsertUser username passwordHash => Encodable username ∧ Encodable passwordHash
  | deleteUser username => Encodable username
  | createSession _ username _ => Encodable username
  | deleteSession token => Encodable token
  | purgeExpiredSessions => True
  | validateSession token => Encodable token

instance : DecidablePred (Returns (τ := τ))
  | upsertUser _ _ => inferInstanceAs (Decidable (_ ∧ _))
  | deleteUser username => inferInstanceAs (Decidable (Encodable username))
  | createSession _ username _ => inferInstanceAs (Decidable (Encodable username))
  | deleteSession token => inferInstanceAs (Decidable (Encodable token))
  | purgeExpiredSessions => inferInstanceAs (Decidable True)
  | validateSession token => inferInstanceAs (Decidable (Encodable token))

/-- What the call does to the store at a time. -/
def effect [LinearOrder τ] [Add τ] (sha256 : Bytes → Text) (now : τ) (s : UserStore τ) :
    Call τ → Except UserStoreError (UserStore τ)
  | upsertUser username passwordHash => s.upsertUser username passwordHash
  | deleteUser username => s.deleteUser username
  | createSession random username expirySeconds =>
      (s.createSession sha256 now random username expirySeconds).map Prod.snd
  | deleteSession token => s.deleteSession sha256 token
  | purgeExpiredSessions => .ok (s.purgeExpiredSessions now)
  | validateSession token => (s.validateSession sha256 now token).map fun _ => s

end Call

structure TimedCall (τ : Type) where
  time : τ
  call : Call τ
  deriving DecidableEq

section Histories
variable {τ : Type}

/-- The calls that did not raise. -/
def returned (calls : List (TimedCall τ)) : List (TimedCall τ) :=
  calls.filter fun c => c.call.Returns

/-- An `upsert_user` for the user. -/
def UpsertsUser (username : Text) (c : TimedCall τ) : Prop :=
  ∃ passwordHash, c.call = .upsertUser username passwordHash

/-- No `upsert_user` or `delete_user` for the user. -/
def SparesUser (username : Text) (c : TimedCall τ) : Prop :=
  c.call.changedUser ≠ some username

/-- A `create_session` for the user that returned the token, with an expiry after `now`. -/
def CreatesSession [LT τ] [Add τ] (token username : Text) (now : τ) (c : TimedCall τ) : Prop :=
  ∃ random expirySeconds, c.call = .createSession random username expirySeconds ∧
    tokenHex random = token ∧ now < c.time + expirySeconds

def createdTokens (calls : List (TimedCall τ)) : List Text :=
  calls.filterMap fun c => c.call.createdToken

theorem createdTokens_append (calls calls' : List (TimedCall τ)) :
    createdTokens (calls ++ calls') = createdTokens calls ++ createdTokens calls' :=
  List.filterMap_append

def hashedTokens (calls : List (TimedCall τ)) : List Text :=
  calls.filterMap fun c => c.call.hashedToken

/-- Time does not go back, no token is drawn twice and no two have one digest. -/
structure Proper [LE τ] (sha256 : Bytes → Text) (calls : List (TimedCall τ)) : Prop where
  sorted : calls.Pairwise fun c d => c.time ≤ d.time
  fresh : (createdTokens calls).Nodup
  collisionFree : ∀ a ∈ hashedTokens calls, ∀ b ∈ hashedTokens calls,
    sha256 (utf8 a) = sha256 (utf8 b) → a = b

theorem Proper.sublist [LE τ] {sha256 : Bytes → Text} {calls calls' : List (TimedCall τ)}
    (h : Proper sha256 calls) (hsub : calls'.Sublist calls) : Proper sha256 calls' where
  sorted := h.sorted.sublist hsub
  fresh := h.fresh.sublist (hsub.filterMap _)
  collisionFree := fun a ha b hb =>
    h.collisionFree a ((hsub.filterMap _).subset ha) b ((hsub.filterMap _).subset hb)

theorem mem_hashedTokens_of_created {calls : List (TimedCall τ)} {token : Text}
    (h : token ∈ createdTokens calls) : token ∈ hashedTokens calls := by
  obtain ⟨c, hc, hcreated⟩ := List.mem_filterMap.mp h
  apply List.mem_filterMap.mpr
  refine ⟨c, hc, ?_⟩
  cases hcall : c.call with
  | createSession random username expirySeconds =>
      rw [hcall] at hcreated
      exact hcreated
  | _ =>
      rw [hcall] at hcreated
      cases hcreated

variable [LinearOrder τ] [Add τ] (sha256 : Bytes → Text)

/-- A call that raises leaves the store as it is. -/
def UserStore.step (s : UserStore τ) (c : TimedCall τ) : UserStore τ :=
  (c.call.effect sha256 c.time s).toOption.getD s

/-- The store after some calls on a new file. -/
def storeAfter (calls : List (TimedCall τ)) : UserStore τ :=
  calls.foldl (UserStore.step sha256) UserStore.empty

omit [LinearOrder τ] [Add τ] in
theorem UpsertsUser.not_spares {username : Text} {c : TimedCall τ} (h : UpsertsUser username c) :
    ¬ SparesUser username c := by
  obtain ⟨passwordHash, hcall⟩ := h
  intro hspares
  apply hspares
  rw [hcall]
  rfl

/-- The call inserts the row. -/
def InsertsRow (row : SessionRow τ) (c : TimedCall τ) : Prop :=
  ∃ random expirySeconds, c.call = .createSession random row.username expirySeconds ∧
    row.token = sha256 (utf8 (tokenHex random)) ∧ row.expiresAt = c.time + expirySeconds

/-- The call does not remove the row. -/
def KeepsRow (row : SessionRow τ) (c : TimedCall τ) : Prop :=
  SparesUser row.username c ∧
    (∀ token, c.call = .deleteSession token → row.token ≠ sha256 (utf8 token)) ∧
    (c.call = .purgeExpiredSessions → c.time < row.expiresAt)

section Steps
variable {sha256} {s s' : UserStore τ} {c : TimedCall τ}

theorem step_of_effect (h : c.call.effect sha256 c.time s = .ok s') : s.step sha256 c = s' := by
  unfold UserStore.step
  rw [h]
  rfl

omit [LinearOrder τ] [Add τ] in
theorem exists_ok_of_map {α β : Type} {x : Except UserStoreError α} {f : α → β} {b : β}
    (h : x.map f = .ok b) : ∃ a, x = .ok a ∧ f a = b := by
  cases x with
  | error e => cases h
  | ok a => exact ⟨a, rfl, Except.ok.inj h⟩

theorem Call.returns_of_effect {call : Call τ} {now : τ}
    (h : call.effect sha256 now s = .ok s') : call.Returns := by
  cases call with
  | upsertUser username passwordHash =>
      have henc := (UserStore.encoding_bind_eq_ok.mp h).1
      exact ⟨henc username (by simp), henc passwordHash (by simp)⟩
  | deleteUser username => exact (UserStore.encoding_bind_eq_ok.mp h).1 username (by simp)
  | createSession random username expirySeconds =>
      obtain ⟨r, hr, -⟩ := exists_ok_of_map h
      exact (UserStore.createSession_eq_ok_iff.mp hr).1
  | deleteSession token => exact (UserStore.tokenHash_bind_eq_ok.mp h).1
  | purgeExpiredSessions => trivial
  | validateSession token =>
      obtain ⟨r, hr, -⟩ := exists_ok_of_map h
      exact (UserStore.tokenHash_bind_eq_ok.mp hr).1

/-- A call that raises changes nothing. -/
theorem step_of_not_returns (h : ¬ c.call.Returns) : s.step sha256 c = s := by
  unfold UserStore.step
  cases heffect : c.call.effect sha256 c.time s with
  | ok s' => exact absurd (Call.returns_of_effect heffect) h
  | error e => rfl

/-- Where a created token is new, a call whose texts can be encoded does not raise. -/
theorem Call.exists_effect (s : UserStore τ) (now : τ) {call : Call τ} (hreturns : call.Returns)
    (hnew : ∀ token ∈ call.createdToken, ∀ row ∈ s.sessions, row.token ≠ sha256 (utf8 token)) :
    ∃ s', call.effect sha256 now s = .ok s' := by
  cases call with
  | upsertUser username passwordHash =>
      exact ⟨_, UserStore.encoding_bind_eq_ok.mpr ⟨by simpa [Returns] using hreturns, rfl⟩⟩
  | deleteUser username =>
      exact ⟨_, UserStore.encoding_bind_eq_ok.mpr
        ⟨List.forall_mem_singleton.mpr hreturns, rfl⟩⟩
  | createSession random username expirySeconds =>
      have hcreate : ∃ r, s.createSession sha256 now random username expirySeconds = .ok r :=
        ⟨_, UserStore.createSession_eq_ok_iff.mpr ⟨hreturns, rfl, hnew _ rfl, rfl⟩⟩
      obtain ⟨r, hr⟩ := hcreate
      exact ⟨r.2, congrArg (Except.map Prod.snd) hr⟩
  | deleteSession token => exact ⟨_, UserStore.tokenHash_bind_eq_ok.mpr ⟨hreturns, rfl⟩⟩
  | purgeExpiredSessions => exact ⟨_, rfl⟩
  | validateSession token =>
      have hvalidate : ∃ r, s.validateSession sha256 now token = .ok r :=
        ⟨_, UserStore.tokenHash_bind_eq_ok.mpr ⟨hreturns, rfl⟩⟩
      obtain ⟨r, hr⟩ := hvalidate
      exact ⟨s, congrArg (Except.map fun _ => s) hr⟩

theorem Call.users_of_effect {call : Call τ} {now : τ} (hnone : call.changedUser = none)
    (h : call.effect sha256 now s = .ok s') : s'.users = s.users := by
  cases call with
  | upsertUser username passwordHash => cases hnone
  | deleteUser username => cases hnone
  | createSession random username expirySeconds =>
      obtain ⟨r, hr, rfl⟩ := exists_ok_of_map h
      rw [(UserStore.createSession_eq_ok_iff.mp hr).2.2.2]
  | deleteSession token => exact (UserStore.deleteSession_ok h).1
  | purgeExpiredSessions =>
      cases h
      rfl
  | validateSession token =>
      obtain ⟨r, -, rfl⟩ := exists_ok_of_map h
      rfl

/-- Whether the user exists after a call. -/
theorem exists_user_step (hreturns : c.call.Returns) (username : Text) :
    (∃ hash, ⟨username, hash⟩ ∈ (s.step sha256 c).users) ↔
      UpsertsUser username c ∨
        (SparesUser username c ∧ ∃ hash, ⟨username, hash⟩ ∈ s.users) := by
  by_cases hnone : c.call.changedUser = none
  · have husers : (s.step sha256 c).users = s.users := by
      unfold UserStore.step
      cases heffect : c.call.effect sha256 c.time s with
      | error e => rfl
      | ok s' => exact Call.users_of_effect hnone heffect
    have hupserts : ¬ UpsertsUser username c := by
      intro h
      obtain ⟨hash, hcall⟩ := h
      rw [hcall] at hnone
      cases hnone
    have hspares : SparesUser username c := by simp [SparesUser, hnone]
    rw [husers]
    tauto
  · have hcreated : c.call.createdToken = none := by
      cases hcall : c.call <;> simp_all [Call.changedUser, Call.createdToken]
    obtain ⟨s', heffect⟩ := Call.exists_effect s c.time hreturns
      (by simp [hcreated])
    rw [step_of_effect heffect]
    obtain ⟨time, call⟩ := c
    cases call with
    | upsertUser name hash =>
        simp only [(UserStore.upsertUser_ok heffect).1]
        constructor
        · rintro ⟨old, hold | ⟨hold, hname⟩⟩
          · cases hold
            exact Or.inl ⟨hash, rfl⟩
          · exact Or.inr ⟨fun h => hname (Option.some.inj h).symm, old, hold⟩
        · rintro (⟨_, hcall⟩ | ⟨hspares, old, hold⟩)
          · cases hcall
            exact ⟨hash, Or.inl rfl⟩
          · exact ⟨old, Or.inr ⟨hold, fun h => hspares (congrArg some h.symm)⟩⟩
    | deleteUser name =>
        simp only [(UserStore.deleteUser_ok heffect).1]
        constructor
        · rintro ⟨old, hold, hname⟩
          exact Or.inr ⟨fun h => hname (Option.some.inj h).symm, old, hold⟩
        · rintro (⟨_, hcall⟩ | ⟨hspares, old, hold⟩)
          · cases hcall
          · exact ⟨old, hold, fun h => hspares (congrArg some h.symm)⟩
    | createSession random name expirySeconds => exact absurd rfl hnone
    | deleteSession token => exact absurd rfl hnone
    | purgeExpiredSessions => exact absurd rfl hnone
    | validateSession token => exact absurd rfl hnone

/-- Whether a row of `sessions` is there after a call. -/
theorem mem_sessions_step (hreturns : c.call.Returns)
    (hnew : ∀ token ∈ c.call.createdToken, ∀ row ∈ s.sessions, row.token ≠ sha256 (utf8 token))
    (row : SessionRow τ) :
    row ∈ (s.step sha256 c).sessions ↔
      InsertsRow sha256 row c ∨ (KeepsRow sha256 row c ∧ row ∈ s.sessions) := by
  obtain ⟨s', heffect⟩ := Call.exists_effect s c.time hreturns hnew
  rw [step_of_effect heffect]
  obtain ⟨time, call⟩ := c
  cases call with
  | upsertUser name hash =>
      rw [(UserStore.upsertUser_ok heffect).2]
      simp [InsertsRow, KeepsRow, SparesUser, Call.changedUser, and_comm, eq_comm]
  | deleteUser name =>
      rw [(UserStore.deleteUser_ok heffect).2]
      simp [InsertsRow, KeepsRow, SparesUser, Call.changedUser, and_comm, eq_comm]
  | createSession random name expirySeconds =>
      obtain ⟨r, hr, rfl⟩ := exists_ok_of_map heffect
      obtain ⟨-, -, hfresh, hs'⟩ := UserStore.createSession_eq_ok_iff.mp hr
      rw [hs', Table.mem_insertOrIgnore, and_iff_left hfresh]
      obtain ⟨token, username, expiresAt⟩ := row
      simp [InsertsRow, KeepsRow, SparesUser, Call.changedUser, or_comm]
      rw [eq_comm (a := name), and_left_comm]
  | deleteSession token =>
      rw [(UserStore.deleteSession_ok heffect).2]
      simp [InsertsRow, KeepsRow, SparesUser, Call.changedUser, and_comm]
  | purgeExpiredSessions =>
      cases heffect
      rw [UserStore.mem_purgeExpiredSessions]
      simp [InsertsRow, KeepsRow, SparesUser, Call.changedUser, and_comm]
  | validateSession token =>
      obtain ⟨r, -, rfl⟩ := exists_ok_of_map heffect
      simp [InsertsRow, KeepsRow, SparesUser, Call.changedUser]

end Steps

section Validity
variable {sha256} {calls : List (TimedCall τ)} {token username : Text} {now : τ}

theorem storeAfter_concat (c : TimedCall τ) :
    storeAfter sha256 (calls ++ [c]) = (storeAfter sha256 calls).step sha256 c := by
  rw [storeAfter, List.foldl_append]
  rfl

/-- Calls that raised can be left out. -/
theorem storeAfter_returned :
    storeAfter sha256 (returned calls) = storeAfter sha256 calls := by
  induction calls using List.reverseRecOn with
  | nil => rfl
  | append_singleton calls c ih =>
      rw [returned, List.filter_append, storeAfter_concat, ← ih, List.filter_singleton]
      change storeAfter sha256 (returned calls ++ _) = _
      by_cases hc : c.call.Returns
      · rw [decide_eq_true hc, cond_true, storeAfter_concat]
      · rw [decide_eq_false hc, cond_false, List.append_nil, step_of_not_returns hc]

/-- A row that is new was inserted. -/
theorem insertsRow_or_mem {s : UserStore τ} {c : TimedCall τ} {row : SessionRow τ}
    (h : row ∈ (s.step sha256 c).sessions) : InsertsRow sha256 row c ∨ row ∈ s.sessions := by
  cases heffect : c.call.effect sha256 c.time s with
  | error e =>
      right
      unfold UserStore.step at h
      rwa [heffect] at h
  | ok s' =>
      apply ((mem_sessions_step (Call.returns_of_effect heffect) ?_ row).mp h).imp_right
      · exact And.right
      · intro token htoken old hold
        cases hcall : c.call with
        | createSession random name expirySeconds =>
            rw [hcall] at heffect htoken
            cases htoken
            obtain ⟨r, hr, -⟩ := exists_ok_of_map heffect
            exact (UserStore.createSession_eq_ok_iff.mp hr).2.2.1 old hold
        | _ =>
            rw [hcall] at htoken
            cases htoken

/-- Every digest in `sessions` is that of a token which the history created. -/
theorem exists_createdToken {row : SessionRow τ}
    (h : row ∈ (storeAfter sha256 calls).sessions) :
    ∃ token ∈ createdTokens calls, row.token = sha256 (utf8 token) := by
  induction calls using List.reverseRecOn with
  | nil => exact absurd h (Table.notMem_empty row)
  | append_singleton calls c ih =>
      rw [storeAfter_concat] at h
      rw [createdTokens_append]
      obtain ⟨random, expirySeconds, hcall, htoken, -⟩ | hrow := insertsRow_or_mem h
      · exact ⟨tokenHex random, by simp [createdTokens, hcall, Call.createdToken], htoken⟩
      · obtain ⟨token, htoken, hdigest⟩ := ih hrow
        exact ⟨token, List.mem_append_left _ htoken, hdigest⟩

variable (sha256) in
/-- The users are those whose last `upsert_user` or `delete_user` was an `upsert_user`. -/
theorem exists_user_storeAfter (hreturns : ∀ c ∈ calls, c.call.Returns) (username : Text) :
    (∃ hash, ⟨username, hash⟩ ∈ (storeAfter sha256 calls).users) ↔
      Since (UpsertsUser username) (SparesUser username) calls := by
  apply holds_foldl_iff (UserStore.step sha256) (fun s => ∃ hash, ⟨username, hash⟩ ∈ s.users)
  · rintro ⟨hash, h⟩
    exact Table.notMem_empty _ h
  · intro before c hbefore
    exact exists_user_step (hreturns c (hbefore.subset (by simp))) username

/-- The rows are those that a call inserted and no later one removed. -/
theorem mem_sessions_storeAfter (hproper : Proper sha256 calls)
    (hreturns : ∀ c ∈ calls, c.call.Returns) (row : SessionRow τ) :
    row ∈ (storeAfter sha256 calls).sessions ↔
      Since (InsertsRow sha256 row) (KeepsRow sha256 row) calls := by
  apply holds_foldl_iff (UserStore.step sha256) (fun s => row ∈ s.sessions)
  · exact Table.notMem_empty row
  · intro before c hbefore
    apply mem_sessions_step (hreturns c (hbefore.subset (by simp)))
    -- a token of this history is drawn once, and no other has its digest
    intro token htoken old hold hdigest
    have hstarts := hproper.sublist hbefore.sublist
    obtain ⟨token', htoken', hold⟩ := exists_createdToken hold
    have hlast : token ∈ createdTokens [c] := by simpa [createdTokens] using htoken
    have hsame : token' = token := by
      apply hstarts.collisionFree token' (mem_hashedTokens_of_created ?_) token
        (mem_hashedTokens_of_created ?_) (hold.symm.trans hdigest)
      · rw [createdTokens_append]
        exact List.mem_append_left _ htoken'
      · rw [createdTokens_append]
        exact List.mem_append_right _ hlast
    have hfresh := hstarts.fresh
    rw [createdTokens_append] at hfresh
    exact List.disjoint_of_nodup_append hfresh (hsame ▸ htoken') hlast

/-- Which sessions are valid after calls that all returned. -/
theorem validateSession_storeAfter
    (hproper : Proper sha256 (calls ++ [⟨now, .validateSession token⟩]))
    (hreturns : ∀ c ∈ calls, c.call.Returns) :
    (storeAfter sha256 calls).validateSession sha256 now token = .ok (some username) ↔
      Since (UpsertsUser username) (SparesUser username) calls ∧
      Since (CreatesSession token username now)
        (fun c => SparesUser username c ∧ c.call ≠ .deleteSession token) calls := by
  have hcalls := hproper.sublist (List.sublist_append_left calls _)
  have hbefore : ∀ c ∈ calls, c.time ≤ now := fun c hc =>
    (List.pairwise_append.mp hproper.sorted).2.2 c hc _ (List.mem_singleton_self _)
  have hdigest : ∀ c ∈ calls, ∀ a, c.call.hashedToken = some a →
      (sha256 (utf8 a) = sha256 (utf8 token) ↔ a = token) := by
    intro c hc a ha
    refine ⟨hproper.collisionFree a ?_ token ?_, fun h => by rw [h]⟩
    · exact List.mem_filterMap.mpr ⟨c, List.mem_append_left _ hc, ha⟩
    · simp [hashedTokens, Call.hashedToken]
  rw [UserStore.validateSession_eq_some_iff, exists_user_storeAfter sha256 hreturns]
  constructor
  · rintro ⟨-, huser, expiresAt, hrow, hnow⟩
    refine ⟨huser, ?_⟩
    apply ((mem_sessions_storeAfter hcalls hreturns _).mp hrow).mono
    · rintro c hc ⟨random, expirySeconds, hcall, htoken, hexpires⟩
      refine ⟨random, expirySeconds, hcall, ?_, hexpires ▸ hnow⟩
      exact (hdigest c hc _ (by rw [hcall]; rfl)).mp htoken.symm
    · rintro c hc ⟨hspares, hdelete, -⟩
      refine ⟨hspares, fun hcall => hdelete token hcall rfl⟩
  · rintro ⟨huser, hsince⟩
    obtain ⟨before, c, after, rfl, ⟨random, expirySeconds, hcall, rfl, hnow⟩, hafter⟩ := hsince
    refine ⟨tokenHex_encodable random, huser, c.time + expirySeconds, ?_, hnow⟩
    rw [mem_sessions_storeAfter hcalls hreturns]
    refine ⟨before, c, after, rfl, ⟨random, expirySeconds, hcall, rfl, rfl⟩, fun d hd => ?_⟩
    have hmem : d ∈ before ++ c :: after := by simp [hd]
    refine ⟨(hafter d hd).1, fun token hdelete hsame => ?_, fun _ => ?_⟩
    · have htoken := (hdigest d hmem token (by rw [hdelete]; rfl)).mp hsame.symm
      exact (hafter d hd).2 (htoken ▸ hdelete)
    · exact (hbefore d hmem).trans_lt hnow

omit [Add τ] in
theorem validateSession_eq_none {s : UserStore τ} (htoken : Encodable token)
    (h : ∀ username, s.validateSession sha256 now token ≠ .ok (some username)) :
    s.validateSession sha256 now token = .ok none := by
  have hvalidate : ∃ r, s.validateSession sha256 now token = .ok r :=
    ⟨_, UserStore.tokenHash_bind_eq_ok.mpr ⟨htoken, rfl⟩⟩
  obtain ⟨r, hr⟩ := hvalidate
  cases r with
  | none => exact hr
  | some username => exact absurd hr (h username)

omit [LinearOrder τ] [Add τ] in
theorem mem_returned {c : TimedCall τ} :
    c ∈ returned calls ↔ c ∈ calls ∧ c.call.Returns := by
  rw [returned, List.mem_filter, decide_eq_true_eq]

omit [LinearOrder τ] [Add τ] in
theorem returned_append_cons {before after : List (TimedCall τ)} {c : TimedCall τ}
    (hc : c.call.Returns) :
    returned (before ++ c :: after) = returned before ++ c :: returned after := by
  simp [returned, hc]

/-- Which sessions are valid, whether or not a call raised. -/
theorem valid_iff (hproper : Proper sha256 (calls ++ [⟨now, .validateSession token⟩])) :
    (storeAfter sha256 calls).validateSession sha256 now token = .ok (some username) ↔
      Since (UpsertsUser username) (SparesUser username) (returned calls) ∧
      Since (CreatesSession token username now)
        (fun c => SparesUser username c ∧ c.call ≠ .deleteSession token) (returned calls) := by
  rw [← storeAfter_returned]
  apply validateSession_storeAfter
  · exact hproper.sublist (List.filter_sublist.append (List.Sublist.refl _))
  · intro c hc
    exact (mem_returned.mp hc).2

section Created
variable {before after : List (TimedCall τ)} {c : TimedCall τ}

omit [LinearOrder τ] [Add τ] in
/-- A token is created once. -/
theorem createdToken_ne {d : TimedCall τ}
    (hfresh : (createdTokens (before ++ c :: after)).Nodup)
    (hc : c.call.createdToken = some token) (hd : d ∈ before ∨ d ∈ after) :
    d.call.createdToken ≠ some token := by
  intro hdtoken
  have hmem : ∀ calls, d ∈ calls → token ∈ createdTokens calls :=
    fun calls h => List.mem_filterMap.mpr ⟨d, h, hdtoken⟩
  have hcons : createdTokens (c :: after) = token :: createdTokens after :=
    List.filterMap_cons_some hc
  rw [createdTokens_append] at hfresh
  obtain hd | hd := hd
  · refine List.disjoint_of_nodup_append hfresh (hmem before hd) ?_
    exact hcons ▸ List.mem_cons_self
  · have hnodup : (createdTokens (c :: after)).Nodup := hfresh.of_append_right
    rw [hcons] at hnodup
    exact (List.nodup_cons.mp hnodup).1 (hmem after hd)

omit [LinearOrder τ] in
theorem CreatesSession.createdToken [LT τ] (h : CreatesSession token username now c) :
    c.call.createdToken = some token := by
  obtain ⟨random, expirySeconds, hcall, rfl, -⟩ := h
  rw [hcall]
  rfl

/-- A session of a user who did not exist then is never valid. -/
theorem not_valid_of_created_without_user {name : Text}
    (hproper : Proper sha256 ((before ++ c :: after) ++ [⟨now, .validateSession token⟩]))
    (hc : c.call.createdToken = some token)
    (hname : ∀ random name expirySeconds, c.call = .createSession random name expirySeconds →
      ∀ hash, (storeAfter sha256 before).getHash name ≠ .ok (some hash)) :
    (storeAfter sha256 (before ++ c :: after)).validateSession sha256 now token ≠
      .ok (some name) := by
  intro hvalid
  obtain ⟨huser, hcreated⟩ := (valid_iff hproper).mp hvalid
  have hfresh := (hproper.sublist (List.sublist_append_left _ _)).fresh
  have hother : ∀ d, d ∈ before ∨ d ∈ after → ¬ CreatesSession token name now d :=
    fun d hd h => createdToken_ne hfresh hc hd h.createdToken
  have hthis : CreatesSession token name now c ∧ c.call.Returns := by
    obtain ⟨d, hd, hstarts⟩ := hcreated.exists_starts
    obtain ⟨hd, hreturns⟩ := mem_returned.mp hd
    obtain hd | hd := List.mem_append.mp hd
    · exact absurd hstarts (hother d (Or.inl hd))
    · obtain rfl | hd := List.mem_cons.mp hd
      · exact ⟨hstarts, hreturns⟩
      · exact absurd hstarts (hother d (Or.inr hd))
  obtain ⟨⟨random, expirySeconds, hcall, -, -⟩, hreturns⟩ := hthis
  rw [returned_append_cons hreturns] at huser hcreated
  rw [List.append_cons] at hcreated
  -- nothing changed the user since, who was thus there when the session was created
  have hkept := (hcreated.of_append fun d hd => hother d (Or.inr (mem_returned.mp hd).1)).2
  have hexists := (huser.of_append ?_).1
  · obtain ⟨hash, hhash⟩ := (exists_user_storeAfter sha256
      (fun d hd => (mem_returned.mp hd).2) name).mpr hexists
    rw [storeAfter_returned] at hhash
    rw [hcall] at hreturns
    exact hname _ _ _ hcall hash (UserStore.getHash_eq_some_iff.mpr ⟨hreturns, hhash⟩)
  · intro d hd hupserts
    obtain rfl | hd := List.mem_cons.mp hd
    · obtain ⟨_, hupsert⟩ := hupserts
      rw [hupsert] at hcall
      cases hcall
    · exact hupserts.not_spares (hkept d hd).1

/-- A session that was created before an `upsert_user` of its user is not valid. -/
theorem not_valid_of_created_before_upsert {passwordHash : Text}
    (hproper : Proper sha256 ((before ++ c :: after) ++ [⟨now, .validateSession token⟩]))
    (hc : c.call = .upsertUser username passwordHash) (hreturns : c.call.Returns)
    (hcreated : token ∈ createdTokens before) :
    (storeAfter sha256 (before ++ c :: after)).validateSession sha256 now token ≠
      .ok (some username) := by
  intro hvalid
  have hsince := ((valid_iff hproper).mp hvalid).2
  rw [returned_append_cons hreturns] at hsince
  obtain ⟨d, hd, hstarts⟩ := hsince.after_of_ends
    (by
      rintro ⟨_, _, hcall, -⟩
      rw [hc] at hcall
      cases hcall)
    (fun hkeeps => hkeeps.1 (by rw [hc]; rfl))
  have hfresh := (hproper.sublist (List.sublist_append_left _ _)).fresh
  rw [createdTokens_append] at hfresh
  refine List.disjoint_of_nodup_append hfresh hcreated (List.mem_filterMap.mpr ⟨d, ?_, ?_⟩)
  · exact List.mem_cons_of_mem _ (mem_returned.mp hd).1
  · exact hstarts.createdToken

end Created

/-- Purges do not change which sessions are valid. -/
theorem validateSession_without_purges
    (hproper : Proper sha256 (calls ++ [⟨now, .validateSession token⟩])) :
    (storeAfter sha256 (calls.filter fun c => c.call ≠ .purgeExpiredSessions)).validateSession
        sha256 now token =
      (storeAfter sha256 calls).validateSession sha256 now token := by
  by_cases htoken : Encodable token
  · have hvalid : ∀ username, (storeAfter sha256
          (calls.filter fun c => c.call ≠ .purgeExpiredSessions)).validateSession
          sha256 now token = .ok (some username) ↔
        (storeAfter sha256 calls).validateSession sha256 now token = .ok (some username) := by
      intro username
      have hreturned : returned (calls.filter fun c => c.call ≠ .purgeExpiredSessions) =
          (returned calls).filter fun c => c.call ≠ .purgeExpiredSessions :=
        List.filter_comm ..
      rw [valid_iff hproper, valid_iff (hproper.sublist
        (List.filter_sublist.append (List.Sublist.refl _))), hreturned]
      apply and_congr
      · apply since_filter
        intro c _ hpurge
        rw [not_not] at hpurge
        simp [UpsertsUser, SparesUser, hpurge, Call.changedUser]
      · apply since_filter
        intro c _ hpurge
        rw [not_not] at hpurge
        simp [CreatesSession, SparesUser, hpurge, Call.changedUser]
    by_cases hany : ∃ username,
        (storeAfter sha256 calls).validateSession sha256 now token = .ok (some username)
    · obtain ⟨username, husername⟩ := hany
      rw [husername, (hvalid username).mpr husername]
    · have hnone := not_exists.mp hany
      rw [validateSession_eq_none htoken hnone,
        validateSession_eq_none htoken fun username h => hnone username ((hvalid username).mp h)]
  · unfold UserStore.validateSession UserStore.tokenHash UserStore.encoding
    rw [if_neg (by simpa using htoken)]
    rfl

/-- A token is valid for the user that a `create_session` returned it for, while it has
not expired, no `delete_session` of it came since, and the last `upsert_user` or
`delete_user` of the user is an `upsert_user` before it. So a session created while its
user did not exist is never valid, adding a user again revives none, and purges change
no result. -/
theorem sessions_exact (hproper : Proper sha256 (calls ++ [⟨now, .validateSession token⟩])) :
    (∀ username, (storeAfter sha256 calls).validateSession sha256 now token =
        .ok (some username) ↔
      Since (UpsertsUser username) (SparesUser username) (returned calls) ∧
      Since (CreatesSession token username now)
        (fun c => SparesUser username c ∧ c.call ≠ .deleteSession token) (returned calls)) ∧
    (∀ before c after random username expirySeconds, calls = before ++ c :: after →
      c.call = .createSession random username expirySeconds → tokenHex random = token →
      (∀ hash, (storeAfter sha256 before).getHash username ≠ .ok (some hash)) →
      (storeAfter sha256 calls).validateSession sha256 now token = .ok none) ∧
    (∀ before c after username passwordHash, calls = before ++ c :: after →
      c.call = .upsertUser username passwordHash → c.call.Returns →
      token ∈ createdTokens before →
      (storeAfter sha256 calls).validateSession sha256 now token ≠ .ok (some username)) ∧
    (storeAfter sha256 (calls.filter fun c => c.call ≠ .purgeExpiredSessions)).validateSession
        sha256 now token =
      (storeAfter sha256 calls).validateSession sha256 now token := by
  refine ⟨fun username => valid_iff hproper, ?_, ?_, ?_⟩
  · rintro before c after random username expirySeconds rfl hcall rfl hnone
    apply validateSession_eq_none (tokenHex_encodable random)
    intro name
    apply not_valid_of_created_without_user hproper (by rw [hcall]; rfl)
    intro random' name' expirySeconds' hcall'
    rw [hcall] at hcall'
    cases hcall'
    exact hnone
  · rintro before c after username passwordHash rfl hcall hreturns hcreated
    exact not_valid_of_created_before_upsert hproper hcall hreturns hcreated
  · exact validateSession_without_purges hproper

/-- A login of one user, a purge and a visit of another. -/
def sampleCalls : List (TimedCall Nat) :=
  [⟨0, .upsertUser (text "alice") (text "hash")⟩, ⟨1, .createSession [7] (text "alice") 10⟩,
    ⟨5, .purgeExpiredSessions⟩, ⟨6, .deleteUser (text "bob")⟩]

theorem sessions_exact_sample :
    (storeAfter latin1 sampleCalls).validateSession latin1 8 (tokenHex [7]) =
      .ok (some (text "alice")) := by
  have hproper : Proper latin1 (sampleCalls ++ [⟨8, .validateSession (tokenHex [7])⟩]) :=
    ⟨by decide, by decide, fun a _ b _ h => utf8_injective (latin1_injective h)⟩
  apply ((sessions_exact hproper).1 (text "alice")).mpr
  have hreturned : returned sampleCalls = sampleCalls := by decide +kernel
  rw [hreturned]
  constructor
  · refine ⟨[], _, _, rfl, ⟨_, rfl⟩, ?_⟩
    unfold SparesUser
    decide
  · refine ⟨[_], _, _, rfl, ⟨_, _, rfl, rfl, by decide⟩, ?_⟩
    unfold SparesUser
    decide

end Validity

end Histories

end LocalGraphRag.Web
