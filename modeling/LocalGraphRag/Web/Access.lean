import LocalGraphRag.Web.Logins
import LocalGraphRag.Web.Middleware
import LocalGraphRag.Web.Sessions

/-!
# What requests can reach

The server over whole runs: requests pass the middleware and reach the handlers of `routes`,
logins go on step by step beside them, and other processes change the users. What a client can
try is bounded by the limiters, and what it can reach by the key and the sessions.

## Implementation notes

Each event reads both clocks; the monotonic one does not go back. The calls of the user store,
and the requests that the limiters let through, are history variables. A restart drops the
logins that are under way and starts both limiters anew; ids are not used again. Which bodies
and methods the router refuses is part of the event. The path that the router goes by is taken
to be `request.url.path`, and reading that not to raise. The handlers that are left out use
neither the user store nor the limiters.
-/

namespace LocalGraphRag.Web

open LocalGraphRag.Numbers LocalGraphRag.Python LocalGraphRag.Systems

/-- `LoginRequest`. -/
structure LoginRequest where
  username : Text
  password : Text
  username_length : 1 ≤ username.length ∧ username.length ≤ 128
  password_length : 1 ≤ password.length ∧ password.length ≤ 128
  deriving DecidableEq

/-- A request that a limiter let through. -/
structure Attempt (τ : Type) where
  id : ℕ
  request : Request
  time : τ

/-- Whether and where the middleware asks a limiter. -/
inductive Gate where
  | unlimited
  | login
  | limited
  deriving DecidableEq

def gate (path : Text) : Gate :=
  if path = text "/favicon.ico" ∨ path = text "/ui" ∨ text "/ui/" <+: path then .unlimited
  else if path = text "/healthz" then .unlimited
  else if path = text "/auth/login" then .login
  else .limited

inductive SiteAct where
  | request (i : ℕ) (request : Request) (posted : Bool) (credentials : Option LoginRequest)
  | getHash (i : ℕ)
  | checkpw (i : ℕ)
  | createSession (i : ℕ) (random : Bytes)
  | upsertUser (username passwordHash : Text)
  | deleteUser (username : Text)
  | purgeExpiredSessions
  | sweepExpired (login : Bool)
  | restart

/-- What happens, with the monotonic clock and the time of day. -/
structure SiteEvent (τ υ : Type) where
  now : τ
  time : υ
  act : SiteAct

/-- The server and the user store. `attempts` and `tested` are the requests that got past the
limiters since the start, and `checked` the logins whose password was compared. -/
structure Site (τ υ : Type) where
  logins : Logins υ
  buckets : RateBuckets τ
  clock : τ
  calls : List (TimedCall υ)
  attempts : List (Attempt τ)
  tested : List (Attempt τ)
  checked : List ℕ

/-- What the server is started with. -/
structure SiteConfig (τ υ : Type) where
  settings : WebSettings τ
  isIpAddress : Text → Bool
  server : Server υ

section Limiters
variable {τ : Type} [LinearOrder τ] [Sub τ] {limiter : Limiter τ} {clock : τ}
variable {s : LimiterState τ}

/-- The buckets and the accepted calls are what calls and sweeps up to that time left. -/
def Limiter.Reaches (limiter : Limiter τ) (clock : τ) (s : LimiterState τ) : Prop :=
  ∃ seen, InOrder seen ∧ (∀ e ∈ seen, e.time ≤ clock) ∧ limiter.after seen = s

theorem Limiter.reaches_start : limiter.Reaches clock ⟨fun _ => none, []⟩ := by
  refine ⟨[], List.Pairwise.nil, ?_, rfl⟩
  intro e he
  exact absurd he List.not_mem_nil

theorem Limiter.Reaches.mono (h : limiter.Reaches clock s) {later : τ} (hle : clock ≤ later) :
    limiter.Reaches later s := by
  obtain ⟨seen, hsorted, hclock, hs⟩ := h
  exact ⟨seen, hsorted, fun e he => (hclock e he).trans hle, hs⟩

theorem Limiter.Reaches.step (h : limiter.Reaches clock s) {e : LimiterEvent τ}
    (hle : clock ≤ e.time) : limiter.Reaches e.time (limiter.step s e) := by
  obtain ⟨seen, hsorted, hclock, rfl⟩ := h
  have hbefore : ∀ e' ∈ seen, e'.time ≤ e.time := fun e' he' => (hclock e' he').trans hle
  refine ⟨seen ++ [e], ?_, ?_, ?_⟩
  · apply List.pairwise_append.mpr
    refine ⟨hsorted, List.pairwise_singleton _ e, fun e' he' e'' he'' => ?_⟩
    rw [List.mem_singleton.mp he'']
    exact hbefore e' he'
  · rw [List.forall_mem_append, List.forall_mem_singleton]
    exact ⟨hbefore, le_rfl⟩
  · rw [Limiter.after, List.foldl_append]
    rfl

/-- No interval shorter than the window holds more accepted calls of a client than the
bound. -/
theorem Limiter.Reaches.length_le [MonotoneSub τ] (h : limiter.Reaches clock s) (ip : Text)
    {a b : τ} (hab : b - a < limiter.windowSeconds) : (s.accepted.filter fun c =>
      c.1 = ip ∧ a ≤ c.2 ∧ c.2 ≤ b).length ≤ limiter.maxRequests := by
  obtain ⟨seen, hsorted, -, rfl⟩ := h
  rw [length_filter_accepted _ _ fun t => a ≤ t ∧ t ≤ b, hsorted.acceptedFor_eq]
  exact length_filter_interval_le (hsorted.callTimes_sorted ip) hab

end Limiters

namespace SiteConfig

variable {τ υ : Type} (config : SiteConfig τ υ)

def clientIp (request : Request) : Text :=
  resolveClientIp config.isIpAddress config.settings.trustedProxyIps request

def rateLimiter : Limiter τ :=
  ⟨config.settings.rateWindowSeconds, config.settings.rateMaxRequests⟩

def loginLimiter : Limiter τ :=
  ⟨config.settings.rateWindowSeconds, config.settings.rateMaxLoginRequests⟩

/-- Requests as calls of a limiter. -/
def calls (attempts : List (Attempt τ)) : List (Text × τ) :=
  attempts.map fun a => (config.clientIp a.request, a.time)

end SiteConfig

namespace Site

variable {τ υ : Type}

/-- The state at the first start, on a new file. -/
def start (clock : τ) : Site τ υ :=
  ⟨Logins.start, ⟨fun _ => none, fun _ => none⟩, clock, [], [], [], []⟩

/-- A restart ends the logins that are under way. -/
def dropped : LoginPhase → LoginPhase
  | .idle => .idle
  | .done username password stored token => .done username password stored token
  | _ => .raised

def restart (σ : Site τ υ) : Site τ υ :=
  { σ with
    logins := { σ.logins with phase := fun i => dropped (σ.logins.phase i) }
    buckets := ⟨fun _ => none, fun _ => none⟩
    attempts := []
    tested := []
    checked := [] }

section Steps
variable [LinearOrder τ] [Sub τ] [LinearOrder υ] [Add υ] (config : SiteConfig τ υ)

/-- A call of the user store; one that raises changes nothing. -/
def commitCall (c : TimedCall υ) (σ : Site τ υ) : Site τ υ :=
  { σ with
    logins := σ.logins.commit (c.call.effect config.server.sha256 c.time σ.logins.store)
    calls := σ.calls ++ returned [c] }

/-- A login's next step; its session is a call of the user store. -/
def proceed (event : LoginEvent υ) (σ : Site τ υ) : Option (Site τ υ) :=
  (σ.logins.step config.server event).map fun logins => { σ with logins }

def createSession (i : ℕ) (time : υ) (random : Bytes) (σ : Site τ υ) : Option (Site τ υ) :=
  (σ.logins.step config.server (.createSession i time random)).map fun logins =>
    match logins.phase i with
    | .done username _ _ _ =>
        let call := .createSession random username config.server.sessionExpirySeconds
        { σ with logins, calls := σ.calls ++ [⟨time, call⟩] }
    | _ => { σ with logins }

/-- What the handlers `login` and `logout` begin with, or all that they do. -/
def handle (i : ℕ) (time : υ) (request : Request) (posted : Bool)
    (credentials : Option LoginRequest) (σ : Site τ υ) : Option (Site τ υ) :=
  if posted = false then some σ
  else if request.path = text "/auth/login" then
    match credentials with
    | some c => σ.proceed config (.login i c.username c.password)
    | none => some σ
  else if request.path = text "/auth/logout" then
    let token := extractBearerToken request
    if token = [] then some σ
    else some (σ.commitCall config ⟨time, .deleteSession token⟩)
  else some σ

/-- The middleware, with the buckets after it. -/
def middleware (time : υ) (now : τ) (request : Request) (σ : Site τ υ) :
    Except MiddlewareError Answer × RateBuckets τ :=
  securityMiddleware config.settings config.isIpAddress config.server.sha256 σ.logins.store time
    now request σ.buckets

/-- The requests that the limiters let through, after one more. -/
def logAttempt (i : ℕ) (now : τ) (request : Request) (σ : Site τ υ) : Site τ υ :=
  let ip := config.clientIp request
  { σ with
    attempts :=
      if gate request.path = .login ∧
          (config.loginLimiter.checkRateLimit now ip σ.buckets.login).1 then
        σ.attempts ++ [⟨i, request, now⟩]
      else σ.attempts
    tested :=
      if gate request.path = .limited ∧
          (config.rateLimiter.checkRateLimit now ip σ.buckets.rate).1 then
        σ.tested ++ [⟨i, request, now⟩]
      else σ.tested }

/-- A request goes through the middleware and on to its handler. -/
def receive (i : ℕ) (time : υ) (now : τ) (request : Request) (posted : Bool)
    (credentials : Option LoginRequest) (σ : Site τ υ) : Option (Site τ υ) :=
  let decided := σ.middleware config time now request
  let σ := { σ.logAttempt config i now request with buckets := decided.2 }
  if decided.1 = .ok .callNext then σ.handle config i time request posted credentials
  else some σ

def step (σ : Site τ υ) (e : SiteEvent τ υ) : Option (Site τ υ) :=
  if σ.clock ≤ e.now then
    let σ := { σ with clock := e.now }
    match e.act with
    | .request i request posted credentials =>
        if σ.logins.phase i = .idle ∧ ∀ a ∈ σ.attempts, a.id ≠ i then
          σ.receive config i e.time e.now request posted credentials
        else none
    | .getHash i => σ.proceed config (.getHash i)
    | .checkpw i =>
        (σ.proceed config (.checkpw i)).map fun σ => { σ with checked := σ.checked ++ [i] }
    | .createSession i random => σ.createSession config i e.time random
    | .upsertUser username passwordHash =>
        some (σ.commitCall config ⟨e.time, .upsertUser username passwordHash⟩)
    | .deleteUser username => some (σ.commitCall config ⟨e.time, .deleteUser username⟩)
    | .purgeExpiredSessions => some (σ.commitCall config ⟨e.time, .purgeExpiredSessions⟩)
    | .sweepExpired true =>
        let login := config.loginLimiter.sweepExpired e.now σ.buckets.login
        some { σ with buckets := { σ.buckets with login } }
    | .sweepExpired false =>
        let rate := config.rateLimiter.sweepExpired e.now σ.buckets.rate
        some { σ with buckets := { σ.buckets with rate } }
    | .restart => some σ.restart
  else none

end Steps

section Handlers
variable {config : SiteConfig τ υ} {σ σ' : Site τ υ} {i : ℕ} {time : υ}

/-- The limiters are left alone. -/
def SameLimits (σ σ' : Site τ υ) : Prop :=
  σ'.buckets = σ.buckets ∧ σ'.clock = σ.clock ∧ σ'.attempts = σ.attempts ∧ σ'.tested = σ.tested

variable [LinearOrder υ] [Add υ]

theorem sameLimits_commitCall (c : TimedCall υ) : SameLimits σ (σ.commitCall config c) :=
  ⟨rfl, rfl, rfl, rfl⟩

theorem sameLimits_proceed {event : LoginEvent υ} (h : σ.proceed config event = some σ') :
    SameLimits σ σ' := by
  obtain ⟨logins, -, rfl⟩ := Option.map_eq_some_iff.mp h
  exact ⟨rfl, rfl, rfl, rfl⟩

theorem sameLimits_createSession {random : Bytes}
    (h : σ.createSession config i time random = some σ') : SameLimits σ σ' := by
  obtain ⟨logins, -, rfl⟩ := Option.map_eq_some_iff.mp h
  split
  · exact ⟨rfl, rfl, rfl, rfl⟩
  · exact ⟨rfl, rfl, rfl, rfl⟩

/-- A handler begins a login, ends a session or leaves all as it is. -/
theorem handle_cases {request : Request} {posted : Bool} {credentials : Option LoginRequest}
    (h : σ.handle config i time request posted credentials = some σ') :
    σ' = σ ∨
    (request.path = text "/auth/login" ∧
      ∃ username password, σ.proceed config (.login i username password) = some σ') ∨
    ∃ token, σ' = σ.commitCall config ⟨time, .deleteSession token⟩ := by
  unfold handle at h
  by_cases hposted : posted = false
  · exact Or.inl (Option.some.inj ((if_pos hposted).symm.trans h)).symm
  rw [if_neg hposted] at h
  by_cases hlogin : request.path = text "/auth/login"
  · rw [if_pos hlogin] at h
    cases credentials with
    | none => exact Or.inl (Option.some.inj h).symm
    | some c => exact Or.inr (Or.inl ⟨hlogin, c.username, c.password, h⟩)
  rw [if_neg hlogin] at h
  by_cases hlogout : request.path = text "/auth/logout"
  · rw [if_pos hlogout] at h
    by_cases htoken : extractBearerToken request = []
    · exact Or.inl (Option.some.inj ((if_pos htoken).symm.trans h)).symm
    · exact Or.inr (Or.inr ⟨_, (Option.some.inj ((if_neg htoken).symm.trans h)).symm⟩)
  · exact Or.inl (Option.some.inj ((if_neg hlogout).symm.trans h)).symm

end Handlers

section Limits
variable {config : SiteConfig τ υ} {σ σ' : Site τ υ} {i : ℕ} {time : υ} {now : τ}
variable {request : Request} {posted : Bool} {credentials : Option LoginRequest}
variable [LinearOrder τ] [Sub τ]

/-- The buckets are those of the requests that the limiters let through. -/
structure Limited (config : SiteConfig τ υ) (σ : Site τ υ) : Prop where
  logins : config.loginLimiter.Reaches σ.clock ⟨σ.buckets.login, config.calls σ.attempts⟩
  requests : config.rateLimiter.Reaches σ.clock ⟨σ.buckets.rate, config.calls σ.tested⟩

theorem limited_start (clock : τ) : Limited config (start clock) :=
  ⟨Limiter.reaches_start, Limiter.reaches_start⟩

/-- A limiter's call goes into its log if it is accepted. -/
theorem step_check (limiter : Limiter τ) (buckets : Buckets τ) (attempts : List (Attempt τ)) :
    limiter.step ⟨buckets, config.calls attempts⟩ (.check (config.clientIp request) now) =
      ⟨(limiter.checkRateLimit now (config.clientIp request) buckets).2,
        config.calls (if (limiter.checkRateLimit now (config.clientIp request) buckets).1 then
          attempts ++ [⟨i, request, now⟩] else attempts)⟩ := by
  simp only [Limiter.step]
  split_ifs
  · simp only [SiteConfig.calls, List.map_append, List.map_cons, List.map_nil]
  · rfl

theorem Limited.of_same (h : Limited config σ) (hsame : SameLimits σ σ') : Limited config σ' := by
  obtain ⟨hbuckets, hclock, hattempts, htested⟩ := hsame
  constructor
  · rw [hbuckets, hclock, hattempts]
    exact h.logins
  · rw [hbuckets, hclock, htested]
    exact h.requests

theorem Limited.wait (h : Limited config σ) (hle : σ.clock ≤ now) :
    Limited config { σ with clock := now } :=
  ⟨h.logins.mono hle, h.requests.mono hle⟩

variable [LinearOrder υ]

/-- What the middleware does to the buckets. -/
theorem middleware_buckets : (σ.middleware config time now request).2 =
    match gate request.path with
    | .unlimited => σ.buckets
    | .login =>
        let ip := config.clientIp request
        let login := (config.loginLimiter.checkRateLimit now ip σ.buckets.login).2
        { σ.buckets with login }
    | .limited =>
        let ip := config.clientIp request
        let rate := (config.rateLimiter.checkRateLimit now ip σ.buckets.rate).2
        { σ.buckets with rate } := by
  unfold middleware securityMiddleware gate
  split_ifs <;> rfl

/-- What the middleware does is logged. -/
theorem Limited.logAttempt (h : Limited config σ) (hclock : σ.clock = now) :
    Limited config { σ.logAttempt config i now request with
      buckets := (σ.middleware config time now request).2 } := by
  have hle : σ.clock ≤ (LimiterEvent.check (config.clientIp request) now).time := hclock.le
  rw [middleware_buckets]
  cases hgate : gate request.path with
  | unlimited =>
      constructor
      · simpa [Site.logAttempt, hgate] using h.logins
      · simpa [Site.logAttempt, hgate] using h.requests
  | login =>
      constructor
      · have hstep := h.logins.step hle
        rw [step_check (i := i)] at hstep
        subst hclock
        simpa [Site.logAttempt, hgate, LimiterEvent.time] using hstep
      · simpa [Site.logAttempt, hgate] using h.requests
  | limited =>
      constructor
      · simpa [Site.logAttempt, hgate] using h.logins
      · have hstep := h.requests.step hle
        rw [step_check (i := i)] at hstep
        subst hclock
        simpa [Site.logAttempt, hgate, LimiterEvent.time] using hstep

variable [Add υ]

theorem Limited.receive (h : Limited config σ) (hclock : σ.clock = now)
    (hreceive : σ.receive config i time now request posted credentials = some σ') :
    Limited config σ' := by
  have hlogged : Limited config { σ.logAttempt config i now request with
      buckets := (σ.middleware config time now request).2 } := h.logAttempt hclock
  rw [Site.receive] at hreceive
  split_ifs at hreceive
  · obtain rfl | ⟨-, username, password, hlogin⟩ | ⟨token, rfl⟩ := handle_cases hreceive
    · exact hlogged
    · exact hlogged.of_same (sameLimits_proceed hlogin)
    · exact hlogged.of_same (sameLimits_commitCall _)
  · cases hreceive
    exact hlogged

/-- Every event is logged as the limiters see it. -/
theorem Limited.step {e : SiteEvent τ υ} (h : Limited config σ)
    (hstep : σ.step config e = some σ') :
    Limited config σ' := by
  obtain ⟨hle, hstep⟩ := Option.ite_none_right_eq_some.mp hstep
  have hwait := h.wait hle
  obtain ⟨now, time, act⟩ := e
  dsimp only at hle hwait hstep
  cases act with
  | request i request posted credentials =>
      obtain ⟨-, hreceive⟩ := Option.ite_none_right_eq_some.mp hstep
      exact hwait.receive rfl hreceive
  | getHash i => exact hwait.of_same (sameLimits_proceed hstep)
  | checkpw i =>
      obtain ⟨σ₁, hproceed, rfl⟩ := Option.map_eq_some_iff.mp hstep
      have hlimited := hwait.of_same (sameLimits_proceed hproceed)
      exact ⟨hlimited.logins, hlimited.requests⟩
  | createSession i random => exact hwait.of_same (sameLimits_createSession hstep)
  | upsertUser username passwordHash =>
      cases hstep
      exact hwait.of_same (sameLimits_commitCall _)
  | deleteUser username =>
      cases hstep
      exact hwait.of_same (sameLimits_commitCall _)
  | purgeExpiredSessions =>
      cases hstep
      exact hwait.of_same (sameLimits_commitCall _)
  | sweepExpired login =>
      cases login with
      | true =>
          cases hstep
          have hsweep : now ≤ (LimiterEvent.sweep now).time := le_rfl
          exact ⟨hwait.logins.step hsweep, hwait.requests⟩
      | false =>
          cases hstep
          have hsweep : now ≤ (LimiterEvent.sweep now).time := le_rfl
          exact ⟨hwait.logins, hwait.requests.step hsweep⟩
  | restart =>
      cases hstep
      exact ⟨Limiter.reaches_start, Limiter.reaches_start⟩

end Limits

section Accounts
variable {config : SiteConfig τ υ} {σ σ' : Site τ υ} {i : ℕ} {time : υ}

/-- The password of the login is yet to be compared. -/
def Pending : LoginPhase → Prop
  | .started _ _ => True
  | .checking _ _ _ => True
  | _ => False

theorem not_pending_checked {server : Server υ} {username password : Text}
    {stored : Option Text} : ¬ Pending (Logins.checked server username password stored) := by
  unfold Logins.checked
  split <;> exact not_false

/-- The login has its session, under a password that matched the hash it read. -/
def LoggedIn (config : SiteConfig τ υ) (σ : Site τ υ) (i : ℕ) (username token : Text) : Prop :=
  ∃ password stored, σ.logins.phase i = .done username password stored token ∧
    config.server.checkpw (utf8 password) (utf8 stored) = some true

def Attempted (σ : Site τ υ) (i : ℕ) : Prop := ∃ a ∈ σ.attempts, a.id = i

variable [LinearOrder υ] [Add υ]

/-- The store is what its calls made of it, each session is that of a login, and each login
is one that the limiter let through. -/
structure Accounted (config : SiteConfig τ υ) (σ : Site τ υ) : Prop where
  store_eq : σ.logins.store = storeAfter config.server.sha256 σ.calls
  returns : ∀ c ∈ σ.calls, c.call.Returns
  obtained : ∀ c ∈ σ.calls, ∀ random username expirySeconds,
    c.call = .createSession random username expirySeconds →
      ∃ i, LoggedIn config σ i username (tokenHex random)
  matched : ∀ i username password stored, σ.logins.phase i = .matched username password stored →
    config.server.checkpw (utf8 password) (utf8 stored) = some true
  pending : ∀ i, Pending (σ.logins.phase i) → σ.Attempted i ∧ i ∉ σ.checked
  checked_nodup : σ.checked.Nodup
  checked : ∀ i ∈ σ.checked, σ.Attempted i

theorem accounted_start (clock : τ) : Accounted config (start clock) where
  store_eq := rfl
  returns := fun _ hc => absurd hc List.not_mem_nil
  obtained := fun _ hc => absurd hc List.not_mem_nil
  matched := fun _ _ _ _ hphase => by cases hphase
  pending := fun _ hpending => hpending.elim
  checked_nodup := List.nodup_nil
  checked := fun _ hi => absurd hi List.not_mem_nil

/-- More attempts, and anything else of the limiters. -/
theorem Accounted.of_attempts (h : Accounted config σ) (hlogins : σ'.logins = σ.logins)
    (hcalls : σ'.calls = σ.calls) (hchecked : σ'.checked = σ.checked)
    (hattempts : σ.attempts ⊆ σ'.attempts) : Accounted config σ' := by
  have hmore : ∀ i, σ.Attempted i → σ'.Attempted i := by
    intro i hi
    obtain ⟨a, ha, hid⟩ := hi
    exact ⟨a, hattempts ha, hid⟩
  constructor
  · rw [hlogins, hcalls]
    exact h.store_eq
  · rw [hcalls]
    exact h.returns
  · rw [hcalls]
    intro c hc random username expirySeconds hcall
    obtain ⟨i, hin⟩ := h.obtained c hc random username expirySeconds hcall
    refine ⟨i, ?_⟩
    rw [LoggedIn, hlogins]
    exact hin
  · rw [hlogins]
    exact h.matched
  · rw [hlogins, hchecked]
    exact fun i hi => ⟨hmore i (h.pending i hi).1, (h.pending i hi).2⟩
  · rw [hchecked]
    exact h.checked_nodup
  · rw [hchecked]
    exact fun i hi => hmore i (h.checked i hi)

theorem Accounted.commitCall (h : Accounted config σ) {c : TimedCall υ}
    (hcreates : c.call.createdToken = none) : Accounted config (σ.commitCall config c) := by
  have hstore : (σ.commitCall config c).logins.store =
      σ.logins.store.step config.server.sha256 c := rfl
  constructor
  · change _ = storeAfter _ (σ.calls ++ returned [c])
    rw [hstore, h.store_eq]
    by_cases hreturns : c.call.Returns
    · have hlast : returned [c] = [c] := List.filter_cons_of_pos (decide_eq_true hreturns)
      rw [hlast, storeAfter_concat]
    · have hlast : returned [c] = [] :=
        List.filter_cons_of_neg (by simpa using hreturns)
      rw [hlast, List.append_nil, step_of_not_returns hreturns]
  · intro d hd
    obtain hd | hd := List.mem_append.mp hd
    · exact h.returns d hd
    · exact (mem_returned.mp hd).2
  · intro d hd random username expirySeconds hcall
    obtain hd | hd := List.mem_append.mp hd
    · exact h.obtained d hd random username expirySeconds hcall
    · rw [List.mem_singleton.mp (mem_returned.mp hd).1] at hcall
      rw [hcall] at hcreates
      cases hcreates
  · exact h.matched
  · exact h.pending
  · exact h.checked_nodup
  · exact h.checked

/-- A login that has no session yet moves on. -/
theorem Accounted.goTo (h : Accounted config σ) {phase : LoginPhase}
    (hold : ∀ username password stored token,
      σ.logins.phase i ≠ .done username password stored token)
    (hmatched : ∀ username password stored, phase = .matched username password stored →
      config.server.checkpw (utf8 password) (utf8 stored) = some true)
    (hpending : Pending phase → σ.Attempted i ∧ i ∉ σ.checked) :
    Accounted config { σ with logins := σ.logins.goTo i phase } where
  store_eq := h.store_eq
  returns := h.returns
  obtained := by
    intro c hc random username expirySeconds hcall
    obtain ⟨j, password, stored, hphase, hcheck⟩ :=
      h.obtained c hc random username expirySeconds hcall
    have hne : j ≠ i := fun hij => hold _ _ _ _ (hij ▸ hphase)
    exact ⟨j, password, stored, (Logins.goTo_phase_of_ne _ hne _).trans hphase, hcheck⟩
  matched := by
    intro j username password stored hphase
    by_cases hji : j = i
    · subst hji
      exact hmatched _ _ _ ((Logins.goTo_phase_self ..).symm.trans hphase)
    · exact h.matched j _ _ _ ((Logins.goTo_phase_of_ne _ hji _).symm.trans hphase)
  pending := by
    intro j hj
    by_cases hji : j = i
    · subst hji
      dsimp only at hj
      rw [Logins.goTo_phase_self] at hj
      exact hpending hj
    · dsimp only at hj
      rw [Logins.goTo_phase_of_ne _ hji] at hj
      exact h.pending j hj
  checked_nodup := h.checked_nodup
  checked := h.checked

/-- A login that begins. -/
theorem Accounted.login (h : Accounted config σ) {username password : Text}
    (hattempted : σ.Attempted i) (hnew : i ∉ σ.checked)
    (hstep : σ.proceed config (.login i username password) = some σ') : Accounted config σ' := by
  obtain ⟨logins, hlogin, rfl⟩ := Option.map_eq_some_iff.mp hstep
  obtain ⟨hidle, hmoved⟩ := Option.ite_none_right_eq_some.mp hlogin
  cases hmoved
  apply h.goTo
  · simp [hidle]
  · intro _ _ _ harrive
    unfold Logins.arrive at harrive
    split_ifs at harrive
  · exact fun _ => ⟨hattempted, hnew⟩

/-- A login that reads its hash. -/
theorem Accounted.getHash (h : Accounted config σ)
    (hstep : σ.proceed config (.getHash i) = some σ') :
    Accounted config σ' := by
  obtain ⟨logins, hlogin, rfl⟩ := Option.map_eq_some_iff.mp hstep
  cases hphase : σ.logins.phase i with
  | started username password =>
      have hpending := h.pending i (by rw [hphase]; trivial)
      simp only [Logins.step, hphase] at hlogin
      cases hread : σ.logins.store.getHash username with
      | ok stored =>
          rw [hread] at hlogin
          cases hlogin
          exact h.goTo (by simp [hphase]) (by simp) fun _ => hpending
      | error e =>
          rw [hread] at hlogin
          cases hlogin
          exact h.goTo (by simp [hphase]) (by simp) fun _ => hpending
  | _ =>
      simp only [Logins.step, hphase] at hlogin
      cases hlogin

/-- A login whose password is compared, for the one time. -/
theorem Accounted.checkpw (h : Accounted config σ)
    (hstep : σ.proceed config (.checkpw i) = some σ') :
    Accounted config { σ' with checked := σ'.checked ++ [i] } := by
  obtain ⟨logins, hlogin, rfl⟩ := Option.map_eq_some_iff.mp hstep
  cases hphase : σ.logins.phase i with
  | checking username password stored =>
      obtain ⟨hattempted, hnew⟩ := h.pending i (by rw [hphase]; trivial)
      simp only [Logins.step, hphase] at hlogin
      cases hlogin
      have hmoved : Accounted config { σ with
          logins := σ.logins.goTo i (Logins.checked config.server username password stored) } :=
        h.goTo (by simp [hphase]) (fun _ _ _ => Logins.checked_matched)
          fun hpending => absurd hpending not_pending_checked
      refine ⟨hmoved.store_eq, hmoved.returns, hmoved.obtained, hmoved.matched, ?_, ?_, ?_⟩
      · intro j hj
        refine ⟨(hmoved.pending j hj).1, fun hmem => ?_⟩
        obtain hmem | hmem := List.mem_append.mp hmem
        · exact (hmoved.pending j hj).2 hmem
        · rw [List.mem_singleton.mp hmem] at hj
          dsimp only at hj
          rw [Logins.goTo_phase_self] at hj
          exact not_pending_checked hj
      · exact List.nodup_append'.mpr ⟨h.checked_nodup, List.nodup_singleton i,
          List.disjoint_singleton.mpr hnew⟩
      · intro j hj
        obtain hj | hj := List.mem_append.mp hj
        · exact h.checked j hj
        · rw [List.mem_singleton.mp hj]
          exact hattempted
  | _ =>
      simp only [Logins.step, hphase] at hlogin
      cases hlogin

/-- A login that gets its session. -/
theorem Accounted.createSession (h : Accounted config σ) {random : Bytes}
    (hstep : σ.createSession config i time random = some σ') : Accounted config σ' := by
  obtain ⟨logins, hlogin, rfl⟩ := Option.map_eq_some_iff.mp hstep
  cases hphase : σ.logins.phase i with
  | matched username password stored =>
      simp only [Logins.step, hphase] at hlogin
      cases hcreate : σ.logins.store.createSession config.server.sha256 time random username
          config.server.sessionExpirySeconds with
      | error e =>
          rw [hcreate] at hlogin
          cases hlogin
          rw [Logins.goTo_phase_self]
          exact h.goTo (by simp [hphase]) (by simp) False.elim
      | ok r =>
          rw [hcreate] at hlogin
          cases hlogin
          obtain ⟨hname, htoken, hfresh, hstore⟩ := UserStore.createSession_eq_ok_iff.mp hcreate
          have hmoved : Accounted config { σ with
              logins := σ.logins.goTo i (.done username password stored r.1) } :=
            h.goTo (by simp [hphase]) (by simp) False.elim
          rw [Logins.goTo_phase_self]
          refine ⟨?_, ?_, ?_, hmoved.matched, hmoved.pending, h.checked_nodup, h.checked⟩
          · rw [storeAfter_concat, ← h.store_eq]
            apply Eq.symm
            apply step_of_effect
            exact congrArg (Except.map Prod.snd) hcreate
          · intro c hc
            obtain hc | hc := List.mem_append.mp hc
            · exact h.returns c hc
            · rw [List.mem_singleton.mp hc]
              exact hname
          · intro c hc random' username' expirySeconds hcall
            obtain hc | hc := List.mem_append.mp hc
            · exact hmoved.obtained c hc random' username' expirySeconds hcall
            · rw [List.mem_singleton.mp hc] at hcall
              cases hcall
              refine ⟨i, password, stored, ?_, h.matched i _ _ _ hphase⟩
              rw [← htoken]
              exact Logins.goTo_phase_self ..
  | _ =>
      simp only [Logins.step, hphase] at hlogin
      cases hlogin

theorem dropped_eq_done {phase : LoginPhase} {username password stored token : Text} :
    dropped phase = .done username password stored token ↔
      phase = .done username password stored token := by
  cases phase <;> simp [dropped]

/-- A restart drops the logins that are under way. -/
theorem Accounted.restart (h : Accounted config σ) : Accounted config σ.restart where
  store_eq := h.store_eq
  returns := h.returns
  obtained := by
    intro c hc random username expirySeconds hcall
    obtain ⟨i, password, stored, hphase, hcheck⟩ :=
      h.obtained c hc random username expirySeconds hcall
    exact ⟨i, password, stored, dropped_eq_done.mpr hphase, hcheck⟩
  matched := by
    intro i username password stored hphase
    change dropped (σ.logins.phase i) = _ at hphase
    cases hold : σ.logins.phase i <;> simp [hold, dropped] at hphase
  pending := by
    intro i hi
    change Pending (dropped (σ.logins.phase i)) at hi
    cases hold : σ.logins.phase i <;> simp [hold, dropped, Pending] at hi
  checked_nodup := List.nodup_nil
  checked := fun _ hi => absurd hi List.not_mem_nil

variable [LinearOrder τ] [Sub τ] {now : τ} {request : Request} {posted : Bool}
variable {credentials : Option LoginRequest}

omit [Add υ] in
/-- What is passed on to the login handler was let through by its limiter. -/
theorem attempted_of_callNext (hpath : request.path = text "/auth/login")
    (hnext : (σ.middleware config time now request).1 = .ok .callNext) :
    (σ.logAttempt config i now request).Attempted i := by
  have hgate : gate request.path = .login := by rw [hpath]; decide
  have hpassed : (config.loginLimiter.checkRateLimit now (config.clientIp request)
      σ.buckets.login).1 = true := by
    by_contra hfull
    have hrejected : (σ.middleware config time now request).1 = .ok rateLimitExceeded := by
      unfold middleware securityMiddleware
      have hui : ¬ (text "/auth/login" = text "/favicon.ico" ∨ text "/auth/login" = text "/ui" ∨
        text "/ui/" <+: text "/auth/login") := by decide
      have hhealth : text "/auth/login" ≠ text "/healthz" := by decide
      simp only [hpath, if_neg hui, if_neg hhealth, if_true]
      exact congrArg Except.ok (if_neg hfull)
    rw [hrejected] at hnext
    cases hnext
  refine ⟨⟨i, request, now⟩, ?_, rfl⟩
  rw [logAttempt]
  dsimp only
  rw [if_pos ⟨hgate, hpassed⟩]
  exact List.mem_append_right _ List.mem_cons_self

theorem Accounted.receive (h : Accounted config σ) (hnew : ∀ a ∈ σ.attempts, a.id ≠ i)
    (hreceive : σ.receive config i time now request posted credentials = some σ') :
    Accounted config σ' := by
  have hattempts : σ.attempts ⊆ (σ.logAttempt config i now request).attempts := by
    unfold logAttempt
    dsimp only
    split_ifs
    · exact List.subset_append_left _ _
    · exact List.Subset.refl _
  have hlogged : Accounted config { σ.logAttempt config i now request with
      buckets := (σ.middleware config time now request).2 } := h.of_attempts rfl rfl rfl hattempts
  rw [Site.receive] at hreceive
  split_ifs at hreceive with hnext
  · obtain rfl | ⟨hpath, username, password, hlogin⟩ | ⟨token, rfl⟩ := handle_cases hreceive
    · exact hlogged
    · apply hlogged.login (attempted_of_callNext hpath hnext) _ hlogin
      intro hchecked
      obtain ⟨a, ha, hid⟩ := h.checked i hchecked
      exact hnew a ha hid
    · exact hlogged.commitCall rfl
  · cases hreceive
    exact hlogged

theorem Accounted.step {e : SiteEvent τ υ} (h : Accounted config σ)
    (hstep : σ.step config e = some σ') : Accounted config σ' := by
  obtain ⟨-, hstep⟩ := Option.ite_none_right_eq_some.mp hstep
  have hwait : Accounted config { σ with clock := e.now } :=
    h.of_attempts rfl rfl rfl (List.Subset.refl _)
  obtain ⟨now, time, act⟩ := e
  dsimp only at hwait hstep
  cases act with
  | request i request posted credentials =>
      obtain ⟨hnew, hreceive⟩ := Option.ite_none_right_eq_some.mp hstep
      exact hwait.receive hnew.2 hreceive
  | getHash i => exact hwait.getHash hstep
  | checkpw i =>
      obtain ⟨σ₁, hproceed, rfl⟩ := Option.map_eq_some_iff.mp hstep
      exact hwait.checkpw hproceed
  | createSession i random => exact hwait.createSession hstep
  | upsertUser username passwordHash =>
      cases hstep
      exact hwait.commitCall rfl
  | deleteUser username =>
      cases hstep
      exact hwait.commitCall rfl
  | purgeExpiredSessions =>
      cases hstep
      exact hwait.commitCall rfl
  | sweepExpired login =>
      cases login <;>
      · cases hstep
        exact hwait.of_attempts rfl rfl rfl (List.Subset.refl _)
  | restart =>
      cases hstep
      exact hwait.restart

end Accounts

section Runs
variable {config : SiteConfig τ υ} {σ : Site τ υ} [LinearOrder τ] [Sub τ]

/-- The login came with such a request between two times. -/
def TriedBy (σ : Site τ υ) (sender : Request → Prop) (a b : τ) (i : ℕ) : Prop :=
  ∃ attempt ∈ σ.attempts, attempt.id = i ∧ sender attempt.request ∧
    a ≤ attempt.time ∧ attempt.time ≤ b

instance (sender : Request → Prop) [DecidablePred sender] (a b : τ) :
    DecidablePred (TriedBy σ sender a b) :=
  fun _ => List.decidableBEx _ _

/-- Between two times that are less than a window apart a client has at most so many passwords
compared, each login once, and at most so many tokens tested, whatever headers it sends. -/
structure TriesBounded (config : SiteConfig τ υ) (σ : Site τ υ) : Prop where
  compared : σ.checked.Nodup ∧ ∀ i ∈ σ.checked, σ.Attempted i
  passwords : ∀ ip a b, b - a < config.settings.rateWindowSeconds →
    (σ.checked.filter fun i => TriedBy σ (config.clientIp · = ip) a b i).length ≤
      config.settings.rateMaxLoginRequests
  peers : ∀ peer ∉ config.settings.trustedProxyIps,
    ∀ a b, b - a < config.settings.rateWindowSeconds →
      (σ.checked.filter fun i => TriedBy σ (·.client = some peer) a b i).length ≤
        config.settings.rateMaxLoginRequests
  tokens : ∀ ip a b, b - a < config.settings.rateWindowSeconds →
    (σ.tested.filter fun attempt => config.clientIp attempt.request = ip ∧
      a ≤ attempt.time ∧ attempt.time ≤ b).length ≤ config.settings.rateMaxRequests

omit [Sub τ] in
/-- The requests between two times, as the calls of their limiter. -/
theorem length_filter_calls (attempts : List (Attempt τ)) (ip : Text) (a b : τ) :
    (attempts.filter fun attempt => config.clientIp attempt.request = ip ∧
        a ≤ attempt.time ∧ attempt.time ≤ b).length =
      ((config.calls attempts).filter fun c => c.1 = ip ∧ a ≤ c.2 ∧ c.2 ≤ b).length := by
  rw [SiteConfig.calls, List.filter_map, List.length_map]
  rfl

omit [Sub τ] in
/-- Each comparison is one for an attempt between these times. -/
theorem length_tried_le (hnodup : σ.checked.Nodup) (ip : Text) (a b : τ) :
    (σ.checked.filter fun i => TriedBy σ (config.clientIp · = ip) a b i).length ≤
      (σ.attempts.filter fun attempt => config.clientIp attempt.request = ip ∧
        a ≤ attempt.time ∧ attempt.time ≤ b).length := by
  rw [← List.length_map Attempt.id]
  apply List.Subperm.length_le
  apply (hnodup.filter _).subperm
  intro i hi
  obtain ⟨attempt, hattempt, hid, hip, hbetween⟩ := of_decide_eq_true (List.mem_filter.mp hi).2
  exact List.mem_map.mpr
    ⟨attempt, List.mem_filter.mpr ⟨hattempt, decide_eq_true ⟨hip, hbetween⟩⟩, hid⟩

omit [LinearOrder τ] [Sub τ] in
/-- Who is no trusted proxy is known by its own address. -/
theorem clientIp_of_untrusted {request : Request} {peer : Text}
    (hclient : request.client = some peer) (h : peer ∉ config.settings.trustedProxyIps) :
    config.clientIp request = peer := by
  rw [SiteConfig.clientIp, resolveClientIp, hclient]
  exact if_neg h

variable [MonotoneSub τ] [LinearOrder υ] [Add υ]

theorem triesBounded_of_limited (hlimited : Limited config σ) (haccounted : Accounted config σ) :
    TriesBounded config σ := by
  have hpasswords : ∀ ip a b, b - a < config.settings.rateWindowSeconds →
      (σ.checked.filter fun i => TriedBy σ (config.clientIp · = ip) a b i).length ≤
        config.settings.rateMaxLoginRequests := by
    intro ip a b hab
    apply (length_tried_le haccounted.checked_nodup ip a b).trans
    rw [length_filter_calls]
    exact hlimited.logins.length_le ip hab
  refine ⟨⟨haccounted.checked_nodup, haccounted.checked⟩, hpasswords, ?_, ?_⟩
  · intro peer hpeer a b hab
    apply le_trans _ (hpasswords peer a b hab)
    apply List.Sublist.length_le
    apply List.monotone_filter_right
    intro i hi
    obtain ⟨attempt, hattempt, hid, hclient, hbetween⟩ := of_decide_eq_true hi
    exact decide_eq_true
      ⟨attempt, hattempt, hid, clientIp_of_untrusted hclient hpeer, hbetween⟩
  · intro ip a b hab
    rw [length_filter_calls]
    exact hlimited.requests.length_le ip hab

/-- What every run keeps. -/
structure Kept (config : SiteConfig τ υ) (σ : Site τ υ) : Prop where
  limited : Limited config σ
  accounted : Accounted config σ

omit [MonotoneSub τ] in
theorem kept_of_run {clock : τ} {events : List (SiteEvent τ υ)}
    (h : run (step config) (start clock) events = some σ) : Kept config σ := by
  apply run_invariant _ _ h
  · intro σ e σ' hkept hstep
    exact ⟨hkept.limited.step hstep, hkept.accounted.step hstep⟩
  · exact ⟨limited_start clock, accounted_start clock⟩

/-- Over every run of the server, nobody gets more tries than the limiters allow. -/
theorem tries_bounded {clock : τ} {events : List (SiteEvent τ υ)}
    (h : run (step config) (start clock) events = some σ) : TriesBounded config σ :=
  triesBounded_of_limited (kept_of_run h).limited (kept_of_run h).accounted

/-- One login a minute, behind no proxy. -/
def sampleConfig : SiteConfig Double ℕ :=
  ⟨⟨[], false, [], 60, 30, 1⟩, fun _ => false, Logins.sampleServer⟩

def sampleLogin : LoginRequest := ⟨text "a", text "old", by decide, by decide⟩

/-- A login of a client that says to be another one. -/
def loginRequest (forwardedFor : Option Bytes) : Request :=
  ⟨text "/auth/login", some (text "c"), forwardedFor, none, none⟩

/-- A login, and a second one that the limiter turns away. -/
def sampleEvents : List (SiteEvent Double ℕ) :=
  [⟨0, 1, .upsertUser (text "a") (text "old")⟩,
    ⟨1, 2, .request 0 (loginRequest none) true (some sampleLogin)⟩, ⟨2, 2, .getHash 0⟩,
    ⟨2, 3, .checkpw 0⟩, ⟨3, 3, .createSession 0 [7]⟩,
    ⟨9, 4, .request 1 (loginRequest (some [0x64])) true (some sampleLogin)⟩]

theorem tries_bounded_secondLogin : ∃ σ, run (step sampleConfig) (start 0) sampleEvents = some σ ∧
    σ.checked = [0] ∧ σ.attempts.length = 1 ∧ TriesBounded sampleConfig σ := by
  have hrun : (run (step sampleConfig) (start 0) sampleEvents).any (fun σ =>
      σ.checked = [0] ∧ σ.attempts.length = 1) = true := by decide +kernel
  obtain ⟨σ, hσ, hchecked⟩ := (Option.any_eq_true ..).mp hrun
  obtain ⟨hchecked, hattempts⟩ := of_decide_eq_true hchecked
  exact ⟨σ, hσ, hchecked, hattempts, tries_bounded hσ⟩

end Runs

section Guarded
variable {config : SiteConfig τ υ} {σ : Site τ υ} [LinearOrder υ] [Add υ] {time : υ}
variable {request : Request}

/-- The token is that of a login's session, whose user was neither changed nor deleted since,
which nobody has ended and which has not expired. -/
structure SessionOf (config : SiteConfig τ υ) (σ : Site τ υ) (token : Text) (time : υ) (i : ℕ)
    (username : Text) : Prop where
  loggedIn : LoggedIn config σ i username token
  user : Since (UpsertsUser username) (SparesUser username) σ.calls
  session : Since (CreatesSession token username time)
    (fun c => SparesUser username c ∧ c.call ≠ .deleteSession token) σ.calls

/-- The sessions that the store takes for valid. -/
theorem Accounted.hasSession_iff (h : Accounted config σ) {token : Text} (htoken : Encodable token)
    (hproper : Proper config.server.sha256 (σ.calls ++ [⟨time, .validateSession token⟩])) :
    HasSession config.server.sha256 σ.logins.store time token ↔
      ∃ i username, SessionOf config σ token time i username := by
  obtain ⟨found, hvalidate, hsome⟩ :=
    validateSession_eq_ok config.server.sha256 σ.logins.store time htoken
  have hvalid : ∀ username, found = some username ↔
      Since (UpsertsUser username) (SparesUser username) σ.calls ∧
      Since (CreatesSession token username time)
        (fun c => SparesUser username c ∧ c.call ≠ .deleteSession token) σ.calls := by
    intro username
    rw [← validateSession_storeAfter hproper h.returns, ← h.store_eq, hvalidate, Except.ok.injEq]
  rw [← hsome, Option.isSome_iff_exists]
  constructor
  · intro hfound
    obtain ⟨username, hfound⟩ := hfound
    obtain ⟨huser, hsession⟩ := (hvalid username).mp hfound
    obtain ⟨c, hc, random, expirySeconds, hcall, rfl, -⟩ := hsession.exists_starts
    obtain ⟨i, hlogin⟩ := h.obtained c hc random username expirySeconds hcall
    exact ⟨i, username, hlogin, huser, hsession⟩
  · intro hsession
    obtain ⟨i, username, hsession⟩ := hsession
    exact ⟨username, (hvalid username).mpr ⟨hsession.user, hsession.session⟩⟩

variable [LinearOrder τ] [Sub τ] {now : τ}

omit [Add υ] in
/-- A guarded request is passed on exactly if it is admitted, and its token can be compared and
authenticates it. -/
theorem callNext_iff (hpath : ¬ OpenPath request.path)
    (hsecure : config.settings.allowInsecureLocalonly = false) :
    (σ.middleware config time now request).1 = .ok .callNext ↔
      Admitted config.settings config.isIpAddress now request σ.buckets ∧
        Comparable config.settings (extractBearerToken request) ∧
        Authenticates config.settings config.server.sha256 σ.logins.store time
          (extractBearerToken request) := by
  by_cases hadmitted : Admitted config.settings config.isIpAddress now request σ.buckets
  · rw [and_iff_right hadmitted]
    by_cases hcompare : Comparable config.settings (extractBearerToken request)
    · rw [and_iff_right hcompare]
      obtain ⟨allowed, hanswer, hallowed⟩ := securityMiddleware_admitted config.server.sha256
        σ.logins.store time hpath hadmitted fun _ => hcompare
      rw [Allowed, hsecure, or_iff_right Bool.false_ne_true] at hallowed
      rw [middleware, hanswer, ← hallowed, Except.ok.injEq]
      cases allowed
      · simp [unauthorized]
      · simp
    · refine iff_of_false (fun hnext => ?_) fun h => hcompare h.1
      rw [middleware, securityMiddleware_guarded hpath, if_neg (not_not_intro hadmitted), hsecure,
        if_neg Bool.false_ne_true, isValidToken_eq_error hcompare] at hnext
      cases hnext
  · refine iff_of_false (fun hnext => ?_) fun h => hadmitted h.1
    rw [middleware, securityMiddleware_guarded hpath, if_pos hadmitted] at hnext
    cases hnext

/-- Over every run of the server, a request gets to what is guarded exactly if the limiter has
room for it and its token, which the comparison does not refuse, is the key or that of a
session which a login obtained with a matching password and which is still good. -/
theorem guarded_iff {clock : τ} {events : List (SiteEvent τ υ)}
    (h : run (step config) (start clock) events = some σ) (hpath : ¬ OpenPath request.path)
    (hsecure : config.settings.allowInsecureLocalonly = false)
    (hproper : Proper config.server.sha256
      (σ.calls ++ [⟨time, .validateSession (extractBearerToken request)⟩])) :
    (σ.middleware config time now request).1 = .ok .callNext ↔
      Admitted config.settings config.isIpAddress now request σ.buckets ∧
        Comparable config.settings (extractBearerToken request) ∧
        extractBearerToken request ≠ [] ∧ (extractBearerToken request = config.settings.apiKey ∨
          ∃ i username, SessionOf config σ (extractBearerToken request) time i username) := by
  have hsession := (kept_of_run h).accounted.hasSession_iff
    (extractBearerToken_encodable request) hproper
  rw [callNext_iff hpath hsecure, Authenticates, hsession]

/-- A question with the token of the login's session. -/
def questionRequest : Request :=
  ⟨text "/v1/chat/completions", some (text "c"), none, none, some [0x30, 0x37]⟩

theorem guarded_iff_question : ∃ σ,
    run (step sampleConfig) (start 0) sampleEvents = some σ ∧
      ∃ i username, SessionOf sampleConfig σ (tokenHex [7]) 8 i username := by
  have hrun : (run (step sampleConfig) (start 0) sampleEvents).any (fun σ =>
      σ.calls = [⟨1, .upsertUser (text "a") (text "old")⟩, ⟨3, .createSession [7] (text "a") 10⟩] ∧
      (σ.middleware sampleConfig 8 20 questionRequest).1 = .ok .callNext) = true := by
    decide +kernel
  obtain ⟨σ, hσ, hnext⟩ := (Option.any_eq_true ..).mp hrun
  obtain ⟨hcalls, hnext⟩ := of_decide_eq_true hnext
  have htoken : extractBearerToken questionRequest = tokenHex [7] := by decide
  have hpath : ¬ OpenPath questionRequest.path := by
    unfold OpenPath
    decide
  have hproper : Proper sampleConfig.server.sha256
      (σ.calls ++ [⟨8, .validateSession (extractBearerToken questionRequest)⟩]) := by
    rw [hcalls, htoken]
    exact ⟨by decide, by decide, fun a _ b _ h => utf8_injective (latin1_injective h)⟩
  obtain ⟨-, -, -, hkey | hsession⟩ := (guarded_iff hσ hpath rfl hproper).mp hnext
  · rw [htoken] at hkey
    exact absurd hkey (by decide)
  · exact ⟨σ, hσ, htoken ▸ hsession⟩

end Guarded

end Site

end LocalGraphRag.Web
