import LocalGraphRag.Web.RateLimit
import LocalGraphRag.Web.UserStore

/-!
# The security middleware

Every request passes it before its handler: open paths first, then the limiter of the
client, then the token of the request, which is the API key or that of a session. It
decides every request, but for a token or a key that the comparison of digests refuses.

## Implementation notes

The values of headers and cookies are bytes that are read as Latin-1. Which texts
`ipaddress.ip_address` accepts is a parameter, and nothing is asked of it. The request id
and the log lines are left out. `request.url.path` is taken to be the path that the router
goes by and not to raise. The limiter reads the monotonic clock and the session
store the wall clock.
-/

namespace LocalGraphRag.Web

open LocalGraphRag.Numbers LocalGraphRag.Python

/-- `str.isascii`. -/
def IsAscii (s : Text) : Prop := ∀ c ∈ s, c.val < 0x80

instance (s : Text) : Decidable (IsAscii s) :=
  List.decidableBAll (fun c : CodePoint => c.val < 0x80) s

/-- `str.removeprefix`. -/
def removePrefix (start s : Text) : Text :=
  if start.isPrefixOf s then s.drop start.length else s

theorem removePrefix_subset (start s : Text) : removePrefix start s ⊆ s := by
  rw [removePrefix]
  split_ifs
  · exact List.drop_subset _ s
  · exact List.Subset.refl s

/-- What the middleware reads of the settings. -/
structure WebSettings (τ : Type) where
  apiKey : Text
  allowInsecureLocalonly : Bool
  trustedProxyIps : List Text
  rateWindowSeconds : τ
  rateMaxRequests : ℕ
  rateMaxLoginRequests : ℕ

/-- What the middleware reads of a request. -/
structure Request where
  path : Text
  client : Option Text
  forwardedFor : Option Bytes
  authorization : Option Bytes
  ragToken : Option Bytes

/-- What the middleware answers. -/
inductive Answer where
  | callNext
  | rejected (statusCode : ℕ) (detail : Text)
  deriving DecidableEq

def rateLimitExceeded : Answer := .rejected 429 (text "Rate limit exceeded")

def unauthorized : Answer := .rejected 401 (text "Unauthorized")

/-- What the middleware may raise: `TypeError`, or what the session store raises. -/
inductive MiddlewareError where
  | typeError
  | userStore (e : UserStoreError)
  deriving DecidableEq

/-- `_rate_buckets` and `_login_rate_buckets`. -/
structure RateBuckets (τ : Type) where
  rate : Buckets τ
  login : Buckets τ

section Request
variable (isIpAddress : Text → Bool) (trustedProxyIps : List Text) (request : Request)

def resolveClientIp : Text :=
  let peer := request.client.getD (text "unknown")
  if peer ∈ trustedProxyIps then
    let forwarded := latin1 (request.forwardedFor.getD [])
    let first := strip ((splitOn 0x2c forwarded).headD [])
    if first ≠ [] ∧ isIpAddress first = true then first else peer
  else peer

def extractBearerToken : Text :=
  let token := strip (removePrefix (text "Bearer ") (latin1 (request.authorization.getD [])))
  if token ≠ [] then token else latin1 (request.ragToken.getD [])

/-- What a client can send is encodable. -/
theorem extractBearerToken_encodable : Encodable (extractBearerToken request) := by
  intro c hc
  simp only [extractBearerToken] at hc
  split_ifs at hc
  · apply latin1_encodable _ c
    exact removePrefix_subset _ _ (stripWhile_subset isSpace _ hc)
  · exact latin1_encodable _ c hc

/-- The paths that need no token. -/
def OpenPath (path : Text) : Prop :=
  (path = text "/favicon.ico" ∨ path = text "/ui" ∨ text "/ui/" <+: path) ∨
    path = text "/healthz" ∨ path = text "/auth/login" ∨ path = text "/auth/logout" ∨
    path = text "/auth/status"

end Request

/-- `hmac.compare_digest` on texts. -/
def compareDigest (a b : Text) : Except MiddlewareError Bool :=
  if IsAscii a ∧ IsAscii b then .ok (decide (a = b)) else .error .typeError

variable {τ υ : Type} [LinearOrder υ]

section Token
variable (settings : WebSettings τ) (sha256 : Bytes → Text) (store : UserStore υ) (time : υ)

/-- `API_KEY and hmac.compare_digest(token, API_KEY)`. -/
def isApiKey (token : Text) : Except MiddlewareError Bool :=
  if settings.apiKey = [] then .ok false else compareDigest token settings.apiKey

def isValidToken (token : Text) : Except MiddlewareError Bool :=
  if token = [] then .ok false
  else do
    let isKey ← isApiKey settings token
    if isKey then return true
    let username ← (store.validateSession sha256 time token).mapError .userStore
    return username.isSome

/-- The store has an unexpired session of an existing user under the token's digest. -/
def HasSession (token : Text) : Prop :=
  ∃ row ∈ store.sessions, row.token = sha256 (utf8 token) ∧ time < row.expiresAt ∧
    ∃ user ∈ store.users, user.username = row.username

/-- There is a token, and it is the API key or that of a valid session. -/
def Authenticates (token : Text) : Prop :=
  token ≠ [] ∧ (token = settings.apiKey ∨ HasSession sha256 store time token)

/-- The comparison of the token with the key, if it comes to it, does not raise. -/
def Comparable (token : Text) : Prop :=
  token ≠ [] → settings.apiKey ≠ [] → IsAscii token ∧ IsAscii settings.apiKey

variable {settings sha256 store time} {token : Text}

variable (sha256 store time) in
theorem validateSession_eq_ok (htoken : Encodable token) : ∃ username,
    store.validateSession sha256 time token = .ok username ∧
      (username.isSome = true ↔ HasSession sha256 store time token) := by
  have hok : ∃ username, store.validateSession sha256 time token = .ok username := by
    rw [UserStore.validateSession, UserStore.tokenHash, UserStore.encoding,
      if_pos (List.forall_mem_singleton.mpr htoken)]
    exact ⟨_, rfl⟩
  obtain ⟨username, hok⟩ := hok
  refine ⟨username, hok, ?_⟩
  rw [Option.isSome_iff_exists]
  constructor
  · intro hsome
    obtain ⟨name, rfl⟩ := hsome
    obtain ⟨-, huser, expiresAt, hrow, hnow⟩ := UserStore.validateSession_eq_some_iff.mp hok
    obtain ⟨hash, huser⟩ := huser
    exact ⟨_, hrow, rfl, hnow, _, huser, rfl⟩
  · intro hsession
    obtain ⟨row, hrow, hhash, hnow, user, huser, hname⟩ := hsession
    have hsome : store.validateSession sha256 time token = .ok (some row.username) := by
      apply UserStore.validateSession_eq_some_iff.mpr
      refine ⟨htoken, ⟨user.passwordHash, ?_⟩, row.expiresAt, ?_, hnow⟩
      · rw [← hname]
        exact huser
      · rw [← hhash]
        exact hrow
    exact ⟨row.username, Except.ok.inj (hok.symm.trans hsome)⟩

variable (sha256 store time) in
/-- A token that can be compared is valid exactly if it authenticates. -/
theorem isValidToken_eq_ok (htoken : Encodable token) (h : Comparable settings token) :
    ∃ valid, isValidToken settings sha256 store time token = .ok valid ∧
      (valid = true ↔ Authenticates settings sha256 store time token) := by
  by_cases hempty : token = []
  · refine ⟨false, if_pos hempty, ?_⟩
    simp [Authenticates, hempty]
  · obtain ⟨username, hsession, hsome⟩ := validateSession_eq_ok sha256 store time htoken
    have hkey : ∃ isKey, isApiKey settings token = .ok isKey ∧
        (isKey = true ↔ token = settings.apiKey) := by
      by_cases hnokey : settings.apiKey = []
      · refine ⟨false, if_pos hnokey, ?_⟩
        simp [hnokey, hempty]
      · refine ⟨decide (token = settings.apiKey), ?_, decide_eq_true_iff⟩
        rw [isApiKey, if_neg hnokey, compareDigest, if_pos (h hempty hnokey)]
    obtain ⟨isKey, hisKey, hiff⟩ := hkey
    rw [isValidToken, if_neg hempty, hisKey, hsession]
    cases isKey with
    | true => exact ⟨true, rfl, iff_of_true rfl ⟨hempty, Or.inl (hiff.mp rfl)⟩⟩
    | false =>
        refine ⟨username.isSome, rfl, ?_⟩
        have hne : token ≠ settings.apiKey := fun heq => Bool.false_ne_true (hiff.mpr heq)
        rw [Authenticates, and_iff_right hempty, or_iff_right hne]
        exact hsome

theorem isValidToken_eq_error (h : ¬ Comparable settings token) :
    isValidToken settings sha256 store time token = .error .typeError := by
  rw [Comparable] at h
  push Not at h
  obtain ⟨hempty, hkey, hascii⟩ := h
  rw [isValidToken, if_neg hempty, isApiKey, if_neg hkey, compareDigest,
    if_neg fun h => hascii h.1 h.2]
  rfl

end Token

/-- `security_middleware`, with the buckets after it. -/
def securityMiddleware [LinearOrder τ] [Sub τ] (settings : WebSettings τ)
    (isIpAddress : Text → Bool) (sha256 : Bytes → Text) (store : UserStore υ) (time : υ)
    (now : τ) (request : Request) (buckets : RateBuckets τ) :
    Except MiddlewareError Answer × RateBuckets τ :=
  if request.path = text "/favicon.ico" ∨ request.path = text "/ui" ∨
      text "/ui/" <+: request.path then (.ok .callNext, buckets)
  else if request.path = text "/healthz" then (.ok .callNext, buckets)
  else
    let clientIp := resolveClientIp isIpAddress settings.trustedProxyIps request
    if request.path = text "/auth/login" then
      let limiter := ⟨settings.rateWindowSeconds, settings.rateMaxLoginRequests⟩
      let checked := Limiter.checkRateLimit limiter now clientIp buckets.login
      (.ok (if checked.1 then .callNext else rateLimitExceeded),
        { buckets with login := checked.2 })
    else
      let limiter := ⟨settings.rateWindowSeconds, settings.rateMaxRequests⟩
      let checked := Limiter.checkRateLimit limiter now clientIp buckets.rate
      (if ¬ checked.1 then .ok rateLimitExceeded
        else if request.path = text "/auth/logout" then .ok .callNext
        else if request.path = text "/auth/status" then .ok .callNext
        else if settings.allowInsecureLocalonly then .ok .callNext
        else do
          let valid ← isValidToken settings sha256 store time (extractBearerToken request)
          return if valid then .callNext else unauthorized,
        { buckets with rate := checked.2 })

section Decision
variable [LinearOrder τ] [Sub τ] (settings : WebSettings τ) (isIpAddress : Text → Bool)
variable (sha256 : Bytes → Text) (store : UserStore υ) (time : υ) (now : τ) (request : Request)
variable (buckets : RateBuckets τ)

/-- The limiter has room for the request. -/
def Admitted : Prop :=
  (Limiter.checkRateLimit ⟨settings.rateWindowSeconds, settings.rateMaxRequests⟩ now
    (resolveClientIp isIpAddress settings.trustedProxyIps request) buckets.rate).1 = true

instance : Decidable (Admitted settings isIpAddress now request buckets) :=
  instDecidableEqBool _ true

/-- Insecure mode is on, or the token of the request authenticates it. -/
def Allowed : Prop :=
  settings.allowInsecureLocalonly = true ∨
    Authenticates settings sha256 store time (extractBearerToken request)

/-- The middleware decides a request: it never raises, and where a token is needed it calls
the handler exactly if the request is admitted and allowed, and rejects it otherwise. -/
structure DecidesRequest : Prop where
  answers : ∃ answer, (securityMiddleware settings isIpAddress sha256 store time now request
    buckets).1 = .ok answer
  calls_iff : ¬ OpenPath request.path →
    ((securityMiddleware settings isIpAddress sha256 store time now request buckets).1 =
      .ok .callNext ↔ Admitted settings isIpAddress now request buckets ∧
        Allowed settings sha256 store time request)
  limited : ¬ OpenPath request.path → ¬ Admitted settings isIpAddress now request buckets →
    (securityMiddleware settings isIpAddress sha256 store time now request buckets).1 =
      .ok rateLimitExceeded
  refused : ¬ OpenPath request.path → Admitted settings isIpAddress now request buckets →
    ¬ Allowed settings sha256 store time request →
      (securityMiddleware settings isIpAddress sha256 store time now request buckets).1 =
        .ok unauthorized

variable {settings isIpAddress sha256 store time now request buckets}

theorem securityMiddleware_open (h : OpenPath request.path) : ∃ answer,
    (securityMiddleware settings isIpAddress sha256 store time now request buckets).1 =
      .ok answer := by
  rw [securityMiddleware]
  by_cases hui : request.path = text "/favicon.ico" ∨ request.path = text "/ui" ∨
      text "/ui/" <+: request.path
  · rw [if_pos hui]
    exact ⟨_, rfl⟩
  rw [if_neg hui]
  by_cases hhealth : request.path = text "/healthz"
  · rw [if_pos hhealth]
    exact ⟨_, rfl⟩
  rw [if_neg hhealth]
  by_cases hlogin : request.path = text "/auth/login"
  · rw [if_pos hlogin]
    exact ⟨_, rfl⟩
  rw [if_neg hlogin]
  dsimp only
  obtain hlogout | hstatus := ((h.resolve_left hui).resolve_left hhealth).resolve_left hlogin
  · rw [if_pos hlogout]
    split_ifs
    · exact ⟨_, rfl⟩
    · exact ⟨_, rfl⟩
  · rw [if_pos hstatus]
    split_ifs
    · exact ⟨_, rfl⟩
    · exact ⟨_, rfl⟩
    · exact ⟨_, rfl⟩

/-- Where a token is needed, the limiter is asked, then the token. -/
theorem securityMiddleware_guarded (h : ¬ OpenPath request.path) :
    (securityMiddleware settings isIpAddress sha256 store time now request buckets).1 =
      if ¬ Admitted settings isIpAddress now request buckets then .ok rateLimitExceeded
      else if settings.allowInsecureLocalonly = true then .ok .callNext
      else do
        let valid ← isValidToken settings sha256 store time (extractBearerToken request)
        return if valid then .callNext else unauthorized := by
  simp only [OpenPath, not_or] at h
  obtain ⟨⟨hicon, hui, hui'⟩, hhealth, hlogin, hlogout, hstatus⟩ := h
  rw [securityMiddleware, if_neg (not_or_intro hicon (not_or_intro hui hui')), if_neg hhealth,
    if_neg hlogin]
  dsimp only
  rw [if_neg hlogout, if_neg hstatus]
  rfl

variable (sha256 store time) in
/-- What is admitted is answered by its token, unless insecure mode is on. -/
theorem securityMiddleware_admitted (h : ¬ OpenPath request.path)
    (hadmitted : Admitted settings isIpAddress now request buckets)
    (hcompare : settings.allowInsecureLocalonly = false →
      Comparable settings (extractBearerToken request)) :
    ∃ allowed, (securityMiddleware settings isIpAddress sha256 store time now request
      buckets).1 = .ok (if allowed = true then .callNext else unauthorized) ∧
        (allowed = true ↔ Allowed settings sha256 store time request) := by
  rw [securityMiddleware_guarded h, if_neg (not_not_intro hadmitted)]
  cases hsecure : settings.allowInsecureLocalonly with
  | true => exact ⟨true, rfl, iff_of_true rfl (Or.inl hsecure)⟩
  | false =>
      obtain ⟨valid, hvalid, hiff⟩ := isValidToken_eq_ok sha256 store time
        (extractBearerToken_encodable request) (hcompare hsecure)
      refine ⟨valid, ?_, ?_⟩
      · rw [if_neg Bool.false_ne_true, hvalid]
        rfl
      · rw [hiff, Allowed, hsecure, or_iff_right Bool.false_ne_true]

/-- The middleware decides a request exactly if the comparison of its token with the key,
where it comes to it, does not raise. -/
theorem decidesRequest_iff :
    DecidesRequest settings isIpAddress sha256 store time now request buckets ↔
      (¬ OpenPath request.path → Admitted settings isIpAddress now request buckets →
        settings.allowInsecureLocalonly = false →
          Comparable settings (extractBearerToken request)) := by
  constructor
  · intro h hguarded hadmitted hsecure
    by_contra hraises
    obtain ⟨answer, hanswer⟩ := h.answers
    have hinsecure : ¬ settings.allowInsecureLocalonly = true := by simp [hsecure]
    rw [securityMiddleware_guarded hguarded, if_neg (not_not_intro hadmitted),
      if_neg hinsecure, isValidToken_eq_error hraises] at hanswer
    cases hanswer
  · intro h
    by_cases hopen : OpenPath request.path
    · exact ⟨securityMiddleware_open hopen, absurd hopen, absurd hopen, absurd hopen⟩
    by_cases hadmitted : Admitted settings isIpAddress now request buckets
    · obtain ⟨allowed, hanswer, hallowed⟩ := securityMiddleware_admitted sha256 store time hopen
        hadmitted (h hopen hadmitted)
      refine ⟨⟨_, hanswer⟩, fun _ => ?_, fun _ h => absurd hadmitted h, fun _ _ hdenied => ?_⟩
      · rw [hanswer, Except.ok.injEq, and_iff_right hadmitted, ← hallowed]
        cases allowed <;> decide
      · rw [hanswer, if_neg fun htrue => hdenied (hallowed.mp htrue)]
    · have hanswer : (securityMiddleware settings isIpAddress sha256 store time now request
          buckets).1 = .ok rateLimitExceeded := by
        rw [securityMiddleware_guarded hopen, if_pos hadmitted]
      refine ⟨⟨_, hanswer⟩, fun _ => ?_, fun _ _ => hanswer, fun _ h => absurd h hadmitted⟩
      rw [hanswer]
      exact iff_of_false (by simp [rateLimitExceeded]) fun h => hadmitted h.1

end Decision

/-- A request for `/v1/models` with "é" for its token. -/
def accentedRequest : Request :=
  ⟨text "/v1/models", some (text "127.0.0.1"), none, some [0xe9], none⟩

/-- With any key of the required length, a token that is not ASCII raises. -/
theorem not_decidesRequest_accented : ¬ DecidesRequest
    (⟨List.replicate 32 0x61, false, [], 60, 30, 10⟩ : WebSettings Double) (fun _ => false)
    (fun _ => text "digest") (UserStore.empty : UserStore ℤ) 0 0 accentedRequest
    ⟨fun _ => none, fun _ => none⟩ := by
  have hraises : (securityMiddleware
      (⟨List.replicate 32 0x61, false, [], 60, 30, 10⟩ : WebSettings Double) (fun _ => false)
      (fun _ => text "digest") (UserStore.empty : UserStore ℤ) 0 0 accentedRequest
      ⟨fun _ => none, fun _ => none⟩).1 = .error .typeError := by
    rfl
  intro h
  obtain ⟨answer, hanswer⟩ := h.answers
  rw [hraises] at hanswer
  cases hanswer

end LocalGraphRag.Web
