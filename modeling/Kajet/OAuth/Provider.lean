import Kajet.Lib.Machine
import Kajet.OAuth.Tokens

/-!
# The OAuth provider

A call of the provider is a sequence of transactions, and between two of them any other call may run.
A `SELECT` before the first write of a transaction is a transaction of its own.  `Call` is a call that
has run up to its next transaction, with what it remembers.

* `loadAuthorizationCode`, `loadRefreshToken`, `loadAccessToken`   the reads, and what follows them;
* `State.run`     the next transaction of a call;
* `Happened`      the history: what was issued, minted, revoked and wiped, last first;
* `Op`, `oauth`   the machine.
-/

namespace Kajet.OAuth
open Table

def refreshTokenExpirySeconds : ℕ := 30 * 24 * 3600

structure FamilyRefreshToken where
  token : String
  clientId : String
  subject : String
  scopes : List String
  expiresAt : Option ℕ
  familyId : String
deriving DecidableEq

inductive Call where
  /-- before `delete_auth_code`, and between it and `save_token_pair` -/
  | exchangeCode (clientId : String) (code : AuthCode)
  | issueTokenPair (clientId : String) (code : AuthCode) (userId : String)
  | exchangeRefresh (clientId : String) (token : FamilyRefreshToken)
  /-- an expired code or access token was loaded -/
  | deleteCode (code : String)
  | dropAccess (token : String)
  /-- before the first `SELECT` of a revocation, and before the second -/
  | revokeByRefresh (token : String)
  | revokeByAccess (token : String)
  | revokeByAccessRefresh (token refreshToken : String)
  /-- before the deletes of a revocation -/
  | revokeFamily (familyId : String)
  | revokeAccess (token : String)
deriving DecidableEq

/-! ## the reads -/

def loadAuthorizationCode (db : Db) (clientId code : String) (now : ℚ) : Option Call :=
  (row AuthCode.code db.codes code).bind fun r =>
    if r.clientId ≠ clientId then none
    else if r.expiresAt < now then some (.deleteCode code)
    else some (.exchangeCode clientId r)

/-- The consumed-check comes first. -/
def loadRefreshToken (db : Db) (clientId token : String) (now : ℚ) : Option Call :=
  (row RefreshToken.token db.refresh token).bind fun r =>
    if r.clientId ≠ clientId then none
    else r.userId.bind fun userId =>
      if r.consumedAt.isSome then some (.revokeFamily r.familyId)
      else if tokenExpired r.expiresAt now then some (.revokeByRefresh token)
      else some (.exchangeRefresh clientId
        ⟨r.token, r.clientId, userId, r.scopes, r.expiresAt, r.familyId⟩)

def loadAccessToken (db : Db) (token : String) (now : ℚ) : Option Call :=
  (row AccessToken.token db.access token).bind fun a =>
    a.userId.bind fun _ => if tokenExpired a.expiresAt now then some (.dropAccess token) else none

/-! ## the pairs -/

section
variable (accessExpirySeconds : ℕ)

def newTokenPair (clientId : String) (scopes : List String) (userId familyId : String)
    (refreshExpiresAt now : ℕ) (accessToken refreshToken : String) : OAuthTokenPair :=
  ⟨accessToken, refreshToken, clientId, userId, scopes, now + accessExpirySeconds, refreshExpiresAt,
    familyId⟩

/-- `refresh_token.expires_at or now + REFRESH_TOKEN_EXPIRY_SECONDS` -/
def refreshExpiry (expiresAt : Option ℕ) (now : ℕ) : ℕ :=
  match expiresAt with
  | some (e + 1) => e + 1
  | _ => now + refreshTokenExpirySeconds

/-- The pair that `_issue_token_pair` saves. -/
def firstPair (clientId : String) (scopes : List String) (userId : String) (now : ℕ)
    (accessToken refreshToken familyId : String) : OAuthTokenPair :=
  newTokenPair accessExpirySeconds clientId scopes userId familyId (now + refreshTokenExpirySeconds) now
    accessToken refreshToken

/-- The pair with which `exchange_refresh_token` rotates. -/
def nextPair (clientId : String) (token : FamilyRefreshToken) (scopes : List String) (now : ℕ)
    (accessToken refreshToken : String) : OAuthTokenPair :=
  newTokenPair accessExpirySeconds clientId scopes token.subject token.familyId
    (refreshExpiry token.expiresAt now) now accessToken refreshToken

/-! ## the machine -/

/-- What a pair was minted from. -/
inductive Source where
  | code (c : AuthCode)
  | refresh (token : String)
deriving DecidableEq

inductive Happened where
  | issued (c : AuthCode)
  | minted (source : Source) (pair : OAuthTokenPair)
  | revoked (familyId : String)
  | wiped (userId : String)
deriving DecidableEq

def Happened.pair? : Happened → Option OAuthTokenPair
  | .minted _ pair => some pair
  | _ => none

def pairs (log : List Happened) : List OAuthTokenPair := log.filterMap Happened.pair?

/-- The family in which the access token was minted. -/
def familyOf (log : List Happened) (accessToken : String) : Option String :=
  (row OAuthTokenPair.accessToken (pairs log) accessToken).map (·.familyId)

/-- The tables, the calls in flight, the random values drawn so far and the history. -/
structure State where
  db : Db
  calls : List Call
  used : List String
  log : List Happened
deriving DecidableEq

def State.empty : State := ⟨⟨[], [], []⟩, [], [], []⟩

inductive Op where
  | completeAuthorization (code clientId : String) (userId : Option String) (scopes : List String)
      (expiresAt : ℚ)
  | loadAuthorizationCode (clientId code : String) (now : ℚ)
  | loadRefreshToken (clientId token : String) (now : ℚ)
  | loadAccessToken (token : String) (now : ℚ)
  | revokeAccessToken (token : String)
  | revokeRefreshToken (token : String)
  /-- the next transaction of the `k`-th call -/
  | run (k : ℕ)
  | issueTokenPair (k : ℕ) (accessToken refreshToken familyId : String) (now : ℕ)
  | exchangeRefresh (k : ℕ) (scopes : List String) (accessToken refreshToken : String) (now : ℕ)
  /-- the `k`-th call ends before its next transaction -/
  | abandon (k : ℕ)
  | deleteCredentialsByUser (userId : String)
  | deleteExpiredTokens (now : ℕ)

namespace State

def push (s : State) (call : Option Call) : State := { s with calls := call.toList ++ s.calls }

def drop (s : State) (k : ℕ) : State := { s with calls := s.calls.eraseIdx k }

/-- The code is consumed; without an owner it mints nothing. -/
def exchangeAuthorizationCode (s : State) (clientId : String) (c : AuthCode) : State :=
  let (deleted, db) := s.db.deleteAuthCode c.code
  { s with db := db }.push
    (if deleted then c.userId.map fun userId => .issueTokenPair clientId c userId else none)

def run (s : State) : Call → Option State
  | .exchangeCode clientId c => some (s.exchangeAuthorizationCode clientId c)
  | .deleteCode code => some { s with db := (s.db.deleteAuthCode code).2 }
  | .dropAccess token => some { s with db := s.db.deleteAccessToken token }
  | .revokeByRefresh token => some (s.push
      ((row RefreshToken.token s.db.refresh token).map fun r => .revokeFamily r.familyId))
  | .revokeByAccess token => some (s.push
      ((row AccessToken.token s.db.access token).map fun a =>
        match a.refreshToken with
        | none => .revokeAccess token
        | some refreshToken => .revokeByAccessRefresh token refreshToken))
  | .revokeByAccessRefresh token refreshToken => some (s.push (some
      (match row RefreshToken.token s.db.refresh refreshToken with
        | none => .revokeAccess token
        | some r => .revokeFamily r.familyId)))
  | .revokeFamily familyId =>
    some { s with db := s.db.deleteFamily familyId, log := .revoked familyId :: s.log }
  | .revokeAccess token => some { s with
      db := s.db.deleteAccessToken token
      log := ((familyOf s.log token).map Happened.revoked).toList ++ s.log }
  | .issueTokenPair .. => none
  | .exchangeRefresh .. => none

def mint (s : State) (db : Db) (source : Source) (pair : OAuthTokenPair) (drawn : List String) : State :=
  { s with db := db, used := drawn ++ s.used, log := .minted source pair :: s.log }

/-- The rotation rotates, or trips the family of the token, or finds nothing; a `ValueError` rolls
back. -/
def rotate (s : State) (token : String) (pair : OAuthTokenPair) (now : ℕ) : State :=
  match s.db.rotateTokenPair token pair now with
  | .error _ => s
  | .ok (.rotated, db) => s.mint db (.refresh token) pair [pair.accessToken, pair.refreshToken]
  | .ok (.missing, _) => s
  | .ok (_, db) => { s with
      db := db
      log := ((row RefreshToken.token s.db.refresh token).map fun r =>
        Happened.revoked r.familyId).toList ++ s.log }

end State

def step (s : State) : Op → Option State
  | .completeAuthorization code clientId userId scopes expiresAt =>
    if code ∈ s.used then none
    else
      let c : AuthCode := ⟨code, clientId, userId, scopes, expiresAt⟩
      some { s with
        db := { s.db with codes := c :: s.db.codes }
        used := code :: s.used
        log := .issued c :: s.log }
  | .loadAuthorizationCode clientId code now => some (s.push (loadAuthorizationCode s.db clientId code now))
  | .loadRefreshToken clientId token now => some (s.push (loadRefreshToken s.db clientId token now))
  | .loadAccessToken token now => some (s.push (loadAccessToken s.db token now))
  | .revokeAccessToken token => some (s.push (some (.revokeByAccess token)))
  | .revokeRefreshToken token => some (s.push (some (.revokeByRefresh token)))
  | .run k => s.calls[k]?.bind (s.drop k).run
  | .issueTokenPair k accessToken refreshToken familyId now =>
    match s.calls[k]? with
    | some (.issueTokenPair clientId c userId) =>
      let pair := firstPair accessExpirySeconds clientId c.scopes userId now accessToken refreshToken familyId
      if ([accessToken, refreshToken, familyId] ++ s.used).Nodup then
        some ((s.drop k).mint (s.db.insertPair pair) (.code c) pair [accessToken, refreshToken, familyId])
      else none
    | _ => none
  | .exchangeRefresh k scopes accessToken refreshToken now =>
    match s.calls[k]? with
    | some (.exchangeRefresh clientId token) =>
      if ¬ scopes ⊆ token.scopes then some (s.drop k)
      else if ([accessToken, refreshToken] ++ s.used).Nodup then
        some ((s.drop k).rotate token.token
          (nextPair accessExpirySeconds clientId token scopes now accessToken refreshToken) now)
      else none
    | _ => none
  | .abandon k => some (s.drop k)
  | .deleteCredentialsByUser userId => some { s with
      db := s.db.deleteCredentialsByUser userId
      log := .wiped userId :: s.log }
  | .deleteExpiredTokens now => some { s with db := s.db.deleteExpiredTokens now }

/-- The tables begin empty. -/
def oauth : Kajet.Machine State Op where
  start s := s = State.empty
  next := step accessExpirySeconds

end
end Kajet.OAuth
