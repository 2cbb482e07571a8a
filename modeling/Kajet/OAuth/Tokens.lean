import Kajet.Lib.Table
import Mathlib.Data.Rat.Defs
import Mathlib.Algebra.Order.Ring.Unbundled.Rat

/-!
# The OAuth tables and their transactions

One row per authorization code, access token and refresh token.  The refresh tokens of one grant are
a family; an access token belongs to the family of the refresh token that it names.

* `Db.rotateTokenPair`            one conditional update decides who rotates; everyone else trips the
                                  family, or finds nothing;
* `Db.deleteFamily`               the access tokens are found through the stored refresh tokens;
* `Db.deleteCredentialsByUser`, `Db.deleteExpiredTokens`   the deletes across families.
-/

namespace Kajet.OAuth
open Table

structure AuthCode where
  code : String
  clientId : String
  userId : Option String
  scopes : List String
  expiresAt : ℚ
deriving DecidableEq

structure AccessToken where
  token : String
  clientId : String
  userId : Option String
  scopes : List String
  expiresAt : Option ℕ
  refreshToken : Option String
deriving DecidableEq

structure RefreshToken where
  token : String
  clientId : String
  userId : Option String
  scopes : List String
  expiresAt : Option ℕ
  familyId : String
  consumedAt : Option ℕ
deriving DecidableEq

structure OAuthTokenPair where
  accessToken : String
  refreshToken : String
  clientId : String
  userId : String
  scopes : List String
  accessExpiresAt : ℕ
  refreshExpiresAt : ℕ
  familyId : String
deriving DecidableEq

inductive RotationOutcome where
  | rotated
  | reused
  | expired
  | missing
deriving DecidableEq

structure Db where
  codes : List AuthCode
  access : List AccessToken
  refresh : List RefreshToken
deriving DecidableEq

/-- The rows of the two inserts. -/
def OAuthTokenPair.access (pair : OAuthTokenPair) : AccessToken :=
  ⟨pair.accessToken, pair.clientId, some pair.userId, pair.scopes, some pair.accessExpiresAt,
    some pair.refreshToken⟩

def OAuthTokenPair.refresh (pair : OAuthTokenPair) : RefreshToken :=
  ⟨pair.refreshToken, pair.clientId, some pair.userId, pair.scopes, some pair.refreshExpiresAt,
    pair.familyId, none⟩

/-- `expires_at IS NOT NULL AND expires_at <= now` -/
def sweptAt (now : ℕ) (expiresAt : Option ℕ) : Bool := expiresAt.any (· ≤ now)

/-- `token_expired`: a token that expires exactly now is still valid. -/
def tokenExpired (expiresAt : Option ℕ) (now : ℚ) : Bool := expiresAt.any fun e => (e : ℚ) < now

namespace Db

def insertPair (db : Db) (pair : OAuthTokenPair) : Db :=
  { db with access := pair.access :: db.access, refresh := pair.refresh :: db.refresh }

/-- The access tokens that the first statement of `_delete_family` selects. -/
def inFamily (db : Db) (familyId : String) (a : AccessToken) : Bool :=
  db.refresh.any fun r => r.familyId = familyId ∧ a.refreshToken = some r.token

def deleteFamily (db : Db) (familyId : String) : Db :=
  { db with
    access := deleteWhere (db.inFamily familyId) db.access
    refresh := deleteWhere (fun r => r.familyId = familyId) db.refresh }

/-- The row that the conditional update claims. -/
def claimable (db : Db) (token : String) (now : ℕ) : Option RefreshToken :=
  db.refresh.find? fun r => r.token = token ∧ r.consumedAt = none ∧ r.expiresAt.all (now ≤ ·)

/-- The claimed row is consumed, its access token goes, and the successors are stored. -/
def consume (db : Db) (token : String) (now : ℕ) (pair : OAuthTokenPair) : Db :=
  insertPair { db with
    access := deleteWhere (fun a => a.refreshToken = some token) db.access
    refresh := updateWhere (fun r => r.token = token ∧ r.consumedAt = none ∧ r.expiresAt.all (now ≤ ·))
      (fun r => { r with consumedAt := some now }) db.refresh } pair

def rotateTokenPair (db : Db) (oldRefreshToken : String) (pair : OAuthTokenPair) (now : ℕ) :
    Except String (RotationOutcome × Db) :=
  match db.claimable oldRefreshToken now with
  | some claimed =>
    if claimed.familyId ≠ pair.familyId then
      .error "Replacement refresh token has a different family_id"
    else .ok (.rotated, db.consume oldRefreshToken now pair)
  | none =>
    match row RefreshToken.token db.refresh oldRefreshToken with
    | none => .ok (.missing, db)
    | some r => .ok (if r.consumedAt.isSome then .reused else .expired, db.deleteFamily r.familyId)

def deleteAuthCode (db : Db) (code : String) : Bool × Db :=
  (db.codes.any (·.code = code), { db with codes := deleteWhere (fun c => c.code = code) db.codes })

def deleteAccessToken (db : Db) (token : String) : Db :=
  { db with access := deleteWhere (fun a => a.token = token) db.access }

def deleteCredentialsByUser (db : Db) (userId : String) : Db where
  codes := deleteWhere (fun c => c.userId = some userId) db.codes
  access := deleteWhere (fun a => a.userId = some userId) db.access
  refresh := deleteWhere (fun r => r.userId = some userId) db.refresh

/-- `now` is an `int`, the expiry of a code a `float`. -/
def deleteExpiredTokens (db : Db) (now : ℕ) : Db where
  codes := deleteWhere (fun c => c.expiresAt ≤ (now : ℚ)) db.codes
  access := deleteWhere (fun a => sweptAt now a.expiresAt) db.access
  refresh := deleteWhere (fun r => sweptAt now r.expiresAt) db.refresh

end Db
end Kajet.OAuth
