import Mathlib.Data.Rat.Defs
import Mathlib.Algebra.Order.Ring.Rat
import Mantle.Base.Table
import Mantle.Py.Value

/-!
# Mantle.Auth.Oidc — the token verifier (`services/oidc.py`)

A token is verified with a key of the issuer it names: an inline key, a cached one or a fetched one.  What is not here:
the signature check itself (`Jose`) and the network (`Web`).
-/

namespace Mantle

/-! ### What the verifier stands on -/

/-- The token library.  `none` is an exception. -/
structure Jose (τ : Type) where
  /-- `jwt.get_unverified_claims`. -/
  claims : τ → Option Doc
  /-- `jwt.get_unverified_header`. -/
  header : τ → Option Doc
  /-- `jwt.decode(token, jwk, issuer=…, audience=…)`; the audience is checked when there is one. -/
  decode : τ → Doc → String → Val → Option Doc

/-- What the library promises: what it decodes are the claims of the token, under the issuer asked
for. -/
structure Jose.Lawful {τ : Type} (J : Jose τ) : Prop where
  claims : ∀ {t k iss aud c}, J.decode t k iss aud = some c → J.claims t = some c
  issuer : ∀ {t k iss aud c}, J.decode t k iss aud = some c → c.get "iss" = .str iss

/-- What the network answers at one moment. -/
structure Web where
  /-- The key set at an address; `none` when the request or its body fails. -/
  fetch : Val → Option Val
  /-- `_discover_jwks_uri`. -/
  discover : String → Val

structure TrustEnv where
  trustedIssuers : List Doc
  /-- The `trust_anchors` of the authority manifest, when there is one. -/
  anchors : Option (List (String × Val))
  authorityIssuer : String

/-! ### Trust maps -/

/-- The seconds of `time.time()`. -/
abbrev Time := ℚ

structure Verifier where
  envIssuers : List Doc
  external : Table String Doc
  byIss : Table String Doc
  jwksCache : Table String (List Val × Time)
  lastFetch : Table String Time
  lastRefresh : Time

def anchorJwks (anchor : Val) : Option Val :=
  match anchor with
  | .dict items =>
    match (docOfItems items).get "jwks" with
    | .dict keys => some (.dict keys)
    | _ => none
  | _ => none

/-- The key set of the `origin` anchor. -/
def originJwks (anchors : List (String × Val)) : Option Val :=
  anchorJwks (Doc.get anchors "origin")

def anchorConfig (name : String) (jwks : Val) : Doc :=
  [("issuer", .str name), ("jwks", jwks), ("audience", .none)]

/-- The issuer a configuration is kept under.  One that is no text is named by no token. -/
def issuerOf (d : Doc) : Option String :=
  match d.get "issuer" with
  | .str iss => if iss = "" then none else some iss
  | _ => none

/-- `d.get("role", "external") != "platform"`. -/
def isExternalRole (d : Doc) : Bool := !((d.find? "role").getD (.str "external")).eqStr "platform"

def setDefault (t : Table String Doc) (iss : String) (d : Doc) : Table String Doc :=
  if (t.lookup iss).isSome then t else t.insert iss d

def loadManifestAnchors (E : TrustEnv) (byIss : Table String Doc) : Table String Doc :=
  match E.anchors with
  | none => byIss
  | some anchors =>
    let named := anchors.foldl (fun t a =>
      match anchorJwks a.2 with
      | some jwks => setDefault t a.1 (anchorConfig a.1 jwks)
      | none => t) byIss
    match originJwks anchors with
    | some jwks =>
      if E.authorityIssuer = "" then named
      else setDefault named E.authorityIssuer (anchorConfig E.authorityIssuer jwks)
    | none => named

/-- `by_iss[iss] = d`. -/
def trustOne (t : Table String Doc) (d : Doc) : Table String Doc :=
  match issuerOf d with
  | some iss => t.insert iss d
  | none => t

/-- Explicit issuers: the later configuration of an issuer stands. -/
def trustAll (ds : List Doc) : Table String Doc := ds.foldl trustOne ∅

theorem trustOne_lookup_none {t : Table String Doc} {d : Doc} {iss : String} (ht : t.lookup iss = none)
    (hd : issuerOf d ≠ some iss) : (trustOne t d).lookup iss = none := by
  unfold trustOne
  cases hi : issuerOf d with
  | none => exact ht
  | some iss' =>
    have hne : iss ≠ iss' := by
      rintro rfl
      exact hd hi
    dsimp only
    rw [Table.lookup_insert_of, if_neg hne]
    exact ht

theorem trustAll_lookup_none {ds : List Doc} {iss : String} (h : ∀ d ∈ ds, issuerOf d ≠ some iss) :
    (trustAll ds).lookup iss = none := by
  unfold trustAll
  have hfold : ∀ (ds : List Doc) (t : Table String Doc), (∀ d ∈ ds, issuerOf d ≠ some iss) →
      t.lookup iss = none → (ds.foldl trustOne t).lookup iss = none := by
    intro ds
    induction ds with
    | nil => exact fun _ _ ht => ht
    | cons d ds ih =>
      intro t hds ht
      exact ih _ (fun e he => hds e (by simp [he])) (trustOne_lookup_none ht (hds d (by simp)))
  exact hfold ds ∅ h rfl

theorem issuerOf_ne_empty (d : Doc) : issuerOf d ≠ some "" := by
  unfold issuerOf
  split
  · split_ifs with h
    · simp
    · simpa using h
  · simp

namespace Verifier

def rebuild (V : Verifier) (E : TrustEnv) (artifactIssuers : List Doc) : Verifier :=
  { V with
    external := trustAll ((V.envIssuers ++ artifactIssuers).filter isExternalRole)
    byIss := loadManifestAnchors E (trustAll (V.envIssuers ++ artifactIssuers)) }

/-- `OidcVerifier()`. -/
def init (E : TrustEnv) : Verifier :=
  let env := E.trustedIssuers.filter fun d => (d.get "issuer").truthy
  rebuild ⟨env, ∅, ∅, ∅, ∅, 0⟩ E []

/-- `refresh_from_db`, with the configurations the store holds. -/
def refreshFromDb (V : Verifier) (E : TrustEnv) (now : Time) (artifactIssuers : List Doc) : Verifier :=
  { V.rebuild E artifactIssuers with lastRefresh := now }

def isTrusted (V : Verifier) (iss : Val) : Bool :=
  match iss with
  | .str s => s ≠ "" && (V.external.lookup s).isSome
  | _ => false

def tenantFor (V : Verifier) (iss : String) : Option String :=
  (V.external.lookup iss).map fun cfg => ((cfg.get "namespace").orElse (.str iss)).pyStr

/-! ### Keys -/

def jwksTtl : Time := 3600
def jwksMinRefetch : Time := 30

end Verifier

/-- What a `for key in keys` goes over; what cannot be iterated raises at once, as a key that is no
dictionary does. -/
def keyList : Val → List Val
  | .list xs => xs
  | .dict [] => []
  | .str "" => []
  | _ => [.none]

/-- `a == b`; values that are no scalars are compared by their `repr`. -/
def pyEq (a b : Val) : Bool :=
  match a, b with
  | .str s, .str t => s == t
  | .int n, v => v.eqInt n
  | .bool b, v => v.eqInt (if b then 1 else 0)
  | v, .int n => v.eqInt n
  | v, .bool b => v.eqInt (if b then 1 else 0)
  | v, w => v.repr == w.repr

/-- The key of the token's `kid`; the outer `none` is an exception. -/
def findKey (kid : Val) : List Val → Option (Option Doc)
  | [] => some none
  | .dict items :: keys =>
    if pyEq ((docOfItems items).get "kid") kid then some (some (docOfItems items)) else findKey kid keys
  | _ :: _ => none

def inlineKeys (cfg : Doc) : Option (List Val) :=
  match cfg.get "jwks" with
  | .dict items => some (keyList (((docOfItems items).find? "keys").getD (.list [])))
  | _ => none

section Verify

variable {τ : Type} (J : Jose τ) (W : Web) (now : Time)

namespace Verifier

def cachedKeys (V : Verifier) (iss : String) : List Val :=
  ((V.jwksCache.lookup iss).map Prod.fst).getD []

/-- A cached answer that is young enough. -/
def freshKeys (V : Verifier) (iss : String) (force : Bool) : Option (List Val) :=
  match V.jwksCache.lookup iss with
  | some (keys, at_) => if !force && decide (now - at_ < jwksTtl) then some keys else none
  | none => none

/-- The issuer's last fetch is too recent for another. -/
def throttled (V : Verifier) (iss : String) : Bool :=
  (V.lastFetch.lookup iss).any fun at_ => decide (now - at_ < jwksMinRefetch)

def fetchKeys (V : Verifier) (iss : String) (cfg : Doc) : List Val × Verifier :=
  let V' := { V with lastFetch := V.lastFetch.insert iss now }
  let uri := (cfg.get "jwks_uri").orElse (W.discover iss)
  if uri.truthy then
    match W.fetch uri with
    | some keys => (keyList keys, { V' with jwksCache := V'.jwksCache.insert iss (keyList keys, now) })
    | none => (V.cachedKeys iss, V')
  else (V.cachedKeys iss, V')

def keys (V : Verifier) (iss : String) (cfg : Doc) (force : Bool) : List Val × Verifier :=
  match inlineKeys cfg with
  | some ks => (ks, V)
  | none =>
    match V.freshKeys now iss force with
    | some ks => (ks, V)
    | none => if V.throttled now iss then (V.cachedKeys iss, V) else V.fetchKeys W now iss cfg

/-- `_resolve_key`: a miss refreshes once. -/
def resolveKey (V : Verifier) (iss : String) (cfg : Doc) (kid : Val) : Option Doc × Verifier :=
  let (ks, V₁) := V.keys W now iss cfg false
  match findKey kid ks with
  | none => (none, V₁)
  | some (some key) => (some key, V₁)
  | some none =>
    let (ks', V₂) := V₁.keys W now iss cfg true
    ((findKey kid ks').getD none, V₂)

/-- The check with a resolved key: an external issuer that binds no audience is refused. -/
def decodeWith (V : Verifier) (iss : String) (cfg : Doc) (expected : Val) (t : τ) (key : Doc) :
    Option Doc :=
  let aud := expected.orElse (cfg.get "audience")
  if !aud.truthy && (V.external.lookup iss).isSome then none else J.decode t key iss aud

/-- `verify`: the claims, and the verifier with the keys it now holds. -/
def verify (V : Verifier) (expected : Val) (t : τ) : Option Doc × Verifier :=
  match J.claims t with
  | none => (none, V)
  | some claims =>
    match (claims.find? "iss").getD (.str "") with
    | .str iss =>
      match V.byIss.lookup iss, J.header t with
      | some cfg, some header =>
        let (key, V') := V.resolveKey W now iss cfg ((header.find? "kid").getD (.str ""))
        (key.bind (V.decodeWith J iss cfg expected t), V')
      | _, _ => (none, V)
    | _ => (none, V)

end Verifier

end Verify

/-! ### External users -/

/-- `external_user_id`; `uuid5` derives an id from a text in the fixed namespace of users. -/
def externalUserId (uuid5 : String → String) (V : Verifier) (claims : Doc) : Option String :=
  let sub := claims.get "sub"
  match (claims.find? "iss").getD (.str "") with
  | .str iss =>
    if sub.truthy then (V.tenantFor iss).map fun tenant => uuid5 (tenant ++ "\n" ++ sub.pyStr) else none
  | _ => none

end Mantle
