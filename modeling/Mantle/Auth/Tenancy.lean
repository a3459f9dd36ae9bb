import Mathlib.Tactic.SplitIfs
import Mantle.Access.Gate
import Mantle.Auth.Oidc

/-!
# Mantle.Auth.Tenancy — who a verified token is (`services/dependencies.py`)

Which identity `resolveAuth` builds is chosen by a claim of the token, and only the default one asks which issuer
signed it.
-/

namespace Mantle

/-! ### Claims -/

inductive AuthErr
  | unauthorized (detail : String)
  | raised (e : PyErr)
deriving DecidableEq, Repr

/-- `AuthContext`, as a token fills it in. -/
structure AuthContext where
  principalId : String := ""
  principalType : String := "user"
  userId : Option String := none
  actor : Option String := none
  actorSigner : Option String := none
  authority : Option String := none
  hostId : Option String := none
  email : Option String := none
  emailVerified : Bool := false
  name : Option String := none
  scope : Option String := none
deriving DecidableEq, Repr

/-- `str(v) if v else None`. -/
def textOf (v : Val) : Option String := if v.truthy then some v.pyStr else none

/-- A text with an `@` in it. -/
def isAddress : Val → Bool
  | .str s => s.toList.contains '@'
  | _ => false

def claimEmail (p : Doc) : Option String :=
  (["email", "upn", "preferred_username"].find? fun k => isAddress (p.get k)).map fun k =>
    (p.get k).pyStr

def claimEmailVerified (p : Doc) : Bool :=
  isAddress (p.get "email") &&
    match p.get "email_verified" with
    | .bool b => b
    | .str s => decide (normText s ∈ ["true", "1", "yes"])
    | _ => false

def claimName (p : Doc) : Option String :=
  (["name", "given_name", "preferred_username"].find? fun k =>
    match p.get k with
    | .str s => !s.toList.all isPySpace
    | _ => false).map fun k => (p.get k).pyStr

def claimAudStr (p : Doc) : Option String :=
  match p.get "aud" with
  | .list xs => textOf (.str (",".intercalate (xs.map Val.pyStr)))
  | .tuple xs => textOf (.str (",".intercalate (xs.map Val.pyStr)))
  | aud => textOf aud

/-- What a token says it is. -/
inductive PrincipalKind
  | server
  | service
  | mcpClient
  | delegation
  | user
deriving DecidableEq, Repr

/-- `payload.get("principal_type", "user")`, by the branch it takes. -/
def principalKind (p : Doc) : PrincipalKind :=
  match (p.find? "principal_type").getD (.str "user") with
  | .str "server" => .server
  | .str "service" => .service
  | .str "mcp_client" => .mcpClient
  | .str "delegation" => .delegation
  | _ => .user

/-! ### Resolving -/

section Resolve

variable (uuid5 : String → String) (E : TrustEnv) (V : Verifier)

def validateAudForPrincipal (p : Doc) : Except AuthErr PUnit :=
  match principalKind p with
  | .service =>
    if (p.get "aud").eqStr "mantle" then .ok ⟨⟩
    else .error (.unauthorized "Invalid token audience for platform service")
  | .mcpClient =>
    if (p.get "aud").truthy then .ok ⟨⟩ else .error (.unauthorized "Missing aud in mcp_client token")
  | .delegation =>
    if (p.get "aud").truthy then .ok ⟨⟩ else .error (.unauthorized "Missing aud in delegation token")
  | _ =>
    if V.isTrusted ((p.find? "iss").getD (.str "")) then .ok ⟨⟩
    else if (p.get "aud").eqStr E.authorityIssuer then .ok ⟨⟩
    else .error (.unauthorized "Invalid token audience")

/-- `AuthContext.__post_init__`: nobody authenticates as the commons. -/
def AuthContext.postInit (ctx : AuthContext) : Except AuthErr AuthContext :=
  if ctx.principalId = publicPrincipal then
    .error (.unauthorized "'public' is the reserved commons principal and cannot authenticate (sub)")
  else if ctx.userId = some publicPrincipal then
    .error (.unauthorized "'public' is the reserved commons principal and cannot authenticate (user)")
  else .ok ctx

/-- `str(payload.get("iss", ""))`. -/
def issText (p : Doc) : String := ((p.find? "iss").getD (.str "")).pyStr

def serviceContext (p : Doc) : AuthContext :=
  { principalId := issText p, principalType := "service", authority := textOf (.str (issText p)) }

/-- A client acting for the user `sub` names. -/
def mcpClientContext (p : Doc) : AuthContext :=
  { principalId := (textOf (p.get "sub")).getD "", principalType := "mcp_client",
    userId := textOf (p.get "sub"), actor := claimAudStr p }

/-- `payload.get("act") or {}`. -/
def actOf (p : Doc) : Except AuthErr Doc :=
  match (p.get "act").orElse (.dict []) with
  | .dict items => .ok (docOfItems items)
  | _ => .error (.raised (.attributeError "object has no attribute 'get'"))

/-- A server acting for the user `sub` names: the whole chain is required. -/
def delegationContext (p : Doc) : Except AuthErr AuthContext := do
  let act ← actOf p
  if !(p.get "sub").truthy then .error (.unauthorized "Delegation token missing sub (user)")
  else if !(act.get "sub").truthy then
    .error (.unauthorized "Delegation token missing act.sub (server)")
  else if !(p.get "host_id").truthy then .error (.unauthorized "Delegation token missing host_id")
  else
    .ok { principalId := (p.get "sub").pyStr, userId := some (p.get "sub").pyStr,
          actor := some (act.get "sub").pyStr,
          actorSigner := textOf (.str ((act.get "iss").orElse (.str "")).pyStr),
          authority := textOf (.str (issText p)), hostId := some (p.get "host_id").pyStr,
          scope := textOf (p.get "scope") }

/-- A user: an external issuer's is namespaced by its tenant, any other is named by `sub`.  (No derived
id is an empty text.) -/
def userContext (p : Doc) : AuthContext :=
  match externalUserId uuid5 V p with
  | some uid =>
    { principalId := uid, userId := some uid, authority := V.tenantFor (issText p),
      email := claimEmail p, emailVerified := claimEmailVerified p, name := claimName p }
  | none =>
    { principalId := (textOf (p.get "sub")).getD "", userId := textOf (p.get "sub"),
      email := claimEmail p, emailVerified := claimEmailVerified p, name := claimName p }

def identityOf (p : Doc) : Except AuthErr AuthContext :=
  match principalKind p with
  | .service => .ok (serviceContext p)
  | .mcpClient => .ok (mcpClientContext p)
  | .delegation => delegationContext p
  | _ => .ok (userContext uuid5 V p)

/-- The part of `resolve_auth` that follows the verification. -/
def resolvePayload (p : Doc) : Except AuthErr AuthContext := do
  if (p.find? "sub").isNone then .error (.unauthorized "Invalid token")
  else if principalKind p = .server then
    .error (.unauthorized
      "Server principals are not accepted; use a grant key (see POST /grants/keys)")
  else
    validateAudForPrincipal E V p
    if (p.get "api_key_id").truthy then
      .error (.unauthorized "API keys have been retired; use a grant key")
    else
      let ctx ← identityOf uuid5 V p
      ctx.postInit

variable {τ : Type} (J : Jose τ) (W : Web) (now : Time)

/-- `refresh_if_unknown_iss`: the refreshed verifier, when the refresh ran and knows the issuer. -/
def refreshIfUnknownIss (artifactIssuers : List Doc) (t : τ) : Option Verifier :=
  match J.claims t with
  | none => none
  | some claims =>
    match claims.get "iss" with
    | .str iss =>
      if iss = "" ∨ (V.byIss.lookup iss).isSome ∨ now - V.lastRefresh < 10 then none
      else
        let V' := V.refreshFromDb E now artifactIssuers
        if (V'.byIss.lookup iss).isSome then some V' else none
    | _ => none

/-- `verify_token`: an expired token is refused; `expired` compares an expiry with the clock. -/
def verifyToken (expired : Val → Bool) (t : τ) : Option Doc :=
  (V.verify J W now .none t).1.filter fun p => !((p.get "exp").truthy && expired (p.get "exp"))

/-- `resolve_auth` on a JWT: a token of an unknown issuer is tried once more after a refresh. -/
def resolveAuth (expired : Val → Bool) (artifactIssuers : List Doc) (t : τ) :
    Except AuthErr AuthContext :=
  match verifyToken V J W now expired t with
  | some p => resolvePayload uuid5 E V p
  | none =>
    match refreshIfUnknownIss E V J now artifactIssuers t with
    | none => .error (.unauthorized "Invalid token")
    | some V' =>
      match verifyToken V' J W now expired t with
      | some p => resolvePayload uuid5 E V' p
      | none => .error (.unauthorized "Invalid token")

end Resolve

/-! ### Tenants -/

inductive IssuerClass
  | external
  | authority
  | anchor
deriving DecidableEq, Repr

section Tenants

variable (uuid5 : String → String) (E : TrustEnv) (V : Verifier)

def issuerClass (iss : String) : IssuerClass :=
  if (V.external.lookup iss).isSome then .external
  else if iss = E.authorityIssuer then .authority
  else .anchor

/-- An external issuer may speak for the user of its tenant, the authority for the user `sub` names, a platform service
for itself. -/
def SpeaksFor (p : Doc) (ctx : AuthContext) : Prop :=
  match issuerClass E V (issText p) with
  | .external => ctx.principalType ≠ "service" ∧ ctx.userId = externalUserId uuid5 V p ∧
      ctx.principalId = (externalUserId uuid5 V p).getD ""
  | .authority => ctx.principalType ≠ "service" ∧ ctx.userId = textOf (p.get "sub") ∧
      ctx.principalId = (textOf (p.get "sub")).getD ""
  | .anchor => ctx.principalType = "service" ∧ ctx.userId = none ∧ ctx.principalId = issText p

def StaysInTenant (p : Doc) (r : Except AuthErr AuthContext) : Prop :=
  ∀ ctx, r = .ok ctx → SpeaksFor uuid5 E V p ctx

/-- The audience a token of this kind must carry. -/
def AudienceFits (p : Doc) : Prop :=
  match principalKind p with
  | .service => (p.get "aud").eqStr "mantle" = true
  | .mcpClient => (p.get "aud").truthy = true
  | .delegation => (p.get "aud").truthy = true
  | _ => issuerClass E V (issText p) = .external ∨ (p.get "aud").eqStr E.authorityIssuer = true

def ChainComplete (p : Doc) : Prop :=
  ∃ act, actOf p = .ok act ∧ (p.get "sub").truthy = true ∧ (act.get "sub").truthy = true ∧
    (p.get "host_id").truthy = true

/-- The subject a token of this kind is read for. -/
def namedPrincipal (p : Doc) : String :=
  match principalKind p with
  | .service => issText p
  | .user => ((externalUserId uuid5 V p).orElse fun _ => textOf (p.get "sub")).getD ""
  | _ => (textOf (p.get "sub")).getD ""

/-- The token passes every check that does not look at who signed it. -/
structure Passes (p : Doc) : Prop where
  subject : (p.find? "sub").isSome
  kind : principalKind p ≠ .server
  audience : AudienceFits E V p
  current : (p.get "api_key_id").truthy = false
  chain : principalKind p = .delegation → ChainComplete p
  named : namedPrincipal uuid5 V p ≠ publicPrincipal

/-- The kind a token claims is one its issuer may speak as.  (A subject that is its own derived id names
the same user either way.) -/
def KindFits (p : Doc) : Prop :=
  match issuerClass E V (issText p) with
  | .external => principalKind p = .user ∨
      principalKind p ≠ .service ∧ externalUserId uuid5 V p = textOf (p.get "sub")
  | .authority => principalKind p ≠ .service
  | .anchor => principalKind p = .service

end Tenants

/-! ### What resolving does -/

variable {ctx : AuthContext}

section Spec

variable {uuid5 : String → String} {E : TrustEnv} {V : Verifier} {p : Doc}

structure IssuerNamed (V : Verifier) (p : Doc) : Prop where
  text : ∃ iss, p.find? "iss" = some (.str iss)
  external : V.external.lookup "" = none

theorem IssuerNamed.isTrusted (h : IssuerNamed V p) (E : TrustEnv) :
    V.isTrusted ((p.find? "iss").getD (.str "")) = true ↔
      issuerClass E V (issText p) = .external := by
  obtain ⟨iss, hiss⟩ := h.text
  have hext := h.external
  unfold issText issuerClass
  rw [hiss]
  change (decide (iss ≠ "") && (V.external.lookup iss).isSome) = true ↔
    (if (V.external.lookup iss).isSome = true then IssuerClass.external else _) = _
  by_cases hne : iss = ""
  · subst hne
    rw [hext]
    simp only [Option.isSome_none, Bool.false_eq_true, if_false]
    split_ifs <;> simp
  · by_cases hl : (V.external.lookup iss).isSome = true
    · simp [hne, hl]
    · simp only [hl, Bool.and_false, Bool.false_eq_true, if_false]
      split_ifs <;> simp

theorem IssuerNamed.not_derived (h : IssuerNamed V p) (E : TrustEnv)
    (hc : issuerClass E V (issText p) ≠ .external) : externalUserId uuid5 V p = none := by
  obtain ⟨iss, hiss⟩ := h.text
  have hl : V.external.lookup iss = none := by
    unfold issuerClass issText at hc
    rw [hiss] at hc
    change (if (V.external.lookup iss).isSome = true then IssuerClass.external else _) ≠ _ at hc
    by_contra hne
    rw [if_pos (Option.isSome_iff_ne_none.mpr hne)] at hc
    exact hc rfl
  unfold externalUserId Verifier.tenantFor
  rw [hiss]
  simp [hl]

theorem IssuerNamed.derived_or (h : IssuerNamed V p) (hc : issuerClass E V (issText p) = .external) :
    ((externalUserId uuid5 V p).orElse fun _ => textOf (p.get "sub")) = externalUserId uuid5 V p := by
  obtain ⟨iss, hiss⟩ := h.text
  unfold issuerClass issText at hc
  rw [hiss] at hc
  change (if (V.external.lookup iss).isSome = true then IssuerClass.external else _) = _ at hc
  have hl : ∃ cfg, V.external.lookup iss = some cfg := by
    rw [← Option.isSome_iff_exists]
    by_contra hne
    rw [if_neg hne] at hc
    split_ifs at hc
  obtain ⟨cfg, hl⟩ := hl
  unfold externalUserId Verifier.tenantFor textOf
  rw [hiss]
  by_cases hs : (p.get "sub").truthy = true <;> simp [hs, hl]

theorem validateAud_ok_iff (h : IssuerNamed V p) :
    validateAudForPrincipal E V p = .ok ⟨⟩ ↔ AudienceFits E V p := by
  have ht := h.isTrusted E
  unfold validateAudForPrincipal AudienceFits
  cases principalKind p <;> dsimp only
  case service => split_ifs with h' <;> simp [h']
  case mcpClient => split_ifs with h' <;> simp [h']
  case delegation => split_ifs with h' <;> simp [h']
  all_goals
    split_ifs with h1 h2
    · simp [ht.mp h1]
    · simp [h2]
    · simp only [false_iff, not_or]
      exact ⟨fun hc => h1 (ht.mpr hc), by simpa using h2⟩

structure ReadAs (uuid5 : String → String) (V : Verifier) (p : Doc) (ctx : AuthContext) : Prop where
  service : ctx.principalType = "service" ↔ principalKind p = .service
  user : ctx.userId = match principalKind p with
    | .service => none
    | .user => (externalUserId uuid5 V p).orElse fun _ => textOf (p.get "sub")
    | _ => textOf (p.get "sub")
  principal : ctx.principalId = namedPrincipal uuid5 V p

theorem delegationContext_ok (hk : principalKind p = .delegation) (h : delegationContext p = .ok ctx) :
    ChainComplete p ∧ ReadAs uuid5 V p ctx := by
  unfold delegationContext at h
  cases ha : actOf p with
  | error e =>
    rw [ha] at h
    cases h
  | ok act =>
    rw [ha] at h
    simp only [bind, Except.bind] at h
    split_ifs at h with h1 h2 h3
    cases h
    simp only [Bool.not_eq_true, Bool.not_eq_false'] at h1 h2 h3
    have hsub : textOf (p.get "sub") = some (p.get "sub").pyStr := by
      unfold textOf
      rw [if_pos h1]
    refine ⟨⟨act, ha, h1, h2, h3⟩, ?_, ?_, ?_⟩
    · simp [hk]
    · simp [hk, hsub]
    · simp [namedPrincipal, hk, hsub]

theorem identityOf_ok (hk : principalKind p ≠ .server) (h : identityOf uuid5 V p = .ok ctx) :
    (principalKind p = .delegation → ChainComplete p) ∧ ReadAs uuid5 V p ctx := by
  unfold identityOf at h
  cases hkind : principalKind p with
  | server => exact absurd hkind hk
  | service =>
    rw [hkind] at h
    cases h
    exact ⟨by simp, by simp [serviceContext, hkind], by simp [serviceContext, hkind],
      by simp [serviceContext, namedPrincipal, hkind]⟩
  | mcpClient =>
    rw [hkind] at h
    cases h
    exact ⟨by simp, by simp [mcpClientContext, hkind], by simp [mcpClientContext, hkind],
      by simp [mcpClientContext, namedPrincipal, hkind]⟩
  | delegation =>
    rw [hkind] at h
    obtain ⟨hchain, hread⟩ := delegationContext_ok hkind h
    exact ⟨fun _ => hchain, hread⟩
  | user =>
    rw [hkind] at h
    cases h
    refine ⟨by simp, ?_, ?_, ?_⟩
    · unfold userContext
      cases externalUserId uuid5 V p <;> simp [hkind]
    · unfold userContext
      cases externalUserId uuid5 V p <;> simp [hkind]
    · unfold userContext namedPrincipal
      cases externalUserId uuid5 V p <;> simp [hkind]

theorem identityOf_total (hchain : principalKind p = .delegation → ChainComplete p) :
    ∃ ctx, identityOf uuid5 V p = .ok ctx := by
  unfold identityOf
  cases hkind : principalKind p with
  | delegation =>
    obtain ⟨act, ha, h1, h2, h3⟩ := hchain hkind
    unfold delegationContext
    rw [ha]
    simp only [bind, Except.bind, h1, h2, h3, Bool.not_true, Bool.false_eq_true, if_false]
    exact ⟨_, rfl⟩
  | _ => exact ⟨_, rfl⟩

theorem ReadAs.principal_of_user {u : String} (h : ReadAs uuid5 V p ctx) (hu : ctx.userId = some u) :
    ctx.principalId = u := by
  rw [h.user] at hu
  rw [h.principal]
  unfold namedPrincipal
  cases hk : principalKind p <;> rw [hk] at hu <;> dsimp only at hu ⊢
  case service => cases hu
  all_goals
    rw [hu]
    rfl

theorem postInit_ok {ctx' : AuthContext} (h : ReadAs uuid5 V p ctx) :
    ctx.postInit = .ok ctx' ↔ ctx' = ctx ∧ namedPrincipal uuid5 V p ≠ publicPrincipal := by
  unfold AuthContext.postInit
  rw [← h.principal]
  by_cases h1 : ctx.principalId = publicPrincipal
  · simp [h1]
  · have h2 : ¬ctx.userId = some publicPrincipal := fun hu => h1 (h.principal_of_user hu)
    simp only [h1, h2, if_false, Except.ok.injEq, ne_eq, not_false_eq_true, and_true]
    exact eq_comm

/-- **What `resolve_auth` makes of verified claims.** -/
theorem resolvePayload_ok (hn : IssuerNamed V p) (h : resolvePayload uuid5 E V p = .ok ctx) :
    Passes uuid5 E V p ∧ ReadAs uuid5 V p ctx := by
  unfold resolvePayload at h
  split_ifs at h with h1 h2 h3
  · obtain ⟨u, ha, h⟩ := bind_ok h
    cases h
  · obtain ⟨u, ha, h⟩ := bind_ok h
    obtain ⟨c, hc, h⟩ := bind_ok h
    obtain ⟨hchain, hread⟩ := identityOf_ok h2 hc
    obtain ⟨rfl, hpub⟩ := (postInit_ok hread).mp h
    refine ⟨⟨?_, h2, (validateAud_ok_iff hn).mp ha, by simpa using h3, hchain, hpub⟩, hread⟩
    simpa [Option.isSome_iff_ne_none] using h1

theorem resolvePayload_total (hn : IssuerNamed V p) (h : Passes uuid5 E V p) :
    ∃ ctx, resolvePayload uuid5 E V p = .ok ctx := by
  obtain ⟨ctx, hctx⟩ := identityOf_total h.chain
  obtain ⟨-, hread⟩ := identityOf_ok h.kind hctx
  refine ⟨ctx, ?_⟩
  have hsub : (p.find? "sub").isNone = false := by
    rw [Option.isNone_eq_false_iff]
    exact h.subject
  unfold resolvePayload
  simp only [hsub, Bool.false_eq_true, if_false, h.kind, (validateAud_ok_iff hn).mpr h.audience,
    h.current]
  rw [hctx]
  exact (postInit_ok hread).mpr ⟨rfl, h.named⟩

theorem speaksFor_iff (hn : IssuerNamed V p) (hk : principalKind p ≠ .server)
    (h : ReadAs uuid5 V p ctx) : SpeaksFor uuid5 E V p ctx ↔ KindFits uuid5 E V p := by
  have hservice := h.service
  have huser := h.user
  have hprincipal := h.principal
  unfold SpeaksFor KindFits
  unfold namedPrincipal at hprincipal
  cases hc : issuerClass E V (issText p) with
  | external =>
    dsimp only
    cases hkind : principalKind p with
    | server => exact absurd hkind hk
    | service =>
      rw [hkind] at hservice
      simp [hservice]
    | user =>
      rw [hkind] at hservice huser hprincipal
      simp only [hn.derived_or hc] at huser hprincipal
      simp [hservice, huser, hprincipal]
    | _ =>
      rw [hkind] at hservice huser hprincipal
      simp only at huser hprincipal
      simp only [ne_eq, hservice, huser, hprincipal, reduceCtorEq, not_false_eq_true, true_and,
        false_or]
      exact ⟨fun ⟨he, _⟩ => he.symm, fun he => ⟨he.symm, by rw [he]⟩⟩
  | authority =>
    have hext := @IssuerNamed.not_derived uuid5 V p hn E (by rw [hc]; simp)
    dsimp only
    cases hkind : principalKind p with
    | server => exact absurd hkind hk
    | service =>
      rw [hkind] at hservice
      simp [hservice]
    | user =>
      rw [hkind] at hservice huser hprincipal
      simp only [hext] at huser hprincipal
      simp [hservice, huser, hprincipal]
    | _ =>
      rw [hkind] at hservice huser hprincipal
      simp only at huser hprincipal
      simp [hservice, huser, hprincipal]
  | anchor =>
    dsimp only
    cases hkind : principalKind p with
    | service =>
      rw [hkind] at hservice huser hprincipal
      simp [hservice, huser, hprincipal]
    | _ =>
      rw [hkind] at hservice
      simp [hservice]

end Spec

/-! ### Issuers stay in their tenants -/

section Verified

variable {τ : Type} {J : Jose τ} {W : Web} {now : Time}

theorem verify_issuer (hJ : J.Lawful) {V : Verifier} {expected : Val} {t : τ} {p : Doc}
    (h : (V.verify J W now expected t).1 = some p) :
    J.claims t = some p ∧ ∃ iss, p.find? "iss" = some (.str iss) ∧ (V.byIss.lookup iss).isSome := by
  unfold Verifier.verify at h
  split at h
  · cases h
  · split at h
    · rename_i iss hiss
      split at h
      · rename_i cfg header hcfg hheader
        simp only [Option.bind_eq_some_iff] at h
        obtain ⟨key, -, hdec⟩ := h
        unfold Verifier.decodeWith at hdec
        simp only at hdec
        split_ifs at hdec
        have hget := hJ.issuer hdec
        refine ⟨hJ.claims hdec, iss, ?_, by rw [hcfg]; rfl⟩
        unfold Doc.get at hget
        cases hf : p.find? "iss" with
        | none =>
          rw [hf] at hget
          cases hget
        | some v =>
          rw [hf] at hget
          exact congrArg some hget
      · cases h
    · cases h

end Verified

section Main

variable {τ : Type} {J : Jose τ} {W : Web} {now : Time} {expired : Val → Bool} {uuid5 : String → String}
  {E : TrustEnv} {V : Verifier} {artifactIssuers : List Doc} {t : τ} {p : Doc}

theorem resolveAuth_verified (hJ : J.Lawful) (h : (V.verify J W now .none t).1 = some p) :
    resolveAuth uuid5 E V J W now expired artifactIssuers t =
      if (p.get "exp").truthy && expired (p.get "exp") then .error (.unauthorized "Invalid token")
      else resolvePayload uuid5 E V p := by
  obtain ⟨hclaims, iss, hiss, hknown⟩ := verify_issuer hJ h
  have hget : p.get "iss" = .str iss := by
    unfold Doc.get
    rw [hiss]
    rfl
  have hrefresh : refreshIfUnknownIss E V J now artifactIssuers t = none := by
    unfold refreshIfUnknownIss
    rw [hclaims]
    simp only [hget, hknown, true_or, or_true, if_true]
  unfold resolveAuth verifyToken
  rw [h, hrefresh]
  by_cases he : ((p.get "exp").truthy && expired (p.get "exp")) = true
  · simp [Option.filter, he]
  · rw [Bool.not_eq_true] at he
    simp [Option.filter, he]

theorem issuerNamed_of_verified (hJ : J.Lawful) {V₀ : Verifier}
    (h : ((V₀.rebuild E artifactIssuers).verify J W now .none t).1 = some p) :
    IssuerNamed (V₀.rebuild E artifactIssuers) p := by
  obtain ⟨-, iss, hiss, -⟩ := verify_issuer hJ h
  exact ⟨⟨iss, hiss⟩, trustAll_lookup_none fun d _ => issuerOf_ne_empty d⟩

theorem stays_iff (hJ : J.Lawful) (hn : IssuerNamed V p) (h : (V.verify J W now .none t).1 = some p) :
    StaysInTenant uuid5 E V p (resolveAuth uuid5 E V J W now expired artifactIssuers t) ↔
      ((p.get "exp").truthy = true ∧ expired (p.get "exp") = true) ∨ ¬Passes uuid5 E V p ∨
        KindFits uuid5 E V p := by
  rw [resolveAuth_verified hJ h]
  by_cases he : ((p.get "exp").truthy && expired (p.get "exp")) = true
  · have he' : (p.get "exp").truthy = true ∧ expired (p.get "exp") = true := by simpa using he
    simp [he', StaysInTenant]
  · have he' : ¬((p.get "exp").truthy = true ∧ expired (p.get "exp") = true) := by simpa using he
    rw [if_neg he]
    simp only [he', false_or]
    constructor
    · intro hstays
      by_cases hp : Passes uuid5 E V p
      · obtain ⟨ctx, hctx⟩ := resolvePayload_total hn hp
        obtain ⟨-, hread⟩ := resolvePayload_ok hn hctx
        exact .inr ((speaksFor_iff hn hp.kind hread).mp (hstays ctx hctx))
      · exact .inl hp
    · rintro (hp | hfits) ctx hctx
      · exact absurd (resolvePayload_ok hn hctx).1 hp
      · obtain ⟨hp, hread⟩ := resolvePayload_ok hn hctx
        exact (speaksFor_iff hn hp.kind hread).mpr hfits

theorem before_break {a b a' b' : String} (ha : '\n' ∉ a.toList) (ha' : '\n' ∉ a'.toList)
    (h : a ++ "\n" ++ b = a' ++ "\n" ++ b') : a = a' := by
  have hchars := congrArg (fun s => s.toList.takeWhile (· ≠ '\n')) h
  have htake : ∀ (x y : String), '\n' ∉ x.toList →
      (x ++ "\n" ++ y).toList.takeWhile (· ≠ '\n') = x.toList := by
    intro x y hx
    rw [String.toList_append, String.toList_append, List.append_assoc,
      List.takeWhile_append_of_pos]
    · simp
    · intro c hc
      simp only [ne_eq, decide_not, Bool.not_eq_true', decide_eq_false_iff_not]
      rintro rfl
      exact hx hc
  simp only [htake a b ha, htake a' b' ha'] at hchars
  exact String.toList_inj.mp hchars

theorem tenant_of_derived (hinj : Function.Injective uuid5)
    (hbreak : ∀ iss tenant, V.tenantFor iss = some tenant → '\n' ∉ tenant.toList) {p p' : Doc}
    (hn : IssuerNamed V p) (hn' : IssuerNamed V p') {u : String}
    (h : externalUserId uuid5 V p = some u) (h' : externalUserId uuid5 V p' = some u) :
    V.tenantFor (issText p) = V.tenantFor (issText p') := by
  have hspec : ∀ {p}, IssuerNamed V p → externalUserId uuid5 V p = some u →
      ∃ tenant, V.tenantFor (issText p) = some tenant ∧
        u = uuid5 (tenant ++ "\n" ++ (p.get "sub").pyStr) := by
    intro p hn h
    obtain ⟨iss, hiss⟩ := hn.text
    unfold externalUserId at h
    unfold issText
    rw [hiss] at h ⊢
    simp only [Option.getD_some] at h
    split_ifs at h
    obtain ⟨tenant, ht, hu⟩ := Option.map_eq_some_iff.mp h
    exact ⟨tenant, ht, hu.symm⟩
  obtain ⟨a, ha, hu⟩ := hspec hn h
  obtain ⟨b, hb, hu'⟩ := hspec hn' h'
  rw [ha, hb]
  congr 1
  exact before_break (hbreak _ _ ha) (hbreak _ _ hb) (hinj (hu.symm.trans hu'))

end Main

/-- **Issuers stay in their own tenant** exactly for tokens refused, or of a kind their issuer may speak as. -/
theorem resolveAuth_stays_iff {τ : Type} (J : Jose τ) (hJ : J.Lawful) (W : Web) (now : Time)
    (expired : Val → Bool) (uuid5 : String → String) (E : TrustEnv) (V₀ : Verifier)
    (artifactIssuers : List Doc) (t : τ) (p : Doc)
    (h : ((V₀.rebuild E artifactIssuers).verify J W now .none t).1 = some p) :
    let V := V₀.rebuild E artifactIssuers
    (StaysInTenant uuid5 E V p (resolveAuth uuid5 E V J W now expired artifactIssuers t) ↔
      ((p.get "exp").truthy = true ∧ expired (p.get "exp") = true) ∨ ¬Passes uuid5 E V p ∨
        KindFits uuid5 E V p) ∧
    ∀ (t' : τ) (p' : Doc), (V.verify J W now .none t').1 = some p' →
      Function.Injective uuid5 →
      (∀ iss tenant, V.tenantFor iss = some tenant → '\n' ∉ tenant.toList) →
      issuerClass E V (issText p) = .external → issuerClass E V (issText p') = .external →
      KindFits uuid5 E V p → KindFits uuid5 E V p' →
      ∀ ctx ctx' u, resolveAuth uuid5 E V J W now expired artifactIssuers t = .ok ctx →
        resolveAuth uuid5 E V J W now expired artifactIssuers t' = .ok ctx' →
        ctx.userId = some u → ctx'.userId = some u →
        V.tenantFor (issText p) = V.tenantFor (issText p') := by
  intro V
  have hn : IssuerNamed V p := issuerNamed_of_verified hJ h
  refine ⟨stays_iff hJ hn h, ?_⟩
  intro t' p' h' hinj hbreak hext hext' hfits hfits' ctx ctx' u hctx hctx' hu hu'
  have hn' : IssuerNamed V p' := issuerNamed_of_verified hJ h'
  have hs := (stays_iff hJ hn h).mpr (.inr (.inr hfits)) ctx hctx
  have hs' := (stays_iff hJ hn' h').mpr (.inr (.inr hfits')) ctx' hctx'
  unfold SpeaksFor at hs hs'
  rw [hext] at hs
  rw [hext'] at hs'
  exact tenant_of_derived hinj hbreak hn hn' (hs.2.1.symm.trans hu) (hs'.2.1.symm.trans hu')

/-! ### Two tokens of one external issuer -/

def plainJose : Jose Doc where
  claims t := some t
  header _ := some [("kid", .str "k1")]
  decode t _ iss aud :=
    if (t.get "iss").eqStr iss && (!aud.truthy || pyEq (t.get "aud") aud) then some t else none

theorem plainJose_lawful : plainJose.Lawful where
  claims := by
    intro t k iss aud c h
    unfold plainJose at h ⊢
    simp only at h ⊢
    split_ifs at h
    exact h
  issuer := by
    intro t k iss aud c h
    unfold plainJose at h
    simp only at h
    split_ifs at h with hc
    cases h
    have hiss := (Bool.and_eq_true_iff.mp hc).1
    unfold Val.eqStr at hiss
    cases hv : t.get "iss" with
    | str s =>
      rw [hv] at hiss
      simpa using hiss
    | _ =>
      rw [hv] at hiss
      cases hiss

def closedWeb : Web := ⟨fun _ => none, fun _ => .none⟩

def oneTenant : TrustEnv where
  trustedIssuers := [[("issuer", .str "https://idp.example"), ("audience", .str "app"),
    ("jwks", .dict [(.str "keys", .list [.dict [(.str "kid", .str "k1")]])])]]
  anchors := none
  authorityIssuer := "https://origin.example"

def derive5 (s : String) : String := "uuid5:" ++ s

def tenantUser : Doc :=
  [("iss", .str "https://idp.example"), ("aud", .str "app"), ("sub", .str "alice")]

def claimedDelegation : Doc :=
  [("iss", .str "https://idp.example"), ("aud", .str "app"), ("sub", .str "platform-user"),
   ("principal_type", .str "delegation"), ("act", .dict [(.str "sub", .str "any-server")]),
   ("host_id", .str "any-host")]

theorem claimedDelegation_leaves_tenant :
    ¬ ∀ (V₀ : Verifier) (t p : Doc),
      ((V₀.rebuild oneTenant []).verify plainJose closedWeb 0 .none t).1 = some p →
      StaysInTenant derive5 oneTenant (V₀.rebuild oneTenant []) p
        (resolveAuth derive5 oneTenant (V₀.rebuild oneTenant []) plainJose closedWeb 0 (fun _ => false)
          [] t) := by
  intro h
  have hs := h (Verifier.init oneTenant) claimedDelegation claimedDelegation rfl _ rfl
  have hclass : issuerClass oneTenant ((Verifier.init oneTenant).rebuild oneTenant [])
      (issText claimedDelegation) = .external := by decide +kernel
  unfold SpeaksFor at hs
  rw [hclass] at hs
  have hne : ¬some "platform-user" = externalUserId derive5
      ((Verifier.init oneTenant).rebuild oneTenant []) claimedDelegation := by decide +kernel
  exact hne hs.2.1

theorem resolveAuth_stays_iff_tenantUser :
    (((Verifier.init oneTenant).rebuild oneTenant []).verify plainJose closedWeb 0 .none
      tenantUser).1 = some tenantUser ∧
    StaysInTenant derive5 oneTenant ((Verifier.init oneTenant).rebuild oneTenant []) tenantUser
      (resolveAuth derive5 oneTenant ((Verifier.init oneTenant).rebuild oneTenant []) plainJose
        closedWeb 0 (fun _ => false) [] tenantUser) := by
  have hv : (((Verifier.init oneTenant).rebuild oneTenant []).verify plainJose closedWeb 0 .none
      tenantUser).1 = some tenantUser := rfl
  refine ⟨hv, (resolveAuth_stays_iff plainJose plainJose_lawful closedWeb 0 (fun _ => false) derive5
    oneTenant (Verifier.init oneTenant) [] tenantUser tenantUser hv).1.mpr (.inr (.inr ?_))⟩
  have hclass : issuerClass oneTenant ((Verifier.init oneTenant).rebuild oneTenant [])
      (issText tenantUser) = .external := by decide +kernel
  unfold KindFits
  rw [hclass]
  exact .inl rfl

end Mantle
