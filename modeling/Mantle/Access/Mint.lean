import Mantle.Access.Entity
import Mantle.Py.JsonNormal

/-!
# Mantle.Access.Mint — where new grants come from (`services/grant_service.py`, `grant_key_service.py`)

Every path that mints a grant clamps it to what the issuer holds, so an action nobody holds on a resource or above it
stays out of reach.
-/

namespace Mantle

open Tx

variable {bits requested : Action → Bool} {db' : Store} {user : String}

variable {a : Action} {d : Doc} {db : Store} {id issuer rid x : String} {now : Val → Bool}

/-! ### Roles and flags -/

def rolePresets : List (String × List Action) :=
  [("viewer", [.read]),
   ("contributor", [.create, .read]),
   ("editor", [.create, .read, .update, .delete, .evict]),
   ("collaborator", [.create, .read, .update, .delete, .evict, .invoke, .add, .share]),
   ("admin", [.create, .read, .update, .delete, .evict, .invoke, .add, .share, .admin])]

inductive MintErr
  | access (e : AccessErr)
  | valueError (msg : String)
  | typeError
  | inviteNotFound (msg : String)
  | inviteExhausted (msg : String)
  | inviteIdentityMismatch
deriving DecidableEq, Repr

def permissionsForRole (role : String) : Except MintErr (Action → Bool) :=
  match rolePresets.find? fun p => p.1 = role with
  | some p => .ok fun a => decide (a ∈ p.2)
  | none => .error (.valueError ("Unknown role " ++ reprStr role))

/-- What a caller of the key service asks for: flags by name, or a role. -/
structure FlagSpec where
  flags : List (String × Bool)
  role : String

/-- `_flags_from`: a role goes before the flags, and what is not named is not granted. -/
def flagsFrom (s : FlagSpec) : Except MintErr (Action → Bool) :=
  if s.role ≠ "" then permissionsForRole s.role
  else .ok fun a => (s.flags.lookup a.flag).getD false

/-- The nine columns. -/
def flagDoc (f : Action → Bool) : Doc := Action.all.map fun a => (a.flag, .bool (f a))

/-- `setattr` of the nine columns. -/
def GrantAttrs.setFlags (g : GrantAttrs) (f : Action → Bool) : GrantAttrs := fun k =>
  match Action.all.find? fun a => a.flag = k with
  | some a => .bool (f a)
  | none => g k

def optStr : Option String → Val
  | none => .none
  | some s => .str s

/-- What the entity is named by and when it was made: it confers nothing. -/
structure Particulars where
  id : String
  time : String
  name : Option String
  notes : Option String
  expiresAt : Option String

def Particulars.doc (p : Particulars) : Doc :=
  [("id", .str p.id), ("created_time", .str p.time), ("modified_time", .str p.time),
   ("granted_at", .str p.time), ("name", optStr p.name), ("notes", optStr p.notes),
   ("expires_at", optStr p.expiresAt)]

/-! ### The mints -/

section Mint

variable (now : Val → Bool) (db : Store)

def heldFlags (user rid : String) : Except MintErr (Action → Bool) :=
  match effectiveFlags now db user rid with
  | .ok held => .ok held
  | .error e => .error (.access e)

def clampToIssuer (issuer rid : String) (requested : Action → Bool) : Except MintErr (Action → Bool) :=
  (heldFlags now db issuer rid).map fun held a => requested a && held a

/-- `create_invite`; the target is in lower case. -/
def createInvite (p : Particulars) (user rid role tokenHash : String) (target : Option String)
    (maxClaims : Option ℤ) : Except MintErr GrantAttrs := do
  let preset ← permissionsForRole role
  let granted ← clampToIssuer now db user rid preset
  pure (.build (p.doc ++ flagDoc granted ++
    [("resource_id", .str rid), ("grantee_type", .str granteeInvite), ("grantee_id", .str tokenHash),
     ("granted_by", .str user), ("requires_identity", .bool ((optStr target).truthy)),
     ("target_entity", if (optStr target).truthy then optStr target else .none),
     ("target_entity_type", if (optStr target).truthy then .str "email" else .none),
     ("max_claims", (maxClaims.map Val.int).getD .none)]))

/-- The bits of a key: on a resource they are clamped to its issuer, and a bundle root that narrows nothing
carries all nine. -/
def keyBits (user rid : String) (spec : FlagSpec) : Except MintErr (Action → Bool) :=
  if rid ≠ "" then flagsFrom spec >>= clampToIssuer now db user rid
  else if spec.flags ≠ [] ∨ spec.role ≠ "" then flagsFrom spec
  else .ok fun _ => true

def mintKey (p : Particulars) (user tokenHash : String) (rid : Option String) (spec : FlagSpec) :
    Except MintErr GrantAttrs :=
  (keyBits now db user (rid.getD "") spec).map fun bits =>
    .build (p.doc ++ flagDoc bits ++
      [("resource_id", .str (rid.getD "")), ("grantee_type", .str granteeGrantKey),
       ("grantee_id", .str tokenHash), ("granted_by", .str user)])

def addMember (p : Particulars) (bundle rid issuer : String) (spec : FlagSpec) : Except MintErr GrantAttrs := do
  let bits ← flagsFrom spec >>= clampToIssuer now db issuer rid
  pure (.build (p.doc ++ flagDoc bits ++
    [("resource_id", .str rid), ("grantee_type", .str granteeGrant), ("grantee_id", .str bundle),
     ("granted_by", .str issuer)]))

def normEffect (s : String) : String := if normText s = "" then "allow" else normText s

/-- `clamp_grant_to_issuer`, of an entity with this resource and this effect: a deny is left as it is. -/
def clampGrantToIssuer (g : GrantAttrs) (rid effect issuer : String) : Except MintErr GrantAttrs :=
  let g := (g.set "resource_id" (.str rid)).set "effect" (.str (normEffect effect))
  if normEffect effect = "deny" then .ok g
  else
    (heldFlags now db issuer rid).map fun held => g.setFlags fun a => (g a.flag).truthy && held a

def lookupActiveInvite (tokenHash : String) : Except MintErr GrantAttrs :=
  match (heldDocs now db tokenHash granteeInvite).mapM GrantAttrs.fromDict with
  | .error e => .error (.access e)
  | .ok [] => .error (.inviteNotFound "Invite not found or expired")
  | .ok (invite :: _) =>
    if !(invite "grantee_type").eqStr granteeInvite then .error (.inviteNotFound "Not an invite grant")
    else if !(invite "state").eqStr "active" then .error (.inviteExhausted "Invite is no longer active")
    else .ok invite

end Mint

def atLimit (invite : GrantAttrs) : Except MintErr Bool :=
  if (invite "max_claims").isNone then .ok false
  else
    match (invite "claims_count").asInt, (invite "max_claims").asInt with
    | some c, some m => .ok (decide (m ≤ c))
    | _, _ => .error .typeError

/-- `name or target_entity`. -/
def claimedName (invite : GrantAttrs) : Val := (invite "name").orElse (invite "target_entity")

def claimedGrant (invite : GrantAttrs) (id user time : String) : GrantAttrs :=
  .build ([("id", .str id), ("created_time", .str time), ("modified_time", .str time),
    ("granted_at", .str time), ("name", claimedName invite),
    ("notes", .str ("Claimed from invite " ++ (invite "id").pyStr)), ("expires_at", invite "expires_at")] ++
    (Action.all.map fun a => (a.flag, invite a.flag)) ++
    [("resource_id", invite "resource_id"), ("grantee_type", .str "user"), ("grantee_id", .str user),
     ("granted_by", invite "granted_by"), ("requires_identity", .bool true)])

/-- The invite as a claim writes it back: one claim more, and used up if it was for one. -/
def countedInvite (invite : GrantAttrs) (user time : String) : Except MintErr GrantAttrs :=
  match (invite "claims_count").asInt with
  | none => .error .typeError
  | some c =>
    let counted := (invite.set "claims_count" (.int (c + 1))).set "modified_time" (.str time)
    .ok <|
      if (invite "max_claims").eqInt 1 then
        ((counted.set "state" (.str "revoked")).set "revoked_at" (.str time)).set "revoked_by" (.str user)
      else counted

/-- What `claim_invite` checks of the invite it found; `matched` is `_verify_target_match`. -/
def checkClaim (matched : GrantAttrs → Bool) (invite : GrantAttrs) : Except MintErr Unit :=
  if (invite "target_entity").truthy && (invite "target_entity_type").truthy && !matched invite then
    .error .inviteIdentityMismatch
  else
    match atLimit invite with
    | .error e => .error e
    | .ok true => .error (.inviteExhausted "Invite has reached its claim limit")
    | .ok false => .ok ()

/-! ### Histories of mints -/

inductive MintOp
  | createInvite (p : Particulars) (user rid role tokenHash : String) (target : Option String)
      (maxClaims : Option ℤ)
  | claimInvite (tokenHash id user time : String) (matched : GrantAttrs → Bool)
  | mint (p : Particulars) (user tokenHash : String) (rid : Option String) (spec : FlagSpec)
  | addMember (p : Particulars) (bundle rid issuer : String) (spec : FlagSpec)
  /-- The direct path: the grant asked for, narrowed to its issuer and stored. -/
  | clamped (g : GrantAttrs) (rid effect issuer : String)

namespace MintOp

/-- What the operation stores, in its order: the grant it mints, and for a claim the invite. -/
def stores (now : Val → Bool) (db : Store) : MintOp → Except MintErr (List GrantAttrs)
  | createInvite p user rid role tokenHash target maxClaims =>
    (Mantle.createInvite now db p user rid role tokenHash target maxClaims).map fun g => [g]
  | claimInvite tokenHash id user time matched => do
    let invite ← lookupActiveInvite now db tokenHash
    checkClaim matched invite
    pure (claimedGrant invite id user time :: (countedInvite invite user time).toOption.toList)
  | mint p user tokenHash rid spec => (mintKey now db p user tokenHash rid spec).map fun g => [g]
  | addMember p bundle rid issuer spec => (Mantle.addMember now db p bundle rid issuer spec).map fun g => [g]
  | clamped g rid effect issuer => (clampGrantToIssuer now db g rid effect issuer).map fun g => [g]

def after (now : Val → Bool) (op : MintOp) (n : Node) : Node :=
  match op.stores now n.db with
  | .error _ => n
  | .ok gs =>
    match gs.foldlM (fun _ g => discard (putGrant g)) ⟨⟩ n with
    | .ok _ n' => n'
    | .error _ n' => n'

end MintOp

/-- Operations in their order, each at its moment. -/
def runMints (n : Node) (steps : List ((Val → Bool) × MintOp)) : Node :=
  steps.foldl (fun n s => s.2.after s.1 n) n

/-- Time goes on: what lies ahead at a later moment lay ahead at an earlier one. -/
def TimeOrdered (now : Val → Bool) (steps : List ((Val → Bool) × MintOp)) (now' : Val → Bool) : Prop :=
  (now :: steps.map Prod.fst ++ [now']).IsChain fun earlier later => ∀ v, later v = true → earlier v = true

/-! ### What the ledger lets anybody do -/

/-- A bit of an invite, as a claim copies it: a null is dropped on the way to the store, and what is absent is read by
its default. -/
def inviteBit (d : Doc) (a : Action) : Bool :=
  if (d.get a.flag).isNone then decide (a = .read) else (d.get a.flag).truthy

/-- The document allows the action on the resource, or is an invite that carries it. -/
def DocOpens (a : Action) (x : String) (d : Doc) : Prop :=
  ∃ g, Grant.ofDoc d = .ok g ∧ g.resource = some x ∧
    (g.mask.allows a = true ∨ (d.get "grantee_type").eqStr granteeInvite = true ∧ inviteBit d a = true)

def LedgerOpens (now : Val → Bool) (db : Store) (a : Action) (x : String) : Prop :=
  ∃ id d, grantAt db id = some d ∧ inForce now d = true ∧ DocOpens a x d

/-- The entity would, once it is stored. -/
def AttrsOpen (a : Action) (x : String) (g : GrantAttrs) : Prop :=
  g "resource_id" = .str x ∧ x ≠ "" ∧
    (if (g a.flag).isNone then a = .read else (g a.flag).truthy = true) ∧
    (g "effect" = .str "deny" → g "grantee_type" = .str granteeInvite)

theorem norm_eq_str {v : Val} {s : String} (h : v.norm = .str s) : v = .str s := by
  cases v <;> simp_all [Val.norm]

variable {g : GrantAttrs}

theorem DocOpens.attrs (hd : ∀ k ∈ grantFields, k ≠ "created_time" → d.find? k = (g.toDoc.find? k).map Val.norm)
    (h : DocOpens a x d) : AttrsOpen a x g := by
  have hread : ∀ k ∈ grantFields, k ≠ "created_time" → d.find? k = if (g k).isNone then none else some (g k).norm := by
    intro k hk hne
    rw [hd k hk hne, GrantAttrs.toDoc_find? g hk]
    split_ifs <;> rfl
  obtain ⟨gr, hgr, hres, hopen⟩ := h
  have hflag : a.flag ≠ "created_time" := by cases a <;> decide
  have hbit := hread a.flag (flag_mem_grantFields a) hflag
  have hinv : inviteBit d a = true → if (g a.flag).isNone then a = .read else (g a.flag).truthy = true := by
    intro hb
    unfold inviteBit Doc.get at hb
    rw [hbit] at hb
    split_ifs at hb ⊢ with h1 h2 h3
    · simpa using hb
    · simp [Val.isNone] at h2
    · cases hv : g a.flag <;> simp_all [Val.norm, Val.isNone]
    · rwa [Option.getD_some, Val.truthy_norm] at hb
  have hbits : d.bit a = true → if (g a.flag).isNone then a = .read else (g a.flag).truthy = true := by
    intro hb
    unfold Doc.bit at hb
    rw [hbit] at hb
    split_ifs at hb ⊢ with h1
    · simpa [Val.truthy] using hb
    · rwa [Option.getD_some, Val.truthy_norm] at hb
  have hresource := hread "resource_id" (by decide) (by decide)
  have heffect := hread "effect" (by decide) (by decide)
  have hkind := hread "grantee_type" (by decide) (by decide)
  rw [grant_ofDoc_eq] at hgr
  obtain ⟨effect, he, hgr⟩ := bind_ok hgr
  cases hgr
  have hx : (d.find? "resource_id").getD (.str "") = .str x ∧ x ≠ "" := by
    unfold Grant.resource at hres
    dsimp only at hres
    split at hres
    · rename_i s hs
      split_ifs at hres with hne
      cases hres
      exact ⟨hs, hne⟩
    · cases hres
  refine ⟨?_, hx.2, ?_, ?_⟩
  · have := hx.1
    rw [hresource] at this
    split_ifs at this with hn
    · exact absurd (by simpa using this.symm) hx.2
    · exact norm_eq_str this
  · rcases hopen with hallow | ⟨-, hb⟩
    · simp only [Mask.allows, Grant.mask, Bool.and_eq_true] at hallow
      exact hbits hallow.2
    · exact hinv hb
  · intro hdeny
    rcases hopen with hallow | ⟨hk, -⟩
    · -- a stored deny is no allow
      rw [heffect, hdeny] at he
      simp only [Mask.allows, Grant.mask, Bool.and_eq_true, Grant.isAllow] at hallow
      have : effect = "deny" := by
        have hd : effectOf (.str "deny") = .ok "deny" := by decide +kernel
        simp only [Val.isNone, Bool.false_eq_true, if_false, Option.getD_some, Val.norm] at he
        rw [hd] at he
        exact (Except.ok.inj he).symm
      rw [this] at hallow
      simp at hallow
    · rw [eqStr_iff] at hk
      unfold Doc.get at hk
      rw [hkind] at hk
      split_ifs at hk with hn
      · cases hk
      · exact norm_eq_str hk

/-! ### What an operation may store -/

theorem ledgerOpens_of_held {held : Action → Bool} (h : heldFlags now db user rid = .ok held) (ha : held a = true)
    (hrid : rid ≠ "") :
    LedgerOpens now db a rid := by
  unfold heldFlags at h
  cases he : effectiveFlags now db user rid with
  | error e =>
    rw [he] at h
    cases h
  | ok held' =>
    rw [he] at h
    cases h
    obtain ⟨-, ⟨d, hd, g, hg, -, hallow, hflag⟩, -⟩ := (effectiveFlags_iff he a).mp ha
    obtain ⟨-, ⟨id, hid, -⟩, hforce, hres⟩ := mem_resourceDocs.mp hd
    refine ⟨id, d, hid, hforce, g.toGrant, (GrantEntity.ofDoc_ok hg).1, ?_, .inl ?_⟩
    · have hr : g.resourceId = .str rid := by
        have hofDoc := (GrantEntity.ofDoc_ok hg).1
        rw [grant_ofDoc_eq] at hofDoc
        obtain ⟨effect, hev, hofDoc⟩ := bind_ok hofDoc
        have := congrArg Grant.resourceId (Except.ok.inj hofDoc)
        rw [← this]
        exact find_of_eqStr hres
      simp [Grant.resource, hr, hrid]
    · simp [Mask.allows, Grant.mask, hallow, hflag]

theorem find?_flagDoc (f : Action → Bool) (tail : Doc) (a : Action) :
    Doc.find? (flagDoc f ++ tail) a.flag = some (.bool (f a)) := by
  cases a <;> rfl

theorem build_flag (p : Particulars) (f : Action → Bool) (rest : Doc) (a : Action) :
    GrantAttrs.build (p.doc ++ flagDoc f ++ rest) a.flag = .bool (f a) := by
  unfold GrantAttrs.build
  have hskip : Doc.find? (p.doc ++ flagDoc f ++ rest) a.flag = Doc.find? (flagDoc f ++ rest) a.flag := by
    cases a <;> rfl
  rw [hskip, find?_flagDoc]
  rfl

theorem clampToIssuer_ok (h : clampToIssuer now db issuer rid requested = .ok bits) :
    ∃ held,
      heldFlags now db issuer rid = .ok held ∧ ∀ b, bits b = true → held b = true := by
  unfold clampToIssuer at h
  cases hh : heldFlags now db issuer rid with
  | error e =>
    rw [hh] at h
    cases h
  | ok held =>
    rw [hh] at h
    cases h
    refine ⟨held, rfl, ?_⟩
    intro b hb
    exact (Bool.and_eq_true_iff.mp hb).2

/-- The issuer and the resource an operation clamps by.  A bundle root names no resource, and a deny is not narrowed. -/
def MintOp.clamp : MintOp → Option (String × String)
  | createInvite _ user rid _ _ _ _ => some (user, rid)
  | claimInvite _ _ _ _ _ => none
  | mint _ user _ rid _ => if rid.getD "" ≠ "" then some (user, rid.getD "") else none
  | addMember _ _ rid issuer _ => some (issuer, rid)
  | clamped _ rid effect issuer => if normEffect effect = "deny" then none else some (issuer, rid)

/-- The grant is on that resource and carries no bit its issuer does not hold there. -/
structure WithinIssuer (now : Val → Bool) (db : Store) (issuer rid : String) (g : GrantAttrs) : Prop where
  resource : g "resource_id" = .str rid
  bits : ∃ held, heldFlags now db issuer rid = .ok held ∧
    ∀ b : Action, ∃ v, g b.flag = .bool v ∧ (v = true → held b = true)

theorem withinIssuer_build (h : clampToIssuer now db issuer rid requested = .ok bits) (p : Particulars) (rest : Doc)
    (hrid : GrantAttrs.build (p.doc ++ flagDoc bits ++ rest) "resource_id" = .str rid) :
    WithinIssuer now db issuer rid (.build (p.doc ++ flagDoc bits ++ rest)) := by
  obtain ⟨held, hheld, hbits⟩ := clampToIssuer_ok h
  exact ⟨hrid, held, hheld, fun b => ⟨bits b, build_flag p bits rest b, hbits b⟩⟩

theorem setFlags_flag (g : GrantAttrs) (f : Action → Bool) (a : Action) : g.setFlags f a.flag = .bool (f a) := by
  cases a <;> rfl

variable {gs : List GrantAttrs}

/-- **The clamp**: what an operation that clamps stores is within what its issuer holds. -/
theorem MintOp.stores_clamp {op : MintOp} (h : op.stores now db = .ok gs) (hc : op.clamp = some (issuer, rid)) :
    ∀ g ∈ gs, WithinIssuer now db issuer rid g := by
  cases op with
  | createInvite p user rid' role tokenHash target maxClaims =>
    cases hc
    obtain ⟨g, hg, rfl⟩ := map_ok h
    obtain ⟨preset, -, hg⟩ := bind_ok hg
    obtain ⟨granted, hgranted, hg⟩ := bind_ok hg
    rw [← Except.ok.inj hg, List.forall_mem_singleton]
    exact withinIssuer_build hgranted p _ rfl
  | claimInvite tokenHash id user time matched => cases hc
  | mint p user tokenHash rid' spec =>
    simp only [MintOp.clamp] at hc
    split_ifs at hc with hrid
    cases hc
    obtain ⟨g, hg, rfl⟩ := map_ok h
    obtain ⟨bits, hbits, rfl⟩ := map_ok hg
    unfold keyBits at hbits
    rw [if_pos hrid] at hbits
    obtain ⟨requested, -, hbits⟩ := bind_ok hbits
    rw [List.forall_mem_singleton]
    exact withinIssuer_build hbits p _ rfl
  | addMember p bundle rid' issuer' spec =>
    cases hc
    obtain ⟨g, hg, rfl⟩ := map_ok h
    obtain ⟨bits, hbits, hg⟩ := bind_ok hg
    obtain ⟨requested, -, hbits⟩ := bind_ok hbits
    rw [← Except.ok.inj hg, List.forall_mem_singleton]
    exact withinIssuer_build hbits p _ rfl
  | clamped g rid' effect issuer' =>
    simp only [MintOp.clamp] at hc
    split_ifs at hc with hdeny
    cases hc
    obtain ⟨g', hg', rfl⟩ := map_ok h
    unfold clampGrantToIssuer at hg'
    rw [if_neg hdeny] at hg'
    obtain ⟨held, hheld, rfl⟩ := map_ok hg'
    rw [List.forall_mem_singleton]
    refine ⟨rfl, held, hheld, fun b => ⟨_, setFlags_flag _ _ b, ?_⟩⟩
    intro hb
    exact (Bool.and_eq_true_iff.mp hb).2

def MintOp.NoDenyInvite : MintOp → Prop
  | clamped g _ effect _ => normEffect effect = "deny" → g "grantee_type" ≠ .str granteeInvite
  | _ => True

theorem WithinIssuer.shut (h : WithinIssuer now db issuer rid g) (hx : AttrsOpen a x g) :
    LedgerOpens now db a x := by
  obtain ⟨held, hheld, hbits⟩ := h.bits
  obtain ⟨v, hv, hle⟩ := hbits a
  obtain ⟨hres, hne, hflag, -⟩ := hx
  rw [h.resource] at hres
  cases hres
  rw [hv] at hflag
  refine ledgerOpens_of_held hheld (hle ?_) hne
  simpa [Val.isNone, Val.truthy] using hflag

variable {invite : GrantAttrs}

theorem inviteFields {time : String}
    (hg : g ∈ claimedGrant invite id user time :: (countedInvite invite user time).toOption.toList) :
    g "resource_id" = invite "resource_id" ∧ ∀ a : Action, g a.flag = invite a.flag := by
  rcases List.mem_cons.mp hg with rfl | hg
  · exact ⟨rfl, fun a => by cases a <;> rfl⟩
  · unfold countedInvite at hg
    cases hc : (invite "claims_count").asInt with
    | none =>
      rw [hc] at hg
      simp [Except.toOption] at hg
    | some c =>
      rw [hc] at hg
      simp only [Except.toOption, Option.toList_some, List.mem_singleton] at hg
      rw [hg]
      split_ifs
      · exact ⟨rfl, fun a => by cases a <;> rfl⟩
      · exact ⟨rfl, fun a => by cases a <;> rfl⟩

theorem lookupActiveInvite_ok {tokenHash : String} (h : lookupActiveInvite now db tokenHash = .ok invite) :
    ∃ d ∈ heldDocs now db tokenHash granteeInvite, GrantAttrs.fromDict d = .ok invite := by
  unfold lookupActiveInvite at h
  split at h
  · cases h
  · cases h
  · rename_i inv rest hmap
    split_ifs at h
    cases h
    exact (mapM_ok hmap invite).mp (by simp)

theorem grant_of_fromDict (h : GrantAttrs.fromDict d = .ok g) :
    ∃ gr, Grant.ofDoc d = .ok gr ∧ gr.resourceId = g "resource_id" := by
  obtain ⟨effect, he, rfl⟩ := map_ok h
  rw [grant_ofDoc_eq, he]
  exact ⟨_, rfl, rfl⟩

theorem fromDict_attr (h : GrantAttrs.fromDict d = .ok g) {k : String} (hk : k ≠ "effect") :
    g k = (d.find? k).getD (grantDefault k) := by
  obtain ⟨effect, -, rfl⟩ := map_ok h
  simp [hk]

theorem inviteBit_of_attr (h : GrantAttrs.fromDict d = .ok g)
    (hb : if (g a.flag).isNone then a = .read else (g a.flag).truthy = true) : inviteBit d a = true := by
  have hne : a.flag ≠ "effect" := by cases a <;> decide
  have hdef : grantDefault a.flag = .bool (a = .read) := by cases a <;> rfl
  rw [fromDict_attr h hne, hdef] at hb
  unfold inviteBit Doc.get
  cases hf : d.find? a.flag with
  | none =>
    rw [hf] at hb
    simpa [Val.isNone, Val.truthy] using hb
  | some v =>
    rw [hf] at hb
    simp only [Option.getD_some] at hb ⊢
    split_ifs at hb ⊢ with hn
    · simpa using hb
    · exact hb

/-- **One operation**: what it stores opens nothing the ledger did not. -/
theorem MintOp.stores_shut {op : MintOp} (h : op.stores now db = .ok gs) (hop : op.NoDenyInvite) :
    ∀ g ∈ gs, AttrsOpen a x g → LedgerOpens now db a x := by
  intro g hg hx
  cases hc : op.clamp with
  | some c => exact (op.stores_clamp h hc g hg).shut hx
  | none =>
    cases op with
    | createInvite p user rid role tokenHash target maxClaims => cases hc
    | addMember p bundle rid issuer spec => cases hc
    | mint p user tokenHash rid spec =>
      -- a bundle root names no resource
      simp only [MintOp.clamp] at hc
      split_ifs at hc with hrid
      obtain ⟨g', hg', rfl⟩ := map_ok h
      obtain ⟨bits, -, rfl⟩ := map_ok hg'
      rw [List.mem_singleton.mp hg] at hx
      have hres : (Val.str (rid.getD "")) = .str x := hx.1
      rw [not_not.mp hrid] at hres
      cases hres
      exact absurd rfl hx.2.1
    | clamped g' rid effect issuer =>
      simp only [MintOp.clamp] at hc
      split_ifs at hc with hdeny
      obtain ⟨g'', hg'', rfl⟩ := map_ok h
      unfold clampGrantToIssuer at hg''
      rw [if_pos hdeny] at hg''
      rw [List.mem_singleton.mp hg, ← Except.ok.inj hg''] at hx
      refine absurd (hx.2.2.2 ?_) (hop hdeny)
      show Val.str (normEffect effect) = .str "deny"
      rw [hdeny]
    | claimInvite tokenHash id user time matched =>
      obtain ⟨invite, hinvite, h⟩ := bind_ok h
      obtain ⟨-, -, h⟩ := bind_ok h
      rw [← Except.ok.inj h] at hg
      obtain ⟨d, hd, hread⟩ := lookupActiveInvite_ok hinvite
      obtain ⟨-, ⟨id', hid', -⟩, hforce, hkind⟩ := mem_heldDocs.mp hd
      obtain ⟨hres, hbits⟩ := inviteFields hg
      obtain ⟨gr, hgr, hrid⟩ := grant_of_fromDict hread
      obtain ⟨hxres, hxne, hxbit, -⟩ := hx
      refine ⟨id', d, hid', hforce, gr, hgr, ?_, .inr ⟨hkind, ?_⟩⟩
      · rw [hres] at hxres
        simp [Grant.resource, hrid, hxres, hxne]
      · rw [hbits] at hxbit
        exact inviteBit_of_attr hread hxbit

/-! ### Whole histories -/

theorem GrantStored.opens (h : GrantStored g id db db') (ho : LedgerOpens now db' a x) :
    LedgerOpens now db a x ∨ AttrsOpen a x g := by
  obtain ⟨id', d, hd, hforce, hopen⟩ := ho
  by_cases hid : id' = id
  · subst hid
    obtain ⟨d', hd', hfields⟩ := h.row
    rw [hd] at hd'
    cases hd'
    exact .inr (hopen.attrs hfields)
  · refine .inl ⟨id', d, ?_, hforce, hopen⟩
    unfold grantAt at hd ⊢
    rwa [h.others id' hid] at hd

theorem LedgerOpens.sameTables (h : SameTables db db') (ho : LedgerOpens now db' a x) :
    LedgerOpens now db a x := by
  obtain ⟨id, d, hd, hrest⟩ := ho
  refine ⟨id, d, ?_, hrest⟩
  unfold grantAt at hd ⊢
  rwa [h.vertex] at hd

theorem LedgerOpens.earlier {now' : Val → Bool} (h : ∀ v, now' v = true → now v = true)
    (ho : LedgerOpens now' db a x) : LedgerOpens now db a x := by
  obtain ⟨id, d, hd, hforce, hopen⟩ := ho
  refine ⟨id, d, hd, ?_, hopen⟩
  simp only [inForce, unexpired, Bool.and_eq_true, Bool.or_eq_true] at hforce ⊢
  exact ⟨hforce.1, hforce.2.imp_right (h _)⟩

theorem MintOp.after_shut {now : Val → Bool} {op : MintOp} (hop : op.NoDenyInvite) {n : Node}
    (hi : n.inTxn = false) (a : Action) :
    (op.after now n).inTxn = false ∧ (op.after now n).db.edge = n.db.edge ∧
      ∀ x, LedgerOpens now (op.after now n).db a x → LedgerOpens now n.db a x := by
  unfold MintOp.after
  cases hs : op.stores now n.db with
  | error e => exact ⟨hi, rfl, fun _ h => h⟩
  | ok gs =>
    have hshut : ∀ x, ∀ g ∈ gs, AttrsOpen a x g → LedgerOpens now n.db a x :=
      fun x => op.stores_shut hs hop
    have hrun := runs_foldlM (ε := PyErr) (f := fun (_ : PUnit) g => discard (putGrant g))
      (E := fun n' => n'.inTxn = false ∧ n'.db.edge = n.db.edge ∧
        ∀ x, LedgerOpens now n'.db a x → LedgerOpens now n.db a x)
      (fun n' : Node => n'.inTxn = false ∧ n'.db.edge = n.db.edge ∧
        ∀ x, LedgerOpens now n'.db a x → LedgerOpens now n.db a x) gs ⟨⟩ n ⟨hi, rfl, fun _ h => h⟩ ?_
    · dsimp only
      split
      · rename_i hm
        exact hrun.ok hm
      · rename_i hm
        exact hrun.error hm
    · rintro g hg - m ⟨hm, hedge, hopen⟩
      refine runs_bind ((putGrant_tables g hm).mono ?_ ?_)
      · rintro _ m' ⟨⟨id, -, hst⟩, hm'⟩
        refine runs_pure ⟨hm', hst.edge.trans hedge, ?_⟩
        intro x hx
        exact (hst.opens hx).elim (hopen x) (hshut x g hg)
      · rintro m' ⟨hsame, hm'⟩
        exact ⟨hm', hsame.edge.trans hedge, fun x hx => hopen x (hx.sameTables hsame)⟩

theorem runMints_shut (a : Action) : ∀ (steps : List ((Val → Bool) × MintOp)) {now now' : Val → Bool} {n : Node},
    TimeOrdered now steps now' → (∀ s ∈ steps, s.2.NoDenyInvite) → n.inTxn = false →
    (runMints n steps).db.edge = n.db.edge ∧
      ∀ x, LedgerOpens now' (runMints n steps).db a x → LedgerOpens now n.db a x
  | [], now, now', n, ho, _, _ => by
    refine ⟨rfl, fun x hx => hx.earlier ?_⟩
    simpa [TimeOrdered] using ho
  | s :: steps, now, now', n, ho, hops, hi => by
    have ho' : (∀ v, s.1 v = true → now v = true) ∧ TimeOrdered s.1 steps now' := by
      simpa [TimeOrdered, List.isChain_cons_cons] using ho
    obtain ⟨hm, hedge, hopen⟩ := @MintOp.after_shut s.1 s.2 (hops s (by simp)) n hi a
    obtain ⟨hedge', hopen'⟩ := runMints_shut a steps ho'.2 (fun s' hs' => hops s' (by simp [hs'])) hm
    exact ⟨hedge'.trans hedge, fun x hx => (hopen x (hopen' x hx)).earlier ho'.1⟩

/-- **Minting is closed under delegation.**  What nothing gives, no history of mints gives; and a clamp holds. -/
theorem minting_closed (n : Node) (hi : n.inTxn = false) (a : Action) (r : String)
    (steps : List ((Val → Bool) × MintOp)) (now now' : Val → Bool) (ho : TimeOrdered now steps now')
    (hops : ∀ s ∈ steps, s.2.NoDenyInvite) (h : ∀ x, Below n.db a x r → ¬LedgerOpens now n.db a x) :
    (∀ x, Below (runMints n steps).db a x r → ¬LedgerOpens now' (runMints n steps).db a x) ∧
    ∀ k, ∀ s, steps[k]? = some s → ∀ gs issuer rid,
      s.2.stores s.1 (runMints n (steps.take k)).db = .ok gs → s.2.clamp = some (issuer, rid) →
      ∀ g ∈ gs, WithinIssuer s.1 (runMints n (steps.take k)).db issuer rid g := by
  obtain ⟨hedge, hopen⟩ := runMints_shut a steps ho hops hi
  refine ⟨?_, fun k s _ gs issuer rid hs hc => s.2.stores_clamp hs hc⟩
  intro x hx hopens
  refine h x ?_ (hopen x hopens)
  unfold Below OriginStep at hx ⊢
  rwa [hedge] at hx

/-- Some active grant allows the action, or some active invite carries it, wherever. -/
def ledgerCarries (now : Val → Bool) (db : Store) (a : Action) : Bool :=
  db.vertex.toPairs.any fun e => e.2.isGrant && inForce now e.2.doc.val &&
    match Grant.ofDoc e.2.doc.val with
    | .ok g => g.mask.allows a || (e.2.doc.val.get "grantee_type").eqStr granteeInvite && inviteBit e.2.doc.val a
    | .error _ => false

theorem LedgerOpens.carries (h : LedgerOpens now db a x) : ledgerCarries now db a = true := by
  obtain ⟨id, d, hd, hforce, g, hg, -, hopen⟩ := h
  obtain ⟨row, hrow, hite⟩ := Option.bind_eq_some_iff.mp hd
  split_ifs at hite with hgrant
  cases hite
  unfold ledgerCarries
  rw [List.any_eq_true]
  refine ⟨(id, row), Table.mem_toPairs.mpr hrow, ?_⟩
  simp only [hgrant, hforce, hg, Bool.and_true, Bool.true_and, Bool.or_eq_true, Bool.and_eq_true]
  exact hopen

def readerNode : Node :=
  hereNode.run [.putArtifact (grantDoc "g" "u" "r" "allow") true false]

def editorInvited : List ((Val → Bool) × MintOp) :=
  [(fun _ => true, .createInvite ⟨"i", "t1", none, none, none⟩ "u" "r" "editor" "hash" none (some 1)),
   (fun _ => true, .claimInvite "hash" "c" "v" "t2" fun _ => true),
   (fun _ => true, .mint ⟨"k", "t3", none, none, none⟩ "u" "key" (some "r") ⟨[], "admin"⟩)]

theorem minting_closed_editor :
    ¬LedgerOpens (fun _ => true) (runMints readerNode editorInvited).db .update "r" := by
  refine (minting_closed readerNode (by decide +kernel) .update "r" editorInvited (fun _ => true)
    (fun _ => true) (by simp [TimeOrdered, editorInvited]) ?_ ?_).1 "r" .refl
  · intro s hs
    simp only [editorInvited, List.mem_cons, List.not_mem_nil, or_false] at hs
    rcases hs with rfl | rfl | rfl <;> trivial
  · intro x _ h
    have hno : ledgerCarries (fun _ => true) readerNode.db .update = false := by decide +kernel
    rw [h.carries] at hno
    cases hno

def LedgerAllows (now : Val → Bool) (db : Store) (a : Action) (x : String) : Prop :=
  ∃ id d g, grantAt db id = some d ∧ inForce now d = true ∧ Grant.ofDoc d = .ok g ∧ g.resource = some x ∧
    g.mask.allows a = true

def denyInviteNode : Node :=
  hereNode.run
    [.putArtifact ([("id", .str "i"), ("content_type", .str grantContentType), ("grantee_type", .str "invite"),
      ("grantee_id", .str "hash"), ("resource_id", .str "r"), ("state", .str "active"), ("effect", .str "deny"),
      ("can_update", .bool true)]) true false]

def claimedAllows (db : Store) (id : String) (a : Action) (x : String) : Bool :=
  match grantAt db id with
  | none => false
  | some d =>
    match Grant.ofDoc d with
    | .error _ => false
    | .ok g => inForce (fun _ => true) d && decide (g.resource = some x) && g.mask.allows a

theorem ledgerAllows_of_claimed {db : Store} {id : String} {a : Action} {x : String}
    (h : claimedAllows db id a x = true) : LedgerAllows (fun _ => true) db a x := by
  unfold claimedAllows at h
  split at h
  · cases h
  · rename_i d hd
    split at h
    · cases h
    · rename_i g hg
      simp only [Bool.and_eq_true, decide_eq_true_eq] at h
      exact ⟨id, d, g, hd, h.1.1, hg, h.1.2, h.2⟩

theorem bundleRoot_carries :
    (¬ ∀ (n : Node) (now : Val → Bool) (op : MintOp) (g : GrantAttrs) (gs : List GrantAttrs)
      (issuer rid : String),
      op.stores now n.db = .ok (g :: gs) → g "granted_by" = .str issuer → g "resource_id" = .str rid →
      ∀ b : Action, (g b.flag).truthy = true → ∃ held, effectiveFlags now n.db issuer rid = .ok held ∧
        held b = true) ∧
    ¬ ∀ (n : Node) (a : Action) (r : String) (steps : List ((Val → Bool) × MintOp)) (now now' : Val → Bool),
      n.inTxn = false → TimeOrdered now steps now' → (∀ x, Below n.db a x r → ¬LedgerAllows now n.db a x) →
      ∀ x, Below (runMints n steps).db a x r → ¬LedgerAllows now' (runMints n steps).db a x := by
  constructor
  · intro h
    obtain ⟨held, hheld, hb⟩ := h (Node.fresh ⟨"here", by decide⟩ 4096) (fun _ => true)
      (.mint ⟨"k", "t", none, none, none⟩ "u" "key" none ⟨[], ""⟩) _ [] "u" "" rfl rfl rfl .admin rfl
    have hnone : effectiveFlags (fun _ => true) (Node.fresh ⟨"here", by decide⟩ 4096).db "u" "" =
        .ok fun _ => false := rfl
    rw [hnone] at hheld
    cases hheld
    cases hb
  · intro h
    refine h denyInviteNode .update "r" [(fun _ => true, .claimInvite "hash" "c" "v" "t" fun _ => true)]
      (fun _ => true) (fun _ => true) (by decide +kernel) (by simp [TimeOrdered]) ?_ "r" .refl
      (@ledgerAllows_of_claimed _ "c" _ _ (by decide +kernel))
    rintro x - ⟨id, d, g, hd, -, hg, -, hallow⟩
    obtain ⟨row, hrow, hite⟩ := Option.bind_eq_some_iff.mp hd
    split_ifs at hite
    cases hite
    have hall : denyInviteNode.db.vertex.toPairs.all (fun e =>
        match Grant.ofDoc e.2.doc.val with
        | .ok g => !g.mask.allows .update
        | .error _ => true) = true := by decide +kernel
    have := List.all_eq_true.mp hall (id, row) (Table.mem_toPairs.mpr hrow)
    simp [hg, hallow] at this

end Mantle
