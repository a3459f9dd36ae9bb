import Mantle.Access.Claim

/-!
# Mantle.Access.Asked — an invite and the request it was made for (`routers/grants_router.py`)

`create_grant_endpoint` turns an invite request into a role and an address, and `claim_invite` reads both off the
stored invite.
-/

namespace Mantle

open Tx

variable {db : Store} {g' invite : GrantAttrs} {made : List GrantAttrs} {user : String}

/-! ### The request -/

/-- A `CreateGrantRequest` of an invite; the request has no bit for `evict`. -/
structure InviteRequest where
  resourceId : String
  bits : Action → Bool
  noEvict : bits .evict = false
  targetEntity : Option String
  targetEntityType : Option String
  maxClaims : Option ℤ
  role : Option String

/-- `s.lower()`, of any text. -/
structure Lowering where
  lower : String → String
  lower_lower : ∀ s, lower (lower s) = lower s
  lower_eq_empty : ∀ s, lower s = "" ↔ s = ""

section Endpoint

variable (L : Lowering) (now : Val → Bool) (db : Store)

def roleFromBits (body : InviteRequest) : Option String :=
  (rolePresets.find? fun p => Action.all.all fun a => body.bits a == decide (a ∈ p.2)).map Prod.fst

def InviteRequest.roleName (body : InviteRequest) : String :=
  (body.role.filter (· ≠ "")).getD ((roleFromBits body).getD "viewer")

/-- `user_has_any_action`: no deny carries one of the actions, and an allow does. -/
def userHasAnyAction (user rid : String) (actions : List Action) : Except AccessErr Bool :=
  if user = "" then .ok false
  else
    (getActiveGrantsForPrincipalResource now db user rid).map fun grants =>
      !(grants.any fun g => actions.any fun a => g.mask.isDeny && g.mask.carries a) &&
        grants.any fun g => actions.any fun a => g.mask.allows a

def InviteRequest.targetType (body : InviteRequest) : String := L.lower (body.targetEntityType.getD "")

def InviteRequest.address (body : InviteRequest) : Option String :=
  (if body.targetType L = "email" then body.targetEntity else none).map L.lower

/-- `create_grant_endpoint`, of an invite; `user` is empty for a caller that is no user. -/
def createInviteEndpoint (p : Particulars) (user tokenHash : String) (body : InviteRequest) :
    Except MintErr GrantAttrs :=
  if user = "" then .error (.access (.http 401 "User identification required"))
  else
    match userHasAnyAction now db user body.resourceId [.share, .admin] with
    | .error e => .error (.access e)
    | .ok false => .error (.access (.http 403 "You need share or admin permission on this resource"))
    | .ok true =>
      createInvite now db p user body.resourceId body.roleName tokenHash (body.address L)
        (some (body.maxClaims.getD 1))

def targetMatches (type target user email : String) : Bool :=
  if type = "user_id" then decide (user = target)
  else if type = "email" ∨ type = "domain" then
    let address := L.lower (strip email)
    if address = "" then false
    else if type = "email" then decide (address = L.lower target)
    else ("@" ++ L.lower target).toList.isSuffixOf address.toList
  else false

def verifyTargetMatch (user email : String) (invite : GrantAttrs) : Bool :=
  targetMatches L (invite "target_entity_type").pyStr ((invite "target_entity").orElse (.str "")).pyStr user email

end Endpoint

/-! ### What was asked for -/

section Asked

variable (L : Lowering)

/-- The bit was set, or the role that was named contains it. -/
def InviteRequest.Asks (body : InviteRequest) (a : Action) : Prop :=
  body.bits a = true ∨ ∃ r ∈ rolePresets, body.role = some r.1 ∧ a ∈ r.2

def InviteRequest.Names (body : InviteRequest) (target : String) : Prop :=
  body.targetEntity = some target ∧ target ≠ "" ∧ body.targetType L ∈ ["email", "domain", "user_id"]

/-- Whom the invite lets claim it, its limit apart. -/
def Admits (invite : GrantAttrs) (user email : String) : Prop :=
  (invite "target_entity").truthy = true → (invite "target_entity_type").truthy = true →
    verifyTargetMatch L user email invite = true

/-- Only bits that were asked for, and only for whom the request named. -/
structure AsAsked (body : InviteRequest) (invite : GrantAttrs) : Prop where
  bits : ∀ a : Action, (invite a.flag).truthy = true → body.Asks a
  target : ∀ target, body.Names L target → ∀ user email, Admits L invite user email →
    targetMatches L (body.targetType L) target user email = true

/-- A role is named, or reading is asked for, or the issuer could not give it; a target is an address. -/
def InviteRequest.Clear (body : InviteRequest) (held : Action → Bool) : Prop :=
  ((∃ r, body.role = some r ∧ r ≠ "") ∨ body.bits .read = true ∨ held .read = false) ∧
    ∀ target, body.Names L target → body.targetType L = "email"

end Asked

/-! ### The invite as it is made -/

section Made

variable {L : Lowering} {now : Val → Bool} {db : Store} {p : Particulars} {user tokenHash : String} {body : InviteRequest}
  {g : GrantAttrs}

theorem createInviteEndpoint_ok (h : createInviteEndpoint L now db p user tokenHash body = .ok g) :
    ∃ preset held, (body.roleName, preset) ∈ rolePresets ∧ heldFlags now db user body.resourceId = .ok held ∧
      (∀ a : Action, g a.flag = .bool (decide (a ∈ preset) && held a)) ∧
      (g "id" = .str p.id ∧ g "effect" = .str "allow") ∧
      g "target_entity" = (if (optStr (body.address L)).truthy then optStr (body.address L) else .none) ∧
      g "target_entity_type" = if (optStr (body.address L)).truthy then .str "email" else .none := by
  unfold createInviteEndpoint at h
  split_ifs at h with huser
  split at h
  · cases h
  · cases h
  · unfold createInvite at h
    obtain ⟨preset, hpreset, h⟩ := Mantle.bind_ok h
    obtain ⟨granted, hgranted, h⟩ := Mantle.bind_ok h
    obtain ⟨held, hheld, rfl⟩ := Mantle.map_ok hgranted
    unfold permissionsForRole at hpreset
    split at hpreset
    · rename_i r hr
      cases hpreset
      cases h
      have hname : r.1 = body.roleName := by simpa using List.find?_some hr
      exact ⟨r.2, held, hname ▸ List.mem_of_find?_eq_some hr, hheld, build_flag p _ _, ⟨rfl, rfl⟩, rfl, rfl⟩
    · cases hpreset

theorem rolePresets_facts : ∀ r ∈ rolePresets, r.1 ≠ "" ∧ Action.read ∈ r.2 ∧
    ∀ r' ∈ rolePresets, r.1 = r'.1 → r.2 = r'.2 := by decide

theorem roleName_cases (body : InviteRequest) {preset : List Action} (hp : (body.roleName, preset) ∈ rolePresets) :
    (∃ r, body.role = some r ∧ r ≠ "" ∧ (r, preset) ∈ rolePresets) ∨
      (¬∃ r, body.role = some r ∧ r ≠ "") ∧ ((∀ a, body.bits a = decide (a ∈ preset)) ∨ preset = [.read]) := by
  by_cases hrole : ∃ r, body.role = some r ∧ r ≠ ""
  · obtain ⟨r, hr, hne⟩ := hrole
    refine .inl ⟨r, hr, hne, ?_⟩
    have hname : body.roleName = r := by
      unfold InviteRequest.roleName
      rw [hr, Option.filter_some_pos (by simpa using hne)]
      rfl
    rwa [hname] at hp
  · refine .inr ⟨hrole, ?_⟩
    have hname : body.roleName = (roleFromBits body).getD "viewer" := by
      unfold InviteRequest.roleName
      cases hr : body.role with
      | none => rfl
      | some r =>
        have hempty : r = "" := by_contra fun hne => hrole ⟨r, hr, hne⟩
        rw [hempty]
        rfl
    rw [hname] at hp
    unfold roleFromBits at hp
    cases hf : rolePresets.find? fun p => Action.all.all fun a => body.bits a == decide (a ∈ p.2) with
    | none =>
      rw [hf] at hp
      exact .inr ((rolePresets_facts _ hp).2.2 ("viewer", [.read]) (by decide) rfl)
    | some r =>
      rw [hf] at hp
      have heq := (rolePresets_facts _ hp).2.2 r (List.mem_of_find?_eq_some hf) rfl
      refine .inl fun a => ?_
      have hall : (Action.all.all fun a => body.bits a == decide (a ∈ r.2)) = true := by
        have := List.find?_some hf
        exact this
      rw [show preset = r.2 from heq]
      exact eq_of_beq (List.all_eq_true.mp hall a (by cases a <;> decide))

theorem address_of_names {target : String} (hn : body.Names L target) :
    body.address L = if body.targetType L = "email" then some (L.lower target) else none := by
  unfold InviteRequest.address
  rw [hn.1]
  split_ifs <;> rfl

/-- **An invite carries what its request asks for** exactly when the request is clear. -/
theorem asAsked_iff {held : Action → Bool} (hmade : createInviteEndpoint L now db p user tokenHash body = .ok g)
    (hheld : heldFlags now db user body.resourceId = .ok held) : AsAsked L body g ↔ body.Clear L held := by
  obtain ⟨preset, held', hp, hheld', hbits, -, htarget, htype⟩ := createInviteEndpoint_ok hmade
  rw [hheld] at hheld'
  cases hheld'
  constructor
  · rintro ⟨hasked, hmatch⟩
    constructor
    · rcases roleName_cases body hp with ⟨r, hr, hne, -⟩ | ⟨hrole, hset | rfl⟩
      · exact .inl ⟨r, hr, hne⟩
      · exact .inr (.inl ((hset .read).trans (decide_eq_true (rolePresets_facts _ hp).2.1)))
      · cases hread : held .read with
        | false => exact .inr (.inr rfl)
        | true =>
          have hgiven : (g Action.read.flag).truthy = true := by
            rw [hbits .read, hread]
            rfl
          rcases hasked .read hgiven with hset | ⟨r, hr, hrole', -⟩
          · exact .inr (.inl hset)
          · exact absurd ⟨r.1, hrole', (rolePresets_facts r hr).1⟩ hrole
    · intro target hn
      by_contra hne
      have hopen : ∀ user email, Admits L g user email := by
        intro user email ht
        rw [htarget, address_of_names hn, if_neg hne] at ht
        cases ht
      have hall := fun user email => hmatch target hn user email (hopen user email)
      have hin := hn.2.2
      simp only [List.mem_cons, List.not_mem_nil, or_false] at hin
      rcases hin.resolve_left hne with hd | hu
      · have hnone := hall "" ""
        unfold targetMatches at hnone
        simp [hd, show L.lower (strip "") = "" from (L.lower_eq_empty _).mpr rfl] at hnone
      · have hother := hall (target ++ "x") ""
        unfold targetMatches at hother
        rw [if_pos hu] at hother
        have hlen := congrArg String.length (of_decide_eq_true hother)
        rw [String.length_append] at hlen
        exact absurd hlen (Nat.succ_ne_self _)
  · rintro ⟨hread, hemail⟩
    constructor
    · intro a ha
      rw [hbits a] at ha
      obtain ⟨hin, hholds⟩ := (Bool.and_eq_true _ _).mp ha
      rcases roleName_cases body hp with ⟨r, hr, -, hmem⟩ | ⟨hrole, hset | rfl⟩
      · exact .inr ⟨(r, preset), hmem, hr, of_decide_eq_true hin⟩
      · exact .inl ((hset a).trans hin)
      · rcases hread with hnamed | hset | hnone
        · exact absurd hnamed hrole
        · exact .inl (by rwa [List.mem_singleton.mp (of_decide_eq_true hin)])
        · rw [List.mem_singleton.mp (of_decide_eq_true hin), hnone] at hholds
          cases hholds
    · intro target hn user email hadmits
      have htruthy : (optStr (body.address L)).truthy = true := by
        rw [address_of_names hn, if_pos (hemail target hn)]
        exact decide_eq_true fun he => hn.2.1 ((L.lower_eq_empty target).mp he)
      rw [if_pos htruthy] at htarget htype
      have hverify := hadmits (by rw [htarget]; exact htruthy) (by rw [htype]; rfl)
      have hlow : optStr (body.address L) = .str (L.lower target) := by
        rw [address_of_names hn, if_pos (hemail target hn)]
        rfl
      rw [hlow] at htarget htruthy
      unfold verifyTargetMatch at hverify
      rw [htarget, htype, show (Val.str (L.lower target)).orElse (.str "") = .str (L.lower target) from if_pos htruthy]
        at hverify
      rw [hemail target hn]
      unfold targetMatches at hverify ⊢
      simpa [L.lower_lower] using hverify

end Made

/-! ### The invite in a run of claims -/

/-- What a claim takes from the invite. -/
def termKeys : List String := "target_entity" :: "target_entity_type" :: Action.all.map Action.flag

def SameTerms (g g' : GrantAttrs) : Prop := (∀ k ∈ termKeys, g' k = g k) ∧ ∃ e, g' "effect" = .str e

structure Claimant where
  tokenHash : String
  user : String
  time : String
  email : String

def Claimant.args (L : Lowering) (c : Claimant) : ClaimArgs :=
  ⟨c.tokenHash, c.user, c.time, verifyTargetMatch L c.user c.email⟩

/-- What holds along a run: the invite keeps its terms, in the store and in every call's hands, and a call through the
check was admitted. -/
structure Claims.KeepsTerms (args : ℕ → ClaimArgs) (inv : String) (g : GrantAttrs) (s : Claims) : Prop where
  outside : s.node.inTxn = false
  named : GrantsNamed s.node.db
  stored : ∃ g', storedInvite s.node.db inv = some g' ∧ SameTerms g g'
  read : ∀ i g', (s.phase i).invite = some g' → ofInvite inv g' = true → SameTerms g g'
  checked : ∀ i g', s.phase i = .checked g' → checkClaim (args i).matched g' = .ok ()

def Storable (g : GrantAttrs) : Prop := ∀ k ∈ termKeys, (g k).norm = g k ∧ ((g k).isNone = true → grantDefault k = g k)

section Run

variable {L : Lowering} {args : ℕ → ClaimArgs} {inv : String} {g : GrantAttrs} {s : Claims}

theorem GrantStored.terms {db' : Store} (h : GrantStored g' inv db db') (hg : Storable g) (ht : SameTerms g g') :
    ∃ r, storedInvite db' inv = some r ∧ SameTerms g r := by
  obtain ⟨e, heff⟩ := ht.2
  obtain ⟨r, hr, hback⟩ := h.storedInvite_self heff
  obtain ⟨d, -, hd⟩ := storedInvite_eq.mp hr
  refine ⟨r, hr, fun k hk => ?_, fromDict_effect hd⟩
  obtain ⟨hnorm, hnone⟩ := hg k hk
  have hfields : ∀ k ∈ termKeys, k ∈ grantFields ∧ k ≠ "created_time" ∧ k ≠ "effect" := by decide
  obtain ⟨hfield, htime, heffect⟩ := hfields k hk
  rw [hback k hfield htime heffect, ht.1 k hk]
  split_ifs with hn
  · exact hnone hn
  · exact hnorm

theorem Claims.KeepsTerms.moved (h : s.KeepsTerms args inv g) {i : ℕ} {p : ClaimPhase}
    (hread : ∀ g', p.invite = some g' → ofInvite inv g' = true → SameTerms g g')
    (hchecked : ∀ g', p = .checked g' → checkClaim (args i).matched g' = .ok ()) :
    (s.moved i p).KeepsTerms args inv g := by
  refine ⟨h.outside, h.named, h.stored, fun j g' hj => ?_, fun j g' hj => ?_⟩
  · change (Function.update s.phase i p j).invite = some g' at hj
    rw [Function.update_apply] at hj
    split_ifs at hj
    · exact hread g' hj
    · exact h.read j g' hj
  · change Function.update s.phase i p j = .checked g' at hj
    rw [Function.update_apply] at hj
    split_ifs at hj with hji
    · exact hji ▸ hchecked g' hj
    · exact h.checked j g' hj

theorem Claims.KeepsTerms.of_node (h : s.KeepsTerms args inv g) {m : Node} (hi : m.inTxn = false)
    (hn : GrantsNamed m.db) (hst : ∃ g', storedInvite m.db inv = some g' ∧ SameTerms g g') :
    (⟨m, s.phase, made⟩ : Claims).KeepsTerms args inv g :=
  ⟨hi, hn, hst, h.read, h.checked⟩

theorem Claims.KeepsTerms.put (h : s.KeepsTerms args inv g) (hg : Storable g)
    (hput : g' "id" = .str inv → SameTerms g g') :
    Runs (putGrant g') s.node (fun _ m => (⟨m, s.phase, made⟩ : Claims).KeepsTerms args inv g)
      fun m => (⟨m, s.phase, made⟩ : Claims).KeepsTerms args inv g := by
  refine (putGrant_tables g' h.outside).mono ?_ ?_
  · rintro - m ⟨⟨id, hid, hst⟩, hi⟩
    refine h.of_node hi (hst.named hid h.named) ?_
    by_cases hinv : inv = id
    · subst hinv
      exact hst.terms hg (hput hid)
    · rw [hst.storedInvite_other hinv]
      exact h.stored
  · rintro m ⟨hsame, hi⟩
    refine h.of_node hi (h.named.sameTables hsame) ?_
    rw [storedInvite_sameTables hsame]
    exact h.stored

theorem SameTerms.counted {time : String} (ht : SameTerms g invite) (h : countedInvite invite user time = .ok g') :
    SameTerms g g' := by
  have hkeys : ∀ k ∈ termKeys, k ∉ ["claims_count", "modified_time", "state", "revoked_at", "revoked_by"] := by decide
  refine ⟨fun k hk => (countedInvite_kept h (hkeys k hk)).trans (ht.1 k hk), ?_⟩
  rw [countedInvite_kept h (by decide)]
  exact ht.2

theorem Claims.KeepsTerms.step (h : s.KeepsTerms args inv g) (hg : Storable g) (e : ClaimEvent) :
    (s.step args e).KeepsTerms args inv g := by
  cases e with
  | look i now =>
    unfold Claims.step
    dsimp only
    split
    · split
      · rename_i invite hlook
        refine h.moved (fun g' hg' hof => ?_) fun _ hp => nomatch hp
        cases hg'
        obtain ⟨r, hr, hterms⟩ := h.stored
        rw [lookup_stored h.named hlook hof] at hr
        cases hr
        exact hterms
      · exact h.moved (fun _ hp => nomatch hp) fun _ hp => nomatch hp
    · exact h
  | check i =>
    unfold Claims.step
    dsimp only
    split
    · rename_i invite hfound
      split
      · rename_i hcheck
        refine h.moved (fun g' hg' hof => ?_) fun g' hp => ?_
        · cases hg'
          exact h.read i invite (by rw [hfound]; rfl) hof
        · cases hp
          exact hcheck
      · exact h.moved (fun _ hp => nomatch hp) fun _ hp => nomatch hp
    · exact h
  | create i id =>
    unfold Claims.step
    dsimp only
    split
    · rename_i invite hphase
      split_ifs with hfresh
      · exact h
      · -- the new row is not the invite's
        have hne : (claimedGrant invite id (args i).user (args i).time) "id" ≠ .str inv := by
          intro hid
          cases (show Val.str id = .str inv from hid)
          obtain ⟨r, hr, -⟩ := h.stored
          obtain ⟨d, hd, -⟩ := storedInvite_eq.mp hr
          obtain ⟨row, hrow, -⟩ := Option.bind_eq_some_iff.mp hd
          rw [hrow] at hfresh
          exact hfresh rfl
        split
        · rename_i d m hok
          have hmoved := h.moved (i := i) (p := .created invite)
            (fun g' hg' hof => by cases hg'; exact h.read i invite (by rw [hphase]; rfl) hof) fun _ hp => nomatch hp
          exact (hmoved.put hg fun hid => absurd hid hne).ok hok
        · rename_i e m herr
          have hmoved := h.moved (i := i) (p := .ended) (fun _ hp => nomatch hp) fun _ hp => nomatch hp
          exact (hmoved.put hg fun hid => absurd hid hne).error herr
    · exact h
  | update i =>
    unfold Claims.step
    dsimp only
    split
    · rename_i invite hphase
      have hmoved := h.moved (i := i) (p := .ended) (fun _ hp => nomatch hp) fun _ hp => nomatch hp
      split
      · exact hmoved
      · rename_i g' hcounted
        have hput : g' "id" = .str inv → SameTerms g g' := fun hinv =>
          (h.read i invite (by rw [hphase]; rfl)
            (eqStr_iff.mpr ((countedInvite_kept hcounted (by decide)).symm.trans hinv))).counted hcounted
        split
        · exact (hmoved.put hg hput).ok ‹_›
        · exact (hmoved.put hg hput).error ‹_›
    · exact h
  | fail i => exact h.moved (fun _ hp => nomatch hp) fun _ hp => nomatch hp

theorem Claims.KeepsTerms.run (hg : Storable g) : ∀ {events : List ClaimEvent} {s : Claims},
    s.KeepsTerms args inv g → (s.run args events).KeepsTerms args inv g
  | [], _, h => h
  | e :: _, _, h => (h.step hg e).run hg

end Run

/-! ### Every claim -/

def Claims.start (n : Node) : Claims := ⟨n, fun _ => .idle, []⟩

variable {L : Lowering}

theorem admits_of_checkClaim {email : String} (h : checkClaim (verifyTargetMatch L user email) invite = .ok ()) :
    Admits L invite user email := by
  intro ht hk
  unfold checkClaim at h
  by_contra hno
  rw [if_pos (by simp [ht, hk, hno])] at h
  cases h

theorem createInviteEndpoint_storable {now : Val → Bool} {p : Particulars} {tokenHash : String} {body : InviteRequest}
    {g : GrantAttrs} (h : createInviteEndpoint L now db p user tokenHash body = .ok g) : Storable g := by
  obtain ⟨preset, held, -, -, hflags, -, hentity, htype⟩ := createInviteEndpoint_ok h
  intro k hk
  simp only [termKeys, List.mem_cons, List.mem_map] at hk
  rcases hk with rfl | rfl | ⟨a, -, rfl⟩
  · rw [hentity]
    cases body.address L with
    | none => exact ⟨rfl, fun _ => rfl⟩
    | some t => split_ifs <;> exact ⟨rfl, fun hn => (by first | rfl | cases hn)⟩
  · rw [htype]
    split_ifs <;> exact ⟨rfl, fun hn => (by first | rfl | cases hn)⟩
  · rw [hflags a]
    exact ⟨rfl, fun hn => nomatch hn⟩

/-- **An invite is what was asked for** exactly when its request is clear; and no run of claims then stores more. -/
theorem invite_as_asked (L : Lowering) (now : Val → Bool) (p : Particulars) (user tokenHash : String)
    (body : InviteRequest) (held : Action → Bool) (g : GrantAttrs) (n n' : Node) (d : Doc)
    (hmade : createInviteEndpoint L now n.db p user tokenHash body = .ok g)
    (hheld : heldFlags now n.db user body.resourceId = .ok held) (hn : n.inTxn = false) (hnamed : GrantsNamed n.db)
    (hput : putGrant g n = .ok d n') :
    (AsAsked L body g ↔ body.Clear L held) ∧
      (body.Clear L held → ∀ (claimants : ℕ → Claimant) (events : List ClaimEvent) (i : ℕ) (invite : GrantAttrs),
        ((Claims.start n').run (fun j => (claimants j).args L) events).phase i = .checked invite →
        ofInvite p.id invite = true →
        (∀ a : Action, (claimedGrant invite "" (claimants i).user (claimants i).time a.flag).truthy = true → body.Asks a) ∧
          ∀ target, body.Names L target →
            targetMatches L (body.targetType L) target (claimants i).user (claimants i).email = true) := by
  have hiff := asAsked_iff hmade hheld
  refine ⟨hiff, fun hclear claimants events i invite hphase hof => ?_⟩
  obtain ⟨hbits, htarget⟩ := hiff.mpr hclear
  obtain ⟨-, -, -, -, -, ⟨hid, heffect⟩, -, -⟩ := createInviteEndpoint_ok hmade
  have hstorable := createInviteEndpoint_storable hmade
  obtain ⟨⟨id, hid', hst⟩, hi⟩ := (putGrant_tables g hn).ok hput
  rw [hid] at hid'
  cases hid'
  have hstart : (Claims.start n').KeepsTerms (fun j => (claimants j).args L) p.id g :=
    ⟨hi, hst.named hid hnamed, hst.terms hstorable ⟨fun _ _ => rfl, "allow", heffect⟩, fun _ _ h => (nomatch h),
      fun _ _ h => (nomatch h)⟩
  have hrun : ((Claims.start n').run (fun j => (claimants j).args L) events).KeepsTerms
      (fun j => (claimants j).args L) p.id g := hstart.run hstorable
  have hterms := (hrun.read i invite (by rw [hphase]; rfl) hof).1
  refine ⟨fun a ha => ?_, fun target hnames => htarget target hnames _ _ ?_⟩
  · have hclaimed : claimedGrant invite "" (claimants i).user (claimants i).time a.flag = invite a.flag := by
      cases a <;> rfl
    rw [hclaimed, hterms a.flag (by cases a <;> decide)] at ha
    exact hbits a ha
  · have hadmits := admits_of_checkClaim (hrun.checked i invite hphase)
    unfold Admits verifyTargetMatch at hadmits ⊢
    rwa [hterms "target_entity" (by decide), hterms "target_entity_type" (by decide)] at hadmits

/-! ### A request that is not clear -/

def issuerNode : Node :=
  hereNode.run
    [.putArtifact (grantDoc "g" "u" "r" "allow" ++ [("can_share", .bool true)]) true false]

def sameCase : Lowering := ⟨id, fun _ => rfl, fun _ => Iff.rfl⟩

def updateForDomain : InviteRequest where
  resourceId := "r"
  bits a := decide (a = .update)
  noEvict := rfl
  targetEntity := some "example.com"
  targetEntityType := some "domain"
  maxClaims := none
  role := none

def inviteParticulars : Particulars := ⟨"i", "t", none, none, none⟩

def outsider (_ : ℕ) : Claimant := ⟨"hash", "v", "t", "v@elsewhere.org"⟩

def updateInvite : Except MintErr GrantAttrs :=
  createInviteEndpoint sameCase (fun _ => true) issuerNode.db inviteParticulars "u" "hash" updateForDomain

theorem updateInvite_made : ∃ g d n', updateInvite = .ok g ∧ putGrant g issuerNode = .ok d n' ∧ ∃ invite,
    ((Claims.start n').run (fun j => (outsider j).args sameCase) [.look 0 fun _ => true, .check 0]).phase 0 =
      .checked invite ∧ ofInvite "i" invite = true ∧ (invite "can_read").truthy = true := by
  have hrun : (updateInvite.toOption.any fun g => (endState (putGrant g issuerNode)).any fun n' =>
      (((Claims.start n').run (fun j => (outsider j).args sameCase)
        [.look 0 fun _ => true, .check 0]).phase 0).accepted.any fun invite =>
          ofInvite "i" invite && (invite "can_read").truthy) = true := by
    decide +kernel
  obtain ⟨g, hg, hrun⟩ := (Option.any_eq_true _ _).mp hrun
  obtain ⟨n', hn', hrun⟩ := (Option.any_eq_true _ _).mp hrun
  obtain ⟨invite, hphase, hrun⟩ := (Option.any_eq_true _ _).mp hrun
  obtain ⟨d, hput⟩ := endState_some hn'
  exact ⟨g, d, n', ok_of_toOption hg, hput, invite, accepted_some hphase, (Bool.and_eq_true _ _).mp hrun⟩

theorem invite_as_asked_update : ∃ held g, heldFlags (fun _ => true) issuerNode.db "u" "r" = .ok held ∧
    (AsAsked sameCase updateForDomain g ↔ updateForDomain.Clear sameCase held) := by
  obtain ⟨g, d, n', hmade, hput, -⟩ := updateInvite_made
  obtain ⟨-, held, -, hheld, -⟩ := createInviteEndpoint_ok hmade
  exact ⟨held, g, hheld, (invite_as_asked sameCase (fun _ => true) inviteParticulars "u" "hash" updateForDomain held g
    issuerNode n' d hmade hheld (by decide +kernel) (grantsNamed_of_all (by decide +kernel)) hput).1⟩

theorem outsider_claims_read : ∃ g d n', updateInvite = .ok g ∧ putGrant g issuerNode = .ok d n' ∧ ∃ invite,
    ((Claims.start n').run (fun j => (outsider j).args sameCase) [.look 0 fun _ => true, .check 0]).phase 0 =
      .checked invite ∧ ofInvite "i" invite = true ∧
    (claimedGrant invite "c" "v" "t" Action.read.flag).truthy = true ∧ ¬updateForDomain.Asks .read ∧
    updateForDomain.Names sameCase "example.com" ∧
    targetMatches sameCase (updateForDomain.targetType sameCase) "example.com" "v" "v@elsewhere.org" = false := by
  obtain ⟨g, d, n', hg, hput, invite, hphase, hof, hread⟩ := updateInvite_made
  refine ⟨g, d, n', hg, hput, invite, hphase, hof, hread, ?_, ⟨rfl, by decide, by decide⟩, by decide⟩
  rintro (hset | ⟨r, -, hrole, -⟩)
  · cases hset
  · cases hrole

end Mantle
