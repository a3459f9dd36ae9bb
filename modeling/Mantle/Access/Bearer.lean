import Mantle.Access.Keys
import Mantle.Db.Documented

/-!
# Mantle.Access.Bearer — one grant key, asked at two doors

`resolve_auth` reads only grants that are in force; the light cone is asked about any root that is active, expired or
not.
-/

namespace Mantle

def keyPrefix : String := "agk_"

/-! ### The two doors -/

section Doors

variable (hashToken : String → String) (now : Val → Bool) (db : Store)

def authenticateKey (token : String) : Except AccessErr (Option GrantEntity) :=
  if token = "" || !keyPrefix.toList.isPrefixOf token.toList then .ok none
  else ((heldDocs now db (hashToken token) granteeGrantKey).mapM GrantEntity.ofDoc).map List.head?

/-- The part of an `AuthContext` that says who asks and what is attached to it. -/
structure KeyAuth where
  principalId : String
  grants : List GrantEntity

/-- `resolve_auth`, of a grant key; `none` is its 401. -/
def resolveAuthKey (token : String) : Except AccessErr (Option KeyAuth) :=
  match authenticateKey hashToken now db token with
  | .error e => .error e
  | .ok none => .ok none
  | .ok (some root) => (keyResolve now db root).map fun grants => some ⟨root.id, grants⟩

def TokenCan (token rid : String) (x : Action) : Prop :=
  ∃ auth, resolveAuthKey hashToken now db token = .ok (some auth) ∧ keyAuthorizes auth.grants rid x = true

/-- What the light cone's grants authorize the acting principal to. -/
def ActingCan (key rid : String) (x : Action) : Prop :=
  ∃ gs, grantsFor now db key granteeGrantKey = .ok gs ∧ keyAuthorizes gs rid x = true

structure KeyDoorsAgree (token key : String) : Prop where
  same : ∀ rid x, ActingCan now db key rid x ↔ TokenCan hashToken now db token rid x
  refused : authenticateKey hashToken now db token = .ok none → ∀ rid x, ¬ActingCan now db key rid x

/-- The key has something to give: of the grants its bundle comes to on some resource, one allows an action and none
denies it. -/
structure Carries (root : GrantEntity) : Prop where
  members : ∀ n p b, BundlePath now db root (n :: p) b → p.length < maxBundleDepth →
    ∃ ms, listMembers now db n.id = .ok ms
  issuers : ∀ p b, KeyHolds now db root p b → b.resource.isSome = true → ∃ g, asHeldNow now db b = .ok g
  may : ∃ rid x, KeyMay now db root (fun _ => false) rid x

end Doors

/-! ### The root of a token -/

section Root

variable {hashToken : String → String} {now : Val → Bool} {db : Store}

theorem grantAt_stored (hdoc : Documented db) {id : String} {d : Doc} {g : GrantEntity} (hd : grantAt db id = some d)
    (hg : GrantEntity.ofDoc d = .ok g) : Stored db g ∧ g.id = id := by
  obtain ⟨r, hr, rfl⟩ := grantAt_row hd
  have hid : g.id = id := by
    rw [(GrantEntity.ofDoc_ok hg).2.1, (hdoc.named id r hr).2]
    rfl
  exact ⟨⟨r, by rwa [hid], hg⟩, hid⟩

theorem getGrantById_of_grantAt (hdoc : Documented db) {id : String} {d : Doc} {g : GrantEntity}
    (hd : grantAt db id = some d) (hg : GrantEntity.ofDoc d = .ok g) : getGrantById db id = .ok (some g) := by
  unfold grantAt at hd
  obtain ⟨r, hr, hif⟩ := Option.bind_eq_some_iff.mp hd
  split_ifs at hif with hgrant
  cases hif
  have hct : (r.doc.val.get "content_type").eqStr grantContentType = true := by
    rw [← (hdoc.typed id r hr).1]
    exact hgrant
  have hfull : ¬r.doc.val.isEmpty = true := by
    intro hempty
    have hid := (hdoc.named id r hr).2
    rw [List.isEmpty_iff.mp hempty] at hid
    cases hid
  unfold getGrantById docOf
  rw [hr, Option.bind_some, if_neg hfull]
  dsimp only
  rw [if_pos hct, hg]
  rfl

theorem isActive_of_inForce {d : Doc} {g : GrantEntity} (hg : GrantEntity.ofDoc d = .ok g)
    (h : inForce now d = true) : g.isActive = true := by
  have hstate : g.state = (d.find? "state").getD (.str "active") := by
    unfold GrantEntity.ofDoc at hg
    obtain ⟨g', -, rfl⟩ := map_ok hg
    rfl
  unfold GrantEntity.isActive
  rw [hstate, find_of_eqStr (Bool.and_eq_true_iff.mp h).1]
  rfl

variable {token key : String} {d : Doc} {root : GrantEntity} {o : Option GrantEntity}

theorem authenticateKey_some (hdoc : Documented db) {r : GrantEntity}
    (h : authenticateKey hashToken now db token = .ok (some r)) :
    ∃ d', grantAt db r.id = some d' ∧ inForce now d' = true ∧ GrantEntity.ofDoc d' = .ok r := by
  unfold authenticateKey at h
  split_ifs at h
  · cases h
  obtain ⟨gs, hgs, hhead⟩ := map_ok h
  obtain ⟨d', hd', hr⟩ := (mapM_ok hgs r).mp (List.mem_of_head? hhead)
  obtain ⟨-, ⟨id, hid, -⟩, hforce, -⟩ := mem_heldDocs.mp hd'
  exact ⟨d', by rwa [(grantAt_stored hdoc hid hr).2], hforce, hr⟩

theorem authenticateKey_live (hne : hashToken token ≠ "") (hpre : keyPrefix.toList.isPrefixOf token.toList = true)
    (hd : grantAt db key = some d) (hkey : d.get "grantee_type" = .str granteeGrantKey)
    (hhash : d.get "grantee_id" = .str (hashToken token)) (hforce : inForce now d = true) :
    authenticateKey hashToken now db token ≠ .ok none := by
  have hmem : d ∈ heldDocs now db (hashToken token) granteeGrantKey :=
    mem_heldDocs.mpr ⟨hne, ⟨key, hd, eqStr_iff.mpr hhash⟩, hforce, eqStr_iff.mpr hkey⟩
  have hnonempty : token ≠ "" := by
    rintro rfl
    exact absurd hpre (by decide)
  unfold authenticateKey
  rw [if_neg (by simp [hnonempty, hpre])]
  intro h
  obtain ⟨gs, hgs, hhead⟩ := map_ok h
  obtain ⟨g, hg⟩ := mapM_isOk.mp ⟨gs, hgs⟩ d hmem
  have hin := (mapM_ok hgs g).mpr ⟨d, hmem, hg⟩
  rw [List.head?_eq_none_iff.mp hhead] at hin
  cases hin

theorem actingCan_iff (hdoc : Documented db) (hd : grantAt db key = some d) (hroot : GrantEntity.ofDoc d = .ok root)
    (rid : String) (x : Action) :
    ActingCan now db key rid x ↔
      root.isActive = true ∧ ∃ gs, keyResolve now db root = .ok gs ∧ keyAuthorizes gs rid x = true := by
  have hfor : grantsFor now db key granteeGrantKey = if root.isActive then keyResolve now db root else .ok [] := by
    unfold grantsFor
    rw [if_pos rfl, getGrantById_of_grantAt hdoc hd hroot]
  unfold ActingCan
  rw [hfor]
  by_cases ha : root.isActive = true
  · rw [if_pos ha]
    exact ⟨fun h => ⟨ha, h⟩, fun h => h.2⟩
  · rw [if_neg ha]
    refine ⟨?_, fun h => absurd h.1 ha⟩
    rintro ⟨gs, hgs, hauth⟩
    cases hgs
    cases hauth

theorem carries_iff (hdoc : Documented db) (hroot : Stored db root) (hkey : root.granteeType = .str granteeGrantKey) :
    Carries now db root ↔
      ∃ rid x gs, keyResolve now db root = .ok gs ∧ keyAuthorizes gs rid x = true := by
  have hn := fun id r hr => (hdoc.named id r hr).2
  have hok := @keyResolve_isOk now db root hn hroot hkey
  constructor
  · rintro ⟨hm, hi, rid, x, hmay⟩
    obtain ⟨gs, hgs⟩ := hok.mpr ⟨hm, hi⟩
    exact ⟨rid, x, gs, hgs, (keyAuthorizes_iff hn hroot hkey hgs rid x).mpr hmay⟩
  · rintro ⟨rid, x, gs, hgs, hauth⟩
    obtain ⟨hm, hi⟩ := hok.mp ⟨gs, hgs⟩
    exact ⟨hm, hi, rid, x, (keyAuthorizes_iff hn hroot hkey hgs rid x).mp hauth⟩

/-- **The doors agree on a key** that is in force, is not active, or has nothing to give. -/
theorem key_doors_iff (hdoc : Documented db) (hne : hashToken token ≠ "")
    (hpre : keyPrefix.toList.isPrefixOf token.toList = true) (hd : grantAt db key = some d)
    (hroot : GrantEntity.ofDoc d = .ok root) (hkey : d.get "grantee_type" = .str granteeGrantKey)
    (hhash : d.get "grantee_id" = .str (hashToken token)) (hauth : authenticateKey hashToken now db token = .ok o)
    (hself : ∀ r ∈ o, r.id = key) :
    KeyDoorsAgree hashToken now db token key ↔
      inForce now d = true ∨ root.isActive = false ∨ ¬Carries now db root := by
  obtain ⟨hst, hid⟩ := grantAt_stored hdoc hd hroot
  have htype : root.granteeType = .str granteeGrantKey := by
    rw [(GrantEntity.ofDoc_ok hroot).2.2.1]
    exact find_of_eqStr (eqStr_iff.mpr hkey)
  have hacts := @actingCan_iff now db key d root hdoc hd hroot
  cases o with
  | some r =>
    -- the token is accepted as the key itself: both doors resolve the same root
    obtain ⟨d', hd', hforce, hr⟩ := authenticateKey_some hdoc hauth
    obtain rfl : r = root := (grantAt_stored hdoc hd' hr).1.unique hst ((hself r rfl).trans hid.symm)
    rw [hid, hd] at hd'
    cases hd'
    refine ⟨fun _ => .inl hforce, fun _ => ⟨fun rid x => ?_, fun hno => ?_⟩⟩
    · rw [hacts]
      unfold TokenCan resolveAuthKey
      rw [hauth]
      dsimp only
      constructor
      · rintro ⟨-, gs, hgs, hcan⟩
        exact ⟨⟨r.id, gs⟩, by rw [hgs]; rfl, hcan⟩
      · rintro ⟨auth, hr', hcan⟩
        obtain ⟨gs, hgs, hsome⟩ := map_ok hr'
        cases hsome
        exact ⟨isActive_of_inForce hroot hforce, gs, hgs, hcan⟩
    · rw [hauth] at hno
      cases hno
  | none =>
    have hforce : ¬inForce now d = true := fun h => authenticateKey_live hne hpre hd hkey hhash h hauth
    have htoken : ∀ rid x, ¬TokenCan hashToken now db token rid x := by
      rintro rid x ⟨auth, hr, -⟩
      unfold resolveAuthKey at hr
      rw [hauth] at hr
      cases hr
    constructor
    · intro h
      refine .inr ?_
      by_cases ha : root.isActive = true
      · refine .inr fun hc => ?_
        obtain ⟨rid, x, gs, hgs, hcan⟩ := (carries_iff hdoc hst htype).mp hc
        exact h.refused hauth rid x ((hacts rid x).mpr ⟨ha, gs, hgs, hcan⟩)
      · exact .inl (by simpa using ha)
    · intro h
      have hno : ∀ rid x, ¬ActingCan now db key rid x := by
        intro rid x hcan
        obtain ⟨ha, gs, hgs, hauthz⟩ := (hacts rid x).mp hcan
        rcases h with h | h | h
        · exact hforce h
        · rw [h] at ha
          cases ha
        · exact h ((carries_iff hdoc hst htype).mpr ⟨rid, x, gs, hgs, hauthz⟩)
      exact ⟨fun rid x => ⟨fun h => absurd h (hno rid x), fun h => absurd h (htoken rid x)⟩, fun _ => hno⟩

end Root

/-! ### A key past its time -/

def keyDoc (expires : String) : Doc :=
  [("id", .str "k"), ("content_type", .str grantContentType), ("grantee_type", .str granteeGrantKey),
   ("grantee_id", .str "hash of agk_1"), ("resource_id", .str "r"), ("state", .str "active"), ("effect", .str "allow"),
   ("can_read", .bool true), ("expires_at", .str expires)]

def keyLedger (expires : String) : Node :=
  hereNode.run [.putArtifact (keyDoc expires) true false]

theorem keyLedger_documented (expires : String) : Documented (keyLedger expires).db :=
  documented_run _ _ _ ⟨⟨rfl, fun _ hb => Val.noConfusion hb, .inr ⟨_, rfl⟩⟩, trivial⟩

def midway (v : Val) : Bool := v.eqStr "later"

def hashOf (token : String) : String := "hash of " ++ token

def holdsKey (expires : String) (accepted : Bool) : Bool :=
  (match grantAt (keyLedger expires).db "k" with
    | some d => (GrantEntity.ofDoc d).isOk && inForce midway d == accepted &&
        (d.get "grantee_type").eqStr granteeGrantKey && (d.get "grantee_id").eqStr "hash of agk_1"
    | none => false) &&
  match authenticateKey hashOf midway (keyLedger expires).db "agk_1" with
    | .ok (some r) => accepted && decide (r.id = "k")
    | .ok none => !accepted
    | .error _ => false

theorem key_doors_agree_later : KeyDoorsAgree hashOf midway (keyLedger "later").db "agk_1" "k" := by
  have h : holdsKey "later" true = true := by decide +kernel
  unfold holdsKey at h
  obtain ⟨hrow, hauth⟩ := Bool.and_eq_true_iff.mp h
  cases hd : grantAt (keyLedger "later").db "k" with
  | none =>
    rw [hd] at hrow
    cases hrow
  | some d =>
    rw [hd] at hrow
    simp only [Bool.and_eq_true, beq_iff_eq] at hrow
    obtain ⟨⟨⟨hroot, hforce⟩, hkey⟩, hhash⟩ := hrow
    cases hg : GrantEntity.ofDoc d with
    | error e =>
      rw [hg] at hroot
      cases hroot
    | ok root =>
      cases ho : authenticateKey hashOf midway (keyLedger "later").db "agk_1" with
      | error e =>
        rw [ho] at hauth
        cases hauth
      | ok o =>
        rw [ho] at hauth
        refine (key_doors_iff (keyLedger_documented _) (by decide) (by decide) hd hg (eqStr_iff.mp hkey)
          (eqStr_iff.mp hhash) ho ?_).mpr (.inl hforce)
        rintro r rfl
        simpa using hauth

def actingReads (expires : String) : Bool :=
  match grantsFor midway (keyLedger expires).db "k" granteeGrantKey with
  | .ok gs => keyAuthorizes gs "r" .read
  | .error _ => false

theorem expired_key_reaches : holdsKey "earlier" false = true ∧
    authenticateKey hashOf midway (keyLedger "earlier").db "agk_1" = .ok none ∧
    ¬KeyDoorsAgree hashOf midway (keyLedger "earlier").db "agk_1" "k" := by
  have hholds : holdsKey "earlier" false = true := by decide +kernel
  have hreads : actingReads "earlier" = true := by decide +kernel
  have hrefused : authenticateKey hashOf midway (keyLedger "earlier").db "agk_1" = .ok none := by
    have h := hholds
    unfold holdsKey at h
    obtain ⟨-, hauth⟩ := Bool.and_eq_true_iff.mp h
    split at hauth
    · cases hauth
    · assumption
    · cases hauth
  refine ⟨hholds, hrefused, fun hagree => ?_⟩
  unfold actingReads at hreads
  split at hreads
  · rename_i gs hgs
    exact hagree.refused hrefused "r" .read ⟨gs, hgs, hreads⟩
  · cases hreads

end Mantle
