import Mantle.Base.Copies
import Mantle.Access.Claim

/-!
# Mantle.Access.Revoke — operations on one grant that run side by side

What was read before a revocation still says active, and a write from it says so again.
-/

namespace Mantle

open Tx Run

variable {db : Store} {g : GrantAttrs} {gid : String}

inductive GrantOp
  /-- `DELETE /grants/{id}`, and the revocation of a key or of a bundle's member. -/
  | revoke (id user time : String)
  /-- `authenticate`, then `touch`. -/
  | touch (now : Val → Bool) (tokenHash time : String)
  | accept (id user time : String)
  /-- `claim_invite`, in what it does to the invite; `matched` is its `_verify_target_match`. -/
  | claim (now : Val → Bool) (tokenHash user time : String) (matched : GrantAttrs → Bool)
  /-- `reissue_invite`. -/
  | reissue (id tokenHash time : String)

/-- `get_grant_by_id`. -/
def grantById (db : Store) (id : String) : Option GrantAttrs :=
  (grantAt db id).bind fun d => (GrantAttrs.fromDict d).toOption

def authenticate (now : Val → Bool) (db : Store) (tokenHash : String) : Option GrantAttrs :=
  ((heldDocs now db tokenHash granteeGrantKey).mapM GrantAttrs.fromDict).toOption.bind List.head?

def GrantOp.read (db : Store) : GrantOp → Option GrantAttrs
  | .revoke id _ _ => grantById db id
  | .touch now tokenHash _ => authenticate now db tokenHash
  | .accept id user _ =>
    (grantById db id).filter fun g => (g "state").eqStr "pending_accept" && (g "grantee_id").eqStr user
  | .claim now tokenHash _ _ matched =>
    ((lookupActiveInvite now db tokenHash).bind fun g => (checkClaim matched g).map fun _ => g).toOption
  | .reissue id _ _ =>
    (grantById db id).filter fun g => (g "grantee_type").eqStr granteeInvite && (g "state").eqStr "active"

def GrantOp.writes (g : GrantAttrs) : GrantOp → Option GrantAttrs
  | .revoke _ user time =>
    some ((((g.set "state" (.str "revoked")).set "revoked_by" (.str user)).set "revoked_at" (.str time)).set
      "modified_time" (.str time))
  | .touch _ _ time => some (g.set "last_used_at" (.str time))
  | .accept _ user time =>
    some ((((g.set "state" (.str "active")).set "accepted_by" (.str user)).set "accepted_at" (.str time)).set
      "modified_time" (.str time))
  | .claim _ _ user time _ => (countedInvite g user time).toOption
  | .reissue _ tokenHash time =>
    some ((g.set "grantee_id" (.str tokenHash)).set "modified_time" (.str time))

def grantRules : CopyRules Node GrantAttrs GrantOp where
  read op n := op.read n.db
  write op g n := (op.writes g).bind fun g' =>
    match putGrant g' n with
    | .ok _ n' => some n'
    | .error _ _ => none

def CopyWrite.revokes (w : CopyWrite GrantAttrs GrantOp) : Bool :=
  match w.op with
  | .revoke _ _ _ => true
  | .claim _ _ _ _ _ => (w.copy "max_claims").eqInt 1
  | _ => false

def CopyWrite.Of (gid : String) (w : CopyWrite GrantAttrs GrantOp) : Prop := (w.copy "id").eqStr gid = true

/-- A revocation of the grant is among the writes. -/
def RevokedIn (gid : String) (ws : List (CopyWrite GrantAttrs GrantOp)) : Prop :=
  ∃ w ∈ ws, w.Of gid ∧ w.revokes = true

/-- The stored grant says this about its state. -/
def HasState (db : Store) (gid state : String) : Prop :=
  ∃ d, grantAt db gid = some d ∧ (d.get "state").eqStr state = true

/-- Once a revocation of the grant is written, it is not active. -/
def StaysRevoked (gid : String) (s : Copies Node GrantAttrs GrantOp) : Prop :=
  RevokedIn gid s.written → ¬HasState s.shared.db gid "active"

/-- A call that writes the grant read it after the last revocation of it, or revokes it itself. -/
def ReadSince (gid : String) (s : Copies Node GrantAttrs GrantOp) (e : CopyEvent GrantOp) : Prop :=
  ∀ h v, Copies.Writes grantRules s e h v → h.Of gid → RevokedIn gid h.since → h.revokes = true

/-! ### One operation -/

theorem HasState.unique {a b : String} (ha : HasState db gid a) (hb : HasState db gid b) : a = b := by
  obtain ⟨d, hd, ha⟩ := ha
  obtain ⟨d', hd', hb⟩ := hb
  rw [hd] at hd'
  cases hd'
  rw [eqStr_iff] at ha hb
  rw [ha] at hb
  exact Val.str.inj hb

/-- What an operation holds is a row of the store, past its check. -/
structure ReadFrom (db : Store) (op : GrantOp) (g : GrantAttrs) : Prop where
  row : ∃ id d, grantAt db id = some d ∧ GrantAttrs.fromDict d = .ok g
  checked : (CopyWrite.mk op g).revokes = true ∨ (g "state").eqStr "active" = true ∨
    (∃ id user time, op = .accept id user time) ∧ (g "state").eqStr "pending_accept" = true

theorem grantById_row {id : String} (h : grantById db id = some g) :
    ∃ d, grantAt db id = some d ∧ GrantAttrs.fromDict d = .ok g := storedInvite_eq.mp h

theorem state_of_inForce {now : Val → Bool} {d : Doc} (h : inForce now d = true)
    (hread : GrantAttrs.fromDict d = .ok g) : (g "state").eqStr "active" = true := by
  unfold inForce at h
  rw [Bool.and_eq_true] at h
  rw [fromDict_attr hread (by decide)]
  have hstate := eqStr_iff.mp h.1
  unfold Doc.get at hstate
  cases hf : d.find? "state" with
  | none =>
    rw [hf] at hstate
    cases hstate
  | some v =>
    rw [hf] at hstate
    simp only [Option.getD_some] at hstate ⊢
    exact eqStr_iff.mpr hstate

theorem GrantOp.read_from {op : GrantOp} (h : op.read db = some g) :
    ReadFrom db op g := by
  cases op with
  | revoke id user time =>
    obtain ⟨d, hd, hg⟩ := grantById_row h
    exact ⟨⟨id, d, hd, hg⟩, .inl rfl⟩
  | touch now tokenHash time =>
    obtain ⟨gs, hgs, hhead⟩ := Option.bind_eq_some_iff.mp h
    obtain ⟨d, hd, hread⟩ := (mapM_ok (ok_of_toOption hgs) g).mp (List.mem_of_head? hhead)
    obtain ⟨-, ⟨id, hid, -⟩, hforce, -⟩ := mem_heldDocs.mp hd
    exact ⟨⟨id, d, hid, hread⟩, .inr (.inl (state_of_inForce hforce hread))⟩
  | accept id user time =>
    obtain ⟨hg, hp⟩ := Option.filter_eq_some_iff.mp h
    obtain ⟨d, hd, hread⟩ := grantById_row hg
    rw [Bool.and_eq_true] at hp
    exact ⟨⟨id, d, hd, hread⟩, .inr (.inr ⟨⟨id, user, time, rfl⟩, hp.1⟩)⟩
  | claim now tokenHash user time matched =>
    obtain ⟨g', hlook, hcheck⟩ := bind_ok (ok_of_toOption h)
    obtain ⟨-, -, rfl⟩ := map_ok hcheck
    obtain ⟨d, hd, hread⟩ := lookupActiveInvite_ok hlook
    obtain ⟨-, ⟨id, hid, -⟩, hforce, -⟩ := mem_heldDocs.mp hd
    exact ⟨⟨id, d, hid, hread⟩, .inr (.inl (state_of_inForce hforce hread))⟩
  | reissue id tokenHash time =>
    obtain ⟨hg, hp⟩ := Option.filter_eq_some_iff.mp h
    obtain ⟨d, hd, hread⟩ := grantById_row hg
    rw [Bool.and_eq_true] at hp
    exact ⟨⟨id, d, hd, hread⟩, .inr (.inl hp.2)⟩

theorem GrantOp.writes_state {op : GrantOp} {g' : GrantAttrs} (h : op.writes g = some g')
    (hc : (CopyWrite.mk op g).revokes = true ∨ (g "state").eqStr "active" = true ∨
      (∃ id user time, op = .accept id user time) ∧ (g "state").eqStr "pending_accept" = true) :
    g' "id" = g "id" ∧
      g' "state" = .str (if (CopyWrite.mk op g).revokes then "revoked" else "active") := by
  cases op with
  | revoke id user time =>
    cases h
    exact ⟨rfl, rfl⟩
  | touch now tokenHash time =>
    cases h
    refine ⟨rfl, ?_⟩
    rcases hc with hc | hc | ⟨⟨_, _, _, hop⟩, -⟩
    · cases hc
    · exact eqStr_iff.mp hc
    · cases hop
  | accept id user time =>
    cases h
    exact ⟨rfl, rfl⟩
  | claim now tokenHash user time matched =>
    have hcount := ok_of_toOption h
    unfold countedInvite at hcount
    cases hz : (g "claims_count").asInt with
    | none =>
      rw [hz] at hcount
      cases hcount
    | some c =>
      rw [hz] at hcount
      simp only [Except.ok.injEq] at hcount
      subst hcount
      cases hm : (g "max_claims").eqInt 1 with
      | true =>
        have hrev : (CopyWrite.mk (GrantOp.claim now tokenHash user time matched) g).revokes = true := hm
        rw [if_pos rfl, hrev]
        exact ⟨rfl, rfl⟩
      | false =>
        have hrev : (CopyWrite.mk (GrantOp.claim now tokenHash user time matched) g).revokes = false := hm
        rw [if_neg (by simp), hrev]
        refine ⟨rfl, ?_⟩
        rcases hc with hc | hc | ⟨⟨_, _, _, hop⟩, -⟩
        · rw [hrev] at hc
          cases hc
        · exact eqStr_iff.mp hc
        · cases hop
  | reissue id tokenHash time =>
    cases h
    refine ⟨rfl, ?_⟩
    rcases hc with hc | hc | ⟨⟨_, _, _, hop⟩, -⟩
    · cases hc
    · exact eqStr_iff.mp hc
    · cases hop

/-- What a write leaves: the row of the grant it is of, in one of two states, and every other row. -/
structure Rewritten (w : CopyWrite GrantAttrs GrantOp) (n n' : Node) : Prop where
  outside : n'.inTxn = false
  row : ∃ id, w.copy "id" = .str id ∧ HasState n'.db id (if w.revokes then "revoked" else "active") ∧
    (GrantsNamed n.db → GrantsNamed n'.db) ∧ ∀ id', id' ≠ id → grantAt n'.db id' = grantAt n.db id'

theorem grantRules_write {op : GrantOp} {n n' : Node} (hi : n.inTxn = false)
    (hc : (CopyWrite.mk op g).revokes = true ∨ (g "state").eqStr "active" = true ∨
      (∃ id user time, op = .accept id user time) ∧ (g "state").eqStr "pending_accept" = true)
    (h : grantRules.write op g n = some n') : Rewritten ⟨op, g⟩ n n' := by
  obtain ⟨g', hg', hput⟩ := Option.bind_eq_some_iff.mp h
  obtain ⟨hid, hstate⟩ := GrantOp.writes_state hg' hc
  cases hp : putGrant g' n with
  | error e m =>
    rw [hp] at hput
    cases hput
  | ok d m =>
    rw [hp] at hput
    cases hput
    obtain ⟨⟨id, hidg, hst⟩, hin⟩ := (putGrant_tables g' hi).ok hp
    refine ⟨hin, id, hid.symm.trans hidg, ?_, hst.named hidg, fun id' hne => ?_⟩
    · obtain ⟨row, hrow, hfields⟩ := hst.row
      refine ⟨row, hrow, ?_⟩
      unfold Doc.get
      rw [hfields "state" (by decide) (by decide), GrantAttrs.toDoc_find? g' (by decide), hstate]
      simp [Val.isNone, Val.norm, Val.eqStr]
    · unfold grantAt
      rw [hst.others id' hne]

/-! ### Runs -/

/-- A copy of the grant read after a revocation says revoked, and what was written since was written. -/
structure CopyAged (gid : String) (written : List (CopyWrite GrantAttrs GrantOp))
    (h : CopyHeld GrantAttrs GrantOp) : Prop where
  checked : h.revokes = true ∨ (h.copy "state").eqStr "active" = true ∨
    (∃ id user time, h.op = .accept id user time) ∧ (h.copy "state").eqStr "pending_accept" = true
  since : ∀ w ∈ h.since, w ∈ written
  fresh : h.Of gid → RevokedIn gid written → RevokedIn gid h.since ∨ (h.copy "state").eqStr "revoked" = true

structure RevokeSound (gid : String) (s : Copies Node GrantAttrs GrantOp) : Prop where
  outside : s.shared.inTxn = false
  named : GrantsNamed s.shared.db
  held : s.Holds fun _ written h => CopyAged gid written h
  revoked : RevokedIn gid s.written → HasState s.shared.db gid "revoked"

theorem revokedIn_cons {w : CopyWrite GrantAttrs GrantOp} {ws : List (CopyWrite GrantAttrs GrantOp)} :
    RevokedIn gid (w :: ws) ↔ (w.Of gid ∧ w.revokes = true) ∨ RevokedIn gid ws := by
  simp [RevokedIn]

variable {h : CopyHeld GrantAttrs GrantOp}

section Step

variable {gid : String} {s : Copies Node GrantAttrs GrantOp} {e : CopyEvent GrantOp}

theorem CopyAged.not_revoked {written : List (CopyWrite GrantAttrs GrantOp)} (ha : CopyAged gid written h)
    (hr : h.revokes = false) : (h.copy "state").eqStr "revoked" = false := by
  rcases ha.checked with hc | hc | ⟨-, hc⟩
  · rw [hr] at hc
    cases hc
  · rw [eqStr_iff.mp hc]
    decide
  · rw [eqStr_iff.mp hc]
    decide

theorem RevokeSound.rewritten (hs : RevokeSound gid s) {v : Node} (hw : Copies.Writes grantRules s e h v) :
    Rewritten h.toCopyWrite s.shared v := by
  obtain ⟨i, -, hi, hv⟩ := hw
  exact grantRules_write hs.outside (hs.held i h hi).checked hv

theorem RevokeSound.state (hs : RevokeSound gid s) {v : Node} (hw : Copies.Writes grantRules s e h v) :
    (h.Of gid ∧ HasState v.db gid (if h.revokes then "revoked" else "active")) ∨
      (¬h.Of gid ∧ grantAt v.db gid = grantAt s.shared.db gid) := by
  obtain ⟨-, id, hid, hstate, -, hothers⟩ := hs.rewritten hw
  by_cases hg : gid = id
  · subst hg
    exact .inl ⟨eqStr_iff.mpr hid, hstate⟩
  · refine .inr ⟨fun hof => hg ?_, hothers gid hg⟩
    have := eqStr_iff.mp hof
    rw [hid] at this
    exact (Val.str.inj this).symm

/-- **One step**: the grant stays revoked exactly when the call that writes read it since, or revokes it. -/
theorem staysRevoked_iff (hs : RevokeSound gid s) : StaysRevoked gid (s.step grantRules e) ↔ ReadSince gid s e := by
  rcases Copies.step_cases grantRules s e with ⟨h, v, hw⟩ | ⟨hshared, hwritten, hno⟩
  · obtain ⟨hshared, hwritten⟩ := Copies.step_shared_of_writes hw
    have hone : ReadSince gid s e ↔ (h.Of gid → RevokedIn gid h.since → h.revokes = true) := by
      refine ⟨fun hr => hr h v hw, fun hr h' v' hw' => ?_⟩
      obtain ⟨i, rfl, hi, -⟩ := hw
      obtain ⟨j, heq, hj, -⟩ := hw'
      cases heq
      rw [hi] at hj
      cases hj
      exact hr
    obtain ⟨i, -, hi, -⟩ := id hw
    have haged := hs.held i h hi
    unfold StaysRevoked
    rw [hone, hshared, hwritten, revokedIn_cons]
    rcases hs.state hw with ⟨hof, hstate⟩ | ⟨hnot, hsame⟩
    · cases hr : h.revokes with
      | true =>
        rw [hr] at hstate
        refine iff_of_true (fun _ hactive => ?_) (fun _ _ => rfl)
        exact absurd (HasState.unique hstate hactive) (by decide)
      | false =>
        rw [hr] at hstate
        constructor
        · intro hstay _ hsince
          obtain ⟨w, hwmem, hwof⟩ := hsince
          exact absurd hstate (hstay (.inr ⟨w, haged.since w hwmem, hwof⟩))
        · rintro hkeep (⟨-, hrev⟩ | hrev) -
          · cases hrev
          · rcases haged.fresh hof hrev with hsince | hcopy
            · exact absurd (hkeep hof hsince) (by simp)
            · rw [haged.not_revoked hr] at hcopy
              cases hcopy
    · refine iff_of_true ?_ fun hof => absurd hof hnot
      rintro (⟨hof, -⟩ | hrev)
      · exact absurd hof hnot
      · rintro ⟨d, hd, hactive⟩
        exact absurd (HasState.unique (hs.revoked hrev) ⟨d, hsame ▸ hd, hactive⟩) (by decide)
  · refine iff_of_true ?_ fun h v hw => absurd hw (hno h v)
    intro hrev hactive
    rw [hwritten] at hrev
    rw [hshared] at hactive
    exact absurd (HasState.unique (hs.revoked hrev) hactive) (by decide)

/-- **One step** keeps what the copies say, while the grant stays revoked. -/
theorem RevokeSound.step (hs : RevokeSound gid s) (hstay : StaysRevoked gid (s.step grantRules e)) :
    RevokeSound gid (s.step grantRules e) := by
  have hheld : (s.step grantRules e).Holds fun _ written h => CopyAged gid written h := by
    refine Copies.Holds.step hs.held ?_ ?_
    · intro op c hread
      have hfrom := GrantOp.read_from hread
      refine ⟨hfrom.checked, by simp, fun hof hrev => .inr ?_⟩
      obtain ⟨id, d, hd, hg⟩ := hfrom.row
      obtain ⟨d', hd', hstate⟩ := hs.revoked hrev
      have hid : id = gid := by
        have hcopy : c "id" = .str gid := eqStr_iff.mp hof
        rw [fromDict_attr hg (by decide), find_of_eqStr (eqStr_iff.mpr (hs.named id d hd))] at hcopy
        exact Val.str.inj hcopy
      rw [hid, hd'] at hd
      cases hd
      change (c "state").eqStr "revoked" = true
      rw [fromDict_attr hg (by decide), find_of_eqStr hstate]
      exact eqStr_iff.mpr rfl
    · intro h v h₀ hw ha ha₀
      refine ⟨ha₀.checked, ?_, fun hof hrev => ?_⟩
      · intro w hw
        rcases List.mem_cons.mp hw with rfl | hw
        · exact List.mem_cons_self
        · exact List.mem_cons_of_mem _ (ha₀.since w hw)
      · rcases revokedIn_cons.mp hrev with hnew | hold
        · exact .inl (revokedIn_cons.mpr (.inl hnew))
        · exact (ha₀.fresh hof hold).imp_left fun h => revokedIn_cons.mpr (.inr h)
  rcases Copies.step_cases grantRules s e with ⟨h, v, hw⟩ | ⟨hshared, hwritten, -⟩
  · obtain ⟨hshared, hwritten⟩ := Copies.step_shared_of_writes hw
    obtain ⟨hout, id, hid, -, hnamed, -⟩ := hs.rewritten hw
    refine ⟨hshared ▸ hout, hshared ▸ hnamed hs.named, hheld, fun hrev => ?_⟩
    rw [hshared]
    have hactive := hstay hrev
    rw [hshared] at hactive
    rw [hwritten, revokedIn_cons] at hrev
    rcases hs.state hw with ⟨hof, hstate⟩ | ⟨hnot, hsame⟩
    · cases hr : h.revokes with
      | true =>
        rw [hr] at hstate
        exact hstate
      | false =>
        rw [hr] at hstate
        exact absurd hstate hactive
    · obtain ⟨d, hd, hstate⟩ := hs.revoked (hrev.resolve_left fun hnew => hnot hnew.1)
      exact ⟨d, hsame ▸ hd, hstate⟩
  · refine ⟨hshared ▸ hs.outside, hshared ▸ hs.named, hheld, fun hrev => ?_⟩
    rw [hshared]
    exact hs.revoked (hwritten ▸ hrev)

end Step

theorem RevokeSound.start {n : Node} (hi : n.inTxn = false) (hn : GrantsNamed n.db) :
    RevokeSound gid (.start n) :=
  ⟨hi, hn, Copies.holds_start n, fun ⟨_, hw, _⟩ => nomatch hw⟩

/-- **Revoked stays revoked** exactly when every call that writes the grant read it since, or revokes it itself. -/
theorem revoked_stays_iff (n : Node) (hi : n.inTxn = false) (hn : GrantsNamed n.db) (gid : String)
    (events : List (CopyEvent GrantOp)) :
    Along (Copies.step grantRules) (fun s e => StaysRevoked gid (s.step grantRules e)) (.start n) events ↔
      Along (Copies.step grantRules) (ReadSince gid) (.start n) events := by
  have hstep : ∀ (s : Copies Node GrantAttrs GrantOp) (e : CopyEvent GrantOp), RevokeSound gid s →
      StaysRevoked gid (s.step grantRules e) → RevokeSound gid (s.step grantRules e) :=
    fun _ _ hs hstay => hs.step hstay
  have hiff : ∀ (s : Copies Node GrantAttrs GrantOp) (e : CopyEvent GrantOp), RevokeSound gid s →
      (StaysRevoked gid (s.step grantRules e) ↔ ReadSince gid s e) := fun _ _ hs => staysRevoked_iff hs
  exact along_congr hiff hstep events (.start n) (RevokeSound.start hi hn)

/-! ### A key that is used while it is revoked -/

def grantKeyNode : Node :=
  hereNode.run
    [.putArtifact ([("id", .str "k"), ("content_type", .str grantContentType), ("grantee_type", .str "grant_key"),
      ("grantee_id", .str "hash"), ("resource_id", .str "r"), ("state", .str "active"), ("effect", .str "allow")])
      true false]

def useKey : GrantOp := .touch (fun _ => true) "hash" "t"

def revokeKey : GrantOp := .revoke "k" "u" "t"

def usedWhileRevoked : List (CopyEvent GrantOp) := [.read 0 useKey, .read 1 revokeKey, .write 1, .write 0]

theorem grantKeyNode_named : GrantsNamed grantKeyNode.db := grantsNamed_of_all (by decide +kernel)

def hasState (db : Store) (gid state : String) : Bool :=
  (grantAt db gid).any fun d => (d.get "state").eqStr state

theorem hasState_iff {state : String} : hasState db gid state = true ↔ HasState db gid state := by
  unfold hasState HasState
  cases grantAt db gid <;> simp

theorem revokedIn_of_any {ws : List (CopyWrite GrantAttrs GrantOp)}
    (h : ws.any (fun w => (w.copy "id").eqStr gid && w.revokes) = true) : RevokedIn gid ws := by
  obtain ⟨w, hw, hof⟩ := List.any_eq_true.mp h
  exact ⟨w, hw, (Bool.and_eq_true _ _).mp hof⟩

theorem revoked_stays_alone : Along (Copies.step grantRules) (fun s e => StaysRevoked "k" (s.step grantRules e))
    (.start grantKeyNode) [.read 1 revokeKey, .write 1] := by
  refine (revoked_stays_iff grantKeyNode (by decide +kernel) grantKeyNode_named "k" [.read 1 revokeKey, .write 1]).mpr
    ⟨?_, ?_, trivial⟩
  · rintro h v ⟨i, he, -⟩
    cases he
  · -- the one copy there is was read just before
    rintro h v ⟨i, -, hi, -⟩ - hsince
    rcases Copies.held_step hi with ⟨op, c, -, -, rfl⟩ | ⟨hnone, -⟩ | ⟨_, _, _, ⟨_, he, -⟩, -⟩
    · obtain ⟨w, hw, -⟩ := hsince
      cases hw
    · cases hnone
    · cases he

theorem key_restored : ¬∀ (n : Node) (gid : String) (events : List (CopyEvent GrantOp)), n.inTxn = false →
    GrantsNamed n.db → Along (Copies.step grantRules) (fun s e => StaysRevoked gid (s.step grantRules e))
      (.start n) events := by
  intro h
  have halong := h grantKeyNode "k" usedWhileRevoked (by decide +kernel) grantKeyNode_named
  have hlast := halong.2.2.2.1
  refine hlast (revokedIn_of_any (by decide +kernel)) (hasState_iff.mp (by decide +kernel))

end Mantle
