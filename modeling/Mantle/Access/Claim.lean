import Mantle.Access.Mint

/-!
# Mantle.Access.Claim — claims of one invite that run side by side

`claim_invite` reads the invite, stores the user grant and writes the invite back, and nothing holds these
together.  `Claims` is a store with any number of such calls in it.
-/

namespace Mantle

open Tx

variable {db db' : Store} {g : GrantAttrs} {i : ℕ} {id inv : String}

/-- What a call is made with; `matched` is its `_verify_target_match`. -/
structure ClaimArgs where
  tokenHash : String
  user : String
  time : String
  matched : GrantAttrs → Bool

/-- Where a call is, with the invite as it read it. -/
inductive ClaimPhase
  | idle
  | found (invite : GrantAttrs)
  | checked (invite : GrantAttrs)
  | created (invite : GrantAttrs)
  | ended

/-- The store, the calls, and the invites grants were created from so far. -/
structure Claims where
  node : Node
  phase : ℕ → ClaimPhase
  made : List GrantAttrs

inductive ClaimEvent
  | look (i : ℕ) (now : Val → Bool)
  | check (i : ℕ)
  /-- The id is a fresh uuid. -/
  | create (i : ℕ) (id : String)
  | update (i : ℕ)
  /-- The call raises, or its process is gone. -/
  | fail (i : ℕ)

namespace Claims

def moved (s : Claims) (i : ℕ) (p : ClaimPhase) : Claims := { s with phase := Function.update s.phase i p }

variable (args : ℕ → ClaimArgs)

def step (s : Claims) : ClaimEvent → Claims
  | .look i now =>
    match s.phase i with
    | .idle =>
      match lookupActiveInvite now s.node.db (args i).tokenHash with
      | .ok invite => s.moved i (.found invite)
      | .error _ => s.moved i .ended
    | _ => s
  | .check i =>
    match s.phase i with
    | .found invite =>
      match checkClaim (args i).matched invite with
      | .ok _ => s.moved i (.checked invite)
      | .error _ => s.moved i .ended
    | _ => s
  | .create i id =>
    match s.phase i with
    | .checked invite =>
      if (s.node.db.vertex.lookup id).isSome then s
      else
        match putGrant (claimedGrant invite id (args i).user (args i).time) s.node with
        | .ok _ n => { s.moved i (.created invite) with node := n, made := s.made ++ [invite] }
        | .error _ n => { s.moved i .ended with node := n }
    | _ => s
  | .update i =>
    match s.phase i with
    | .created invite =>
      match countedInvite invite (args i).user (args i).time with
      | .error _ => s.moved i .ended
      | .ok g =>
        match putGrant g s.node with
        | .ok _ n => { s.moved i .ended with node := n }
        | .error _ n => { s.moved i .ended with node := n }
    | _ => s
  | .fail i => s.moved i .ended

def run (s : Claims) (events : List ClaimEvent) : Claims := events.foldl (step args) s

end Claims

/-! ### The invite in the store -/

def storedInvite (db : Store) (inv : String) : Option GrantAttrs :=
  (grantAt db inv).bind fun d => (GrantAttrs.fromDict d).toOption

def ofInvite (inv : String) (g : GrantAttrs) : Bool := (g "id").eqStr inv

/-- How many grants were made from it. -/
def Claims.count (s : Claims) (inv : String) : ℕ := s.made.countP (ofInvite inv)

/-- The call stands between its create and its update, on this invite. -/
def ClaimPhase.Between (inv : String) : ClaimPhase → Prop
  | .created invite => ofInvite inv invite = true
  | _ => False

def ClaimPhase.invite : ClaimPhase → Option GrantAttrs
  | .found g => some g
  | .checked g => some g
  | .created g => some g
  | _ => none

def ClaimPhase.accepted : ClaimPhase → Option GrantAttrs
  | .checked g => some g
  | _ => none

theorem accepted_some {p : ClaimPhase} {g : GrantAttrs} (h : p.accepted = some g) : p = .checked g := by
  cases p with
  | checked g' =>
    cases h
    rfl
  | _ => cases h

/-- One step: a call stores its grant on the count it read, no other call stands between its create and its update, and
it writes the invite back. -/
def Claims.Meets (inv : String) (args : ℕ → ClaimArgs) (s : Claims) : ClaimEvent → Prop
  | .create i _ => ∀ invite, s.phase i = .checked invite → ofInvite inv invite = true →
      (∃ g, storedInvite s.node.db inv = some g ∧ g "claims_count" = invite "claims_count") ∧
      ∀ j, ¬(s.phase j).Between inv
  | .update i => ∀ invite g, s.phase i = .created invite → ofInvite inv invite = true →
      countedInvite invite (args i).user (args i).time = .ok g → ∃ d n, putGrant g s.node = .ok d n
  | .fail i => ¬(s.phase i).Between inv
  | _ => True

def Claims.RunMeets (inv : String) (args : ℕ → ClaimArgs) : Claims → List ClaimEvent → Prop
  | _, [] => True
  | s, e :: events => s.Meets inv args e ∧ (s.step args e).RunMeets inv args events

def GrantsNamed (db : Store) : Prop := ∀ id d, grantAt db id = some d → d.get "id" = .str id

/-- What holds along the run: `n` is the invite's limit.  While a call stands between, the store is one behind. -/
structure Claims.Sound (inv : String) (n : ℕ) (s : Claims) : Prop where
  outside : s.node.inTxn = false
  named : GrantsNamed s.node.db
  read : ∀ i g, (s.phase i).invite = some g → ofInvite inv g = true →
    g "max_claims" = .int n ∧ (∃ c, g "claims_count" = .int c) ∧ ∃ e, g "effect" = .str e
  below : ∀ i g c, s.phase i = .checked g → ofInvite inv g = true → g "claims_count" = .int c → c < n
  bound : s.count inv ≤ n
  stored : ∃ g c, storedInvite s.node.db inv = some g ∧ g "max_claims" = .int n ∧ g "claims_count" = .int c ∧
    (((∀ j, ¬(s.phase j).Between inv) ∧ c = s.count inv) ∨
      ∃ i invite, s.phase i = .created invite ∧ ofInvite inv invite = true ∧
        (∀ j, (s.phase j).Between inv → j = i) ∧ invite "claims_count" = .int c ∧ c + 1 = s.count inv)

/-! ### Reading and writing the invite -/

theorem storedInvite_eq : storedInvite db inv = some g ↔
    ∃ d, grantAt db inv = some d ∧ GrantAttrs.fromDict d = .ok g := by
  unfold storedInvite
  rw [Option.bind_eq_some_iff]
  constructor
  · rintro ⟨d, hd, hg⟩
    refine ⟨d, hd, ?_⟩
    cases hf : GrantAttrs.fromDict d with
    | error e =>
      rw [hf] at hg
      cases hg
    | ok g' =>
      rw [hf] at hg
      cases hg
      rfl
  · rintro ⟨d, hd, hg⟩
    exact ⟨d, hd, by rw [hg]; rfl⟩

theorem fromDict_effect {d : Doc} (h : GrantAttrs.fromDict d = .ok g) :
    ∃ e, g "effect" = .str e := by
  obtain ⟨effect, -, rfl⟩ := map_ok h
  exact ⟨effect, by simp⟩

theorem lookup_stored {now : Val → Bool} (hn : GrantsNamed db) {tokenHash : String}
    (h : lookupActiveInvite now db tokenHash = .ok g) (hg : ofInvite inv g = true) :
    storedInvite db inv = some g := by
  obtain ⟨d, hd, hread⟩ := lookupActiveInvite_ok h
  obtain ⟨-, ⟨id, hid, -⟩, -⟩ := mem_heldDocs.mp hd
  have hval : g "id" = .str id := by
    rw [fromDict_attr hread (by decide), find_of_eqStr (eqStr_iff.mpr (hn id d hid))]
  have : id = inv := by
    unfold ofInvite at hg
    rw [hval] at hg
    simpa [Val.eqStr] using hg
  exact storedInvite_eq.mpr ⟨d, this ▸ hid, hread⟩

theorem GrantStored.storedInvite_other (h : GrantStored g id db db') (hne : inv ≠ id) :
    storedInvite db' inv = storedInvite db inv := by
  unfold storedInvite grantAt
  rw [h.others inv hne]

theorem GrantStored.named (h : GrantStored g id db db') (hg : g "id" = .str id) (hn : GrantsNamed db) :
    GrantsNamed db' := by
  intro id' d hd
  by_cases hid : id' = id
  · subst hid
    obtain ⟨d', hd', hfields⟩ := h.row
    rw [hd] at hd'
    cases hd'
    unfold Doc.get
    rw [hfields "id" (by decide) (by decide), GrantAttrs.toDoc_find? g (by decide), hg]
    rfl
  · refine hn id' d ?_
    unfold grantAt at hd ⊢
    rwa [h.others id' hid] at hd

theorem GrantStored.storedInvite_self (h : GrantStored g inv db db') {e : String} (heff : g "effect" = .str e) :
    ∃ g', storedInvite db' inv = some g' ∧ ∀ k ∈ grantFields, k ≠ "created_time" → k ≠ "effect" →
      g' k = if (g k).isNone then grantDefault k else (g k).norm := by
  obtain ⟨d, hd, hfields⟩ := h.row
  have hread : ∃ g', GrantAttrs.fromDict d = .ok g' := by
    unfold GrantAttrs.fromDict
    rw [hfields "effect" (by decide) (by decide), GrantAttrs.toDoc_find? g (by decide), heff]
    exact ⟨_, rfl⟩
  obtain ⟨g', hg'⟩ := hread
  refine ⟨g', storedInvite_eq.mpr ⟨d, hd, hg'⟩, ?_⟩
  intro k hk hk1 hk2
  rw [fromDict_attr hg' hk2, hfields k hk hk1, GrantAttrs.toDoc_find? g hk]
  cases hn : (g k).isNone <;> rfl

theorem storedInvite_sameTables (h : SameTables db db') (inv : String) :
    storedInvite db' inv = storedInvite db inv := by
  unfold storedInvite grantAt
  rw [h.vertex]

theorem GrantsNamed.sameTables (hn : GrantsNamed db) (h : SameTables db db') :
    GrantsNamed db' := by
  intro id d hd
  refine hn id d ?_
  unfold grantAt at hd ⊢
  rwa [h.vertex] at hd

/-! ### One step -/

section Step

variable {inv : String} {n : ℕ} {s : Claims} {args : ℕ → ClaimArgs}

theorem Claims.Sound.moved (h : s.Sound inv n) {i : ℕ} {p : ClaimPhase} (hold : ¬(s.phase i).Between inv)
    (hnew : ¬p.Between inv)
    (hread : ∀ g, p.invite = some g → ofInvite inv g = true →
      g "max_claims" = .int n ∧ (∃ c, g "claims_count" = .int c) ∧ ∃ e, g "effect" = .str e)
    (hbelow : ∀ g c, p = .checked g → ofInvite inv g = true → g "claims_count" = .int c → c < n) :
    (s.moved i p).Sound inv n := by
  have hphase : ∀ j, (s.moved i p).phase j = if j = i then p else s.phase j := by
    intro j
    simp [Claims.moved, Function.update_apply]
  have hbetween : ∀ j, ((s.moved i p).phase j).Between inv ↔ (s.phase j).Between inv := by
    intro j
    rw [hphase]
    split_ifs with hj
    · subst hj
      exact ⟨fun hb => absurd hb hnew, fun hb => absurd hb hold⟩
    · rfl
  refine ⟨h.outside, h.named, ?_, ?_, h.bound, ?_⟩
  · intro j g hg
    rw [hphase] at hg
    split_ifs at hg
    · exact hread g hg
    · exact h.read j g hg
  · intro j g c hg
    rw [hphase] at hg
    split_ifs at hg
    · exact hbelow g c hg
    · exact h.below j g c hg
  · obtain ⟨g, c, hst, hmax, hcount, hcase⟩ := h.stored
    refine ⟨g, c, hst, hmax, hcount, ?_⟩
    rcases hcase with ⟨hnone, hc⟩ | ⟨k, invite, hk, hof, honly, hinv, hc⟩
    · exact .inl ⟨fun j hb => hnone j ((hbetween j).mp hb), hc⟩
    · refine .inr ⟨k, invite, ?_, hof, fun j hb => honly j ((hbetween j).mp hb), hinv, hc⟩
      rw [hphase, if_neg]
      · exact hk
      · rintro rfl
        exact hold (by rw [hk]; exact hof)

theorem Claims.Sound.of_node (h : s.Sound inv n) {m : Node} (hi : m.inTxn = false) (hn : GrantsNamed m.db)
    (hst : storedInvite m.db inv = storedInvite s.node.db inv) : ({ s with node := m } : Claims).Sound inv n where
  outside := hi
  named := hn
  read := h.read
  below := h.below
  bound := h.bound
  stored := by
    obtain ⟨g, c, hg, hrest⟩ := h.stored
    exact ⟨g, c, hst.trans hg, hrest⟩

theorem not_between_of_ne {p : ClaimPhase} (h : ∀ g, p = .created g → ofInvite inv g = false) : ¬p.Between inv := by
  cases p with
  | created g => simp [ClaimPhase.Between, h g rfl]
  | _ => exact id

theorem Claims.Sound.look (h : s.Sound inv n) (i : ℕ) (now : Val → Bool) :
    (s.step args (.look i now)).Sound inv n := by
  unfold Claims.step
  dsimp only
  split
  · rename_i hidle
    have hold : ¬(s.phase i).Between inv := by simp [hidle, ClaimPhase.Between]
    split
    · rename_i invite hlook
      refine h.moved hold (fun hb => hb) ?_ (fun _ _ hp => (nomatch hp))
      intro g hg hof
      cases hg
      -- it read the invite as it is stored
      obtain ⟨g', c, hst, hmax, hcount, -⟩ := h.stored
      have := lookup_stored h.named hlook hof
      rw [this] at hst
      cases hst
      obtain ⟨d, -, hread⟩ := storedInvite_eq.mp this
      exact ⟨hmax, ⟨c, hcount⟩, fromDict_effect hread⟩
    · exact h.moved hold (fun hb => hb) (fun _ hg => (nomatch hg)) (fun _ _ hp => (nomatch hp))
  · exact h

theorem checkClaim_ok {matched : GrantAttrs → Bool} {u : Unit} (h : checkClaim matched invite = .ok u) :
    atLimit invite = .ok false := by
  unfold checkClaim at h
  split_ifs at h
  split at h
  · cases h
  · cases h
  · assumption

theorem Claims.Sound.check (h : s.Sound inv n) (i : ℕ) : (s.step args (.check i)).Sound inv n := by
  unfold Claims.step
  dsimp only
  split
  · rename_i invite hfound
    have hold : ¬(s.phase i).Between inv := by simp [hfound, ClaimPhase.Between]
    have hread := h.read i invite (by rw [hfound]; rfl)
    split
    · rename_i hok
      refine h.moved hold (fun hb => hb) ?_ ?_
      · intro g hg hof
        cases hg
        exact hread hof
      · intro g c hg hof hc
        cases hg
        have hlim := checkClaim_ok hok
        unfold atLimit at hlim
        rw [(hread hof).1, hc] at hlim
        simp only [Val.isNone, Bool.false_eq_true, if_false, Val.asInt_int, Except.ok.injEq, decide_eq_false_iff_not,
          not_le] at hlim
        exact hlim
    · exact h.moved hold (fun hb => hb) (fun _ hg => by cases hg) fun _ _ hp => by cases hp
  · exact h

theorem Claims.Sound.fail (h : s.Sound inv n) {i : ℕ} (hm : s.Meets inv args (.fail i)) :
    (s.step args (.fail i)).Sound inv n :=
  h.moved hm (fun hb => hb) (fun _ hg => (nomatch hg)) (fun _ _ hp => (nomatch hp))

theorem Claims.Sound.create (h : s.Sound inv n) {i : ℕ} {id : String} (hm : s.Meets inv args (.create i id)) :
    (s.step args (.create i id)).Sound inv n := by
  unfold Claims.step
  dsimp only
  split
  · rename_i invite hchecked
    have hold : ¬(s.phase i).Between inv := by simp [hchecked, ClaimPhase.Between]
    split_ifs with hfresh
    · exact h
    · -- the new row is not the invite's
      have hne : inv ≠ id := by
        rintro rfl
        obtain ⟨g, c, hst, -⟩ := h.stored
        obtain ⟨d, hd, -⟩ := storedInvite_eq.mp hst
        obtain ⟨row, hrow, -⟩ := Option.bind_eq_some_iff.mp hd
        rw [hrow] at hfresh
        exact hfresh rfl
      have hput := putGrant_tables (claimedGrant invite id (args i).user (args i).time) h.outside
      split
      · rename_i d m hok
        obtain ⟨⟨id', hid', hst⟩, hi⟩ := hput.ok hok
        cases hid'
        have hkept := hst.storedInvite_other hne
        have hnamed := hst.named rfl h.named
        cases hof : ofInvite inv invite with
        | false =>
          have hmoved := (h.moved (p := .created invite) hold (not_between_of_ne fun g hg => by cases hg; exact hof)
            (fun g hg hg' => by cases hg; rw [hof] at hg'; cases hg') (fun _ _ hp => (nomatch hp))).of_node
            hi hnamed hkept
          have hcount : (s.made ++ [invite]).countP (ofInvite inv) = s.made.countP (ofInvite inv) := by
            simp [List.countP_append, hof]
          refine ⟨hi, hnamed, hmoved.read, hmoved.below, ?_, ?_⟩
          · change (s.made ++ [invite]).countP (ofInvite inv) ≤ n
            rw [hcount]
            exact h.bound
          · obtain ⟨g, c, hg⟩ := hmoved.stored
            refine ⟨g, c, ?_⟩
            unfold Claims.count at hg ⊢
            rw [hcount]
            exact hg
        | true =>
          obtain ⟨⟨g, hg, hsame⟩, hnone⟩ := hm invite hchecked hof
          obtain ⟨g', c, hg', hmax, hc, hcase⟩ := h.stored
          rw [hg] at hg'
          cases hg'
          have hcount : (c : ℤ) = s.count inv := by
            rcases hcase with ⟨-, hc'⟩ | ⟨j, g', hj, hof', -⟩
            · exact hc'
            · exact absurd (by rw [hj]; exact hof') (hnone j)
          have hinvite : invite "claims_count" = .int c := by rw [← hsame, hc]
          have hlt := h.below i invite c hchecked hof hinvite
          have hmore : (s.made ++ [invite]).countP (ofInvite inv) = s.count inv + 1 := by
            simp [Claims.count, List.countP_append, hof]
          have hphase : ∀ j, (s.moved i (.created invite)).phase j =
              if j = i then .created invite else s.phase j := by
            intro j
            simp [Claims.moved, Function.update_apply]
          refine ⟨hi, hnamed, ?_, ?_, ?_, g, c, ?_⟩
          · intro j g' hj
            change ((s.moved i (.created invite)).phase j).invite = some g' at hj
            rw [hphase] at hj
            split_ifs at hj
            · cases hj
              exact h.read i invite (by rw [hchecked]; rfl)
            · exact h.read j g' hj
          · intro j g' c' hj
            change (s.moved i (.created invite)).phase j = _ at hj
            rw [hphase] at hj
            split_ifs at hj
            exact h.below j g' c' hj
          · change (s.made ++ [invite]).countP (ofInvite inv) ≤ n
            rw [hmore]
            omega
          · refine ⟨hkept.trans hg, hmax, hc, .inr ⟨i, invite, ?_, hof, ?_, hinvite, ?_⟩⟩
            · change (s.moved i (.created invite)).phase i = _
              rw [hphase, if_pos rfl]
            · intro j hj
              change ((s.moved i (.created invite)).phase j).Between inv at hj
              rw [hphase] at hj
              split_ifs at hj with hji
              · exact hji
              · exact absurd hj (hnone j)
            · change c + 1 = (((s.made ++ [invite]).countP (ofInvite inv) : ℕ) : ℤ)
              rw [hmore, hcount]
              push_cast
              rfl
      · rename_i e m herr
        obtain ⟨hsame, hi⟩ := hput.error herr
        exact (h.moved (p := .ended) hold (fun hb => hb) (fun _ hg => (nomatch hg))
          (fun _ _ hp => (nomatch hp))).of_node hi (h.named.sameTables hsame) (storedInvite_sameTables hsame inv)
  · exact h

theorem countedInvite_kept {user time : String} (h : countedInvite invite user time = .ok g) {k : String}
    (hk : k ∉ ["claims_count", "modified_time", "state", "revoked_at", "revoked_by"]) : g k = invite k := by
  simp only [List.mem_cons, List.not_mem_nil, or_false, not_or] at hk
  unfold countedInvite GrantAttrs.set at h
  split at h
  · cases h
  · cases h
    split_ifs <;> simp [hk]

theorem countedInvite_count {user time : String} {c : ℤ} (hc : invite "claims_count" = .int c)
    (h : countedInvite invite user time = .ok g) :
    g "claims_count" = .int (c + 1) := by
  unfold countedInvite at h
  rw [hc] at h
  simp only [Val.asInt_int, Except.ok.injEq] at h
  rw [← h]
  split_ifs <;> rfl

theorem Claims.Sound.update (h : s.Sound inv n) {i : ℕ} (hm : s.Meets inv args (.update i)) :
    (s.step args (.update i)).Sound inv n := by
  unfold Claims.step
  dsimp only
  split
  · rename_i invite hcreated
    cases hof : ofInvite inv invite with
    | false =>
      have hold : ¬(s.phase i).Between inv := by
        rw [hcreated]
        exact not_between_of_ne fun g hg => by cases hg; exact hof
      have hmoved : (s.moved i .ended).Sound inv n :=
        h.moved hold (fun hb => hb) (fun _ hg => (nomatch hg)) (fun _ _ hp => (nomatch hp))
      split
      · exact hmoved
      · rename_i g hg
        have hput := putGrant_tables g h.outside
        split
        · rename_i d m hok
          obtain ⟨⟨id, hid, hst⟩, hi⟩ := hput.ok hok
          refine hmoved.of_node hi (hst.named hid h.named) (hst.storedInvite_other ?_)
          -- another invite's row
          rintro rfl
          rw [countedInvite_kept hg (by decide)] at hid
          simp [ofInvite, hid, Val.eqStr] at hof
        · rename_i e m herr
          obtain ⟨hsame, hi⟩ := hput.error herr
          exact hmoved.of_node hi (h.named.sameTables hsame) (storedInvite_sameTables hsame inv)
    | true =>
      obtain ⟨hmax, ⟨c, hc⟩, e, he⟩ := h.read i invite (by rw [hcreated]; rfl) hof
      obtain ⟨g, hg⟩ : ∃ g, countedInvite invite (args i).user (args i).time = .ok g := by
        unfold countedInvite
        rw [hc]
        exact ⟨_, rfl⟩
      obtain ⟨d, m, hok⟩ := hm invite g hcreated hof hg
      rw [hg]
      dsimp only
      rw [hok]
      obtain ⟨⟨id, hid, hst⟩, hi⟩ := (putGrant_tables g h.outside).ok hok
      have hinv : id = inv := by
        have : (invite "id").eqStr inv = true := hof
        rw [countedInvite_kept hg (by decide)] at hid
        rw [hid] at this
        simpa [Val.eqStr] using this
      subst hinv
      have hphase : ∀ j, (s.moved i .ended).phase j = if j = i then .ended else s.phase j := by
        intro j
        simp [Claims.moved, Function.update_apply]
      obtain ⟨g', hst', hback⟩ := hst.storedInvite_self ((countedInvite_kept hg (by decide)).trans he)
      obtain ⟨g₀, c₀, -, -, -, hcase⟩ := h.stored
      -- this call is the one that stands between
      have hbetween : (s.phase i).Between id := by
        rw [hcreated]
        exact hof
      obtain ⟨honly, hcount⟩ : (∀ j, (s.phase j).Between id → j = i) ∧ c + 1 = s.count id := by
        rcases hcase with ⟨hnone, -⟩ | ⟨k, invite', hk, -, honly, hck, hcount⟩
        · exact absurd hbetween (hnone i)
        · have hki := honly i hbetween
          subst hki
          rw [hcreated] at hk
          cases hk
          rw [hc] at hck
          cases hck
          exact ⟨honly, hcount⟩
      refine ⟨hi, hst.named hid h.named, ?_, ?_, h.bound, g', c + 1, hst', ?_, ?_, .inl ⟨?_, hcount⟩⟩
      · intro j g₁ hj
        change ((s.moved i .ended).phase j).invite = some g₁ at hj
        rw [hphase] at hj
        split_ifs at hj
        · cases hj
        · exact h.read j g₁ hj
      · intro j g₁ c₁ hj
        change (s.moved i .ended).phase j = _ at hj
        rw [hphase] at hj
        split_ifs at hj
        exact h.below j g₁ c₁ hj
      · rw [hback "max_claims" (by decide) (by decide) (by decide), countedInvite_kept hg (by decide), hmax]
        rfl
      · rw [hback "claims_count" (by decide) (by decide) (by decide), countedInvite_count hc hg]
        rfl
      · intro j hj
        change ((s.moved i .ended).phase j).Between id at hj
        rw [hphase] at hj
        split_ifs at hj with hji
        · exact hj
        · exact hji (honly j hj)
  · exact h

theorem Claims.Sound.step (h : s.Sound inv n) {e : ClaimEvent} (hm : s.Meets inv args e) :
    (s.step args e).Sound inv n := by
  cases e with
  | look i now => exact h.look i now
  | check i => exact h.check i
  | create i id => exact h.create hm
  | update i => exact h.update hm
  | fail i => exact h.fail hm

end Step

variable {args : ℕ → ClaimArgs}

theorem Claims.Sound.run {inv : String} {n : ℕ} {args : ℕ → ClaimArgs} : ∀ {events : List ClaimEvent} {s : Claims},
    s.Sound inv n → s.RunMeets inv args events → (s.run args events).Sound inv n
  | [], _, h, _ => h
  | _ :: _, _, h, hm => (h.step hm.1).run hm.2

/-- **An invite is not over-claimed**, in any interleaving of claims whose steps meet the condition. -/
theorem invite_not_overclaimed (node : Node) (hi : node.inTxn = false) (hn : GrantsNamed node.db) (inv : String)
    (n : ℕ) (invite : GrantAttrs) (hst : storedInvite node.db inv = some invite)
    (hmax : invite "max_claims" = .int n) (hcount : invite "claims_count" = .int 0) (args : ℕ → ClaimArgs)
    (events : List ClaimEvent)
    (hm : (⟨node, fun _ => .idle, []⟩ : Claims).RunMeets inv args events) :
    ((⟨node, fun _ => .idle, []⟩ : Claims).run args events).count inv ≤ n ∧
    ((∀ j, ¬(((⟨node, fun _ => .idle, []⟩ : Claims).run args events).phase j).Between inv) →
      ∃ g, storedInvite ((⟨node, fun _ => .idle, []⟩ : Claims).run args events).node.db inv = some g ∧
        g "claims_count" = .int (((⟨node, fun _ => .idle, []⟩ : Claims).run args events).count inv)) := by
  have hstart : (⟨node, fun _ => .idle, []⟩ : Claims).Sound inv n :=
    ⟨hi, hn, fun _ _ h => (nomatch h), fun _ _ _ h => (nomatch h), Nat.zero_le n,
      invite, 0, hst, hmax, hcount, .inl ⟨fun _ h => h, rfl⟩⟩
  have h := hstart.run hm
  refine ⟨h.bound, fun hnone => ?_⟩
  obtain ⟨g, c, hg, -, hc, hcase⟩ := h.stored
  rcases hcase with ⟨-, rfl⟩ | ⟨k, g', hk, hof, -⟩
  · exact ⟨g, hg, hc⟩
  · exact absurd (by rw [hk]; exact hof) (hnone k)

/-! ### Two claims of one invite -/

def Claims.writesBack (args : ℕ → ClaimArgs) (s : Claims) (i : ℕ) : Bool :=
  match s.phase i with
  | .created invite =>
    match countedInvite invite (args i).user (args i).time with
    | .ok g =>
      match putGrant g s.node with
      | .ok _ _ => true
      | .error _ _ => false
    | .error _ => true
  | _ => true

theorem Claims.writesBack_meets {s : Claims} (h : s.writesBack args i = true) : s.Meets inv args (.update i) := by
  intro invite g hp _ hg
  unfold Claims.writesBack at h
  rw [hp] at h
  dsimp only at h
  rw [hg] at h
  dsimp only at h
  split at h
  · exact ⟨_, _, ‹_›⟩
  · cases h

theorem look_cases (args : ℕ → ClaimArgs) (s : Claims) (i : ℕ) (now : Val → Bool) (hidle : s.phase i = .idle) :
    (∃ invite, lookupActiveInvite now s.node.db (args i).tokenHash = .ok invite ∧
      s.step args (.look i now) = s.moved i (.found invite)) ∨ s.step args (.look i now) = s.moved i .ended := by
  simp only [Claims.step, hidle]
  split
  · exact .inl ⟨_, ‹_›, rfl⟩
  · exact .inr rfl

theorem check_cases (args : ℕ → ClaimArgs) (s : Claims) (i : ℕ) (hfound : s.phase i = .found invite) :
    s.step args (.check i) = s.moved i (.checked invite) ∨ s.step args (.check i) = s.moved i .ended := by
  simp only [Claims.step, hfound]
  split
  · exact .inl rfl
  · exact .inr rfl

theorem meets_create_alone {node : Node} (hn : GrantsNamed node.db) (i : ℕ) (now : Val → Bool) (id : String) :
    ((⟨node, fun _ => .idle, []⟩ : Claims).run args [.look i now, .check i]).Meets inv args (.create i id) := by
  intro invite hp hof
  change (((⟨node, fun _ => .idle, []⟩ : Claims).step args (.look i now)).step args (.check i)).phase i = _ at hp
  change (∃ g, storedInvite (((⟨node, fun _ => .idle, []⟩ : Claims).step args (.look i now)).step args
    (.check i)).node.db inv = some g ∧ _) ∧ ∀ j, ¬((((⟨node, fun _ => .idle, []⟩ : Claims).step args
    (.look i now)).step args (.check i)).phase j).Between inv
  rcases look_cases args ⟨node, fun _ => .idle, []⟩ i now rfl with ⟨g, hlook, hs⟩ | hs
  · rw [hs] at hp ⊢
    have hfound : (Claims.moved ⟨node, fun _ => .idle, []⟩ i (.found g)).phase i = .found g :=
      Function.update_self i _ _
    rcases check_cases args _ i hfound with hc | hc
    · rw [hc] at hp ⊢
      simp only [Claims.moved, Function.update_self, ClaimPhase.checked.injEq] at hp
      subst hp
      refine ⟨⟨g, lookup_stored hn hlook hof, rfl⟩, ?_⟩
      intro j
      simp only [Claims.moved, Function.update_idem, Function.update_apply]
      split_ifs <;> exact fun h => h
    · rw [hc] at hp
      simp [Claims.moved] at hp
  · have hended : (Claims.moved ⟨node, fun _ => .idle, []⟩ i .ended).step args (.check i) =
        Claims.moved ⟨node, fun _ => .idle, []⟩ i .ended := by
      simp [Claims.step, Claims.moved]
    rw [hs, hended] at hp
    simp [Claims.moved] at hp

def inviteNode (n : ℤ) : Node :=
  hereNode.run
    [.putArtifact ([("id", .str "i"), ("content_type", .str grantContentType), ("grantee_type", .str "invite"),
      ("grantee_id", .str "hash"), ("resource_id", .str "r"), ("state", .str "active"), ("effect", .str "allow"),
      ("max_claims", .int n), ("claims_count", .int 0)]) true false]

def claimants (i : ℕ) : ClaimArgs := ⟨"hash", if i = 0 then "u" else "v", "t", fun _ => true⟩

theorem grantsNamed_of_all (hall : db.vertex.toPairs.all (fun e => (e.2.doc.val.get "id").eqStr e.1) = true) :
    GrantsNamed db := by
  intro id d hd
  obtain ⟨row, hrow, hite⟩ := Option.bind_eq_some_iff.mp hd
  split_ifs at hite
  cases hite
  exact eqStr_iff.mp (List.all_eq_true.mp hall (id, row) (Table.mem_toPairs.mpr hrow))

theorem inviteNode_named : GrantsNamed (inviteNode 1).db := grantsNamed_of_all (by decide +kernel)

def isInt (z : ℤ) : Val → Bool
  | .int m => m = z
  | _ => false

theorem isInt_iff {z : ℤ} {v : Val} : isInt z v = true ↔ v = .int z := by
  cases v <;> simp [isInt]

def hasNumbers (db : Store) (inv : String) (limit count : ℤ) : Bool :=
  (storedInvite db inv).any fun g => isInt limit (g "max_claims") && isInt count (g "claims_count")

theorem hasNumbers_stored {db : Store} {inv : String} {limit count : ℤ} (h : hasNumbers db inv limit count = true) :
    ∃ g, storedInvite db inv = some g ∧ g "max_claims" = .int limit ∧ g "claims_count" = .int count := by
  unfold hasNumbers at h
  cases hs : storedInvite db inv with
  | none =>
    rw [hs] at h
    cases h
  | some g =>
    rw [hs] at h
    simp only [Option.any_some, Bool.and_eq_true] at h
    exact ⟨g, rfl, isInt_iff.mp h.1, isInt_iff.mp h.2⟩

def oneClaim : List ClaimEvent := [.look 0 fun _ => true, .check 0, .create 0 "a", .update 0]

def twoClaims : List ClaimEvent :=
  [.look 0 fun _ => true, .look 1 fun _ => true, .check 0, .check 1, .create 0 "a", .create 1 "b", .update 0,
   .update 1]

theorem invite_not_overclaimed_once :
    ((⟨inviteNode 1, fun _ => .idle, []⟩ : Claims).run claimants oneClaim).count "i" ≤ 1 := by
  obtain ⟨g, hst, hmax, hcount⟩ := @hasNumbers_stored (inviteNode 1).db "i" 1 0 (by decide +kernel)
  refine (invite_not_overclaimed (inviteNode 1) (by decide +kernel) inviteNode_named "i" 1 g hst hmax hcount
    claimants oneClaim ⟨trivial, trivial, ?_, ?_, trivial⟩).1
  · exact meets_create_alone inviteNode_named 0 _ "a"
  · exact Claims.writesBack_meets (by decide +kernel)

theorem invite_overclaimed :
    ¬ ∀ (node : Node) (inv : String) (n : ℕ) (invite : GrantAttrs) (args : ℕ → ClaimArgs) (events : List ClaimEvent),
      node.inTxn = false → GrantsNamed node.db → storedInvite node.db inv = some invite →
      invite "max_claims" = .int n → invite "claims_count" = .int 0 →
      ((⟨node, fun _ => .idle, []⟩ : Claims).run args events).count inv ≤ n := by
  intro h
  obtain ⟨g, hst, hmax, hcount⟩ := @hasNumbers_stored (inviteNode 1).db "i" 1 0 (by decide +kernel)
  have hle := h (inviteNode 1) "i" 1 g claimants twoClaims (by decide +kernel) inviteNode_named hst hmax hcount
  have htwo : ((⟨inviteNode 1, fun _ => .idle, []⟩ : Claims).run claimants twoClaims).count "i" = 2 := by
    decide +kernel
  omega

end Mantle
