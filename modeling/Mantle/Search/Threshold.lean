import Mantle.Search.Custody

/-!
# Mantle.Search.Threshold — two-of-three custody of a master key (`search/mantle/threshold_custody.py`)

Share 1 is in the key row of the lattice, share 2 at Origin, share 3 sealed in the escrow store.  A `put` holds the
custody lock, a `get` takes none, and either may stop between its steps.
-/

namespace Mantle

open Tx

/-! ### Shares -/

structure OriginShare where
  x : ℕ
  y : Bytes
  kcv : String

structure EscrowEntry where
  principalId : String
  x : ℕ
  y : Bytes
  kcv : String

/-- The KEK provider, `hmac` and `hashlib`, `prism.trust.shamir` and `pyrage`.  What raises `ValueError` is `none`. -/
structure Custodians extends KeyProvider where
  hmac : Bytes → Bytes → Bytes
  sha256 : Bytes → Bytes
  split : ℕ → Bytes → ℕ → Bytes
  combine : ℕ × Bytes → ℕ × Bytes → Option Bytes
  sealShare : ℕ → EscrowEntry → Bytes
  openSealed : Bytes → Option EscrowEntry

def mantleX : ℕ := 1
def originX : ℕ := 2
def escrowX : ℕ := 3

def custodyTag : String := "threshold-2of3"
def shareMagic : Bytes := [77, 83, 49, 58]
def kcvInfo : Bytes := encodeUtf8 "agience-master-key-check-v1" ++ [0]

def hexText (bs : Bytes) : List Char := (bs.map UInt8.toNat).flatMap (hexDigits 2)

def Custodians.keyCheckValue (C : Custodians) (p : String) (key : Bytes) : String :=
  String.ofList ((hexText (C.hmac key (kcvInfo ++ encodeUtf8 p))).take 32)

def frameShare (p : String) (x : ℕ) (y : Bytes) : Except KeyErr Bytes :=
  (frameHead shareMagic p).map (· ++ UInt8.ofNat x :: y)

/-- `_unframe_share`: whatever it raises, the caller reads as a share that is there and cannot be opened. -/
def KeyProvider.unframeShare (K : KeyProvider) (p : String) (raw : Bytes) : Option (ℕ × Bytes) :=
  if ¬shareMagic <+: raw then none
  else
    match K.frameBody p raw with
    | .ok (x :: y) => some (x.toNat, y)
    | _ => none

def Custodians.escrowObjectKey (C : Custodians) (p kcv escrowId : String) : String :=
  "escrow/" ++ String.ofList (hexText (C.sha256 (encodeUtf8 p))) ++ "." ++ kcv ++ "." ++ escrowId ++ ".age"

def Custodians.escrowName (C : Custodians) (row : Doc) : String :=
  C.escrowObjectKey (String.ofList (((row.find? "id").getD (.str "")).pyStr.toList.drop "master-key:".length))
    ((row.get "kcv").orElse (.str "")).pyStr ((row.get "escrow_id").orElse (.str "")).pyStr

def formKeys : List String := ["content_type", "state", "token", "share", "kcv", "escrow_id"]

/-- `stored_form` of a read compared with that of a row just split, whose fields are texts or missing. -/
def sameForm (read : Option Doc) (row : Doc) : Bool :=
  match read with
  | none => false
  | some doc =>
    formKeys.all fun k =>
      match row.get k with
      | .str s => (doc.get k).eqStr s
      | _ => (doc.get k).isNone

structure Split where
  share : String
  kcv : String
  escrowId : String
  origin : OriginShare
  sealed : Bytes
  /-- What the call names to Origin as superseded. -/
  supersedes : Val

def Split.row (q : Split) (p state : String) : Doc :=
  [("id", .str (masterKeyId p)), ("content_type", .str shareContentType), ("custody", .str custodyTag),
   ("state", .str state), ("share", .str q.share), ("kcv", .str q.kcv), ("escrow_id", .str q.escrowId)]

/-- The randomness of a split: of `shamir.split`, of the wrap, of the seal, and the escrow id. -/
structure Randomness where
  shares : ℕ
  wrap : ℕ
  sealing : ℕ
  escrowId : Bytes

/-- `split_key`; `none` is a split that raises. -/
def Custodians.splitKey (C : Custodians) (p : String) (key : Bytes) (supersedes : Val) (r : Randomness) :
    Option Split :=
  let shares := C.split r.shares key
  let pair a b := C.combine (a, shares a) (b, shares b)
  if pair mantleX originX = some key ∧ pair mantleX escrowX = some key ∧ pair originX escrowX = some key then
    match frameShare p mantleX (shares mantleX) with
    | .error _ => none
    | .ok raw =>
      let kcv := C.keyCheckValue p key
      some
        { share := C.wrap r.wrap raw
          kcv := kcv
          escrowId := String.ofList (hexText r.escrowId)
          origin := ⟨originX, shares originX, kcv⟩
          sealed := C.sealShare r.sealing ⟨p, escrowX, shares escrowX, kcv⟩
          supersedes := supersedes }
  else none

/-! ### Reading -/

inductive GetResult
  /-- First use. -/
  | none
  | key (k : Bytes)
  | unavailable
  /-- Another exception. -/
  | raised
deriving DecidableEq, Repr

def GetResult.key? : GetResult → Option Bytes
  | .key k => some k
  | _ => Option.none

/-- `hmac.compare_digest`: it raises unless both are texts of ASCII characters. -/
def compareDigest (a : String) : Val → Option Bool
  | .str b => if a.toList.all (·.toNat < 128) ∧ b.toList.all (·.toNat < 128) then some (a == b) else Option.none
  | _ => Option.none

/-- `_combine`: the key of two shares, where it has the stored key check. -/
def Custodians.combineChecked (C : Custodians) (p : String) (mine other : ℕ × Bytes) (kcv : Val) : GetResult :=
  match C.combine mine other with
  | none => .none
  | some key =>
    match compareDigest (C.keyCheckValue p key) kcv with
    | none => .raised
    | some true => .key key
    | some false => .none

/-- The key row is a share that is not pending. -/
def isActive (doc : Doc) : Bool :=
  (doc.get "content_type").eqStr shareContentType && !(doc.get "state").eqStr "pending"

/-- What `get` makes of the row it read. -/
inductive Look
  | answer (r : GetResult)
  /-- No key row: it asks Origin. -/
  | first
  /-- It holds this node's share. -/
  | mine (doc : Doc) (share : ℕ × Bytes)

def Custodians.look (C : Custodians) (p : String) (read : Option Doc) : Look :=
  let doc := read.getD []
  let ct := doc.get "content_type"
  if ct.eqStr masterKeyContentType && (doc.get "token").truthy then .answer .unavailable
  else if !ct.eqStr shareContentType then .first
  else if (doc.get "state").eqStr "pending" then .answer .none
  else
    match ((doc.find? "share").bind C.unwrap).bind (C.unframeShare p) with
    | none => .answer .unavailable
    | some share => .mine doc share

/-- `doc.get("kcv") or ""`. -/
def storedCheck (doc : Doc) : Val := (doc.get "kcv").orElse (.str "")

/-- The check `_put_locked` makes of the stored row before it splits: `none` raises, else what it supersedes. -/
def Custodians.mayPut (C : Custodians) (p : String) (key : Bytes) (read : Option Doc) : Option Val :=
  let doc := read.getD []
  let ct := doc.get "content_type"
  if ct.eqStr shareContentType then
    if (doc.get "state").eqStr "pending" then some (doc.get "kcv")
    else if !(doc.get "kcv").eqStr (C.keyCheckValue p key) then none
    else some .none
  else if ct.eqStr masterKeyContentType && (doc.get "token").truthy then none
  else some .none

/-! ### The store at work -/

inductive PutPhase
  | idle
  | locked
  | prepared (q : Split)
  | written (q : Split)
  | escrowed (q : Split)
  | shared (q : Split)
  | verified (q : Split)
  | ended

/-- A `get` under way knows which keys had been returned for its principal when it read the row. -/
inductive GetPhase
  | idle
  | first (before : List Bytes)
  | mine (before : List Bytes) (doc : Doc) (share : ℕ × Bytes)
  | recovering (before : List Bytes) (doc : Doc) (share : ℕ × Bytes)
  | ended

structure GetCall where
  principal : String
  /-- Recovery mode is on. -/
  recovery : Bool

structure PutCall where
  principal : String
  key : Bytes

/-- A `get` that has ended. -/
structure GetRecord where
  principal : String
  before : List Bytes
  result : GetResult

/-- The three custodians, the custody lock, the calls, and what the ended `get`s gave. -/
structure Shares where
  node : Node
  origin : String → Option OriginShare
  escrow : String → Option Bytes
  lock : Option ℕ
  put : ℕ → PutPhase
  get : ℕ → GetPhase
  results : List GetRecord

/-- A step that fails without effect is a `fail` before it, one that fails after it took effect a `fail`
behind it. -/
inductive ShareEvent
  | acquire (i : ℕ)
  | prepare (i : ℕ) (r : Randomness)
  | writeRow (i : ℕ)
  | putEscrow (i : ℕ)
  | putShare (i : ℕ)
  | verify (i : ℕ)
  | activate (i : ℕ)
  | fail (i : ℕ)
  | readRow (j : ℕ) (works : Bool)
  | askOrigin (j : ℕ) (answers : Bool)
  | readEscrow (j : ℕ) (works : Bool)

/-- The keys returned for a principal. -/
def Shares.served (s : Shares) (p : String) : List Bytes :=
  s.results.filterMap fun r => if r.principal = p then r.result.key? else Option.none

def Shares.putMoved (s : Shares) (i : ℕ) (ph : PutPhase) : Shares := { s with put := Function.update s.put i ph }

/-- The `put` is over, and the lock free if it held it. -/
def Shares.close (s : Shares) (i : ℕ) : Shares :=
  { s with put := Function.update s.put i .ended, lock := if s.lock = some i then none else s.lock }

def Shares.getMoved (s : Shares) (j : ℕ) (ph : GetPhase) : Shares := { s with get := Function.update s.get j ph }

def Shares.answer (s : Shares) (j : ℕ) (p : String) (before : List Bytes) (r : GetResult) : Shares :=
  { s.getMoved j .ended with results := s.results ++ [⟨p, before, r⟩] }

section Step

variable (C : Custodians) (puts : ℕ → PutCall) (gets : ℕ → GetCall)

/-- A `put_artifact` of a call's row, and where the call then is. -/
def Shares.store (s : Shares) (i : ℕ) (row : Doc) (ph : PutPhase) : Shares :=
  match putArtifact row true false s.node with
  | .ok _ n => { s.putMoved i ph with node := n }
  | .error _ n => { s.close i with node := n }

/-- `get` without Origin's share: recovery mode goes to the escrow. -/
def Shares.withoutOrigin (s : Shares) (j : ℕ) (before : List Bytes) (doc : Doc) (share : ℕ × Bytes) : Shares :=
  if (gets j).recovery then s.getMoved j (.recovering before doc share)
  else s.answer j (gets j).principal before .unavailable

def Shares.step (s : Shares) : ShareEvent → Shares
  | .acquire i =>
    match s.put i, s.lock with
    | .idle, none => { s.putMoved i .locked with lock := some i }
    | _, _ => s
  | .prepare i r =>
    match s.put i with
    | .locked =>
      let p := (puts i).principal
      match (C.mayPut p (puts i).key (docOf s.node.db (masterKeyId p))).bind
          fun supersedes => C.splitKey p (puts i).key supersedes r with
      | some q => s.putMoved i (.prepared q)
      | none => s.close i
    | _ => s
  | .writeRow i =>
    match s.put i with
    | .prepared q => s.store i (q.row (puts i).principal "pending") (.written q)
    | _ => s
  | .putEscrow i =>
    match s.put i with
    | .written q =>
      let name := C.escrowName (q.row (puts i).principal "pending")
      match s.escrow name with
      | some _ => s.close i
      | none => { s.putMoved i (.escrowed q) with escrow := Function.update s.escrow name (some q.sealed) }
    | _ => s
  | .putShare i =>
    match s.put i with
    | .escrowed q =>
      { s.putMoved i (.shared q) with origin := Function.update s.origin (puts i).principal (some q.origin) }
    | _ => s
  | .verify i =>
    match s.put i with
    | .shared q =>
      let p := (puts i).principal
      if sameForm (docOf s.node.db (masterKeyId p)) (q.row p "pending") then s.putMoved i (.verified q)
      else s.close i
    | _ => s
  | .activate i =>
    match s.put i with
    | .verified q => (s.store i (q.row (puts i).principal "active") .ended).close i
    | _ => s
  | .fail i => s.close i
  | .readRow j works =>
    match s.get j with
    | .idle =>
      let p := (gets j).principal
      if works then
        match C.look p (docOf s.node.db (masterKeyId p)) with
        | .answer r => s.answer j p (s.served p) r
        | .first => s.getMoved j (.first (s.served p))
        | .mine doc share => s.getMoved j (.mine (s.served p) doc share)
      else s.answer j p (s.served p) .unavailable
    | _ => s
  | .askOrigin j answers =>
    let p := (gets j).principal
    match s.get j with
    | .first before =>
      if answers ∧ (s.origin p).isNone then s.answer j p before .none else s.answer j p before .unavailable
    | .mine before doc share =>
      match if answers then s.origin p else none with
      | none => s.withoutOrigin gets j before doc share
      | some theirs =>
        match C.combineChecked p share (theirs.x, theirs.y) (storedCheck doc) with
        | .none => s.withoutOrigin gets j before doc share
        | r => s.answer j p before r
    | _ => s
  | .readEscrow j works =>
    let p := (gets j).principal
    match s.get j with
    | .recovering before doc share =>
      match if works then (s.escrow (C.escrowName doc)).bind C.openSealed else none with
      | none => s.answer j p before .unavailable
      | some entry =>
        if entry.principalId ≠ p then s.answer j p before .unavailable
        else
          match C.combineChecked p share (entry.x, entry.y) (storedCheck doc) with
          | .none => s.answer j p before .unavailable
          | r => s.answer j p before r
    | _ => s

def Shares.run (s : Shares) (events : List ShareEvent) : Shares := events.foldl (Shares.step C puts gets) s

/-- The condition on one step: a `put` writes its pending row over no active one. -/
def Shares.Meets (s : Shares) : ShareEvent → Prop
  | .writeRow i => ∀ q doc, s.put i = .prepared q → docOf s.node.db (masterKeyId (puts i).principal) = some doc →
      isActive doc = false
  | _ => True

def Shares.RunMeets : Shares → List ShareEvent → Prop
  | _, [] => True
  | s, e :: events => s.Meets puts e ∧ (s.step C puts gets e).RunMeets events

end Step

/-! ### What holds in every run -/

section Invariant

variable (C : Custodians) (puts : ℕ → PutCall) (gets : ℕ → GetCall)

def ActiveRow (db : Store) (p : String) (doc : Doc) : Prop := docOf db (masterKeyId p) = some doc ∧ isActive doc

/-- The row of a principal is active and has the check of this key. -/
def Serves (db : Store) (p : String) (k : Bytes) : Prop :=
  ∃ doc, ActiveRow db p doc ∧ storedCheck doc = .str (C.keyCheckValue p k)

def PutPhase.Holds : PutPhase → Prop
  | .idle | .ended => False
  | _ => True

/-- What a `get` knows while it is under way. -/
def GetPhase.Knows (db : Store) (p : String) : GetPhase → Prop
  | .first before => before = []
  | .mine before doc _ | .recovering before doc _ =>
    ActiveRow db p doc ∧ ∀ k ∈ before, storedCheck doc = .str (C.keyCheckValue p k)
  | _ => True

/-- The keys returned before a `get` under way. -/
def GetPhase.before : GetPhase → List Bytes
  | .first before | .mine before _ _ | .recovering before _ _ => before
  | _ => []

/-- A `get` gave the key that had been returned, or was refused. -/
def GetRecord.Right (r : GetRecord) : Prop :=
  ∀ k ∈ r.before, r.result = .unavailable ∨
    ∃ k', r.result = .key k' ∧ C.keyCheckValue r.principal k' = C.keyCheckValue r.principal k

structure Shares.Sound (s : Shares) : Prop where
  outside : s.node.inTxn = false
  holds : ∀ i, (s.put i).Holds → s.lock = some i
  verified : ∀ i q doc, s.put i = .verified q → docOf s.node.db (masterKeyId (puts i).principal) = some doc →
    isActive doc = false
  served : ∀ p, ∀ k ∈ s.served p, Serves C s.node.db p k
  knows : ∀ j, (s.get j).Knows C s.node.db (gets j).principal
  right : ∀ r ∈ s.results, r.Right C
  remembers : ∀ j, ∀ k ∈ (s.get j).before, k ∈ s.served (gets j).principal
  recorded : ∀ r ∈ s.results, ∀ k ∈ r.before, k ∈ s.served r.principal

/-- Active rows stay as they are. -/
def Kept (db db' : Store) : Prop := ∀ p doc, ActiveRow db p doc → ActiveRow db' p doc

end Invariant

variable {C : Custodians} {puts : ℕ → PutCall} {gets : ℕ → GetCall} {s : Shares} {db db' : Store} {p : String}

theorem Serves.kept (hk : Kept db db') {k : Bytes} (h : Serves C db p k) : Serves C db' p k := by
  obtain ⟨doc, hrow, hc⟩ := h
  exact ⟨doc, hk p doc hrow, hc⟩

theorem GetPhase.Knows.kept (hk : Kept db db') {ph : GetPhase} (h : ph.Knows C db p) : ph.Knows C db' p := by
  cases ph with
  | idle => trivial
  | ended => trivial
  | first before => exact h
  | mine before doc share => exact ⟨hk p doc h.1, h.2⟩
  | recovering before doc share => exact ⟨hk p doc h.1, h.2⟩

theorem masterKeyId_inj {p p' : String} (h : masterKeyId p = masterKeyId p') : p = p' := by
  have hl := congrArg String.toList h
  unfold masterKeyId at hl
  rw [String.toList_append, String.toList_append] at hl
  exact String.toList_inj.mp (List.append_cancel_left hl)

theorem docOf_sameTables (h : SameTables db db') (id : String) : docOf db' id = docOf db id := by
  unfold docOf
  rw [h.vertex]

theorem kept_sameTables (h : SameTables db db') : Kept db db' := by
  intro p doc hrow
  exact ⟨(docOf_sameTables h _).trans hrow.1, hrow.2⟩

theorem kept_stored {row : Doc} (h : DocStored row (masterKeyId p) db db')
    (hp : ∀ doc, docOf db (masterKeyId p) = some doc → isActive doc = false) : Kept db db' := by
  rintro p' doc ⟨hdoc, hactive⟩
  have hne : p' ≠ p := by
    rintro rfl
    rw [hp doc hdoc] at hactive
    cases hactive
  refine ⟨?_, hactive⟩
  unfold docOf at hdoc ⊢
  rw [h.others _ fun heq => hne (masterKeyId_inj heq)]
  exact hdoc

/-- **Storing the row of a split** over none that is active keeps the active rows. -/
theorem store_row (q : Split) (p state : String) {n : Node} (hi : n.inTxn = false)
    (hp : ∀ doc, docOf n.db (masterKeyId p) = some doc → isActive doc = false) :
    Runs (putArtifact (q.row p state) true false) n
      (fun _ n' => Kept n.db n'.db ∧ n'.inTxn = false) fun n' => Kept n.db n'.db ∧ n'.inTxn = false := by
  refine (@putAuthored_stored (q.row p state) rfl rfl _ hi).mono ?_ ?_
  · rintro _ n' ⟨⟨id, hid, hst⟩, hin⟩
    have heq : masterKeyId p = id := by
      have : Val.str (masterKeyId p) = .str id := hid
      cases this
      rfl
    subst heq
    exact ⟨kept_stored hst hp, hin⟩
  · rintro n' ⟨hs, hin⟩
    exact ⟨kept_sameTables hs, hin⟩

/-! ### What a `get` gives -/

theorem combineChecked_key {mine other : ℕ × Bytes} {kcv : Val} {k : Bytes}
    (h : C.combineChecked p mine other kcv = .key k) : kcv = .str (C.keyCheckValue p k) := by
  unfold Custodians.combineChecked at h
  split at h
  · cases h
  · rename_i key hkey
    split at h
    · cases h
    · rename_i hcmp
      cases h
      unfold compareDigest at hcmp
      split at hcmp
      · split_ifs at hcmp
        simp only [Option.some.injEq, beq_iff_eq] at hcmp
        rw [hcmp]
      · cases hcmp
    · cases h

theorem keyCheckValue_ascii (k : Bytes) : (C.keyCheckValue p k).toList.all (·.toNat < 128) := by
  have hdigit : ∀ n : Fin 16, (hexDigit n).toNat < 128 := by decide +kernel
  have hdigits : ∀ (m n : ℕ) (c : Char), c ∈ hexDigits m n → c.toNat < 128 := by
    intro m
    induction m with
    | zero => exact fun _ _ hc => (nomatch hc)
    | succ m ih =>
      intro n c hc
      rcases List.mem_append.mp hc with hin | hin
      · exact ih _ c hin
      · rw [List.mem_singleton.mp hin]
        exact hdigit ⟨n % 16, Nat.mod_lt _ (by decide)⟩
  unfold Custodians.keyCheckValue
  rw [String.toList_ofList, List.all_eq_true]
  intro c hc
  obtain ⟨n, -, hn⟩ := List.mem_flatMap.mp (List.mem_of_mem_take hc)
  exact decide_eq_true (hdigits 2 n c hn)

theorem combineChecked_ne_raised {mine other : ℕ × Bytes} (k : Bytes) :
    C.combineChecked p mine other (.str (C.keyCheckValue p k)) ≠ .raised := by
  unfold Custodians.combineChecked
  cases C.combine mine other with
  | none => exact fun h => (nomatch h)
  | some key =>
    have hcmp : compareDigest (C.keyCheckValue p key) (.str (C.keyCheckValue p k)) =
        some (C.keyCheckValue p key == C.keyCheckValue p k) :=
      if_pos ⟨keyCheckValue_ascii key, keyCheckValue_ascii k⟩
    dsimp only
    rw [hcmp]
    cases C.keyCheckValue p key == C.keyCheckValue p k <;> exact fun h => (nomatch h)

/-! ### The steps -/

theorem Shares.Sound.ofPut (h : s.Sound C puts gets) {s' : Shares} (hget : s'.get = s.get)
    (hres : s'.results = s.results) (hout : s'.node.inTxn = false) (hkept : Kept s.node.db s'.node.db)
    (hholds : ∀ i, (s'.put i).Holds → s'.lock = some i)
    (hver : ∀ i q doc, s'.put i = .verified q → docOf s'.node.db (masterKeyId (puts i).principal) = some doc →
      isActive doc = false) : s'.Sound C puts gets where
  outside := hout
  holds := hholds
  verified := hver
  served := by
    intro p k hk
    unfold Shares.served at hk
    rw [hres] at hk
    exact (h.served p k hk).kept hkept
  knows := by
    intro j
    rw [hget]
    exact (h.knows j).kept hkept
  right := by
    rw [hres]
    exact h.right
  remembers := by
    unfold Shares.served
    rw [hres, hget]
    exact h.remembers
  recorded := by
    unfold Shares.served
    rw [hres]
    exact h.recorded

theorem Shares.Sound.putMoved (h : s.Sound C puts gets) {i : ℕ} {ph : PutPhase} (hl : s.lock = some i)
    (hver : ∀ q doc, ph = .verified q → docOf s.node.db (masterKeyId (puts i).principal) = some doc →
      isActive doc = false) : (s.putMoved i ph).Sound C puts gets := by
  refine h.ofPut rfl rfl h.outside (fun _ _ hrow => hrow) ?_ ?_
  · intro i' hi'
    simp only [Shares.putMoved, Function.update_apply] at hi' ⊢
    split_ifs at hi' with heq
    · rw [heq, hl]
    · exact h.holds i' hi'
  · intro i' q doc hq hdoc
    simp only [Shares.putMoved, Function.update_apply] at hq hdoc
    split_ifs at hq with heq
    · subst heq
      exact hver q doc hq hdoc
    · exact h.verified i' q doc hq hdoc

theorem Shares.Sound.close (h : s.Sound C puts gets) (i : ℕ) : (s.close i).Sound C puts gets := by
  have hother : ∀ {i' : ℕ} {ph : PutPhase}, (s.close i).put i' = ph → ph ≠ .ended → i' ≠ i ∧ s.put i' = ph := by
    intro i' ph hph hne
    simp only [Shares.close, Function.update_apply] at hph
    split_ifs at hph with heq
    · exact absurd hph.symm hne
    · exact ⟨heq, hph⟩
  refine h.ofPut rfl rfl h.outside (fun _ _ hrow => hrow) ?_ ?_
  · intro i' hi'
    obtain ⟨hne, hput⟩ := hother rfl fun he => by
      rw [he] at hi'
      exact hi'
    rw [← hput] at hi'
    have hlock := h.holds i' hi'
    change (if s.lock = some i then none else s.lock) = some i'
    rw [if_neg, hlock]
    rw [hlock]
    exact fun heq => hne (Option.some.inj heq)
  · intro i' q doc hq hdoc
    exact h.verified i' q doc (hother hq fun he => (nomatch he)).2 hdoc

theorem Shares.Sound.store (h : s.Sound C puts gets) {i : ℕ} (hh : (s.put i).Holds) (q : Split) (state : String)
    {ph : PutPhase} (hph : ∀ q', ph ≠ .verified q')
    (hp : ∀ doc, docOf s.node.db (masterKeyId (puts i).principal) = some doc → isActive doc = false) :
    (s.store i (q.row (puts i).principal state) ph).Sound C puts gets := by
  have hlock := h.holds i hh
  have hrun := store_row q (puts i).principal state h.outside hp
  -- no other call holds the lock, so none has a row verified
  have hver : ∀ i' q' doc, ∀ n : Node, i' ≠ i → s.put i' = .verified q' →
      docOf n.db (masterKeyId (puts i').principal) = some doc → isActive doc = false := by
    intro i' q' doc n hne hput _
    have hlock' := h.holds i' (by rw [hput]; trivial)
    rw [hlock] at hlock'
    exact absurd (Option.some.inj hlock').symm hne
  unfold Shares.store
  cases hr : putArtifact (q.row (puts i).principal state) true false s.node with
  | ok d n =>
    obtain ⟨hkept, hin⟩ := hrun.ok hr
    have hmoved : (s.putMoved i ph).Sound C puts gets := h.putMoved hlock fun q' _ hq _ => absurd hq (hph q')
    refine hmoved.ofPut rfl rfl hin hkept hmoved.holds ?_
    intro i' q' doc hq hdoc
    simp only [Shares.putMoved, Function.update_apply] at hq
    split_ifs at hq with heq
    · exact absurd hq (hph q')
    · exact hver i' q' doc n heq hq hdoc
  | error e n =>
    obtain ⟨hkept, hin⟩ := hrun.error hr
    have hclosed := h.close i
    refine hclosed.ofPut rfl rfl hin hkept hclosed.holds ?_
    intro i' q' doc hq hdoc
    simp only [Shares.close, Function.update_apply] at hq
    split_ifs at hq with heq
    exact hver i' q' doc n heq hq hdoc

theorem Shares.Sound.getMoved (h : s.Sound C puts gets) {j : ℕ} {ph : GetPhase}
    (hph : ph.Knows C s.node.db (gets j).principal) (hb : ∀ k ∈ ph.before, k ∈ s.served (gets j).principal) :
    (s.getMoved j ph).Sound C puts gets where
  outside := h.outside
  holds := h.holds
  verified := h.verified
  served := h.served
  right := h.right
  recorded := h.recorded
  knows := by
    intro j'
    simp only [Shares.getMoved, Function.update_apply]
    split_ifs with heq
    · rw [heq]
      exact hph
    · exact h.knows j'
  remembers := by
    intro j'
    simp only [Shares.getMoved, Function.update_apply]
    split_ifs with heq
    · rw [heq]
      exact hb
    · exact h.remembers j'

theorem served_answer_of_mem {j : ℕ} {p' : String} {before : List Bytes} {r : GetResult} {k : Bytes}
    (h : k ∈ s.served p) : k ∈ (s.answer j p' before r).served p := by
  unfold Shares.served Shares.answer
  rw [List.filterMap_append]
  exact List.mem_append_left _ h

theorem Shares.Sound.answer (h : s.Sound C puts gets) (j : ℕ) {p : String} {before : List Bytes} {r : GetResult}
    (hb : ∀ k ∈ before, k ∈ s.served p) (hr : GetRecord.Right C ⟨p, before, r⟩)
    (hs : ∀ k, r = .key k → Serves C s.node.db p k) : (s.answer j p before r).Sound C puts gets where
  outside := h.outside
  holds := h.holds
  verified := h.verified
  knows := (@Shares.Sound.getMoved _ _ _ _ h j .ended trivial fun _ hk => (nomatch hk)).knows
  remembers := by
    intro j' k hk
    refine served_answer_of_mem ?_
    exact (@Shares.Sound.getMoved _ _ _ _ h j .ended trivial fun _ hk => (nomatch hk)).remembers j' k hk
  recorded := by
    intro r' hr' k hk
    refine served_answer_of_mem ?_
    rcases List.mem_append.mp hr' with hin | hin
    · exact h.recorded r' hin k hk
    · rw [List.mem_singleton.mp hin] at hk ⊢
      exact hb k hk
  right := by
    intro r' hr'
    rcases List.mem_append.mp hr' with hin | hin
    · exact h.right r' hin
    · rw [List.mem_singleton.mp hin]
      exact hr
  served := by
    intro p' k hk
    simp only [Shares.served, Shares.answer, List.filterMap_append, List.mem_append] at hk
    rcases hk with hk | hk
    · exact h.served p' k hk
    · simp only [List.filterMap_cons, List.filterMap_nil] at hk
      split_ifs at hk with hp
      · subst hp
        cases r with
        | key k' =>
          have : k = k' := List.mem_singleton.mp hk
          exact hs k (by rw [this])
        | none => cases hk
        | unavailable => cases hk
        | raised => cases hk
      · cases hk

theorem Shares.Sound.refuse (h : s.Sound C puts gets) (j : ℕ) {p : String} {before : List Bytes}
    (hb : ∀ k ∈ before, k ∈ s.served p) : (s.answer j p before .unavailable).Sound C puts gets :=
  h.answer j hb (fun _ _ => .inl rfl) fun _ hk => (nomatch hk)

theorem look_mine {read : Option Doc} {doc : Doc} {share : ℕ × Bytes} (h : C.look p read = .mine doc share) :
    read = some doc ∧ isActive doc := by
  unfold Custodians.look at h
  dsimp only at h
  split_ifs at h with h1 h2 h3
  split at h
  · cases h
  · rename_i hshare
    cases h
    cases read with
    | none => cases hshare
    | some doc =>
      refine ⟨rfl, ?_⟩
      simp only [Bool.not_eq_true, Bool.not_eq_false'] at h2 h3
      simp only [isActive, Option.getD_some] at h2 h3 ⊢
      rw [h2, h3]
      rfl

theorem look_active {doc : Doc} (h : isActive doc) :
    C.look p (some doc) = .answer .unavailable ∨ ∃ share, C.look p (some doc) = .mine doc share := by
  unfold Custodians.look
  dsimp only [Option.getD_some]
  obtain ⟨h2, h3⟩ := Bool.and_eq_true_iff.mp h
  simp only [Bool.not_eq_true'] at h3
  rw [h2, h3]
  simp only [Bool.not_true, Bool.false_eq_true, if_false]
  split_ifs with hw
  · exact .inl rfl
  · cases ((doc.find? "share").bind C.unwrap).bind (C.unframeShare p) with
    | none => exact .inl rfl
    | some share => exact .inr ⟨share, rfl⟩

theorem look_answer {read : Option Doc} {r : GetResult} (h : C.look p read = .answer r) :
    r = .none ∨ r = .unavailable := by
  unfold Custodians.look at h
  dsimp only at h
  split_ifs at h
  · exact .inr (by cases h; rfl)
  · exact .inl (by cases h; rfl)
  · split at h
    · exact .inr (by cases h; rfl)
    · cases h

theorem Shares.Sound.readRow (h : s.Sound C puts gets) (j : ℕ) (works : Bool) :
    (s.step C puts gets (.readRow j works)).Sound C puts gets := by
  simp only [Shares.step]
  split
  · split_ifs with hw
    · set p := (gets j).principal
      -- with a key returned before, the row is active
      have hserved : ∀ k ∈ s.served p, ∃ doc, docOf s.node.db (masterKeyId p) = some doc ∧ isActive doc ∧
          storedCheck doc = .str (C.keyCheckValue p k) := by
        intro k hk
        obtain ⟨doc, ⟨hdoc, hact⟩, hc⟩ := h.served p k hk
        exact ⟨doc, hdoc, hact, hc⟩
      split
      · rename_i r hlook
        refine h.answer j (fun _ hk => hk) ?_ ?_
        · intro k hk
          obtain ⟨doc, hdoc, hact, -⟩ := hserved k hk
          rw [hdoc] at hlook
          rcases look_active (C := C) (p := p) hact with hr | ⟨share, hr⟩
          · rw [hr] at hlook
            cases hlook
            exact .inl rfl
          · rw [hr] at hlook
            cases hlook
        · intro k hk
          rcases look_answer hlook with rfl | rfl <;> cases hk
      · rename_i hlook
        refine h.getMoved ?_ fun _ hk => hk
        refine List.eq_nil_iff_forall_not_mem.mpr fun k hk => ?_
        obtain ⟨doc, hdoc, hact, -⟩ := hserved k hk
        rw [hdoc] at hlook
        rcases look_active (C := C) (p := p) hact with hr | ⟨share, hr⟩
        · rw [hr] at hlook
          cases hlook
        · rw [hr] at hlook
          cases hlook
      · rename_i doc share hlook
        obtain ⟨hdoc, hact⟩ := look_mine hlook
        refine h.getMoved ⟨⟨hdoc, hact⟩, ?_⟩ fun _ hk => hk
        intro k hk
        obtain ⟨doc', hdoc', -, hc⟩ := hserved k hk
        rw [hdoc] at hdoc'
        cases hdoc'
        exact hc
    · exact h.refuse j fun _ hk => hk
  · exact h

/-- A combined key is answered: it has the check of the row, and so has every key returned before. -/
theorem Shares.Sound.answerChecked (h : s.Sound C puts gets) (j : ℕ) {before : List Bytes} {doc : Doc}
    {mine other : ℕ × Bytes} {r : GetResult} (hb : ∀ k ∈ before, k ∈ s.served p)
    (hrow : ActiveRow s.node.db p doc)
    (hbefore : ∀ k ∈ before, storedCheck doc = .str (C.keyCheckValue p k))
    (hr : C.combineChecked p mine other (storedCheck doc) = r) (hne : r ≠ .none) :
    (s.answer j p before r).Sound C puts gets := by
  have hkey : ∀ k, r = .key k → storedCheck doc = .str (C.keyCheckValue p k) := by
    rintro k rfl
    exact combineChecked_key hr
  refine h.answer j hb ?_ fun k hk => ⟨doc, hrow, hkey k hk⟩
  intro k hk
  have hc := hbefore k hk
  cases r with
  | none => exact absurd rfl hne
  | unavailable => exact .inl rfl
  | raised =>
    rw [hc] at hr
    exact absurd hr (combineChecked_ne_raised k)
  | key k' =>
    refine .inr ⟨k', rfl, ?_⟩
    have hc' := hkey k' rfl
    rw [hc] at hc'
    exact (Val.str.inj hc').symm

theorem Shares.Sound.withoutOrigin (h : s.Sound C puts gets) (j : ℕ) {before : List Bytes} {doc : Doc}
    {share : ℕ × Bytes} (hk : (GetPhase.mine before doc share).Knows C s.node.db (gets j).principal)
    (hb : ∀ k ∈ before, k ∈ s.served (gets j).principal) : (s.withoutOrigin gets j before doc share).Sound C puts gets := by
  unfold Shares.withoutOrigin
  split_ifs
  · exact h.getMoved hk hb
  · exact h.refuse j hb

theorem Shares.Sound.askOrigin (h : s.Sound C puts gets) (j : ℕ) (answers : Bool) :
    (s.step C puts gets (.askOrigin j answers)).Sound C puts gets := by
  simp only [Shares.step]
  have hk := h.knows j
  have hb := h.remembers j
  split
  · rename_i before hget
    rw [hget] at hk hb
    change before = [] at hk
    subst hk
    split_ifs
    · exact h.answer j hb (fun _ hk => (nomatch hk)) fun _ hk => (nomatch hk)
    · exact h.refuse j hb
  · rename_i before doc share hget
    rw [hget] at hk hb
    split
    · exact h.withoutOrigin j hk hb
    · split
      · exact h.withoutOrigin j hk hb
      · rename_i hne
        exact h.answerChecked j hb hk.1 hk.2 rfl hne
  · exact h

theorem Shares.Sound.readEscrow (h : s.Sound C puts gets) (j : ℕ) (works : Bool) :
    (s.step C puts gets (.readEscrow j works)).Sound C puts gets := by
  simp only [Shares.step]
  have hk := h.knows j
  have hb := h.remembers j
  split
  · rename_i before doc share hget
    rw [hget] at hk hb
    split
    · exact h.refuse j hb
    · split_ifs
      · exact h.refuse j hb
      · split
        · exact h.refuse j hb
        · rename_i hne
          exact h.answerChecked j hb hk.1 hk.2 rfl hne
  · exact h

theorem isActive_of_sameForm {q : Split} {read : Option Doc} (h : sameForm read (q.row p "pending")) {doc : Doc}
    (hdoc : read = some doc) : isActive doc = false := by
  subst hdoc
  have hall := List.all_eq_true.mp h "state" (by decide)
  have hstate : (doc.get "state").eqStr "pending" = true := hall
  unfold isActive
  rw [hstate]
  exact Bool.and_false _

theorem Shares.Sound.step (h : s.Sound C puts gets) {e : ShareEvent} (hm : s.Meets puts e) :
    (s.step C puts gets e).Sound C puts gets := by
  have hmoved : ∀ {i : ℕ} (ph : PutPhase), (s.put i).Holds → (∀ q, ph ≠ .verified q) →
      (s.putMoved i ph).Sound C puts gets :=
    fun ph hh hph => h.putMoved (h.holds _ hh) fun q _ hq _ => absurd hq (hph q)
  cases e with
  | readRow j works => exact h.readRow j works
  | askOrigin j answers => exact h.askOrigin j answers
  | readEscrow j works => exact h.readEscrow j works
  | fail i => exact h.close i
  | acquire i =>
    simp only [Shares.step]
    split
    · rename_i hput hlock
      -- the lock is free, so no call holds it
      have hfree : ∀ i', ¬(s.put i').Holds := by
        intro i' hi'
        rw [h.holds i' hi'] at hlock
        cases hlock
      refine h.ofPut rfl rfl h.outside (fun _ _ hrow => hrow) ?_ ?_
      · intro i' hi'
        simp only [Shares.putMoved, Function.update_apply] at hi' ⊢
        split_ifs at hi' with heq
        · rw [heq]
        · exact absurd hi' (hfree i')
      · intro i' q doc hq
        simp only [Shares.putMoved, Function.update_apply] at hq
        split_ifs at hq with heq
        exact absurd (by rw [hq]; trivial) (hfree i')
    · exact h
  | prepare i r =>
    simp only [Shares.step]
    split
    · rename_i hput
      split
      · exact hmoved _ (by rw [hput]; trivial) fun _ hq => (nomatch hq)
      · exact h.close i
    · exact h
  | writeRow i =>
    simp only [Shares.step]
    split
    · rename_i q hput
      exact h.store (by rw [hput]; trivial) q "pending" (fun _ hq => (nomatch hq)) fun doc hdoc => hm q doc hput hdoc
    · exact h
  | putEscrow i =>
    simp only [Shares.step]
    split
    · rename_i q hput
      split
      · exact h.close i
      · have hs := hmoved (.escrowed q) (by rw [hput]; trivial) fun _ hq => (nomatch hq)
        exact hs.ofPut rfl rfl hs.outside (fun _ _ hrow => hrow) hs.holds hs.verified
    · exact h
  | putShare i =>
    simp only [Shares.step]
    split
    · rename_i q hput
      have hs := hmoved (.shared q) (by rw [hput]; trivial) fun _ hq => (nomatch hq)
      exact hs.ofPut rfl rfl hs.outside (fun _ _ hrow => hrow) hs.holds hs.verified
    · exact h
  | verify i =>
    simp only [Shares.step]
    split
    · rename_i q hput
      split_ifs with hform
      · exact h.putMoved (h.holds i (by rw [hput]; trivial)) fun _ doc _ hdoc => isActive_of_sameForm hform hdoc
      · exact h.close i
    · exact h
  | activate i =>
    simp only [Shares.step]
    split
    · rename_i q hput
      have hs := @Shares.Sound.store _ _ _ _ h i (by rw [hput]; trivial) q "active" .ended (fun _ hq => (nomatch hq))
        fun doc hdoc => h.verified i q doc hput hdoc
      exact hs.close i
    · exact h

theorem Shares.Sound.run : ∀ {events : List ShareEvent} {s : Shares}, s.Sound C puts gets →
    s.RunMeets C puts gets events → (s.run C puts gets events).Sound C puts gets
  | [], _, h, _ => h
  | _ :: _, _, h, hm => (h.step hm.1).run hm.2

/-- No call under way. -/
def Shares.start (n : Node) (origin : String → Option OriginShare) (escrow : String → Option Bytes) : Shares :=
  ⟨n, origin, escrow, none, fun _ => .idle, fun _ => .idle, []⟩

theorem Shares.start_sound {n : Node} (hi : n.inTxn = false) (origin : String → Option OriginShare)
    (escrow : String → Option Bytes) : (Shares.start n origin escrow).Sound C puts gets where
  outside := hi
  holds := fun _ h => h.elim
  verified := fun _ _ _ h => (nomatch h)
  served := fun _ _ h => (nomatch h)
  knows := fun _ => trivial
  right := fun _ h => (nomatch h)
  remembers := fun _ _ h => (nomatch h)
  recorded := fun _ h => (nomatch h)

/-- The keys of a list that have one check value are one key. -/
def Custodians.TellsApart (C : Custodians) (p : String) (keys : List Bytes) : Prop :=
  ∀ k ∈ keys, ∀ k' ∈ keys, C.keyCheckValue p k = C.keyCheckValue p k' → k = k'

/-- **A served key is neither lost nor replaced**, while no `put` writes its pending row over an active one. -/
theorem served_key_kept (C : Custodians) (puts : ℕ → PutCall) (gets : ℕ → GetCall) (n : Node) (hi : n.inTxn = false)
    (origin : String → Option OriginShare) (escrow : String → Option Bytes) (events : List ShareEvent)
    (hm : (Shares.start n origin escrow).RunMeets C puts gets events)
    (hkcv : ∀ p, C.TellsApart p (((Shares.start n origin escrow).run C puts gets events).served p)) :
    ∀ r ∈ ((Shares.start n origin escrow).run C puts gets events).results, ∀ k ∈ r.before,
      r.result = .key k ∨ r.result = .unavailable := by
  have hs := (@Shares.start_sound C puts gets n hi origin escrow).run hm
  intro r hr k hk
  rcases hs.right r hr k hk with hres | ⟨k', hres, hc⟩
  · exact .inr hres
  · have hk' : k' ∈ ((Shares.start n origin escrow).run C puts gets events).served r.principal := by
      refine List.mem_filterMap.mpr ⟨r, hr, ?_⟩
      rw [if_pos rfl, hres]
      rfl
    rw [hkcv r.principal k' hk' k (hs.recorded r hr k hk) hc] at hres
    exact .inl hres

def plainCustodians : Custodians where
  toKeyProvider := plainProvider
  hmac key _ := key
  sha256 bs := bs
  split _ key _ := key
  combine a b := if a.1 ≠ b.1 ∧ a.2 = b.2 then some a.2 else none
  sealShare _ entry := entry.y
  openSealed _ := none

def oneKey : Bytes := List.replicate 32 1

def samePut (_ : ℕ) : PutCall := ⟨"p", oneKey⟩

def plainGet (_ : ℕ) : GetCall := ⟨"p", false⟩

def emptyShares : Shares := Shares.start keyNode (fun _ => none) fun _ => none

def putThenGet : List ShareEvent :=
  [.acquire 0, .prepare 0 ⟨0, 0, 0, [0]⟩, .writeRow 0, .putEscrow 0, .putShare 0, .verify 0, .activate 0,
   .readRow 0 true, .askOrigin 0 true]

def getTwice : List ShareEvent := putThenGet ++ [.readRow 1 true, .askOrigin 1 true]

def putAgain : List ShareEvent :=
  putThenGet ++ [.acquire 1, .prepare 1 ⟨0, 0, 0, [1]⟩, .writeRow 1, .fail 1, .readRow 1 true]

theorem served_of_results {s : Shares} {key : Bytes}
    (h : s.results.all (fun r => r.result.key?.all (· == key)) = true) (p : String) :
    ∀ k ∈ s.served p, k = key := by
  intro k hk
  obtain ⟨r, hr, hkey⟩ := List.mem_filterMap.mp hk
  split_ifs at hkey
  have := List.all_eq_true.mp h r hr
  rw [hkey] at this
  exact beq_iff_eq.mp this

theorem tellsApart_of_results {s : Shares} {key : Bytes}
    (h : s.results.all (fun r => r.result.key?.all (· == key)) = true) (C : Custodians) (p : String) :
    C.TellsApart p (s.served p) := by
  intro k hk k' hk' _
  rw [served_of_results h p k hk, served_of_results h p k' hk']

theorem served_key_kept_twice :
    ((emptyShares.run plainCustodians samePut plainGet getTwice).results.map (·.before) = [[], [oneKey]]) ∧
      ∀ r ∈ (emptyShares.run plainCustodians samePut plainGet getTwice).results, ∀ k ∈ r.before,
        r.result = .key k ∨ r.result = .unavailable := by
  refine ⟨by decide +kernel, ?_⟩
  refine served_key_kept plainCustodians samePut plainGet _ rfl _ _ getTwice ?_ ?_
  · refine ⟨trivial, trivial, ?_, trivial, trivial, trivial, trivial, trivial, trivial, trivial, trivial, trivial⟩
    intro q doc _ hdoc
    have hnone : docOf keyNode.db (masterKeyId "p") = none := rfl
    exact absurd (hnone.symm.trans hdoc) fun he => (nomatch he)
  · exact @tellsApart_of_results _ oneKey (by decide +kernel) plainCustodians

theorem served_key_lost :
    ¬ ∀ (C : Custodians) (puts : ℕ → PutCall) (gets : ℕ → GetCall) (n : Node)
      (origin : String → Option OriginShare) (escrow : String → Option Bytes) (events : List ShareEvent),
      n.inTxn = false →
      (∀ p, C.TellsApart p (((Shares.start n origin escrow).run C puts gets events).served p)) →
      ∀ r ∈ ((Shares.start n origin escrow).run C puts gets events).results, ∀ k ∈ r.before,
        r.result = .key k ∨ r.result = .unavailable := by
  intro h
  have hall := h plainCustodians samePut plainGet keyNode (fun _ => none) (fun _ => none) putAgain rfl
    (@tellsApart_of_results _ oneKey (by decide +kernel) plainCustodians)
  have hlost : (emptyShares.run plainCustodians samePut plainGet putAgain).results.any
      (fun r => r.before == [oneKey] && r.result == .none) = true := by
    decide +kernel
  obtain ⟨r, hr, hb⟩ := List.any_eq_true.mp hlost
  obtain ⟨hbefore, hres⟩ := Bool.and_eq_true_iff.mp hb
  rcases hall r hr oneKey (by rw [beq_iff_eq.mp hbefore]; exact List.mem_singleton.mpr rfl) with hk | hk
  · rw [beq_iff_eq.mp hres] at hk
    cases hk
  · rw [beq_iff_eq.mp hres] at hk
    cases hk

end Mantle
