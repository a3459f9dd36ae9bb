import Mantle.Base.Copies
import Mantle.Shard.Node

/-!
# Mantle.Shard.Pulls — the doors shards come in by (`mesh/node.py`, `mesh/service.py`, `mesh/directory.py`, `shard/store.py`)

Four calls hand what comes back to `import_shard`, each with a test and error handling of its own.
-/

namespace Mantle

namespace Shard

open Run

variable {items : Option Payload} {m : Manifest}

/-- What a region is answered with: nothing, an exception, or a manifest that came with items or without. -/
inductive ShardAnswer
  | missing
  | raises (e : Raised)
  | shard (m : Manifest) (items : Option Payload)

/-- An advertised manifest, and the answer if its region is asked for. -/
structure Offer where
  manifest : Manifest
  answer : ShardAnswer

structure Provider where
  peer : String
  answer : ShardAnswer

namespace MeshNode

variable (K : Signing)

/-- `sync_from`; with no regions given, also `pull_from`. -/
def syncLoop (want : Option (List String)) : List Offer → List String → MeshNode →
    Except Raised (List String) × MeshNode
  | [], synced, N => (.ok synced, N)
  | o :: rest, synced, N =>
    if want.any fun w => decide (o.manifest.regionId ∉ w) then syncLoop want rest synced N
    else if N.versionOf o.manifest.regionId < o.manifest.version then
      match o.answer with
      | .missing => syncLoop want rest synced N
      | .raises e => (.error e, N)
      | .shard m items =>
        match N.importShard K m items with
        | .ok N' => syncLoop want rest (synced ++ [o.manifest.regionId]) N'
        | .error e => (.error e, N)
    else syncLoop want rest synced N

def syncFrom (want : Option (List String)) (offers : List Offer) (N : MeshNode) :
    Except Raised (List String) × MeshNode := N.syncLoop K want offers []

def pullFrom (offers : List Offer) (N : MeshNode) : Except Raised (List String) × MeshNode := N.syncLoop K none offers []

/-- What `pull_regions` passes over: `ShardVerifyError`, `OSError` and `ValueError`. -/
def failsOver : Raised → Bool
  | .other => false
  | _ => true

def pullRegion (region : String) : List Provider → MeshNode → Except Raised (Option String) × MeshNode
  | [], N => (.ok none, N)
  | p :: rest, N =>
    match p.answer with
    | .missing => pullRegion region rest N
    | .shard _ none => pullRegion region rest N
    | .raises e => if failsOver e then pullRegion region rest N else (.error e, N)
    | .shard m (some items) =>
      if m.version ≤ N.versionOf region then (.ok (some p.peer), N)
      else
        match N.importShard K m (some items) with
        | .ok N' => (.ok (some p.peer), N')
        | .error e => if failsOver e then pullRegion region rest N else (.error e, N)

/-- `pull_regions`, over the plan of the directory. -/
def pullLoop : List (String × List Provider) → List (String × Option String) → MeshNode →
    Except Raised (List (String × Option String)) × MeshNode
  | [], satisfied, N => (.ok satisfied, N)
  | (region, providers) :: rest, satisfied, N =>
    match N.pullRegion K region providers with
    | (.ok peer, N') => pullLoop rest (satisfied ++ [(region, peer)]) N'
    | (.error e, N') => (.error e, N')

def pullRegions (plan : List (String × List Provider)) (N : MeshNode) :
    Except Raised (List (String × Option String)) × MeshNode := N.pullLoop K plan []

/-- `load_node`, over what `get` makes of the files. -/
def loadLoop : List ShardAnswer → ℕ × ℕ → MeshNode → Except Raised (ℕ × ℕ) × MeshNode
  | [], counts, N => (.ok counts, N)
  | file :: rest, (loaded, rejected), N =>
    match file with
    | .missing => loadLoop rest (loaded, rejected + 1) N
    | .raises e => (.error e, N)
    | .shard m items =>
      match N.importShard K m items with
      | .ok N' => loadLoop rest (loaded + 1, rejected) N'
      | .error .verify => loadLoop rest (loaded, rejected + 1) N
      | .error e => (.error e, N)

def loadNode (files : List ShardAnswer) (N : MeshNode) : Except Raised (ℕ × ℕ) × MeshNode := N.loadLoop K files (0, 0)

end MeshNode

/-- What happens to a node. -/
inductive ShardEvent
  | put (region : String) (items : Payload) (version : ℤ) (authority : String) (attest : Table String Attested)
  | syncFrom (want : Option (List String)) (offers : List Offer)
  | pullFrom (offers : List Offer)
  | pullRegions (plan : List (String × List Provider))
  | loadNode (files : List ShardAnswer)

def MeshNode.step (K : Signing) (N : MeshNode) : ShardEvent → MeshNode
  | .put region items version authority attest =>
    match N.putShard K region items version authority attest with
    | .ok N' => N'
    | .error _ => N
  | .syncFrom want offers => (N.syncFrom K want offers).2
  | .pullFrom offers => (N.pullFrom K offers).2
  | .pullRegions plan => (N.pullRegions K plan).2
  | .loadNode files => (N.loadNode K files).2

/-! ### What is asked of a node -/

/-- Every shard is held under its region, is signed by the authority, and consists of what it lists. -/
def MeshNode.Sound (K : Signing) (N : MeshNode) : Prop :=
  ∀ r s, N.shards.lookup r = some s →
    s.manifest.regionId = r ∧ SignedBy K s.manifest ∧ Covers K s.manifest s.items ∧ Listed s.manifest s.items

/-- No region is given up, and none goes back to an older version. -/
def MeshNode.Advances (N N' : MeshNode) : Prop :=
  ∀ r s, N.shards.lookup r = some s → ∃ s', N'.shards.lookup r = some s' ∧ s.manifest.version ≤ s'.manifest.version

namespace MeshNode

variable (K : Signing)

/-- A shard that fails leaves the node as it is. -/
def tryImport (N : MeshNode) (m : Manifest) (items : Option Payload) : MeshNode :=
  match N.importShard K m items with
  | .ok N' => N'
  | .error _ => N

/-- The region is wanted, and advertised at a newer version. -/
def due (want : Option (List String)) (N : MeshNode) (o : Offer) : Bool :=
  !(want.any fun w => decide (o.manifest.regionId ∉ w)) && decide (N.versionOf o.manifest.regionId < o.manifest.version)

/-- The loop of `sync_from`, were a shard that fails passed over. -/
def syncEach (want : Option (List String)) : List Offer → MeshNode → MeshNode
  | [], N => N
  | o :: rest, N =>
    if N.due want o then
      match o.answer with
      | .missing => syncEach want rest N
      | .raises _ => N
      | .shard m items => syncEach want rest (N.tryImport K m items)
    else syncEach want rest N

/-- The providers of a region, were every shard that fails passed over. -/
def regionEach (region : String) : List Provider → MeshNode → Bool × MeshNode
  | [], N => (true, N)
  | p :: rest, N =>
    match p.answer with
    | .missing => regionEach region rest N
    | .shard _ none => regionEach region rest N
    | .raises e => if failsOver e then regionEach region rest N else (false, N)
    | .shard m (some items) =>
      if m.version ≤ N.versionOf region then (true, N)
      else
        match N.importShard K m (some items) with
        | .ok N' => (true, N')
        | .error _ => regionEach region rest N

def pullEach : List (String × List Provider) → MeshNode → MeshNode
  | [], N => N
  | (region, providers) :: rest, N =>
    match N.regionEach K region providers with
    | (true, N') => pullEach rest N'
    | (false, N') => N'

def loadEach : List ShardAnswer → MeshNode → MeshNode
  | [], N => N
  | file :: rest, N =>
    match file with
    | .missing => loadEach rest N
    | .raises _ => N
    | .shard m items => loadEach rest (N.tryImport K m items)

/-- What an event would leave, were every shard that fails passed over. -/
def stepEach (N : MeshNode) : ShardEvent → MeshNode
  | .syncFrom want offers => N.syncEach K want offers
  | .pullFrom offers => N.syncEach K none offers
  | .pullRegions plan => N.pullEach K plan
  | .loadNode files => N.loadEach K files
  | e => N.step K e

/-! ### The condition -/

/-- The shard brings nothing that its manifest does not list, and is not older than what is held of its region. -/
def Fits (N : MeshNode) (m : Manifest) (items : Payload) : Prop :=
  Listed m items ∧ ∀ s, N.shards.lookup m.regionId = some s → s.manifest.version ≤ m.version

def FitsAs (N : MeshNode) (m : Manifest) (items : Option Payload) : Prop :=
  ∀ N' p, N.importShard K m items = .ok N' → items = some p → N.Fits m p

/-- A shard of a `sync_from` that is imported fits, and after one that fails nothing is due. -/
def SyncClear (want : Option (List String)) : List Offer → MeshNode → Prop
  | [], _ => True
  | o :: rest, N =>
    if N.due want o then
      match o.answer with
      | .missing => SyncClear want rest N
      | .raises _ => True
      | .shard m items => N.FitsAs K m items ∧ match N.importShard K m items with
        | .ok N' => SyncClear want rest N'
        | .error _ => N.syncEach K want rest = N
    else SyncClear want rest N

def RegionClear (region : String) : List Provider → MeshNode → Prop
  | [], _ => True
  | p :: rest, N =>
    match p.answer with
    | .missing => RegionClear region rest N
    | .shard _ none => RegionClear region rest N
    | .raises _ => RegionClear region rest N
    | .shard m (some items) =>
      if m.version ≤ N.versionOf region then True
      else N.FitsAs K m (some items) ∧ ((∃ N', N.importShard K m (some items) = .ok N') ∨ RegionClear region rest N)

/-- What is asked of the providers of a `pull_regions`: a shard that is imported fits. -/
def PullClear : List (String × List Provider) → MeshNode → Prop
  | [], _ => True
  | (region, providers) :: rest, N =>
    N.RegionClear K region providers ∧ PullClear rest (N.pullRegion K region providers).2

/-- A shard that is loaded fits, and one that cannot be verified is a `ShardVerifyError`, or nothing is loaded after it.
-/
def LoadClear : List ShardAnswer → MeshNode → Prop
  | [], _ => True
  | file :: rest, N =>
    match file with
    | .missing => LoadClear rest N
    | .raises _ => True
    | .shard m items => N.FitsAs K m items ∧ match N.importShard K m items with
      | .ok N' => LoadClear rest N'
      | .error .verify => LoadClear rest N
      | .error _ => N.loadEach K rest = N

/-- The authority signs what a `put_shard` builds, and its version is not below the one held. -/
def PutClear (N : MeshNode) (region : String) (items : Payload) (version : ℤ) (authority : String)
    (attest : Table String Attested) : Prop :=
  (∀ b text, buildManifest K region version authority items attest = some b → K.canonical b = some text → K.signed text) ∧
    ∀ s, N.shards.lookup region = some s → s.manifest.version ≤ version

def Clear (N : MeshNode) : ShardEvent → Prop
  | .put region items version authority attest => N.PutClear K region items version authority attest
  | .syncFrom want offers => N.SyncClear K want offers
  | .pullFrom offers => N.SyncClear K none offers
  | .pullRegions plan => N.PullClear K plan
  | .loadNode files => N.LoadClear K files

end MeshNode

/-! ### What the doors do -/

section Doors

variable {K : Signing} {N N' : MeshNode}

theorem MeshNode.Advances.refl (N : MeshNode) : N.Advances N := fun _ s hs => ⟨s, hs, le_refl _⟩

theorem MeshNode.Advances.trans {N₁ N₂ : MeshNode} (h : N.Advances N₁) (h' : N₁.Advances N₂) : N.Advances N₂ := by
  intro r s hs
  obtain ⟨s₁, hs₁, hle⟩ := h r s hs
  obtain ⟨s₂, hs₂, hle'⟩ := h' r s₁ hs₁
  exact ⟨s₂, hs₂, hle.trans hle'⟩

theorem MeshNode.advances_hold {r : String} {s : Held}
    (h : ∀ s₀, N.shards.lookup r = some s₀ → s₀.manifest.version ≤ s.manifest.version) : N.Advances (N.hold r s) := by
  intro r' s' hs'
  unfold MeshNode.hold
  rw [Table.lookup_insert_of]
  split_ifs with hr
  · subst hr
    exact ⟨s, rfl, h s' hs'⟩
  · exact ⟨s', hs', le_refl _⟩

theorem MeshNode.Sound.hold (h : N.Sound K) {r : String} {s : Held}
    (hs : s.manifest.regionId = r ∧ SignedBy K s.manifest ∧ Covers K s.manifest s.items ∧ Listed s.manifest s.items) :
    (N.hold r s).Sound K := by
  intro r' s' hs'
  unfold MeshNode.hold at hs'
  rw [Table.lookup_insert_of] at hs'
  split_ifs at hs' with hr
  · subst hr
    cases hs'
    exact hs
  · exact h r' s' hs'

def Import (K : Signing) (N N' : MeshNode) : Prop := ∃ m p, N.importShard K m (some p) = .ok N' ∧ N.Fits m p

theorem imports_keep (h : Relation.ReflTransGen (Import K) N N') (hs : N.Sound K) : N'.Sound K ∧ N.Advances N' := by
  induction h with
  | refl => exact ⟨hs, MeshNode.Advances.refl N⟩
  | tail _ himport ih =>
    obtain ⟨m, p, hok, hlisted, hver⟩ := himport
    obtain ⟨p', hp', hsigned, hcovers, rfl⟩ := importShard_ok hok
    obtain rfl := Option.some.inj hp'
    exact ⟨ih.1.hold ⟨rfl, hsigned, hcovers, hlisted⟩, ih.2.trans (MeshNode.advances_hold hver)⟩

theorem import_of_fitsAs (hfits : N.FitsAs K m items) (h : N.importShard K m items = .ok N') : Import K N N' := by
  obtain ⟨p, rfl, -⟩ := importShard_ok h
  exact ⟨m, p, h, hfits N' p h rfl⟩

theorem tryImport_ok (h : N.importShard K m items = .ok N') :
    N.tryImport K m items = N' := by
  unfold MeshNode.tryImport
  rw [h]

theorem tryImport_error {e : Raised} (h : N.importShard K m items = .error e) :
    N.tryImport K m items = N := by
  unfold MeshNode.tryImport
  rw [h]

theorem importShard_failsOver {p : Payload} {e : Raised} (h : N.importShard K m (some p) = .error e) :
    MeshNode.failsOver e = true := by
  have hcheck : ∀ rows, MeshNode.checkItems K p rows = .error e → e = .verify := by
    intro rows
    induction rows with
    | nil => exact fun hc => nomatch hc
    | cons row rows ih =>
      intro hc
      unfold MeshNode.checkItems at hc
      cases hl : p.lookup row.id with
      | none =>
        rw [hl] at hc
        cases hc
        rfl
      | some content =>
        rw [hl] at hc
        dsimp only at hc
        split_ifs at hc with hhash
        · cases hc
          rfl
        · exact ih hc
  have hverify : ∀ {x}, verifyManifest K m = .error x → x = .value := by
    intro x hx
    unfold verifyManifest at hx
    split at hx
    · split_ifs at hx
      · split at hx
        · cases hx
        · cases hx
          rfl
    · cases hx
  unfold MeshNode.importShard at h
  cases hv : verifyManifest K m with
  | error x =>
    rw [hv] at h
    cases h
    rw [hverify hv]
    rfl
  | ok b =>
    rw [hv] at h
    cases b with
    | false =>
      cases h
      rfl
    | true =>
      dsimp only at h
      cases hc : MeshNode.checkItems K p m.items with
      | ok u =>
        rw [hc] at h
        cases h
      | error x =>
        rw [hc] at h
        cases h
        rw [hcheck _ hc]
        rfl

theorem syncLoop_cons (want : Option (List String)) (o : Offer) (rest : List Offer) (synced : List String)
    (N : MeshNode) : N.syncLoop K want (o :: rest) synced =
      if N.due want o then
        match o.answer with
        | .missing => N.syncLoop K want rest synced
        | .raises e => (.error e, N)
        | .shard m items =>
          match N.importShard K m items with
          | .ok N' => N'.syncLoop K want rest (synced ++ [o.manifest.regionId])
          | .error e => (.error e, N)
      else N.syncLoop K want rest synced := by
  conv_lhs => unfold MeshNode.syncLoop
  unfold MeshNode.due
  cases hw : (want.any fun w => decide (o.manifest.regionId ∉ w)) with
  | true => simp
  | false => by_cases hv : N.versionOf o.manifest.regionId < o.manifest.version <;> simp [hv]

theorem syncLoop_clear (want : Option (List String)) : ∀ (offers : List Offer) (synced : List String) (N : MeshNode),
    N.SyncClear K want offers → Relation.ReflTransGen (Import K) N (N.syncLoop K want offers synced).2 ∧
      (N.syncLoop K want offers synced).2 = N.syncEach K want offers := by
  intro offers
  induction offers with
  | nil => exact fun _ N _ => ⟨.refl, rfl⟩
  | cons o rest ih =>
    intro synced N hclear
    rw [syncLoop_cons]
    unfold MeshNode.SyncClear at hclear
    unfold MeshNode.syncEach
    by_cases hdue : N.due want o = true
    · rw [if_pos hdue] at hclear ⊢
      rw [if_pos hdue]
      cases ha : o.answer with
      | missing =>
        rw [ha] at hclear
        exact ih synced N hclear
      | raises e => exact ⟨.refl, rfl⟩
      | shard m items =>
        rw [ha] at hclear
        obtain ⟨hfits, hrest⟩ := hclear
        dsimp only
        cases hi : N.importShard K m items with
        | ok N₁ =>
          rw [hi] at hrest
          obtain ⟨himports, heach⟩ := ih (synced ++ [o.manifest.regionId]) N₁ hrest
          rw [tryImport_ok hi]
          exact ⟨.head (import_of_fitsAs hfits hi) himports, heach⟩
        | error e =>
          rw [hi] at hrest
          rw [tryImport_error hi]
          exact ⟨.refl, hrest.symm⟩
    · rw [if_neg hdue] at hclear ⊢
      rw [if_neg hdue]
      exact ih synced N hclear

theorem pullRegion_clear (region : String) : ∀ (providers : List Provider) (N : MeshNode),
    N.RegionClear K region providers → Relation.ReflTransGen (Import K) N (N.pullRegion K region providers).2 := by
  intro providers
  induction providers with
  | nil => exact fun N _ => .refl
  | cons p rest ih =>
    intro N hclear
    unfold MeshNode.RegionClear at hclear
    unfold MeshNode.pullRegion
    cases ha : p.answer with
    | missing =>
      rw [ha] at hclear
      exact ih N hclear
    | raises e =>
      rw [ha] at hclear
      dsimp only
      split_ifs
      · exact ih N hclear
      · exact .refl
    | shard m items =>
      rw [ha] at hclear
      cases items with
      | none => exact ih N hclear
      | some items =>
        dsimp only at hclear ⊢
        split_ifs at hclear ⊢ with hv
        · exact .refl
        · obtain ⟨hfits, hrest⟩ := hclear
          cases hi : N.importShard K m (some items) with
          | ok N₁ => exact .single (import_of_fitsAs hfits hi)
          | error e =>
            dsimp only
            rw [if_pos (importShard_failsOver hi)]
            refine ih N (hrest.resolve_left ?_)
            rintro ⟨N₁, hok⟩
            rw [hi] at hok
            cases hok

theorem pullRegion_each (region : String) : ∀ (providers : List Provider) (N : MeshNode),
    (N.pullRegion K region providers).2 = (N.regionEach K region providers).2 ∧
      ((N.pullRegion K region providers).1.toOption.isSome = (N.regionEach K region providers).1) := by
  intro providers
  induction providers with
  | nil => exact fun N => ⟨rfl, rfl⟩
  | cons p rest ih =>
    intro N
    unfold MeshNode.pullRegion MeshNode.regionEach
    cases p.answer with
    | missing => exact ih N
    | raises e =>
      dsimp only
      split_ifs
      · exact ih N
      · exact ⟨rfl, rfl⟩
    | shard m items =>
      cases items with
      | none => exact ih N
      | some items =>
        dsimp only
        split_ifs
        · exact ⟨rfl, rfl⟩
        · cases hi : N.importShard K m (some items) with
          | ok N₁ => exact ⟨rfl, rfl⟩
          | error e =>
            dsimp only
            rw [if_pos (importShard_failsOver hi)]
            exact ih N

theorem pullLoop_clear : ∀ (plan : List (String × List Provider)) (satisfied : List (String × Option String))
    (N : MeshNode), N.PullClear K plan → Relation.ReflTransGen (Import K) N (N.pullLoop K plan satisfied).2 ∧
      (N.pullLoop K plan satisfied).2 = N.pullEach K plan := by
  intro plan
  induction plan with
  | nil => exact fun _ N _ => ⟨.refl, rfl⟩
  | cons entry rest ih =>
    intro satisfied N hclear
    obtain ⟨region, providers⟩ := entry
    obtain ⟨hregion, hrest⟩ := hclear
    have himports := pullRegion_clear region providers N hregion
    have heach := pullRegion_each (K := K) region providers N
    unfold MeshNode.pullLoop MeshNode.pullEach
    cases hp : N.pullRegion K region providers with
    | mk result N₁ =>
      cases hq : N.regionEach K region providers with
      | mk through N₂ =>
        rw [hp, hq] at heach
        rw [hp] at himports hrest
        obtain ⟨rfl, hthrough⟩ := heach
        cases result with
        | ok peer =>
          obtain rfl : through = true := hthrough.symm
          obtain ⟨himports', heach'⟩ := ih (satisfied ++ [(region, peer)]) N₁ hrest
          exact ⟨himports.trans himports', heach'⟩
        | error e =>
          obtain rfl : through = false := hthrough.symm
          exact ⟨himports, rfl⟩

theorem loadLoop_clear : ∀ (files : List ShardAnswer) (counts : ℕ × ℕ) (N : MeshNode), N.LoadClear K files →
    Relation.ReflTransGen (Import K) N (N.loadLoop K files counts).2 ∧
      (N.loadLoop K files counts).2 = N.loadEach K files := by
  intro files
  induction files with
  | nil => exact fun _ N _ => ⟨.refl, rfl⟩
  | cons file rest ih =>
    rintro ⟨loaded, rejected⟩ N hclear
    unfold MeshNode.LoadClear at hclear
    unfold MeshNode.loadLoop MeshNode.loadEach
    cases file with
    | missing => exact ih (loaded, rejected + 1) N hclear
    | raises e => exact ⟨.refl, rfl⟩
    | shard m items =>
      obtain ⟨hfits, hrest⟩ := hclear
      dsimp only
      cases hi : N.importShard K m items with
      | ok N₁ =>
        rw [hi] at hrest
        obtain ⟨himports, heach⟩ := ih (loaded + 1, rejected) N₁ hrest
        rw [tryImport_ok hi]
        exact ⟨.head (import_of_fitsAs hfits hi) himports, heach⟩
      | error e =>
        rw [hi] at hrest
        rw [tryImport_error hi]
        cases e with
        | verify => exact ih (loaded, rejected + 1) N hrest
        | value => exact ⟨.refl, hrest.symm⟩
        | os => exact ⟨.refl, hrest.symm⟩
        | other => exact ⟨.refl, hrest.symm⟩

theorem putShard_clear {region a : String} {items : Payload} {v : ℤ} {attest : Table String Attested} (hs : N.Sound K)
    (hclear : N.PutClear K region items v a attest) (h : N.putShard K region items v a attest = .ok N') :
    N'.Sound K ∧ N.Advances N' := by
  obtain ⟨m, hr, hv, hitems, ⟨hbuilt, text, htext⟩, rfl⟩ := putShard_ok h
  refine ⟨hs.hold ⟨hr, ⟨text, htext, hclear.1 _ text hbuilt htext⟩, ?_, ?_⟩, MeshNode.advances_hold fun s₀ hs₀ => ?_⟩
  · intro si hsi
    rw [hitems] at hsi
    obtain ⟨item, hitem, rfl⟩ := List.mem_map.mp hsi
    exact ⟨item.2, Table.mem_toPairs.mp hitem, rfl⟩
  · intro id hid
    obtain ⟨content, hcontent⟩ := Option.isSome_iff_exists.mp hid
    refine ⟨shardItem K attest (id, content), ?_, rfl⟩
    rw [hitems]
    exact List.mem_map_of_mem (Table.mem_toPairs.mpr hcontent)
  · rw [hv]
    exact hclear.2 s₀ hs₀

theorem step_clear (hs : N.Sound K) (e : ShardEvent) (hclear : N.Clear K e) :
    (N.step K e).Sound K ∧ N.Advances (N.step K e) ∧ N.step K e = N.stepEach K e := by
  have hdoor : ∀ {M : MeshNode}, Relation.ReflTransGen (Import K) N M ∧ M = N.stepEach K e →
      M.Sound K ∧ N.Advances M ∧ M = N.stepEach K e := by
    rintro M ⟨himports, heach⟩
    exact ⟨(imports_keep himports hs).1, (imports_keep himports hs).2, heach⟩
  cases e with
  | put region items v a attest =>
    refine and_assoc.mp ⟨?_, rfl⟩
    unfold MeshNode.step
    dsimp only
    cases hp : N.putShard K region items v a attest with
    | ok N' => exact putShard_clear hs hclear hp
    | error e => exact ⟨hs, MeshNode.Advances.refl N⟩
  | syncFrom want offers => exact hdoor (syncLoop_clear want offers [] N hclear)
  | pullFrom offers => exact hdoor (syncLoop_clear none offers [] N hclear)
  | pullRegions plan => exact hdoor (pullLoop_clear plan [] N hclear)
  | loadNode files => exact hdoor (loadLoop_clear files (0, 0) N hclear)

end Doors

/-! ### Runs -/

def MeshNode.run (K : Signing) (events : List ShardEvent) : MeshNode := events.foldl (MeshNode.step K) ⟨∅⟩

/-- In every state that is reached: every shard is signed and consists of what it lists, and no region goes back
afterwards. -/
def ShardsKept (K : Signing) (events : List ShardEvent) : Prop :=
  ∀ before after, events = before ++ after →
    (MeshNode.run K before).Sound K ∧ (MeshNode.run K before).Advances (MeshNode.run K events) ∧
      ∀ e rest, after = e :: rest → (MeshNode.run K before).step K e = (MeshNode.run K before).stepEach K e

/-- **A mesh node holds only what the authority signed, and never goes back**, in every run whose events are clear. -/
theorem shards_kept (K : Signing) (events : List ShardEvent)
    (hclear : Along (MeshNode.step K) (MeshNode.Clear K) ⟨∅⟩ events) : ShardsKept K events := by
  have hempty : (⟨∅⟩ : MeshNode).Sound K := fun r s hs => nomatch hs
  have hsound : ∀ (es : List ShardEvent) (N : MeshNode), N.Sound K → Along (MeshNode.step K) (MeshNode.Clear K) N es →
      (es.foldl (MeshNode.step K) N).Sound K := fun es N hN h =>
    along_inv (fun (M : MeshNode) e (hM : M.Sound K) hc => (step_clear hM e hc).1) es N hN h
  have hadvances : ∀ (es : List ShardEvent) (N : MeshNode), N.Sound K →
      Along (MeshNode.step K) (MeshNode.Clear K) N es → N.Advances (es.foldl (MeshNode.step K) N) := by
    intro es
    induction es with
    | nil => exact fun N _ _ => MeshNode.Advances.refl N
    | cons e es ih =>
      intro N hN h
      obtain ⟨hs, hadv, -⟩ := step_clear hN e h.1
      exact hadv.trans (ih _ hs h.2)
  intro before after hsplit
  subst hsplit
  obtain ⟨hbefore, hafter⟩ := along_append before after _ hclear
  have hmid := hsound before _ hempty hbefore
  refine ⟨hmid, ?_, fun e rest he => ?_⟩
  · unfold MeshNode.run
    rw [List.foldl_append]
    exact hadvances after _ hmid hafter
  · subst he
    exact (step_clear hmid e hafter.1).2.2

def PutsClear (K : Signing) (N : MeshNode) : ShardEvent → Prop
  | .put region items version authority attest => N.PutClear K region items version authority attest
  | _ => True

def noteText : Bytes := [114, 48, 49, 1]

def noteManifest : Manifest :=
  { regionId := "r", version := 1, authority := "a", density := 1, contentRoot := "01"
    items := [⟨"x", "01", 1, "", ""⟩], signature := "72303101" }

def stuffedItems : Payload := ((∅ : Payload).insert "x" [1]).insert "y" [2]

theorem stuffed_held : ¬ ∀ (K : Signing) (events : List ShardEvent),
    Along (MeshNode.step K) (PutsClear K) ⟨∅⟩ events → ShardsKept K events := by
  intro h
  have hkept := (h (plainSigning [noteText]) [.pullFrom [⟨noteManifest, .shard noteManifest (some stuffedItems)⟩]]
    ⟨trivial, trivial⟩ _ [] (List.append_nil _).symm).1
  have hheld : ((MeshNode.run (plainSigning [noteText])
      [.pullFrom [⟨noteManifest, .shard noteManifest (some stuffedItems)⟩]]).shards.lookup "r").map
        (fun s => (s.manifest, (s.items.lookup "y").isSome)) = some (noteManifest, true) := by decide +kernel
  obtain ⟨s, hs, he⟩ := Option.map_eq_some_iff.mp hheld
  obtain ⟨si, hsi, hid⟩ := (hkept "r" s hs).2.2.2 "y" (congrArg Prod.snd he)
  rw [show s.manifest = noteManifest from congrArg Prod.fst he] at hsi
  obtain rfl := List.mem_singleton.mp hsi
  exact absurd hid (by decide)

def noteItems : Payload := (∅ : Payload).insert "x" [1]

theorem shards_kept_note : ShardsKept (plainSigning [noteText])
    [.pullFrom [⟨noteManifest, .shard noteManifest (some noteItems)⟩]] := by
  refine shards_kept (plainSigning [noteText]) _ ⟨?_, trivial⟩
  have hok : (match MeshNode.importShard (plainSigning [noteText]) ⟨∅⟩ noteManifest (some noteItems) with
      | .ok _ => true
      | .error _ => false) = true := by decide +kernel
  have hdue : MeshNode.due none ⟨∅⟩ ⟨noteManifest, .shard noteManifest (some noteItems)⟩ = true := by decide
  change MeshNode.SyncClear (plainSigning [noteText]) none [⟨noteManifest, .shard noteManifest (some noteItems)⟩] ⟨∅⟩
  unfold MeshNode.SyncClear
  rw [if_pos hdue]
  dsimp only
  constructor
  · rintro N' p - hp
    obtain rfl := Option.some.inj hp
    refine ⟨fun id hid => ⟨⟨"x", "01", 1, "", ""⟩, List.mem_singleton.mpr rfl, ?_⟩, fun s hs => nomatch hs⟩
    unfold noteItems at hid
    rw [Table.lookup_insert_of] at hid
    split_ifs at hid with hx
    · exact hx.symm
    · cases hid
  · cases hi : MeshNode.importShard (plainSigning [noteText]) ⟨∅⟩ noteManifest (some noteItems) with
    | ok N' => trivial
    | error e =>
      rw [hi] at hok
      cases hok

end Shard

end Mantle
