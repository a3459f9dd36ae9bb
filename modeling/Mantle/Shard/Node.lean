import Mantle.Search.Custody

/-!
# Mantle.Shard.Node — signed shards and the node that holds them (`mesh/manifest.py`, `mesh/node.py`)

`importShard` is what a node checks before it holds a shard.  A dictionary is a table, its order aside; the text that
is signed is a parameter.
-/

namespace Mantle

namespace Shard

variable {a r : String} {v : ℤ}

/-- What a call raises: `ShardVerifyError`, another `ValueError`, `OSError`, or anything else. -/
inductive Raised
  | verify
  | value
  | os
  | other
deriving DecidableEq, Repr

/-! ### Manifests -/

structure ShardItem where
  id : String
  hash : String
  size : ℕ
  origin : String
  channel : String
deriving DecidableEq, Repr

/-- What is signed of a manifest. -/
structure Body where
  regionId : String
  version : ℤ
  authority : String
  density : ℕ
  contentRoot : String
  items : List ShardItem
deriving DecidableEq, Repr

structure Manifest extends Body where
  signature : String
deriving DecidableEq, Repr

/-- Hashing and signing.  Ed25519 accepts only bytes the authority signed, and SHA-256 has no collisions. -/
structure Signing where
  sha256 : Bytes → Bytes
  /-- `canonical`; none where the text cannot be written, which is a `ValueError`. -/
  canonical : Body → Option Bytes
  sign : Bytes → Bytes
  /-- Of a signature and a message. -/
  verify : Bytes → Bytes → Bool
  /-- What the authority signs. -/
  signed : Bytes → Prop
  sha256_inj : Function.Injective sha256
  verify_signed : ∀ s b, verify s b = true → signed b

def hexDigest (b : Bytes) : String := hexOfBytes (b.map UInt8.toNat)

def hexValue (c : Char) : Option ℕ :=
  if c.isDigit then some (c.toNat - '0'.toNat)
  else if 'a' ≤ c ∧ c ≤ 'f' then some (c.toNat - 'a'.toNat + 10)
  else if 'A' ≤ c ∧ c ≤ 'F' then some (c.toNat - 'A'.toNat + 10)
  else none

/-- `bytes.fromhex`: pairs of digits, with blanks between them. -/
def fromHex : List Char → Option Bytes
  | [] => some []
  | [c] => if c.isWhitespace then some [] else none
  | c :: d :: cs =>
    if c.isWhitespace then fromHex (d :: cs)
    else
      match hexValue c, hexValue d with
      | some h, some l => (fromHex cs).map fun bs => UInt8.ofNat (16 * h + l) :: bs
      | _, _ => none

section Manifests

variable (K : Signing)

def itemHash (content : Bytes) : String := hexDigest (K.sha256 content)

/-- `content_root`, over the sorted hashes; none is a `ValueError`. -/
def contentRoot (hashes : List String) : Option String :=
  ((hashes.insertionSort fun a b => a ≤ b).mapM fun h => fromHex h.toList).map fun bs => hexDigest (K.sha256 bs.flatten)

/-- What an authority observed of an item. -/
structure Attested where
  origin : String
  channel : String
deriving DecidableEq, Repr

abbrev Payload := Table String Bytes

def shardItem (attest : Table String Attested) (item : String × Bytes) : ShardItem :=
  let a := (attest.lookup item.1).getD ⟨"", ""⟩
  ⟨item.1, itemHash K item.2, item.2.length, a.origin, a.channel⟩

/-- `build_manifest`, before it is signed. -/
def buildManifest (regionId : String) (version : ℤ) (authority : String) (items : Payload)
    (attest : Table String Attested) : Option Body :=
  let rows := items.toPairs.map (shardItem K attest)
  (contentRoot K (rows.map ShardItem.hash)).map fun root => ⟨regionId, version, authority, rows.length, root, rows⟩

def signManifest (b : Body) : Option Manifest := (K.canonical b).map fun text => ⟨b, hexDigest (K.sign text)⟩

/-- `verify_manifest`: the signature, then the content root. -/
def verifyManifest (m : Manifest) : Except Raised Bool :=
  match fromHex m.signature.toList, K.canonical m.toBody with
  | some sig, some text =>
    if K.verify sig text then
      match contentRoot K (m.items.map ShardItem.hash) with
      | some root => .ok (decide (root = m.contentRoot))
      | none => .error .value
    else .ok false
  | _, _ => .ok false

end Manifests

/-! ### The node -/

/-- A shard as a node holds it. -/
structure Held where
  manifest : Manifest
  items : Payload

structure MeshNode where
  shards : Table String Held

namespace MeshNode

variable (K : Signing) (N : MeshNode)

def versionOf (regionId : String) : ℤ :=
  match N.shards.lookup regionId with
  | some s => s.manifest.version
  | none => -1

/-- The shard of a region is replaced. -/
def hold (regionId : String) (s : Held) : MeshNode := ⟨N.shards.insert regionId s⟩

/-- `put_shard`; a manifest that cannot be built or written is a `ValueError`. -/
def putShard (regionId : String) (items : Payload) (version : ℤ) (authority : String) (attest : Table String Attested) :
    Except Raised MeshNode :=
  match (buildManifest K regionId version authority items attest).bind (signManifest K) with
  | some m => .ok (N.hold regionId ⟨m, items⟩)
  | none => .error .value

def checkItems (items : Payload) : List ShardItem → Except Raised Unit
  | [] => .ok ()
  | si :: rest =>
    match items.lookup si.id with
    | none => .error .verify
    | some content => if itemHash K content ≠ si.hash then .error .verify else checkItems items rest

/-- `import_shard`; without any items it raises where they are looked at. -/
def importShard (m : Manifest) (items : Option Payload) : Except Raised MeshNode :=
  match verifyManifest K m with
  | .error e => .error e
  | .ok false => .error .verify
  | .ok true =>
    match items with
    | none => .error .other
    | some items =>
      match checkItems K items m.items with
      | .error e => .error e
      | .ok _ => .ok (N.hold m.regionId ⟨m, items⟩)

end MeshNode

/-! ### What an import checks -/

def SignedBy (K : Signing) (m : Manifest) : Prop := ∃ text, K.canonical m.toBody = some text ∧ K.signed text

/-- Every listed item is there, with the hash that is listed. -/
def Covers (K : Signing) (m : Manifest) (items : Payload) : Prop :=
  ∀ si ∈ m.items, ∃ content, items.lookup si.id = some content ∧ itemHash K content = si.hash

def Listed (m : Manifest) (items : Payload) : Prop := ∀ id, (items.lookup id).isSome = true → ∃ si ∈ m.items, si.id = id

variable {attest : Table String Attested} {items : Payload}

section Import

variable {K : Signing} {N N' : MeshNode} {m : Manifest}

theorem verifyManifest_true (h : verifyManifest K m = .ok true) : SignedBy K m := by
  unfold verifyManifest at h
  cases hsig : fromHex m.signature.toList with
  | none =>
    rw [hsig] at h
    cases h
  | some sig =>
    cases htext : K.canonical m.toBody with
    | none =>
      rw [hsig, htext] at h
      cases h
    | some text =>
      rw [hsig, htext] at h
      dsimp only at h
      split_ifs at h with hv
      · exact ⟨text, htext, K.verify_signed sig text hv⟩
      · cases h

theorem checkItems_ok : ∀ {rows : List ShardItem}, MeshNode.checkItems K items rows = .ok () →
    ∀ si ∈ rows, ∃ content, items.lookup si.id = some content ∧ itemHash K content = si.hash := by
  intro rows
  induction rows with
  | nil => exact fun _ si hsi => absurd hsi List.not_mem_nil
  | cons row rows ih =>
    intro h si hsi
    unfold MeshNode.checkItems at h
    cases hl : items.lookup row.id with
    | none =>
      rw [hl] at h
      cases h
    | some content =>
      rw [hl] at h
      dsimp only at h
      split_ifs at h with hhash
      rcases List.mem_cons.mp hsi with rfl | hmem
      · exact ⟨content, hl, not_not.mp hhash⟩
      · exact ih h si hmem

/-- **What `import_shard` stored.** -/
theorem importShard_ok {items : Option Payload} (h : N.importShard K m items = .ok N') :
    ∃ p, items = some p ∧ SignedBy K m ∧ Covers K m p ∧ N' = N.hold m.regionId ⟨m, p⟩ := by
  unfold MeshNode.importShard at h
  cases hv : verifyManifest K m with
  | error e =>
    rw [hv] at h
    cases h
  | ok b =>
    rw [hv] at h
    cases b with
    | false => cases h
    | true =>
      cases items with
      | none => cases h
      | some p =>
        dsimp only at h
        cases hc : MeshNode.checkItems K p m.items with
        | error e =>
          rw [hc] at h
          cases h
        | ok u =>
          rw [hc] at h
          cases h
          exact ⟨p, rfl, verifyManifest_true hv, checkItems_ok hc, rfl⟩

theorem buildManifest_some {b : Body} (h : buildManifest K r v a items attest = some b) :
    b.regionId = r ∧ b.version = v ∧ b.items = items.toPairs.map (shardItem K attest) := by
  unfold buildManifest at h
  obtain ⟨root, -, rfl⟩ := Option.map_eq_some_iff.mp h
  exact ⟨rfl, rfl, rfl⟩

theorem putShard_ok (h : N.putShard K r items v a attest = .ok N') : ∃ m,
      m.regionId = r ∧ m.version = v ∧ m.items = items.toPairs.map (shardItem K attest) ∧
      (buildManifest K r v a items attest = some m.toBody ∧ ∃ text, K.canonical m.toBody = some text) ∧
      N' = N.hold r ⟨m, items⟩ := by
  unfold MeshNode.putShard at h
  cases hm : (buildManifest K r v a items attest).bind (signManifest K) with
  | none =>
    rw [hm] at h
    cases h
  | some m =>
    rw [hm] at h
    cases h
    obtain ⟨b, hb, hs⟩ := Option.bind_eq_some_iff.mp hm
    obtain ⟨text, htext, rfl⟩ := Option.map_eq_some_iff.mp hs
    obtain ⟨hr, hv, hi⟩ := buildManifest_some hb
    exact ⟨_, hr, hv, hi, ⟨hb, text, htext⟩, rfl⟩

end Import

def plainSigning (texts : List Bytes) : Signing where
  sha256 := id
  canonical := fun b => some ((b.regionId ++ b.contentRoot).toList.map (fun c => UInt8.ofNat c.toNat) ++
    [UInt8.ofNat b.version.toNat])
  sign := id
  verify := fun s t => decide (s = t ∧ t ∈ texts)
  signed := fun t => t ∈ texts
  sha256_inj := Function.injective_id
  verify_signed := fun _ _ h => (of_decide_eq_true h).2

end Shard

end Mantle
