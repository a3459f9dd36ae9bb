import Mathlib.Data.PNat.Basic
import Mantle.Base.Blake2b
import Mantle.Py.Json

/-!
# Mantle.Db.Constants — the hashes, states and version order of the store

A digest is a number below `2 ^ 64`; an edge key is a 16-byte digest, kept as the number its bytes spell, most
significant first.
-/

namespace Mantle

/-! ### Lineage state -/

inductive VersionOrder
  | newer
  | older
  | same
  | unordered
deriving DecidableEq, Repr

def collectionContentType : String := "application/vnd.agience.collection+json"

def stateLive : String := "live"
def stateArchived : String := "archived"
def legacyLiveStates : List String := ["committed", "draft"]
def liveStatesAll : List String := stateLive :: legacyLiveStates

/-- The lineage state of a document: an absent state is `live`, and so is a legacy one. -/
def stateOf (doc : Doc) : String :=
  let s := ((doc.get "state").orElse (.str stateLive)).pyStr
  if s ∈ legacyLiveStates then stateLive else s

/-- The recorded values a query for `state` matches. -/
def liveStates (state : String) : List String :=
  if state = stateLive ∨ state = "committed" then liveStatesAll else [state]

def nullAuditFields : List String := ["cited_from", "provenance"]

def isMissing (v : Val) : Bool := !v.truthy

/-! ### Hashes -/

/-- The 8-byte digest, as a number. -/
def h64 (data : List ℕ) : ℕ := Blake2b.beNat (Blake2b.hash 8 data)

theorem h64_lt (data : List ℕ) : h64 data < 2 ^ 64 := by
  have h := Blake2b.beNat_hash_lt 8 data
  rwa [show (256 : ℕ) ^ 8 = 2 ^ 64 by decide] at h

def leafOf (artifactId : String) (leaves : ℕ+) : ℕ := h64 (utf8 artifactId) % leaves

/-- The text a `_seq` is hashed under; anything that is no `int` hashes as `0`. -/
def seqText : Val → String
  | .int n => toString n
  | .bool b => reprBool b
  | _ => "0"

def rowHash (artifactId : String) (seq : Val) : ℕ :=
  h64 (utf8 artifactId ++ [0] ++ utf8 (seqText seq))

abbrev EdgeKey := ℕ

def edgeKey (src dst label : String) : EdgeKey :=
  Blake2b.beNat (Blake2b.hash 16 (utf8 src ++ [0] ++ utf8 dst ++ [0] ++ utf8 label))

def keyBytes (key : EdgeKey) : List ℕ := (Blake2b.leBytes 16 key).reverse

def keyHex (key : EdgeKey) : String := hexOfBytes (keyBytes key)

def edgeIdentityKeys : List String := ["_origin", "_seq", "src", "dst", "label"]

def cleanContent (content : Doc) : Doc :=
  content.filter fun e => !e.2.isNone && !decide (e.1 ∈ edgeIdentityKeys)

def canonContent (content : Doc) : Except PyErr String := (cleanContent content).dumps .canonical

def edgeHash (key : EdgeKey) (content : Doc) : Except PyErr ℕ :=
  (canonContent content).map fun canon => h64 (keyBytes key ++ [0] ++ utf8 canon)

theorem edgeHash_lt {key : EdgeKey} {content : Doc} {h : ℕ} (hh : edgeHash key content = .ok h) :
    h < 2 ^ 64 := by
  unfold edgeHash at hh
  cases hc : canonContent content with
  | error e =>
    rw [hc] at hh
    cases hh
  | ok canon =>
    rw [hc] at hh
    cases hh
    exact h64_lt _

theorem edgeHash_congr {key : EdgeKey} {content content' : Doc}
    (h : canonContent content = canonContent content') :
    edgeHash key content = edgeHash key content' := by
  unfold edgeHash
  rw [h]

/-! ### Versions -/

/-- Proper time orders the events of one origin, and nothing orders the events of two. -/
def compareVersion (aOrigin aSeq : Val) (bOrigin : String) (bSeq : ℤ) : VersionOrder :=
  match aSeq.asInt with
  | none => if aOrigin.eqStr bOrigin && aSeq.eqInt bSeq then .same else .unordered
  | some a =>
    if aOrigin.eqStr bOrigin = false then .unordered
    else if a > bSeq then .newer
    else if a < bSeq then .older
    else .same

end Mantle
