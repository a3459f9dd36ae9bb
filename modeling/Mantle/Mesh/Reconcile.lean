import Mathlib.Data.Int.Bitwise
import Mantle.Db.Watch
import Mantle.Mesh.Publish
import Mantle.Mesh.Queue

/-!
# Mantle.Mesh.Reconcile — one round of pulling the leaves that differ

`reconcile_merkle` pulls the first `max_leaves` of the leaves that differ and applies them, passing over whatever
raises.
-/

namespace Mantle

open Tx

variable {a b : Store} {id me : String} {α : Type}

/-! ### Comparing two trees -/

/-- `merkle.fold`. -/
def foldDigests (digests : List ℤ) (target : ℕ) : Option (List ℤ) :=
  if target = 0 ∨ digests.length % target ≠ 0 then none
  else some (digests.zipIdx.foldl (fun out e => out.modify (e.2 % target) (Int.xor · e.1))
    (List.replicate target 0))

/-- `merkle.common`. -/
def commonDigests (a b : List ℤ) : Option (List ℤ) × Option (List ℤ) :=
  let t := min a.length b.length
  (if a.length = t then some a else foldDigests a t, if b.length = t then some b else foldDigests b t)

/-- `merkle.diff`. -/
def diffDigests (mine theirs : List ℤ) : List ℕ :=
  match commonDigests mine theirs with
  | (some a, some b) => (List.range a.length).filter fun i => a[i]? ≠ b[i]?
  | _ =>
    let n := min mine.length theirs.length
    if n = 0 then List.range (max mine.length theirs.length) else List.range n

/-! ### The round -/

/-- The mesh plane in one round: the keys under `mesh/merkle/`, the trees, the lines of the leaf objects, and which of
these can be read. -/
structure Bucket where
  keys : List String
  tree : String → Option (List ℤ)
  leaf : String → ℕ → Option (List Doc)
  answers : String → ℕ → Bool

/-- An object as the round gets it. -/
def Bucket.fetch (bucket : Bucket) (node : String) (idx : ℕ) : Option (List Doc) :=
  if bucket.answers node idx then bucket.leaf node idx else none

def stripSlashes (s : List Char) : List Char :=
  ((s.dropWhile (· = '/')).reverse.dropWhile (· = '/')).reverse

def summaryNode (key : String) : Option String :=
  let name := stripSlashes key.toList
  let suffix := ".json".toList
  if !suffix.isSuffixOf name || decide ('/' ∈ name) then none
  else
    let node := name.take (name.length - suffix.length)
    if node.isEmpty then none else some (String.ofList node)

def Bucket.peers (bucket : Bucket) (me : String) : List String :=
  (bucket.keys.filterMap summaryNode).filter (· ≠ me)

def nativeLeaves (mine theirs : List ℤ) (li : ℕ) : List ℕ :=
  let t := min mine.length theirs.length
  (List.range (max 1 (theirs.length / t))).map fun m => li + m * t

/-- What a round counts: rows applied, objects applied to the end. -/
structure Tally where
  applied : ℕ
  fetched : ℕ

section Round

variable {float : String → Flt} {bucket : Bucket} {node : String} {mine : List ℤ} {maxLeaves : ℕ}

end Round

/-! ### What is held, and what was declined -/

def roundIds : List String := [declinedId, consumedId, merkleCursorId]

/-- The document is here at its version or a newer one. -/
def Present (db : Store) (d : Doc) : Prop :=
  ∃ id r s, d.get "id" = .str id ∧ db.vertex.lookup id = some r ∧ d.get "_origin" = .str r.origin ∧
    (d.get "_seq").asInt = some s ∧ s ≤ r.seq

/-- `_load_declined`. -/
def seenOf (db : Store) : Doc :=
  match (artifactOr db declinedId).get "seen" with
  | .dict items => docOfItems items
  | _ => []

/-- Every row but the round's own is there later, at its version or a newer one of its origin. -/
def Onward (a b : Store) : Prop :=
  ∀ id r, id ∉ roundIds → a.vertex.lookup id = some r →
    ∃ r', b.vertex.lookup id = some r' ∧ r'.origin = r.origin ∧ r.seq ≤ r'.seq

section Onward

variable {a b c : Store} {me : String} {d : Doc}

theorem Onward.refl (a : Store) : Onward a a := fun _ r _ hr => ⟨r, hr, rfl, le_refl _⟩

theorem Onward.trans (h : Onward a b) (h' : Onward b c) : Onward a c := by
  intro id r hid hr
  obtain ⟨r₁, hr₁, ho₁, hs₁⟩ := h id r hid hr
  obtain ⟨r₂, hr₂, ho₂, hs₂⟩ := h' id r₁ hid hr₁
  exact ⟨r₂, hr₂, ho₂.trans ho₁, le_trans hs₁ hs₂⟩

theorem Onward.of_vertex (h : Onward a b) (hv : c.vertex = b.vertex) : Onward a c := by
  unfold Onward
  rw [hv]
  exact h

theorem Onward.of_sameTables (hs : SameTables a b) : Onward a b := (Onward.refl a).of_vertex hs.vertex

theorem Onward.insert {row : VRow} (hv : b.vertex = a.vertex.insert id row)
    (hrow : id ∉ roundIds → ∀ r, a.vertex.lookup id = some r → row.origin = r.origin ∧ r.seq ≤ row.seq) :
    Onward a b := by
  intro x r hx hr
  rw [hv, Table.lookup_insert_of]
  split_ifs with hxid
  · subst hxid
    obtain ⟨ho, hs⟩ := hrow hx r hr
    exact ⟨row, rfl, ho, hs⟩
  · exact ⟨r, hr, rfl, le_refl _⟩

theorem OpPut.vertex (h : OpPut me d a b) (hd : OpShaped id d) :
    ∃ row, (∀ k ∉ stampKeys, row.doc.val.get k = (d.get k).norm) ∧
      b.vertex = a.vertex.insert id row := by
  obtain ⟨origin, seq, hw⟩ := h
  obtain ⟨x, row, s, hx, -, -, -, hdoc, hv⟩ := hw.vertex
  rw [hd.pinned.id] at hx
  cases hx
  refine ⟨row, ?_, hv⟩
  intro k hk
  rw [hdoc k hk]
  simp only [stampKeys, List.mem_cons, List.not_mem_nil, or_false, not_or] at hk
  unfold opDoc
  rw [Doc.get_set_of_ne _ _ hk.2.1, Doc.get_set_of_ne _ _ hk.1]

theorem DocHandled.present (h : DocHandled me d a b) (hid : d.get "id" = .str id) :
    Present b d ∨ isUnordered a d = true := by
  rcases h with ⟨hver, hnew, hs⟩ | ⟨-, origin, s, hv, hw⟩
  · obtain ⟨⟨origin, s⟩, hv⟩ := Option.isSome_iff_exists.mp hver
    obtain ⟨ho, hseq⟩ := incomingVersion_asInt hv
    rw [verdictOf_text hid] at hnew
    cases hr : a.vertex.lookup id with
    | none =>
      rw [hr] at hnew
      exact absurd rfl hnew
    | some r =>
      rw [hr, ho] at hnew
      by_cases hor : origin = r.origin
      · refine .inl ⟨id, r, s, hid, by rw [hs.vertex, hr], by rw [ho, hor], hseq, ?_⟩
        by_contra hlt
        refine hnew (compareVersion_newer_iff.mpr ⟨eqStr_iff.mpr (by rw [hor]), s, hseq, not_le.mp hlt⟩)
      · refine .inr ?_
        have hne : (Val.str origin).eqStr r.origin = false := by
          rw [Bool.eq_false_iff, Ne, eqStr_iff]
          exact fun he => hor (Val.str.inj he)
        unfold isUnordered
        rw [ho, hseq, hid]
        simp [hr, compareVersion, hseq, hne]
  · obtain ⟨x, row, s', hx, hs', hro, hrs, -, hvert⟩ := hw.vertex
    rw [hid] at hx
    cases hx
    refine .inl ⟨id, row, s', hid, by rw [hvert, AList.lookup_insert], ?_, hs', by rw [hrs]⟩
    rw [hro]
    exact (incomingVersion_asInt hv).1

end Onward

/-! ### The record of declinations -/

section Record

variable {db : Store} {batch : List Doc} {d : Doc}

/-- The entries that go into the record. -/
def keptSeen (merged : Doc) : Doc :=
  if merged.length > declinedCap then (merged.insertionSort fun e f => e.1 ≤ f.1).take declinedCap
  else merged

theorem declinedDoc_seen (db : Store) (newly : Doc) :
    (declinedDoc db newly).get "seen" = .dict (keptSeen ((seenOf db).update newly)).toItems := by
  change Val.dict (Doc.toItems (if decide (((seenOf db).update newly).length > declinedCap) = true then _
    else _)) = _
  simp only [decide_eq_true_eq]
  rfl

theorem keptSeen_nodup {merged : Doc} (h : (merged.map Prod.fst).Nodup) :
    ((keptSeen merged).map Prod.fst).Nodup := by
  unfold keptSeen
  split_ifs
  · have hperm := (List.perm_insertionSort (fun e f : String × Val => e.1 ≤ f.1) merged).map Prod.fst
    rw [List.map_take]
    exact (hperm.nodup_iff.mpr h).sublist (List.take_sublist _ _)
  · exact h

theorem docOfItems_norm {e : Doc} (h : (e.map Prod.fst).Nodup) :
    ∃ items, (Val.dict e.toItems).norm = .dict items ∧ docOfItems items = e.norm := by
  have hitems : ∀ e : Doc, Val.normItems e.toItems = e.norm.toItems := by
    intro e
    induction e with
    | nil => rfl
    | cons x e ih =>
      obtain ⟨k, v⟩ := x
      change Val.normItems ((Key.str k, v) :: Doc.toItems e) = _
      rw [Val.normItems, ih]
      rfl
  refine ⟨_, rfl, ?_⟩
  rw [hitems, foldl_setItem_nodup, List.nil_append, docOfItems_toItems]
  rw [List.nil_append]
  have hkeys : e.norm.toItems.map Prod.fst = (e.map Prod.fst).map Key.str := by
    unfold Doc.norm Doc.toItems
    simp
  rw [hkeys]
  exact h.map fun a b hab => Key.str.inj hab

theorem DeclinedBy.seen {newly : Doc} (h : DeclinedBy me newly a b) (hn : ((seenOf a).map Prod.fst).Nodup) :
    (newly = [] ∧ seenOf b = seenOf a) ∨ seenOf b = (keptSeen ((seenOf a).update newly)).norm := by
  rcases h with ⟨he, hs⟩ | ⟨-, hp⟩
  · refine .inl ⟨List.isEmpty_iff.mp he, ?_⟩
    unfold seenOf artifactOr
    rw [hs.vertex]
  · obtain ⟨row, hdoc, hv⟩ := hp.vertex (opShaped_declinedDoc a newly)
    have hget := hdoc "seen" (by decide)
    rw [declinedDoc_seen] at hget
    obtain ⟨items, hitems, hback⟩ := docOfItems_norm (keptSeen_nodup (Doc.keysNodup_update hn newly))
    refine .inr ?_
    unfold seenOf artifactOr
    rw [hv, AList.lookup_insert]
    dsimp only
    rw [hget, hitems]
    exact hback

theorem Doc.norm_keys (d : Doc) : d.norm.map Prod.fst = d.map Prod.fst := by
  unfold Doc.norm
  rw [List.map_map]
  rfl

theorem DeclinedBy.distinct {newly : Doc} (h : DeclinedBy me newly a b) (hn : ((seenOf a).map Prod.fst).Nodup) :
    ((seenOf b).map Prod.fst).Nodup := by
  rcases h.seen hn with ⟨-, hs⟩ | hs
  · rw [hs]
    exact hn
  · rw [hs, Doc.norm_keys]
    exact keptSeen_nodup (Doc.keysNodup_update hn newly)

end Record

/-! ### What a round reaches -/

/-- The document is in an object whose apply returns, when the round comes to it. -/
def Reached (float : String → Flt) (d : Doc) : Node → List (List Doc) → Prop
  | _, [] => False
  | n, lines :: rest =>
    (d ∈ keptItems lines ∧ applySegment float lines lines n = .ok ⟨⟩ (n.applied float lines lines)) ∨
      Reached float d (n.applied float lines lines) rest

section Run

variable {float : String → Flt} {lines : List Doc} {d : Doc}

variable {db₀ : Store} {id : String} {m m' : Node}

end Run

/-! ### Quiet rounds -/

end Mantle
