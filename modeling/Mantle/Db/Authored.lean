import Mantle.Db.Tables

/-!
# Mantle.Db.Authored — storing a document of this node

A put of a document without content and container, as this node's own, writes its row and nothing else, or nothing at
all.
-/

namespace Mantle

open Tx

/-- **An authored put of a document without content.** -/
theorem putAuthored_tables {doc : Doc} (hc : (doc.get "content_ref").truthy = false) {n : Node}
    (hi : n.inTxn = false) :
    Runs (putArtifact doc true false) n
      (fun _ n' => (∃ seq, RowWritten n.origin doc n.origin (.int seq) n.db n'.db) ∧ n'.inTxn = false ∧
        n'.origin = n.origin)
      fun n' => SameTables n.db n'.db ∧ n'.inTxn = false ∧ n'.origin = n.origin := by
  unfold putArtifact
  refine runs_ite (fun _ => runs_throw ⟨SameTables.refl _, hi, rfl⟩) fun _ => ?_
  have hstart : At n (SameTables n.db) n := ⟨rfl, rfl, SameTables.refl _⟩
  refine (write_at (Q := fun _ db => ∃ seq, RowWritten n.origin doc n.origin (.int seq) n.db db)
    (fun _ a b hab h => h.imp fun _ hw => hw.then_sameTables hab) hstart hi ?_).mono ?_ ?_
  · intro m hdb hm
    have hsnap : withSnapshot doc true false = pure doc := by simp [withSnapshot, hc]
    rw [hsnap]
    change Runs (versionFor doc true >>= fun v => writeRow doc v.1 v.2) m _ _
    have henv := (inner_author (A := .any) (n := m) doc (fun _ _ => edgeAdm_any _ _) (docAdm_any true doc)).sameEnv
    have htab : Runs (versionFor doc true >>= fun v => writeRow doc v.1 v.2) m
        (fun _ m' => ∃ seq, RowWritten n.origin doc n.origin (.int seq) n.db m'.db) fun _ => True := by
      refine runs_bind (runs_bind (runs_get (runs_bind ((allocate_runs _ _).imp ?_))))
      rintro seq m₁ ⟨-, rfl⟩
      refine runs_pure ((writeRow_tables doc _ _ _).imp ?_)
      intro _ m₂ h₂
      refine ⟨seq, ?_⟩
      have ho : m.origin = n.origin := hm.origin
      simp only [ho] at h₂
      exact h₂.of_sameTables ⟨by rw [← hdb], by rw [← hdb]⟩
    refine (henv.and htab).mono ?_ ?_
    · rintro _ m' ⟨he, hw⟩
      exact hm.of_sameEnv he hw
    · rintro m' ⟨he, -⟩
      exact hm.of_sameEnv he trivial
  · rintro _ n' ⟨hat, hin⟩
    exact ⟨hat.holds, hin, hat.origin⟩
  · rintro n' ⟨hat, hin⟩
    exact ⟨hat.holds, hin, hat.origin⟩

theorem find?_stampedDoc {doc : Doc} {origin : String} {seq : Val} {prev : Option VRow} {k : String}
    (hk : k ∉ stampKeys) : (stampedDoc doc origin seq prev).find? k = doc.find? k := by
  simp only [stampKeys, List.mem_cons, List.not_mem_nil, or_false, not_or] at hk
  obtain ⟨h1, h2, h3, h4⟩ := hk
  have hset : ∀ (d : Doc) (k' : String) (v : Val), k ≠ k' → (d.set k' v).find? k = d.find? k := by
    intro d k' v hne
    rw [Doc.find?_set, if_neg hne]
  have hattr : (attributeTime ((doc.set "_origin" (.str origin)).set "_seq" seq) origin).find? k = doc.find? k := by
    unfold attributeTime
    split_ifs
    · rw [hset _ _ _ h2, hset _ _ _ h1]
    · rw [hset _ _ _ h2, hset _ _ _ h1]
    · rw [hset _ _ _ h4, hset _ _ _ h2, hset _ _ _ h1]
  unfold stampedDoc keepTime
  cases prev with
  | none => exact hattr
  | some p =>
    dsimp only
    split_ifs
    · exact hattr
    · rw [hset _ _ _ h3, hattr]
    · rw [hset _ _ _ h4, hset _ _ _ h3, hattr]

/-- The row of the document is written, and nothing else. -/
structure DocStored (doc : Doc) (id : String) (db db' : Store) : Prop where
  edge : db'.edge = db.edge
  others : ∀ id', id' ≠ id → db'.vertex.lookup id' = db.vertex.lookup id'
  row : ∃ r, db'.vertex.lookup id = some r ∧ bindText (doc.get "content_type") = .ok r.ct ∧
    ∀ k ∉ stampKeys, r.doc.val.find? k = (doc.find? k).map Val.norm

theorem docStored_of_written {doc : Doc} {node origin : String} {seq : ℤ} {db db' : Store}
    (hplace : placement doc = none) (h : RowWritten node doc origin (.int seq) db db') :
    ∃ id, doc.get "id" = .str id ∧ DocStored doc id db db' := by
  obtain ⟨id, s, leaf, row, m, hid, -, hrow, hmv, hme, hpl⟩ := h.row
  have hsame : SameTables m db' := by
    rcases hpl with ⟨hs, -⟩ | ⟨cid, aid, seq, leaf, erow, hp, -⟩
    · exact hs
    · rw [hplace] at hp
      cases hp
  refine ⟨id, docId_ok hid, ⟨hsame.edge.trans hme, ?_, ?_⟩⟩
  · intro id' hne
    rw [hsame.vertex, hmv, Table.lookup_insert_of, if_neg hne]
  · have hup : (upsertVertex (db.vertex.lookup id) row).ct = row.ct := by
      cases db.vertex.lookup id <;> rfl
    refine ⟨upsertVertex (db.vertex.lookup id) row, ?_, ?_, ?_⟩
    · rw [hsame.vertex, hmv, Table.lookup_insert_of, if_pos rfl]
    · have hct := vertexRow_ct hrow
      rwa [stampedDoc_get (by decide), ← hup] at hct
    · intro k hk
      rw [(upsertVertex_fields _ row).2.2.2, (vertexRow_ok hrow).2.2.2, Doc.find?_norm, find?_stampedDoc hk]

/-- **Storing a document of this node.** -/
theorem putAuthored_stored {doc : Doc} (hc : (doc.get "content_ref").truthy = false)
    (hplace : placement doc = none) {n : Node} (hi : n.inTxn = false) :
    Runs (putArtifact doc true false) n
      (fun _ n' => (∃ id, doc.get "id" = .str id ∧ DocStored doc id n.db n'.db) ∧ n'.inTxn = false)
      fun n' => SameTables n.db n'.db ∧ n'.inTxn = false := by
  refine (putAuthored_tables hc hi).mono ?_ ?_
  · rintro _ n' ⟨⟨seq, hw⟩, hin, -⟩
    exact ⟨docStored_of_written hplace hw, hin⟩
  · rintro n' ⟨hs, hin, -⟩
    exact ⟨hs, hin⟩

end Mantle
