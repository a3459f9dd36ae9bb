import Mantle.Db.Stamp

/-!
# Mantle.Db.Poll — the carrier scan (`page_by_ct`)

The cursor is one integer over rows of several origins, so a scan is complete as long as what is written meanwhile is
numbered above it and no page ends between two rows of one number.
-/

namespace Mantle

open Tx Relation

variable {afterSeq : ℤ} {ct : String} {db : Store}

/-! ### One page -/

/-- The rows of the type above the cursor, in the order of their numbers. -/
def pendingRows (db : Store) (ct : String) (afterSeq : ℤ) : List (String × VRow) :=
  ((typeRows db ct).filter fun e => afterSeq < e.2.seq).mergeSort fun a b => a.2.seq ≤ b.2.seq

/-- SQLite's `LIMIT`: a negative limit is none. -/
def sqlLimit {α : Type} (limit : ℤ) (rows : List α) : List α :=
  if limit < 0 then rows else rows.take limit.toNat

/-- `page_by_ct(content_type=…, after_seq=…, limit=…)`: numbers with their documents. -/
def pageByCt (db : Store) (ct : String) (afterSeq limit : ℤ) : List (ℤ × Doc) :=
  (sqlLimit limit (pendingRows db ct afterSeq)).map fun e => (e.2.seq, e.2.doc.val)

/-- The limit falls between two rows of one number: some of the rows with it are on the page, and some
are not. -/
def SplitsTie (db : Store) (ct : String) (afterSeq limit : ℤ) : Prop :=
  0 ≤ limit ∧ ∃ seq,
    ((pendingRows db ct afterSeq).countP fun e => e.2.seq < seq : ℤ) < limit ∧
    limit < ((pendingRows db ct afterSeq).countP fun e => e.2.seq ≤ seq : ℤ)

theorem mem_pendingRows {id : String} {r : VRow} :
    (id, r) ∈ pendingRows db ct afterSeq ↔
      db.vertex.lookup id = some r ∧ r.ct.eqStr ct = true ∧ afterSeq < r.seq := by
  unfold pendingRows typeRows
  rw [List.mem_mergeSort, List.mem_filter, List.mem_filter, Table.mem_toPairs, decide_eq_true_eq, and_assoc]

theorem pendingRows_sorted (db : Store) (ct : String) (afterSeq : ℤ) :
    (pendingRows db ct afterSeq).Pairwise fun a b => a.2.seq ≤ b.2.seq := by
  have h := @List.pairwise_mergeSort _ (fun a b : String × VRow => decide (a.2.seq ≤ b.2.seq))
    (fun a b c hab hbc => by
      simp only [decide_eq_true_eq] at *
      omega)
    (fun a b => by
      simp only [Bool.or_eq_true, decide_eq_true_eq]
      omega) ((typeRows db ct).filter fun e => afterSeq < e.2.seq)
  exact h.imp fun hab => by simpa using hab

theorem lt_of_cut {α : Type} {f : α → ℤ} {xs : List α} {k : ℕ} (hs : xs.Pairwise fun a b => f a ≤ f b)
    (hcut : ∀ v, ¬(xs.countP (fun e => f e < v) < k ∧ k < xs.countP fun e => f e ≤ v)) {a b : α}
    (ha : a ∈ xs.take k) (hb : b ∈ xs.drop k) : f a < f b := by
  have hsplit := hs
  rw [← List.take_append_drop k xs, List.pairwise_append] at hsplit
  have hle := hsplit.2.2 a ha b hb
  by_contra hlt
  have heq : f a = f b := by omega
  refine hcut (f b) ⟨?_, ?_⟩
  · rw [← List.take_append_drop k xs, List.countP_append]
    have hdrop : (xs.drop k).countP (fun e => f e < f b) = 0 := by
      rw [List.countP_eq_zero]
      intro d hd
      have := hsplit.2.2 a ha d hd
      simp only [decide_eq_true_eq]
      omega
    have htake : (xs.take k).countP (fun e => f e < f b) < (xs.take k).length := by
      refine lt_of_le_of_ne List.countP_le_length fun h => ?_
      have := List.countP_eq_length.mp h a ha
      simp only [decide_eq_true_eq] at this
      omega
    have hlen : (xs.take k).length ≤ k := List.length_take_le k xs
    omega
  · rw [← List.take_append_drop k xs, List.countP_append]
    have htake : (xs.take k).countP (fun e => f e ≤ f b) = (xs.take k).length := by
      rw [List.countP_eq_length]
      intro d hd
      have := hsplit.2.2 d hd b hb
      simpa using this
    have hlen : (xs.take k).length = k := by
      rw [List.length_take]
      have : 0 < (xs.drop k).length := List.length_pos_of_mem hb
      rw [List.length_drop] at this
      omega
    have hdrop : 0 < (xs.drop k).countP fun e => f e ≤ f b := by
      rw [List.countP_pos_iff]
      exact ⟨b, hb, by simp⟩
    omega

theorem mem_pageByCt {limit : ℤ} {id : String} {r : VRow} (hcut : ¬SplitsTie db ct afterSeq limit)
    (hr : db.vertex.lookup id = some r) (hct : r.ct.eqStr ct = true) (hseq : afterSeq < r.seq) {x : ℤ × Doc}
    (hx : x ∈ pageByCt db ct afterSeq limit) (hle : r.seq ≤ x.1) :
    (r.seq, r.doc.val) ∈ pageByCt db ct afterSeq limit := by
  have hmem := mem_pendingRows.mpr ⟨hr, hct, hseq⟩
  unfold pageByCt sqlLimit at hx ⊢
  obtain ⟨⟨id', r'⟩, hm, rfl⟩ := List.mem_map.mp hx
  refine List.mem_map.mpr ⟨(id, r), ?_, rfl⟩
  split_ifs at hm ⊢ with hlim
  · exact hmem
  · have hsplit := hmem
    rw [← List.take_append_drop limit.toNat (pendingRows db ct afterSeq), List.mem_append] at hsplit
    refine hsplit.resolve_right fun hdrop => ?_
    have hlt := lt_of_cut (f := fun e : String × VRow => e.2.seq) (pendingRows_sorted db ct afterSeq) ?_ hm
      hdrop
    · exact absurd hle (not_le.mpr hlt)
    · rintro v ⟨h1, h2⟩
      refine hcut ⟨by omega, v, ?_, ?_⟩ <;> omega

theorem pending_of_empty {limit : ℤ} (hl : limit ≠ 0) (h : pageByCt db ct afterSeq limit = []) :
    pendingRows db ct afterSeq = [] := by
  unfold pageByCt sqlLimit at h
  rw [List.map_eq_nil_iff] at h
  split_ifs at h with hlim
  · exact h
  · rw [List.take_eq_nil_iff] at h
    exact h.resolve_left (by omega)

/-! ### Carriers -/

/-- A carrier beside a node: its cursor, and what its polls returned so far. -/
structure Carrier where
  node : Node
  cursor : ℤ
  returned : List (ℤ × Doc)

def Carrier.fresh (origin : Origin) (leaves : ℕ+) : Carrier := ⟨Node.fresh origin leaves, 0, []⟩

/-- What can happen: a call of the store, or a poll. -/
inductive CarrierEvent
  | act (a : Act)
  | poll (limit : ℤ)

/-- The cursor moves to the largest number returned. -/
def advance (cursor : ℤ) (page : List (ℤ × Doc)) : ℤ := page.foldl (fun c e => max c e.1) cursor

def Carrier.step (ct : String) (c : Carrier) : CarrierEvent → Carrier
  | .act a => { c with node := c.node.after a }
  | .poll limit =>
    let page := pageByCt c.node.db ct c.cursor limit
    { c with cursor := advance c.cursor page, returned := c.returned ++ page }

def Carrier.run (ct : String) (c : Carrier) (events : List CarrierEvent) : Carrier :=
  events.foldl (Carrier.step ct) c

/-- The condition on one event: what is written is numbered above the cursor, and a page ends between two
numbers. -/
def Carrier.Meets (ct : String) (c : Carrier) : CarrierEvent → Prop
  | .act a => a.MeetsAt (fun n a => a.Numbers ct c.cursor n) c.node
  | .poll limit => ¬SplitsTie c.node.db ct c.cursor limit

def Carrier.RunMeets (ct : String) : Carrier → List CarrierEvent → Prop
  | _, [] => True
  | c, e :: events => c.Meets ct e ∧ (c.step ct e).RunMeets ct events

/-- Every row of the type was returned as it is, or is still ahead of the cursor. -/
structure Carrier.Caught (ct : String) (c : Carrier) : Prop where
  outside : c.node.inTxn = false
  rows : NumberedRows ct c.cursor (fun _ r => (r.seq, r.doc.val) ∈ c.returned) c.node.db

theorem le_advance (page : List (ℤ × Doc)) : ∀ cursor : ℤ, cursor ≤ advance cursor page ∧
    (advance cursor page = cursor ∨ ∃ x ∈ page, advance cursor page = x.1) := by
  induction page with
  | nil => exact fun cursor => ⟨le_refl _, .inl rfl⟩
  | cons e page ih =>
    intro cursor
    have hstep : advance cursor (e :: page) = advance (max cursor e.1) page := rfl
    obtain ⟨h1, h2⟩ := ih (max cursor e.1)
    rw [hstep]
    refine ⟨(le_max_left _ _).trans h1, ?_⟩
    rcases h2 with h2 | ⟨x, hx, h2⟩
    · rcases max_choice cursor e.1 with hm | hm
      · exact .inl (h2.trans hm)
      · exact .inr ⟨e, by simp, h2.trans hm⟩
    · exact .inr ⟨x, by simp [hx], h2⟩

theorem Carrier.Caught.step {c : Carrier} (h : c.Caught ct) {e : CarrierEvent} (he : c.Meets ct e) :
    (c.step ct e).Caught ct := by
  cases e with
  | act a =>
    have hrun := bears_run (W := rowsWatch c.node.graphLeaves _ numberedRows_shrinks) numbers_single [a]
      c.node ⟨he, trivial⟩ ⟨rfl, h.rows⟩ h.outside
    exact ⟨hrun.2, hrun.1.2⟩
  | poll limit =>
    refine ⟨h.outside, ?_⟩
    intro id r hr hct
    change (r.seq, r.doc.val) ∈ c.returned ++ pageByCt c.node.db ct c.cursor limit ∨
      advance c.cursor (pageByCt c.node.db ct c.cursor limit) < r.seq
    rcases h.rows id r hr hct with hret | hahead
    · exact .inl (List.mem_append_left _ hret)
    · by_cases hlt : advance c.cursor (pageByCt c.node.db ct c.cursor limit) < r.seq
      · exact .inr hlt
      · -- the cursor passed the row, so a row of the page did
        refine .inl (List.mem_append_right _ ?_)
        obtain ⟨-, heq | ⟨x, hx, heq⟩⟩ := le_advance (pageByCt c.node.db ct c.cursor limit) c.cursor
        · omega
        · exact mem_pageByCt he hr hct hahead hx (by omega)

theorem Carrier.Caught.run {ct : String} : ∀ {events : List CarrierEvent} {c : Carrier}, c.Caught ct →
    c.RunMeets ct events → (c.run ct events).Caught ct
  | [], _, h, _ => h
  | _ :: _, _, h, hm => (h.step hm.1).run hm.2

/-- **The carrier poll misses nothing**: once a poll returns none, every row of the type was returned as it is. -/
theorem poll_misses_nothing (origin : Origin) (leaves : ℕ+) (ct : String) (events : List CarrierEvent)
    (h : (Carrier.fresh origin leaves).RunMeets ct events) (limit : ℤ) (hl : limit ≠ 0)
    (hempty : pageByCt ((Carrier.fresh origin leaves).run ct events).node.db ct
      ((Carrier.fresh origin leaves).run ct events).cursor limit = []) (id : String) (r : VRow)
    (hr : ((Carrier.fresh origin leaves).run ct events).node.db.vertex.lookup id = some r)
    (hct : r.ct.eqStr ct = true) :
    (r.seq, r.doc.val) ∈ ((Carrier.fresh origin leaves).run ct events).returned := by
  have hstart : (Carrier.fresh origin leaves).Caught ct := ⟨rfl, fun _ _ h => (nomatch h)⟩
  rcases (hstart.run h).rows id r hr hct with hret | hahead
  · exact hret
  · have hmem := mem_pendingRows.mpr ⟨hr, hct, hahead⟩
    rw [pending_of_empty hl hempty] at hmem
    cases hmem

def peerLeaf : Doc :=
  [("id", .str "p"), ("content_type", .str "leaf"), ("_origin", .str "peer"), ("_seq", .int 5)]

def ownLeafLater : List CarrierEvent :=
  [.act (.putMany [peerLeaf] 256 false .keepLocal), .poll 512,
   .act (.putArtifact [("id", .str "own"), ("content_type", .str "leaf")] true false)]

theorem poll_misses_nothing_peerLeaf :
    ∃ r, ((Carrier.fresh ⟨"here", by decide⟩ 4096).run "leaf"
        (ownLeafLater.take 2)).node.db.vertex.lookup "p" = some r ∧
      (r.seq, r.doc.val) ∈
        ((Carrier.fresh ⟨"here", by decide⟩ 4096).run "leaf" (ownLeafLater.take 2)).returned := by
  have hrow : (((Carrier.fresh ⟨"here", by decide⟩ 4096).run "leaf" (ownLeafLater.take 2)).node.db.vertex.lookup
      "p").map (fun r => r.ct.eqStr "leaf") = some true := by decide +kernel
  obtain ⟨r, hr, hct⟩ := Option.map_eq_some_iff.mp hrow
  have hempty : (pageByCt ((Carrier.fresh ⟨"here", by decide⟩ 4096).run "leaf" (ownLeafLater.take 2)).node.db
      "leaf" ((Carrier.fresh ⟨"here", by decide⟩ 4096).run "leaf" (ownLeafLater.take 2)).cursor 512).length =
      0 := by decide +kernel
  refine ⟨r, hr, poll_misses_nothing ⟨"here", by decide⟩ 4096 "leaf" (ownLeafLater.take 2) ?_ 512 (by decide)
    (List.length_eq_zero_iff.mp hempty) "p" r hr hct⟩
  refine ⟨(Act.meetsAt_single (P := fun n a => a.Numbers "leaf" 0 n)
    (a := .putMany [peerLeaf] 256 false .keepLocal) trivial _).mpr ?_, ?_, trivial⟩
  · rintro p hp - origin seq ⟨-, hv⟩
    have hp' : p = ((Carrier.fresh ⟨"here", by decide⟩ 4096).node.enter, peerLeaf) := by
      have hchunks : chunked 256 [] [peerLeaf] = [[peerLeaf]] := rfl
      rw [hchunks, bulkHandled] at hp
      split at hp <;> simpa [chunkHandled, bulkHandled] using hp
    rw [hp'] at hv
    have hversion : incomingVersion (peerLeaf.get "_origin") (peerLeaf.get "_seq") = some ("peer", 5) := rfl
    rw [hversion] at hv
    cases hv
    decide
  · rintro ⟨-, seq, -, hsplit⟩
    have hlen : (pendingRows ((Carrier.fresh ⟨"here", by decide⟩ 4096).step "leaf"
        (.act (.putMany [peerLeaf] 256 false .keepLocal))).node.db "leaf" 0).length = 1 := by decide +kernel
    have hle := (List.countP_le_length (p := fun e : String × VRow => decide (e.2.seq ≤ seq))).trans
      (le_of_eq hlen)
    have : (512 : ℤ) < 1 := lt_of_lt_of_le hsplit (by exact_mod_cast hle)
    omega

theorem ownLeaf_missed :
    ¬ ∀ (events : List CarrierEvent) (limit : ℤ), 0 < limit →
      pageByCt ((Carrier.fresh ⟨"here", by decide⟩ 4096).run "leaf" events).node.db "leaf"
        ((Carrier.fresh ⟨"here", by decide⟩ 4096).run "leaf" events).cursor limit = [] →
      ∀ id r, ((Carrier.fresh ⟨"here", by decide⟩ 4096).run "leaf" events).node.db.vertex.lookup id =
        some r → r.ct.eqStr "leaf" = true →
        (r.seq, r.doc.val) ∈ ((Carrier.fresh ⟨"here", by decide⟩ 4096).run "leaf" events).returned := by
  intro h
  have hempty : (pageByCt ((Carrier.fresh ⟨"here", by decide⟩ 4096).run "leaf" ownLeafLater).node.db "leaf"
      ((Carrier.fresh ⟨"here", by decide⟩ 4096).run "leaf" ownLeafLater).cursor 512).length = 0 := by
    decide +kernel
  have hrow : (((Carrier.fresh ⟨"here", by decide⟩ 4096).run "leaf" ownLeafLater).node.db.vertex.lookup
      "own").map (fun r => (r.seq, r.ct.eqStr "leaf")) = some (1, true) := by decide +kernel
  have hret : (((Carrier.fresh ⟨"here", by decide⟩ 4096).run "leaf" ownLeafLater).returned.map Prod.fst) =
      [5] := by decide +kernel
  obtain ⟨r, hr, he⟩ := Option.map_eq_some_iff.mp hrow
  obtain ⟨hseq, hct⟩ := Prod.mk.inj he
  have hmem := h ownLeafLater 512 (by decide) (List.length_eq_zero_iff.mp hempty) "own" r hr hct
  have := List.mem_map_of_mem (f := Prod.fst) hmem
  rw [hret, hseq] at this
  simp at this

end Mantle
