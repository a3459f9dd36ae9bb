import Mantle.Auth.Issuers
import Mantle.Base.Copies
import Mantle.Db.Authored
import Mantle.Db.Watch
import Mantle.Mesh.Segment

/-!
# Mantle.Auth.Provenance — whose issuers are trusted once the mesh has written (`mesh/sync.py`)

Replication keeps the type and `created_by` as they were sent, so what an item gives, once it is stored, is trusted.
-/

namespace Mantle

open Tx Run

namespace Platform

variable {id me origin : String} {seq : Val}

variable {P : Platform} {S : Doc → Prop} {n n' : Node} {items edges : List Doc} {c d : Doc} {a b : Store}

/-! ### What one write leaves -/

theorem rowWritten_gives {me origin : String} {seq : Val} (hw : RowWritten me d origin seq a b) :
    ∃ id row, d.get "id" = .str id ∧ b.vertex = a.vertex.insert id row ∧
      ∀ o, P.rowGives row = .ok o ↔ P.docGives d = .ok o := by
  obtain ⟨aid, s, leaf, row, m, haid, -, hrow, hmv, -, hpl⟩ := hw.row
  exact ⟨aid, _, docId_ok haid, (PlaceWritten.edges hpl).1.trans hmv, fun _ => rowGives_written hrow⟩

theorem docGives_other (h : (column (d.get "content_type")).eqStr issuerContentType = false) :
    P.docGives d = .ok none := by
  unfold docGives rowConfig isListed
  rw [h]
  rfl

theorem docGives_op (h : OpShaped id d) : P.docGives d = .ok none := by
  refine docGives_other ?_
  rw [h.type]
  rfl

theorem Gives.rowWritten (h : P.Gives S a) (hd : ∀ c, P.docGives d = .ok (some c) → S c)
    (hw : RowWritten me d origin seq a b) : P.Gives S b := by
  obtain ⟨aid, row, -, hv, hrow⟩ := @rowWritten_gives P _ _ _ _ _ _ hw
  intro id r c hr hc
  rw [hv, Table.lookup_insert_of] at hr
  split_ifs at hr with hid
  · cases hr
    exact hd c ((hrow _).mp hc)
  · exact h id r c hr hc

theorem Readable.rowWritten (h : P.Readable a) (hd : ∃ o, P.docGives d = .ok o) (hw : RowWritten me d origin seq a b) :
    P.Readable b := by
  obtain ⟨aid, row, -, hv, hrow⟩ := @rowWritten_gives P _ _ _ _ _ _ hw
  intro id r hr
  rw [hv, Table.lookup_insert_of] at hr
  split_ifs at hr with hid
  · cases hr
    obtain ⟨o, ho⟩ := hd
    exact ⟨o, (hrow o).mpr ho⟩
  · exact h id r hr

/-! ### What an apply adds -/

/-- No item gives, once stored, a configuration that is not loaded already; and none takes the place of a row the loader
cannot read. -/
structure Unforged (P : Platform) (db : Store) (items : List Doc) : Prop where
  fresh : ∀ d ∈ keptItems items, MayTake db d → ∀ d', storedForm P.float d = .ok d' →
    ∀ c, P.docGives d' = .ok (some c) → c ∈ P.loadIssuerConfigs db
  closed : ∀ id r, db.vertex.lookup id = some r → (∀ o, P.rowGives r ≠ .ok o) →
    id ∉ opIds ∧ ∀ d ∈ keptItems items, MayTake db d → d.get "id" ≠ .str id

theorem Gives.applied (h : P.Gives S n.db) (hu : P.Unforged n.db items) (edges : List Doc)
    (hi : n.inTxn = false) :
    P.Gives S (n.applied P.float items edges).db ∧ (n.applied P.float items edges).inTxn = false := by
  refine applied_keeps_rows (fun _ _ hv h => h.of_vertex hv) ?_ ?_ edges h hi
  · intro d hd hmay d' hform origin seq a b hw ha
    refine ha.rowWritten (fun c hc => ?_) hw
    obtain ⟨-, -, id, r, hr, hrc⟩ := mem_loadIssuerConfigs.mp (hu.fresh d hd hmay d' hform c hc)
    exact h id r c hr hrc
  · intro id _ d hd origin seq a b hw ha
    refine ha.rowWritten (fun c hc => ?_) hw
    rw [docGives_op hd] at hc
    cases hc

theorem stays_applied {r : VRow} (hr : n.db.vertex.lookup id = some r) (hop : id ∉ opIds)
    (hno : ∀ d ∈ keptItems items, MayTake n.db d → d.get "id" ≠ .str id) (edges : List Doc) (hi : n.inTxn = false) :
    (n.applied P.float items edges).db.vertex.lookup id = some r := by
  have hother : ∀ {me origin : String} {seq : Val} {d : Doc} {a b : Store}, d.get "id" ≠ .str id →
      RowWritten me d origin seq a b → a.vertex.lookup id = some r → b.vertex.lookup id = some r := by
    intro me origin seq d a b hne hw ha
    obtain ⟨aid, row, -, haid, -, -, -, -, hv⟩ := hw.vertex
    have hid : id ≠ aid := by
      rintro rfl
      exact hne haid
    rw [hv, Table.lookup_insert_of, if_neg hid]
    exact ha
  refine (applied_keeps_rows (K := fun b => b.vertex.lookup id = some r) ?_ ?_ ?_ edges hr hi).1
  · intro a b hv ha
    rw [hv]
    exact ha
  · intro d hd hmay d' hform origin seq a b hw ha
    refine hother ?_ hw ha
    rw [storedForm_get hform (by decide) (by decide)]
    exact hno d hd hmay
  · intro id' hid' d hd origin seq a b hw ha
    refine hother ?_ hw ha
    rw [hd.id]
    rintro heq
    cases heq
    exact hop hid'

theorem loaded_applied (hu : P.Unforged n.db items) (edges : List Doc) (hi : n.inTxn = false) :
    ∀ c ∈ P.loadIssuerConfigs (n.applied P.float items edges).db, c ∈ P.loadIssuerConfigs n.db := by
  intro c hc
  obtain ⟨hsys, hread', id, r, hr, hrc⟩ := mem_loadIssuerConfigs.mp hc
  by_cases hread : P.Readable n.db
  · have hgives : P.Gives (· ∈ P.loadIssuerConfigs n.db) n.db :=
      fun id r c hr hrc => mem_loadIssuerConfigs.mpr ⟨hsys, hread, id, r, hr, hrc⟩
    exact (hgives.applied hu edges hi).1 id r c hr hrc
  · -- what could not be read before cannot be read now
    unfold Readable at hread
    push Not at hread
    obtain ⟨id₀, r₀, hr₀, hno⟩ := hread
    obtain ⟨hop, hother⟩ := hu.closed id₀ r₀ hr₀ hno
    obtain ⟨o, ho⟩ := hread' id₀ r₀ (stays_applied hr₀ hop hother edges hi)
    exact absurd ho (hno o)

/-! ### An apply that returns -/

/-- The items that may be taken can be read, have ids of their own, and none of the apply's. -/
structure Legible (P : Platform) (db : Store) (items : List Doc) : Prop where
  readable : ∀ d ∈ keptItems items, MayTake db d → ∀ d', storedForm P.float d = .ok d' →
    ∃ o, P.docGives d' = .ok o
  named : ∀ d ∈ keptItems items, ∃ id ∉ opIds, d.get "id" = .str id
  distinct : (keptItems items).Pairwise fun d e => d.get "id" ≠ e.get "id"

theorem chain_gives {me id : String} : ∀ {docs : List Doc} {a b : Store}, Chain (DocHandled me) docs a b →
    docs.Pairwise (fun d e => d.get "id" ≠ e.get "id") → d ∈ docs → d.get "id" = .str id →
    verdictOf a d = .newer →
    ∃ row, b.vertex.lookup id = some row ∧ ∀ o, P.rowGives row = .ok o ↔ P.docGives d = .ok o
  | e :: docs, a, b, ⟨a', m, hs, hr, h⟩, hp, hd, hid, hnew => by
    obtain ⟨hhead, htail⟩ := List.pairwise_cons.mp hp
    have hnew' : verdictOf a' d = .newer := by
      rw [verdictOf_text hid, hs.vertex, ← verdictOf_text hid]
      exact hnew
    rcases List.mem_cons.mp hd with rfl | hd
    · have hrest : ∀ e ∈ docs, e.get "id" ≠ .str id := fun e he heq => hhead e he (hid.trans heq.symm)
      rw [h.lookup_of_ne hrest]
      rcases hr with ⟨-, hno, -⟩ | ⟨-, origin, s, -, hw⟩
      · exact absurd hnew' hno
      · obtain ⟨aid, row, haid, hv, hrow⟩ := @rowWritten_gives P _ _ _ _ _ _ hw
        cases hid.symm.trans haid
        exact ⟨row, by rw [hv, Table.lookup_insert_of, if_pos rfl], hrow⟩
    · have hne : e.get "id" ≠ .str id := fun heq => hhead d hd (heq.trans hid.symm)
      refine chain_gives h htail hd hid ?_
      rw [verdictOf_text hid, hr.lookup_of_ne hne, ← verdictOf_text hid]
      exact hnew'

theorem gives_of_applied (hl : P.Legible n.db items) (hi : n.inTxn = false)
    (happ : applySegment P.float items edges n = .ok ⟨⟩ n') (hd : d ∈ keptItems items)
    (hmay : MayTake n.db d) {d' : Doc} (hform : storedForm P.float d = .ok d') :
    ∃ id row, n'.db.vertex.lookup id = some row ∧ ∀ o, P.rowGives row = .ok o ↔ P.docGives d' = .ok o := by
  obtain ⟨⟨docs, stamped, a, b, e, h⟩, -, -⟩ := applySegment_applied hi happ
  obtain ⟨id, hop, hid⟩ := hl.named d hd
  have hnew : verdictOf n.db d = .newer := by
    refine hmay.resolve_right ?_
    rintro ⟨id', hop', hid'⟩
    cases hid.symm.trans hid'
    exact hop hop'
  have hget : ∀ {x x' : Doc}, storedForm P.float x = .ok x' → x'.get "id" = x.get "id" :=
    fun hx => storedForm_get hx (by decide) (by decide)
  have hmem : d ∈ (keptItems items).filter fun d => !isUnordered n.db d :=
    List.mem_filter.mpr ⟨hd, by simp [isUnordered_of_newer hid hnew]⟩
  have hd' : d' ∈ docs := (mapM_ok h.formed d').mpr ⟨d, hmem, hform⟩
  have hid' : d'.get "id" = .str id := (hget hform).trans hid
  have hdistinct : docs.Pairwise fun d e => d.get "id" ≠ e.get "id" := by
    refine pairwise_mapM (fun x y x' y' hx hy hne => ?_) _ _ h.formed (hl.distinct.filter _)
    rw [hget hx, hget hy]
    exact hne
  have hnew' : verdictOf a d' = .newer := by
    have hdecl : id ≠ declinedId := fun heq => hop (heq ▸ by decide)
    rw [verdictOf_text hid', OpApplied.lookup_of_ne h.declined hdecl,
      storedForm_get hform (by decide) (by decide), storedForm_get hform (by decide) (by decide),
      ← verdictOf_text hid]
    exact hnew
  obtain ⟨row, hrow, hgives⟩ := @chain_gives P _ _ _ _ _ _ h.rows hdistinct hd' hid' hnew'
  have hcons : id ≠ consumedId := fun heq => hop (heq ▸ by decide)
  refine ⟨id, row, ?_, hgives⟩
  have hlinks : n'.db.vertex = e.vertex :=
    h.links.keeps (J := fun s => s.vertex = e.vertex) (fun _ _ hs hv => hs.vertex.trans hv)
      (fun _ _ _ _ hw hv => hw.vertex.trans hv) rfl
  rw [hlinks, OpApplied.lookup_of_ne h.queued hcons, hrow]

theorem unforged_of_loaded (hsys : P.systemId ≠ "") (hread : P.Readable n.db) (hl : P.Legible n.db items)
    (hi : n.inTxn = false) (happ : applySegment P.float items edges n = .ok ⟨⟩ n')
    (hsub : ∀ c ∈ P.loadIssuerConfigs n'.db, c ∈ P.loadIssuerConfigs n.db) : P.Unforged n.db items where
  fresh := by
    intro d hd hmay d' hform c hc
    obtain ⟨id, row, hrow, hgives⟩ := gives_of_applied hl hi happ hd hmay hform
    have hn' : n.applied P.float items edges = n' := by
      unfold Node.applied
      rw [happ]
    have hread' : P.Readable n'.db := by
      rw [← hn']
      refine (applied_keeps_rows (K := P.Readable) ?_ ?_ ?_ edges hread hi).1
      · intro a b hv ha
        unfold Readable
        rw [hv]
        exact ha
      · exact fun d hd hmay d' hform origin seq a b hw ha => ha.rowWritten (hl.readable d hd hmay d' hform) hw
      · exact fun id _ d hd origin seq a b hw ha => ha.rowWritten ⟨none, docGives_op hd⟩ hw
    exact hsub c (mem_loadIssuerConfigs.mpr ⟨hsys, hread', id, row, hrow, (hgives _).mpr hc⟩)
  closed := by
    intro id r hr hno
    obtain ⟨o, ho⟩ := hread id r hr
    exact absurd ho (hno o)

/-! ### Runs -/

/-- A peer's segment is applied; an administrator creates an issuer from a request, whose arguments are JSON;
one is revoked. -/
inductive TrustEvent (P : Platform)
  | apply (items edges : List Doc)
  | create (c : IssuerCall) (json : JsonDoc P.float c.context)
  | revoke (contentChanged : Option Doc → Doc → Bool) (id : String) (revoker : Val)

/-- The node, and the calls that created an issuer on it. -/
structure Trusting where
  node : Node
  created : List IssuerCall

def Trusting.step (P : Platform) (s : Trusting) : TrustEvent P → Trusting
  | .apply items edges => { s with node := s.node.applied P.float items edges }
  | .create c _ =>
    match P.createIssuerArtifact c s.node with
    | .ok _ n' => ⟨n', c :: s.created⟩
    | .error _ n' => { s with node := n' }
  | .revoke contentChanged id revoker =>
    { s with node := s.node.endsAt (P.revokeIssuerArtifact contentChanged id revoker) }

def Trusting.run (P : Platform) (s : Trusting) (events : List (TrustEvent P)) : Trusting :=
  events.foldl (Trusting.step P) s

def Trusting.Configured (s : Trusting) (c : Doc) : Prop :=
  ∃ call ∈ s.created, issuerConfig call.context = some c

/-- Every segment that is applied is free of forged issuers. -/
def Trusting.Careful (P : Platform) (s : Trusting) : TrustEvent P → Prop
  | .apply items _ => P.Unforged s.node.db items
  | _ => True

structure Trusting.Sound (P : Platform) (s : Trusting) : Prop where
  idle : s.node.inTxn = false
  gives : P.Gives s.Configured s.node.db

theorem Gives.create (h : P.Gives S n.db) (hi : n.inTxn = false) {call : IssuerCall}
    (hjson : JsonDoc P.float call.context) : Runs (P.createIssuerArtifact call) n
      (fun _ n' => n'.inTxn = false ∧ P.Gives (fun c => issuerConfig call.context = some c ∨ S c) n'.db)
      fun n' => n'.inTxn = false ∧ P.Gives S n'.db := by
  refine runs_bind (runs_ofExcept (fun _ _ => ?_) ⟨hi, h⟩)
  refine runs_bind (runs_ofExcept (fun text ht => ?_) ⟨hi, h⟩)
  refine runs_bind (runs_ofExcept (fun doc hdoc => ?_) ⟨hi, h⟩)
  obtain ⟨d, hd, hcontext, htype, hby, hstate, href, henc⟩ :=
    @IssuerCall.entity_doc _ P.ciphers call P.systemId text hjson ht
  rw [hd] at hdoc
  cases hdoc
  have hgives : P.docGives doc = .ok (issuerConfig call.context) :=
    call.docGives_entity hjson ht hcontext htype hby hstate href henc
  refine runs_bind ((putAuthored_tables (by rw [href]; rfl) hi).mono ?_ ?_)
  · rintro - n' ⟨⟨seq, hw⟩, hi', -⟩
    have hor : P.Gives (fun c => issuerConfig call.context = some c ∨ S c) n.db :=
      fun id r c hr hc => .inr (h id r c hr hc)
    refine runs_pure ⟨hi', hor.rowWritten (fun c hc => .inl ?_) hw⟩
    rw [hgives] at hc
    exact Except.ok.inj hc
  · rintro n' ⟨hs, hi', -⟩
    exact ⟨hi', h.of_vertex hs.vertex⟩

theorem Gives.revoke (h : P.Gives S n.db) (hi : n.inTxn = false) (contentChanged : Option Doc → Doc → Bool)
    (id : String) (revoker : Val) :
    (n.endsAt (P.revokeIssuerArtifact contentChanged id revoker)).inTxn = false ∧
      P.Gives S (n.endsAt (P.revokeIssuerArtifact contentChanged id revoker)).db := by
  refine runs_endsAt (P := fun n' => n'.inTxn = false ∧ P.Gives S n'.db)
    ((keeps_revoke contentChanged id revoker n h).mono ?_ ?_)
  · exact fun _ n' hn' => ⟨hn'.2.trans hi, hn'.1⟩
  · exact fun n' hn' => ⟨hn'.1.trans hi, hn'.2 hi⟩

theorem Trusting.Sound.step {s : Trusting} (h : s.Sound P) (e : TrustEvent P) (hc : s.Careful P e) :
    (s.step P e).Sound P := by
  cases e with
  | apply items edges =>
    obtain ⟨hgives, hi⟩ := h.gives.applied hc edges h.idle
    exact ⟨hi, hgives⟩
  | create call json =>
    have hruns := h.gives.create h.idle json
    unfold Trusting.step
    dsimp only
    unfold Runs at hruns
    cases hr : P.createIssuerArtifact call s.node with
    | ok art n' =>
      rw [hr] at hruns
      refine ⟨hruns.1, fun id r c hrow hrc => ?_⟩
      rcases hruns.2 id r c hrow hrc with hcall | ⟨call', hmem, hcall⟩
      · exact ⟨call, List.mem_cons_self, hcall⟩
      · exact ⟨call', List.mem_cons_of_mem _ hmem, hcall⟩
    | error e n' =>
      rw [hr] at hruns
      exact ⟨hruns.1, hruns.2⟩
  | revoke contentChanged id revoker =>
    obtain ⟨hi, hgives⟩ := h.gives.revoke h.idle contentChanged id revoker
    exact ⟨hi, hgives⟩

theorem Trusting.sound_fresh (P : Platform) (origin : Origin) (leaves : ℕ+) :
    Trusting.Sound P ⟨.fresh origin leaves, []⟩ :=
  ⟨rfl, fun _ _ _ hr => nomatch hr⟩

/-- **Only administrators make an issuer trusted**, as far as nothing forged is applied. -/
theorem trusted_only_by_admins_iff (P : Platform) :
    (∀ (n : Node) (items edges : List Doc), n.inTxn = false → P.Unforged n.db items →
      ∀ c ∈ P.loadIssuerConfigs (n.applied P.float items edges).db, c ∈ P.loadIssuerConfigs n.db) ∧
    (∀ (n n' : Node) (items edges : List Doc), n.inTxn = false → P.systemId ≠ "" → P.Readable n.db →
      P.Legible n.db items → applySegment P.float items edges n = .ok ⟨⟩ n' →
      ((∀ c ∈ P.loadIssuerConfigs n'.db, c ∈ P.loadIssuerConfigs n.db) ↔ P.Unforged n.db items)) ∧
    ∀ (origin : Origin) (leaves : ℕ+) (events : List (TrustEvent P)),
      Along (Trusting.step P) (Trusting.Careful P) ⟨.fresh origin leaves, []⟩ events →
      ∀ c ∈ P.loadIssuerConfigs (Trusting.run P ⟨.fresh origin leaves, []⟩ events).node.db,
        (Trusting.run P ⟨.fresh origin leaves, []⟩ events).Configured c := by
  refine ⟨fun n items edges hi hu => loaded_applied hu edges hi, ?_, ?_⟩
  · intro n n' items edges hi hsys hread hl happ
    refine ⟨unforged_of_loaded hsys hread hl hi happ, fun hu => ?_⟩
    have hn' : n.applied P.float items edges = n' := by
      unfold Node.applied
      rw [happ]
    rw [← hn']
    exact loaded_applied hu edges hi
  · intro origin leaves events hc c hload
    have hsound : (Trusting.run P ⟨.fresh origin leaves, []⟩ events).Sound P :=
      along_inv (fun s e hs he => hs.step e he) events _ (Trusting.sound_fresh P origin leaves) hc
    obtain ⟨-, -, id, r, hr, hrc⟩ := mem_loadIssuerConfigs.mp hload
    exact hsound.gives id r c hr hrc

/-! ### An issuer from a peer -/

def examplePlatform : Platform := ⟨"system", litFloat, markCipher, ⟨"made", "now"⟩⟩

def peerItem (contentType : String) : Doc :=
  [("id", .str "x"), ("content_type", .str contentType), ("created_by", .str "system"), ("state", .str stateLive),
   ("context", .dict [(.str "content_type", .str contentType), (.str "issuer", .str "https://peer.example"),
     (.str "jwks_uri", .str "https://peer.example/keys")]),
   ("_origin", .str "peer"), ("_seq", .int 1)]

def freshHere : Node := .fresh .here ⟨1, Nat.one_pos⟩

theorem unforged_note : examplePlatform.Unforged freshHere.db [peerItem "text/plain"] where
  fresh := by
    intro d hd _ d' hform c hc
    have hitem : d = peerItem "text/plain" := List.mem_singleton.mp (List.mem_of_mem_filter (List.mem_of_mem_filter hd))
    have htype : (column (d'.get "content_type")).eqStr issuerContentType = false := by
      rw [storedForm_get hform (by decide) (by decide), hitem]
      rfl
    rw [docGives_other htype] at hc
    cases hc
  closed := fun _ _ hr => nomatch hr

theorem trusted_only_by_admins_note :
    (∀ c ∈ examplePlatform.loadIssuerConfigs (freshHere.applied litFloat [peerItem "text/plain"] []).db,
      c ∈ examplePlatform.loadIssuerConfigs freshHere.db) ∧
    ∀ c ∈ examplePlatform.loadIssuerConfigs
        (Trusting.run examplePlatform ⟨freshHere, []⟩ [.apply [peerItem "text/plain"] []]).node.db,
      (Trusting.run examplePlatform ⟨freshHere, []⟩ [.apply [peerItem "text/plain"] []]).Configured c :=
  ⟨(trusted_only_by_admins_iff examplePlatform).1 freshHere [peerItem "text/plain"] [] rfl unforged_note,
    (trusted_only_by_admins_iff examplePlatform).2.2 ⟨"here", by decide⟩ 1 [.apply [peerItem "text/plain"] []]
      ⟨unforged_note, trivial⟩⟩

theorem peer_issuer_trusted : ¬∀ (P : Platform) (n : Node) (items : List Doc), n.inTxn = false →
    ∀ c ∈ P.loadIssuerConfigs (n.applied P.float items []).db, c ∈ P.loadIssuerConfigs n.db := by
  intro h
  have hafter : (examplePlatform.loadIssuerConfigs
      (freshHere.applied litFloat [peerItem issuerContentType] []).db).isEmpty = false := by decide +kernel
  have hbefore : (examplePlatform.loadIssuerConfigs freshHere.db).isEmpty = true := by decide +kernel
  obtain ⟨c, hc⟩ := List.exists_mem_of_ne_nil _ (List.isEmpty_eq_false_iff.mp hafter)
  have hmem := h examplePlatform freshHere [peerItem issuerContentType] rfl c hc
  rw [List.isEmpty_iff.mp hbefore] at hmem
  cases hmem

end Platform

end Mantle
