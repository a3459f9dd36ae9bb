import Mantle.Base.Copies
import Mantle.Base.Table
import Mantle.Py.Value

/-!
# Mantle.Search.Cells — the vector cells of a collection (`search/mantle/indexer.py`, `cell.py`)

A cell is one sealed object with the records of every artifact that routes to it.  An index worker gets the cell,
changes its own artifact's records and puts the whole cell back; nothing locks it.
-/

namespace Mantle

open Run

namespace Cells

variable {c cluster : String}

variable {a : String}

/-- A chunk record; `fields` are the ones a cell keeps verbatim. -/
structure Chunk (ε : Type) where
  artifactId : String
  chunkId : ℤ
  embedding : ε
  fields : Doc

variable {ε β : Type}

/-! ### The records of a cell (`cell.py`) -/

def upsertChunk (chunks : List (Chunk ε)) (record : Chunk ε) : List (Chunk ε) :=
  match chunks with
  | [] => [record]
  | existing :: rest =>
    if existing.artifactId = record.artifactId ∧ existing.chunkId = record.chunkId then record :: rest
    else existing :: upsertChunk rest record

def removeArtifactChunks (chunks : List (Chunk ε)) (artifactId : String) : List (Chunk ε) :=
  chunks.filter fun c => c.artifactId ≠ artifactId

def recordsOf (a : String) (chunks : List (Chunk ε)) : List (Chunk ε) := chunks.filter fun c => c.artifactId = a

theorem recordsOf_upsertChunk (a : String) (record : Chunk ε) : ∀ chunks : List (Chunk ε),
    recordsOf a (upsertChunk chunks record) =
      if record.artifactId = a then upsertChunk (recordsOf a chunks) record else recordsOf a chunks
  | [] => by
    unfold upsertChunk recordsOf
    by_cases ha : record.artifactId = a <;> simp [ha]
  | existing :: rest => by
    have ih := recordsOf_upsertChunk a record rest
    unfold recordsOf at ih ⊢
    by_cases hsame : existing.artifactId = record.artifactId ∧ existing.chunkId = record.chunkId
    · rw [upsertChunk, if_pos hsame, List.filter_cons, List.filter_cons, hsame.1]
      by_cases ha : record.artifactId = a
      · rw [if_pos (by simpa using ha), if_pos ha, if_pos (by simpa using ha), upsertChunk, if_pos hsame]
      · rw [if_neg (by simpa using ha), if_neg ha, if_neg (by simpa using ha)]
    · rw [upsertChunk, if_neg hsame, List.filter_cons, List.filter_cons, ih]
      by_cases ha : record.artifactId = a
      · simp only [if_pos ha]
        by_cases he : existing.artifactId = a
        · rw [if_pos (by simpa using he), if_pos (by simpa using he), upsertChunk, if_neg hsame]
        · rw [if_neg (by simpa using he), if_neg (by simpa using he)]
      · simp only [if_neg ha]

theorem recordsOf_removeArtifactChunks (a b : String) (chunks : List (Chunk ε)) :
    recordsOf a (removeArtifactChunks chunks b) = if a = b then [] else recordsOf a chunks := by
  unfold recordsOf removeArtifactChunks
  rw [List.filter_filter]
  split_ifs with hab
  · subst hab
    simp
  · refine List.filter_congr fun c _ => ?_
    by_cases hc : c.artifactId = a
    · simp [hc, hab]
    · simp [hc]

theorem removeArtifactChunks_recordsOf (a : String) (chunks : List (Chunk ε)) :
    removeArtifactChunks (recordsOf a chunks) a = [] := by
  unfold removeArtifactChunks recordsOf
  rw [List.filter_filter]
  simp

theorem recordsOf_of_length_eq {chunks : List (Chunk ε)} (h : (removeArtifactChunks chunks a).length = chunks.length) :
    recordsOf a chunks = [] := by
  unfold removeArtifactChunks at h
  rw [List.length_filter_eq_length_iff] at h
  refine List.filter_eq_nil_iff.mpr fun c hc => ?_
  simpa using h c hc

/-- The records one after another (`for record in records: upsert_chunk(…)`). -/
def upsertAll (chunks records : List (Chunk ε)) : List (Chunk ε) := records.foldl upsertChunk chunks

theorem upsertAll_append (chunks records more : List (Chunk ε)) :
    upsertAll chunks (records ++ more) = upsertAll (upsertAll chunks records) more := List.foldl_append

theorem recordsOf_upsertAll (b : String) : ∀ {records : List (Chunk ε)},
    (∀ r ∈ records, r.artifactId = a) → ∀ chunks : List (Chunk ε),
    recordsOf b (upsertAll chunks records) =
      if b = a then upsertAll (recordsOf b chunks) records else recordsOf b chunks
  | [], _, chunks => by simp [upsertAll]
  | r :: records, h, chunks => by
    have ih := recordsOf_upsertAll b (fun x hx => h x (List.mem_cons_of_mem _ hx)) (upsertChunk chunks r)
    have hcons : ∀ l, upsertAll l (r :: records) = upsertAll (upsertChunk l r) records := fun _ => rfl
    rw [hcons, ih, recordsOf_upsertChunk, h r List.mem_cons_self]
    by_cases hb : b = a
    · simp only [hb, if_true, hcons]
    · rw [if_neg hb, if_neg hb, if_neg (fun he => hb he.symm)]

/-! ### Updates of a cell -/

inductive Change (ε : Type)
  | upsert (records : List (Chunk ε))
  | strip (artifactId : String)

namespace Change

def apply : Change ε → List (Chunk ε) → List (Chunk ε)
  | .upsert records, chunks => upsertAll chunks records
  | .strip a, chunks => removeArtifactChunks chunks a

/-- The change is of one artifact's records. -/
def Of (a : String) : Change ε → Prop
  | .upsert records => ∀ r ∈ records, r.artifactId = a
  | .strip b => b = a

theorem Of.recordsOf_apply {a : String} : ∀ {u : Change ε}, u.Of a → ∀ (b : String) (chunks : List (Chunk ε)),
    recordsOf b (u.apply chunks) = if b = a then u.apply (recordsOf b chunks) else recordsOf b chunks
  | .upsert records, h, b, chunks => recordsOf_upsertAll b h chunks
  | .strip a', h, b, chunks => by
    have ha : a' = a := h
    subst ha
    show recordsOf b (removeArtifactChunks chunks a') =
      if b = a' then removeArtifactChunks (recordsOf b chunks) a' else recordsOf b chunks
    rw [recordsOf_removeArtifactChunks]
    split_ifs with hb
    · subst hb
      exact (removeArtifactChunks_recordsOf _ _).symm
    · rfl

end Change

/-- A change of the cell of a cluster. -/
structure Update (ε : Type) where
  cluster : String
  change : Change ε

/-- What the updates leave of a cell's records, one after another. -/
def applyAt (cluster : String) (updates : List (Update ε)) (chunks : List (Chunk ε)) : List (Chunk ε) :=
  updates.foldl (fun chunks u => if u.cluster = cluster then u.change.apply chunks else chunks) chunks

theorem applyAt_concat (cluster : String) (updates : List (Update ε)) (u : Update ε) (chunks : List (Chunk ε)) :
    applyAt cluster (updates ++ [u]) chunks =
      if u.cluster = cluster then u.change.apply (applyAt cluster updates chunks)
      else applyAt cluster updates chunks := by
  unfold applyAt
  rw [List.foldl_append]
  rfl

/-! ### The chunks of a call by their cells -/

/-- `groups.setdefault(cluster, []).append(chunk)`. -/
def addToGroup (cluster : String) (chunk : Chunk ε) : List (String × List (Chunk ε)) → List (String × List (Chunk ε))
  | [] => [(cluster, [chunk])]
  | (c, records) :: groups =>
    if c = cluster then (c, records ++ [chunk]) :: groups else (c, records) :: addToGroup cluster chunk groups

def groupsOf (route : ε → String) (chunks : List (Chunk ε)) : List (String × List (Chunk ε)) :=
  chunks.foldl (fun groups chunk => addToGroup (route chunk.embedding) chunk groups) []

theorem groupsOf_concat (route : ε → String) (chunks : List (Chunk ε)) (chunk : Chunk ε) :
    groupsOf route (chunks ++ [chunk]) = addToGroup (route chunk.embedding) chunk (groupsOf route chunks) := by
  unfold groupsOf
  rw [List.foldl_append]
  rfl

def indexUpdates (route : ε → String) (chunks : List (Chunk ε)) : List (Update ε) :=
  (groupsOf route chunks).map fun g => ⟨g.1, .upsert g.2⟩

def routed (route : ε → String) (chunks : List (Chunk ε)) (cluster : String) : List (Chunk ε) :=
  chunks.filter fun c => route c.embedding = cluster

variable {chunk : Chunk ε}

theorem mem_keys_addToGroup : ∀ {groups : List (String × List (Chunk ε))},
    c ∈ (addToGroup cluster chunk groups).map Prod.fst ↔ c = cluster ∨ c ∈ groups.map Prod.fst
  | [] => by simp [addToGroup]
  | (c', records) :: groups => by
    unfold addToGroup
    split_ifs with hc
    · subst hc
      simp
    · rw [List.map_cons, List.mem_cons, mem_keys_addToGroup, List.map_cons, List.mem_cons]
      exact or_left_comm

theorem nodup_addToGroup : ∀ {groups : List (String × List (Chunk ε))},
    (groups.map Prod.fst).Nodup → ((addToGroup cluster chunk groups).map Prod.fst).Nodup
  | [], _ => by simp [addToGroup]
  | (c', records) :: groups, h => by
    rw [List.map_cons, List.nodup_cons] at h
    unfold addToGroup
    split_ifs with hc
    · exact List.nodup_cons.mpr h
    · refine List.nodup_cons.mpr ⟨fun hmem => ?_, nodup_addToGroup h.2⟩
      rcases mem_keys_addToGroup.mp hmem with he | hmem
      · exact hc he
      · exact h.1 hmem

def groupsAt (c : String) (groups : List (String × List (Chunk ε))) : List (Chunk ε) → List (Chunk ε) :=
  applyAt c (groups.map fun g => ⟨g.1, .upsert g.2⟩)

theorem groupsAt_cons (c : String) (g : String × List (Chunk ε)) (groups : List (String × List (Chunk ε)))
    (chunks : List (Chunk ε)) : groupsAt c (g :: groups) chunks =
      groupsAt c groups (if g.1 = c then upsertAll chunks g.2 else chunks) := rfl

theorem groupsAt_of_notMem : ∀ {groups : List (String × List (Chunk ε))}, c ∉ groups.map Prod.fst →
    ∀ chunks, groupsAt c groups chunks = chunks
  | [], _, _ => rfl
  | g :: groups, h, chunks => by
    rw [List.map_cons, List.mem_cons, not_or] at h
    rw [groupsAt_cons, if_neg (fun he => h.1 he.symm)]
    exact groupsAt_of_notMem h.2 chunks

theorem groupsAt_addToGroup (c cluster : String) (chunk : Chunk ε) :
    ∀ {groups : List (String × List (Chunk ε))}, (groups.map Prod.fst).Nodup → ∀ chunks : List (Chunk ε),
      groupsAt c (addToGroup cluster chunk groups) chunks =
        if cluster = c then upsertChunk (groupsAt c groups chunks) chunk else groupsAt c groups chunks
  | [], _, chunks => rfl
  | (c', records) :: groups, h, chunks => by
    rw [List.map_cons, List.nodup_cons] at h
    unfold addToGroup
    split_ifs with hc hcc hcc
    · -- the chunk joins the group of the cell, after which no group of it follows
      subst hc hcc
      rw [groupsAt_cons, groupsAt_cons, if_pos rfl, if_pos rfl, groupsAt_of_notMem h.1, groupsAt_of_notMem h.1,
        upsertAll_append]
      rfl
    · subst hc
      rw [groupsAt_cons, groupsAt_cons, if_neg hcc, if_neg hcc]
    · rw [groupsAt_cons, groupsAt_addToGroup c cluster chunk h.2, if_pos hcc, groupsAt_cons]
    · rw [groupsAt_cons, groupsAt_addToGroup c cluster chunk h.2, if_neg hcc, groupsAt_cons]

theorem applyAt_indexUpdates (route : ε → String) (c : String) (records chunks : List (Chunk ε)) :
    applyAt c (indexUpdates route records) chunks = upsertAll chunks (routed route records c) := by
  suffices hgroups : ((groupsOf route records).map Prod.fst).Nodup ∧
      groupsAt c (groupsOf route records) chunks = upsertAll chunks (routed route records c) from hgroups.2
  induction records using List.reverseRecOn with
  | nil => exact ⟨List.nodup_nil, rfl⟩
  | append_singleton records r ih =>
    rw [groupsOf_concat]
    refine ⟨nodup_addToGroup ih.1, ?_⟩
    rw [groupsAt_addToGroup _ _ _ ih.1, ih.2]
    unfold routed
    rw [List.filter_append, upsertAll_append]
    split_ifs with hr
    · rw [List.filter_singleton, decide_eq_true hr]
      rfl
    · rw [List.filter_singleton, decide_eq_false hr]
      rfl

theorem of_mem_indexUpdates {route : ε → String} {records : List (Chunk ε)} (h : ∀ r ∈ records, r.artifactId = a) :
    ∀ u ∈ indexUpdates route records, u.change.Of a := by
  suffices hgroups : ∀ g ∈ groupsOf route records, ∀ r ∈ g.2, r ∈ records by
    intro u hu
    obtain ⟨g, hg, rfl⟩ := List.mem_map.mp hu
    exact fun r hr => h r (hgroups g hg r hr)
  clear h
  induction records using List.reverseRecOn with
  | nil => exact fun g hg => nomatch hg
  | append_singleton records r ih =>
    have hadd : ∀ groups : List (String × List (Chunk ε)), (∀ g ∈ groups, ∀ x ∈ g.2, x ∈ records) →
        ∀ g ∈ addToGroup (route r.embedding) r groups, ∀ x ∈ g.2, x ∈ records ++ [r] := by
      intro groups
      induction groups with
      | nil =>
        intro _ g hg x hx
        obtain rfl := List.mem_singleton.mp hg
        exact List.mem_append_right _ hx
      | cons g₀ groups ihg =>
        intro hold g hg x hx
        obtain ⟨c, xs⟩ := g₀
        have hxs : ∀ x ∈ xs, x ∈ records ++ [r] :=
          fun x hx => List.mem_append_left _ (hold (c, xs) List.mem_cons_self x hx)
        unfold addToGroup at hg
        split_ifs at hg
        · rcases List.mem_cons.mp hg with rfl | hg
          · rcases List.mem_append.mp hx with hx | hx
            · exact hxs x hx
            · exact List.mem_append_right _ hx
          · exact List.mem_append_left _ (hold g (List.mem_cons_of_mem _ hg) x hx)
        · rcases List.mem_cons.mp hg with rfl | hg
          · exact hxs x hx
          · exact ihg (fun g hg => hold g (List.mem_cons_of_mem _ hg)) g hg x hx
    rw [groupsOf_concat]
    exact hadd _ ih

/-! ### The store of the cells -/

/-- `pack_cell` and `unpack_cell` under the key of a cluster, with the nonce that a pack draws. -/
structure CellCrypto (ε β : Type) where
  isEmpty : β → Bool
  packCell : ℕ → String → List (Chunk ε) → β
  unpackCell : String → β → Option (List (Chunk ε))
  pack_nonempty : ∀ nonce cluster chunks, isEmpty (packCell nonce cluster chunks) = false
  unpack_pack : ∀ nonce cluster chunks, unpackCell cluster (packCell nonce cluster chunks) = some chunks

variable (K : CellCrypto ε β)

def CellCrypto.chunksOf (cells : Table String β) (cluster : String) : Option (List (Chunk ε)) :=
  match cells.lookup cluster with
  | none => some []
  | some blob => if K.isEmpty blob then some [] else K.unpackCell cluster blob

def CellCrypto.held (cells : Table String β) (cluster a : String) : List (Chunk ε) :=
  recordsOf a ((K.chunksOf cells cluster).getD [])

/-- Whether an update that got these records puts or deletes the cell. -/
def Update.writes (u : Update ε) (chunks : List (Chunk ε)) : Bool :=
  match u.change with
  | .upsert _ => true
  | .strip a => (removeArtifactChunks chunks a).length ≠ chunks.length

/-- The write of `_upsert_into_cell`, or of one turn of `remove_artifact`. -/
def CellCrypto.put (nonce : ℕ) (u : Update ε) (chunks : List (Chunk ε)) (cells : Table String β) : Table String β :=
  match u.change with
  | .upsert records => cells.insert u.cluster (K.packCell nonce u.cluster (upsertAll chunks records))
  | .strip a =>
    let left := removeArtifactChunks chunks a
    if left.length = chunks.length then cells
    else if left.isEmpty then cells.erase u.cluster
    else cells.insert u.cluster (K.packCell nonce u.cluster left)

theorem CellCrypto.chunksOf_insert (nonce : ℕ) (cells : Table String β) (cluster c : String)
    (chunks : List (Chunk ε)) :
    K.chunksOf (cells.insert cluster (K.packCell nonce cluster chunks)) c =
      if c = cluster then some chunks else K.chunksOf cells c := by
  unfold CellCrypto.chunksOf
  rw [Table.lookup_insert_of]
  split_ifs with hc
  · subst hc
    simp [K.pack_nonempty, K.unpack_pack]
  · rfl

theorem CellCrypto.chunksOf_put (nonce : ℕ) (u : Update ε) (chunks : List (Chunk ε)) (cells : Table String β)
    (c : String) : K.chunksOf (K.put nonce u chunks cells) c =
      if c = u.cluster ∧ u.writes chunks = true then some (u.change.apply chunks) else K.chunksOf cells c := by
  obtain ⟨cluster, change⟩ := u
  cases change with
  | upsert records =>
    have hw : (⟨cluster, .upsert records⟩ : Update ε).writes chunks = true := rfl
    simp only [hw, and_true]
    exact K.chunksOf_insert nonce cells cluster c _
  | strip a =>
    unfold CellCrypto.put
    dsimp only
    by_cases hlen : (removeArtifactChunks chunks a).length = chunks.length
    · rw [if_pos hlen, if_neg]
      rintro ⟨-, hw⟩
      exact of_decide_eq_true hw hlen
    · have hw : (⟨cluster, .strip a⟩ : Update ε).writes chunks = true := decide_eq_true hlen
      simp only [hw, and_true, if_neg hlen, Change.apply]
      split_ifs with hleft hc hc
      · -- the last records of the cell go, and the cell with them
        rw [List.isEmpty_iff.mp hleft]
        unfold CellCrypto.chunksOf
        rw [Table.lookup_erase_of, if_pos hc]
      · unfold CellCrypto.chunksOf
        rw [Table.lookup_erase_of, if_neg hc]
      · rw [K.chunksOf_insert, if_pos hc]
      · rw [K.chunksOf_insert, if_neg hc]

theorem CellCrypto.held_put {u : Update ε} (hu : u.change.Of a) (nonce : ℕ) (chunks : List (Chunk ε))
    (cells : Table String β) (c b : String) : K.held (K.put nonce u chunks cells) c b =
      if c = u.cluster ∧ u.writes chunks = true then
        if b = a then u.change.apply (recordsOf a chunks) else recordsOf b chunks
      else K.held cells c b := by
  unfold CellCrypto.held
  rw [K.chunksOf_put]
  split_ifs with hc hb
  · rw [Option.getD_some, hu.recordsOf_apply, if_pos hb, hb]
  · rw [Option.getD_some, hu.recordsOf_apply, if_neg hb]
  · rfl

/-! ### The calls of the index workers -/

inductive Call (ε : Type)
  /-- `index_artifact`, with the routing of the AnchorSet that is live when it starts. -/
  | index (route : ε → String) (records : List (Chunk ε))
  | remove

/-- A call in progress: the cells it has updated, those it still updates, and the records it got of the next. -/
structure Work (ε : Type) where
  call : Call ε
  past : List (Update ε)
  todo : List (Update ε)
  got : Option (List (Chunk ε))

/-- A call that has ended; one that raised had updated some of its cells. -/
inductive Ended (ε : Type)
  | returned (call : Call ε)
  | raised (past : List (Update ε))

/-- The cells of a collection and the index workers; `ended` are the calls an artifact had before, last first. -/
structure Pool (ε β : Type) where
  cells : Table String β
  running : String → Option (Work ε)
  ended : String → List (Ended ε)

inductive Event (ε : Type)
  | start (a : String) (call : Call ε)
  | get (a : String)
  | put (a : String) (nonce : ℕ)
  /-- The oracle refuses the key, the store fails, or the worker dies. -/
  | raise (a : String)
  | finish (a : String)

namespace Pool

variable {a : String}

def start (cells : Table String β) : Pool ε β := ⟨cells, fun _ => none, fun _ => []⟩

/-- The call of an artifact goes on. -/
def set (s : Pool ε β) (a : String) (w : Work ε) : Pool ε β := { s with running := Function.update s.running a (some w) }

/-- The call of an artifact ends. -/
def stop (s : Pool ε β) (a : String) (e : Ended ε) : Pool ε β :=
  { s with running := Function.update s.running a none, ended := Function.update s.ended a (e :: s.ended a) }

/-- The updates a call starts out to make: those of its groups, or one for every cell listed. -/
def plan (s : Pool ε β) (a : String) : Call ε → List (Update ε)
  | .index route records => indexUpdates route records
  | .remove => s.cells.keys.map fun c => ⟨c, .strip a⟩

def Call.Of (a : String) : Call ε → Bool
  | .index _ records => records.all fun r => r.artifactId = a
  | .remove => true

def step (s : Pool ε β) : Event ε → Pool ε β
  | .start a call =>
    match s.running a with
    | some _ => s
    | none => if Call.Of a call then s.set a ⟨call, [], s.plan a call, none⟩ else s
  | .get a =>
    match s.running a with
    | some ⟨call, past, u :: rest, none⟩ =>
      match K.chunksOf s.cells u.cluster with
      | none => s.stop a (.raised past)
      | some chunks => s.set a ⟨call, past, u :: rest, some chunks⟩
    | _ => s
  | .put a nonce =>
    match s.running a with
    | some ⟨call, past, u :: rest, some chunks⟩ =>
      { s with cells := K.put nonce u chunks s.cells }.set a ⟨call, past ++ [u], rest, none⟩
    | _ => s
  | .raise a =>
    match s.running a with
    | some w => s.stop a (.raised w.past)
    | none => s
  | .finish a =>
    match s.running a with
    | some ⟨call, _, [], _⟩ => s.stop a (.returned call)
    | _ => s

def run (s : Pool ε β) (events : List (Event ε)) : Pool ε β := events.foldl (step K) s

/-- What an ended call leaves of an artifact's records in a cell. -/
def leaves (c : String) : Ended ε → List (Chunk ε) → List (Chunk ε)
  | .returned (.index route records), chunks => upsertAll chunks (routed route records c)
  | .returned .remove, _ => []
  | .raised past, chunks => applyAt c past chunks

/-- What the calls of an artifact leave in a cell, one after another. -/
def owed (c : String) (first : List (Chunk ε)) (ended : List (Ended ε)) : List (Chunk ε) :=
  ended.foldr (leaves c) first

/-- What the cells hold of an artifact is what its own calls have done so far. -/
def Intact (first : String → String → List (Chunk ε)) (s : Pool ε β) : Prop :=
  ∀ c a, K.held s.cells c a =
    applyAt c ((s.running a).elim [] (·.past)) (owed c (first c a) (s.ended a))

/-- A cell that is written holds of the other artifacts what the call got of them. -/
def PutsCurrent (s : Pool ε β) : Event ε → Prop
  | .put a _ => ∀ w u rest chunks, s.running a = some w → w.todo = u :: rest → w.got = some chunks →
      u.writes chunks = true → ∀ b, b ≠ a → recordsOf b chunks = K.held s.cells u.cluster b
  | _ => True

/-! ### What the calls of an artifact keep -/

variable {w : Work ε}

variable {call : Call ε} {chunks : List (Chunk ε)} {u : Update ε}

section Sound

variable (first : String → String → List (Chunk ε))

/-- A call has got what the cells hold of its artifact, and will have updated every cell its records route to or, for a
removal, that holds any. -/
structure Working (s : Pool ε β) (a : String) (w : Work ε) : Prop where
  own : ∀ u ∈ w.todo, u.change.Of a
  got : ∀ chunks u rest, w.got = some chunks → w.todo = u :: rest →
    recordsOf a chunks = K.held s.cells u.cluster a
  index : ∀ route records, w.call = .index route records → w.past ++ w.todo = indexUpdates route records
  strips : w.call = .remove → ∀ u ∈ w.todo, u.change = .strip a
  remove : w.call = .remove → ∀ c, K.held s.cells c a ≠ [] → c ∈ w.todo.map (·.cluster)

/-- Of every artifact a cell holds what its own calls have done, and what they go on with is in order. -/
structure Sound (s : Pool ε β) : Prop where
  intact : s.Intact K first
  working : ∀ a w, s.running a = some w → s.Working K a w

variable {K first}

theorem sound_start (cells : Table String β) : (start cells : Pool ε β).Sound K (K.held cells) where
  intact := fun _ _ => rfl
  working := fun _ _ h => nomatch h

theorem Working.congr {s s' : Pool ε β} (h : s.Working K a w) (hheld : ∀ c, K.held s'.cells c a = K.held s.cells c a) :
    s'.Working K a w where
  own := h.own
  got := fun chunks u rest hg ht => by rw [hheld, h.got chunks u rest hg ht]
  index := h.index
  strips := h.strips
  remove := fun hr c hc => h.remove hr c (by rwa [hheld] at hc)

theorem Sound.move {s s' : Pool ε β} (hs : s.Sound K first) (hcells : s'.cells = s.cells) (a : String)
    (hother : ∀ b, b ≠ a → s'.running b = s.running b ∧ s'.ended b = s.ended b)
    (hintact : ∀ c, K.held s.cells c a =
      applyAt c ((s'.running a).elim [] (·.past)) (owed c (first c a) (s'.ended a)))
    (hwork : ∀ w, s'.running a = some w → s.Working K a w) : s'.Sound K first where
  intact := by
    intro c b
    rw [hcells]
    by_cases hb : b = a
    · subst hb
      exact hintact c
    · rw [(hother b hb).1, (hother b hb).2]
      exact hs.intact c b
  working := by
    intro b w hw
    have hcongr : ∀ {x}, s.Working K x w → s'.Working K x w := fun h => h.congr fun c => by rw [hcells]
    by_cases hb : b = a
    · subst hb
      exact hcongr (hwork w hw)
    · rw [(hother b hb).1] at hw
      exact hcongr (hs.working b w hw)

theorem Sound.set {s : Pool ε β} (hs : s.Sound K first) (a : String) (hpast : w.past = (s.running a).elim [] (·.past))
    (hwork : s.Working K a w) : (s.set a w).Sound K first := by
  refine hs.move rfl a (fun b hb => ⟨Function.update_of_ne hb _ _, rfl⟩) (fun c => ?_) fun w' hw' => ?_
  · rw [show (s.set a w).running a = some w from Function.update_self .., Option.elim_some, hpast]
    exact hs.intact c a
  · rw [show (s.set a w).running a = some w from Function.update_self ..] at hw'
    obtain rfl := Option.some.inj hw'
    exact hwork

theorem Sound.stop {s : Pool ε β} (hs : s.Sound K first) (a : String) {e : Ended ε}
    (hleaves : ∀ c, K.held s.cells c a = leaves c e (owed c (first c a) (s.ended a))) :
    (s.stop a e).Sound K first := by
  have hrun : (s.stop a e).running a = none := Function.update_self ..
  refine hs.move rfl a (fun b hb => ⟨Function.update_of_ne hb _ _, Function.update_of_ne hb _ _⟩) (fun c => ?_)
    fun w hw => ?_
  · rw [hrun, show (s.stop a e).ended a = e :: s.ended a from Function.update_self ..]
    exact hleaves c
  · rw [hrun] at hw
    cases hw

theorem Sound.raised {s : Pool ε β} (hs : s.Sound K first) (hw : s.running a = some w) :
    (s.stop a (.raised w.past)).Sound K first := by
  refine hs.stop a fun c => ?_
  rw [hs.intact c a, hw]
  rfl

theorem mem_keys_of_held {cells : Table String β} {c : String} (h : K.held cells c a ≠ []) : c ∈ cells.keys := by
  by_contra hc
  refine h ?_
  unfold CellCrypto.held CellCrypto.chunksOf
  rw [AList.lookup_eq_none.mpr hc]
  rfl

theorem Sound.started {s : Pool ε β} (hs : s.Sound K first) (hidle : s.running a = none) (hof : Call.Of a call = true) :
    (s.set a ⟨call, [], s.plan a call, none⟩).Sound K first := by
  refine hs.set a (by rw [hidle]; rfl) ⟨?_, (fun _ _ _ h => nomatch h), ?_, ?_, ?_⟩
  · cases call with
    | index route records =>
      unfold Call.Of at hof
      refine of_mem_indexUpdates fun r hr => ?_
      simpa using List.all_eq_true.mp hof r hr
    | remove =>
      intro u hu
      obtain ⟨c, -, rfl⟩ := List.mem_map.mp hu
      exact rfl
  · rintro route records rfl
    rfl
  · rintro rfl u hu
    obtain ⟨c, -, rfl⟩ := List.mem_map.mp hu
    rfl
  · rintro rfl c hc
    show c ∈ (s.cells.keys.map fun c => (⟨c, .strip a⟩ : Update ε)).map (·.cluster)
    rw [List.map_map]
    exact List.mem_map.mpr ⟨c, mem_keys_of_held hc, rfl⟩

theorem Sound.finished {s : Pool ε β} (hs : s.Sound K first) (hw : s.running a = some w) (hend : w.todo = []) :
    (s.stop a (.returned w.call)).Sound K first := by
  have hwork := hs.working a w hw
  refine hs.stop a fun c => ?_
  cases hcall : w.call with
  | index route records =>
    have hplan := hwork.index route records hcall
    rw [hend, List.append_nil] at hplan
    rw [hs.intact c a, hw, Option.elim_some, hplan, applyAt_indexUpdates]
    rfl
  | remove =>
    by_contra hne
    have hmem := hwork.remove hcall c hne
    rw [hend] at hmem
    cases hmem

theorem apply_of_not_writes (hu : u.change.Of a) (hw : u.writes chunks = false) :
    u.change.apply (recordsOf a chunks) = recordsOf a chunks := by
  obtain ⟨cluster, change⟩ := u
  cases change with
  | upsert records => cases hw
  | strip b =>
    obtain rfl : b = a := hu
    rw [recordsOf_of_length_eq (by simpa [Update.writes] using hw)]
    rfl

section Put

variable {s : Pool ε β} {a : String} {call : Call ε} {past rest : List (Update ε)} {u : Update ε}
  {chunks : List (Chunk ε)}

theorem Working.held_put (h : s.Working K a ⟨call, past, u :: rest, some chunks⟩) (nonce : ℕ) (c : String) :
    K.held (K.put nonce u chunks s.cells) c a =
      if u.cluster = c then u.change.apply (K.held s.cells c a) else K.held s.cells c a := by
  have hu := h.own u List.mem_cons_self
  have hgot := h.got chunks u rest rfl rfl
  rw [K.held_put hu, if_pos rfl]
  by_cases hc : u.cluster = c
  · subst hc
    rw [if_pos rfl, ← hgot]
    cases hw : u.writes chunks with
    | true => rw [if_pos ⟨rfl, rfl⟩]
    | false => rw [if_neg (fun h => nomatch h.2), apply_of_not_writes hu hw]
  · rw [if_neg hc, if_neg (fun h => hc h.1.symm)]

theorem Working.held_put_of_ne (h : s.Working K a ⟨call, past, u :: rest, some chunks⟩) (nonce : ℕ)
    (hcur : u.writes chunks = true → ∀ b, b ≠ a → recordsOf b chunks = K.held s.cells u.cluster b) {b : String}
    (hb : b ≠ a) (c : String) : K.held (K.put nonce u chunks s.cells) c b = K.held s.cells c b := by
  rw [K.held_put (h.own u List.mem_cons_self)]
  split_ifs with hc
  · rw [hcur hc.2 b hb, hc.1]
  · rfl

theorem Working.put (h : s.Working K a ⟨call, past, u :: rest, some chunks⟩) (nonce : ℕ) {s' : Pool ε β}
    (hcells : s'.cells = K.put nonce u chunks s.cells) : s'.Working K a ⟨call, past ++ [u], rest, none⟩ where
  own := fun v hv => h.own v (List.mem_cons_of_mem _ hv)
  got := fun _ _ _ hg => nomatch hg
  index := fun route records hc => by rw [← h.index route records hc, List.append_assoc]; rfl
  strips := fun hc v hv => h.strips hc v (List.mem_cons_of_mem _ hv)
  remove := by
    intro hc c hne
    rw [hcells, h.held_put] at hne
    split_ifs at hne with huc
    · rw [h.strips hc u List.mem_cons_self] at hne
      exact absurd (removeArtifactChunks_recordsOf a _) hne
    · rcases List.mem_cons.mp (h.remove hc c hne) with rfl | hmem
      · exact absurd rfl huc
      · exact hmem

end Put

/-- **What a put does.** -/
theorem Sound.put {s : Pool ε β} (hs : s.Sound K first) {past rest : List (Update ε)}
    (hw : s.running a = some ⟨call, past, u :: rest, some chunks⟩) (nonce : ℕ) {s' : Pool ε β}
    (hs' : s' = { s with cells := K.put nonce u chunks s.cells }.set a ⟨call, past ++ [u], rest, none⟩) :
    (s.PutsCurrent K (.put a nonce) ↔ s'.Intact K first) ∧
      (s.PutsCurrent K (.put a nonce) → s'.Sound K first) := by
  subst hs'
  have hwork := hs.working a _ hw
  have hcur : s.PutsCurrent K (.put a nonce) ↔
      (u.writes chunks = true → ∀ b, b ≠ a → recordsOf b chunks = K.held s.cells u.cluster b) := by
    constructor
    · exact fun h => h _ u rest chunks hw rfl rfl
    · intro h w v rest' chunks' hw' ht hg
      rw [hw] at hw'
      obtain rfl := Option.some.inj hw'
      cases ht
      cases hg
      exact h
  have hself : ({ s with cells := K.put nonce u chunks s.cells }.set a ⟨call, past ++ [u], rest, none⟩).running a =
      some ⟨call, past ++ [u], rest, none⟩ := Function.update_self ..
  have hother : ∀ b, b ≠ a →
      ({ s with cells := K.put nonce u chunks s.cells }.set a ⟨call, past ++ [u], rest, none⟩).running b =
        s.running b := fun b hb => Function.update_of_ne hb _ _
  have hintact : s.PutsCurrent K (.put a nonce) →
      ({ s with cells := K.put nonce u chunks s.cells }.set a ⟨call, past ++ [u], rest, none⟩).Intact K first := by
    intro h c b
    by_cases hb : b = a
    · subst hb
      have hheld := hs.intact c b
      rw [hw] at hheld
      rw [hself, Option.elim_some, applyAt_concat]
      exact (hwork.held_put nonce c).trans (by rw [hheld]; rfl)
    · rw [hother b hb]
      exact (hwork.held_put_of_ne nonce (hcur.mp h) hb c).trans (hs.intact c b)
  refine ⟨⟨hintact, fun h => hcur.mpr fun hwrites b hb => ?_⟩, fun h => ⟨hintact h, fun b w hb' => ?_⟩⟩
  · -- what the put left of another artifact is what the call had got of it
    have hafter := h u.cluster b
    rw [hother b hb] at hafter
    have hput : K.held (K.put nonce u chunks s.cells) u.cluster b = recordsOf b chunks := by
      rw [K.held_put (hwork.own u List.mem_cons_self), if_pos ⟨rfl, hwrites⟩, if_neg hb]
    exact hput.symm.trans (hafter.trans (hs.intact u.cluster b).symm)
  · by_cases hb : b = a
    · subst hb
      rw [hself] at hb'
      obtain rfl := Option.some.inj hb'
      exact hwork.put nonce rfl
    · rw [hother b hb] at hb'
      exact (hs.working b w hb').congr (hwork.held_put_of_ne nonce (hcur.mp h) hb)

theorem Sound.step {s : Pool ε β} (hs : s.Sound K first) (e : Event ε) :
    (s.PutsCurrent K e ↔ (s.step K e).Intact K first) ∧ (s.PutsCurrent K e → (s.step K e).Sound K first) := by
  -- a step other than a put is sound
  have hquiet : ∀ s' : Pool ε β, s'.Sound K first → (∀ a nonce, e ≠ .put a nonce) →
      (s.PutsCurrent K e ↔ s'.Intact K first) ∧ (s.PutsCurrent K e → s'.Sound K first) := by
    intro s' hs' hno
    have hcur : s.PutsCurrent K e := by
      cases e with
      | put a nonce => exact absurd rfl (hno a nonce)
      | start | get | raise | finish => exact trivial
    exact ⟨⟨fun _ => hs'.intact, fun _ => hcur⟩, fun _ => hs'⟩
  cases e with
  | start a call =>
    refine hquiet _ ?_ fun _ _ h => nomatch h
    unfold Pool.step
    dsimp only
    split
    · exact hs
    · next hr =>
      split_ifs with hof
      · exact hs.started hr hof
      · exact hs
  | get a =>
    refine hquiet _ ?_ fun _ _ h => nomatch h
    unfold Pool.step
    dsimp only
    split
    · next call past u rest hw =>
      have hwork := hs.working a _ hw
      split
      · exact hs.raised hw
      · next chunks hchunks =>
        refine hs.set a (by rw [hw]; rfl) ⟨hwork.own, ?_, hwork.index, hwork.strips, hwork.remove⟩
        rintro chunks' v rest' hg ht
        cases hg
        cases ht
        unfold CellCrypto.held
        rw [hchunks]
        rfl
    · exact hs
  | put a nonce =>
    by_cases hput : ∃ call past u rest chunks, s.running a = some ⟨call, past, u :: rest, some chunks⟩
    · obtain ⟨call, past, u, rest, chunks, hw⟩ := hput
      refine hs.put hw nonce ?_
      simp only [Pool.step, hw]
    · have hstep : s.step K (.put a nonce) = s := by
        unfold Pool.step
        dsimp only
        split
        · next call past u rest chunks hw => exact absurd ⟨call, past, u, rest, chunks, hw⟩ hput
        · rfl
      rw [hstep]
      refine ⟨⟨fun _ => hs.intact, fun _ => ?_⟩, fun _ => hs⟩
      rintro ⟨call, past, todo, got⟩ u rest chunks hw rfl rfl
      exact absurd ⟨call, past, u, rest, chunks, hw⟩ hput
  | raise a =>
    refine hquiet _ ?_ fun _ _ h => nomatch h
    unfold Pool.step
    dsimp only
    split
    · next w hr => exact hs.raised hr
    · exact hs
  | finish a =>
    refine hquiet _ ?_ fun _ _ h => nomatch h
    unfold Pool.step
    dsimp only
    split
    · next call past got hw => exact hs.finished hw rfl
    · exact hs

end Sound

end Pool

def Event.artifact : Event ε → String
  | .start a _ | .get a | .put a _ | .raise a | .finish a => a

theorem Pool.running_step_of_ne {s : Pool ε β} {e : Event ε} (ha : a ≠ e.artifact) :
    (s.step K e).running a = s.running a := by
  have hset : ∀ (s : Pool ε β) (w : Work ε), (s.set e.artifact w).running a = s.running a :=
    fun s w => Function.update_of_ne ha _ _
  have hstop : ∀ x : Ended ε, (s.stop e.artifact x).running a = s.running a :=
    fun x => Function.update_of_ne ha _ _
  unfold Pool.step
  split
  all_goals
    dsimp only [Event.artifact] at hset hstop
    split <;> try rfl
  · split_ifs
    · exact hset s _
    · rfl
  · split
    · exact hstop _
    · exact hset s _
  · exact hset _ _
  · exact hstop _
  · exact hstop _

theorem Pool.running_run_of_ne : ∀ (events : List (Event ε)) (s : Pool ε β),
    (∀ e ∈ events, a ≠ e.artifact) → (s.run K events).running a = s.running a
  | [], _, _ => rfl
  | e :: events, s, h => by
    have ih := running_run_of_ne events (s.step K e) fun e' he' => h e' (List.mem_cons_of_mem _ he')
    exact ih.trans (running_step_of_ne K (h e List.mem_cons_self))

/-- **Chunks and their neighbours**: a cell holds what its calls leave exactly when no write was late. -/
theorem cells_hold_owed (cells : Table String β) (events : List (Event ε)) :
    (Along (Pool.step K) (fun s e => (s.step K e).Intact K (K.held cells)) (Pool.start cells) events ↔
      Along (Pool.step K) (Pool.PutsCurrent K) (Pool.start cells) events) ∧
    (Along (Pool.step K) (Pool.PutsCurrent K) (Pool.start cells) events →
      (∀ a, ((Pool.start cells).run K events).running a = none) →
      ∀ c a, K.held ((Pool.start cells).run K events).cells c a =
        Pool.owed c (K.held cells c a) (((Pool.start cells).run K events).ended a)) := by
  have hstart : (Pool.start cells : Pool ε β).Sound K (K.held cells) := Pool.sound_start cells
  refine ⟨?_, fun hcur hidle c a => ?_⟩
  · exact along_congr (fun s e hs => (hs.step e).1.symm)
      (fun s e hs hi => (hs.step e).2 ((hs.step e).1.mpr hi)) events _ hstart
  · have hs := along_inv (fun s e hs hc => (hs.step e).2 hc) events _ hstart hcur
    refine (hs.intact c a).trans ?_
    have hnone : (events.foldl (Pool.step K) (Pool.start cells)).running a = none := hidle a
    rw [hnone]
    rfl

/-! ### Two artifacts in one cell -/

def openCells : CellCrypto Unit (Option (List (Chunk Unit))) where
  isEmpty := Option.isNone
  packCell _ _ chunks := some chunks
  unpackCell _ blob := blob
  pack_nonempty _ _ _ := rfl
  unpack_pack _ _ _ := rfl

def indexOne (a : String) : Call Unit := .index (fun _ => "anchor") [⟨a, 0, (), []⟩]

def bothGet : List (Event Unit) :=
  [.start "x" (indexOne "x"), .start "y" (indexOne "y"), .get "x", .get "y", .put "x" 0, .put "y" 1,
    .finish "x", .finish "y"]

/-- The first call puts the cell before the other gets it. -/
def oneByOne : List (Event Unit) :=
  [.start "x" (indexOne "x"), .start "y" (indexOne "y"), .get "x", .put "x" 0, .get "y", .put "y" 1,
    .finish "x", .finish "y"]

theorem idle_of_two (events : List (Event Unit)) (h : ∀ e ∈ events, e.artifact = "x" ∨ e.artifact = "y")
    (hx : (((Pool.start ∅).run openCells events).running "x").isNone = true)
    (hy : (((Pool.start ∅).run openCells events).running "y").isNone = true) (a : String) :
    ((Pool.start ∅).run openCells events).running a = none := by
  by_cases hax : a = "x"
  · exact hax ▸ Option.isNone_iff_eq_none.mp hx
  by_cases hay : a = "y"
  · exact hay ▸ Option.isNone_iff_eq_none.mp hy
  refine Pool.running_run_of_ne openCells events _ fun e he ha => ?_
  rcases h e he with h' | h'
  · exact hax (ha.trans h')
  · exact hay (ha.trans h')

theorem neighbour_chunk_lost :
    ¬ ∀ (K : CellCrypto Unit (Option (List (Chunk Unit)))) (cells : Table String (Option (List (Chunk Unit))))
      (events : List (Event Unit)), (∀ a, ((Pool.start cells).run K events).running a = none) →
      ∀ c a, K.held ((Pool.start cells).run K events).cells c a =
        Pool.owed c (K.held cells c a) (((Pool.start cells).run K events).ended a) := by
  intro h
  have hidle := idle_of_two bothGet (by decide) (by decide) (by decide)
  have hlost := congrArg List.length (h openCells ∅ bothGet hidle "anchor" "x")
  revert hlost
  decide

theorem cells_hold_owed_oneByOne :
    Along (Pool.step openCells) (Pool.PutsCurrent openCells) (Pool.start ∅) oneByOne ∧
    (openCells.held ((Pool.start ∅).run openCells oneByOne).cells "anchor" "x").length = 1 ∧
    ∀ c a, openCells.held ((Pool.start ∅).run openCells oneByOne).cells c a =
      Pool.owed c (openCells.held ∅ c a) (((Pool.start ∅).run openCells oneByOne).ended a) := by
  have hcur : Along (Pool.step openCells) (Pool.PutsCurrent openCells) (Pool.start ∅) oneByOne := by
    refine ⟨trivial, trivial, trivial, ?_, trivial, ?_, trivial, trivial, trivial⟩
    all_goals
      intro w u rest chunks hw ht hg _ b _
      obtain rfl := Option.some.inj hw
      cases ht
      cases hg
      rfl
  have hidle := idle_of_two oneByOne (by decide) (by decide) (by decide)
  exact ⟨hcur, by decide, (cells_hold_owed openCells ∅ oneByOne).2 hcur hidle⟩

end Cells

end Mantle
