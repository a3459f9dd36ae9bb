import Mantle.Base.Table
import Mantle.Py.Value

/-!
# Mantle.Search.Engine — reading the routed cells of a query (`search/mantle/engine.py`)

What each opening of a cell says about the key is counted, and the counts decide between a bad cell and a bad key.  A
cell that the cache serves says nothing.
-/

namespace Mantle.Engine

/-! ### The decrypted cells that are kept (`_CellCache`) -/

/-- `(principal_id, collection_id, cluster_id)`. -/
structure CellId where
  principalId : String
  collectionId : String
  clusterId : String
deriving DecidableEq, Repr

section Engine

variable {χ β κ ε η : Type}

structure CacheEntry (χ : Type) where
  chunks : List χ
  expiresAt : ℤ

abbrev CellCache (χ : Type) := Table CellId (CacheEntry χ)

/-- `get`: an entry that has expired is dropped. -/
def CellCache.get (cache : CellCache χ) (now : ℤ) (x : CellId) : Option (List χ) × CellCache χ :=
  match cache.lookup x with
  | none => (none, cache)
  | some entry => if entry.expiresAt < now then (none, cache.erase x) else (some entry.chunks, cache)

def CellCache.put (cache : CellCache χ) (expiresAt : ℤ) (x : CellId) (chunks : List χ) : CellCache χ :=
  cache.insert x ⟨chunks, expiresAt⟩

/-- The entry that is served at a moment. -/
def CellCache.Live (cache : CellCache χ) (now : ℤ) (x : CellId) : Prop :=
  ∃ entry ∈ cache.lookup x, now ≤ entry.expiresAt

/-! ### One cell -/

/-- What `unpack_cell` makes of a blob: `CellTampered` and `CellMalformed` are its errors. -/
inductive Unpacked (χ : Type)
  | opened (chunks : List χ)
  | tampered
  | malformed

/-- `_CellOutcome` -/
inductive Outcome
  | ok
  | tampered
  | malformed
deriving DecidableEq, Repr

inductive SearchError (ε : Type)
  | systemicKeyFailure
  | keyCustody (e : ε)
  | raised (e : PyErr)

/-- The oracle and the store of a query, and the time to live of the cache. -/
structure Serving (χ β κ ε : Type) where
  /-- `authorize`: the refusal, if there is one. -/
  authorize : String → String → Option ε
  deriveCellKey : CellId → Except ε κ
  unpackCell : β → κ → String → Unpacked χ
  cells : Table CellId β
  ttlSeconds : ℤ

/-- `cell_aad`; the collection is not empty where it is asked for. -/
def cellAad (x : CellId) : Except PyErr String :=
  if x.collectionId = "" then .error (.valueError "cell_aad requires a non-empty collection_id")
  else if x.clusterId = "" then .error (.valueError "cell_aad requires a non-empty cluster_id")
  else .ok (x.collectionId ++ ":" ++ x.clusterId)

structure Moment where
  got : ℤ
  put : ℤ

variable (S : Serving χ β κ ε)

def openCell (x : CellId) : Except (SearchError ε) (Option (Unpacked χ)) :=
  match S.cells.lookup x with
  | none => .ok none
  | some blob =>
    match cellAad x with
    | .error e => .error (.raised e)
    | .ok aad =>
      match S.deriveCellKey x with
      | .error e => .error (.keyCustody e)
      | .ok key => .ok (some (S.unpackCell blob key aad))

/-- `_load_cell`: the chunks and the outcome, or what it raises, and the cache after it. -/
def loadCell (cache : CellCache χ) (x : CellId) (t : Moment) :
    Except (SearchError ε) (List χ × Option Outcome) × CellCache χ :=
  match S.authorize x.principalId x.collectionId with
  | some e => (.error (.keyCustody e), cache)
  | none =>
    match cache.get t.got x with
    | (some chunks, cache) => (.ok (chunks, none), cache)
    | (none, cache) =>
      match openCell S x with
      | .error e => (.error e, cache)
      | .ok none => (.ok ([], none), cache)
      | .ok (some .tampered) => (.ok ([], some .tampered), cache)
      | .ok (some .malformed) => (.ok ([], some .malformed), cache)
      | .ok (some (.opened chunks)) => (.ok (chunks, some .ok), cache.put (t.put + S.ttlSeconds) x chunks)

/-! ### A query -/

/-- The systemic-fault bookkeeping, and the chunks to be scored by their context. -/
structure Tally (χ : Type) where
  attempted : ℕ
  failedAuth : ℕ
  found : List (CellId × List χ)

def Tally.count (tally : Tally χ) (x : CellId) (chunks : List χ) (outcome : Option Outcome) : Tally χ where
  attempted := if outcome = some .ok ∨ outcome = some .tampered then tally.attempted + 1 else tally.attempted
  failedAuth := if outcome = some .tampered then tally.failedAuth + 1 else tally.failedAuth
  found := if chunks.isEmpty then tally.found else tally.found ++ [(x, chunks)]

def readCells : Tally χ → CellCache χ → List (CellId × Moment) →
    Except (SearchError ε) (Tally χ) × CellCache χ
  | tally, cache, [] => (.ok tally, cache)
  | tally, cache, (x, t) :: loads =>
    match loadCell S cache x t with
    | (.error e, cache) => (.error e, cache)
    | (.ok (chunks, outcome), cache) => readCells (tally.count x chunks outcome) cache loads

/-- A query, once its vector is normalised: `clusters` is what `route_query` answers. -/
structure Query (χ η : Type) where
  vector : Except PyErr Unit
  contexts : List (String × String)
  topK : ℤ
  authorizedArtifacts : Option (List String)
  clusters : Except PyErr (List String)
  /-- Scoring, the order of the hits and the cut. -/
  rank : List (CellId × List χ) → List η

def Query.answered (q : Query χ η) : Prop :=
  q.contexts = [] ∨ q.topK ≤ 0 ∨ q.authorizedArtifacts = some []

instance (q : Query χ η) : Decidable q.answered := inferInstanceAs (Decidable (_ ∨ _ ∨ _))

/-- The cells of the clusters, for every context that names both its parts. -/
def cellsOf (contexts : List (String × String)) (clusters : List String) : List CellId :=
  (contexts.filter fun c => c.1 ≠ "" ∧ c.2 ≠ "").flatMap fun c => clusters.map fun cluster => ⟨c.1, c.2, cluster⟩

/-- The loads of a query, each at its moment. -/
def timed (clock : ℕ → Moment) (cells : List CellId) : List (CellId × Moment) :=
  cells.mapIdx fun i x => (x, clock i)

/-- `search`, over a cell store that is wired. -/
def search (q : Query χ η) (clock : ℕ → Moment) (cache : CellCache χ) :
    Except (SearchError ε) (List η) × CellCache χ :=
  match q.vector with
  | .error e => (.error (.raised e), cache)
  | .ok _ =>
    if q.answered then (.ok [], cache)
    else
      match q.clusters with
      | .error e => (.error (.raised e), cache)
      | .ok clusters =>
        match readCells S ⟨0, 0, []⟩ cache (timed clock (cellsOf q.contexts clusters)) with
        | (.error e, cache) => (.error e, cache)
        | (.ok tally, cache) =>
          if tally.attempted ≠ 0 ∧ tally.failedAuth = tally.attempted then (.error .systemicKeyFailure, cache)
          else (.ok (q.rank tally.found), cache)

def Query.loads (q : Query χ η) (clock : ℕ → Moment) : List (CellId × Moment) :=
  match q.vector, q.clusters with
  | .ok _, .ok clusters => if q.answered then [] else timed clock (cellsOf q.contexts clusters)
  | _, _ => []

/-! ### What the loads find -/

/-- The oracle issues what a load needs, and names its cell. -/
def Issued (cache : CellCache χ) (load : CellId × Moment) : Prop :=
  S.authorize load.1.principalId load.1.collectionId = none ∧
    (¬cache.Live load.2.got load.1 → ∃ r, openCell S load.1 = .ok r)

def Fails (x : CellId) : Prop := openCell S x = .ok (some .tampered)

def Opens (x : CellId) : Prop := ∃ chunks, openCell S x = .ok (some (.opened chunks))

/-- What the engine owes: a routed cell fails, and none is readable, from the cache or from the store. -/
def KeyFault (cache : CellCache χ) (loads : List (CellId × Moment)) : Prop :=
  (∃ load ∈ loads, Fails S load.1) ∧ ∀ load ∈ loads, ¬cache.Live load.2.got load.1 ∧ ¬Opens S load.1

/-- A cell that is read fails, none that is read opens, and the cache serves one. -/
def CacheUncounted (cache : CellCache χ) (loads : List (CellId × Moment)) : Prop :=
  (∃ load ∈ loads, ¬cache.Live load.2.got load.1 ∧ Fails S load.1) ∧
    (∀ load ∈ loads, ¬cache.Live load.2.got load.1 → ¬Opens S load.1) ∧
    ∃ load ∈ loads, cache.Live load.2.got load.1

section Loads

variable {S} {cache : CellCache χ} {x : CellId} {t : Moment}

theorem get_live (h : cache.Live t.got x) : ∃ chunks, cache.get t.got x = (some chunks, cache) := by
  obtain ⟨entry, hentry, hle⟩ := h
  rw [Option.mem_def] at hentry
  unfold CellCache.get
  rw [hentry]
  dsimp only
  rw [if_neg (Int.not_lt.mpr hle)]
  exact ⟨_, rfl⟩

theorem get_missed (h : ¬cache.Live t.got x) :
    ∃ cache', cache.get t.got x = (none, cache') ∧ ∀ y ≠ x, cache'.lookup y = cache.lookup y := by
  unfold CellCache.get
  cases hl : cache.lookup x with
  | none => exact ⟨cache, rfl, fun _ _ => rfl⟩
  | some entry =>
    dsimp only
    rw [if_pos (Int.not_le.mp fun hle => h ⟨entry, hl, hle⟩)]
    exact ⟨_, rfl, fun y hy => AList.lookup_erase_ne hy⟩

theorem loadCell_cases (S : Serving χ β κ ε) (cache : CellCache χ) (x : CellId) (t : Moment) :
    (∃ e, S.authorize x.principalId x.collectionId = some e ∧ loadCell S cache x t = (.error (.keyCustody e), cache)) ∨
    (S.authorize x.principalId x.collectionId = none ∧ cache.Live t.got x ∧
      ∃ chunks, loadCell S cache x t = (.ok (chunks, none), cache)) ∨
    (S.authorize x.principalId x.collectionId = none ∧ ¬cache.Live t.got x ∧
      ∃ cache', (∀ y ≠ x, cache'.lookup y = cache.lookup y) ∧
        ((∃ e, openCell S x = .error e ∧ loadCell S cache x t = (.error e, cache')) ∨
          ∃ r chunks outcome, openCell S x = .ok r ∧ loadCell S cache x t = (.ok (chunks, outcome), cache') ∧
            (outcome = some .tampered ↔ Fails S x) ∧ (outcome = some .ok ↔ Opens S x))) := by
  unfold loadCell
  cases ha : S.authorize x.principalId x.collectionId with
  | some e => exact .inl ⟨e, rfl, rfl⟩
  | none =>
    right
    by_cases hlive : cache.Live t.got x
    · obtain ⟨chunks, hget⟩ := get_live hlive
      rw [hget]
      exact .inl ⟨rfl, hlive, chunks, rfl⟩
    · right
      obtain ⟨cache', hget, hsame⟩ := get_missed hlive
      rw [hget]
      refine ⟨rfl, hlive, ?_⟩
      unfold Fails Opens
      cases ho : openCell S x with
      | error e => exact ⟨cache', hsame, .inl ⟨e, rfl, rfl⟩⟩
      | ok r =>
        match r with
        | none => exact ⟨cache', hsame, .inr ⟨none, [], none, rfl, rfl, by simp, by simp⟩⟩
        | some .tampered => exact ⟨cache', hsame, .inr ⟨_, [], some .tampered, rfl, rfl, by simp, by simp⟩⟩
        | some .malformed => exact ⟨cache', hsame, .inr ⟨_, [], some .malformed, rfl, rfl, by simp, by simp⟩⟩
        | some (.opened chunks) =>
          refine ⟨_, fun y hy => ?_, .inr ⟨_, chunks, some .ok, rfl, rfl, by simp, by simp⟩⟩
          exact (AList.lookup_insert_ne hy).trans (hsame y hy)

theorem openCell_error {e : SearchError ε} (h : openCell S x = .error e) : e ≠ .systemicKeyFailure := by
  rintro rfl
  unfold openCell at h
  split at h
  · cases h
  · split at h
    · cases h
    · split at h <;> cases h

theorem live_congr {cache' : CellCache χ} {y : CellId} (h : cache'.lookup y = cache.lookup y) (now : ℤ) :
    cache'.Live now y ↔ cache.Live now y := by
  unfold CellCache.Live
  rw [h]

/-- One load leaves of the others what it found: it is its own cell, and then says of the key what the load said. -/
theorem loads_step {cache' : CellCache χ} (loads : List (CellId × Moment)) (K : CellId → Prop)
    (h : cache' = cache ∨ (¬cache.Live t.got x ∧ ∀ y ≠ x, cache'.lookup y = cache.lookup y)) :
    ((¬cache.Live t.got x ∧ K x) ∨ ∃ load ∈ loads, ¬cache'.Live load.2.got load.1 ∧ K load.1) ↔
      ∃ load ∈ (x, t) :: loads, ¬cache.Live load.2.got load.1 ∧ K load.1 := by
  simp only [List.mem_cons, or_and_right, exists_or, exists_eq_left]
  rcases h with rfl | ⟨hfresh, hsame⟩
  · exact Iff.rfl
  · by_cases hK : K x
    · exact iff_of_true (.inl ⟨hfresh, hK⟩) (.inl ⟨hfresh, hK⟩)
    · refine or_congr Iff.rfl (exists_congr fun load => and_congr_right fun _ => ?_)
      by_cases hx : load.1 = x
      · rw [hx]
        exact iff_of_false (fun h => hK h.2) fun h => hK h.2
      · rw [live_congr (hsame _ hx)]

theorem issued_congr {cache' : CellCache χ} (loads : List (CellId × Moment))
    (h : cache' = cache ∨ ((∀ y ≠ x, cache'.lookup y = cache.lookup y) ∧ ∃ r, openCell S x = .ok r)) :
    (∀ load ∈ loads, Issued S cache' load) ↔ ∀ load ∈ loads, Issued S cache load := by
  rcases h with rfl | ⟨hsame, hr⟩
  · exact Iff.rfl
  · refine forall_congr' fun load => forall_congr' fun _ => and_congr_right fun _ => ?_
    by_cases hx : load.1 = x
    · rw [hx]
      exact iff_of_true (fun _ => hr) fun _ => hr
    · rw [live_congr (hsame _ hx)]

theorem readCells_issued : ∀ {loads : List (CellId × Moment)} {cache : CellCache χ} (tally : Tally χ),
    (∀ load ∈ loads, Issued S cache load) → ∃ tally' cache' failed opened,
      readCells S tally cache loads = (.ok tally', cache') ∧
      tally'.attempted = tally.attempted + failed + opened ∧ tally'.failedAuth = tally.failedAuth + failed ∧
      (failed ≠ 0 ↔ ∃ load ∈ loads, ¬cache.Live load.2.got load.1 ∧ Fails S load.1) ∧
      (opened ≠ 0 ↔ ∃ load ∈ loads, ¬cache.Live load.2.got load.1 ∧ Opens S load.1)
  | [], cache, tally, _ => ⟨tally, cache, 0, 0, rfl, rfl, rfl, by simp, by simp⟩
  | (x, t) :: loads, cache, tally, h => by
    have hhead := h (x, t) List.mem_cons_self
    have htail : ∀ load ∈ loads, Issued S cache load := fun load hl => h load (List.mem_cons_of_mem _ hl)
    unfold readCells
    rcases loadCell_cases S cache x t with ⟨e, ha, -⟩ | ⟨-, hlive, chunks, hload⟩ | ⟨-, hfresh, cache', hsame, hopen⟩
    · rw [hhead.1] at ha
      cases ha
    · -- the cache serves it, and nothing is counted
      rw [hload]
      dsimp only
      obtain ⟨tally', cache'', failed, opened, hrun, hat, hfa, hf, ho⟩ :=
        readCells_issued (tally.count x chunks none) htail
      refine ⟨tally', cache'', failed, opened, hrun, by simpa [Tally.count] using hat,
        by simpa [Tally.count] using hfa, hf.trans ?_, ho.trans ?_⟩
      · rw [← loads_step loads (Fails S) (.inl rfl)]
        exact (or_iff_right fun hc => hc.1 hlive).symm
      · rw [← loads_step loads (Opens S) (.inl rfl)]
        exact (or_iff_right fun hc => hc.1 hlive).symm
    · rcases hopen with ⟨e, ho, -⟩ | ⟨r, chunks, outcome, hr, hload, htamp, hok⟩
      · obtain ⟨r, hr⟩ := hhead.2 hfresh
        rw [hr] at ho
        cases ho
      rw [hload]
      dsimp only
      have htail' := (issued_congr loads (.inr ⟨hsame, r, hr⟩)).mpr htail
      obtain ⟨tally', cache'', failed, opened, hrun, hat, hfa, hf, ho⟩ :=
        readCells_issued (tally.count x chunks outcome) htail'
      have hfail := loads_step loads (Fails S) (.inr ⟨hfresh, hsame⟩)
      have hopens := loads_step loads (Opens S) (.inr ⟨hfresh, hsame⟩)
      rw [← htamp] at hfail
      rw [← hok] at hopens
      refine ⟨tally', cache'', failed + (if outcome = some .tampered then 1 else 0),
        opened + (if outcome = some .ok then 1 else 0), hrun, ?_, ?_, ?_, ?_⟩
      · rw [hat]
        unfold Tally.count
        by_cases h1 : outcome = some .tampered
        · simp [h1]
          omega
        · by_cases h2 : outcome = some .ok
          · simp [h2]
            omega
          · simp [h1, h2]
      · rw [hfa]
        unfold Tally.count
        by_cases h1 : outcome = some .tampered
        · simp [h1]
          omega
        · simp [h1]
      · rw [← hfail, ← hf]
        by_cases h1 : outcome = some .tampered <;> simp [h1, hfresh]
      · rw [← hopens, ← ho]
        by_cases h1 : outcome = some .ok <;> simp [h1, hfresh]

theorem readCells_refused : ∀ {loads : List (CellId × Moment)} {cache : CellCache χ} (tally : Tally χ),
    ¬(∀ load ∈ loads, Issued S cache load) → ∃ e cache', readCells S tally cache loads = (.error e, cache') ∧
      e ≠ .systemicKeyFailure
  | [], _, _, h => absurd (fun _ hl => nomatch hl) h
  | (x, t) :: loads, cache, tally, h => by
    unfold readCells
    rw [List.forall_mem_cons, not_and] at h
    rcases loadCell_cases S cache x t with
      ⟨e, -, hload⟩ | ⟨ha, hlive, chunks, hload⟩ | ⟨ha, hfresh, cache', hsame, hopen⟩
    · rw [hload]
      exact ⟨_, cache, rfl, fun hc => nomatch hc⟩
    · rw [hload]
      exact readCells_refused _ (h ⟨ha, fun hc => absurd hlive hc⟩)
    · rcases hopen with ⟨e, ho, hload⟩ | ⟨r, chunks, outcome, hr, hload, -, -⟩
      · rw [hload]
        exact ⟨e, cache', rfl, openCell_error ho⟩
      · rw [hload]
        refine readCells_refused _ fun hc => h ⟨ha, fun _ => ⟨r, hr⟩⟩ ?_
        exact (issued_congr loads (.inr ⟨hsame, r, hr⟩)).mp hc

theorem search_systemic_iff {q : Query χ η} {clock : ℕ → Moment} :
    (search S q clock cache).1 = .error .systemicKeyFailure ↔ (∀ load ∈ q.loads clock, Issued S cache load) ∧
      (∃ load ∈ q.loads clock, ¬cache.Live load.2.got load.1 ∧ Fails S load.1) ∧
      ¬∃ load ∈ q.loads clock, ¬cache.Live load.2.got load.1 ∧ Opens S load.1 := by
  unfold search Query.loads
  cases q.vector with
  | error e => simp
  | ok u =>
    dsimp only
    by_cases hq : q.answered
    · rw [if_pos hq]
      cases q.clusters <;> simp [hq]
    rw [if_neg hq]
    cases q.clusters with
    | error e => simp
    | ok clusters =>
      dsimp only
      rw [if_neg hq]
      generalize timed clock (cellsOf q.contexts clusters) = loads
      by_cases hissued : ∀ load ∈ loads, Issued S cache load
      · obtain ⟨tally, cache', failed, opened, hrun, hat, hfa, hf, ho⟩ := readCells_issued ⟨0, 0, []⟩ hissued
        rw [hrun, ← hf, ← ho]
        dsimp only
        simp only [Nat.zero_add] at hat hfa
        rw [hat, hfa]
        -- all that was counted failed, and something was counted
        have hverdict : (failed + opened ≠ 0 ∧ failed = failed + opened) ↔ failed ≠ 0 ∧ ¬opened ≠ 0 := by omega
        by_cases hv : failed + opened ≠ 0 ∧ failed = failed + opened
        · rw [if_pos hv]
          exact iff_of_true rfl ⟨hissued, hverdict.mp hv⟩
        · rw [if_neg hv]
          exact iff_of_false (fun h => nomatch h) fun h => hv (hverdict.mpr h.2)
      · obtain ⟨e, cache', hrun, hne⟩ := readCells_refused ⟨0, 0, []⟩ hissued
        rw [hrun]
        exact iff_of_false (fun h => hne (Except.error.inj h)) fun h => hissued h.1

end Loads

/-- **A bad key is told from a bad cell, but for what the cache serves.** -/
theorem systemic_exactly_iff (S : Serving χ β κ ε) (q : Query χ η) (clock : ℕ → Moment) (cache : CellCache χ) :
    ((search S q clock cache).1 = .error .systemicKeyFailure ↔ KeyFault S cache (q.loads clock)) ↔
      ((∀ load ∈ q.loads clock, Issued S cache load) → ¬CacheUncounted S cache (q.loads clock)) ∧
      (¬(∀ load ∈ q.loads clock, Issued S cache load) → ¬KeyFault S cache (q.loads clock)) := by
  rw [search_systemic_iff]
  by_cases hissued : ∀ load ∈ q.loads clock, Issued S cache load
  · rw [and_iff_right hissued, imp_iff_right hissued, and_iff_left fun hc => absurd hissued hc]
    constructor
    · rintro hiff ⟨hfails, hopens, hserved⟩
      obtain ⟨load, hl, hlive⟩ := hserved
      refine (hiff.mp ⟨hfails, ?_⟩).2 load hl |>.1 hlive
      rintro ⟨load, hl, hfresh, ho⟩
      exact hopens load hl hfresh ho
    · intro hclear
      constructor
      · rintro ⟨hfails, hopens⟩
        have hserved : ∀ load ∈ q.loads clock, ¬cache.Live load.2.got load.1 := fun load hl hlive =>
          hclear ⟨hfails, fun load hl hfresh ho => hopens ⟨load, hl, hfresh, ho⟩, load, hl, hlive⟩
        obtain ⟨load, hl, -, hf⟩ := hfails
        exact ⟨⟨load, hl, hf⟩, fun load hl => ⟨hserved load hl, fun ho => hopens ⟨load, hl, hserved load hl, ho⟩⟩⟩
      · rintro ⟨⟨load, hl, hf⟩, hnone⟩
        exact ⟨⟨load, hl, (hnone load hl).1, hf⟩, fun ⟨load, hl, _, ho⟩ => (hnone load hl).2 ho⟩
  · rw [imp_iff_right hissued]
    constructor
    · intro hiff
      exact ⟨fun h => absurd h hissued, fun hk => hissued (hiff.mpr hk).1⟩
    · rintro ⟨-, hk⟩
      exact iff_of_false (fun h => hissued h.1) hk

end Engine

def twoCells : Serving ℕ Bool Unit Unit where
  authorize _ _ := none
  deriveCellKey _ := .ok ()
  unpackCell blob _ _ := if blob then .opened [7] else .tampered
  cells := (AList.insert ⟨"o", "a", "k"⟩ true ∅).insert ⟨"o", "b", "k"⟩ false
  ttlSeconds := 60

def queryOf (contexts : List (String × String)) : Query ℕ ℕ :=
  ⟨.ok (), contexts, 50, none, .ok ["k"], fun found => found.flatMap Prod.snd⟩

theorem bad_cell_beside_cached :
    (search twoCells (queryOf [("o", "a"), ("o", "b")]) (fun _ => ⟨0, 0⟩) ∅).1 = .ok [7] ∧
    (search twoCells (queryOf [("o", "a"), ("o", "b")]) (fun _ => ⟨0, 0⟩)
      (search twoCells (queryOf [("o", "a")]) (fun _ => ⟨0, 0⟩) ∅).2).1 = .error .systemicKeyFailure ∧
    ¬KeyFault twoCells (search twoCells (queryOf [("o", "a")]) (fun _ => ⟨0, 0⟩) ∅).2
      ((queryOf [("o", "a"), ("o", "b")]).loads fun _ => ⟨0, 0⟩) := by
  refine ⟨rfl, rfl, ?_⟩
  rintro ⟨-, hnone⟩
  refine (hnone (⟨"o", "a", "k"⟩, ⟨0, 0⟩) List.mem_cons_self).1 ?_
  exact ⟨⟨[7], 60⟩, rfl, by decide⟩

end Mantle.Engine
