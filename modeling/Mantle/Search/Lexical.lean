import Mantle.Base.Table
import Mathlib.Data.Set.Basic

/-!
# Mantle.Search.Lexical — the encrypted lexical index (`search/mantle/sse/indexer.py`)

A slot holds one entry for each artifact and collection the term occurs in.  A manifest lists an artifact's slots; an
older index holds the entries in one blob for each slot.
-/

namespace Mantle

namespace Lexical

variable {a c t : String} {fields : List (String × String)} {old : List String}

/-! ### The store of one segment (`sqlite_stores.py`) -/

/-- A posting entry: an artifact, a collection, and the field the term was in. -/
structure Posting where
  artifactId : String
  collectionId : String
  field : String

/-- The primary key of `posting_entry`. -/
structure EntryKey where
  principal : String
  token : String
  artifact : String
  collection : String
deriving DecidableEq

/-- The tables; a blob that does not open is `none`. -/
structure PostingStore where
  entry : Table EntryKey Posting
  posting : Table (String × String) (Option (List Posting))
  manifest : Table (String × String) (Option (List String))

namespace PostingStore

def empty : PostingStore := ⟨∅, ∅, ∅⟩

variable (st : PostingStore) (p t : String)

def addEntry (a c : String) (e : Posting) : PostingStore := { st with entry := st.entry.insert ⟨p, t, a, c⟩ e }

def deleteEntry (a c : String) : PostingStore := { st with entry := st.entry.erase ⟨p, t, a, c⟩ }

def inSlot (a : String) (k : EntryKey) : Bool := k.principal = p && k.token = t && k.artifact = a

def deleteEntriesForArtifact (a : String) : PostingStore := { st with entry := st.entry.eraseIf (inSlot p t a) }

/-- How many rows `delete_entries_for_artifact` deletes. -/
def entriesForArtifact (a : String) : ℕ := (st.entry.keys.filter (inSlot p t a)).length

def deletePosting : PostingStore := { st with posting := st.posting.erase (p, t) }

end PostingStore

/-! ### Analysis -/

/-- The pipeline of `tokenizer.py`, and HMAC under the key a principal's tokens are blinded with. -/
structure Analysis where
  tokenize : String → List String
  stem_ne : ∀ {text s}, s ∈ tokenize text → s ≠ ""
  hmacHex : String → String → String
  hex_ne : ∀ p m, hmacHex p m ≠ ""

def longToShort : List (String × String) :=
  [("title", "t"), ("description", "d"), ("tags", "g"), ("content", "c")]

def bigrams : List String → List String
  | s :: s' :: stems => (s ++ " " ++ s') :: bigrams (s' :: stems)
  | _ => []

section Analyze

variable (A : Analysis) (p : String)

/-- `blind_token`; no term is empty. -/
def blindToken (field term : String) : String := A.hmacHex p (field ++ ":" ++ term)

/-- `_analyze_field`: the stems of a text. -/
def analyzeField (text : String) : List String := if text = "" then [] else A.tokenize text

/-- One field's tokens: its terms, and its bigrams where no term has their token. -/
def addField (entry : String → Posting) (acc : Table String Posting) (field : String × String) : Table String Posting :=
  match longToShort.lookup field.1 with
  | none => acc
  | some short =>
    let tokens := analyzeField A field.2
    let acc := tokens.dedup.foldl (fun acc term => acc.insert (blindToken A p short term) (entry field.1)) acc
    (bigrams tokens).foldl (fun acc bigram =>
      let tok := blindToken A p short bigram
      if (acc.lookup tok).isSome then acc else acc.insert tok (entry field.1)) acc

def newEntries (c a : String) (fields : List (String × String)) : Table String Posting :=
  fields.foldl (addField A p fun field => ⟨a, c, field⟩) ∅

end Analyze

/-! ### The indexer -/

inductive IndexErr
  | valueError
  | keyCustodyDenied
  | postingError
deriving DecidableEq, Repr

section Indexer

/-- `_absorb_legacy_slot`: a blob's entries become rows; a blob that does not open is dropped. -/
def absorbLegacySlot (p t : String) (st : PostingStore) : PostingStore :=
  match st.posting.lookup (p, t) with
  | none => st
  | some none => st.deletePosting p t
  | some (some legacy) =>
    (legacy.foldl (fun st old =>
      if old.artifactId = "" then st else st.addEntry p t old.artifactId old.collectionId old) st).deletePosting p t

def upsertIntoPosting (p t : String) (e : Posting) (st : PostingStore) : PostingStore :=
  (absorbLegacySlot p t st).addEntry p t e.artifactId e.collectionId e

def stripEntry (p t a c : String) (st : PostingStore) : PostingStore := (absorbLegacySlot p t st).deleteEntry p t a c

/-- `_strip_artifact_from_posting`, and whether an entry went. -/
def stripArtifactFromPosting (p t a : String) (st : PostingStore) : PostingStore × Bool :=
  ((absorbLegacySlot p t st).deleteEntriesForArtifact p t a,
    decide (0 < (absorbLegacySlot p t st).entriesForArtifact p t a))

variable (A : Analysis) (issued : Bool) (p c a : String) (fields : List (String × String)) (st : PostingStore)

/-- `put_manifest` of the new tokens, or `delete_manifest`. -/
def putManifest (tokens : List String) : PostingStore :=
  { st with manifest := if tokens = [] then st.manifest.erase (p, a) else st.manifest.insert (p, a) (some tokens) }

/-- The transaction of `index_artifact`, from the tokens the manifest lists. -/
def reindex (old : List String) : PostingStore :=
  let new := newEntries A p c a fields
  let st := (old.filter fun t => t ∉ new.keys).foldl (fun st t => stripEntry p t a c st) st
  let st := new.toPairs.foldl (fun st e => upsertIntoPosting p e.1 e.2 st) st
  putManifest p a st new.keys

/-- `SseIndexer.index_artifact`, and how many tokens it wrote. -/
def indexArtifact : Except IndexErr (PostingStore × ℕ) :=
  if p = "" || c = "" || a = "" then .error .valueError
  else if !issued then .error .keyCustodyDenied
  else
    let written := (newEntries A p c a fields).keys.length
    match st.manifest.lookup (p, a) with
    | none => .ok (reindex A p c a fields st [], written)
    | some none => .error .postingError
    | some (some old) => .ok (reindex A p c a fields st old, written)

/-- The transaction of `remove_artifact`, and how many slots it touched. -/
def strip (old : List String) : PostingStore × ℕ :=
  let done := old.foldl (fun s t =>
    let r := stripArtifactFromPosting p t a s.1
    (r.1, if r.2 then s.2 + 1 else s.2)) (st, 0)
  (putManifest p a done.1 [], done.2)

def removeArtifact : Except IndexErr (PostingStore × ℕ) :=
  if p = "" || a = "" then .error .valueError
  else if !issued then .error .keyCustodyDenied
  else
    match st.manifest.lookup (p, a) with
    | none => .ok (st, 0)
    | some none => .error .postingError
    | some (some old) => .ok (strip p a st old)

end Indexer

/-! ### Tokens of a text -/

variable {acc : Table String Posting} {e : Posting}

section Tokens

variable {A : Analysis} {p : String}

/-- A slot one of the fields is filed in. -/
def IsToken (A : Analysis) (p : String) (fields : List (String × String)) (t : String) : Prop :=
  ∃ f ∈ fields, ∃ short, longToShort.lookup f.1 = some short ∧
    ∃ term ∈ analyzeField A f.2 ++ bigrams (analyzeField A f.2), blindToken A p short term = t

theorem mem_keys_insert {k : String} :
    t ∈ (acc.insert k e).keys ↔ t = k ∨ t ∈ acc.keys := by
  rw [← AList.mem_keys, ← AList.mem_keys, AList.mem_insert]

theorem mem_keys_terms {entry : Posting} {f : String → String} :
    ∀ (terms : List String) (acc : Table String Posting),
      t ∈ (terms.foldl (fun acc term => acc.insert (f term) entry) acc).keys ↔
        t ∈ acc.keys ∨ ∃ term ∈ terms, f term = t
  | [], acc => by simp
  | term :: terms, acc => by
    rw [List.foldl_cons, mem_keys_terms terms, mem_keys_insert]
    simp only [List.mem_cons, exists_eq_or_imp]
    rw [or_comm (a := t = f term), or_assoc, eq_comm (a := t)]

theorem mem_keys_bigrams {entry : Posting} {f : String → String} :
    ∀ (terms : List String) (acc : Table String Posting),
      t ∈ (terms.foldl (fun acc term =>
          if (acc.lookup (f term)).isSome then acc else acc.insert (f term) entry) acc).keys ↔
        t ∈ acc.keys ∨ ∃ term ∈ terms, f term = t
  | [], acc => by simp
  | term :: terms, acc => by
    rw [List.foldl_cons, mem_keys_bigrams terms]
    have hstep : t ∈ (if (acc.lookup (f term)).isSome then acc else acc.insert (f term) entry).keys ↔
        t = f term ∨ t ∈ acc.keys := by
      by_cases hs : (acc.lookup (f term)).isSome = true
      · rw [if_pos hs]
        refine ⟨.inr, ?_⟩
        rintro (rfl | h)
        · exact AList.lookup_isSome.mp hs
        · exact h
      · rw [if_neg hs, mem_keys_insert]
    rw [hstep]
    simp only [List.mem_cons, exists_eq_or_imp]
    rw [or_comm (a := t = f term), or_assoc, eq_comm (a := t)]

theorem mem_keys_addField {entry : String → Posting} {field : String × String} :
    t ∈ (addField A p entry acc field).keys ↔ t ∈ acc.keys ∨ IsToken A p [field] t := by
  unfold addField IsToken
  simp only [List.mem_singleton, exists_eq_left]
  cases hs : longToShort.lookup field.1 with
  | none => simp
  | some short =>
    dsimp only
    rw [mem_keys_bigrams, mem_keys_terms]
    simp only [Option.some.injEq, exists_eq_left', List.mem_dedup, List.mem_append, or_and_right, exists_or]
    rw [or_assoc]

theorem mem_newEntries_iff :
    t ∈ (newEntries A p c a fields).keys ↔ IsToken A p fields t := by
  have hfold : ∀ (fields : List (String × String)) (acc : Table String Posting),
      t ∈ (fields.foldl (addField A p fun field => ⟨a, c, field⟩) acc).keys ↔ t ∈ acc.keys ∨ IsToken A p fields t := by
    intro fields
    induction fields with
    | nil => intro acc; simp [IsToken]
    | cons field fields ih =>
      intro acc
      rw [List.foldl_cons, ih, mem_keys_addField, or_assoc]
      unfold IsToken
      simp only [List.mem_cons, List.not_mem_nil, or_false, exists_eq_or_imp, exists_eq_left]
  unfold newEntries
  rw [hfold]
  refine ⟨fun h => h.resolve_left ?_, .inr⟩
  intro h
  cases h

def Names (a c : String) (acc : Table String Posting) : Prop :=
  ∀ {t e}, acc.lookup t = some e → e.artifactId = a ∧ e.collectionId = c

theorem Names.insert (h : Names a c acc) (he : e.artifactId = a ∧ e.collectionId = c) : Names a c (acc.insert t e) := by
  intro t' e' ht
  rw [Table.lookup_insert_of] at ht
  split_ifs at ht
  · cases ht
    exact he
  · exact h ht

theorem Names.addField {field : String × String} (h : Names a c acc) :
    Names a c (addField A p (fun field => ⟨a, c, field⟩) acc field) := by
  unfold Lexical.addField
  cases longToShort.lookup field.1 with
  | none => exact h
  | some short =>
    dsimp only
    refine List.foldlRecOn (motive := Names a c) _ _ (List.foldlRecOn (motive := Names a c) _ _ h ?_) ?_
    · intro acc hacc term _
      exact hacc.insert ⟨rfl, rfl⟩
    · intro acc hacc term _
      split_ifs
      · exact hacc
      · exact hacc.insert ⟨rfl, rfl⟩

theorem newEntries_names :
    ∀ e ∈ (newEntries A p c a fields).toPairs, e.2.artifactId = a ∧ e.2.collectionId = c := by
  have hnames : Names a c (newEntries A p c a fields) :=
    List.foldlRecOn (motive := Names a c) _ _ (fun h => by cases h) fun acc hacc field _ => hacc.addField
  intro e he
  exact hnames (Table.mem_toPairs.mp he)

end Tokens

/-! ### What a slot holds -/

/-- A posting entry of the artifact in the slot and the collection: a row, or in the slot's legacy blob. -/
def Holds (st : PostingStore) (p t a c : String) : Prop :=
  (st.entry.lookup ⟨p, t, a, c⟩).isSome = true ∨
    ∃ legacy, st.posting.lookup (p, t) = some (some legacy) ∧
      ∃ e ∈ legacy, e.artifactId ≠ "" ∧ e.artifactId = a ∧ e.collectionId = c

section Slots

variable {st : PostingStore} {p t a c p' t' a' c' : String}

theorem lookup_absorbed (legacy : List Posting) (st : PostingStore) :
    ((legacy.foldl (fun st old =>
        if old.artifactId = "" then st else st.addEntry p t old.artifactId old.collectionId old) st).entry.lookup
          ⟨p', t', a', c'⟩).isSome = true ↔
      (st.entry.lookup ⟨p', t', a', c'⟩).isSome = true ∨
        p' = p ∧ t' = t ∧ ∃ e ∈ legacy, e.artifactId ≠ "" ∧ e.artifactId = a' ∧ e.collectionId = c' := by
  induction legacy generalizing st with
  | nil => simp
  | cons old legacy ih =>
    rw [List.foldl_cons, ih]
    by_cases hold : old.artifactId = ""
    · rw [if_pos hold]
      simp [hold]
    · rw [if_neg hold]
      unfold PostingStore.addEntry
      dsimp only
      rw [Table.lookup_insert_of]
      by_cases hk : (⟨p', t', a', c'⟩ : EntryKey) = ⟨p, t, old.artifactId, old.collectionId⟩
      · rw [if_pos hk]
        cases hk
        simp [hold]
      · rw [if_neg hk]
        simp only [EntryKey.mk.injEq, not_and] at hk
        simp only [List.mem_cons, exists_eq_or_imp]
        constructor
        · rintro (h | ⟨rfl, rfl, h⟩)
          · exact .inl h
          · exact .inr ⟨rfl, rfl, .inr h⟩
        · rintro (h | ⟨rfl, rfl, ⟨-, rfl, rfl⟩ | h⟩)
          · exact .inl h
          · exact absurd rfl (hk rfl rfl rfl)
          · exact .inr ⟨rfl, rfl, h⟩

theorem absorbed_tables (legacy : List Posting) (st : PostingStore) :
    (legacy.foldl (fun st old =>
        if old.artifactId = "" then st else st.addEntry p t old.artifactId old.collectionId old) st).posting = st.posting ∧
      (legacy.foldl (fun st old =>
        if old.artifactId = "" then st else st.addEntry p t old.artifactId old.collectionId old) st).manifest =
          st.manifest := by
  refine List.foldlRecOn (motive := fun s : PostingStore => s.posting = st.posting ∧ s.manifest = st.manifest)
    _ _ ⟨rfl, rfl⟩ ?_
  intro s h old _
  split_ifs
  · exact h
  · exact h

theorem manifest_absorb : (absorbLegacySlot p t st).manifest = st.manifest := by
  unfold absorbLegacySlot
  split
  · rfl
  · rfl
  · exact (absorbed_tables _ st).2

theorem posting_absorb : (absorbLegacySlot p t st).posting.lookup (p', t') =
    if (p', t') = (p, t) then none else st.posting.lookup (p', t') := by
  unfold absorbLegacySlot
  split
  · rename_i h
    split_ifs with hk
    · rw [hk, h]
    · rfl
  · exact Table.lookup_erase_of
  · rename_i legacy h
    unfold PostingStore.deletePosting
    dsimp only
    rw [(absorbed_tables legacy st).1, Table.lookup_erase_of]

theorem entry_absorb : ((absorbLegacySlot p t st).entry.lookup ⟨p', t', a, c⟩).isSome = true ↔
    (st.entry.lookup ⟨p', t', a, c⟩).isSome = true ∨
      (p' = p ∧ t' = t ∧ ∃ legacy, st.posting.lookup (p, t) = some (some legacy) ∧
        ∃ e ∈ legacy, e.artifactId ≠ "" ∧ e.artifactId = a ∧ e.collectionId = c) := by
  unfold absorbLegacySlot
  split
  · rename_i h
    simp [h]
  · rename_i h
    simp [h, PostingStore.deletePosting]
  · rename_i legacy h
    unfold PostingStore.deletePosting
    dsimp only
    rw [lookup_absorbed, h]
    simp

theorem holds_absorb : Holds (absorbLegacySlot p t st) p' t' a c ↔ Holds st p' t' a c := by
  unfold Holds
  rw [posting_absorb, entry_absorb]
  by_cases hslot : (p', t') = (p, t)
  · rw [if_pos hslot]
    cases hslot
    simp
  · rw [if_neg hslot]
    rw [Prod.mk.injEq, not_and] at hslot
    refine or_congr_left ⟨?_, .inl⟩
    rintro (h | ⟨rfl, rfl, -⟩)
    · exact h
    · exact absurd rfl (hslot rfl)

theorem manifest_upsert : (upsertIntoPosting p t e st).manifest = st.manifest := manifest_absorb

theorem manifest_strip : (stripEntry p t a c st).manifest = st.manifest := manifest_absorb

theorem manifest_stripArtifact : (stripArtifactFromPosting p t a st).1.manifest = st.manifest := manifest_absorb

theorem holds_upsert : Holds (upsertIntoPosting p t e st) p' t' a' c' ↔
    (p' = p ∧ t' = t ∧ a' = e.artifactId ∧ c' = e.collectionId) ∨ Holds st p' t' a' c' := by
  rw [← @holds_absorb st p t a' c' p' t']
  unfold Holds upsertIntoPosting PostingStore.addEntry
  dsimp only
  rw [Table.lookup_insert_of]
  by_cases hk : (⟨p', t', a', c'⟩ : EntryKey) = ⟨p, t, e.artifactId, e.collectionId⟩
  · rw [if_pos hk]
    simp only [EntryKey.mk.injEq] at hk
    simp [hk]
  · rw [if_neg hk]
    simp only [EntryKey.mk.injEq] at hk
    simp [hk]

theorem holds_strip : Holds (stripEntry p t a c st) p' t' a' c' ↔
    ¬(p' = p ∧ t' = t ∧ a' = a ∧ c' = c) ∧ Holds st p' t' a' c' := by
  rw [← @holds_absorb st p t a' c' p' t']
  by_cases hk : (⟨p', t', a', c'⟩ : EntryKey) = ⟨p, t, a, c⟩
  · cases hk
    simp only [and_self, not_true_eq_false, false_and, iff_false]
    unfold Holds stripEntry PostingStore.deleteEntry
    dsimp only
    rw [posting_absorb, if_pos rfl, AList.lookup_erase]
    simp
  · have hne := hk
    simp only [EntryKey.mk.injEq] at hne
    unfold Holds stripEntry PostingStore.deleteEntry
    dsimp only
    rw [Table.lookup_erase_of, if_neg hk]
    simp [hne]

theorem holds_stripArtifact : Holds (stripArtifactFromPosting p t a st).1 p' t' a' c' ↔
    ¬(p' = p ∧ t' = t ∧ a' = a) ∧ Holds st p' t' a' c' := by
  rw [← @holds_absorb st p t a' c' p' t']
  unfold stripArtifactFromPosting PostingStore.deleteEntriesForArtifact Holds
  dsimp only
  rw [Table.lookup_eraseIf]
  have hin : PostingStore.inSlot p t a ⟨p', t', a', c'⟩ = true ↔ p' = p ∧ t' = t ∧ a' = a := by
    unfold PostingStore.inSlot
    simp [and_assoc]
  by_cases hk : PostingStore.inSlot p t a ⟨p', t', a', c'⟩ = true
  · rw [if_pos hk]
    obtain ⟨rfl, rfl, rfl⟩ := hin.mp hk
    rw [posting_absorb, if_pos rfl]
    simp
  · rw [if_neg hk]
    rw [hin] at hk
    simp [hk]

theorem holds_stripEach (a c : String) : ∀ (toks : List String) (st : PostingStore),
    Holds (toks.foldl (fun st t => stripEntry p t a c st) st) p' t' a' c' ↔
      ¬(p' = p ∧ t' ∈ toks ∧ a' = a ∧ c' = c) ∧ Holds st p' t' a' c'
  | [], st => by simp
  | t :: toks, st => by
    rw [List.foldl_cons, holds_stripEach a c toks, holds_strip]
    simp only [List.mem_cons]
    tauto

theorem holds_upsertEach (a c : String) : ∀ (es : List (String × Posting)) (st : PostingStore),
    (∀ e ∈ es, e.2.artifactId = a ∧ e.2.collectionId = c) →
    (Holds (es.foldl (fun st e => upsertIntoPosting p e.1 e.2 st) st) p' t' a' c' ↔
      (p' = p ∧ t' ∈ es.map Prod.fst ∧ a' = a ∧ c' = c) ∨ Holds st p' t' a' c')
  | [], st, _ => by simp
  | e :: es, st, h => by
    obtain ⟨ha, hc⟩ := h e List.mem_cons_self
    rw [List.foldl_cons, holds_upsertEach a c es _ fun e' he' => h e' (List.mem_cons_of_mem _ he'), holds_upsert, ha, hc]
    simp only [List.map_cons, List.mem_cons]
    tauto

theorem manifest_stripEach (a c : String) (toks : List String) (st : PostingStore) :
    (toks.foldl (fun st t => stripEntry p t a c st) st).manifest = st.manifest :=
  List.foldlRecOn (motive := fun s : PostingStore => s.manifest = st.manifest) _ _ rfl
    fun _ h _ _ => manifest_strip.trans h

theorem manifest_upsertEach (es : List (String × Posting)) (st : PostingStore) :
    (es.foldl (fun st e => upsertIntoPosting p e.1 e.2 st) st).manifest = st.manifest :=
  List.foldlRecOn (motive := fun s : PostingStore => s.manifest = st.manifest) _ _ rfl
    fun _ h _ _ => manifest_upsert.trans h

theorem map_fst_toPairs (acc : Table String Posting) : acc.toPairs.map Prod.fst = acc.keys := by
  unfold Table.toPairs
  rw [List.map_map]
  rfl

/-- **What re-indexing does to the slots.** -/
theorem holds_reindex {A : Analysis} :
    Holds (reindex A p c a fields st old) p' t' a' c' ↔
      (p' = p ∧ a' = a ∧ c' = c ∧ IsToken A p fields t') ∨
        (¬(p' = p ∧ a' = a ∧ c' = c ∧ t' ∈ old) ∧ Holds st p' t' a' c') := by
  have hput : ∀ (s : PostingStore) toks, Holds (putManifest p a s toks) p' t' a' c' ↔ Holds s p' t' a' c' :=
    fun _ _ => Iff.rfl
  unfold reindex
  dsimp only
  rw [hput, holds_upsertEach a c _ _ newEntries_names, holds_stripEach, map_fst_toPairs, mem_newEntries_iff,
    List.mem_filter]
  simp only [decide_not, Bool.not_eq_true', decide_eq_false_iff_not, mem_newEntries_iff]
  tauto

theorem manifest_reindex {A : Analysis} {fields : List (String × String)} {old : List String} :
    (reindex A p c a fields st old).manifest.lookup (p', a') =
      if (p', a') = (p, a) then
        (if (newEntries A p c a fields).keys = [] then none else some (some (newEntries A p c a fields).keys))
      else st.manifest.lookup (p', a') := by
  unfold reindex putManifest
  dsimp only
  rw [manifest_upsertEach, manifest_stripEach]
  by_cases hempty : (newEntries A p c a fields).keys = []
  · rw [if_pos hempty, if_pos hempty, Table.lookup_erase_of]
  · rw [if_neg hempty, if_neg hempty, Table.lookup_insert_of]

/-- **What removal does to the slots.** -/
theorem holds_remove : Holds (strip p a st old).1 p' t' a' c' ↔
    ¬(p' = p ∧ t' ∈ old ∧ a' = a) ∧ Holds st p' t' a' c' := by
  have hfold : ∀ (old : List String) (s : PostingStore × ℕ),
      Holds (old.foldl (fun s t =>
        let r := stripArtifactFromPosting p t a s.1
        (r.1, if r.2 then s.2 + 1 else s.2)) s).1 p' t' a' c' ↔
        ¬(p' = p ∧ t' ∈ old ∧ a' = a) ∧ Holds s.1 p' t' a' c' := by
    intro old
    induction old with
    | nil => intro s; simp
    | cons t old ih =>
      intro s
      rw [List.foldl_cons, ih, holds_stripArtifact]
      simp only [List.mem_cons]
      tauto
  exact hfold old (st, 0)

theorem manifest_remove : (strip p a st old).1.manifest.lookup (p', a') =
    if (p', a') = (p, a) then none else st.manifest.lookup (p', a') := by
  have hfold : (old.foldl (fun (s : PostingStore × ℕ) t =>
        let r := stripArtifactFromPosting p t a s.1
        (r.1, if r.2 then s.2 + 1 else s.2)) (st, 0)).1.manifest = st.manifest :=
    List.foldlRecOn (motive := fun s : PostingStore × ℕ => s.1.manifest = st.manifest) _ _ rfl
      fun _ h _ _ => manifest_stripArtifact.trans h
  unfold strip putManifest
  dsimp only
  rw [hfold, if_pos rfl, Table.lookup_erase_of]

end Slots

/-! ### Runs -/

/-- A call of the indexer, and whether the oracle issues the key for it. -/
inductive Call
  | index (p c a : String) (fields : List (String × String)) (issued : Bool)
  | remove (p a : String) (issued : Bool)

/-- What each artifact was last indexed as, in each collection: the tokens of the text. -/
abbrev Indexed := String → String → String → Set String

section Runs

variable (A : Analysis)

def Call.result (st : PostingStore) : Call → Except IndexErr (PostingStore × ℕ)
  | .index p c a fields issued => indexArtifact A issued p c a fields st
  | .remove p a issued => removeArtifact issued p a st

def Call.run (st : PostingStore) (k : Call) : PostingStore :=
  match k.result A st with
  | .ok r => r.1
  | .error _ => st

def Call.Returns (st : PostingStore) : Call → Prop
  | .index p c a _ issued => p ≠ "" ∧ c ≠ "" ∧ a ≠ "" ∧ issued = true ∧ st.manifest.lookup (p, a) ≠ some none
  | .remove p a issued => p ≠ "" ∧ a ≠ "" ∧ issued = true ∧ st.manifest.lookup (p, a) ≠ some none

open Classical in
/-- What was last indexed, after a call that returned. -/
noncomputable def Call.record (last : Indexed) : Call → Indexed
  | .index p c a fields _ => fun p' a' c' =>
      if p' = p ∧ a' = a ∧ c' = c then {t | IsToken A p fields t} else last p' a' c'
  | .remove p a _ => fun p' a' c' => if p' = p ∧ a' = a then ∅ else last p' a' c'

open Classical in
noncomputable def Call.recorded (st : PostingStore) (last : Indexed) (k : Call) : Indexed :=
  if k.Returns st then k.record A last else last

/-- **The index says what was indexed last**: a slot holds an artifact exactly when it is a token of the text it was
last indexed with there. -/
structure Says (st : PostingStore) (last : Indexed) : Prop where
  slots : ∀ p t a c, Holds st p t a c ↔ t ∈ last p a c
  manifest : ∀ p t a c, Holds st p t a c → ∃ toks, st.manifest.lookup (p, a) = some (some toks) ∧ t ∈ toks

/-- The tokens of an artifact's texts in the other collections are tokens of the text it is indexed with now. -/
def Call.Covers (last : Indexed) : Call → Prop
  | .index p c a fields _ => ∀ c' ≠ c, ∀ t ∈ last p a c', IsToken A p fields t
  | .remove _ _ _ => True

variable {A} {st : PostingStore} {last : Indexed} {p c a : String} {fields : List (String × String)} {issued : Bool}

theorem run_of_not_returns {k : Call} (h : ¬k.Returns st) : k.run A st = st := by
  have herr : ∃ e, k.result A st = .error e := by
    cases k with
    | index p c a fields issued =>
      unfold Call.result indexArtifact
      unfold Call.Returns at h
      dsimp only at h ⊢
      split_ifs with hname hissued
      · exact ⟨_, rfl⟩
      · exact ⟨_, rfl⟩
      · simp only [Bool.or_eq_true, decide_eq_true_eq, not_or] at hname
        simp only [Bool.not_eq_true', Bool.not_eq_false] at hissued
        have hm : st.manifest.lookup (p, a) = some none := by
          by_contra hm
          exact h ⟨hname.1.1, hname.1.2, hname.2, hissued, hm⟩
        rw [hm]
        exact ⟨_, rfl⟩
    | remove p a issued =>
      unfold Call.result removeArtifact
      unfold Call.Returns at h
      dsimp only at h ⊢
      split_ifs with hname hissued
      · exact ⟨_, rfl⟩
      · exact ⟨_, rfl⟩
      · simp only [Bool.or_eq_true, decide_eq_true_eq, not_or] at hname
        simp only [Bool.not_eq_true', Bool.not_eq_false] at hissued
        have hm : st.manifest.lookup (p, a) = some none := by
          by_contra hm
          exact h ⟨hname.1, hname.2, hissued, hm⟩
        rw [hm]
        exact ⟨_, rfl⟩
  obtain ⟨e, he⟩ := herr
  unfold Call.run
  rw [he]

def listed (st : PostingStore) (p a : String) : List String :=
  match st.manifest.lookup (p, a) with
  | some (some toks) => toks
  | _ => []

theorem run_index (h : (Call.index p c a fields issued).Returns st) :
    (Call.index p c a fields issued).run A st = reindex A p c a fields st (listed st p a) := by
  obtain ⟨hp, hc, ha, hissued, hm⟩ := h
  unfold Call.run Call.result indexArtifact listed
  dsimp only
  rw [if_neg (by simp [hp, hc, ha]), if_neg (by simp [hissued])]
  cases hlook : st.manifest.lookup (p, a) with
  | none => rfl
  | some blob =>
    cases blob with
    | none => exact absurd hlook hm
    | some toks => rfl

theorem run_remove (h : (Call.remove p a issued).Returns st) :
    (Call.remove p a issued).run A st =
      if st.manifest.lookup (p, a) = none then st else (strip p a st (listed st p a)).1 := by
  obtain ⟨hp, ha, hissued, hm⟩ := h
  unfold Call.run Call.result removeArtifact listed
  dsimp only
  rw [if_neg (by simp [hp, ha]), if_neg (by simp [hissued])]
  cases hlook : st.manifest.lookup (p, a) with
  | none => rfl
  | some blob =>
    cases blob with
    | none => exact absurd hlook hm
    | some toks => rfl

theorem Says.mem_listed (h : Says st last) (ht : Holds st p t a c) : t ∈ listed st p a := by
  obtain ⟨toks, hm, hmem⟩ := h.manifest p t a c ht
  unfold listed
  rw [hm]
  exact hmem

theorem says_index_iff (h : Says st last) (hr : (Call.index p c a fields issued).Returns st) :
    Says ((Call.index p c a fields issued).run A st) ((Call.index p c a fields issued).record A last) ↔
      (Call.index p c a fields issued).Covers A last := by
  rw [run_index hr]
  unfold Call.record Call.Covers
  have hlook := fun p' a' => @manifest_reindex st p a c p' a' A fields (listed st p a)
  have hmem : ∀ t, t ∈ (newEntries A p c a fields).keys ↔ IsToken A p fields t := fun t => mem_newEntries_iff
  constructor
  · intro hs c' hc' t ht
    have hholds : Holds (reindex A p c a fields st (listed st p a)) p t a c' := by
      refine (hs.slots p t a c').mpr ?_
      dsimp only
      rw [if_neg fun hk => hc' hk.2.2]
      exact ht
    obtain ⟨toks, hm, ht'⟩ := hs.manifest p t a c' hholds
    rw [hlook, if_pos rfl] at hm
    split_ifs at hm
    cases hm
    exact (hmem t).mp ht'
  · intro hcov
    have hslots : ∀ p' t' a' c', Holds (reindex A p c a fields st (listed st p a)) p' t' a' c' ↔
        t' ∈ if p' = p ∧ a' = a ∧ c' = c then {t | IsToken A p fields t} else last p' a' c' := by
      intro p' t' a' c'
      rw [holds_reindex]
      by_cases hk : p' = p ∧ a' = a ∧ c' = c
      · rw [if_pos hk]
        obtain ⟨rfl, rfl, rfl⟩ := hk
        simp only [true_and, Set.mem_ofPred_eq]
        -- what was there and is no longer a token was listed, so it was stripped
        refine ⟨fun hor => hor.resolve_right fun hold => hold.1 (h.mem_listed hold.2), .inl⟩
      · rw [if_neg hk, ← h.slots]
        constructor
        · rintro (⟨rfl, rfl, rfl, -⟩ | ⟨-, ht⟩)
          · exact absurd ⟨rfl, rfl, rfl⟩ hk
          · exact ht
        · exact fun ht => .inr ⟨fun hk' => hk ⟨hk'.1, hk'.2.1, hk'.2.2.1⟩, ht⟩
    refine ⟨hslots, ?_⟩
    intro p' t' a' c' ht
    rw [hlook]
    by_cases hslot : (p', a') = (p, a)
    · cases hslot
      rw [if_pos rfl]
      have htok : IsToken A p fields t' := by
        rw [hslots] at ht
        by_cases hc' : c' = c
        · rw [if_pos ⟨rfl, rfl, hc'⟩] at ht
          exact ht
        · rw [if_neg fun hk => hc' hk.2.2] at ht
          exact hcov c' hc' t' ht
      have hkeys := (hmem t').mpr htok
      rw [if_neg (List.ne_nil_of_mem hkeys)]
      exact ⟨_, rfl, hkeys⟩
    · rw [if_neg hslot]
      refine h.manifest p' t' a' c' ?_
      rw [holds_reindex] at ht
      rcases ht with ⟨rfl, rfl, -⟩ | ⟨-, ht⟩
      · exact absurd rfl hslot
      · exact ht

theorem says_remove (h : Says st last) (hr : (Call.remove p a issued).Returns st) :
    Says ((Call.remove p a issued).run A st) ((Call.remove p a issued).record A last) := by
  rw [run_remove hr]
  unfold Call.record
  have hslots : ∀ p' t' a' c',
      Holds (if st.manifest.lookup (p, a) = none then st else (strip p a st (listed st p a)).1) p' t' a' c' ↔
        ¬(p' = p ∧ a' = a) ∧ Holds st p' t' a' c' := by
    intro p' t' a' c'
    split_ifs with hnone
    · refine ⟨fun ht => ⟨?_, ht⟩, fun ht => ht.2⟩
      rintro ⟨rfl, rfl⟩
      obtain ⟨toks, hm, -⟩ := h.manifest _ _ _ _ ht
      rw [hnone] at hm
      cases hm
    · rw [holds_remove]
      refine ⟨fun ht => ⟨?_, ht.2⟩, fun ht => ⟨fun hk => ht.1 ⟨hk.1, hk.2.2⟩, ht.2⟩⟩
      rintro ⟨rfl, rfl⟩
      exact ht.1 ⟨rfl, h.mem_listed ht.2, rfl⟩
  refine ⟨?_, ?_⟩
  · intro p' t' a' c'
    rw [hslots, h.slots]
    dsimp only
    by_cases hk : p' = p ∧ a' = a
    · simp [hk]
    · simp [hk]
  · intro p' t' a' c' ht
    obtain ⟨hne, hold⟩ := (hslots p' t' a' c').mp ht
    obtain ⟨toks, hm, hmem⟩ := h.manifest p' t' a' c' hold
    refine ⟨toks, ?_, hmem⟩
    split_ifs with hnone
    · exact hm
    · rw [manifest_remove, if_neg fun hk => hne (Prod.mk.inj hk)]
      exact hm

/-- **One call.** -/
theorem says_step_iff (h : Says st last) (k : Call) :
    Says (k.run A st) (k.recorded A st last) ↔ (k.Returns st → k.Covers A last) := by
  unfold Call.recorded
  by_cases hr : k.Returns st
  · rw [if_pos hr]
    simp only [hr, true_implies]
    cases k with
    | index p c a fields issued => exact says_index_iff h hr
    | remove p a issued => exact ⟨fun _ => trivial, fun _ => says_remove h hr⟩
  · rw [if_neg hr, run_of_not_returns hr]
    exact ⟨fun _ hr' => absurd hr' hr, fun _ => h⟩

/-- The store after calls one after the other. -/
def runAll (A : Analysis) : PostingStore → List Call → PostingStore
  | st, [] => st
  | st, k :: ks => runAll A (k.run A st) ks

/-- What was last indexed after them. -/
noncomputable def recordAll (A : Analysis) : PostingStore → Indexed → List Call → Indexed
  | _, last, [] => last
  | st, last, k :: ks => recordAll A (k.run A st) (k.recorded A st last) ks

/-- Every call that returns covers what the artifact was last indexed with elsewhere. -/
def CoverAll (A : Analysis) : PostingStore → Indexed → List Call → Prop
  | _, _, [] => True
  | st, last, k :: ks => (k.Returns st → k.Covers A last) ∧ CoverAll A (k.run A st) (k.recorded A st last) ks

/-- **The lexical index says what was indexed last** exactly when no call drops a token of another collection. -/
theorem index_says_last_iff (A : Analysis) (st : PostingStore) (last : Indexed) (calls : List Call)
    (h : Says st last) :
    (∀ done, done <+: calls → Says (runAll A st done) (recordAll A st last done)) ↔ CoverAll A st last calls := by
  induction calls generalizing st last with
  | nil =>
    refine ⟨fun _ => trivial, ?_⟩
    intro _ done hdone
    rw [List.prefix_nil.mp hdone]
    exact h
  | cons k ks ih =>
    show _ ↔ (k.Returns st → k.Covers A last) ∧ CoverAll A (k.run A st) (k.recorded A st last) ks
    constructor
    · intro hall
      have hstep : Says (k.run A st) (k.recorded A st last) := hall [k] ⟨ks, rfl⟩
      refine ⟨(says_step_iff h k).mp hstep, (ih _ _ hstep).mp ?_⟩
      intro done hdone
      exact hall (k :: done) (List.cons_prefix_cons.mpr ⟨rfl, hdone⟩)
    · rintro ⟨hcov, hrest⟩ done hdone
      have hstep : Says (k.run A st) (k.recorded A st last) := (says_step_iff h k).mpr hcov
      cases done with
      | nil => exact h
      | cons k' done =>
        obtain ⟨rfl, hrun⟩ := List.cons_prefix_cons.mp hdone
        exact (ih _ _ hstep).mpr hrest done hrun

theorem says_empty : Says PostingStore.empty fun _ _ _ => ∅ := by
  have hnone : ∀ p t a c, ¬Holds PostingStore.empty p t a c := by
    rintro p t a c (h | ⟨legacy, h, -⟩)
    · cases h
    · cases h
  exact ⟨fun p t a c => ⟨fun h => absurd h (hnone p t a c), fun h => absurd h (Set.notMem_empty t)⟩,
    fun p t a c h => absurd h (hnone p t a c)⟩

end Runs

/-! ### One artifact in two collections -/

def plainAnalysis : Analysis where
  tokenize text := if text = "" then [] else [text]
  stem_ne {text s} h := by
    split_ifs at h with he
    · cases h
    · rwa [List.mem_singleton.mp h]
  hmacHex p m := "h" ++ p ++ "/" ++ m
  hex_ne p m := by simp [String.ext_iff, String.toList_append]

def legacyIndex : PostingStore where
  entry := ∅
  posting := (∅ : Table (String × String) _).insert ("p", "hp/t:figures") (some [⟨"a", "c1", "title"⟩])
  manifest := (∅ : Table (String × String) _).insert ("p", "a") (some ["hp/t:figures"])

def legacyIndexed : Indexed := fun p a c => {t | p = "p" ∧ a = "a" ∧ c = "c1" ∧ t = "hp/t:figures"}

theorem legacyIndex_says : Says legacyIndex legacyIndexed := by
  have hslots : ∀ p t a c, Holds legacyIndex p t a c ↔ t ∈ legacyIndexed p a c := by
    intro p t a c
    unfold Holds legacyIndex legacyIndexed
    dsimp only
    simp only [Table.lookup_insert_of, AList.lookup_empty, Set.mem_ofPred_eq]
    constructor
    · rintro (h | ⟨legacy, h, e, he, -, rfl, rfl⟩)
      · cases h
      · split_ifs at h with hk
        cases h
        rw [List.mem_singleton.mp he]
        exact ⟨(Prod.mk.inj hk).1, rfl, rfl, (Prod.mk.inj hk).2⟩
    · rintro ⟨rfl, rfl, rfl, rfl⟩
      exact .inr ⟨[⟨"a", "c1", "title"⟩], if_pos rfl, _, List.mem_cons_self, by decide, rfl, rfl⟩
  refine ⟨hslots, ?_⟩
  intro p t a c h
  obtain ⟨rfl, rfl, rfl, rfl⟩ := (hslots p t a c).mp h
  exact ⟨_, rfl, List.mem_cons_self⟩

theorem index_says_last_iff_legacy :
    (∀ done, done <+: [.index "p" "c1" "a" [("title", "minutes")] true, .remove "p" "a" true] →
        Says (runAll plainAnalysis legacyIndex done) (recordAll plainAnalysis legacyIndex legacyIndexed done)) ↔
      CoverAll plainAnalysis legacyIndex legacyIndexed
        [.index "p" "c1" "a" [("title", "minutes")] true, .remove "p" "a" true] :=
  index_says_last_iff plainAnalysis legacyIndex legacyIndexed _ legacyIndex_says

def twoCollections : List Call :=
  [.index "p" "c1" "a" [("title", "figures")] true, .index "p" "c2" "a" [("title", "minutes")] true,
   .remove "p" "a" true]

theorem removed_note_stays :
    ¬ ∀ (A : Analysis) (st : PostingStore) (last : Indexed) (calls : List Call), Says st last →
        ∀ done, done <+: calls → Says (runAll A st done) (recordAll A st last done) := by
  intro h
  have hs := h plainAnalysis PostingStore.empty _ twoCollections says_empty twoCollections List.prefix_rfl
  have hheld : Holds (runAll plainAnalysis PostingStore.empty twoCollections) "p" "hp/t:figures" "a" "c1" :=
    .inl (by decide +kernel)
  have hgone : (runAll plainAnalysis PostingStore.empty twoCollections).manifest.lookup ("p", "a") = none := by
    decide +kernel
  obtain ⟨toks, hm, -⟩ := hs.manifest _ _ _ _ hheld
  rw [hgone] at hm
  cases hm

end Lexical

end Mantle
