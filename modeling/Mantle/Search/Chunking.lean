import Mathlib.Data.List.Chain
import Mathlib.Data.List.Nodup
import Mathlib.Tactic.Common

/-!
# Mantle.Search.Chunking — windows of words over a text (`search/ingest/chunking.py`)

The windows stand a stride apart until a stride passes the last word.  A window that begins after one that has already
reached the last word lies inside it.
-/

namespace Mantle.Chunking

-- a text is its characters; `isSpace` tells those that `\s` matches and `strip` removes
variable {α : Type} (isSpace : α → Bool)

def tokensToWords (tokens : ℤ) : ℤ := tokens * 3 / 4

/-- The spans that `\S+` finds: `i` is the position, `word` where the word it is in began. -/
def wordSpans (i : ℕ) (word : Option ℕ) : List α → List (ℕ × ℕ)
  | [] => (word.map fun s => (s, i)).toList
  | c :: rest =>
    if isSpace c then (word.map fun s => (s, i)).toList ++ wordSpans (i + 1) none rest
    else wordSpans (i + 1) (some (word.getD i)) rest

def countWords (text : List α) : ℕ := (wordSpans isSpace 0 none text).length

structure Chunk (α : Type) where
  chunkId : ℕ
  text : List α
  startWord : ℕ
  endWord : ℕ
deriving DecidableEq

def slice (text : List α) (spans : List (ℕ × ℕ)) (first last : ℕ) : List α :=
  let a := (spans.getD first (0, 0)).1
  (text.drop a).take ((spans.getD (last - 1) (0, 0)).2 - a)

def piece (text : List α) (spans : List (ℕ × ℕ)) (size id start : ℕ) : Chunk α :=
  let last := min (start + size) spans.length
  ⟨id, slice text spans start last, start, last⟩

/-- The loop; `none` if it is not over after so many rounds. -/
def chunkLoop (text : List α) (spans : List (ℕ × ℕ)) (size step : ℕ) : ℕ → ℕ → ℕ → Option (List (Chunk α))
  | fuel, id, start =>
    if start < spans.length then
      match fuel with
      | 0 => none
      | fuel + 1 => (chunkLoop text spans size step fuel (id + 1) (start + step)).map (piece text spans size id start :: ·)
    else some []

def sizeWords (chunkSize : ℤ) : ℕ := (max 1 (tokensToWords chunkSize)).toNat

def stride (size : ℕ) (overlap : ℤ) : ℕ :=
  let step := (size : ℤ) - max 0 (tokensToWords overlap)
  if step ≤ 0 then size else step.toNat

def chunkText (text : List α) (chunkSize overlap : ℤ) : Option (List (Chunk α)) :=
  if text.all isSpace then some []
  else
    let size := sizeWords chunkSize
    let spans := wordSpans isSpace 0 none text
    if spans.length ≤ size then some [⟨0, text, 0, spans.length⟩]
    else chunkLoop text spans size (stride size overlap) spans.length 0 0

def shouldChunkContent (content : List α) (chunkSize : ℤ) : Bool :=
  if content.all isSpace then false else decide (sizeWords chunkSize < countWords isSpace content)

theorem sizeWords_pos (chunkSize : ℤ) : 0 < sizeWords chunkSize := by
  unfold sizeWords
  omega

theorem stride_bounds {size : ℕ} (h : 0 < size) (overlap : ℤ) : 0 < stride size overlap ∧ stride size overlap ≤ size := by
  unfold stride
  dsimp only
  split <;> omega

theorem wordSpans_blank : ∀ (text : List α) (i : ℕ), text.all isSpace = true → wordSpans isSpace i none text = []
  | [], _, _ => rfl
  | c :: rest, i, h => by
    rw [List.all_cons, Bool.and_eq_true] at h
    rw [wordSpans, if_pos h.1, wordSpans_blank rest _ h.2]
    rfl

/-! ### The windows -/

variable {text : List α} {spans : List (ℕ × ℕ)} {size step : ℕ}

/-- The windows from a word on, a stride apart. -/
inductive Laid (text : List α) (spans : List (ℕ × ℕ)) (size step : ℕ) : ℕ → List (Chunk α) → Prop
  | done {start : ℕ} : spans.length ≤ start → Laid text spans size step start []
  | next {start id : ℕ} {chunks : List (Chunk α)} : start < spans.length →
      Laid text spans size step (start + step) chunks →
      Laid text spans size step start (piece text spans size id start :: chunks)

theorem chunkLoop_laid (hstep : 0 < step) : ∀ (fuel id start : ℕ), spans.length ≤ start + fuel →
    ∃ chunks, chunkLoop text spans size step fuel id start = some chunks ∧ Laid text spans size step start chunks
  | fuel, id, start, h => by
    unfold chunkLoop
    split
    · next hlt =>
      cases fuel with
      | zero => omega
      | succ fuel =>
        obtain ⟨chunks, hrun, hlaid⟩ := chunkLoop_laid hstep fuel (id + 1) (start + step) (by omega)
        exact ⟨_, congrArg (Option.map _) hrun, .next hlt hlaid⟩
    · next hge => exact ⟨[], rfl, .done (Nat.le_of_not_lt hge)⟩

theorem Laid.mem {start : ℕ} {chunks : List (Chunk α)} (h : Laid text spans size step start chunks) :
    ∀ c ∈ chunks, start ≤ c.startWord ∧ c.startWord < spans.length ∧ ∃ id, c = piece text spans size id c.startWord := by
  induction h with
  | done => nofun
  | @next start id chunks hlt _ ih =>
    rintro c (_ | ⟨_, hc⟩)
    · exact ⟨le_rfl, hlt, id, rfl⟩
    · exact ⟨(Nat.le_add_right ..).trans (ih c hc).1, (ih c hc).2⟩

theorem Laid.increasing (hstep : 0 < step) {start : ℕ} {chunks : List (Chunk α)}
    (h : Laid text spans size step start chunks) : chunks.Pairwise fun c d => c.startWord < d.startWord := by
  induction h with
  | done => exact .nil
  | @next start id chunks hlt hrest ih =>
    exact .cons (fun c hc => (Nat.lt_add_of_pos_right hstep).trans_le (hrest.mem c hc).1) ih

theorem Laid.chained (hstep : step ≤ size) {start : ℕ} {chunks : List (Chunk α)}
    (h : Laid text spans size step start chunks) : chunks.IsChain fun c d => d.startWord ≤ c.endWord := by
  induction h with
  | done => exact .nil
  | @next start id chunks hlt hrest ih =>
    refine List.isChain_cons.mpr ⟨fun d hd => ?_, ih⟩
    cases hrest with
    | done => cases hd
    | next hlt' hrest' =>
      cases hd
      exact le_min (by change start + step ≤ start + size; omega) hlt'.le

theorem Laid.covers (hstep : step ≤ size) {start : ℕ} {chunks : List (Chunk α)}
    (h : Laid text spans size step start chunks) {w : ℕ} (hw : start ≤ w) (hlt : w < spans.length) :
    ∃ c ∈ chunks, c.startWord ≤ w ∧ w < c.endWord := by
  induction h with
  | done hge => omega
  | @next start id chunks _ hrest ih =>
    by_cases hnext : w < start + step
    · exact ⟨_, List.mem_cons_self .., hw, lt_min (by omega) hlt⟩
    · obtain ⟨c, hc, hin⟩ := ih (by omega)
      exact ⟨c, List.mem_cons_of_mem _ hc, hin⟩

theorem Laid.length_le {start : ℕ} {chunks : List (Chunk α)} (h : Laid text spans size step start chunks)
    (hlt : start + step < spans.length) : 1 < chunks.length := by
  cases h with
  | done hge => omega
  | next _ hrest =>
    cases hrest with
    | done hge => omega
    | next => exact Nat.lt_add_of_pos_left (Nat.succ_pos _)

/-! ### What is yielded -/

/-- The chunks cover the words without a gap, in order; one lies inside another exactly when the other began before it
and has already reached the last word. -/
structure Windows (text : List α) (chunkSize : ℤ) (chunks : List (Chunk α)) : Prop where
  covered : ∀ w, w < countWords isSpace text ↔ ∃ c ∈ chunks, c.startWord ≤ w ∧ w < c.endWord
  increasing : chunks.Pairwise fun c d => c.startWord < d.startWord
  chained : chunks.IsChain fun c d => d.startWord ≤ c.endWord
  excerpt : ∀ c ∈ chunks, c.text =
    if chunks.length = 1 then text else slice text (wordSpans isSpace 0 none text) c.startWord c.endWord
  several : 1 < chunks.length ↔ shouldChunkContent isSpace text chunkSize = true
  inside : ∀ c ∈ chunks, ∀ d ∈ chunks, c ≠ d → (d.startWord ≤ c.startWord ∧ c.endWord ≤ d.endWord ↔
    d.startWord < c.startWord ∧ d.endWord = countWords isSpace text)

theorem chunkText_windows (text : List α) (chunkSize overlap : ℤ) :
    ∃ chunks, chunkText isSpace text chunkSize overlap = some chunks ∧ Windows isSpace text chunkSize chunks := by
  unfold chunkText
  by_cases hblank : text.all isSpace = true
  · have hcount : countWords isSpace text = 0 := congrArg List.length (wordSpans_blank isSpace text 0 hblank)
    exact ⟨[], if_pos hblank, by simp [hcount], .nil, .nil, nofun, by simp [shouldChunkContent, hblank], nofun⟩
  · have hshould : shouldChunkContent isSpace text chunkSize = true ↔ sizeWords chunkSize < countWords isSpace text := by
      rw [shouldChunkContent, if_neg hblank, decide_eq_true_iff]
    rw [if_neg hblank]
    dsimp only
    split
    · next hle =>
      refine ⟨_, rfl, fun w => ?_, List.pairwise_singleton .., List.isChain_singleton .., ?_, ?_, ?_⟩
      · simp [countWords]
      · rintro c (_ | ⟨_, ⟨⟩⟩)
        rfl
      · exact ⟨fun h => absurd h (lt_irrefl 1), fun h => absurd (hshould.mp h) (Nat.not_lt.mpr hle)⟩
      · rintro c (_ | ⟨_, ⟨⟩⟩) d (_ | ⟨_, ⟨⟩⟩) hne
        exact absurd rfl hne
    · next hgt =>
      have hmore := Nat.lt_of_not_le hgt
      obtain ⟨hstep, hle⟩ := stride_bounds (sizeWords_pos chunkSize) overlap
      obtain ⟨chunks, hrun, hlaid⟩ : ∃ chunks, chunkLoop text _ (sizeWords chunkSize) _ _ 0 0 = some chunks ∧ Laid .. :=
        chunkLoop_laid hstep (wordSpans isSpace 0 none text).length 0 0 (Nat.le_add_left ..)
      have hlen := hlaid.length_le (by omega)
      have hend : ∀ c ∈ chunks, c.endWord = min (c.startWord + sizeWords chunkSize) (countWords isSpace text) :=
        fun c hc => by
          obtain ⟨-, -, id, hid⟩ := hlaid.mem c hc
          exact congrArg Chunk.endWord hid
      refine ⟨chunks, hrun, fun w => ⟨hlaid.covers hle (Nat.zero_le w), ?_⟩, hlaid.increasing hstep,
        hlaid.chained hle, fun c hc => ?_, ⟨fun _ => hshould.mpr hmore, fun _ => hlen⟩, fun c hc d hd hne => ?_⟩
      · rintro ⟨c, hc, -, hw⟩
        rw [hend c hc] at hw
        exact hw.trans_le (min_le_right ..)
      · rw [if_neg hlen.ne']
        obtain ⟨-, -, id, hid⟩ := hlaid.mem c hc
        rw [hid]
        rfl
      · have hstart : d.startWord ≠ c.startWord := fun heq => by
          have hnodup : (chunks.map Chunk.startWord).Nodup :=
            List.pairwise_map.mpr ((hlaid.increasing hstep).imp fun h => h.ne)
          exact hne (List.inj_on_of_nodup_map hnodup hc hd heq.symm)
        obtain ⟨-, hclt, -⟩ := hlaid.mem c hc
        rw [hend c hc, hend d hd]
        change c.startWord < countWords isSpace text at hclt
        omega

theorem chunkText_yields_inside : ∃ chunks, chunkText (· == ' ') "a b c d e f".toList 6 3 = some chunks ∧
    ∃ c ∈ chunks, ∃ d ∈ chunks, c ≠ d ∧ d.startWord ≤ c.startWord ∧ c.endWord ≤ d.endWord :=
  ⟨_, rfl, ⟨2, "e f".toList, 4, 6⟩, by decide, ⟨1, "c d e f".toList, 2, 6⟩, by decide, by decide⟩

end Mantle.Chunking
