import Mantle.Py.JsonNormal
import Mantle.Py.JsonRoundTrip

/-!
# Mantle.Py.JsonRead — what `json.loads` returns

A value the reader returns is in normal form, and its text reads back as the value.
-/

namespace Mantle.Json

variable {float : String → Flt}

/-- A JSON value: it has a text, a round trip leaves it as it is, and its floats read back. -/
structure IsJson (float : String → Flt) (v : Val) : Prop where
  normal : v.norm = v
  readable : Readable float v
  writes : ∃ t, v.dumps .plain = .ok t

theorem isJson_str (s : String) : IsJson float (.str s) := ⟨rfl, trivial, _, rfl⟩

theorem isJson_bool (b : Bool) : IsJson float (.bool b) := ⟨rfl, trivial, _, rfl⟩

theorem isJson_int (n : ℤ) : IsJson float (.int n) := ⟨rfl, trivial, _, rfl⟩

theorem isJson_none : IsJson float .none := ⟨rfl, trivial, _, rfl⟩

theorem isJson_float {f : Flt} (h : ReadsFloat float f) : IsJson float (.float f) := ⟨rfl, h, _, rfl⟩

theorem dumpsList_writes {st : JsonStyle} : ∀ {xs : List Val}, (∀ v ∈ xs, ∃ t, v.dumps st = .ok t) →
    ∃ ys, Val.dumpsList st xs = .ok ys
  | [], _ => ⟨[], rfl⟩
  | x :: xs, h => by
    obtain ⟨t, ht⟩ := h x List.mem_cons_self
    obtain ⟨ys, hys⟩ := dumpsList_writes fun v hv => h v (List.mem_cons_of_mem _ hv)
    refine ⟨t :: ys, ?_⟩
    rw [Val.dumpsList, ht, hys]
    rfl

theorem dumpsItems_writes {st : JsonStyle} : ∀ {items : List (Key × Val)}, (∀ e ∈ items, ∃ t, e.2.dumps st = .ok t) →
    ∃ es, Val.dumpsItems st items = .ok es ∧ es.map Prod.fst = items.map Prod.fst
  | [], _ => ⟨[], rfl, rfl⟩
  | (k, v) :: items, h => by
    obtain ⟨t, ht⟩ := h (k, v) List.mem_cons_self
    obtain ⟨es, hes, hkeys⟩ := dumpsItems_writes fun e he => h e (List.mem_cons_of_mem _ he)
    refine ⟨(k, t) :: es, ?_, congrArg (k :: ·) hkeys⟩
    rw [Val.dumpsItems, ht, hes]
    rfl

theorem readableList_iff {xs : List Val} : ReadableList float xs ↔ ∀ v ∈ xs, Readable float v := by
  induction xs with
  | nil => simp [ReadableList]
  | cons x xs ih => rw [ReadableList, ih, List.forall_mem_cons]

theorem readableItems_iff {items : List (Key × Val)} : ReadableItems float items ↔ ∀ e ∈ items, Readable float e.2 := by
  induction items with
  | nil => simp [ReadableItems]
  | cons e items ih => rw [ReadableItems, ih, List.forall_mem_cons]

theorem isJson_list {xs : List Val} (h : ∀ v ∈ xs, IsJson float v) : IsJson float (.list xs) where
  normal := by
    have hn : ∀ ys : List Val, (∀ v ∈ ys, v.norm = v) → Val.normList ys = ys := by
      intro ys hys
      induction ys with
      | nil => rfl
      | cons y ys ih =>
        rw [Val.normList, hys y (by simp), ih fun v hv => hys v (by simp [hv])]
    rw [Val.norm, hn xs fun v hv => (h v hv).normal]
  readable := readableList_iff.mpr fun v hv => (h v hv).readable
  writes := by
    obtain ⟨ys, hys⟩ := dumpsList_writes fun v hv => (h v hv).writes
    rw [Val.dumps, hys]
    exact ⟨_, rfl⟩

theorem isJson_dict {items : List (Key × Val)} (hn : NormalItems items) (hj : ∀ e ∈ items, IsJson float e.2) :
    IsJson float (.dict items) where
  normal := by
    rw [Val.norm, hn.normItems, foldl_setItem_nodup _ [] (by simpa using hn.nodup), List.nil_append]
  readable := readableItems_iff.mpr fun e he => (hj e he).readable
  writes := by
    obtain ⟨es, hes, -⟩ := dumpsItems_writes fun e he => (hj e he).writes
    rw [Val.dumps, hes]
    exact ⟨_, rfl⟩

theorem writes_of_dumpsItems : ∀ {items : List (Key × Val)} {es : List (Key × String)},
    Val.dumpsItems .plain items = .ok es → ∀ e ∈ items, ∃ t, e.2.dumps .plain = .ok t
  | (k, v) :: items, es, h, e, he => by
    rw [Val.dumpsItems] at h
    obtain ⟨t, ht, h'⟩ := bind_ok h
    obtain ⟨es', hes', -⟩ := map_ok h'
    rcases List.mem_cons.mp he with rfl | he
    · exact ⟨t, ht⟩
    · exact writes_of_dumpsItems hes' e he

theorem IsJson.item {items : List (Key × Val)} (h : IsJson float (.dict items)) (hn : NormalItems items) :
    ∀ e ∈ items, IsJson float e.2 := by
  intro e he
  obtain ⟨t, ht⟩ := h.writes
  rw [Val.dumps] at ht
  obtain ⟨es, hes, -⟩ := bind_ok ht
  exact ⟨hn.val e he, readableItems_iff.mp h.readable e he, writes_of_dumpsItems hes e he⟩

theorem IsJson.items {items : List (Key × Val)} (h : IsJson float (.dict items)) : NormalItems items := by
  have hn := h.normal
  rw [Val.norm, Val.dict.injEq] at hn
  rw [← hn]
  exact normalItems_foldl (Val.normItems items) [] ⟨by simp, by simp, by simp⟩
    (Val.normItems_normal items).1 (Val.normItems_normal items).2

theorem number_json (hf : ∀ t, ReadsFloat float (float t)) {cs rest : List Char} {v : Val}
    (h : number float cs = some (v, rest)) : IsJson float v := by
  unfold number at h
  dsimp only at h
  split at h
  · cases h
  · split at h
    · simp only [Option.some.injEq, Prod.mk.injEq] at h
      rw [← h.1]
      exact isJson_int _
    · cases h
      exact isJson_float (hf _)

theorem literal_json (hf : ∀ t, ReadsFloat float (float t)) {cs rest : List Char} {v : Val}
    (h : literal float cs = some (v, rest)) : IsJson float v := by
  obtain ⟨l, hl, heq⟩ := List.exists_of_findSome?_eq_some h
  split_ifs at heq
  cases heq
  simp only [literals, List.mem_cons, List.not_mem_nil, or_false] at hl
  rcases hl with rfl | rfl | rfl | rfl | rfl | rfl
  · exact isJson_none
  · exact isJson_bool _
  · exact isJson_bool _
  · exact isJson_float (hf _)
  · exact isJson_float (hf _)
  · exact isJson_float (hf _)

structure LevelJson (float : String → Flt) (fuel : ℕ) : Prop where
  value : ∀ {cs rest : List Char} {v : Val}, value float fuel cs = some (v, rest) → IsJson float v
  items : ∀ {acc xs : List Val} {cs rest : List Char}, (∀ v ∈ acc, IsJson float v) →
    items float fuel acc cs = some (xs, rest) → ∀ v ∈ xs, IsJson float v
  members : ∀ {acc ms : List (Key × Val)} {cs rest : List Char}, NormalItems acc →
    (∀ e ∈ acc, IsJson float e.2) → members float fuel acc cs = some (ms, rest) →
    NormalItems ms ∧ ∀ e ∈ ms, IsJson float e.2

theorem levelJson_value (hf : ∀ t, ReadsFloat float (float t)) {fuel : ℕ} (ih : LevelJson float fuel)
    {cs rest : List Char} {v : Val} (h : value float (fuel + 1) cs = some (v, rest)) : IsJson float v := by
  unfold value at h
  split at h
  · obtain ⟨r, -, heq⟩ := Option.map_eq_some_iff.mp h
    cases heq
    exact isJson_str _
  · split at h
    · cases h
      exact isJson_list (by simp)
    · obtain ⟨r, hr, heq⟩ := Option.map_eq_some_iff.mp h
      cases heq
      exact isJson_list (ih.items (by simp) hr)
  · split at h
    · cases h
      exact isJson_dict ⟨by simp, by simp, by simp⟩ (by simp)
    · obtain ⟨r, hr, heq⟩ := Option.map_eq_some_iff.mp h
      cases heq
      obtain ⟨hn, hread⟩ := ih.members ⟨by simp, by simp, by simp⟩ (by simp) hr
      exact isJson_dict hn hread
  · cases hl : literal float cs with
    | none =>
      rw [hl] at h
      exact number_json hf h
    | some r =>
      rw [hl] at h
      cases h
      exact literal_json hf hl

theorem levelJson_items {fuel : ℕ} (ih : LevelJson float fuel) {acc xs : List Val} {cs rest : List Char}
    (hacc : ∀ v ∈ acc, IsJson float v) (h : items float (fuel + 1) acc cs = some (xs, rest)) :
    ∀ v ∈ xs, IsJson float v := by
  unfold items at h
  split at h
  · cases h
  · rename_i v rest' hv
    have hacc' : ∀ w ∈ acc ++ [v], IsJson float w := by
      intro w hw
      rcases List.mem_append.mp hw with hw | hw
      · exact hacc w hw
      · rw [List.mem_singleton.mp hw]
        exact ih.value hv
    split at h
    · cases h
      exact hacc'
    · exact ih.items hacc' h
    · cases h

theorem levelJson_members {fuel : ℕ} (ih : LevelJson float fuel) {acc ms : List (Key × Val)}
    {cs rest : List Char} (hn : NormalItems acc) (hr : ∀ e ∈ acc, IsJson float e.2)
    (h : members float (fuel + 1) acc cs = some (ms, rest)) : NormalItems ms ∧ ∀ e ∈ ms, IsJson float e.2 := by
  unfold members at h
  split at h
  · split at h
    · cases h
    · rename_i k rest' hk
      split at h
      · split at h
        · cases h
        · rename_i v rest'' hv
          have hj := ih.value hv
          have hn' := hn.setItem k hj.normal
          have hr' : ∀ e ∈ setItem acc (.str k) v, IsJson float e.2 := by
            intro e he
            rcases mem_setItem he with rfl | he
            · exact hj
            · exact hr e he
          split at h
          · cases h
            exact ⟨hn', hr'⟩
          · exact ih.members hn' hr' h
          · cases h
      · cases h
  · cases h

theorem levelJson (hf : ∀ t, ReadsFloat float (float t)) : ∀ fuel, LevelJson float fuel
  | 0 => by
    refine ⟨?_, ?_, ?_⟩
    · intro _ _ _ h
      simp [value] at h
    · intro _ _ _ _ _ h
      simp [items] at h
    · intro _ _ _ _ _ _ h
      simp [members] at h
  | fuel + 1 =>
    ⟨fun h => levelJson_value hf (levelJson hf fuel) h, fun ha h => levelJson_items (levelJson hf fuel) ha h,
      fun hn hr h => levelJson_members (levelJson hf fuel) hn hr h⟩

theorem loads_json (hf : ∀ t, ReadsFloat float (float t)) {s : String} {v : Val} (h : loads float s = some v) :
    IsJson float v := by
  unfold loads at h
  dsimp only at h
  split_ifs at h
  split at h
  · rename_i w rest hv
    split_ifs at h
    cases h
    exact (levelJson hf _).value hv
  · cases h

end Mantle.Json
