import Mantle.Py.Json

/-!
# Mantle.Py.JsonNormal — what is read back stays as it is

`Val.norm` is what a JSON round trip makes of a value.  A second round trip changes nothing, and no round
trip changes whether a value is true.
-/

namespace Mantle

/-- A dictionary as the reader builds it: distinct text keys, values that stay as they are. -/
structure NormalItems (items : List (Key × Val)) : Prop where
  str : ∀ e ∈ items, ∃ s, e.1 = .str s
  val : ∀ e ∈ items, e.2.norm = e.2
  nodup : (items.map Prod.fst).Nodup

theorem mem_setItem {items : List (Key × Val)} {k : Key} {v : Val} {e : Key × Val}
    (h : e ∈ setItem items k v) : e = (k, v) ∨ e ∈ items := by
  induction items with
  | nil => exact .inl (List.mem_singleton.mp h)
  | cons x xs ih =>
    obtain ⟨k', v'⟩ := x
    unfold setItem at h
    split_ifs at h with hk
    · rcases List.mem_cons.mp h with rfl | h
      · exact .inl rfl
      · exact .inr (List.mem_cons_of_mem _ h)
    · rcases List.mem_cons.mp h with rfl | h
      · exact .inr (by simp)
      · rcases ih h with h' | h'
        · exact .inl h'
        · exact .inr (List.mem_cons_of_mem _ h')

theorem setItem_keys (items : List (Key × Val)) (k : Key) (v : Val) :
    (setItem items k v).map Prod.fst =
      if k ∈ items.map Prod.fst then items.map Prod.fst else items.map Prod.fst ++ [k] := by
  induction items with
  | nil => rfl
  | cons x xs ih =>
    obtain ⟨k', v'⟩ := x
    unfold setItem
    by_cases hk : k' = k
    · simp [hk]
    · have hk' : ¬k = k' := fun h => hk h.symm
      rw [if_neg hk, List.map_cons, ih]
      by_cases hm : k ∈ xs.map Prod.fst
      · simp [hm, hk']
      · simp [hm, hk']

theorem NormalItems.setItem {items : List (Key × Val)} (h : NormalItems items) (s : String) {v : Val}
    (hv : v.norm = v) : NormalItems (Mantle.setItem items (.str s) v) where
  str := by
    intro e he
    rcases mem_setItem he with rfl | he
    · exact ⟨s, rfl⟩
    · exact h.str e he
  val := by
    intro e he
    rcases mem_setItem he with rfl | he
    · exact hv
    · exact h.val e he
  nodup := by
    rw [setItem_keys]
    split_ifs with hm
    · exact h.nodup
    · rw [List.nodup_append]
      refine ⟨h.nodup, by simp, ?_⟩
      intro a ha b hb
      rw [List.mem_singleton.mp hb]
      rintro rfl
      exact hm ha

theorem normalItems_foldl : ∀ (xs acc : List (Key × Val)), NormalItems acc →
    (∀ e ∈ xs, ∃ s, e.1 = .str s) → (∀ e ∈ xs, e.2.norm = e.2) →
    NormalItems (xs.foldl (fun d e => setItem d e.1 e.2) acc)
  | [], _, h, _, _ => h
  | x :: xs, acc, h, hs, hv => by
    obtain ⟨s, hx⟩ := hs x (by simp)
    rw [List.foldl_cons, hx]
    exact normalItems_foldl xs _ (h.setItem s (hv x (by simp))) (fun e he => hs e (by simp [he]))
      fun e he => hv e (by simp [he])

theorem setItem_new {items : List (Key × Val)} {k : Key} {v : Val} (h : k ∉ items.map Prod.fst) :
    setItem items k v = items ++ [(k, v)] := by
  induction items with
  | nil => rfl
  | cons x xs ih =>
    obtain ⟨k', v'⟩ := x
    rw [List.map_cons, List.mem_cons, not_or] at h
    unfold setItem
    rw [if_neg (fun he => h.1 he.symm), ih h.2]
    rfl

theorem foldl_setItem_nodup : ∀ (xs acc : List (Key × Val)),
    ((acc ++ xs).map Prod.fst).Nodup → xs.foldl (fun d e => setItem d e.1 e.2) acc = acc ++ xs
  | [], acc, _ => by simp
  | x :: xs, acc, h => by
    have hx : x.1 ∉ acc.map Prod.fst := by
      rw [List.map_append, List.map_cons, List.nodup_append] at h
      intro hm
      exact h.2.2 _ hm _ (by simp) rfl
    rw [List.foldl_cons, setItem_new hx, foldl_setItem_nodup xs]
    · simp
    · simpa using h

theorem NormalItems.normItems : ∀ {items : List (Key × Val)}, NormalItems items →
    Val.normItems items = items
  | [], _ => by rw [Val.normItems]
  | (k, v) :: rest, h => by
    obtain ⟨s, hs⟩ := h.str (k, v) (by simp)
    have hv := h.val (k, v) (by simp)
    have hn := h.nodup
    rw [List.map_cons, List.nodup_cons] at hn
    have ih := @NormalItems.normItems rest
      ⟨fun e he => h.str e (by simp [he]), fun e he => h.val e (by simp [he]), hn.2⟩
    simp only at hs hv
    rw [Val.normItems, ih, hv, hs]
    rfl

mutual

theorem Val.norm_norm : ∀ v : Val, v.norm.norm = v.norm
  | .none => rfl
  | .bool _ => rfl
  | .int _ => rfl
  | .float _ => rfl
  | .str _ => rfl
  | .bytes _ => rfl
  | .list xs => by
    rw [Val.norm, Val.norm, Val.normList_normList xs]
  | .tuple xs => by
    rw [Val.norm, Val.norm, Val.normList_normList xs]
  | .dict items => by
    have h := normalItems_foldl (Val.normItems items) [] ⟨by simp, by simp, by simp⟩
      (Val.normItems_normal items).1 (Val.normItems_normal items).2
    rw [Val.norm, Val.norm, h.normItems, foldl_setItem_nodup _ [] (by simpa using h.nodup)]
    rfl

theorem Val.normList_normList : ∀ xs : List Val, Val.normList (Val.normList xs) = Val.normList xs
  | [] => by simp [Val.normList]
  | v :: vs => by
    simp only [Val.normList]
    rw [Val.norm_norm v, Val.normList_normList vs]

theorem Val.normItems_normal : ∀ items : List (Key × Val),
    (∀ e ∈ Val.normItems items, ∃ s, e.1 = .str s) ∧ ∀ e ∈ Val.normItems items, e.2.norm = e.2
  | [] => by simp [Val.normItems]
  | (k, v) :: rest => by
    have ih := Val.normItems_normal rest
    have hv := Val.norm_norm v
    rw [Val.normItems]
    constructor
    · intro e he
      rcases List.mem_cons.mp he with rfl | he
      · exact ⟨k.json, rfl⟩
      · exact ih.1 e he
    · intro e he
      rcases List.mem_cons.mp he with rfl | he
      · exact hv
      · exact ih.2 e he

end

theorem Doc.norm_norm (d : Doc) : d.norm.norm = d.norm := by
  unfold Doc.norm
  rw [List.map_map]
  refine List.map_congr_left ?_
  intro e _
  simp [Val.norm_norm]

theorem Doc.norm_set (d : Doc) (k : String) (v : Val) : (d.set k v).norm = d.norm.set k v.norm := by
  induction d with
  | nil => rfl
  | cons e d ih =>
    obtain ⟨k', v'⟩ := e
    by_cases h : k' = k
    · simp [Doc.set, Doc.norm, h]
    · simp only [Doc.set, Doc.norm, h, if_false, List.map_cons] at ih ⊢
      rw [ih]

theorem Val.truthy_norm (v : Val) : v.norm.truthy = v.truthy := by
  cases v with
  | list xs => cases xs <;> simp [Val.norm, Val.normList, Val.truthy]
  | tuple xs => cases xs <;> simp [Val.norm, Val.normList, Val.truthy]
  | dict items =>
    cases items with
    | nil => rfl
    | cons e rest =>
      obtain ⟨k, v⟩ := e
      rw [Val.norm, Val.normItems, List.foldl_cons]
      have hne : ∀ (xs acc : List (Key × Val)), acc ≠ [] →
          xs.foldl (fun d e => setItem d e.1 e.2) acc ≠ [] := by
        intro xs
        induction xs with
        | nil => exact fun acc h => h
        | cons x xs ih =>
          intro acc h
          refine ih _ ?_
          cases acc with
          | nil => exact absurd rfl h
          | cons y ys =>
            obtain ⟨k', v'⟩ := y
            change setItem ((k', v') :: ys) x.1 x.2 ≠ []
            rw [setItem]
            split_ifs <;> simp
      have := hne (Val.normItems rest) (setItem [] (.str k.json) v.norm) (by simp [setItem])
      simp [Val.truthy, this]
  | _ => rfl

end Mantle
