import Mantle.Py.JsonRead

/-!
# Mantle.Py.Doc — dictionaries by what they hold

What a dictionary holds under a key after an operation, and that the operations keep a JSON dictionary one.
-/

namespace Mantle

variable {k : String} {p : String → Bool}

theorem Doc.find?_of_notMem : ∀ {d : Doc}, k ∉ d.map Prod.fst → d.find? k = none
  | [], _ => rfl
  | (k', v) :: d, h => by
    rw [List.map_cons, List.mem_cons, not_or] at h
    rw [Doc.find?, if_neg (fun he => h.1 he.symm)]
    exact Doc.find?_of_notMem h.2

theorem Doc.find?_update : ∀ {e : Doc}, Json.KeysNodup e → ∀ (d : Doc) (k : String),
    (d.update e).find? k = (e.find? k).or (d.find? k)
  | [], _, d, k => rfl
  | (k', v) :: e, h, d, k => by
    unfold Json.KeysNodup at h
    rw [List.map_cons, List.nodup_cons] at h
    have ih := Doc.find?_update h.2 (d.set k' v) k
    have hstep : Doc.update d ((k', v) :: e) = Doc.update (d.set k' v) e := rfl
    rw [hstep, ih, Doc.find?_set]
    by_cases hk : k' = k
    · subst hk
      have hnone : Doc.find? e k' = none := Doc.find?_of_notMem h.1
      simp [Doc.find?, hnone]
    · have hk' : ¬k = k' := fun he => hk he.symm
      simp [Doc.find?, hk, hk']

theorem Doc.keysNodup_update {d : Doc} (hd : Json.KeysNodup d) :
    ∀ e : Doc, Json.KeysNodup (d.update e)
  | [] => hd
  | x :: e => Doc.keysNodup_update (Json.KeysNodup.set hd x.1 x.2) e

theorem Doc.find?_without (d : Doc) (hk : p k = false) :
    (d.without p).find? k = d.find? k := by
  unfold Doc.without
  induction d with
  | nil => rfl
  | cons e d ih =>
    obtain ⟨k', v⟩ := e
    by_cases hp : p k' = true
    · have hne : k' ≠ k := by
        rintro rfl
        rw [hk] at hp
        cases hp
      simp [hp, Doc.find?, hne, ih]
    · simp only [Bool.not_eq_true] at hp
      simp only [List.filter_cons, hp, Bool.not_false, if_true, Doc.find?, ih]

theorem Doc.get_without (d : Doc) (hk : p k = false) :
    (d.without p).get k = d.get k := by
  unfold Doc.get
  rw [Doc.find?_without d hk]

theorem Doc.find?_without_of (d : Doc) (hk : p k = true) :
    (d.without p).find? k = none := by
  refine Doc.find?_of_notMem fun hmem => ?_
  obtain ⟨e, he, rfl⟩ := List.mem_map.mp hmem
  have := (List.mem_filter.mp he).2
  rw [hk] at this
  cases this

theorem Doc.find?_without_list (d : Doc) (ks : List String) (k : String) :
    (d.without (· ∈ ks)).find? k = if k ∈ ks then none else d.find? k := by
  split_ifs with hk
  · exact Doc.find?_without_of d (decide_eq_true hk)
  · exact Doc.find?_without d (decide_eq_false hk)

theorem Doc.mem_of_find? {v : Val} : ∀ {d : Doc}, d.find? k = some v → (k, v) ∈ d
  | (k', v') :: d, h => by
    unfold Doc.find? at h
    split_ifs at h with hk
    · cases h
      rw [hk]
      exact List.mem_cons_self
    · exact List.mem_cons_of_mem _ (Doc.mem_of_find? h)

theorem Doc.find?_isSome_iff : ∀ {d : Doc}, (d.find? k).isSome = true ↔ k ∈ d.map Prod.fst
  | [] => by simp [Doc.find?]
  | (k', v) :: d => by
    unfold Doc.find?
    by_cases hk : k' = k
    · simp [hk]
    · have hk' : ¬k = k' := fun h => hk h.symm
      rw [if_neg hk, Doc.find?_isSome_iff, List.map_cons, List.mem_cons]
      simp [hk']

theorem Doc.find?_keys (g : String → Val) (k : String) : ∀ ks : List String,
    Doc.find? (ks.map fun k => (k, g k)) k = if k ∈ ks then some (g k) else none
  | [] => rfl
  | x :: ks => by
    rw [List.map_cons, Doc.find?, Doc.find?_keys g k ks]
    by_cases hx : x = k
    · subst hx
      simp
    · have hx' : ¬k = x := fun h => hx h.symm
      simp [hx, hx']

theorem Doc.mem_set {d : Doc} {v : Val} {e : String × Val} (h : e ∈ d.set k v) :
    e = (k, v) ∨ e ∈ d := by
  induction d with
  | nil => exact .inl (List.mem_singleton.mp h)
  | cons x d ih =>
    obtain ⟨k', v'⟩ := x
    unfold Doc.set at h
    split_ifs at h
    · rcases List.mem_cons.mp h with rfl | h
      · exact .inl rfl
      · exact .inr (List.mem_cons_of_mem _ h)
    · rcases List.mem_cons.mp h with rfl | h
      · exact .inr List.mem_cons_self
      · rcases ih h with h' | h'
        · exact .inl h'
        · exact .inr (List.mem_cons_of_mem _ h')

/-! ### JSON dictionaries -/

open Json

structure JsonDoc (float : String → Flt) (d : Doc) : Prop where
  nodup : KeysNodup d
  json : ∀ e ∈ d, IsJson float e.2

namespace JsonDoc

variable {float : String → Flt} {d : Doc}

theorem nil : JsonDoc float [] := ⟨List.nodup_nil, fun _ h => (nomatch h)⟩

theorem get (h : JsonDoc float d) (k : String) : IsJson float (d.get k) := by
  unfold Doc.get
  cases hk : d.find? k with
  | none => exact isJson_none
  | some v => exact h.json (k, v) (Doc.mem_of_find? hk)

theorem set (h : JsonDoc float d) (k : String) {v : Val} (hv : IsJson float v) : JsonDoc float (d.set k v) where
  nodup := h.nodup.set k v
  json := by
    intro x hx
    rcases Doc.mem_set hx with rfl | hx
    · exact hv
    · exact h.json x hx

theorem without (h : JsonDoc float d) (p : String → Bool) : JsonDoc float (d.without p) where
  nodup := List.Nodup.sublist (List.filter_sublist.map Prod.fst) h.nodup
  json := fun x hx => h.json x (List.mem_filter.mp hx).1

theorem tail {x : String × Val} (h : JsonDoc float (x :: d)) : JsonDoc float d where
  nodup := (List.nodup_cons.mp (show (x.1 :: d.map Prod.fst).Nodup from h.nodup)).2
  json := fun y hy => h.json y (List.mem_cons_of_mem _ hy)

theorem update : ∀ {e d : Doc}, JsonDoc float d → JsonDoc float e → JsonDoc float (d.update e)
  | [], _, h, _ => h
  | x :: e, d, h, he =>
    have hx : JsonDoc float (Doc.update (d.set x.1 x.2) e) :=
      update (h.set x.1 (he.json x List.mem_cons_self)) he.tail
    hx

theorem keys {g : String → Val} (hg : ∀ k, IsJson float (g k)) {ks : List String} (hks : ks.Nodup) :
    JsonDoc float (ks.map fun k => (k, g k)) where
  nodup := by
    have : (ks.map fun k => ((k, g k) : String × Val)).map Prod.fst = ks := by
      simp [Function.comp_def]
    unfold KeysNodup
    rw [this]
    exact hks
  json := by
    intro x hx
    obtain ⟨k, -, rfl⟩ := List.mem_map.mp hx
    exact hg k

theorem toItems (h : JsonDoc float d) : IsJson float (.dict d.toItems) := by
  refine isJson_dict ⟨?_, ?_, ?_⟩ ?_
  · intro x hx
    obtain ⟨y, -, rfl⟩ := List.mem_map.mp hx
    exact ⟨y.1, rfl⟩
  · intro x hx
    obtain ⟨y, hy, rfl⟩ := List.mem_map.mp hx
    exact (h.json y hy).normal
  · have : d.toItems.map Prod.fst = (d.map Prod.fst).map Key.str := by simp [Doc.toItems]
    rw [this]
    exact List.Nodup.map (fun _ _ hk => Key.str.inj hk) h.nodup
  · intro x hx
    obtain ⟨y, hy, rfl⟩ := List.mem_map.mp hx
    exact h.json y hy

theorem norm_eq (h : JsonDoc float d) : d.norm = d := by
  unfold Doc.norm
  conv_rhs => rw [← List.map_id d]
  refine List.map_congr_left fun x hx => ?_
  rw [(h.json x hx).normal]
  rfl

theorem loads (h : JsonDoc float d) {t : String} (ht : d.dumps .plain = .ok t) :
    Json.loads float t = some (.dict d.toItems) := by
  rw [loads_doc h.nodup ht h.toItems.readable, h.norm_eq]

end JsonDoc

theorem jsonDoc_docOfItems {float : String → Flt} {items : List (Key × Val)} (h : IsJson float (.dict items)) :
    JsonDoc float (docOfItems items) ∧ (docOfItems items).toItems = items := by
  have hn := h.items
  have hback : (docOfItems items).toItems = items := by
    unfold docOfItems Doc.toItems
    rw [List.map_map]
    conv_rhs => rw [← List.map_id items]
    refine List.map_congr_left fun x hx => ?_
    obtain ⟨s, hs⟩ := hn.str x hx
    obtain ⟨k, v⟩ := x
    simp only at hs
    subst hs
    rfl
  refine ⟨⟨?_, ?_⟩, hback⟩
  · have hnd := hn.nodup
    rw [← hback] at hnd
    have : (docOfItems items).toItems.map Prod.fst = ((docOfItems items).map Prod.fst).map Key.str := by
      simp [Doc.toItems]
    rw [this] at hnd
    exact List.Nodup.of_map _ hnd
  · intro x hx
    obtain ⟨y, hy, rfl⟩ := List.mem_map.mp hx
    exact h.item hn y hy

end Mantle
