import Mantle.Service.Contexts

/-!
# Mantle.Service.Retried — a context update sent twice (`merge_caller_update`, `normalised`)

Which keys of an update's `caller` count is read off the top level of the context it updates, and the first application
rewrites that top level.
-/

namespace Mantle

open Json

/-! ### The order of a dictionary's keys -/

theorem Doc.set_append {k : String} (v : Val) : ∀ {d : Doc}, k ∉ d.map Prod.fst → d.set k v = d ++ [(k, v)]
  | [], _ => rfl
  | (x, w) :: d, h => by
    rw [List.map_cons, List.mem_cons, not_or] at h
    rw [Doc.set, if_neg fun hx => h.1 hx.symm, Doc.set_append v h.2]
    rfl

theorem Doc.update_append : ∀ {e d : Doc}, KeysNodup e → (∀ k ∈ e.map Prod.fst, k ∉ d.map Prod.fst) →
    d.update e = d ++ e
  | [], d, _, _ => (List.append_nil d).symm
  | (k, v) :: e, d, he, hd => by
    unfold KeysNodup at he
    rw [List.map_cons, List.nodup_cons] at he
    have hstep : Doc.update d ((k, v) :: e) = Doc.update (d.set k v) e := rfl
    rw [hstep, Doc.set_append v (hd k (by simp)), Doc.update_append he.2 fun x hx => ?_,
      List.append_assoc, List.singleton_append]
    rw [List.map_append, List.mem_append, not_or]
    refine ⟨hd x (List.mem_cons_of_mem _ hx), fun hmem => he.1 ?_⟩
    rw [← List.mem_singleton.mp hmem]
    exact hx

theorem Doc.map_fst_set (k : String) (v : Val) : ∀ d : Doc,
    (d.set k v).map Prod.fst = if k ∈ d.map Prod.fst then d.map Prod.fst else d.map Prod.fst ++ [k]
  | [] => rfl
  | (x, w) :: d => by
    rw [Doc.set]
    by_cases hx : x = k
    · rw [if_pos hx, hx]
      simp
    · rw [if_neg hx, List.map_cons, Doc.map_fst_set k v d]
      have hx' : ¬k = x := fun h => hx h.symm
      by_cases hd : k ∈ d.map Prod.fst <;> simp [hd, hx']

theorem Doc.map_fst_update : ∀ {e d : Doc}, KeysNodup e →
    (d.update e).map Prod.fst = d.map Prod.fst ++ (e.map Prod.fst).filter (· ∉ d.map Prod.fst)
  | [], d, _ => (List.append_nil _).symm
  | (k, v) :: e, d, he => by
    unfold KeysNodup at he
    rw [List.map_cons, List.nodup_cons] at he
    have hstep : Doc.update d ((k, v) :: e) = Doc.update (d.set k v) e := rfl
    rw [hstep, Doc.map_fst_update he.2, Doc.map_fst_set, List.map_cons]
    by_cases hk : k ∈ d.map Prod.fst
    · rw [if_pos hk, List.filter_cons_of_neg (by simpa using hk)]
    · rw [if_neg hk, List.filter_cons_of_pos (by simpa using hk), List.append_assoc, List.singleton_append]
      congr 2
      refine List.filter_congr fun x hx => ?_
      have hne : x ≠ k := fun h => he.1 (h ▸ hx)
      simp [hne]

theorem Doc.eq_of_keys : ∀ {d e : Doc}, KeysNodup d → d.map Prod.fst = e.map Prod.fst →
    (∀ k, d.find? k = e.find? k) → d = e
  | [], [], _, _, _ => rfl
  | [], _ :: _, _, h, _ => by simp at h
  | _ :: _, [], _, h, _ => by simp at h
  | (k, v) :: d, (k', w) :: e, hd, h, hfind => by
    unfold KeysNodup at hd
    rw [List.map_cons, List.nodup_cons] at hd
    rw [List.map_cons, List.map_cons] at h
    obtain ⟨hk, htail⟩ := List.cons.inj h
    have hk' : k = k' := hk
    subst hk'
    have hv : v = w := by
      have h' := hfind k
      rw [Doc.find?, Doc.find?, if_pos rfl, if_pos rfl] at h'
      exact Option.some.inj h'
    subst hv
    refine congrArg _ (Doc.eq_of_keys hd.2 htail fun x => ?_)
    by_cases hx : k = x
    · subst hx
      rw [Doc.find?_of_notMem hd.1, Doc.find?_of_notMem (htail ▸ hd.1)]
    · have h' := hfind x
      rwa [Doc.find?, Doc.find?, if_neg hx, if_neg hx] at h'

theorem Doc.map_fst_without (d : Doc) (p : String → Bool) :
    (d.without p).map Prod.fst = (d.map Prod.fst).filter fun k => !p k := by
  unfold Doc.without
  rw [List.filter_map]
  rfl

/-! ### A context and its two authors -/

/-- The stored facets of a context, less any `caller`. -/
def serverFacets (ctx : Doc) : Doc := ctx.without fun k => k ∉ serverOwnedKeys || k = "caller"

def ClientKeys (keys : Doc) : Prop := ∀ k ∈ keys.map Prod.fst, k ∉ serverOwnedKeys

section Authors

variable {ctx keys stored upd : Doc}

theorem clientKeys_clientPart (ctx : Doc) : ClientKeys (clientPart ctx) := by
  intro k hk
  unfold clientPart at hk
  rw [Doc.map_fst_without] at hk
  simpa using (List.mem_filter.mp hk).2

theorem clientKeys_callerPart (ctx : Doc) : ClientKeys (callerPart ctx) := by
  unfold callerPart
  split
  · exact clientKeys_clientPart _
  · exact fun k hk => absurd hk (by simp)

theorem ClientKeys.clientPart_eq (h : ClientKeys keys) : clientPart keys = keys := by
  unfold clientPart Doc.without
  refine List.filter_eq_self.mpr fun e he => ?_
  simpa using h e.1 (List.mem_map_of_mem he)

theorem ClientKeys.serverFacets_eq (h : ClientKeys keys) : serverFacets keys = [] := by
  unfold serverFacets Doc.without
  refine List.filter_eq_nil_iff.mpr fun e he => ?_
  simp [h e.1 (List.mem_map_of_mem he)]

theorem serverFacets_idem (ctx : Doc) : serverFacets (serverFacets ctx) = serverFacets ctx := by
  unfold serverFacets Doc.without
  rw [List.filter_filter]
  simp

theorem clientPart_serverFacets (ctx : Doc) : clientPart (serverFacets ctx) = [] := by
  unfold clientPart serverFacets Doc.without
  rw [List.filter_filter]
  refine List.filter_eq_nil_iff.mpr fun e _ => ?_
  by_cases h : e.1 ∈ serverOwnedKeys <;> simp [h]

theorem ClientKeys.withClientKeys_eq (h : ClientKeys keys) (hn : KeysNodup keys) :
    withClientKeys ctx keys = serverFacets ctx ++ keys := by
  unfold withClientKeys
  rw [h.clientPart_eq]
  refine Doc.update_append hn fun k hk hmem => h k hk ?_
  rw [Doc.map_fst_without] at hmem
  have hp := (List.mem_filter.mp hmem).2
  simp only [Bool.not_or, Bool.and_eq_true, Bool.not_eq_true', decide_eq_false_iff_not, not_not] at hp
  exact hp.1

theorem clientPart_written (h : ClientKeys keys) : clientPart (serverFacets ctx ++ keys) = keys := by
  have happend : clientPart (serverFacets ctx ++ keys) = clientPart (serverFacets ctx) ++ clientPart keys :=
    List.filter_append _ _
  rw [happend, clientPart_serverFacets, h.clientPart_eq, List.nil_append]

theorem serverFacets_written (h : ClientKeys keys) :
    serverFacets (serverFacets ctx ++ keys) = serverFacets ctx := by
  have happend : serverFacets (serverFacets ctx ++ keys) =
      serverFacets (serverFacets ctx) ++ serverFacets keys := List.filter_append _ _
  rw [happend, serverFacets_idem, h.serverFacets_eq, List.append_nil]

theorem clientView_written (h : ClientKeys keys) (hn : KeysNodup keys) :
    clientView (serverFacets ctx ++ keys) = keys := by
  have hcaller : (serverFacets ctx ++ keys).get "caller" = .none := by
    have hfind := find?_withClientKeys ctx hn "caller"
    rw [h.withClientKeys_eq hn, if_neg (by decide), if_pos rfl] at hfind
    unfold Doc.get
    rw [hfind]
    rfl
  unfold clientView
  rw [hcaller, clientPart_written h]
  exact Doc.update_append hn fun _ _ h => nomatch h

theorem ClientKeys.update {d e : Doc} (hd : ClientKeys d) (he : ClientKeys e) (hn : KeysNodup e) :
    ClientKeys (d.update e) := by
  intro k hk
  rw [Doc.map_fst_update hn] at hk
  rcases List.mem_append.mp hk with hk | hk
  · exact hd k hk
  · exact he k (List.mem_filter.mp hk).1

theorem ClientKeys.without {d : Doc} (hd : ClientKeys d) (p : String → Bool) : ClientKeys (d.without p) := by
  intro k hk
  rw [Doc.map_fst_without] at hk
  exact hd k (List.mem_filter.mp hk).1

theorem keysNodup_clientPart (h : KeysNodup ctx) : KeysNodup (clientPart ctx) :=
  h.sublist (List.filter_sublist.map Prod.fst)

theorem clientKeys_updateKeys (h : KeysNodup upd) : ClientKeys (updateKeys upd stored) := by
  unfold updateKeys
  dsimp only
  split
  · exact clientKeys_callerPart upd
  · exact ((clientKeys_callerPart upd).without _).update (clientKeys_clientPart upd)
      (keysNodup_clientPart h)

theorem clientKeys_clientView (h : KeysNodup ctx) : ClientKeys (clientView ctx) := by
  have hview : clientView ctx = (callerPart ctx).update (clientPart ctx) := rfl
  rw [hview]
  exact (clientKeys_callerPart ctx).update (clientKeys_clientPart ctx) (keysNodup_clientPart h)

end Authors

/-! ### The keys an update states, and states again -/

section Stated

variable (upd : Doc)

/-- Each client key of the update's `caller` is at the update's own top level, if any client key is. -/
def StatedOnce : Prop :=
  clientPart upd = [] ∨ ∀ k ∈ (callerPart upd).map Prod.fst, k ∈ (clientPart upd).map Prod.fst

/-- Of the client keys of the update's `caller`, those that are not held come first at its top level. -/
def StatedInOrder (stored : Doc) : Prop :=
  clientPart upd = [] ∨ ((callerPart upd).map Prod.fst).filter (· ∉ (clientPart stored).map Prod.fst) <+:
    (clientPart upd).map Prod.fst

variable {upd} {stored : Doc} (hu : KeysNodup upd) (hc : KeysNodup (callerPart upd))

theorem updateKeys_of_nil (h : clientPart upd = []) : updateKeys upd stored = callerPart upd := by
  unfold updateKeys
  rw [h]
  rfl

theorem updateKeys_of_ne (h : clientPart upd ≠ []) : updateKeys upd stored =
    ((callerPart upd).without fun k => ((clientPart stored).find? k).isSome).update (clientPart upd) := by
  unfold updateKeys
  dsimp only
  rw [if_neg (by simpa using h)]

include hu

theorem find?_updateKeys (h : clientPart upd ≠ []) (k : String) : (updateKeys upd stored).find? k =
    ((clientPart upd).find? k).or
      (if k ∈ (clientPart stored).map Prod.fst then none else (callerPart upd).find? k) := by
  rw [updateKeys_of_ne h, Doc.find?_update (keysNodup_clientPart hu)]
  congr 1
  by_cases hk : ((clientPart stored).find? k).isSome = true
  · rw [if_pos (Doc.find?_isSome_iff.mp hk)]
    exact Doc.find?_without_of _ hk
  · rw [if_neg fun hmem => hk (Doc.find?_isSome_iff.mpr hmem)]
    exact Doc.find?_without _ (by simpa using hk)

theorem keys_updateKeys (h : clientPart upd ≠ []) : (updateKeys upd stored).map Prod.fst =
    ((callerPart upd).map Prod.fst).filter (· ∉ (clientPart stored).map Prod.fst) ++
      ((clientPart upd).map Prod.fst).filter
        (· ∉ ((callerPart upd).map Prod.fst).filter (· ∉ (clientPart stored).map Prod.fst)) := by
  have hkeys : ((callerPart upd).without fun k => ((clientPart stored).find? k).isSome).map Prod.fst =
      ((callerPart upd).map Prod.fst).filter (· ∉ (clientPart stored).map Prod.fst) := by
    rw [Doc.map_fst_without]
    refine List.filter_congr fun k _ => ?_
    rw [decide_not]
    congr 1
    rw [Bool.eq_iff_iff, decide_eq_true_iff]
    exact Doc.find?_isSome_iff
  rw [updateKeys_of_ne h, Doc.map_fst_update (keysNodup_clientPart hu), hkeys]

theorem mem_updateKeys (h : clientPart upd ≠ []) {k : String} : k ∈ (updateKeys upd stored).map Prod.fst ↔
    k ∈ (clientPart upd).map Prod.fst ∨
      k ∈ (callerPart upd).map Prod.fst ∧ k ∉ (clientPart stored).map Prod.fst := by
  rw [← Doc.find?_isSome_iff, find?_updateKeys hu h, Option.isSome_or, Bool.or_eq_true, Doc.find?_isSome_iff]
  by_cases hk : k ∈ (clientPart stored).map Prod.fst
  · simp [hk]
  · rw [if_neg hk, Doc.find?_isSome_iff]
    simp [hk]

theorem find?_updateKeys_again {once : Doc} (honce : clientPart once = updateKeys upd stored) :
    (∀ k, (updateKeys upd once).find? k = (updateKeys upd stored).find? k) ↔ StatedOnce upd := by
  by_cases h : clientPart upd = []
  · rw [updateKeys_of_nil h, updateKeys_of_nil h]
    exact ⟨fun _ => .inl h, fun _ _ => rfl⟩
  unfold StatedOnce
  rw [or_iff_right h]
  constructor
  · intro hsame k hk
    by_contra htop
    have hnone : (clientPart upd).find? k = none := Doc.find?_of_notMem htop
    obtain ⟨v, hv⟩ := Option.isSome_iff_exists.mp (Doc.find?_isSome_iff.mpr hk)
    have hk' := hsame k
    rw [find?_updateKeys hu h, find?_updateKeys hu h, honce, hnone, hv, Option.none_or, Option.none_or] at hk'
    -- a key that was held is stated the second time only, and one that was not the first time only
    by_cases hheld : k ∈ (clientPart stored).map Prod.fst
    · rw [if_pos hheld, if_neg ?_] at hk'
      · cases hk'
      · rw [mem_updateKeys hu h]
        rintro (hmem | ⟨-, hmem⟩)
        · exact htop hmem
        · exact hmem hheld
    · rw [if_neg hheld, if_pos ((mem_updateKeys hu h).mpr (.inr ⟨hk, hheld⟩))] at hk'
      cases hk'
  · intro hsub k
    rw [find?_updateKeys hu h, find?_updateKeys hu h]
    by_cases htop : k ∈ (clientPart upd).map Prod.fst
    · obtain ⟨v, hv⟩ := Option.isSome_iff_exists.mp (Doc.find?_isSome_iff.mpr htop)
      rw [hv]
      rfl
    · have hnone : (callerPart upd).find? k = none := Doc.find?_of_notMem fun hk => htop (hsub k hk)
      rw [hnone, ite_self, ite_self]

include hc

omit hu in
theorem keysNodup_updateKeys : KeysNodup (updateKeys upd stored) := by
  by_cases h : clientPart upd = []
  · rw [updateKeys_of_nil h]
    exact hc
  · rw [updateKeys_of_ne h]
    exact Doc.keysNodup_update (hc.sublist (List.filter_sublist.map Prod.fst)) _

theorem updateKeys_again {once : Doc} (honce : clientPart once = updateKeys upd stored) :
    updateKeys upd once = updateKeys upd stored ↔ StatedOnce upd ∧ StatedInOrder upd stored := by
  by_cases h : clientPart upd = []
  · rw [updateKeys_of_nil h, updateKeys_of_nil h]
    exact ⟨fun _ => ⟨.inl h, .inl h⟩, fun _ => rfl⟩
  have hagain (hs : StatedOnce upd) : (updateKeys upd once).map Prod.fst = (clientPart upd).map Prod.fst := by
    have hnil : ((callerPart upd).map Prod.fst).filter (· ∉ (clientPart once).map Prod.fst) = [] := by
      refine List.filter_eq_nil_iff.mpr fun k hk => ?_
      rw [decide_eq_true_iff, not_not, honce, mem_updateKeys hu h]
      exact .inl ((hs.resolve_left h) k hk)
    rw [keys_updateKeys hu h, hnil]
    simp
  constructor
  · intro heq
    have hs : StatedOnce upd := (find?_updateKeys_again hu honce).mp fun k => by rw [heq]
    refine ⟨hs, .inr ?_⟩
    rw [← hagain hs, heq, keys_updateKeys hu h]
    exact List.prefix_append _ _
  · rintro ⟨hs, ho⟩
    refine Doc.eq_of_keys (keysNodup_updateKeys hc) ?_ ((find?_updateKeys_again hu honce).mpr hs)
    obtain ⟨rest, hrest⟩ := ho.resolve_left h
    have hnodup : ((clientPart upd).map Prod.fst).Nodup := keysNodup_clientPart hu
    rw [hagain hs, keys_updateKeys hu h, ← hrest, List.filter_append]
    rw [← hrest, List.nodup_append] at hnodup
    have hfirst : (((callerPart upd).map Prod.fst).filter (· ∉ (clientPart stored).map Prod.fst)).filter
        (· ∉ ((callerPart upd).map Prod.fst).filter (· ∉ (clientPart stored).map Prod.fst)) = [] :=
      List.filter_eq_nil_iff.mpr fun k hk => by simpa using hk
    have hlater : rest.filter
        (· ∉ ((callerPart upd).map Prod.fst).filter (· ∉ (clientPart stored).map Prod.fst)) = rest :=
      List.filter_eq_self.mpr fun k hk =>
        decide_eq_true fun hmem => hnodup.2.2 k hmem k hk rfl
    rw [hfirst, hlater, List.nil_append]

end Stated

/-! ### Applied twice -/

section Retried

variable {float : String → Flt} (hf : ∀ t, ReadsFloat float (float t))

include hf

theorem mergeUpdate_again {stored upd : Val} (hs : IsJson float stored) (hu : IsJson float upd) :
    ∃ once twice, mergeUpdate float stored upd = .ok (.str once) ∧
      mergeUpdate float (.str once) upd = .ok (.str twice) ∧
      (twice = once ↔ StatedOnce (parseContext float upd) ∧
        StatedInOrder (parseContext float upd) (parseContext float stored)) ∧
      ((∀ k, (parseContext float (.str twice)).find? k = (parseContext float (.str once)).find? k) ↔
        StatedOnce (parseContext float upd)) := by
  have hup := parseContext_json hf hu
  have hcp := (callerPart_json hup).nodup
  obtain ⟨once, honce, hread⟩ := mergeUpdate_ok hf hs hu
  obtain ⟨twice, htwice, hread'⟩ := mergeUpdate_ok hf (isJson_str once) hu
  refine ⟨once, twice, honce, htwice, ?_⟩
  unfold mergeCallerUpdate at hread hread'
  have hkeys (c : Doc) := @clientKeys_updateKeys c (parseContext float upd) hup.nodup
  have hnodup (c : Doc) := @keysNodup_updateKeys (parseContext float upd) c hcp
  rw [(hkeys _).withClientKeys_eq (hnodup _)] at hread hread'
  have hclient : clientPart (parseContext float (.str once)) =
      updateKeys (parseContext float upd) (parseContext float stored) := by
    rw [hread]
    exact clientPart_written (hkeys _)
  have hfacets : serverFacets (parseContext float (.str once)) = serverFacets (parseContext float stored) := by
    rw [hread]
    exact serverFacets_written (hkeys _)
  rw [hfacets] at hread'
  constructor
  · rw [← updateKeys_again hup.nodup hcp hclient]
    constructor
    · rintro rfl
      exact List.append_cancel_left (hread'.symm.trans hread)
    · intro heq
      rw [heq, ← hread] at hread'
      have hsame : mergeUpdate float (.str once) upd = mergeUpdate float stored upd := by
        unfold mergeUpdate mergeCallerUpdate
        rw [(hkeys _).withClientKeys_eq (hnodup _), (hkeys _).withClientKeys_eq (hnodup _), hfacets, heq]
      rw [honce, htwice] at hsame
      exact Val.str.inj (Except.ok.inj hsame)
  · rw [← find?_updateKeys_again hup.nodup hclient]
    have hfind (k : String) := find?_mergeUpdate hf hs hu honce k
    have hfind' (k : String) := find?_mergeUpdate hf (isJson_str once) hu htwice k
    constructor
    · intro hsame k
      by_cases hk : k ∈ serverOwnedKeys
      · rw [updateKeys_owned hup.nodup hk, updateKeys_owned hup.nodup hk]
      · have h := hsame k
        rwa [hfind', hfind, if_pos hk, if_pos hk] at h
    · intro hsame k
      rw [hfind' k, hfind k, hsame k]
      split_ifs <;> rfl

theorem normalised_again {value : Val} (hv : IsJson float value) : ∃ v, normalised float value = .ok v ∧
    normalised float v = .ok v ∧
    clientView (parseContext float v) = clientView (parseContext float value) := by
  have hp := parseContext_json hf hv
  have hview := clientKeys_clientView hp.nodup
  have hvn : KeysNodup (clientView (parseContext float value)) := (clientView_json hp).nodup
  by_cases hopaque : ((parseContext float value).map Prod.fst == ["_opaque"]) = true
  · have hsame : normalised float value = .ok value := by
      unfold normalised
      dsimp only
      rw [if_pos hopaque]
    exact ⟨value, hsame, hsame, rfl⟩
  have hjson := withClientKeys_json hp (clientView_json hp)
  obtain ⟨out, hout⟩ := hjson.toItems.writes
  have hdumps : (withClientKeys (parseContext float value) (clientView (parseContext float value))).dumps .plain =
      .ok out := hout
  obtain ⟨-, -, hread⟩ := reads_dumps hjson hdumps
  have hor : normalised float value = .ok value ∨ normalised float value = .ok (.str out) := by
    unfold normalised
    dsimp only
    rw [if_neg hopaque, hdumps]
    dsimp only [Except.map]
    split
    · split_ifs
      · exact .inl rfl
      · exact .inr rfl
    · exact .inr rfl
  rcases hor with h | h
  · exact ⟨value, h, h, rfl⟩
  rw [hview.withClientKeys_eq hvn] at hread
  have hagain : clientView (parseContext float (.str out)) = clientView (parseContext float value) := by
    rw [hread]
    exact clientView_written hview hvn
  refine ⟨.str out, h, ?_, hagain⟩
  have hsame : withClientKeys (parseContext float (.str out)) (clientView (parseContext float (.str out))) =
      withClientKeys (parseContext float value) (clientView (parseContext float value)) := by
    rw [hagain, hview.withClientKeys_eq hvn, hview.withClientKeys_eq hvn, hread, serverFacets_written hview]
  unfold normalised
  dsimp only
  rw [hsame, hdumps]
  dsimp only [Except.map]
  split_ifs
  · rfl
  · split
    · split_ifs
      · rfl
      · rfl
    · rfl

/-- **A retried update changes nothing more exactly when it states each key in one place.** -/
theorem retried_update_iff (stored upd value : Val) (hs : IsJson float stored) (hu : IsJson float upd)
    (hv : IsJson float value) :
    (∃ once twice, mergeUpdate float stored upd = .ok (.str once) ∧
      mergeUpdate float (.str once) upd = .ok (.str twice) ∧
      (twice = once ↔ StatedOnce (parseContext float upd) ∧
        StatedInOrder (parseContext float upd) (parseContext float stored)) ∧
      ((∀ k, (parseContext float (.str twice)).find? k = (parseContext float (.str once)).find? k) ↔
        StatedOnce (parseContext float upd))) ∧
    ∃ v, normalised float value = .ok v ∧ normalised float v = .ok v ∧
      clientView (parseContext float v) = clientView (parseContext float value) :=
  ⟨mergeUpdate_again hf hs hu, normalised_again hf hv⟩

end Retried

def splitDoc : Doc :=
  [("content_type", .str "text/plain"), ("caller", .dict (Doc.toItems [("title", .str "Quarterly")]))]

def splitUpdate : Doc := splitDoc ++ [("layout", .str "list")]

theorem splitUpdate_json : JsonDoc flatFloat splitUpdate := by
  have htitle : IsJson flatFloat (.dict (Doc.toItems [("title", .str "Quarterly")])) :=
    (JsonDoc.nil.set "title" (isJson_str "Quarterly")).toItems
  exact ((JsonDoc.nil.set "content_type" (isJson_str "text/plain")).set "caller" htitle).set "layout"
    (isJson_str "list")

theorem split_update_retried : ∃ once twice,
    mergeUpdate flatFloat (.dict splitDoc.toItems) (.dict splitUpdate.toItems) = .ok (.str once) ∧
    mergeUpdate flatFloat (.str once) (.dict splitUpdate.toItems) = .ok (.str twice) ∧
    (clientView (parseContext flatFloat (.str once))).find? "title" = some (.str "Quarterly") ∧
    (clientView (parseContext flatFloat (.str twice))).find? "title" = none ∧ twice ≠ once := by
  have hupd : IsJson flatFloat (.dict splitUpdate.toItems) := splitUpdate_json.toItems
  have hstored : IsJson flatFloat (.dict splitDoc.toItems) :=
    (splitUpdate_json.without fun k => k = "layout").toItems
  obtain ⟨once, honce, hread⟩ := mergeUpdate_ok flatFloat_reads hstored hupd
  obtain ⟨twice, htwice, hread'⟩ := mergeUpdate_ok flatFloat_reads (isJson_str once) hupd
  unfold mergeCallerUpdate at hread'
  rw [hread] at hread'
  have htitle : (clientView (parseContext flatFloat (.str once))).find? "title" = some (.str "Quarterly") := by
    rw [hread]
    rfl
  have hgone : (clientView (parseContext flatFloat (.str twice))).find? "title" = none := by
    rw [hread']
    rfl
  refine ⟨once, twice, honce, htwice, htitle, hgone, ?_⟩
  rintro rfl
  rw [htitle] at hgone
  cases hgone

theorem retried_update_top : ∃ once, mergeUpdate flatFloat mintedContext forgedMint = .ok (.str once) ∧
    mergeUpdate flatFloat (.str once) forgedMint = .ok (.str once) := by
  have hstored : IsJson flatFloat mintedContext :=
    @isJson_fields flatFloat [("minted_by", "mantle.mint_context")] (by decide)
  have hupd : IsJson flatFloat forgedMint :=
    @isJson_fields flatFloat [("minted_by", "me"), ("title", "T")] (by decide)
  obtain ⟨⟨once, twice, honce, htwice, hiff, -⟩, -⟩ :=
    retried_update_iff flatFloat_reads mintedContext forgedMint mintedContext hstored hupd hstored
  have hcaller : callerPart (parseContext flatFloat forgedMint) = [] := by decide +kernel
  have hsame : twice = once := hiff.mpr ⟨.inr (by simp [hcaller]), .inr (by simp [hcaller])⟩
  exact ⟨once, honce, hsame ▸ htwice⟩

end Mantle
