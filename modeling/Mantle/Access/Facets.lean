import Mantle.Access.Envelope

/-!
# Mantle.Access.Facets — the two authors of a stored context (`merge_caller_update`)

An update replaces the client's keys by those it states, read against the context it updates, and leaves the server's
facets.
-/

namespace Mantle

open Json

variable {k : String} {stored update v : Val}

section Facets

variable (float : String → Flt)

/-- `merge_caller_update`: the merged context, as it is stored. -/
def mergeUpdate (stored update : Val) : Except PyErr Val :=
  ((mergeCallerUpdate float stored update).dumps .plain).map .str

def mergeUpdates (stored : Val) : List Val → Except PyErr Val
  | [] => .ok stored
  | u :: us => (mergeUpdate float stored u).bind fun v => mergeUpdates v us

variable {float}

theorem parseContext_json (hf : ∀ t, ReadsFloat float (float t)) (h : IsJson float v) :
    JsonDoc float (parseContext float v) := by
  have hopaque : ∀ {w : Val}, IsJson float w → JsonDoc float [("_opaque", w)] := by
    intro w hw
    refine ⟨by simp [KeysNodup], fun e he => ?_⟩
    rw [List.mem_singleton.mp he]
    exact hw
  unfold parseContext
  cases v with
  | none => exact .nil
  | dict items => exact (jsonDoc_docOfItems h).1
  | str s =>
    dsimp only
    by_cases hs : s = ""
    · rw [if_pos hs]
      exact .nil
    · rw [if_neg hs]
      split
      · rename_i items hl
        exact (jsonDoc_docOfItems (loads_json hf hl)).1
      · exact hopaque h
  | _ => exact hopaque h

theorem callerPart_json {ctx : Doc} (h : JsonDoc float ctx) : JsonDoc float (callerPart ctx) := by
  have hc := h.get "caller"
  unfold callerPart
  split
  · rename_i items heq
    rw [heq] at hc
    exact (jsonDoc_docOfItems hc).1.without _
  · exact .nil

theorem updateKeys_json {update stored : Doc} (h : JsonDoc float update) :
    JsonDoc float (updateKeys update stored) := by
  unfold updateKeys
  dsimp only
  split
  · exact callerPart_json h
  · exact ((callerPart_json h).without _).update (h.without _)

theorem clientPart_owned (ctx : Doc) (hk : k ∈ serverOwnedKeys) : (clientPart ctx).find? k = none := by
  unfold clientPart
  rw [Doc.find?_without_list, if_pos hk]

theorem callerPart_owned (ctx : Doc) (hk : k ∈ serverOwnedKeys) : (callerPart ctx).find? k = none := by
  unfold callerPart
  split
  · exact clientPart_owned _ hk
  · rfl

theorem updateKeys_owned {update stored : Doc} (h : KeysNodup update) (hk : k ∈ serverOwnedKeys) :
    (updateKeys update stored).find? k = none := by
  unfold updateKeys
  dsimp only
  split
  · exact callerPart_owned update hk
  · have hnodup : KeysNodup (clientPart update) := h.sublist (List.filter_sublist.map Prod.fst)
    rw [Doc.find?_update hnodup, clientPart_owned update hk, Option.none_or]
    by_cases hheld : ((clientPart stored).find? k).isSome = true
    · exact Doc.find?_without_of _ hheld
    · rw [Doc.find?_without _ (by simpa using hheld)]
      exact callerPart_owned update hk

theorem withClientKeys_json {ctx keys : Doc} (hc : JsonDoc float ctx) (hk : JsonDoc float keys) :
    JsonDoc float (withClientKeys ctx keys) := (hc.without _).update (hk.without _)

theorem mergeUpdate_ok (hf : ∀ t, ReadsFloat float (float t)) (hs : IsJson float stored)
    (hu : IsJson float update) : ∃ t, mergeUpdate float stored update = .ok (.str t) ∧
      parseContext float (.str t) = mergeCallerUpdate float stored update := by
  have hjson : JsonDoc float (mergeCallerUpdate float stored update) :=
    withClientKeys_json (parseContext_json hf hs) (updateKeys_json (parseContext_json hf hu))
  obtain ⟨t, ht⟩ := hjson.toItems.writes
  have hdumps : (mergeCallerUpdate float stored update).dumps .plain = .ok t := ht
  refine ⟨t, by rw [mergeUpdate, hdumps]; rfl, ?_⟩
  have hloads := hjson.loads hdumps
  have hne : t ≠ "" := by
    rintro rfl
    rw [loads_empty] at hloads
    cases hloads
  unfold parseContext
  simp only [if_neg hne, hloads]
  unfold docOfItems Doc.toItems
  rw [List.map_map]
  exact List.map_id _

theorem find?_mergeUpdate (hf : ∀ t, ReadsFloat float (float t)) (hs : IsJson float stored)
    (hu : IsJson float update) (h : mergeUpdate float stored update = .ok v) (k : String) :
    (parseContext float v).find? k =
      if k ∉ serverOwnedKeys then
        (updateKeys (parseContext float update) (parseContext float stored)).find? k
      else if k = "caller" then none
      else (parseContext float stored).find? k := by
  obtain ⟨t, ht, hparse⟩ := mergeUpdate_ok hf hs hu
  rw [ht] at h
  cases h
  rw [hparse]
  exact find?_withClientKeys _ (updateKeys_json (parseContext_json hf hu)).nodup k

theorem mergeUpdate_json (hf : ∀ t, ReadsFloat float (float t)) (hs : IsJson float stored)
    (hu : IsJson float update) (h : mergeUpdate float stored update = .ok v) : IsJson float v := by
  obtain ⟨t, ht, -⟩ := mergeUpdate_ok hf hs hu
  rw [ht] at h
  cases h
  exact isJson_str t

theorem mergeUpdates_frame (hf : ∀ t, ReadsFloat float (float t)) : ∀ {updates : List Val} {stored : Val},
    IsJson float stored → (∀ u ∈ updates, IsJson float u) → ∃ v, mergeUpdates float stored updates = .ok v ∧
      IsJson float v ∧ ∀ k ∈ serverOwnedKeys, k ≠ "caller" →
        (parseContext float v).find? k = (parseContext float stored).find? k
  | [], stored, hs, _ => ⟨stored, rfl, hs, fun _ _ _ => rfl⟩
  | u :: us, stored, hs, hu => by
    have hu' := hu u List.mem_cons_self
    obtain ⟨t, ht, -⟩ := mergeUpdate_ok hf hs hu'
    obtain ⟨v, hv, hjson, hframe⟩ :=
      mergeUpdates_frame hf (isJson_str t) fun w hw => hu w (List.mem_cons_of_mem _ hw)
    refine ⟨v, by rw [mergeUpdates, ht]; exact hv, hjson, fun k hk hne => ?_⟩
    rw [hframe k hk hne, find?_mergeUpdate hf hs hu' ht, if_neg (not_not.mpr hk), if_neg hne]

theorem mergeUpdates_append : ∀ {us : List Val} {stored v : Val} (u : Val), mergeUpdates float stored us = .ok v →
    mergeUpdates float stored (us ++ [u]) = mergeUpdate float v u
  | [], stored, v, u, h => by
    cases h
    rw [List.nil_append, mergeUpdates]
    cases mergeUpdate float stored u <;> rfl
  | w :: us, stored, v, u, h => by
    rw [mergeUpdates] at h
    obtain ⟨v', hv', h⟩ := bind_ok h
    rw [List.cons_append, mergeUpdates, hv']
    exact mergeUpdates_append u h

/-- **A client never writes the mint**, by any sequence of updates, and its view is what the last update states. -/
theorem client_never_writes_mint (hf : ∀ t, ReadsFloat float (float t)) (stored : Val) (updates : List Val)
    (last : Val) (hs : IsJson float stored) (hu : ∀ u ∈ updates ++ [last], IsJson float u) :
    ∃ before after, mergeUpdates float stored updates = .ok before ∧
      mergeUpdates float stored (updates ++ [last]) = .ok after ∧
      (∀ k ∈ serverOwnedKeys, k ≠ "caller" →
        (parseContext float after).find? k = (parseContext float stored).find? k) ∧
      (parseContext float after).find? "caller" = none ∧
      ∀ k, (clientView (parseContext float after)).find? k =
        (updateKeys (parseContext float last) (parseContext float before)).find? k := by
  obtain ⟨before, hbefore, hjson, -⟩ :=
    mergeUpdates_frame hf hs fun u h => hu u (List.mem_append_left _ h)
  obtain ⟨after, hafter, -, hframe⟩ := mergeUpdates_frame hf hs hu
  have hlast : IsJson float last := hu last (by simp)
  have hmerge : mergeUpdate float before last = .ok after := by
    rw [← mergeUpdates_append last hbefore, hafter]
  have hfind := find?_mergeUpdate hf hjson hlast hmerge
  have hcaller : (parseContext float after).find? "caller" = none := by
    rw [hfind, if_neg (by decide), if_pos rfl]
  refine ⟨before, after, hbefore, hafter, hframe, hcaller, fun k => ?_⟩
  have hnodup : KeysNodup (clientPart (parseContext float after)) :=
    ((parseContext_json hf (mergeUpdate_json hf hjson hlast hmerge)).without _).nodup
  have hview : clientView (parseContext float after) = Doc.update [] (clientPart (parseContext float after)) := by
    unfold clientView Doc.get
    rw [hcaller]
    rfl
  have hnil : Doc.find? [] k = none := rfl
  rw [hview, Doc.find?_update hnodup, hnil, Option.or_none]
  by_cases hk : k ∈ serverOwnedKeys
  · rw [clientPart_owned _ hk, updateKeys_owned (parseContext_json hf hlast).nodup hk]
  · unfold clientPart
    rw [Doc.find?_without_list, if_neg hk, hfind, if_pos hk]

def mintedContext : Val := .dict [(.str "minted_by", .str "mantle.mint_context")]

def forgedMint : Val := .dict [(.str "minted_by", .str "me"), (.str "title", .str "T")]

def forgedCaller : Val := .dict [(.str "caller", .dict [(.str "minted", .str "now"), (.str "tags", .str "x")])]

theorem isJson_fields {items : List (String × String)} (h : (items.map Prod.fst).Nodup) :
    IsJson float (.dict (items.map fun e => (.str e.1, .str e.2))) := by
  refine isJson_dict ⟨?_, ?_, ?_⟩ ?_
  · intro e he
    obtain ⟨f, -, rfl⟩ := List.mem_map.mp he
    exact ⟨f.1, rfl⟩
  · intro e he
    obtain ⟨f, -, rfl⟩ := List.mem_map.mp he
    rfl
  · have hmap : (items.map fun e => ((.str e.1, .str e.2) : Key × Val)).map Prod.fst =
        (items.map Prod.fst).map Key.str := by simp
    rw [hmap]
    exact h.map fun _ _ hk => Key.str.inj hk
  · intro e he
    obtain ⟨f, -, rfl⟩ := List.mem_map.mp he
    exact isJson_str _

theorem forgedCaller_json : IsJson float forgedCaller := by
  have hinner : IsJson float (.dict [(.str "minted", .str "now"), (.str "tags", .str "x")]) :=
    @isJson_fields float [("minted", "now"), ("tags", "x")] (by decide)
  refine isJson_dict ⟨by simp, ?_, by simp⟩ ?_
  · intro e he
    rw [List.mem_singleton.mp he]
    exact hinner.normal
  · intro e he
    rw [List.mem_singleton.mp he]
    exact hinner

theorem minted_stands : ∃ after, mergeUpdates flatFloat mintedContext [forgedMint, forgedCaller] = .ok after ∧
    (parseContext flatFloat after).find? "minted_by" = some (.str "mantle.mint_context") := by
  have hstored : IsJson flatFloat mintedContext :=
    @isJson_fields flatFloat [("minted_by", "mantle.mint_context")] (by decide)
  have hupdates : ∀ u ∈ [forgedMint] ++ [forgedCaller], IsJson flatFloat u := by
    intro u hu
    simp only [List.cons_append, List.nil_append, List.mem_cons, List.not_mem_nil, or_false] at hu
    rcases hu with rfl | rfl
    · exact @isJson_fields flatFloat [("minted_by", "me"), ("title", "T")] (by decide)
    · exact forgedCaller_json
  obtain ⟨-, after, -, hafter, hframe, -⟩ :=
    client_never_writes_mint flatFloat_reads mintedContext [forgedMint] forgedCaller hstored hupdates
  exact ⟨after, hafter, by rw [hframe "minted_by" (by decide) (by decide)]; rfl⟩

end Facets

end Mantle
