import FcLang.Lsp.Flush

/-!
# What a session serves

Whatever the editor sends and however its messages are timed, the server has the
texts that were sent last, and a request is answered from analyses of the open
documents as they are.
-/

namespace FcLang.Lsp
open Args (CString)
open Printf (ascii)

variable {P : Type} {g : Setting P} {w : World} {docs docs' : List LspDoc} {d : LspDoc} {i j : ℕ}
  {path : Bytes}
section
variable {α : Type} {l : List α}

theorem swapRemove_concat (front : List α) (last : α) :
    swapRemove (front ++ [last]) i = ((front ++ [last]).set i last).dropLast := by
  simp [swapRemove]

theorem take_drop_swapRemove (hi : i < l.length) :
    (swapRemove l i).take i = l.take i ∧ ((swapRemove l i).drop i).Perm (l.drop (i + 1)) := by
  obtain ⟨front, last, rfl⟩ := List.eq_nil_or_concat' l |>.resolve_left (by rintro rfl; simp at hi)
  rw [swapRemove_concat]
  by_cases hlast : i < front.length
  · rw [List.set_append_left _ _ hlast, List.dropLast_concat]
    have hset : (front.set i last).drop i = last :: front.drop (i + 1) := by
      rw [List.drop_eq_getElem_cons (by simpa using hlast), List.getElem_set_self,
        List.drop_set_of_lt (Nat.lt_succ_self i)]
    constructor
    · rw [List.take_set_of_le (Nat.le_refl i), List.take_append_of_le_length hlast.le]
    · rw [hset, List.drop_append_of_le_length hlast]
      exact (List.perm_append_singleton last _).symm
  · have hfront : i = front.length := by
      simp at hi
      omega
    subst hfront
    simp

theorem swapRemove_perm (hi : i < l.length) : (swapRemove l i).Perm (l.eraseIdx i) := by
  obtain ⟨htake, hdrop⟩ := take_drop_swapRemove hi
  rw [List.eraseIdx_eq_take_drop_succ, ← htake]
  conv_lhs => rw [← List.take_append_drop i (swapRemove l i)]
  exact hdrop.append_left _

end

/-- A unit that an open document bears. -/
def borne (docs : List LspDoc) (u : UnitEntry P) : Bool := docs.any fun d => d.unitKey = some u.key

theorem unitPruneFrom_perm (docs : List LspDoc) (units : List (UnitEntry P)) (i : ℕ) :
    (unitPruneFrom docs units i).Perm (units.take i ++ (units.drop i).filter (borne docs)) := by
  induction units, i using unitPruneFrom.induct docs with
  | case1 units i hnone =>
    have hlength := List.getElem?_eq_none_iff.mp hnone
    rw [unitPruneFrom, List.take_of_length_le hlength, List.drop_eq_nil_of_le hlength]
    split
    · simp
    · rename_i hu
      simp [hnone] at hu
  | case2 units i u hu hused ih =>
    obtain ⟨hi, rfl⟩ := List.getElem?_eq_some_iff.mp hu
    have hdrop : (units.drop i).filter (borne docs) =
        units[i] :: (units.drop (i + 1)).filter (borne docs) := by
      rw [List.drop_eq_getElem_cons hi, List.filter_cons_of_pos (p := borne docs) hused]
    have htake : units.take (i + 1) = units.take i ++ [units[i]] := by
      rw [List.take_add_one, hu]
      rfl
    rw [htake, List.append_assoc, List.singleton_append] at ih
    rw [hdrop, unitPruneFrom]
    split
    · rename_i hnone
      simp [hnone] at hu
    · rename_i v hv
      cases hu.symm.trans hv
      rwa [if_pos hused]
  | case3 units i u hu hunused ih =>
    obtain ⟨hi, rfl⟩ := List.getElem?_eq_some_iff.mp hu
    obtain ⟨htake, hdrop⟩ := take_drop_swapRemove hi
    have hskip : (units.drop i).filter (borne docs) = (units.drop (i + 1)).filter (borne docs) := by
      rw [List.drop_eq_getElem_cons hi, List.filter_cons_of_neg (p := borne docs) hunused]
    rw [htake] at ih
    rw [hskip, unitPruneFrom]
    split
    · rename_i hnone
      simp [hnone] at hu
    · rename_i v hv
      cases hu.symm.trans hv
      rw [if_neg hunused]
      exact ih.trans ((hdrop.filter _).append_left _)

theorem unitPrune_perm (docs : List LspDoc) (units : List (UnitEntry P)) :
    (unitPrune docs units).Perm (units.filter (borne docs)) := by
  have h := unitPruneFrom_perm docs units 0
  rwa [List.take_zero, List.nil_append, List.drop_zero] at h

/-- What holds of the server between two messages. -/
structure Sound (g : Setting P) (s : Server P) : Prop where
  uris : (s.docs.map LspDoc.uri).Nodup
  real : Canonical g.names s.docs
  keys : (s.units.map UnitEntry.key).Nodup
  units : ∀ u ∈ s.units, Analyzed g u (Accounted g s.docs)
  keyed : ∀ d ∈ s.docs, d.dirty = true ∨ ∃ u ∈ s.units, d.unitKey = some u.key

theorem Analyzed.mono {u : UnitEntry P} {supplied supplied' : Source → Prop}
    (h : Analyzed g u supplied) (himp : ∀ s, supplied s → supplied' s) : Analyzed g u supplied' := by
  obtain ⟨input, a, hresult, hof, hfiles, hall⟩ := h
  exact ⟨input, a, hresult, hof, hfiles, fun s hs => himp s (hall s hs)⟩

/-- A source is accounted for if every document found under its name was, or has changed. -/
theorem Accounted.of_found {s : Source} (h : Accounted g docs s)
    (hfound : ∀ i d', storeFindByPath g.names docs' s.filename = some i → docs'[i]? = some d' →
      d'.dirty = true ∨ ∃ d, storeFindByPath g.names docs s.filename = some i ∧
        docs[i]? = some d ∧ d'.text = d.text ∧ (d.dirty = true → d'.dirty = true)) :
    Accounted g docs' s := by
  refine h.imp id fun h i d' hi hd' => ?_
  rcases hfound i d' hi hd' with hdirty | ⟨d, hj, hd, htext, hmono⟩
  · exact .inl hdirty
  · exact (h i d hj hd).imp hmono fun heq => htext.trans heq

/-- A changed text leaves its document dirty. -/
theorem Accounted.modify {s : Source} {text : Bytes} (h : Accounted g docs s) :
    Accounted g (docs.modify i fun d => { d with text := text, dirty := true }) s := by
  let change : LspDoc → LspDoc := fun d => { d with text := text, dirty := true }
  have hpath : (docs.modify i change).map LspDoc.path = docs.map LspDoc.path :=
    map_modify (f := change) (fun d => rfl) i
  have hreal : (docs.modify i change).map LspDoc.real = docs.map LspDoc.real :=
    map_modify (f := change) (fun d => rfl) i
  refine h.of_found fun k d' hk hd' => ?_
  rw [storeFindByPath_congr hpath hreal] at hk
  by_cases hik : i = k
  · subst hik
    obtain ⟨d, hd⟩ := getElem?_of_storeFindByPath hk
    rw [List.getElem?_modify_eq, hd] at hd'
    cases hd'
    exact .inl rfl
  · rw [List.getElem?_modify_ne _ _ hik] at hd'
    exact .inr ⟨d', hk, hd', rfl, id⟩

theorem findIdx?_concat {α : Type} {l : List α} {a : α} {p : α → Bool}
    (h : (l ++ [a]).findIdx? p = some i) : l.findIdx? p = some i ∨ i = l.length := by
  rw [List.findIdx?_append] at h
  cases hl : l.findIdx? p with
  | some j => exact .inl (by simpa [hl] using h)
  | none =>
    right
    have hlast : p a = true ∧ l.length = i := by simpa [hl] using h
    exact hlast.2.symm

theorem Accounted.append {s : Source} (h : Accounted g docs s) (hd : d.dirty = true) :
    Accounted g (docs ++ [d]) s := by
  refine h.of_found fun k d' hk hd' => ?_
  have hold : storeFindByPath g.names docs s.filename = some k ∨ k = docs.length := by
    rcases storeFindByPath_cases hk with hexact | ⟨hnone, hcanon⟩
    · refine (findIdx?_concat hexact).imp_left fun hexact => ?_
      simp [storeFindByPath, hexact]
    · refine (findIdx?_concat hcanon).imp_left fun hcanon => ?_
      rw [List.findIdx?_append] at hnone
      simp [storeFindByPath, (Option.or_eq_none_iff.mp hnone).1, hcanon]
  rcases hold with hold | rfl
  · obtain ⟨d₀, hd₀⟩ := getElem?_of_storeFindByPath hold
    rw [List.getElem?_append_left (List.getElem?_eq_some_iff.mp hd₀).1] at hd'
    exact .inr ⟨d', hold, hd', rfl, id⟩
  · left
    rw [List.getElem?_concat_length] at hd'
    cases hd'
    exact hd

theorem refreshDoc_dirty (n : Names) (w : World) (d : LspDoc) (h : (refreshDoc n w d).dirty = false) :
    d.dirty = false ∧ d.unitKey = some (unitKey n w d.path) := by
  simpa [refreshDoc] using h

/-- Refreshed documents have the names they had. -/
theorem Accounted.refresh {s : Source} (h : Accounted g docs s) (hreal : Canonical g.names docs) :
    Accounted g (docs.map (refreshDoc g.names w)) s := by
  have hpaths : (docs.map (refreshDoc g.names w)).map LspDoc.path = docs.map LspDoc.path := by
    simp [refreshDoc]
  have hreals : (docs.map (refreshDoc g.names w)).map LspDoc.real = docs.map LspDoc.real := by
    rw [List.map_map]
    exact List.map_congr_left fun d hd => (hreal d hd).symm
  refine h.of_found fun i d' hi hd' => .inr ?_
  rw [storeFindByPath_congr hpaths hreals] at hi
  rw [List.getElem?_map] at hd'
  obtain ⟨d, hd, rfl⟩ := Option.map_eq_some_iff.mp hd'
  exact ⟨d, hi, hd, rfl, fun hdirty => by simp [refreshDoc, hdirty]⟩

theorem storeFindByPath_settled (n : Names) (docs : List LspDoc) (path : Bytes) :
    storeFindByPath n (settled docs) path = storeFindByPath n docs path :=
  storeFindByPath_congr (by simp [settled]) (by simp [settled]) path

theorem Current.settled {s : Source} (h : Current g docs s) : Current g (settled docs) s := by
  refine h.imp id fun h i d' hi hd' => ?_
  rw [storeFindByPath_settled] at hi
  rw [Lsp.settled, List.getElem?_map] at hd'
  obtain ⟨d, hd, rfl⟩ := Option.map_eq_some_iff.mp hd'
  exact h i d hi hd

/-- The units of a flush, with the refreshed documents: all that some document bears have seen
their texts. -/
theorem flushing_spec {units : List (UnitEntry P)} (hkeys : (units.map UnitEntry.key).Nodup)
    (hreal : Canonical g.names docs)
    (hkey : ∀ d ∈ docs, d.unitKey = some (unitKey g.names w d.path)) :
    Flushed g docs units (flushing g w docs units) ∧
      (∀ d ∈ docs, d.dirty = true → unitKey g.names w d.path ∈ (flushing g w docs units).analyzed) ∧
      ∀ u ∈ (flushing g w docs units).units,
        u.key ∈ (flushing g w docs units).analyzed ∨ touched docs u = false ∨
          primaryDocFor docs u.key = none := by
  obtain ⟨hfirst, -, hdirty⟩ :=
    (flushed_start hkeys).analyzeDocs docs (fun d hd => hd) hreal hkey
  obtain ⟨hsecond, hsub, hlength, hall⟩ := hfirst.analyzeTouched
    (List.range (Flushing.analyzeDocs g w docs docs ⟨units, []⟩).units.length) hreal hkey
  refine ⟨hsecond, fun d hd hdirt => hsub (hdirty d hd hdirt), fun u hu => ?_⟩
  obtain ⟨i, hi⟩ := List.mem_iff_getElem?.mp hu
  refine hall i (.inl (List.mem_range.mpr ?_)) u hi
  rw [← hlength]
  exact (List.getElem?_eq_some_iff.mp hi).1

/-- An analysis that no change touched is up to date. -/
theorem Analyzed.current {u : UnitEntry P} (h : Analyzed g u (Accounted g docs))
    (hreal : Canonical g.names docs) (htouched : touched docs u = false) :
    Analyzed g u (Current g docs) := by
  obtain ⟨input, a, hresult, hof, hfiles, hall⟩ := h
  refine ⟨input, a, hresult, hof, hfiles, fun s hs => (hall s hs).imp id fun h i d hi hd => ?_⟩
  refine (h i d hi hd).resolve_left fun hdirty => ?_
  have hfile : d.real ∈ u.files := by
    rw [real_of_storeFindByPath hreal hi hd, hfiles, List.map_map]
    exact List.mem_map_of_mem hs
  have htouch : touched docs u = true := by
    refine List.any_eq_true.mpr ⟨d, List.mem_of_getElem? hd, ?_⟩
    simpa [hdirty] using hfile
  rw [htouched] at htouch
  cases htouch

/-- A flush leaves no document dirty, and no unit behind. -/
theorem Sound.flushDirty {s : Server P} (h : Sound g s) (w : World) :
    Sound g (flushDirty g w s) ∧ ∀ d ∈ (Lsp.flushDirty g w s).docs, d.dirty = false := by
  unfold Lsp.flushDirty
  split_ifs with hdirty
  · -- `docs` are the refreshed documents and `f` the units behind both loops
    let docs := s.docs.map (refreshDoc g.names w)
    let f := flushing g w docs s.units
    have hreal : Canonical g.names docs := by
      intro d hd
      obtain ⟨d, -, rfl⟩ := List.mem_map.mp hd
      rfl
    have hkey : ∀ d ∈ docs, d.unitKey = some (unitKey g.names w d.path) := by
      intro d hd
      obtain ⟨d, -, rfl⟩ := List.mem_map.mp hd
      rfl
    obtain ⟨hflushed, hchanged, hdone⟩ := flushing_spec (w := w) h.keys hreal hkey
    have hprune := unitPrune_perm (settled docs) f.units
    have hborne : ∀ u : UnitEntry P, borne (settled docs) u = true ↔
        ∃ d ∈ docs, d.unitKey = some u.key := by
      simp [borne, settled]
    have hnodirty : ∀ d ∈ settled docs, d.dirty = false := by
      simp [settled]
    refine ⟨⟨?_, ?_, ?_, ?_, ?_⟩, hnodirty⟩
    · have huris : (settled docs).map LspDoc.uri = s.docs.map LspDoc.uri := by
        rw [settled, List.map_map, List.map_map]
        rfl
      exact huris.symm ▸ h.uris
    · intro d' hd'
      obtain ⟨d, hd, rfl⟩ := List.mem_map.mp (show d' ∈ settled docs from hd')
      exact hreal d hd
    · exact (hprune.map _).nodup_iff.mpr (hflushed.keys.sublist (List.filter_sublist.map _))
    · intro u hu
      obtain ⟨hmem, hbears⟩ := List.mem_filter.mp (hprune.mem_iff.mp hu)
      obtain ⟨d, hd, hdkey⟩ := (hborne u).mp hbears
      suffices Analyzed g u (Current g docs) from
        this.mono fun src hsrc => hsrc.settled.imp id fun h i d hi hd => .inr (h i d hi hd)
      by_cases hin : u.key ∈ f.analyzed
      · exact hflushed.analyzed u hmem hin
      · have hold := (h.units u (hflushed.kept u hmem hin)).mono fun src hsrc =>
          hsrc.refresh (w := w) h.real
        refine hold.current hreal (((hdone u hmem).resolve_left hin).resolve_right ?_)
        exact primaryDocFor_ne_none hd hdkey
    · intro d' hd'
      obtain ⟨d, hd, rfl⟩ := List.mem_map.mp (show d' ∈ settled docs from hd')
      have hpresent : unitKey g.names w d.path ∈ f.units.map UnitEntry.key := by
        refine hflushed.present _ ?_
        cases hclean : d.dirty with
        | true => exact .inl (hchanged d hd hclean)
        | false =>
          obtain ⟨d₀, hd₀, rfl⟩ := List.mem_map.mp hd
          obtain ⟨hclean₀, hkey₀⟩ := refreshDoc_dirty g.names w d₀ hclean
          obtain ⟨u, hu, hukey⟩ := (h.keyed d₀ hd₀).resolve_left (by simp [hclean₀])
          rw [hkey₀] at hukey
          exact .inr (Option.some.inj hukey ▸ List.mem_map_of_mem hu)
      obtain ⟨u, hu, hukey⟩ := List.mem_map.mp hpresent
      refine .inr ⟨u, hprune.mem_iff.mpr (List.mem_filter.mpr ⟨hu, ?_⟩), ?_⟩
      · exact (hborne u).mpr ⟨d, hd, by rw [hkey d hd, hukey]⟩
      · rw [hukey]
        exact hkey d hd
  · exact ⟨h, fun d hd => by simpa using fun ht => hdirty (List.any_eq_true.mpr ⟨d, hd, ht⟩)⟩

/-- What a message does to the texts of the open documents. -/
def Method.send (sent : Bytes → Option Bytes) : Method → Bytes → Option Bytes
  | .didOpen (some uri) (some text) => Function.update sent uri.bytes (some text)
  | .didChange (some uri) changes =>
    match changes.getLast?.join with
    | some text =>
      if (sent uri.bytes).isSome then Function.update sent uri.bytes (some text) else sent
    | none => sent
  | .didClose (some uri) => Function.update sent uri.bytes none
  | _ => sent

/-- The store holds the texts, and no others. -/
def Holds (docs : List LspDoc) (sent : Bytes → Option Bytes) : Prop :=
  ∀ uri text, sent uri = some text ↔ ∃ d ∈ docs, d.uri = uri ∧ d.text = text

section
variable {s : Server P} {sent : Bytes → Option Bytes} {uri : CString} {text : Bytes}

theorem Holds.flushDirty (h : Holds s.docs sent) (g : Setting P) (w : World) :
    Holds (Lsp.flushDirty g w s).docs sent := by
  unfold Lsp.flushDirty
  split_ifs
  · intro uri text
    rw [h uri text]
    simp [publishProjectDiagnostics, settled, refreshDoc]
  · exact h

theorem storeFind_eq_none (h : storeFind docs uri.bytes = none) : ∀ d ∈ docs, d.uri ≠ uri.bytes := by
  intro d hd
  simpa using List.findIdx?_eq_none_iff.mp h d hd

theorem storeFind_eq_some (h : storeFind docs uri.bytes = some i) :
    ∃ d, docs[i]? = some d ∧ d.uri = uri.bytes := by
  obtain ⟨d, hd, hp, -⟩ := findIdx?_spec h
  exact ⟨d, hd, of_decide_eq_true hp⟩

/-- An open document gets the text. -/
theorem Holds.modify (h : Holds docs sent) (huris : (docs.map LspDoc.uri).Nodup)
    (hi : storeFind docs uri.bytes = some i) :
    Holds (docs.modify i fun d => { d with text := text, dirty := true })
      (Function.update sent uri.bytes (some text)) := by
  obtain ⟨d, hd, hduri⟩ := storeFind_eq_some hi
  have hmem : ∀ e, e ∈ docs.modify i (fun d => { d with text := text, dirty := true }) ↔
      e = { d with text := text, dirty := true } ∨ e ∈ docs ∧ e.uri ≠ uri.bytes := by
    intro e
    rw [mem_modify huris hd, hduri]
  intro uri' text'
  simp only [hmem]
  by_cases huri : uri' = uri.bytes
  · subst huri
    rw [Function.update_self]
    constructor
    · rintro ⟨⟩
      exact ⟨_, .inl rfl, hduri, rfl⟩
    · rintro ⟨e, rfl | ⟨-, hne⟩, heuri, rfl⟩
      · rfl
      · exact absurd heuri hne
  · rw [Function.update_of_ne huri, h]
    constructor
    · rintro ⟨e, he, rfl, rfl⟩
      exact ⟨e, .inr ⟨he, huri⟩, rfl, rfl⟩
    · rintro ⟨e, rfl | ⟨he, -⟩, rfl, rfl⟩
      · exact absurd hduri huri
      · exact ⟨e, he, rfl, rfl⟩

/-- A document with a new text. -/
theorem Sound.modify (h : Sound g s) (i : ℕ) (text : Bytes) :
    Sound g { s with docs := s.docs.modify i fun d => { d with text := text, dirty := true } } where
  uris := by
    let change : LspDoc → LspDoc := fun d => { d with text := text, dirty := true }
    have huris : (s.docs.modify i change).map LspDoc.uri = s.docs.map LspDoc.uri :=
      map_modify (f := change) (fun d => rfl) i
    exact huris.symm ▸ h.uris
  real := by
    intro d' hd'
    obtain ⟨k, hk⟩ := List.mem_iff_getElem?.mp hd'
    by_cases hik : i = k
    · subst hik
      rw [List.getElem?_modify_eq] at hk
      obtain ⟨d, hd, rfl⟩ := Option.map_eq_some_iff.mp hk
      exact h.real d (List.mem_of_getElem? hd)
    · rw [List.getElem?_modify_ne _ _ hik] at hk
      exact h.real d' (List.mem_of_getElem? hk)
  keys := h.keys
  units := fun u hu => (h.units u hu).mono fun src hsrc => hsrc.modify
  keyed := by
    intro d' hd'
    obtain ⟨k, hk⟩ := List.mem_iff_getElem?.mp hd'
    by_cases hik : i = k
    · subst hik
      rw [List.getElem?_modify_eq] at hk
      obtain ⟨d, -, rfl⟩ := Option.map_eq_some_iff.mp hk
      exact .inl rfl
    · rw [List.getElem?_modify_ne _ _ hik] at hk
      exact h.keyed d' (List.mem_of_getElem? hk)

theorem Sound.handleDidOpen (h : Sound g s) (hsent : Holds s.docs sent) :
    Sound g (handleDidOpen g s uri text) ∧
      Holds (Lsp.handleDidOpen g s uri text).docs (Function.update sent uri.bytes (some text)) := by
  unfold Lsp.handleDidOpen
  split
  · rename_i i hi
    exact ⟨h.modify i text, hsent.modify h.uris hi⟩
  · rename_i hnone
    have hnew := storeFind_eq_none hnone
    refine ⟨⟨?_, ?_, h.keys, fun u hu => (h.units u hu).mono fun src hsrc => hsrc.append rfl, ?_⟩, ?_⟩
    · simp only [List.map_append, List.map_cons, List.map_nil]
      refine List.nodup_append.mpr ⟨h.uris, List.nodup_singleton _, ?_⟩
      rintro a ha b hb rfl
      obtain ⟨d, hd, hduri⟩ := List.mem_map.mp ha
      exact hnew d hd (hduri.trans (List.mem_singleton.mp hb))
    · intro d hd
      rcases List.mem_append.mp hd with hd | hd
      · exact h.real d hd
      · rw [List.mem_singleton.mp hd]
    · intro d hd
      rcases List.mem_append.mp hd with hd | hd
      · exact h.keyed d hd
      · rw [List.mem_singleton.mp hd]
        exact .inl rfl
    · intro uri' text'
      by_cases huri : uri' = uri.bytes
      · subst huri
        rw [Function.update_self]
        constructor
        · rintro ⟨⟩
          exact ⟨_, List.mem_append_right _ (List.mem_singleton_self _), rfl, rfl⟩
        · rintro ⟨d, hd, hduri, rfl⟩
          rcases List.mem_append.mp hd with hd | hd
          · exact absurd hduri (hnew d hd)
          · rw [List.mem_singleton.mp hd]
      · rw [Function.update_of_ne huri, hsent]
        constructor
        · rintro ⟨d, hd, rfl, rfl⟩
          exact ⟨d, List.mem_append_left _ hd, rfl, rfl⟩
        · rintro ⟨d, hd, rfl, rfl⟩
          rcases List.mem_append.mp hd with hd | hd
          · exact ⟨d, hd, rfl, rfl⟩
          · rw [List.mem_singleton.mp hd] at huri
            exact absurd rfl huri

theorem Sound.handleDidChange (h : Sound g s) (hsent : Holds s.docs sent)
    (changes : List (Option Bytes)) : Sound g (handleDidChange s uri changes) ∧
      Holds (Lsp.handleDidChange s uri changes).docs
        (Method.send sent (.didChange (some uri) changes)) := by
  unfold Lsp.handleDidChange
  cases hi : storeFind s.docs uri.bytes with
  | none =>
    have hclosed : sent uri.bytes = none := by
      refine Option.eq_none_iff_forall_ne_some.mpr fun text htext => ?_
      obtain ⟨d, hd, hduri, -⟩ := (hsent _ _).mp htext
      exact storeFind_eq_none hi d hd hduri
    have hsend : Method.send sent (.didChange (some uri) changes) = sent := by
      simp only [Method.send, hclosed]
      cases changes.getLast?.join <;> rfl
    rw [hsend]
    exact ⟨h, hsent⟩
  | some i =>
    cases hlast : changes.getLast?.join with
    | none =>
      simp only [Method.send, hlast]
      exact ⟨h, hsent⟩
    | some text =>
      obtain ⟨d, hd, hduri⟩ := storeFind_eq_some hi
      have hopen : sent uri.bytes = some d.text :=
        (hsent _ _).mpr ⟨d, List.mem_of_getElem? hd, hduri, rfl⟩
      simp only [Method.send, hlast, hopen, Option.isSome_some, if_true]
      exact ⟨h.modify i text, hsent.modify h.uris hi⟩

/-- Once every document is marked, a flush finds all there is to do. -/
theorem sound_of_dirty (s : Server P) (huris : (s.docs.map LspDoc.uri).Nodup)
    (hreal : Canonical g.names s.docs) (hkeys : (s.units.map UnitEntry.key).Nodup)
    (hunits : ∀ u ∈ s.units, Analyzed g u fun _ => True)
    (hdirty : ∀ d ∈ s.docs, d.dirty = true) : Sound g s where
  uris := huris
  real := hreal
  keys := hkeys
  units := fun u hu => (hunits u hu).mono fun _ _ =>
    .inr fun _ d _ hd => .inl (hdirty d (List.mem_of_getElem? hd))
  keyed := fun d hd => .inl (hdirty d hd)

theorem Sound.handleDidClose (h : Sound g s) (hsent : Holds s.docs sent) (w : World) :
    Sound g (handleDidClose g w s uri) ∧
      Holds (Lsp.handleDidClose g w s uri).docs (Function.update sent uri.bytes none) := by
  unfold Lsp.handleDidClose
  split
  · rename_i hnone
    have hclosed : sent uri.bytes = none := by
      refine Option.eq_none_iff_forall_ne_some.mpr fun text htext => ?_
      obtain ⟨d, hd, hduri, -⟩ := (hsent _ _).mp htext
      exact storeFind_eq_none hnone d hd hduri
    rw [← hclosed, Function.update_eq_self]
    exact ⟨h, hsent⟩
  · rename_i i hi
    obtain ⟨d, hd, hduri⟩ := storeFind_eq_some hi
    have hperm := swapRemove_perm (List.getElem?_eq_some_iff.mp hd).1
    have huris : ((swapRemove s.docs i).map LspDoc.uri).Nodup :=
      (hperm.map _).nodup_iff.mpr (h.uris.sublist ((List.eraseIdx_sublist _ _).map _))
    have hmem : ∀ e, e ∈ swapRemove s.docs i ↔ e ∈ s.docs ∧ e.uri ≠ uri.bytes := by
      intro e
      rw [hperm.mem_iff, List.mem_eraseIdx_iff_getElem?]
      have hlt : i < (s.docs.map LspDoc.uri).length := by
        simpa using (List.getElem?_eq_some_iff.mp hd).1
      constructor
      · rintro ⟨k, hk, he⟩
        refine ⟨List.mem_of_getElem? he, fun heuri => hk ?_⟩
        exact ((List.getElem?_inj hlt h.uris).mp (by simp [hd, he, heuri, hduri])).symm
      · rintro ⟨he, hne⟩
        obtain ⟨k, hk⟩ := List.mem_iff_getElem?.mp he
        refine ⟨k, ?_, hk⟩
        rintro rfl
        cases hd.symm.trans hk
        exact hne hduri
    have hholds : Holds (swapRemove s.docs i) (Function.update sent uri.bytes none) := by
      intro uri' text'
      by_cases huri : uri' = uri.bytes
      · subst huri
        rw [Function.update_self]
        refine iff_of_false (by simp) ?_
        rintro ⟨e, he, heuri, -⟩
        exact ((hmem e).mp he).2 heuri
      · rw [Function.update_of_ne huri, hsent]
        constructor
        · rintro ⟨e, he, rfl, rfl⟩
          exact ⟨e, (hmem e).mpr ⟨he, huri⟩, rfl, rfl⟩
        · rintro ⟨e, he, rfl, rfl⟩
          exact ⟨e, ((hmem e).mp he).1, rfl, rfl⟩
    dsimp only
    split_ifs with hempty
    · have hnil := List.isEmpty_iff.mp hempty
      have hunits : unitPrune (swapRemove s.docs i) s.units = [] := by
        have hprune := unitPrune_perm (swapRemove s.docs i) s.units
        have hnone : s.units.filter (borne []) = [] := by simp [borne]
        rw [hnil, hnone] at hprune
        rw [hnil]
        exact hprune.eq_nil
      exact ⟨⟨huris, by simp [hnil, Canonical], by simp [hunits], by simp [hunits], by simp [hnil]⟩,
        hholds⟩
    · let docs := (swapRemove s.docs i).map fun d => { d with dirty := true }
      have hdocs : Sound g { s with docs := docs } := by
        refine sound_of_dirty _ ?_ ?_ h.keys ?_ ?_
        · have hsame : docs.map LspDoc.uri = (swapRemove s.docs i).map LspDoc.uri := by
            simp [docs]
          exact hsame.symm ▸ huris
        · intro e' he'
          obtain ⟨e, he, rfl⟩ := List.mem_map.mp (show e' ∈ docs from he')
          exact h.real e ((hmem e).mp he).1
        · exact fun u hu => (h.units u hu).mono fun _ _ => trivial
        · intro e' he'
          obtain ⟨e, -, rfl⟩ := List.mem_map.mp (show e' ∈ docs from he')
          rfl
      refine ⟨(hdocs.flushDirty w).1, Holds.flushDirty (s := { s with docs := docs }) ?_ g w⟩
      intro uri' text'
      rw [hholds uri' text']
      simp [docs]

/-- Every handler keeps the state sound, and the texts those that were sent. -/
theorem Sound.handle (h : Sound g s) (hsent : Holds s.docs sent) (w : World) (m : Method) :
    Sound g (handle g w s m) ∧ Holds (Lsp.handle g w s m).docs (m.send sent) := by
  cases m with
  | didOpen uri text =>
    cases uri with
    | none => exact ⟨h, hsent⟩
    | some uri =>
      cases text with
      | none => exact ⟨h, hsent⟩
      | some text => exact h.handleDidOpen hsent
  | didChange uri changes =>
    cases uri with
    | none => exact ⟨h, hsent⟩
    | some uri => exact h.handleDidChange hsent changes
  | didClose uri =>
    cases uri with
    | none => exact ⟨h, hsent⟩
    | some uri => exact h.handleDidClose hsent w
  | shutdown => exact ⟨⟨h.uris, h.real, h.keys, h.units, h.keyed⟩, hsent⟩
  | query uri => exact ⟨h, hsent⟩
  | exit => exact ⟨h, hsent⟩
  | other => exact ⟨h, hsent⟩

theorem Sound.answering (h : Sound g s) (hsent : Holds s.docs sent) (w : World) (m : Message) :
    Sound g (answering g w s m) ∧ Holds (Lsp.answering g w s m).docs sent := by
  unfold Lsp.answering
  split_ifs
  · exact ⟨(h.flushDirty w).1, hsent.flushDirty g w⟩
  · exact ⟨h, hsent⟩

theorem Sound.round (h : Sound g s) (hsent : Holds s.docs sent) (r : Round) :
    Sound g (round g s r) ∧ Holds (Lsp.round g s r).docs (r.message.method.send sent) := by
  obtain ⟨hmet, hmetSent⟩ := h.answering hsent r.world r.message
  obtain ⟨hleft, hleftSent⟩ := hmet.handle hmetSent r.world r.message.method
  unfold Lsp.round
  dsimp only
  split_ifs
  · exact ⟨hleft, hleftSent⟩
  · exact ⟨(hleft.flushDirty r.later).1, hleftSent.flushDirty g r.later⟩

end

theorem Analyzed.settled {s : Server P} {u : UnitEntry P} (h : Analyzed g u (Accounted g s.docs))
    (hclean : ∀ d ∈ s.docs, d.dirty = false) : Analyzed g u (Current g s.docs) := by
  refine h.mono fun src hsrc => hsrc.imp id fun h i d hi hd => ?_
  refine (h i d hi hd).resolve_left ?_
  simp [hclean d (List.mem_of_getElem? hd)]

/-- Every path is its own canonical path. -/
def plainNames : Names := ⟨some, fun _ _ h => by cases h; rfl⟩

/-- An analysis that keeps its input and reports one diagnostic twice. -/
def plainSetting : Setting AnalysisInput where
  names := plainNames
  stdlib := []
  hostFlags := []
  analyze input := (input, true, [⟨none, 1, 5, ascii "unused"⟩, ⟨none, 1, 5, ascii "unused"⟩])

def noFiles : World where
  readable _ := false
  response _ := .error []
  entries _ := []
  isDir _ := false
  readFile _ := none

def docUri : CString := ⟨ascii "file:///a.fc", by decide⟩

/-- The document is opened, and changed before the server gets to a flush. -/
def editing : List Round :=
  [⟨⟨false, .didOpen (some docUri) (some (ascii "let x = 1"))⟩, true, noFiles, noFiles⟩,
    ⟨⟨false, .didChange (some docUri) [some (ascii "let x = 2")]⟩, true, noFiles, noFiles⟩]

end FcLang.Lsp
