import FcLang.Lsp.Session

/-!
# What the editor shows

The editor shows for each URI the diagnostics published last. Behind a flush these
are the diagnostics of the units as they are: nothing that an earlier flush
published stays.
-/

namespace FcLang.Lsp
open Printf (ascii)

variable {P : Type} {g : Setting P} {s : Server P} {w : World} {uri : Bytes}

/-- The diagnostics that the editor shows for a URI. -/
def clientView (published : List Notification) (uri : Bytes) : List (ℤ × ℤ × Bytes) :=
  ((published.filter fun n => n.uri = uri).getLast?.map Notification.diags).getD []

/-- All diagnostics of all units, each of them once. -/
def aggregated (g : Setting P) (s : Server P) : List AggDiag :=
  dedup [] (s.units.flatMap (unitDiags s g))

/-- The diagnostics of the files with this URI; of several files, those of the last one. -/
def shown (g : Setting P) (w : World) (s : Server P) (uri : Bytes) : List (ℤ × ℤ × Bytes) :=
  let files := (erroredFiles [] (aggregated g s)).filter fun file =>
    (fileText g.names w s.docs file).isSome ∧ uriForPath g.names s.docs file = uri
  (files.getLast?.map (positions (aggregated g s))).getD []

theorem clientView_append (before after : List Notification) :
    clientView (before ++ after) uri =
      if uri ∈ after.map Notification.uri then clientView after uri else clientView before uri := by
  unfold clientView
  split_ifs with hmem
  · have hne : after.filter (fun n => n.uri = uri) ≠ [] := by
      obtain ⟨n, hn, huri⟩ := List.mem_map.mp hmem
      exact List.ne_nil_of_mem (List.mem_filter.mpr ⟨hn, by simpa using huri⟩)
    rw [List.filter_append, List.getLast?_append_of_ne_nil _ hne]
  · have hnil : after.filter (fun n => n.uri = uri) = [] := by
      refine List.filter_eq_nil_iff.mpr fun n hn huri => hmem ?_
      exact List.mem_map.mpr ⟨n, hn, of_decide_eq_true huri⟩
    rw [List.filter_append, hnil, List.append_nil]

theorem clientView_clearing (uris : List Bytes) : clientView (uris.map clearing) uri = [] := by
  unfold clientView
  cases hlast : ((uris.map clearing).filter fun n => n.uri = uri).getLast? with
  | none => rfl
  | some n =>
    have hmem := List.mem_of_mem_filter (List.mem_of_getLast? hlast)
    obtain ⟨u, -, rfl⟩ := List.mem_map.mp hmem
    rfl

theorem map_uri_clearing (uris : List Bytes) : (uris.map clearing).map Notification.uri = uris := by
  rw [List.map_map]
  exact List.map_id uris

theorem clientView_eq_nil {published : List Notification}
    (h : uri ∉ published.map Notification.uri) : clientView published uri = [] := by
  have hnil : published.filter (fun n => n.uri = uri) = [] := by
    refine List.filter_eq_nil_iff.mpr fun n hn huri => h ?_
    exact List.mem_map.mpr ⟨n, hn, of_decide_eq_true huri⟩
  rw [clientView, hnil]
  rfl

/-- What one round of notices with diagnostics shows. -/
theorem clientView_errorNotices (g : Setting P) (w : World) (s : Server P) (uri : Bytes) :
    clientView (errorNotices g w s.docs (aggregated g s)) uri = shown g w s uri := by
  have hfiles : ∀ files : List Bytes,
      ((files.filterMap fun file => (fileText g.names w s.docs file).map fun text =>
        (⟨uriForPath g.names s.docs file, text, positions (aggregated g s) file⟩ : Notification)).filter
          fun n => n.uri = uri).map Notification.diags =
      (files.filter fun file => (fileText g.names w s.docs file).isSome ∧
        uriForPath g.names s.docs file = uri).map (positions (aggregated g s)) := by
    intro files
    induction files with
    | nil => rfl
    | cons file files ih =>
      cases htext : fileText g.names w s.docs file with
      | none => simpa [htext] using ih
      | some text =>
        by_cases huri : uriForPath g.names s.docs file = uri
        · simpa [htext, huri] using ih
        · simpa [htext, huri] using ih
  rw [clientView, shown, errorNotices, ← List.getLast?_map, hfiles, List.getLast?_map]

/-- Notices with diagnostics, then clearing what was shown before and is not among them. -/
theorem clientView_cycle {before notices : List Notification} {uris : List Bytes}
    (hapart : uri ∈ uris → uri ∉ notices.map Notification.uri)
    (hcovered : clientView before uri ≠ [] → uri ∈ notices.map Notification.uri ∨ uri ∈ uris) :
    clientView (before ++ (notices ++ uris.map clearing)) uri = clientView notices uri := by
  rw [clientView_append, clientView_append, List.map_append, map_uri_clearing]
  by_cases hclear : uri ∈ uris
  · rw [if_pos (List.mem_append_right _ hclear), if_pos hclear, clientView_clearing]
    exact (clientView_eq_nil (hapart hclear)).symm
  · by_cases hnotice : uri ∈ notices.map Notification.uri
    · rw [if_pos (List.mem_append_left _ hnotice), if_neg hclear]
    · have hneither : uri ∉ notices.map Notification.uri ++ uris := by simp [hnotice, hclear]
      rw [if_neg hneither, clientView_eq_nil hnotice]
      by_contra hshown
      exact (hcovered hshown).elim hnotice hclear

/-- What is shown was published with diagnostics last time; without documents nothing is. -/
structure Cleared (s : Server P) : Prop where
  shown : ∀ uri, clientView s.published uri ≠ [] → uri ∈ s.pubUris
  closed : s.docs = [] → s.pubUris = []

theorem not_contains {uris : List Bytes} : (!uris.contains uri) = true ↔ uri ∉ uris := by simp

/-- A round of publishing leaves nothing of the rounds before it. -/
theorem clientView_publish (h : ∀ uri, clientView s.published uri ≠ [] → uri ∈ s.pubUris)
    (g : Setting P) (w : World) (uri : Bytes) :
    clientView (publishProjectDiagnostics g w s).published uri =
      clientView (errorNotices g w s.docs (aggregated g s)) uri := by
  refine clientView_cycle (fun hclear => ?_) fun hshown => ?_
  · rcases List.mem_append.mp hclear with hclear | hclear
    · exact not_contains.mp (List.mem_filter.mp hclear).2
    · exact not_contains.mp ((Bool.and_eq_true _ _).mp (List.mem_filter.mp hclear).2).1
  · by_cases hnow : uri ∈ (errorNotices g w s.docs (aggregated g s)).map Notification.uri
    · exact .inl hnow
    · refine .inr (List.mem_append.mpr ?_)
      by_cases hopen : uri ∈ s.docs.map LspDoc.uri
      · exact .inl (List.mem_filter.mpr ⟨hopen, not_contains.mpr hnow⟩)
      · have hgone := (Bool.and_eq_true _ _).mpr ⟨not_contains.mpr hnow, not_contains.mpr hopen⟩
        exact .inr (List.mem_filter.mpr ⟨h uri hshown, hgone⟩)

/-- What a flush publishes from. -/
theorem flushDirty_eq_publish (g : Setting P) (w : World) (h : s.docs.any LspDoc.dirty = true) :
    ∃ t : Server P, flushDirty g w s = publishProjectDiagnostics g w t ∧
      t.published = s.published ∧ t.pubUris = s.pubUris ∧ t.docs ≠ [] := by
  rw [flushDirty, if_pos h]
  refine ⟨_, rfl, rfl, rfl, fun hnil => ?_⟩
  have hdocs : s.docs = [] := by simpa [settled] using hnil
  simp [hdocs] at h

theorem Cleared.flushDirty (h : Cleared s) (g : Setting P) (w : World) :
    Cleared (flushDirty g w s) := by
  by_cases hdirty : s.docs.any LspDoc.dirty = true
  · obtain ⟨t, heq, hpublished, hpub, hdocs⟩ := flushDirty_eq_publish g w hdirty
    rw [heq]
    refine ⟨fun uri hshown => ?_, fun hnil => absurd hnil hdocs⟩
    rw [clientView_publish (by rw [hpublished, hpub]; exact h.shown)] at hshown
    by_contra hnot
    exact hshown (clientView_eq_nil hnot)
  · rw [Lsp.flushDirty, if_neg hdirty]
    exact h

theorem Cleared.handle (h : Cleared s) (g : Setting P) (w : World) (m : Method) :
    Cleared (handle g w s m) := by
  cases m with
  | didOpen uri text =>
    cases uri with
    | none => exact h
    | some uri =>
      cases text with
      | none => exact h
      | some text =>
        change Cleared (handleDidOpen g s uri text)
        unfold handleDidOpen
        split
        · exact ⟨h.shown, fun hnil => h.closed (by simpa using hnil)⟩
        · exact ⟨h.shown, fun hnil => by simp at hnil⟩
  | didChange uri changes =>
    cases uri with
    | none => exact h
    | some uri =>
      change Cleared (handleDidChange s uri changes)
      unfold handleDidChange
      split
      · exact ⟨h.shown, fun hnil => h.closed (by simpa using hnil)⟩
      · exact h
  | didClose uri =>
    cases uri with
    | none => exact h
    | some uri =>
      change Cleared (handleDidClose g w s uri)
      unfold handleDidClose
      split
      · exact h
      · rename_i i hi
        dsimp only
        split_ifs with hempty
        · refine ⟨fun uri' hshown => ?_, fun _ => rfl⟩
          have hnone : clientView (s.published ++ ([] ++ (s.pubUris ++ [uri.bytes]).map clearing))
              uri' = [] :=
            clientView_cycle (by simp)
              fun hshown => .inr (List.mem_append_left _ (h.shown uri' hshown))
          exact absurd hnone hshown
        · let docs := (swapRemove s.docs i).map fun d => { d with dirty := true }
          have hdocs : docs = [] → swapRemove s.docs i = [] := by simp [docs]
          have hmarked : Cleared { s with docs := docs } :=
            ⟨h.shown, fun hnil => absurd (hdocs hnil) (by simpa using hempty)⟩
          exact hmarked.flushDirty g w
  | query uri => exact h
  | shutdown => exact ⟨h.shown, h.closed⟩
  | exit => exact h
  | other => exact h

theorem serve_cleared (g : Setting P) (rounds : List Round) : Cleared (serve g rounds) := by
  suffices ∀ s : Server P, Cleared s → Cleared (rounds.foldl (round g) s) from
    this start ⟨by simp [start, clientView], fun _ => rfl⟩
  induction rounds with
  | nil => exact fun s h => h
  | cons r rounds ih =>
    refine fun s h => ih _ ?_
    have hmet : Cleared (answering g r.world s r.message) := by
      unfold answering
      split_ifs
      · exact h.flushDirty g r.world
      · exact h
    have hleft := hmet.handle g r.world r.message.method
    unfold round dispatch
    dsimp only
    split_ifs
    · exact hleft
    · exact hleft.flushDirty g r.later

theorem mem_dedup {d : AggDiag} (agg ds : List AggDiag) :
    d ∈ dedup agg ds ↔ d ∈ agg ∨ d ∈ ds := by
  induction ds generalizing agg with
  | nil => simp [dedup]
  | cons e ds ih =>
    rw [dedup]
    split_ifs with hmem
    · rw [ih, List.mem_cons]
      constructor
      · exact Or.imp_right .inr
      · rintro (h | rfl | h)
        · exact .inl h
        · exact .inl hmem
        · exact .inr h
    · rw [ih, List.mem_append, List.mem_singleton, List.mem_cons, or_assoc]

theorem nodup_dedup {agg : List AggDiag} (h : agg.Nodup) (ds : List AggDiag) :
    (dedup agg ds).Nodup := by
  induction ds generalizing agg with
  | nil => exact h
  | cons d ds ih =>
    rw [dedup]
    split_ifs with hmem
    · exact ih h
    · refine ih (List.nodup_append.mpr ⟨h, List.nodup_singleton d, ?_⟩)
      rintro a ha b hb rfl
      exact hmem (List.mem_singleton.mp hb ▸ ha)

theorem nodup_positions {agg : List AggDiag} (h : agg.Nodup) (file : Bytes) :
    (positions agg file).Nodup := by
  refine (h.filter _).map_on fun d hd e he heq => ?_
  have hd := of_decide_eq_true (List.mem_filter.mp hd).2
  have he := of_decide_eq_true (List.mem_filter.mp he).2
  obtain ⟨file, line, col, msg⟩ := d
  obtain ⟨file', line', col', msg'⟩ := e
  cases heq
  rw [show file = file' from hd.trans he.symm]

theorem mem_positions {agg : List AggDiag} {file msg : Bytes} {line col : ℤ} :
    (line, col, msg) ∈ positions agg file ↔ ⟨file, line, col, msg⟩ ∈ agg := by
  constructor
  · intro h
    obtain ⟨d, hd, heq⟩ := List.mem_map.mp h
    obtain ⟨hd, hfile⟩ := List.mem_filter.mp hd
    obtain ⟨file', line', col', msg'⟩ := d
    cases heq
    rwa [← of_decide_eq_true hfile]
  · exact fun h => List.mem_map.mpr ⟨_, List.mem_filter.mpr ⟨h, by simp⟩, rfl⟩

theorem erroredFiles_nil (files : List Bytes) : erroredFiles files [] = files := rfl

theorem erroredFiles_cons (files : List Bytes) (d : AggDiag) (ds : List AggDiag) :
    erroredFiles files (d :: ds) =
      if d.file ∈ files then erroredFiles files ds else erroredFiles (files ++ [d.file]) ds := rfl

theorem erroredFiles_append (files : List Bytes) (l l' : List AggDiag) :
    erroredFiles files (l ++ l') = erroredFiles (erroredFiles files l) l' := by
  induction l generalizing files with
  | nil => rfl
  | cons d l ih =>
    simp only [List.cons_append, erroredFiles_cons]
    split_ifs <;> exact ih _

theorem mem_erroredFiles {file : Bytes} (files : List Bytes) (l : List AggDiag) :
    file ∈ erroredFiles files l ↔ file ∈ files ∨ file ∈ l.map AggDiag.file := by
  induction l generalizing files with
  | nil => simp [erroredFiles_nil]
  | cons d l ih =>
    rw [erroredFiles_cons, List.map_cons, List.mem_cons]
    split_ifs with hd
    · rw [ih]
      refine or_congr_right' fun hnot => ⟨.inr, fun h => h.resolve_left ?_⟩
      rintro rfl
      exact hnot hd
    · rw [ih, List.mem_append, List.mem_singleton, or_assoc]

/-- Leaving out what is already there leaves the files in their order. -/
theorem erroredFiles_dedup (agg ds : List AggDiag) (files : List Bytes) :
    erroredFiles files (dedup agg ds) = erroredFiles (erroredFiles files agg) ds := by
  induction ds generalizing agg with
  | nil => rfl
  | cons d ds ih =>
    rw [dedup]
    split_ifs with hd
    · have hfile : d.file ∈ erroredFiles files agg :=
        (mem_erroredFiles files agg).mpr (.inr (List.mem_map_of_mem hd))
      rw [ih, erroredFiles_cons, if_pos hfile]
    · rw [ih, erroredFiles_append, ← erroredFiles_append _ [d], List.singleton_append]

/-- The files come in the order of their first diagnostics. -/
theorem erroredFiles_order (before ds : List AggDiag) (files : List Bytes)
    (hfiles : ∀ file, file ∈ files ↔ file ∈ before.map AggDiag.file)
    (horder : files.Pairwise fun a b => (before.map AggDiag.file).idxOf a <
      (before.map AggDiag.file).idxOf b) :
    (∀ file, file ∈ erroredFiles files ds ↔ file ∈ (before ++ ds).map AggDiag.file) ∧
      (erroredFiles files ds).Pairwise fun a b => ((before ++ ds).map AggDiag.file).idxOf a <
        ((before ++ ds).map AggDiag.file).idxOf b := by
  induction ds generalizing before files with
  | nil =>
    rw [erroredFiles_nil, List.append_nil]
    exact ⟨hfiles, horder⟩
  | cons d ds ih =>
    have hstep : before ++ d :: ds = (before ++ [d]) ++ ds := by simp
    -- what is there keeps its place when `d` comes behind it
    have hkeep : ∀ a ∈ files, ((before ++ [d]).map AggDiag.file).idxOf a =
        (before.map AggDiag.file).idxOf a := by
      intro a ha
      rw [List.map_append, List.idxOf_append_of_mem ((hfiles a).mp ha)]
    have hkept : files.Pairwise fun a b => ((before ++ [d]).map AggDiag.file).idxOf a <
        ((before ++ [d]).map AggDiag.file).idxOf b :=
      horder.imp_of_mem fun {a b} ha hb h => by rwa [hkeep a ha, hkeep b hb]
    rw [hstep, erroredFiles_cons]
    split_ifs with hd
    · refine ih (before ++ [d]) files (fun file => ?_) hkept
      rw [hfiles, List.map_append, List.mem_append]
      refine ⟨.inl, fun h => h.elim id fun h => ?_⟩
      rw [List.mem_singleton.mp h]
      exact (hfiles d.file).mp hd
    · refine ih (before ++ [d]) (files ++ [d.file]) (fun file => ?_) ?_
      · rw [List.mem_append, hfiles, List.map_append, List.mem_append]
        rfl
      · refine List.pairwise_append.mpr ⟨hkept, List.pairwise_singleton _ _, ?_⟩
        intro a ha b hb
        rw [List.mem_singleton.mp hb, hkeep a ha, List.map_append,
          List.idxOf_append_of_notMem fun h => hd ((hfiles d.file).mpr h)]
        exact lt_of_lt_of_le (List.idxOf_lt_length_of_mem ((hfiles a).mp ha)) (Nat.le_add_right _ _)

/-- A unit reports the diagnostic: its analysis has it, of a file that is no other unit's to
report, and of the standard library only of a file that is open. -/
def Reports (g : Setting P) (s : Server P) (d : AggDiag) : Prop :=
  ∃ u ∈ s.units, ∃ r, u.result = some r ∧
    (∃ x ∈ r.diags, d = ⟨x.file.getD r.filename, x.line, x.col, x.message⟩) ∧
    g.names.canonPath d.file ∉ u.notReported ∧
    ((∃ e ∈ s.docs, e.path = d.file ∨ e.real = g.names.canonPath d.file) ∨
      ∀ f ∈ g.stdlib, f.filename ≠ d.file)

/-- A file with this URI that some unit has diagnostics for and whose text there is. -/
def Shown (g : Setting P) (w : World) (s : Server P) (uri file : Bytes) : Prop :=
  (∃ line col msg, Reports g s ⟨file, line, col, msg⟩) ∧
    uriForPath g.names s.docs file = uri ∧ (fileText g.names w s.docs file).isSome = true

/-- The diagnostics of the file come first behind so many of the units' diagnostics. -/
def firstOf (g : Setting P) (s : Server P) (file : Bytes) : ℕ :=
  ((s.units.flatMap (unitDiags s g)).map AggDiag.file).idxOf file

/-- What the editor is to show for a URI: each diagnostic of the file that comes last of those
with the URI, once, and nothing if there is none. -/
def IsViewOf (g : Setting P) (w : World) (s : Server P) (uri : Bytes)
    (view : List (ℤ × ℤ × Bytes)) : Prop :=
  (view = [] ∧ ∀ file, ¬Shown g w s uri file) ∨
    ∃ file, Shown g w s uri file ∧
      (∀ other, Shown g w s uri other → firstOf g s other ≤ firstOf g s file) ∧
      view.Nodup ∧ ∀ line col msg, (line, col, msg) ∈ view ↔ Reports g s ⟨file, line, col, msg⟩

theorem storeFindByPath_isSome {n : Names} {docs : List LspDoc} {path : Bytes} :
    (storeFindByPath n docs path).isSome = true ↔
      ∃ e ∈ docs, e.path = path ∨ e.real = n.canonPath path := by
  simp only [storeFindByPath, Option.orElse_eq_orElse, Option.orElse_eq_or, Option.isSome_or,
    Bool.or_eq_true, List.findIdx?_isSome, List.any_eq_true, decide_eq_true_eq]
  constructor
  · rintro (⟨e, he, h⟩ | ⟨e, he, h⟩)
    · exact ⟨e, he, .inl h⟩
    · exact ⟨e, he, .inr h⟩
  · rintro ⟨e, he, h | h⟩
    · exact .inl ⟨e, he, h⟩
    · exact .inr ⟨e, he, h⟩

theorem reports_iff {d : AggDiag} :
    Reports g s d ↔ d ∈ s.units.flatMap (unitDiags s g) := by
  rw [List.mem_flatMap]
  refine exists_congr fun u => and_congr_right fun _ => ?_
  unfold unitDiags
  cases u.result with
  | none => simp
  | some r =>
    simp only [Option.some.injEq, exists_eq_left', List.mem_filter, List.mem_map, reported,
      ← storeFindByPath_isSome, decide_eq_true_eq, List.contains_iff_mem]
    refine and_congr_left fun _ => exists_congr fun x => and_congr_right fun _ => eq_comm

theorem mem_aggregated {d : AggDiag} : d ∈ aggregated g s ↔ Reports g s d := by
  rw [aggregated, mem_dedup, reports_iff]
  simp

/-- The files of one round of notices, in their order. -/
theorem shownFiles_spec (g : Setting P) (s : Server P) :
    (∀ file, file ∈ erroredFiles [] (aggregated g s) ↔
      ∃ line col msg, Reports g s ⟨file, line, col, msg⟩) ∧
    (erroredFiles [] (aggregated g s)).Pairwise fun a b => firstOf g s a < firstOf g s b := by
  obtain ⟨hmem, horder⟩ := erroredFiles_order [] (s.units.flatMap (unitDiags s g)) [] (by simp)
    List.Pairwise.nil
  rw [aggregated, erroredFiles_dedup]
  refine ⟨fun file => (hmem file).trans ?_, horder⟩
  simp only [List.nil_append, List.mem_map, ← reports_iff]
  constructor
  · rintro ⟨⟨file, line, col, msg⟩, hd, rfl⟩
    exact ⟨line, col, msg, hd⟩
  · rintro ⟨line, col, msg, hd⟩
    exact ⟨_, hd, rfl⟩

theorem isViewOf_shown (g : Setting P) (w : World) (s : Server P) (uri : Bytes) :
    IsViewOf g w s uri (shown g w s uri) := by
  obtain ⟨hfiles, horder⟩ := shownFiles_spec g s
  have hmem : ∀ file, file ∈ ((erroredFiles [] (aggregated g s)).filter fun file =>
      (fileText g.names w s.docs file).isSome ∧ uriForPath g.names s.docs file = uri) ↔
      Shown g w s uri file := by
    intro file
    rw [List.mem_filter, hfiles, Shown, decide_eq_true_eq]
    exact and_congr_right fun _ => and_comm
  unfold shown
  dsimp only
  cases hlast : ((erroredFiles [] (aggregated g s)).filter fun file =>
      (fileText g.names w s.docs file).isSome ∧ uriForPath g.names s.docs file = uri).getLast? with
  | none =>
    refine .inl ⟨rfl, fun file hshown => ?_⟩
    rw [List.getLast?_eq_none_iff.mp hlast] at hmem
    exact List.not_mem_nil ((hmem file).mpr hshown)
  | some file =>
    refine .inr ⟨file, (hmem file).mp (List.mem_of_getLast? hlast), fun other hother => ?_,
      nodup_positions (nodup_dedup List.nodup_nil _) file,
      fun line col msg => mem_positions.trans mem_aggregated⟩
    obtain ⟨front, hfront⟩ := List.getLast?_eq_some_iff.mp hlast
    have hsorted := horder.filter fun file =>
      (fileText g.names w s.docs file).isSome ∧ uriForPath g.names s.docs file = uri
    rw [hfront] at hsorted hmem
    obtain hother | hother := List.mem_append.mp ((hmem other).mpr hother)
    · exact ((List.pairwise_append.mp hsorted).2.2 other hother file
        (List.mem_singleton_self _)).le
    · rw [List.mem_singleton.mp hother]

/-- Whatever messages came before and however they were timed: when documents have changed, a
flush leaves the editor with exactly the diagnostics of the units as they are then, and without
an open document the editor shows nothing. -/
theorem editor_shows_exactly (g : Setting P) (rounds : List Round) :
    ((serve g rounds).docs = [] → ∀ uri, clientView (serve g rounds).published uri = []) ∧
      ∀ w, (serve g rounds).docs.any LspDoc.dirty = true →
        ∀ uri, IsViewOf g w (flushDirty g w (serve g rounds)) uri
          (clientView (flushDirty g w (serve g rounds)).published uri) := by
  have hcleared := serve_cleared g rounds
  refine ⟨fun hnil uri => ?_, fun w hdirty uri => ?_⟩
  · by_contra hshown
    have := hcleared.shown uri hshown
    rw [hcleared.closed hnil] at this
    cases this
  · obtain ⟨t, heq, hpublished, hpub, -⟩ := flushDirty_eq_publish g w hdirty
    rw [heq, clientView_publish (by rw [hpublished, hpub]; exact hcleared.shown),
      clientView_errorNotices]
    exact isViewOf_shown g w t uri

/-- The diagnostic that the analysis has twice is shown once. -/
theorem editor_shows_exactly_editing :
    IsViewOf plainSetting noFiles (flushDirty plainSetting noFiles (serve plainSetting editing))
      docUri.bytes [(1, 5, ascii "unused")] := by
  have hview : clientView (flushDirty plainSetting noFiles (serve plainSetting editing)).published
      docUri.bytes = [(1, 5, ascii "unused")] := by decide +kernel
  rw [← hview]
  exact (editor_shows_exactly plainSetting editing).2 noFiles (by decide) docUri.bytes

end FcLang.Lsp
