import FcLang.Lsp.Server

/-!
# What a flush does

A flush analyzes the units of the changed documents, and the units that list them
as a source. Behind it no unit has an older text of a document that is open.
-/

namespace FcLang.Lsp
open Args (CString)

variable {P : Type} {g : Setting P} {w : World} {docs docs' : List LspDoc} {d : LspDoc} {i j : ℕ}
  {path : Bytes}

theorem Names.canonPath_canonPath (n : Names) (path : Bytes) :
    n.canonPath (n.canonPath path) = n.canonPath path := by
  unfold Names.canonPath
  cases h : n.realpath path with
  | none => simp [h]
  | some real => simp [n.resolved path real h]

section
variable {α : Type} {l : List α} {p : α → Bool}

theorem findIdx?_spec (h : l.findIdx? p = some i) :
    ∃ a, l[i]? = some a ∧ p a = true ∧ ∀ j < i, ∀ b, l[j]? = some b → p b = false := by
  obtain ⟨hi, hp, hleast⟩ := List.findIdx?_eq_some_iff_getElem.mp h
  refine ⟨l[i], List.getElem?_eq_getElem hi, hp, fun j hj b hb => ?_⟩
  obtain ⟨hlt, rfl⟩ := List.getElem?_eq_some_iff.mp hb
  simpa using hleast j hj

theorem findIdx?_le {a : α} (h : l.findIdx? p = some i) (ha : l[j]? = some a) (hp : p a = true) :
    i ≤ j := by
  obtain ⟨-, -, -, hleast⟩ := findIdx?_spec h
  by_contra hlt
  simp [hleast j (Nat.lt_of_not_le hlt) a ha] at hp

theorem map_modify {β : Type} {key : α → β} {f : α → α} (hf : ∀ a, key (f a) = key a) (i : ℕ) :
    (l.modify i f).map key = l.map key := by
  apply List.ext_getElem?
  intro k
  rw [List.getElem?_map, List.getElem?_map]
  by_cases hik : i = k
  · subst hik
    rw [List.getElem?_modify_eq]
    cases l[i]? with
    | none => rfl
    | some a => exact congrArg some (hf a)
  · rw [List.getElem?_modify_ne _ _ hik]

/-- An entry that its key tells from the others is changed, and no other. -/
theorem mem_modify {β : Type} {key : α → β} {f : α → α} {a b : α} (h : (l.map key).Nodup)
    (ha : l[i]? = some a) : b ∈ l.modify i f ↔ b = f a ∨ b ∈ l ∧ key b ≠ key a := by
  constructor
  · intro hb
    obtain ⟨k, hk⟩ := List.mem_iff_getElem?.mp hb
    by_cases hik : i = k
    · subst hik
      rw [List.getElem?_modify_eq, ha] at hk
      exact .inl (Option.some.inj hk).symm
    · rw [List.getElem?_modify_ne _ _ hik] at hk
      refine .inr ⟨List.mem_of_getElem? hk, fun heq => hik ?_⟩
      have hlt : i < (l.map key).length := by
        simpa using (List.getElem?_eq_some_iff.mp ha).1
      exact (List.getElem?_inj hlt h).mp (by simp [ha, hk, heq])
  · rintro (rfl | ⟨hb, hne⟩)
    · refine List.mem_of_getElem? (i := i) ?_
      rw [List.getElem?_modify_eq, ha]
      rfl
    · obtain ⟨k, hk⟩ := List.mem_iff_getElem?.mp hb
      refine List.mem_of_getElem? (i := k) ?_
      rw [List.getElem?_modify_ne _ _ ?_, hk]
      rintro rfl
      cases ha.symm.trans hk
      exact hne rfl

theorem exists_findIdx? {a : α} (ha : l[j]? = some a) (hp : p a = true) :
    ∃ i, l.findIdx? p = some i :=
  ⟨_, List.findIdx?_eq_some_of_exists ⟨a, List.mem_of_getElem? ha, hp⟩⟩

end

/-- The canonical paths that documents keep are those of their paths. -/
def Canonical (n : Names) (docs : List LspDoc) : Prop := ∀ d ∈ docs, d.real = n.canonPath d.path

variable {n : Names}

theorem storeFindByPath_cases (h : storeFindByPath n docs path = some j) :
    docs.findIdx? (fun d => d.path = path) = some j ∨
      docs.findIdx? (fun d => d.path = path) = none ∧
        docs.findIdx? (fun d => d.real = n.canonPath path) = some j := by
  unfold storeFindByPath at h
  cases hexact : docs.findIdx? (fun d => d.path = path) with
  | none => exact .inr ⟨rfl, by simpa [hexact] using h⟩
  | some k => exact .inl (by simpa [hexact] using h)

theorem getElem?_of_storeFindByPath (h : storeFindByPath n docs path = some j) :
    ∃ d, docs[j]? = some d := by
  rcases storeFindByPath_cases h with h | ⟨-, h⟩
  all_goals
    obtain ⟨d, hd, -⟩ := findIdx?_spec h
    exact ⟨d, hd⟩

theorem storeFindByPath_of_path (hd : docs[j]? = some d) (hpath : d.path = path) :
    ∃ i, storeFindByPath n docs path = some i ∧
      docs.findIdx? (fun d => d.path = path) = some i := by
  obtain ⟨i, hi⟩ := exists_findIdx? (p := fun d : LspDoc => d.path = path) hd (by simpa using hpath)
  exact ⟨i, by simp [storeFindByPath, hi], hi⟩

/-- A document with the canonical path is found, or one with the very path is. -/
theorem exists_storeFindByPath (hd : docs[j]? = some d) (hreal : d.real = n.canonPath path) :
    ∃ i, storeFindByPath n docs path = some i := by
  unfold storeFindByPath
  cases docs.findIdx? (fun d => d.path = path) with
  | some k => exact ⟨k, rfl⟩
  | none =>
    exact exists_findIdx? (p := fun d : LspDoc => d.real = n.canonPath path) hd (by simpa using hreal)

/-- A document found under a path has that canonical path. -/
theorem real_of_storeFindByPath (hreal : Canonical n docs)
    (h : storeFindByPath n docs path = some j) (hd : docs[j]? = some d) :
    d.real = n.canonPath path := by
  rcases storeFindByPath_cases h with h | ⟨-, h⟩
  all_goals
    obtain ⟨a, ha, hp, -⟩ := findIdx?_spec h
    cases ha.symm.trans hd
  · rw [hreal d (List.mem_of_getElem? hd), of_decide_eq_true hp]
  · exact of_decide_eq_true hp

/-- What is found under some path is found under its own. -/
theorem storeFindByPath_self (hreal : Canonical n docs)
    (h : storeFindByPath n docs path = some j) (hd : docs[j]? = some d) :
    storeFindByPath n docs d.path = some j := by
  rcases storeFindByPath_cases h with hexact | ⟨-, hcanon⟩
  · obtain ⟨a, ha, hp, -⟩ := findIdx?_spec hexact
    cases ha.symm.trans hd
    rwa [of_decide_eq_true hp]
  · obtain ⟨i, hi, hfirst⟩ := storeFindByPath_of_path (n := n) hd rfl
    obtain ⟨a, ha, hp, -⟩ := findIdx?_spec hfirst
    have hij : i ≤ j := findIdx?_le hfirst hd (by simp)
    have hji : j ≤ i := by
      refine findIdx?_le hcanon ha (decide_eq_true ?_)
      rw [hreal a (List.mem_of_getElem? ha), of_decide_eq_true hp,
        ← hreal d (List.mem_of_getElem? hd), real_of_storeFindByPath hreal h hd]
    rwa [Nat.le_antisymm hij hji] at hi

/-- The names alone decide what is found. -/
theorem storeFindByPath_congr (hpath : docs'.map LspDoc.path = docs.map LspDoc.path)
    (hreal : docs'.map LspDoc.real = docs.map LspDoc.real) (path : Bytes) :
    storeFindByPath n docs' path = storeFindByPath n docs path := by
  have hexact : ∀ docs : List LspDoc, docs.findIdx? (fun d => d.path = path) =
      (docs.map LspDoc.path).findIdx? fun q => q = path := by
    intro docs
    rw [List.findIdx?_map]
    rfl
  have hcanon : ∀ docs : List LspDoc, docs.findIdx? (fun d => d.real = n.canonPath path) =
      (docs.map LspDoc.real).findIdx? fun q => q = n.canonPath path := by
    intro docs
    rw [List.findIdx?_map]
    rfl
  rw [storeFindByPath, storeFindByPath, hexact, hexact docs, hcanon, hcanon docs, hpath, hreal]

def AnalysisInput.sources (input : AnalysisInput) : List Source := input.primary :: input.extra

/-- `a` is the analysis of `input`; the server adds diagnostics of its own. -/
def Analysis.Of (g : Setting P) (a : Analysis P) (input : AnalysisInput) : Prop :=
  a.filename = input.primary.filename ∧ a.program = (g.analyze input).1 ∧
    a.typed = (g.analyze input).2.1 ∧ (g.analyze input).2.2 <+: a.diags

/-- The document that is open under the name of a source has its text. The standard library is
what was read when the session began. -/
def Current (g : Setting P) (docs : List LspDoc) (s : Source) : Prop :=
  s ∈ g.stdlib ∨ ∀ i d, storeFindByPath g.names docs s.filename = some i → docs[i]? = some d →
    d.text = s.text

/-- The same, of the documents that have not changed since. -/
def Accounted (g : Setting P) (docs : List LspDoc) (s : Source) : Prop :=
  s ∈ g.stdlib ∨ ∀ i d, storeFindByPath g.names docs s.filename = some i → docs[i]? = some d →
    d.dirty = true ∨ d.text = s.text

/-- A unit has an analysis, and lists the sources that went into it. -/
def Analyzed (g : Setting P) (u : UnitEntry P) (supplied : Source → Prop) : Prop :=
  ∃ input a, u.result = some a ∧ a.Of g input ∧
    u.files = (input.sources.map Source.filename).map g.names.canonPath ∧
    ∀ s ∈ input.sources, supplied s

theorem openedElse_eq_some (h : openedElse n docs i path = some d) :
    ∃ j, storeFindByPath n docs path = some j ∧ docs[j]? = some d := by
  unfold openedElse at h
  split at h
  · cases h
  · rename_i j hj
    split_ifs at h
    exact ⟨j, hj, h⟩

theorem openedElse_eq_none (h : openedElse n docs i path = none)
    (hj : storeFindByPath n docs path = some j) (hd : docs[j]? = some d) : j = i := by
  unfold openedElse at h
  rw [hj] at h
  by_contra hne
  simp [hne, hd] at h

/-- The live text of a document, or a file that no document is open for. -/
theorem current_addMemberSource {opened : Option LspDoc} (hreal : Canonical g.names docs)
    (hopen : ∀ d, opened = some d → ∃ path j, storeFindByPath g.names docs path = some j ∧
      docs[j]? = some d)
    (hdisk : opened = none → storeFindByPath g.names docs path = none) :
    ∀ s ∈ addMemberSource w opened path, Current g docs s := by
  intro s hs
  cases hopened : opened with
  | some d =>
    rw [hopened] at hs
    rw [List.mem_singleton.mp hs]
    obtain ⟨p, j, hj, hd⟩ := hopen d hopened
    refine .inr fun i d' hi hd' => ?_
    have hself := storeFindByPath_self hreal hj hd
    cases hself.symm.trans hi
    cases hd.symm.trans hd'
    rfl
  | none =>
    rw [hopened, addMemberSource] at hs
    cases hread : w.readFile path with
    | none => simp [hread] at hs
    | some text =>
      simp only [hread, List.mem_singleton] at hs
      subst hs
      refine .inr fun i d' hi _ => ?_
      rw [hdisk hopened] at hi
      cases hi

theorem current_rspSources (hreal : Canonical g.names docs) (hd : docs[i]? = some d)
    (inputs : List Bytes) : ∀ s ∈ rspSources g.names w docs i d inputs, Current g docs s := by
  intro s hs
  obtain ⟨input, -, hs⟩ := List.mem_flatMap.mp hs
  split_ifs at hs with hself
  · cases hs
  refine current_addMemberSource hreal (fun d hd => ⟨_, openedElse_eq_some hd⟩) (fun hnone => ?_) s hs
  -- a document under the input's name is found under its canonical path too, and is not `d`
  by_contra hfound
  obtain ⟨j, hj⟩ := Option.ne_none_iff_exists'.mp hfound
  obtain ⟨dj, hdj⟩ := getElem?_of_storeFindByPath hj
  have hname := real_of_storeFindByPath hreal hj hdj
  rw [← g.names.canonPath_canonPath] at hname
  obtain ⟨k, hk⟩ := exists_storeFindByPath hdj hname
  obtain ⟨dk, hdk⟩ := getElem?_of_storeFindByPath hk
  cases openedElse_eq_none hnone hk hdk
  cases hd.symm.trans hdk
  have hdreal := real_of_storeFindByPath hreal hk hdk
  rw [hreal d (List.mem_of_getElem? hd), g.names.canonPath_canonPath] at hdreal
  exact hself hdreal

theorem current_siblingSources (hreal : Canonical g.names docs) :
    ∀ s ∈ siblingSources g.names w docs i d, Current g docs s := by
  intro s hs
  obtain ⟨sib, -, hs⟩ := List.mem_flatMap.mp hs
  split_ifs at hs with hself
  · cases hs
  refine current_addMemberSource hreal (fun d hd => ⟨_, openedElse_eq_some hd⟩) (fun hnone => ?_) s hs
  by_contra hfound
  obtain ⟨j, hj⟩ := Option.ne_none_iff_exists'.mp hfound
  obtain ⟨dj, hdj⟩ := getElem?_of_storeFindByPath hj
  rw [openedElse_eq_none hnone hj hdj] at hj
  exact hself hj

theorem current_heuristic (hreal : Canonical g.names docs) (rspErr : Option Bytes) :
    ∀ s ∈ (gatherHeuristicSources g w docs i d rspErr).extra, Current g docs s := by
  intro s hs
  rcases List.mem_append.mp hs with hs | hs
  · exact current_siblingSources hreal s hs
  · exact .inl (List.mem_of_mem_filter hs)

theorem current_gatherSources (hreal : Canonical g.names docs) (hd : docs[i]? = some d)
    (key : UnitKey) : ∀ s ∈ (gatherSources g w docs key i d).extra, Current g docs s := by
  unfold gatherSources
  split_ifs
  · exact current_heuristic hreal none
  · split
    · exact current_heuristic hreal none
    · split
      · exact current_rspSources hreal hd _
      · exact current_heuristic hreal _

/-- The first document of a unit is the one its path names. -/
theorem current_primary (hkey : ∀ d ∈ docs, d.unitKey = some (unitKey g.names w d.path))
    {key : UnitKey} (hi : primaryDocFor docs key = some i) (hd : docs[i]? = some d) :
    Current g docs ⟨d.path, d.text⟩ := by
  refine .inr fun j d' hj hd' => ?_
  obtain ⟨k, hk, hexact⟩ := storeFindByPath_of_path (n := g.names) hd rfl
  cases hj.symm.trans hk
  obtain ⟨a, ha, hp, -⟩ := findIdx?_spec hexact
  cases hd'.symm.trans ha
  have hji : j ≤ i := findIdx?_le hexact hd (by simp)
  obtain ⟨a, ha', hkeyed, -⟩ := findIdx?_spec hi
  cases hd.symm.trans ha'
  have hij : i ≤ j := by
    refine findIdx?_le hi hd' (decide_eq_true ?_)
    rw [hkey d' (List.mem_of_getElem? hd'), of_decide_eq_true hp,
      ← hkey d (List.mem_of_getElem? hd), of_decide_eq_true hkeyed]
  cases Nat.le_antisymm hij hji
  cases hd.symm.trans hd'
  rfl

theorem analyzed_analyzeUnit (hreal : Canonical g.names docs)
    (hkey : ∀ d ∈ docs, d.unitKey = some (unitKey g.names w d.path)) {u : UnitEntry P}
    (hi : primaryDocFor docs u.key = some i) (hd : docs[i]? = some d) :
    Analyzed g (analyzeUnit g w docs u i d) (Current g docs) := by
  refine ⟨_, _, rfl, ⟨rfl, rfl, rfl, List.prefix_append _ _⟩, rfl, fun s hs => ?_⟩
  rcases List.mem_cons.mp hs with rfl | hs
  · exact current_primary hkey hi hd
  · exact current_gatherSources hreal hd u.key s hs

section
variable {units : List (UnitEntry P)} {f : Flushing P} {u : UnitEntry P} {key : UnitKey}

theorem reanalyze_key (g : Setting P) (w : World) (docs : List LspDoc) (u : UnitEntry P) :
    (reanalyze g w docs u).key = u.key := by
  unfold reanalyze
  split
  · rfl
  · split <;> rfl

theorem analyzed_reanalyze (hreal : Canonical g.names docs)
    (hkey : ∀ d ∈ docs, d.unitKey = some (unitKey g.names w d.path))
    (hu : primaryDocFor docs u.key ≠ none) :
    Analyzed g (reanalyze g w docs u) (Current g docs) := by
  obtain ⟨i, hi⟩ := Option.ne_none_iff_exists'.mp hu
  obtain ⟨d, hd, -⟩ := findIdx?_spec hi
  unfold reanalyze
  simp only [hi, hd]
  exact analyzed_analyzeUnit hreal hkey hi hd

theorem primaryDocFor_ne_none (hd : d ∈ docs) (hkey : d.unitKey = some key) :
    primaryDocFor docs key ≠ none := by
  obtain ⟨i, hi⟩ := List.mem_iff_getElem?.mp hd
  obtain ⟨j, hj⟩ := exists_findIdx? (p := fun d : LspDoc => d.unitKey = some key) hi (by simpa using hkey)
  simp [primaryDocFor, hj]

/-- What a part of a flush has done to the units. -/
structure Flushed (g : Setting P) (docs : List LspDoc) (units : List (UnitEntry P))
    (f : Flushing P) : Prop where
  keys : (f.units.map UnitEntry.key).Nodup
  once : f.analyzed.Nodup
  analyzed : ∀ u ∈ f.units, u.key ∈ f.analyzed → Analyzed g u (Current g docs)
  kept : ∀ u ∈ f.units, u.key ∉ f.analyzed → u ∈ units
  present : ∀ key, key ∈ f.analyzed ∨ key ∈ units.map UnitEntry.key →
    key ∈ f.units.map UnitEntry.key

theorem flushed_start (h : (units.map UnitEntry.key).Nodup) : Flushed g docs units ⟨units, []⟩ where
  keys := h
  once := List.nodup_nil
  analyzed := by simp
  kept := fun u hu _ => hu
  present := by simp

/-- A unit is analyzed in its place. -/
theorem Flushed.modify (h : Flushed g docs units f) (hreal : Canonical g.names docs)
    (hkey : ∀ d ∈ docs, d.unitKey = some (unitKey g.names w d.path)) (hu : f.units[i]? = some u)
    (hnew : u.key ∉ f.analyzed) (hprimary : primaryDocFor docs u.key ≠ none) :
    Flushed g docs units ⟨f.units.modify i (reanalyze g w docs), f.analyzed ++ [u.key]⟩ := by
  have hcases := fun v => mem_modify (f := reanalyze g w docs) (b := v) h.keys hu
  constructor
  · exact (map_modify (reanalyze_key g w docs) i).symm ▸ h.keys
  · exact List.nodup_append.mpr ⟨h.once, List.nodup_singleton _, by
      rintro a ha b hb rfl
      exact hnew (List.mem_singleton.mp hb ▸ ha)⟩
  · intro v hv hmem
    rcases (hcases v).mp hv with rfl | ⟨hv, hne⟩
    · exact analyzed_reanalyze hreal hkey hprimary
    · refine h.analyzed v hv ((List.mem_append.mp hmem).resolve_right ?_)
      simpa using hne
  · intro v hv hmem
    rcases (hcases v).mp hv with rfl | ⟨hv, -⟩
    · simp [reanalyze_key] at hmem
    · exact h.kept v hv fun hin => hmem (List.mem_append_left _ hin)
  · intro k hk
    rw [map_modify (reanalyze_key g w docs)]
    rcases hk with hk | hk
    · rcases List.mem_append.mp hk with hk | hk
      · exact h.present k (.inl hk)
      · rw [List.mem_singleton.mp hk]
        exact List.mem_map_of_mem (List.mem_of_getElem? hu)
    · exact h.present k (.inr hk)

/-- A unit is made and analyzed. -/
theorem Flushed.append (h : Flushed g docs units f) (hreal : Canonical g.names docs)
    (hkey : ∀ d ∈ docs, d.unitKey = some (unitKey g.names w d.path))
    (hnone : unitFind f.units key = none) (hprimary : primaryDocFor docs key ≠ none) :
    Flushed g docs units
      ⟨f.units ++ [reanalyze g w docs ⟨key, [], [], none, none⟩], f.analyzed ++ [key]⟩ := by
  have hfresh : key ∉ f.units.map UnitEntry.key := by
    intro hmem
    obtain ⟨u, hu, rfl⟩ := List.mem_map.mp hmem
    simpa using List.findIdx?_eq_none_iff.mp hnone u hu
  have hnew : key ∉ f.analyzed := fun hmem => hfresh (h.present key (.inl hmem))
  constructor
  · simp only [List.map_append, List.map_cons, List.map_nil, reanalyze_key]
    refine List.nodup_append.mpr ⟨h.keys, List.nodup_singleton _, ?_⟩
    rintro a ha b hb rfl
    exact hfresh (List.mem_singleton.mp hb ▸ ha)
  · refine List.nodup_append.mpr ⟨h.once, List.nodup_singleton _, ?_⟩
    rintro a ha b hb rfl
    exact hnew (List.mem_singleton.mp hb ▸ ha)
  · intro v hv hmem
    rcases List.mem_append.mp hv with hv | hv
    · refine h.analyzed v hv ((List.mem_append.mp hmem).resolve_right fun hkeyed => ?_)
      exact hfresh (List.mem_singleton.mp hkeyed ▸ List.mem_map_of_mem hv)
    · rw [List.mem_singleton.mp hv]
      exact analyzed_reanalyze hreal hkey hprimary
  · intro v hv hmem
    rcases List.mem_append.mp hv with hv | hv
    · exact h.kept v hv fun hin => hmem (List.mem_append_left _ hin)
    · rw [List.mem_singleton.mp hv, reanalyze_key] at hmem
      simp at hmem
  · intro k hk
    simp only [List.map_append, List.map_cons, List.map_nil, reanalyze_key, List.mem_append]
    rcases hk with hk | hk
    · exact (List.mem_append.mp hk).imp (fun hk => h.present k (.inl hk)) id
    · exact .inl (h.present k (.inr hk))

theorem Flushed.analyzeKey (h : Flushed g docs units f) (hreal : Canonical g.names docs)
    (hkey : ∀ d ∈ docs, d.unitKey = some (unitKey g.names w d.path)) (hnew : key ∉ f.analyzed)
    (hprimary : primaryDocFor docs key ≠ none) :
    Flushed g docs units (f.analyzeKey g w docs key) ∧
      (f.analyzeKey g w docs key).analyzed = f.analyzed ++ [key] := by
  unfold Flushing.analyzeKey
  split
  · rename_i i hi
    obtain ⟨u, hu, hp, -⟩ := findIdx?_spec hi
    have hukey : u.key = key := of_decide_eq_true hp
    subst hukey
    exact ⟨h.modify hreal hkey hu hnew hprimary, rfl⟩
  · rename_i hnone
    exact ⟨h.append hreal hkey hnone hprimary, rfl⟩

/-- After the first loop the units of all changed documents are analyzed. -/
theorem Flushed.analyzeDocs (ds : List LspDoc) (hds : ∀ d ∈ ds, d ∈ docs)
    (h : Flushed g docs units f) (hreal : Canonical g.names docs)
    (hkey : ∀ d ∈ docs, d.unitKey = some (unitKey g.names w d.path)) :
    Flushed g docs units (f.analyzeDocs g w docs ds) ∧
      f.analyzed ⊆ (f.analyzeDocs g w docs ds).analyzed ∧
      ∀ d ∈ ds, d.dirty = true →
        unitKey g.names w d.path ∈ (f.analyzeDocs g w docs ds).analyzed := by
  induction ds generalizing f with
  | nil => exact ⟨h, List.Subset.refl _, by simp⟩
  | cons d ds ih =>
    have hd := hds d List.mem_cons_self
    have hrest := fun e he => hds e (List.mem_cons_of_mem d he)
    rw [Flushing.analyzeDocs, hkey d hd]
    cases hdirty : d.dirty with
    | false =>
      obtain ⟨hflushed, hsub, hall⟩ := ih hrest h
      refine ⟨hflushed, hsub, fun e he hedirty => ?_⟩
      rcases List.mem_cons.mp he with rfl | he
      · rw [hdirty] at hedirty
        cases hedirty
      · exact hall e he hedirty
    | true =>
      dsimp only
      split_ifs with hmem
      · obtain ⟨hflushed, hsub, hall⟩ := ih hrest h
        refine ⟨hflushed, hsub, fun e he hedirty => ?_⟩
        rcases List.mem_cons.mp he with rfl | he
        · exact hsub hmem
        · exact hall e he hedirty
      · obtain ⟨hstep, hanalyzed⟩ :=
          h.analyzeKey hreal hkey hmem (primaryDocFor_ne_none hd (hkey d hd))
        obtain ⟨hflushed, hsub, hall⟩ := ih hrest hstep
        rw [hanalyzed] at hsub
        refine ⟨hflushed, fun k hk => hsub (List.mem_append_left _ hk), fun e he hedirty => ?_⟩
        rcases List.mem_cons.mp he with rfl | he
        · exact hsub (List.mem_append_right _ (List.mem_singleton_self _))
        · exact hall e he hedirty

/-- Nothing is left to do for a unit. -/
def UpToDate (docs : List LspDoc) (f : Flushing P) (i : ℕ) : Prop :=
  ∀ u, f.units[i]? = some u →
    u.key ∈ f.analyzed ∨ touched docs u = false ∨ primaryDocFor docs u.key = none

/-- After the second loop so are the units that list a changed document. -/
theorem Flushed.analyzeTouched (is : List ℕ) (h : Flushed g docs units f)
    (hreal : Canonical g.names docs)
    (hkey : ∀ d ∈ docs, d.unitKey = some (unitKey g.names w d.path)) :
    Flushed g docs units (f.analyzeTouched g w docs is) ∧
      f.analyzed ⊆ (f.analyzeTouched g w docs is).analyzed ∧
      (f.analyzeTouched g w docs is).units.length = f.units.length ∧
      ∀ i, i ∈ is ∨ UpToDate docs f i → UpToDate docs (f.analyzeTouched g w docs is) i := by
  induction is generalizing f with
  | nil => exact ⟨h, List.Subset.refl _, rfl, by simp [Flushing.analyzeTouched]⟩
  | cons k is ih =>
    have hskip : UpToDate docs f k →
        Flushed g docs units (f.analyzeTouched g w docs is) ∧
          f.analyzed ⊆ (f.analyzeTouched g w docs is).analyzed ∧
          (f.analyzeTouched g w docs is).units.length = f.units.length ∧
          ∀ i, i ∈ k :: is ∨ UpToDate docs f i → UpToDate docs (f.analyzeTouched g w docs is) i := by
      intro hk
      obtain ⟨hflushed, hsub, hlength, hall⟩ := ih h
      refine ⟨hflushed, hsub, hlength, fun i hi => hall i ?_⟩
      rcases hi with hi | hi
      · exact (List.mem_cons.mp hi).elim (fun hi => .inr (hi ▸ hk)) .inl
      · exact .inr hi
    rw [Flushing.analyzeTouched]
    split
    · rename_i hnone
      exact hskip fun u hu => by simp [hnone] at hu
    · rename_i u hu
      split_ifs with hdone
      · refine hskip fun u' hu' => ?_
        cases hu.symm.trans hu'
        exact hdone
      · obtain ⟨hnew, -, hprimary⟩ := not_or.mp hdone |>.imp_right not_or.mp
        obtain ⟨hflushed, hsub, hlength, hall⟩ := ih (h.modify hreal hkey hu hnew hprimary)
        refine ⟨hflushed, fun a ha => hsub (List.mem_append_left _ ha), by simpa using hlength,
          fun i hi => hall i ?_⟩
        by_cases hik : k = i
        · subst hik
          refine .inr fun u' hu' => .inl ?_
          rw [List.getElem?_modify_eq, hu] at hu'
          cases hu'
          simp [reanalyze_key]
        · rcases hi with hi | hi
          · exact .inl ((List.mem_cons.mp hi).resolve_left (Ne.symm hik))
          · refine .inr fun u' hu' => ?_
            rw [List.getElem?_modify_ne _ _ hik] at hu'
            exact (hi u' hu').imp_left (List.mem_append_left _)

end

end FcLang.Lsp
