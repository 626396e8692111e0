import FcLang.Pass1.ParamKindsExact

/-!
# The order of the tables

Symbols are looked up by their source name alone, and the first one of a kind is
taken. So a name may be found as another declaration than it denotes where it is
written, or as none, and the order of the global table has a say in it. Where every
name that is looked up is found as what it denotes and is not shared, inference in
any order of the tables gives the kinds of the chains through what the names denote.
-/

namespace FcLang.Pass1
open Lib

/-- The symbols of a table in another order, and those of each module too. -/
inductive Reorder : List Symbol → List Symbol → Prop where
  | nil : Reorder [] []
  | cons {name : String} {decl : ℕ} {members members' table table' : List Symbol} :
    Reorder members members' → Reorder table table' →
    Reorder (.mk name decl members :: table) (.mk name decl members' :: table')
  | swap (a b : Symbol) (table : List Symbol) : Reorder (a :: b :: table) (b :: a :: table)
  | trans {a b c : List Symbol} : Reorder a b → Reorder b c → Reorder a c

theorem Reorder.refl : ∀ table, Reorder table table
  | [] => .nil
  | .mk _ _ members :: table => .cons (Reorder.refl members) (Reorder.refl table)

theorem Reorder.symm {a b : List Symbol} (h : Reorder a b) : Reorder b a := by
  induction h with
  | nil => exact .nil
  | cons _ _ ihm iht => exact .cons ihm iht
  | swap a b table => exact .swap b a table
  | trans _ _ ih ih' => exact .trans ih' ih

theorem Reorder.declsOf_subset {a b : List Symbol} (h : Reorder a b) :
    Tables.declsOf a ⊆ Tables.declsOf b := by
  induction h with
  | nil => exact List.Subset.refl _
  | cons _ _ ihm iht =>
    intro d hd
    simp only [Tables.declsOf, Tables.declsOfEntry, List.cons_append, List.mem_cons,
      List.mem_append] at hd ⊢
    exact hd.imp_right (Or.imp (@ihm d) (@iht d))
  | swap a b table =>
    intro d hd
    simp only [Tables.declsOf, List.mem_append] at hd ⊢
    tauto
  | trans _ _ ih ih' => exact List.Subset.trans ih ih'

/-- The symbols of the table itself keep their names and declarations. -/
theorem Reorder.exists_symbol {a b : List Symbol} (h : Reorder a b) {s : Symbol} (hs : s ∈ a) :
    ∃ s' ∈ b, s'.name = s.name ∧ s'.decl = s.decl := by
  induction h generalizing s with
  | nil => cases hs
  | @cons name decl members members' table table' _ _ _ iht =>
    rcases List.mem_cons.mp hs with rfl | hs
    · exact ⟨.mk name decl members', List.mem_cons_self, rfl, rfl⟩
    · obtain ⟨s', hs', heq⟩ := iht hs
      exact ⟨s', List.mem_cons_of_mem _ hs', heq⟩
  | swap a b table =>
    refine ⟨s, ?_, rfl, rfl⟩
    simp only [List.mem_cons] at hs ⊢
    tauto
  | trans _ _ ih ih' =>
    obtain ⟨s', hs', hname, hdecl⟩ := ih hs
    obtain ⟨s'', hs'', hname', hdecl'⟩ := ih' hs'
    exact ⟨s'', hs'', hname'.trans hname, hdecl'.trans hdecl⟩

/-- The name that a type is looked up by. -/
def TypeNode.refName : TypeNode → Option String
  | .stub name _ => some name
  | .struct name none _ _ => some name
  | .union name none _ _ => some name
  | _ => none

namespace Tables
variable {p : Tables}

/-- A variable stands in an argument of a type that is looked up by the name. -/
def LooksUp (p : Tables) (name : String) : Prop :=
  ∃ d ∈ declsOf p.symbols, ∃ var a i, p.Visited d (var, .arg a i) ∧
    (p.types a).refName = some name

/-- Two structs, or two unions, of a name that is looked up are one declaration. -/
def UniqueNames (p : Tables) : Prop :=
  ∀ name, p.LooksUp name → ∀ s ∈ p.symbols, ∀ s' ∈ p.symbols, s.name = name → s'.name = name →
    (p.decls s.decl).kind = (p.decls s'.decl).kind →
    (p.decls s.decl).kind = .struct ∨ (p.decls s.decl).kind = .union → s.decl = s'.decl

/-- A type with a variable in its arguments is found as the declaration that it denotes. -/
def FindsDenoted (p : Tables) (denotes : ℕ → Option ℕ) : Prop :=
  ∀ d ∈ declsOf p.symbols, ∀ var a i, p.Visited d (var, .arg a i) → p.found a = denotes a

/-- In every order of the tables, inference ends, with the least kinds. -/
def InfersLeast (p : Tables) (denotes : ℕ → Option ℕ) : Prop :=
  ∀ symbols, Reorder p.symbols symbols →
    ∃ r, Infers { p with symbols := symbols } r ∧ p.Least denotes r

/-- Chains through what is found in the tables in this order. -/
def FoundChain (p : Tables) (symbols : List Symbol) (k : GenericKind) (q : ℕ × ℕ) : Prop :=
  Chain { p with symbols := symbols } (found { p with symbols := symbols }) k q

/-- The chains through what is found in the tables in this order lead to the kinds that those
through what the names denote lead to. -/
structure SameChains (p : Tables) (denotes : ℕ → Option ℕ) (symbols : List Symbol) : Prop where
  contests : Contests { p with symbols := symbols } (found { p with symbols := symbols }) ↔
    p.Contests denotes
  const : ¬ p.Contests denotes → ∀ q, p.IsParam q →
    (p.FoundChain symbols .const q ↔ p.Chain denotes .const q)
  type : ¬ p.Contests denotes → ∀ q, p.IsParam q → (p.decls q.1).kind = .letDecl →
    (p.FoundChain symbols .type q ↔ p.Chain denotes .type q)

/-- However the tables are ordered, names are found with the outcome of what they denote. -/
def FoundRight (p : Tables) (denotes : ℕ → Option ℕ) : Prop :=
  ∀ symbols, Reorder p.symbols symbols → p.SameChains denotes symbols

section Order
variable {symbols : List Symbol} {denotes : ℕ → Option ℕ}

/-- No two declarations of the kind have the name. -/
def OneOf (p : Tables) (name : String) (kind : DeclKind) : Prop :=
  ∀ s ∈ p.symbols, ∀ s' ∈ p.symbols, s.name = name → s'.name = name →
    (p.decls s.decl).kind = kind → (p.decls s'.decl).kind = kind → s.decl = s'.decl

theorem OneOf.reorder {name : String} {kind : DeclKind} (h : p.OneOf name kind)
    (horder : Reorder p.symbols symbols) : OneOf { p with symbols := symbols } name kind := by
  intro s hs s' hs' hname hname' hkind hkind'
  obtain ⟨t, ht, htname, htdecl⟩ := horder.symm.exists_symbol hs
  obtain ⟨t', ht', htname', htdecl'⟩ := horder.symm.exists_symbol hs'
  have heq := h t ht t' ht' (htname.trans hname) (htname'.trans hname')
    (by rw [htdecl]; exact hkind) (by rw [htdecl']; exact hkind')
  rw [← htdecl, ← htdecl', heq]

theorem symtabLookupKind_iff {name : String} {kind : DeclKind} (h : p.OneOf name kind) {d : ℕ} :
    p.symtabLookupKind name kind = some d ↔
      ∃ s ∈ p.symbols, s.name = name ∧ (p.decls s.decl).kind = kind ∧ s.decl = d := by
  constructor
  · intro hd
    obtain ⟨s, hs, rfl⟩ := Option.map_eq_some_iff.mp hd
    have hp : s.name = name ∧ (p.decls s.decl).kind = kind := by
      simpa using List.find?_some hs
    exact ⟨s, List.mem_of_find?_eq_some hs, hp.1, hp.2, rfl⟩
  · rintro ⟨s, hs, hname, hkind, rfl⟩
    rw [symtabLookupKind]
    cases hfind : p.symbols.find? fun s => s.name = name ∧ (p.decls s.decl).kind = kind with
    | none =>
      have hno := List.find?_eq_none.mp hfind s hs
      simp [hname, hkind] at hno
    | some t =>
      have hp : t.name = name ∧ (p.decls t.decl).kind = kind := by
        simpa using List.find?_some hfind
      exact congrArg some (h t (List.mem_of_find?_eq_some hfind) s hs hp.1 hname hp.2 hkind)

theorem symtabLookupKind_reorder {name : String} {kind : DeclKind} (h : p.OneOf name kind)
    (horder : Reorder p.symbols symbols) :
    symtabLookupKind { p with symbols := symbols } name kind = p.symtabLookupKind name kind := by
  refine Option.ext fun d => ?_
  rw [symtabLookupKind_iff h, symtabLookupKind_iff (h.reorder horder)]
  constructor
  · rintro ⟨s, hs, hname, hkind, rfl⟩
    obtain ⟨t, ht, htname, htdecl⟩ := horder.symm.exists_symbol hs
    exact ⟨t, ht, htname.trans hname, by rw [htdecl]; exact hkind, htdecl⟩
  · rintro ⟨s, hs, hname, hkind, rfl⟩
    obtain ⟨t, ht, htname, htdecl⟩ := horder.exists_symbol hs
    exact ⟨t, ht, htname.trans hname, by
      change (p.decls t.decl).kind = kind
      rw [htdecl]
      exact hkind, htdecl⟩

theorem kindRefSym_reorder (horder : Reorder p.symbols symbols) (hu : p.UniqueNames)
    {name : String} (h : p.LooksUp name) :
    kindRefSym { p with symbols := symbols } name = p.kindRefSym name := by
  have hone : ∀ kind, kind = .struct ∨ kind = .union → p.OneOf name kind :=
    fun kind hkind s hs s' hs' hname hname' hk hk' =>
      hu name h s hs s' hs' hname hname' (hk.trans hk'.symm) (hk ▸ hkind)
  rw [kindRefSym, kindRefSym, symtabLookupKind_reorder (hone .struct (.inl rfl)) horder,
    symtabLookupKind_reorder (hone .union (.inr rfl)) horder]

theorem named_reorder (horder : Reorder p.symbols symbols) (hu : p.UniqueNames) {t : TypeNode}
    (h : ∀ name, t.refName = some name → p.LooksUp name) :
    named { p with symbols := symbols } t = p.named t := by
  cases t with
  | stub name typeArgs => exact kindRefSym_reorder horder hu (h name rfl)
  | struct name sym fields typeArgs =>
    cases sym with
    | none => exact kindRefSym_reorder horder hu (h name rfl)
    | some d => rfl
  | union name sym variants typeArgs =>
    cases sym with
    | none => exact kindRefSym_reorder horder hu (h name rfl)
    | some d => rfl
  | _ => rfl

theorem occurrence_reorder (horder : Reorder p.symbols symbols) (hu : p.UniqueNames)
    (hf : p.FindsDenoted denotes) {decl : ℕ} (hdecl : decl ∈ declsOf p.symbols)
    {v : String × Slot} (hv : p.Visited decl v) :
    occurrence { p with symbols := symbols } (found { p with symbols := symbols }) decl v =
      p.occurrence denotes decl v := by
  obtain ⟨var, slot⟩ := v
  cases slot with
  | fixed k => rfl
  | arg a i =>
    have hnamed := named_reorder horder hu (t := p.types a) fun name hname =>
      ⟨decl, hdecl, var, a, i, hv, hname⟩
    have hfound : found { p with symbols := symbols } a = denotes a :=
      hnamed.trans (hf decl hdecl var a i hv)
    rw [occurrence, occurrence, source, source, hfound]

theorem occurs_reorder (horder : Reorder p.symbols symbols) (hu : p.UniqueNames)
    (hf : p.FindsDenoted denotes) :
    Occurs { p with symbols := symbols } (found { p with symbols := symbols }) =
      p.Occurs denotes := by
  funext o
  refine propext ⟨?_, ?_⟩
  · rintro ⟨d, hd, v, hv, ho⟩
    have hmem := horder.symm.declsOf_subset hd
    exact ⟨d, hmem, v, hv, (occurrence_reorder horder hu hf hmem hv).symm.trans ho⟩
  · rintro ⟨d, hd, v, hv, ho⟩
    exact ⟨d, horder.declsOf_subset hd, v, hv, (occurrence_reorder horder hu hf hd hv).trans ho⟩

theorem isParam_reorder (horder : Reorder p.symbols symbols) (q : ℕ × ℕ) :
    IsParam { p with symbols := symbols } q ↔ p.IsParam q :=
  and_congr_left fun _ => ⟨fun hd => horder.symm.declsOf_subset hd,
    fun hd => horder.declsOf_subset hd⟩

theorem foundRight_of_uniqueNames (hu : p.UniqueNames) (hf : p.FindsDenoted denotes) :
    p.FoundRight denotes := by
  intro symbols horder
  have hchain : ∀ k q, p.FoundChain symbols k q ↔ p.Chain denotes k q := fun k q => by
    rw [FoundChain, Chain, Chain, occurs_reorder horder hu hf]
  refine ⟨exists_congr fun q => ?_, fun _ q _ => hchain .const q, fun _ q _ _ => hchain .type q⟩
  rw [isParam_reorder horder]
  exact and_congr_right fun _ => and_congr (hchain .type q) (hchain .const q)

theorem Least.not_contests {ref : ℕ → Option ℕ} {r : Inferred} (h : p.Least ref r)
    (hn : r.conflicts = []) : ¬ p.Contests ref :=
  fun hc => h.conflict.mpr hc hn

theorem Least.of_sameChains (horder : Reorder p.symbols symbols)
    (hs : p.SameChains denotes symbols) {r : Inferred}
    (h : Least { p with symbols := symbols } (found { p with symbols := symbols }) r) :
    p.Least denotes r := by
  have hparam := isParam_reorder horder
  have hfree : r.conflicts = [] → ¬ p.Contests denotes := fun hn hc =>
    h.not_contests hn (hs.contests.mpr hc)
  refine ⟨fun hn q hq hc => ?_, fun hn q hq hc ht => ?_, fun hn q hq hc ht hl => ?_,
    h.conflict.trans hs.contests⟩
  · exact h.const hn q ((hparam q).mpr hq) ((hs.const (hfree hn) q hq).mpr hc)
  · have hconst := mt (hs.const (hfree hn) q hq).mp hc
    by_cases hl : (p.decls q.1).kind = .letDecl
    · have htype := (hs.type (hfree hn) q hq hl).mpr (ht.resolve_right (not_not_intro hl))
      exact h.type hn q ((hparam q).mpr hq) hconst (.inl htype)
    · exact h.type hn q ((hparam q).mpr hq) hconst (.inr hl)
  · exact h.unknown hn q ((hparam q).mpr hq) (mt (hs.const (hfree hn) q hq).mp hc)
      (mt (hs.type (hfree hn) q hq hl).mp ht) hl

/-- A constant is what no other chain explains. -/
theorem Least.const_iff {ref : ℕ → Option ℕ} {r : Inferred} (h : p.Least ref r)
    (hn : r.conflicts = []) {q : ℕ × ℕ} (hq : p.IsParam q) :
    r.kinds q = .known .const ↔ p.Chain ref .const q := by
  refine ⟨fun hk => ?_, h.const hn q hq⟩
  by_contra hc
  by_cases ht : p.Chain ref .type q ∨ (p.decls q.1).kind ≠ .letDecl
  · rw [h.type hn q hq hc ht] at hk
    cases hk
  · rw [not_or, not_not] at ht
    rw [h.unknown hn q hq hc ht.1 ht.2] at hk
    cases hk

theorem Least.type_iff {ref : ℕ → Option ℕ} {r : Inferred} (h : p.Least ref r)
    (hn : r.conflicts = []) {q : ℕ × ℕ} (hq : p.IsParam q) (hl : (p.decls q.1).kind = .letDecl) :
    r.kinds q = .known .type ↔ p.Chain ref .type q := by
  constructor
  · intro hk
    by_contra ht
    have hc : ¬ p.Chain ref .const q := fun hc => by
      rw [h.const hn q hq hc] at hk
      cases hk
    rw [h.unknown hn q hq hc ht hl] at hk
    cases hk
  · intro ht
    exact h.type hn q hq (fun hc => h.not_contests hn ⟨q, hq, ht, hc⟩) (.inl ht)

theorem Least.sameChains (horder : Reorder p.symbols symbols) {r : Inferred}
    (h : p.Least denotes r)
    (h' : Least { p with symbols := symbols } (found { p with symbols := symbols }) r) :
    p.SameChains denotes symbols := by
  have hn : ¬ p.Contests denotes → r.conflicts = [] := fun hc =>
    not_not.mp (mt h.conflict.mp hc)
  have hparam := isParam_reorder horder
  exact ⟨h'.conflict.symm.trans h.conflict,
    fun hc q hq => (h'.const_iff (hn hc) ((hparam q).mpr hq)).symm.trans (h.const_iff (hn hc) hq),
    fun hc q hq hl => (h'.type_iff (hn hc) ((hparam q).mpr hq) hl).symm.trans
      (h.type_iff (hn hc) hq hl)⟩

theorem allGrounded_of_infersLeast (h : p.InfersLeast denotes) : p.AllGrounded := by
  obtain ⟨r, hr, -⟩ := h p.symbols (.refl p.symbols)
  exact hr.grounded

/-- In any order, grounded tables are inferred with the chains of that order. -/
theorem exists_infers_reorder (h : p.Collected) (hg : p.AllGrounded)
    (horder : Reorder p.symbols symbols) :
    ∃ r, Infers { p with symbols := symbols } r ∧
      Least { p with symbols := symbols } (found { p with symbols := symbols }) r := by
  have hcollected : Collected { p with symbols := symbols } := fun q =>
    (h q).imp_right fun ⟨k, var, hk, hdecl, hv⟩ =>
      ⟨k, var, hk, horder.declsOf_subset hdecl, hv⟩
  have hgrounded : AllGrounded { p with symbols := symbols } := fun d hd =>
    hg d (horder.symm.declsOf_subset hd)
  exact exists_infers hcollected hgrounded

theorem infersLeast_iff (h : p.Collected) :
    p.InfersLeast denotes ↔ p.AllGrounded ∧ p.FoundRight denotes := by
  constructor
  · intro hleast
    have hg := allGrounded_of_infersLeast hleast
    refine ⟨hg, fun symbols horder => ?_⟩
    obtain ⟨r, hr, hl⟩ := hleast symbols horder
    obtain ⟨r', hr', hl'⟩ := exists_infers_reorder h hg horder
    exact hl.sameChains horder (hr.unique hr' ▸ hl')
  · rintro ⟨hg, hright⟩ symbols horder
    obtain ⟨r, hr, hl⟩ := exists_infers_reorder h hg horder
    exact ⟨r, hr, hl.of_sameChains horder (hright symbols horder)⟩

end Order

/-- Kind inference ends with the least kinds in every order exactly where the types it walks are
grounded and no chain leads elsewhere for a name that is not found as what it denotes; none does
where the names looked up are found so and are unique. -/
theorem infersLeast_iff_grounded (denotes : ℕ → Option ℕ) (h : p.Collected) :
    (p.InfersLeast denotes ↔ p.AllGrounded ∧ p.FoundRight denotes) ∧
      (p.UniqueNames → p.FindsDenoted denotes → p.FoundRight denotes) :=
  ⟨infersLeast_iff h, foundRight_of_uniqueNames⟩

/-- Structs `wide = data: u8['n]` and `user = w: wide<'k>`. -/
def wideTables : Tables where
  types := fun
    | 0 => .typeVar "'n"
    | 1 => .fixedArray (some 2) (some 0)
    | 3 => .stub "wide" [some 4]
    | 4 => .typeVar "'k"
    | 5 => .typeVar "'t"
    | _ => .other
  decls := fun
    | 0 => ⟨.struct, ["'n"], true, true, [some 1]⟩
    | 1 => ⟨.struct, ["'k"], true, true, [some 3]⟩
    | 2 => ⟨.struct, ["'t"], true, true, [some 5]⟩
    | _ => ⟨.other, [], false, false, []⟩
  symbols := [.mk "wide" 0 [], .mk "user" 1 []]
  kinds := fun q => if q = (0, 0) then .known .const else .unknown

/-- `wide<'k>` denotes the struct. -/
def wideDenotes : ℕ → Option ℕ
  | 3 => some 0
  | _ => none

/-- Another namespace has `wide = v: 't`. -/
def twoWides : Tables :=
  { wideTables with
    symbols := [.mk "wide" 0 [], .mk "wide" 2 [], .mk "user" 1 []]
    kinds := fun q =>
      if q = (0, 0) then .known .const else if q = (2, 0) then .known .type else .unknown }

/-- A module with `box = v: 'a, n: node*` and `node = next: node*`. -/
def boxTables : Tables where
  types := fun
    | 0 => .typeVar "'a"
    | 1 => .pointer (some 2)
    | 2 => .struct "fc__m__node" (some 1) [some 3] []
    | 3 => .pointer (some 2)
    | _ => .other
  decls := fun
    | 0 => ⟨.struct, ["'a"], true, true, [some 0, some 1]⟩
    | 1 => ⟨.struct, [], false, false, [some 3]⟩
    | _ => ⟨.other, [], false, false, []⟩
  symbols := [.mk "m" 2 [.mk "box" 0 [], .mk "node" 1 []], .mk "fc__m__box" 0 [],
    .mk "fc__m__node" 1 []]
  kinds := fun q => if q = (0, 0) then .known .type else .unknown

/-- A module with `wide = data: u8['n]`, `pair = a: 'p` and `user = w: pair<wide<'k>>`. -/
def nestedTables : Tables where
  types := fun
    | 0 => .typeVar "'n"
    | 1 => .fixedArray (some 2) (some 0)
    | 3 => .stub "fc__m__pair" [some 4]
    | 4 => .stub "wide" [some 5]
    | 5 => .typeVar "'k"
    | 6 => .typeVar "'p"
    | _ => .other
  decls := fun
    | 0 => ⟨.struct, ["'n"], true, true, [some 1]⟩
    | 1 => ⟨.struct, ["'p"], true, true, [some 6]⟩
    | 2 => ⟨.struct, ["'k"], true, true, [some 3]⟩
    | _ => ⟨.other, [], false, false, []⟩
  symbols := [.mk "m" 3 [.mk "wide" 0 [], .mk "pair" 1 [], .mk "user" 2 []],
    .mk "fc__m__wide" 0 [], .mk "fc__m__pair" 1 [], .mk "fc__m__user" 2 []]
  kinds := fun q =>
    if q = (0, 0) then .known .const else if q = (1, 0) then .known .type else .unknown

/-- Both names denote the structs of the module. -/
def nestedDenotes : ℕ → Option ℕ
  | 3 => some 1
  | 4 => some 0
  | _ => none

theorem wide_grounded : wideTables.AllGrounded := by
  have hleaf : ∀ a, (wideTables.types a).parts a = [] → Grounded wideTables.types (some a) :=
    fun a ha => .node fun t ht => absurd (ha ▸ ht) List.not_mem_nil
  intro d hd _ t ht
  rcases List.mem_cons.mp hd with rfl | hd
  · rw [List.mem_singleton.mp ht]
    refine .node fun u hu => ?_
    rcases List.mem_cons.mp hu with rfl | hu
    · exact hleaf 2 rfl
    · rw [List.mem_singleton.mp hu]
      exact hleaf 0 rfl
  · obtain rfl := List.mem_singleton.mp hd
    rw [List.mem_singleton.mp ht]
    refine .node fun u hu => ?_
    rw [List.mem_singleton.mp hu]
    exact hleaf 4 rfl

theorem infersLeast_wide : wideTables.InfersLeast wideDenotes := by
  have hvisited : wideTables.Visited 0 ("'n", .fixed .const) :=
    ⟨rfl, some 1, List.mem_cons_self, 2, _, rfl, List.mem_cons_self⟩
  have hcollected : wideTables.Collected := by
    intro q
    by_cases hq : q = (0, 0)
    · subst hq
      exact .inr ⟨.const, "'n", rfl, by decide, hvisited, rfl⟩
    · exact .inl (if_neg hq)
  have hunique : wideTables.UniqueNames := by
    intro name _ s hs s' hs' hname hname' _ _
    simp only [wideTables, List.mem_cons, List.not_mem_nil, or_false] at hs hs'
    rcases hs with rfl | rfl <;> rcases hs' with rfl | rfl
    · rfl
    · exact absurd (hname.trans hname'.symm) (by decide)
    · exact absurd (hname.trans hname'.symm) (by decide)
    · rfl
  have hfound : wideTables.FindsDenoted wideDenotes := by
    intro _ _ _ a _ _
    rcases a with _ | _ | _ | _ | _ | _ | a <;> rfl
  have hiff := infersLeast_iff_grounded wideDenotes hcollected
  exact hiff.1.mpr ⟨wide_grounded, hiff.2 hunique hfound⟩

theorem node_not_grounded {t : TypeRef} (h : Grounded boxTables.types t) :
    t ≠ some 2 ∧ t ≠ some 3 := by
  induction h with
  | null => exact ⟨nofun, nofun⟩
  | @node a _ ih =>
    constructor
    · intro heq
      obtain rfl := Option.some.inj heq
      exact (ih (some 3, .fixed .type) List.mem_cons_self).2 rfl
    · intro heq
      obtain rfl := Option.some.inj heq
      exact (ih (some 2, .fixed .type) List.mem_cons_self).1 rfl

theorem Infers.eval {r : Inferred} (h : p.Infers r) (depth rounds : ℕ) {α : Type}
    (f : Inferred → α) {x : α} (he : (p.inferParamKinds depth rounds).map f = some x) : f r = x := by
  obtain ⟨r', hr', rfl⟩ := Option.map_eq_some_iff.mp he
  rw [h.unique ⟨depth, rounds, hr'⟩]

theorem box_not_grounded : ¬ boxTables.AllGrounded := by
  intro h
  cases h 0 (by decide) rfl (some 1) (by decide) with
  | node hparts =>
    exact (node_not_grounded (hparts (some 2, .fixed .type) List.mem_cons_self)).1 rfl

/-- With the wide of size `'n` first, `'k` is a constant, and with the other one a type. -/
theorem twoWides_not_least (denotes : ℕ → Option ℕ) : ¬ twoWides.InfersLeast denotes := by
  intro h
  have hswap : Reorder twoWides.symbols [.mk "wide" 2 [], .mk "wide" 0 [], .mk "user" 1 []] :=
    .swap _ _ _
  obtain ⟨r, hr, hl⟩ := h _ (.refl _)
  obtain ⟨r', hr', hl'⟩ := h _ hswap
  have hfirst : (r.kinds (1, 0), r.conflicts) = (.known .const, []) :=
    hr.eval 3 3 (fun r => (r.kinds (1, 0), r.conflicts)) rfl
  have hsecond : (r'.kinds (1, 0), r'.conflicts) = (.known .type, []) :=
    hr'.eval 3 3 (fun r => (r.kinds (1, 0), r.conflicts)) rfl
  obtain ⟨hk, hc⟩ := Prod.mk.inj hfirst
  obtain ⟨hk', hc'⟩ := Prod.mk.inj hsecond
  have hparam : twoWides.IsParam (1, 0) := ⟨by decide, rfl, by decide⟩
  by_cases hconst : twoWides.Chain denotes .const (1, 0)
  · rw [hl'.const hc' _ hparam hconst] at hk'
    cases hk'
  · rw [hl.type hc _ hparam hconst (.inr (by decide))] at hk
    cases hk

theorem box_collected : boxTables.Collected := by
  intro q
  by_cases hq : q = (0, 0)
  · subst hq
    exact .inr ⟨.type, "'a", rfl, by decide,
      ⟨rfl, some 0, List.mem_cons_self, 1, _, rfl, List.mem_cons_self⟩, rfl⟩
  · exact .inl (if_neg hq)

theorem twoWides_collected : twoWides.Collected := by
  intro q
  by_cases hq : q = (0, 0)
  · subst hq
    exact .inr ⟨.const, "'n", rfl, by decide,
      ⟨rfl, some 1, List.mem_cons_self, 2, _, rfl, List.mem_cons_self⟩, rfl⟩
  by_cases hq' : q = (2, 0)
  · subst hq'
    exact .inr ⟨.type, "'t", rfl, by decide,
      ⟨rfl, some 5, List.mem_cons_self, 1, _, rfl, List.mem_cons_self⟩, rfl⟩
  · exact .inl ((if_neg hq).trans (if_neg hq'))

theorem nested_collected : nestedTables.Collected := by
  intro q
  by_cases hq : q = (0, 0)
  · subst hq
    exact .inr ⟨.const, "'n", rfl, by decide,
      ⟨rfl, some 1, List.mem_cons_self, 2, _, rfl, List.mem_cons_self⟩, rfl⟩
  by_cases hq' : q = (1, 0)
  · subst hq'
    exact .inr ⟨.type, "'p", rfl, by decide,
      ⟨rfl, some 6, List.mem_cons_self, 1, _, rfl, List.mem_cons_self⟩, rfl⟩
  · exact .inl ((if_neg hq).trans (if_neg hq'))

/-- `'k` stands where `wide` takes a constant, but `wide` is in no global table. -/
theorem nested_not_least : ¬ nestedTables.InfersLeast nestedDenotes := by
  intro h
  obtain ⟨r, hr, hl⟩ := h _ (.refl _)
  have hkinds : (r.kinds (2, 0), r.conflicts) = (.known .type, []) :=
    hr.eval 3 3 (fun r => (r.kinds (2, 0), r.conflicts)) rfl
  obtain ⟨hk, hc⟩ := Prod.mk.inj hkinds
  have hwide : nestedTables.Occurs nestedDenotes ⟨(0, 0), .fixed .const⟩ :=
    ⟨0, by decide, ("'n", .fixed .const),
      ⟨rfl, some 1, List.mem_cons_self, 2, _, rfl, List.mem_cons_self⟩, rfl⟩
  have huser : nestedTables.Occurs nestedDenotes ⟨(2, 0), .copied (0, 0)⟩ :=
    ⟨2, by decide, ("'k", .arg 4 0),
      ⟨rfl, some 3, List.mem_cons_self, 3, _, rfl, List.mem_cons_self⟩, rfl⟩
  have hconst : nestedTables.Chain nestedDenotes .const (2, 0) := .copied huser (.fixed hwide)
  rw [hl.const hc (2, 0) ⟨by decide, rfl, by decide⟩ hconst] at hk
  cases hk

theorem infersLeast_fails :
    (boxTables.Collected ∧ ∀ denotes, ¬ boxTables.InfersLeast denotes) ∧
      (twoWides.Collected ∧ ∀ denotes, ¬ twoWides.InfersLeast denotes) ∧
        nestedTables.Collected ∧ ¬ nestedTables.InfersLeast nestedDenotes :=
  ⟨⟨box_collected, fun _ h => box_not_grounded (allGrounded_of_infersLeast h)⟩,
    ⟨twoWides_collected, twoWides_not_least⟩, nested_collected, nested_not_least⟩

end Tables
end FcLang.Pass1
