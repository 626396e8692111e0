import FcLang.Pass2.ContainmentWalk
import FcLang.Pass2.ModuleGraph

/-!
# What the module graph records, and what its search finds

The recorded edges are the references from one top-level module to a declaration
inside another. The search ends, and reports a cycle of them if there is one.
-/

namespace FcLang.Pass2.Modules
open Pass2 (Mark Walk Marked unvisited mem_unvisited unvisited_enter_lt)
open Diag (SrcLoc)
open Relation Search

mutual

/-- The symbols that a written type refers to. -/
def WrittenType.mentions (symtab : String → Option Symbol) : WrittenType → List (Option Symbol)
  | .null | .other => []
  | .pointer t | .slice t | .option t | .result t => t.mentions symtab
  | .fixedArray elem sizeRef => elem.mentions symtab ++ sizeRef.mentions symtab
  | .func params ret => typesMentions symtab params ++ ret.mentions symtab
  | .struct resolved typeArgs isTuple fields =>
    resolved :: typesMentions symtab typeArgs ++
      match isTuple with
      | true => typesMentions symtab fields
      | false => []
  | .union resolved typeArgs => resolved :: typesMentions symtab typeArgs
  | .enum resolved => [resolved]
  | .stub name typeArgs => symtab name :: typesMentions symtab typeArgs
  | .constExpr e => e.mentions symtab

def typesMentions (symtab : String → Option Symbol) : List WrittenType → List (Option Symbol)
  | [] => []
  | t :: ts => t.mentions symtab ++ typesMentions symtab ts

def WrittenExpr.mentions (symtab : String → Option Symbol) : WrittenExpr → List (Option Symbol)
  | .mk _ own children => own.mentions symtab ++ exprsMentions symtab children

def exprsMentions (symtab : String → Option Symbol) : List WrittenExpr → List (Option Symbol)
  | [] => []
  | e :: es => e.mentions symtab ++ exprsMentions symtab es

def Own.mentions (symtab : String → Option Symbol) : Own → List (Option Symbol)
  | .ident resolved companion => [resolved, companion]
  | .structLit resolved => [resolved]
  | .call typeArgs | .field typeArgs => typesMentions symtab typeArgs
  | .func params => paramsMentions symtab params
  | .target type => type.mentions symtab
  | .other => []

def paramsMentions (symtab : String → Option Symbol) : List Param → List (Option Symbol)
  | [] => []
  | .mk _ type :: ps => type.mentions symtab ++ paramsMentions symtab ps

end

def membersMentions (symtab : String → Option Symbol) (ms : List MemberType) :
    List (Option Symbol) :=
  ms.flatMap fun m => m.type.mentions symtab

def assertsMentions (symtab : String → Option Symbol) (es : List (Option WrittenExpr)) :
    List (Option Symbol) :=
  es.flatMap fun e => (e.map (WrittenExpr.mentions symtab)).getD []

mutual

/-- The symbols that a declaration refers to, those of nested modules included. -/
def WrittenDecl.mentions (symtab : String → Option Symbol) : WrittenDecl → List (Option Symbol)
  | .let _ _ writtenInit init =>
    match writtenInit <|> init with
    | none => []
    | some e => e.mentions symtab
  | .struct _ _ members asserts | .union _ _ members asserts =>
    membersMentions symtab members ++ assertsMentions symtab asserts
  | .externSym _ _ type => type.mentions symtab
  | .import _ _ resolved companion module => [resolved, companion, module]
  | .module _ _ _ decls => declsMentions symtab decls
  | .other _ _ => []

def declsMentions (symtab : String → Option Symbol) : List WrittenDecl → List (Option Symbol)
  | [] => []
  | d :: ds => d.mentions symtab ++ declsMentions symtab ds

end

/-- Module `i` refers to a declaration inside module `j`. -/
def DependsOn (p : Program) (i j : ℕ) : Prop :=
  i ≠ j ∧ ∃ m, p.mods[i]? = some m ∧ ∃ m', p.mods[j]? = some m' ∧
    ∃ s addr, some s ∈ declsMentions p.symtab m.decls ∧ s.decl = some addr ∧
      addr ∈ (m'.owned j).map DeclOwner.decl

section
variable {g g' g'' : ModuleGraph} {ms ms' : List (Option Symbol)} {S : String → Option Symbol}
  {i j : ℕ}

def ModuleGraph.addAt (g : ModuleGraph) (r : SrcLoc × Option Symbol) : ModuleGraph :=
  (g.atLoc r.1).add r.2

/-- The scan has added these references one by one. -/
def Adds (g g' : ModuleGraph) (ms : List (Option Symbol)) : Prop :=
  ∃ refs : List (SrcLoc × Option Symbol), ∃ loc,
    refs.map Prod.snd = ms ∧ g' = (refs.foldl ModuleGraph.addAt g).atLoc loc

theorem add_eq (g : ModuleGraph) (target : Option Symbol) :
    ∃ deps, g.add target = { g with deps := deps } := by
  unfold ModuleGraph.add
  split
  · exact ⟨g.deps, rfl⟩
  · split_ifs
    · exact ⟨g.deps, rfl⟩
    · exact ⟨g.deps, rfl⟩
    · exact ⟨_, rfl⟩

theorem Adds.refl (g : ModuleGraph) : Adds g g [] := ⟨[], g.loc, rfl, rfl⟩

theorem Adds.atLoc (g : ModuleGraph) (loc : SrcLoc) : Adds g (g.atLoc loc) [] := ⟨[], loc, rfl, rfl⟩

theorem Adds.add (g : ModuleGraph) (target : Option Symbol) : Adds g (g.add target) [target] := by
  refine ⟨[(g.loc, target)], g.loc, rfl, ?_⟩
  obtain ⟨deps, h⟩ := add_eq g target
  change g.add target = (g.add target).atLoc g.loc
  rw [h]
  rfl

theorem foldl_addAt_atLoc (refs : List (SrcLoc × Option Symbol)) (g : ModuleGraph)
    (loc loc' : SrcLoc) :
    (refs.foldl ModuleGraph.addAt (g.atLoc loc)).atLoc loc' =
      (refs.foldl ModuleGraph.addAt g).atLoc loc' := by
  cases refs with
  | nil => rfl
  | cons r refs => rfl

theorem Adds.trans (h : Adds g g' ms) (h' : Adds g' g'' ms') : Adds g g'' (ms ++ ms') := by
  obtain ⟨refs, loc, rfl, rfl⟩ := h
  obtain ⟨refs', loc', rfl, rfl⟩ := h'
  refine ⟨refs ++ refs', loc', by simp, ?_⟩
  rw [foldl_addAt_atLoc, List.foldl_append]

/-- The scan changes the edges and the location only. -/
theorem Adds.eq (h : Adds g g' ms) : ∃ deps loc, g' = { g with deps := deps, loc := loc } := by
  obtain ⟨refs, loc, -, rfl⟩ := h
  suffices ∃ deps loc, refs.foldl ModuleGraph.addAt g = { g with deps := deps, loc := loc } by
    obtain ⟨deps, loc', h⟩ := this
    exact ⟨deps, loc, by rw [h]; rfl⟩
  induction refs generalizing g with
  | nil => exact ⟨g.deps, g.loc, rfl⟩
  | cons r refs ih =>
    obtain ⟨deps, hadd⟩ := add_eq (g.atLoc r.1) r.2
    obtain ⟨deps', loc', hfold⟩ := ih (g := g.addAt r)
    refine ⟨deps', loc', ?_⟩
    rw [List.foldl_cons, hfold, ModuleGraph.addAt, hadd]
    rfl

theorem Adds.symtab (h : Adds g g' ms) : g'.symtab = g.symtab := by
  obtain ⟨deps, loc, rfl⟩ := h.eq
  rfl

/-- One more part of the scan. -/
theorem Adds.step {f : ModuleGraph → ModuleGraph} (h : Adds g g' ms) (hS : g.symtab = S)
    (hf : ∀ g : ModuleGraph, g.symtab = S → Adds g (f g) ms') : Adds g (f g') (ms ++ ms') :=
  h.trans (hf g' (h.symtab.trans hS))

mutual

theorem noteTypeRefs_adds (t : WrittenType) (g : ModuleGraph) (hS : g.symtab = S) :
    Adds g (noteTypeRefs g t) (t.mentions S) := by
  cases t with
  | null => exact .refl g
  | other => exact .refl g
  | pointer t => exact noteTypeRefs_adds t g hS
  | slice t => exact noteTypeRefs_adds t g hS
  | option t => exact noteTypeRefs_adds t g hS
  | result t => exact noteTypeRefs_adds t g hS
  | fixedArray elem sizeRef =>
    exact (noteTypeRefs_adds elem g hS).step hS fun g hS => noteTypeRefs_adds sizeRef g hS
  | func params ret =>
    exact (noteTypeArgs_adds params g hS).step hS fun g hS => noteTypeRefs_adds ret g hS
  | struct resolved typeArgs isTuple fields =>
    have hargs := (Adds.add g resolved).step hS fun g hS => noteTypeArgs_adds typeArgs g hS
    have hfields := hargs.step hS fun g hS => noteTypeArgs_adds fields g hS
    cases isTuple with
    | true => exact hfields
    | false => exact hargs.trans (.refl _)
  | union resolved typeArgs =>
    exact (Adds.add g resolved).step hS fun g hS => noteTypeArgs_adds typeArgs g hS
  | enum resolved => exact .add g resolved
  | stub name typeArgs =>
    have hname : Adds g (g.add (g.symtab name)) [S name] := by
      rw [hS]
      exact .add g (S name)
    exact hname.step hS fun g hS => noteTypeArgs_adds typeArgs g hS
  | constExpr e => exact noteExprRefs_adds e g hS

theorem noteTypeArgs_adds (ts : List WrittenType) (g : ModuleGraph) (hS : g.symtab = S) :
    Adds g (noteTypeArgs g ts) (typesMentions S ts) := by
  cases ts with
  | nil => exact .refl g
  | cons t ts => exact (noteTypeRefs_adds t g hS).step hS fun g hS => noteTypeArgs_adds ts g hS

theorem noteExprRefs_adds (e : WrittenExpr) (g : ModuleGraph) (hS : g.symtab = S) :
    Adds g (noteExprRefs g e) (e.mentions S) := by
  cases e with
  | mk loc own children =>
    have hown := (Adds.atLoc g loc).step hS fun g hS => noteOwnRefs_adds own g hS
    exact hown.step hS fun g hS => noteChildren_adds children g hS

theorem noteChildren_adds (es : List WrittenExpr) (g : ModuleGraph) (hS : g.symtab = S) :
    Adds g (noteChildren g es) (exprsMentions S es) := by
  cases es with
  | nil => exact .refl g
  | cons e es => exact (noteExprRefs_adds e g hS).step hS fun g hS => noteChildren_adds es g hS

theorem noteOwnRefs_adds (own : Own) (g : ModuleGraph) (hS : g.symtab = S) :
    Adds g (noteOwnRefs g own) (own.mentions S) := by
  cases own with
  | ident resolved companion => exact (Adds.add g resolved).trans (.add _ companion)
  | structLit resolved => exact .add g resolved
  | call typeArgs => exact noteTypeArgs_adds typeArgs g hS
  | field typeArgs => exact noteTypeArgs_adds typeArgs g hS
  | func params => exact noteParams_adds params g hS
  | target type => exact noteTypeRefs_adds type g hS
  | other => exact .refl g

theorem noteParams_adds (ps : List Param) (g : ModuleGraph) (hS : g.symtab = S) :
    Adds g (noteParams g ps) (paramsMentions S ps) := by
  cases ps with
  | nil => exact .refl g
  | cons param ps =>
    cases param with
    | mk loc type =>
      have htype := (Adds.atLoc g loc).step hS fun g hS => noteTypeRefs_adds type g hS
      exact htype.step hS fun g hS => noteParams_adds ps g hS

end

theorem noteMembers_adds (members : List MemberType) (g : ModuleGraph) (hS : g.symtab = S) :
    Adds g (noteMembers g members) (membersMentions S members) := by
  induction members generalizing g with
  | nil => exact .refl g
  | cons m members ih =>
    have hloc : Adds g (if m.loc.line ≠ 0 then g.atLoc m.loc else g) [] := by
      split_ifs
      · exact .atLoc g m.loc
      · exact .refl g
    have htype := hloc.step hS fun g hS => noteTypeRefs_adds m.type g hS
    exact htype.step hS ih

theorem noteStaticAssertRefs_adds (es : List (Option WrittenExpr)) (g : ModuleGraph)
    (hS : g.symtab = S) : Adds g (noteStaticAssertRefs g es) (assertsMentions S es) := by
  induction es generalizing g with
  | nil => exact .refl g
  | cons e es ih =>
    cases e with
    | none => exact ih g hS
    | some e => exact (noteExprRefs_adds e g hS).step hS ih

mutual

theorem noteDeclRefs_adds (d : WrittenDecl) (g : ModuleGraph) (hS : g.symtab = S) :
    Adds g (noteDeclRefs g d) (d.mentions S) := by
  cases d with
  | «let» addr loc writtenInit init =>
    rw [noteDeclRefs, WrittenDecl.mentions]
    cases writtenInit <|> init with
    | none => exact .atLoc g loc
    | some e => exact (Adds.atLoc g loc).step hS fun g hS => noteExprRefs_adds e g hS
  | struct addr loc fields asserts =>
    have hfields := (Adds.atLoc g loc).step hS fun g hS => noteMembers_adds fields g hS
    exact hfields.step hS fun g hS => noteStaticAssertRefs_adds asserts g hS
  | union addr loc variants asserts =>
    have hvariants := (Adds.atLoc g loc).step hS fun g hS => noteMembers_adds variants g hS
    exact hvariants.step hS fun g hS => noteStaticAssertRefs_adds asserts g hS
  | externSym addr loc type => exact (Adds.atLoc g loc).step hS fun g hS => noteTypeRefs_adds type g hS
  | «import» addr loc resolved companion module =>
    have hresolved := (Adds.atLoc g loc).trans (.add _ resolved)
    exact (hresolved.trans (.add _ companion)).trans (.add _ module)
  | module addr loc name decls =>
    exact (Adds.atLoc g loc).step hS fun g hS => noteDeclsRefs_adds decls g hS
  | other addr loc => exact .atLoc g loc

theorem noteDeclsRefs_adds (ds : List WrittenDecl) (g : ModuleGraph) (hS : g.symtab = S) :
    Adds g (noteDeclsRefs g ds) (declsMentions S ds) := by
  cases ds with
  | nil => exact .refl g
  | cons d ds => exact (noteDeclRefs_adds d g hS).step hS fun g hS => noteDeclsRefs_adds ds g hS

end

/-- An edge is added where the reference leads into another module. -/
theorem add_deps (g : ModuleGraph) (target : Option Symbol) (i j : ℕ) :
    ((g.add target).deps i j).isSome ↔ (g.deps i j).isSome ∨
      i = g.origin ∧ j ≠ g.origin ∧ ∃ s, target = some s ∧ ownerOf g.owners s = some j := by
  have howner : (∃ s, target = some s ∧ ownerOf g.owners s = some j) ↔
      target.bind (ownerOf g.owners) = some j := Option.bind_eq_some_iff.symm
  rw [howner, ModuleGraph.add]
  cases htarget : target.bind (ownerOf g.owners) with
  | none => simp
  | some module =>
    simp only [Option.some.injEq]
    split_ifs with horigin hknown
    · refine (or_iff_left ?_).symm
      rintro ⟨-, hj, rfl⟩
      exact hj horigin
    · refine (or_iff_left_of_imp ?_).symm
      rintro ⟨rfl, -, rfl⟩
      exact hknown
    · by_cases hi : i = g.origin
      · subst hi
        by_cases hj : j = module
        · subst hj
          simp [horigin]
        · simp [Function.update_of_ne hj, Ne.symm hj]
      · simp [hi]

theorem foldl_addAt_deps (refs : List (SrcLoc × Option Symbol)) (g : ModuleGraph) (i j : ℕ) :
    ((refs.foldl ModuleGraph.addAt g).deps i j).isSome ↔ (g.deps i j).isSome ∨
      i = g.origin ∧ j ≠ g.origin ∧
        ∃ s, some s ∈ refs.map Prod.snd ∧ ownerOf g.owners s = some j := by
  induction refs generalizing g with
  | nil => simp
  | cons r refs ih =>
    obtain ⟨deps, hadd⟩ := add_eq (g.atLoc r.1) r.2
    have hframe : (g.addAt r).origin = g.origin ∧ (g.addAt r).owners = g.owners := by
      rw [ModuleGraph.addAt, hadd]
      exact ⟨rfl, rfl⟩
    have hhead := add_deps (g.atLoc r.1) r.2 i j
    rw [List.foldl_cons, ih, hframe.1, hframe.2, ModuleGraph.addAt, hhead, or_assoc]
    change (g.deps i j).isSome ∨ (i = g.origin ∧ j ≠ g.origin ∧
      ∃ s, r.2 = some s ∧ ownerOf g.owners s = some j) ∨ _ ↔ _
    refine or_congr_right ?_
    simp only [List.map_cons, List.mem_cons]
    constructor
    · rintro (⟨hi, hj, s, hs, howner⟩ | ⟨hi, hj, s, hs, howner⟩)
      · exact ⟨hi, hj, s, .inl hs.symm, howner⟩
      · exact ⟨hi, hj, s, .inr hs, howner⟩
    · rintro ⟨hi, hj, s, hs | hs, howner⟩
      · exact .inl ⟨hi, hj, s, hs.symm, howner⟩
      · exact .inr ⟨hi, hj, s, hs, howner⟩

theorem Adds.deps (h : Adds g g' ms) (i j : ℕ) : (g'.deps i j).isSome ↔ (g.deps i j).isSome ∨
    i = g.origin ∧ j ≠ g.origin ∧ ∃ s, some s ∈ ms ∧ ownerOf g.owners s = some j := by
  obtain ⟨refs, loc, rfl, rfl⟩ := h
  exact foldl_addAt_deps refs g i j

theorem scan_deps (l : List (Module × ℕ)) (g : ModuleGraph) (i j : ℕ) :
    ((g.scan l).deps i j).isSome ↔ (g.deps i j).isSome ∨
      ∃ m, (m, i) ∈ l ∧ j ≠ i ∧
        ∃ s, some s ∈ declsMentions g.symtab m.decls ∧ ownerOf g.owners s = some j := by
  induction l generalizing g with
  | nil => simp [ModuleGraph.scan]
  | cons entry l ih =>
    obtain ⟨m, k⟩ := entry
    have hadds := (Adds.atLoc { g with origin := k } m.loc).step (S := g.symtab) rfl
      fun g hS => noteDeclsRefs_adds m.decls g hS
    obtain ⟨deps, loc, heq⟩ := hadds.eq
    have hfirst := hadds.deps i j
    rw [ModuleGraph.scan, ih, hfirst, or_assoc, heq]
    refine or_congr_right ?_
    simp only [List.nil_append, List.mem_cons, Prod.mk.injEq]
    constructor
    · rintro (⟨hi, hj, s, hs, howner⟩ | ⟨m', hm', hj, hs⟩)
      · exact ⟨m, .inl ⟨rfl, hi⟩, hi ▸ hj, s, hs, howner⟩
      · exact ⟨m', .inr hm', hj, hs⟩
    · rintro ⟨m', ⟨rfl, rfl⟩ | hm', hj, s, hs, howner⟩
      · exact .inl ⟨rfl, hj, s, hs, howner⟩
      · exact .inr ⟨m', hm', hj, s, hs, howner⟩

def Edge (g : ModuleGraph) (i j : ℕ) : Prop := (g.deps i j).isSome ∧ j < g.mods.length

/-- The error leads around a cycle of recorded references, and stands at the last of its
modules. -/
structure Closes (g : ModuleGraph) (e : CycleError) : Prop where
  nonempty : e.steps ≠ []
  nodup : (e.steps.map CycleStep.source).Nodup
  closed : e.steps.map CycleStep.target = (e.steps.map CycleStep.source).rotate 1
  recorded : ∀ s ∈ e.steps, g.deps s.source s.target = some s.loc
  first : ∀ s ∈ e.steps.head?, e.first = moduleName g.mods s.source
  last : ∀ s ∈ e.steps.getLast?, e.last = moduleName g.mods s.source ∧
    ∀ m ∈ g.mods[s.source]?, e.loc = m.loc

def cycleStep (g : ModuleGraph) (a b : ℕ) : CycleStep := ⟨a, b, (g.deps a b).getD ⟨none, 0, 0⟩⟩

theorem map_zipWith_cycleStep (g : ModuleGraph) {as bs : List ℕ} (h : as.length = bs.length) :
    (List.zipWith (cycleStep g) as bs).map CycleStep.source = as ∧
      (List.zipWith (cycleStep g) as bs).map CycleStep.target = bs := by
  induction as generalizing bs with
  | nil => exact ⟨rfl, (List.length_eq_zero_iff.mp h.symm).symm⟩
  | cons a as ih =>
    cases bs with
    | nil => simp at h
    | cons b bs =>
      obtain ⟨hsource, htarget⟩ := ih (Nat.succ.inj h)
      simp [hsource, htarget, cycleStep]

theorem recorded_of_isChain {v : ℕ} {as : List ℕ} (h : (as ++ [v]).IsChain (Edge g)) :
    ∀ s ∈ List.zipWith (cycleStep g) as (as.tail ++ [v]),
      g.deps s.source s.target = some s.loc := by
  have hstep : ∀ {a b}, Edge g a b →
      g.deps (cycleStep g a b).source (cycleStep g a b).target = some (cycleStep g a b).loc := by
    intro a b hedge
    obtain ⟨loc, hloc⟩ := Option.isSome_iff_exists.mp hedge.1
    simp [cycleStep, hloc]
  induction as with
  | nil => simp
  | cons a as ih =>
    cases as with
    | nil =>
      intro s hs
      rw [List.mem_singleton.mp hs]
      exact hstep (List.isChain_pair.mp h)
    | cons b as =>
      obtain ⟨hab, hrest⟩ := List.isChain_cons_cons.mp h
      intro s hs
      rcases List.mem_cons.mp hs with rfl | hs
      · exact hstep hab
      · exact ih hrest s hs

theorem reportModuleCycle_closes {u v : ℕ} {path : List ℕ}
    (hchain : (u :: path).IsChain fun a b => Edge g b a) (hnodup : (u :: path).Nodup)
    (hv : v ∈ u :: path) (hedge : Edge g u v) :
    Closes g (reportModuleCycle g (u :: path) u v) := by
  obtain ⟨above, below, hpath, hnot⟩ := List.eq_append_cons_of_mem hv
  have htake : (u :: path).takeWhile (· ≠ v) = above := by
    rw [hpath, List.takeWhile_append_of_pos (fun a ha => by simpa using ne_of_mem_of_not_mem ha hnot)]
    simp
  have hhead : (above ++ [v]).head? = some u := by
    cases above with
    | nil => simpa using (List.cons.inj hpath).1.symm
    | cons a above => simpa using (List.cons.inj hpath).1.symm
  have hlast : (v :: above.reverse).getLast? = some u := by
    rw [← hhead, ← List.getLast?_reverse, List.reverse_append]
    rfl
  have hcycle : (v :: above.reverse).IsChain (Edge g) := by
    have habove : (above ++ [v]).IsChain fun a b => Edge g b a := by
      rw [hpath, List.append_cons] at hchain
      exact hchain.left_of_append
    have hreverse := List.isChain_reverse.mpr habove
    rwa [List.reverse_append] at hreverse
  have hclosed : (v :: above.reverse ++ [v]).IsChain (Edge g) := by
    refine List.isChain_append.mpr ⟨hcycle, .singleton v, fun a ha b hb => ?_⟩
    rw [hlast] at ha
    cases ha
    cases hb
    exact hedge
  have hlengths : (v :: above.reverse).length = (above.reverse ++ [v]).length := by simp
  have hmap := map_zipWith_cycleStep g hlengths
  have hsteps : (reportModuleCycle g (u :: path) u v).steps =
      List.zipWith (cycleStep g) (v :: above.reverse) (above.reverse ++ [v]) := by
    rw [reportModuleCycle, htake]
    rfl
  have hdistinct : (v :: above.reverse).Nodup := by
    rw [hpath] at hnodup
    exact List.nodup_cons.mpr ⟨by simpa using hnot, List.nodup_reverse.mpr hnodup.of_append_left⟩
  constructor
  · rw [hsteps]
    cases above.reverse <;> simp
  · rw [hsteps, hmap.1]
    exact hdistinct
  · rw [hsteps, hmap.1, hmap.2, List.rotate_cons_succ, List.rotate_zero]
  · rw [hsteps]
    exact recorded_of_isChain hclosed
  · intro s hs
    have hsource := congrArg List.head? (hsteps ▸ hmap.1)
    rw [List.head?_map, hs] at hsource
    cases hsource
    rfl
  · intro s hs
    have hsource := congrArg List.getLast? (hsteps ▸ hmap.1)
    rw [List.getLast?_map, hs, hlast] at hsource
    cases hsource
    exact ⟨rfl, fun m hm => by simp [reportModuleCycle, Option.mem_def.mp hm]⟩

/-- The marks, as those of the walk over by-value containment. -/
def Colors.walk (c : Colors) : Walk := ⟨c.color, []⟩

/-- What a part of the search comes to, where the path stays as it was: a cycle, or nodes
`needed` finished. -/
inductive Searched (g : ModuleGraph) (path done : List ℕ) (needed : List ℕ → Prop) :
    Option CycleError × Colors → Prop where
  | found {e : CycleError} {c : Colors} (closes : Closes g e)
      (cycle : ∃ w, TransGen (Edge g) w w) : Searched g path done needed (some e, c)
  | passed {c : Colors} {done' : List ℕ} (marked : Marked c.walk path done')
      (searching : Searching (Edge g) path done' False) (kept : done ⊆ done')
      (need : needed done') : Searched g path done needed (none, c)

variable {c : Colors} {path done : List ℕ} {u : ℕ}

/-- The edges from the node that the search stands at, given how it enters others. -/
theorem tryEdges_searched {N : ℕ} {vs : List ℕ}
    (ih : ∀ {v : ℕ} {c : Colors} {path done : List ℕ}, (unvisited g.mods.length c.walk).card < N → v < g.mods.length →
      c.color v = .unvisited → Marked c.walk path done → Searching (Edge g) path done False →
      (∀ w ∈ path.head?, Edge g w v) →
      ∃ r, c.findCycle g v path = some r ∧ Searched g path done (v ∈ ·) r)
    (hN : (unvisited g.mods.length c.walk).card < N) (hvs : ∀ v ∈ vs, v < g.mods.length)
    (hseen : ∀ v, Edge g u v → v ∈ vs ∨ v ∈ done) (hm : Marked c.walk (u :: path) done)
    (hs : Searching (Edge g) (u :: path) done False) :
    ∃ r, c.tryEdges g u (u :: path) vs = some r ∧ Searched g path done (u ∈ ·) r := by
  induction vs generalizing c done with
  | nil =>
    have hleave : Marked (c.set u .done).walk path (u :: done) :=
      hm.leave (List.nodup_cons.mp hs.fresh).1
    refine ⟨_, by rw [Colors.tryEdges], .passed hleave (hs.leave (.inr fun v hv => ?_))
      (List.subset_cons_self u done) List.mem_cons_self⟩
    exact (hseen v hv).resolve_left List.not_mem_nil
  | cons v vs ihvs =>
    have hrest := fun w hw => hvs w (List.mem_cons_of_mem v hw)
    have hnext : ∀ {done'}, done ⊆ done' → (Edge g u v → v ∈ done') →
        ∀ w, Edge g u w → w ∈ vs ∨ w ∈ done' := by
      intro done' hkept hv w hw
      rcases hseen w hw with hmem | hmem
      · rcases List.mem_cons.mp hmem with rfl | hmem
        · exact .inr (hv hw)
        · exact .inl hmem
      · exact .inr (hkept hmem)
    rw [Colors.tryEdges]
    split_ifs with hnone
    · refine ihvs hN hrest (hnext (List.Subset.refl done) fun hv => ?_) hm hs
      simp [Edge, Option.isNone_iff_eq_none.mp hnone] at hv
    · have hedge : Edge g u v := by
        refine ⟨?_, hvs v List.mem_cons_self⟩
        simpa [Option.isSome_iff_ne_none] using hnone
      cases hcolor : c.color v with
      | onStack =>
        have hmem : v ∈ u :: path := (hm.onStack v).mp hcolor
        exact ⟨_, rfl, .found (reportModuleCycle_closes hs.chain hs.fresh hmem hedge)
          ((hs.back hmem hedge).cycle trivial)⟩
      | done =>
        exact ihvs hN hrest (hnext (List.Subset.refl done) fun _ => (hm.done v).mp hcolor) hm hs
      | unvisited =>
        obtain ⟨r, hrun, hsearched⟩ := ih hN hedge.2 hcolor hm hs fun w hw => by
          cases hw
          exact hedge
        cases hsearched with
        | @found e c' closes cycle => exact ⟨(some e, c'), by simp [hrun], .found closes cycle⟩
        | passed marked searching kept need =>
          have hless := Finset.card_le_card (hm.unvisited_subset (n := g.mods.length) marked kept)
          obtain ⟨r', hrun', hsearched'⟩ := ihvs (hless.trans_lt hN) hrest
            (hnext kept fun _ => need) marked searching
          refine ⟨r', by simp [hrun, hrun'], ?_⟩
          cases hsearched' with
          | found closes cycle => exact .found closes cycle
          | passed marked' searching' kept' need' =>
            exact .passed marked' searching' (fun w hw => kept' (kept hw)) need'

/-- Entering a module, the search ends with a cycle or with the module finished. -/
theorem findCycle_searched (hu : u < g.mods.length) (hcolor : c.color u = .unvisited)
    (hm : Marked c.walk path done) (hs : Searching (Edge g) path done False)
    (hedge : ∀ w ∈ path.head?, Edge g w u) :
    ∃ r, c.findCycle g u path = some r ∧ Searched g path done (u ∈ ·) r := by
  induction hN : (unvisited g.mods.length c.walk).card using Nat.strong_induction_on
    generalizing u c path done with
  | _ N ih =>
    have hpath : u ∉ path := fun h => by
      have := (hm.onStack u).mpr h
      simp [Colors.walk, hcolor] at this
    have hdone : u ∉ done := fun h => by
      have := (hm.done u).mpr h
      simp [Colors.walk, hcolor] at this
    have hless : (unvisited g.mods.length (c.set u .onStack).walk).card < N :=
      (unvisited_enter_lt (w := c.walk) hu hcolor).trans_eq hN
    rw [Colors.findCycle]
    exact tryEdges_searched (N := N)
      (fun hlt hv hcolor hm hs hedge => ih _ hlt hv hcolor hm hs hedge rfl) hless
      (fun v hv => List.mem_range.mp hv) (fun v hv => .inl (List.mem_range.mpr hv.2))
      (hm.enter hcolor) (hs.enter hpath hdone hedge)

/-- The loop over the modules ends, with a cycle or with all of them finished. -/
theorem searchAll_searched (us : List ℕ) (hus : ∀ u ∈ us, u < g.mods.length)
    (hm : Marked c.walk [] done) (hs : Searching (Edge g) [] done False) :
    (∃ e, c.searchAll g us = some (some e) ∧ Closes g e ∧ ∃ w, TransGen (Edge g) w w) ∨
      c.searchAll g us = some none ∧
        ∃ done', Searching (Edge g) [] done' False ∧ done ⊆ done' ∧ ∀ u ∈ us, u ∈ done' := by
  induction us generalizing c done with
  | nil => exact .inr ⟨rfl, done, hs, List.Subset.refl done, by simp⟩
  | cons u us ih =>
    have hrest := fun w hw => hus w (List.mem_cons_of_mem u hw)
    rw [Colors.searchAll]
    split_ifs with hcolor
    · obtain ⟨r, hrun, hsearched⟩ :=
        findCycle_searched (hus u List.mem_cons_self) hcolor hm hs (by simp)
      cases hsearched with
      | @found e c' closes cycle => exact .inl ⟨e, by simp [hrun], closes, cycle⟩
      | passed marked searching kept need =>
        rcases ih hrest marked searching with ⟨e, hrun', closes⟩ | ⟨hrun', done', hs', hkept, hall⟩
        · exact .inl ⟨e, by simp [hrun, hrun'], closes⟩
        · refine .inr ⟨by simp [hrun, hrun'], done', hs', fun w hw => hkept (kept hw), ?_⟩
          intro w hw
          rcases List.mem_cons.mp hw with rfl | hw
          · exact hkept need
          · exact hall w hw
    · have hu : u ∈ done := by
        refine (hm.done u).mp ?_
        cases hmark : c.color u with
        | unvisited => exact absurd hmark hcolor
        | onStack => exact absurd ((hm.onStack u).mp hmark) (by simp)
        | done => exact hmark
      refine (ih hrest hm hs).imp id fun ⟨hrun, done', hs', hkept, hall⟩ => ?_
      refine ⟨hrun, done', hs', hkept, fun w hw => ?_⟩
      rcases List.mem_cons.mp hw with rfl | hw
      · exact hkept hu
      · exact hall w hw

theorem scan_mods (l : List (Module × ℕ)) (g : ModuleGraph) : (g.scan l).mods = g.mods := by
  induction l generalizing g with
  | nil => rfl
  | cons entry l ih =>
    obtain ⟨m, k⟩ := entry
    obtain ⟨deps, loc, heq⟩ := ((Adds.atLoc { g with origin := k } m.loc).step (S := g.symtab) rfl
      fun g hS => noteDeclsRefs_adds m.decls g hS).eq
    rw [ModuleGraph.scan, ih, heq]

mutual

theorem module_of_mem_own {k : ℕ} {o : DeclOwner} (d : WrittenDecl) (h : o ∈ moduleGraphOwn k d) :
    o.module = k := by
  cases d with
  | module addr loc name decls =>
    rcases List.mem_cons.mp h with rfl | h
    · rfl
    · exact module_of_mem_ownAll decls h
  | _ =>
    rw [List.mem_singleton.mp h]

theorem module_of_mem_ownAll {k : ℕ} {o : DeclOwner} (ds : List WrittenDecl)
    (h : o ∈ moduleGraphOwnAll k ds) : o.module = k := by
  cases ds with
  | nil => cases h
  | cons d ds =>
    rcases List.mem_append.mp h with h | h
    · exact module_of_mem_own d h
    · exact module_of_mem_ownAll ds h

end

theorem module_of_mem_owned {k : ℕ} {o : DeclOwner} {m : Module} (h : o ∈ m.owned k) :
    o.module = k := by
  rcases List.mem_cons.mp h with rfl | h
  · rfl
  · exact module_of_mem_ownAll m.decls h

theorem mem_allOwners {mods : List Module} {o : DeclOwner} :
    o ∈ allOwners mods ↔ ∃ m, mods[o.module]? = some m ∧ o.decl ∈ (m.owned o.module).map DeclOwner.decl := by
  simp only [allOwners, List.mem_flatten, List.mem_map, Prod.exists]
  constructor
  · rintro ⟨_, ⟨m, k, hm, rfl⟩, ho⟩
    rw [module_of_mem_owned ho]
    exact ⟨m, List.mk_mem_zipIdx_iff_getElem?.mp hm, o, ho, rfl⟩
  · rintro ⟨m, hm, o', ho', hdecl⟩
    have heq : o' = o := by
      have := module_of_mem_owned ho'
      cases o
      cases o'
      simp_all
    exact ⟨_, ⟨m, o.module, List.mk_mem_zipIdx_iff_getElem?.mpr hm, rfl⟩, heq ▸ ho'⟩

/-- The search for an owner finds the module that holds the declaration. -/
theorem ownerOf_eq_some_iff (p : Program) {s : Symbol} {j : ℕ} :
    ownerOf (allOwners p.mods) s = some j ↔
      ∃ m, p.mods[j]? = some m ∧ ∃ addr, s.decl = some addr ∧
        addr ∈ (m.owned j).map DeclOwner.decl := by
  have hfind : ∀ addr, ((allOwners p.mods).find? fun o => o.decl = addr).map DeclOwner.module = some j ↔
      ⟨addr, j⟩ ∈ allOwners p.mods := by
    intro addr
    constructor
    · intro h
      obtain ⟨o, ho, rfl⟩ := Option.map_eq_some_iff.mp h
      have hdecl : o.decl = addr := by simpa using List.find?_some ho
      rw [← hdecl]
      exact List.mem_of_find?_eq_some ho
    · intro h
      cases ho : (allOwners p.mods).find? fun o => o.decl = addr with
      | none => simpa using List.find?_eq_none.mp ho _ h
      | some o =>
        have hdecl : o.decl = addr := by simpa using List.find?_some ho
        rw [List.inj_on_of_nodup_map p.distinct (List.mem_of_find?_eq_some ho) h hdecl]
        rfl
  rw [ownerOf, Option.bind_eq_some_iff]
  simp only [hfind, mem_allOwners]
  constructor
  · rintro ⟨addr, hdecl, m, hm, hmem⟩
    exact ⟨m, hm, addr, hdecl, hmem⟩
  · rintro ⟨m, hm, addr, hdecl, hmem⟩
    exact ⟨addr, hdecl, m, hm, hmem⟩

/-- An edge is recorded where one module refers to another. -/
theorem isSome_deps_iff (p : Program) (i j : ℕ) : (p.graph.deps i j).isSome ↔ DependsOn p i j := by
  have hdeps := scan_deps p.mods.zipIdx
    { symtab := p.symtab, mods := p.mods, owners := allOwners p.mods, deps := fun _ _ => none,
      origin := 0, loc := ⟨none, 0, 0⟩ } i j
  rw [Program.graph, hdeps, DependsOn]
  simp only [Option.isSome_none, Bool.false_eq_true, false_or, ownerOf_eq_some_iff]
  constructor
  · rintro ⟨m, hm, hne, s, hs, m', hm', addr, haddr, hmem⟩
    exact ⟨hne.symm, m, List.mk_mem_zipIdx_iff_getElem?.mp hm, m', hm', s, addr, hs, haddr, hmem⟩
  · rintro ⟨hne, m, hm, m', hm', s, addr, hs, haddr, hmem⟩
    exact ⟨m, List.mk_mem_zipIdx_iff_getElem?.mpr hm, hne.symm, s, hs, m', hm', addr, haddr, hmem⟩

theorem graph_edge (p : Program) : Edge p.graph = DependsOn p := by
  funext i j
  have hmods : p.graph.mods = p.mods := scan_mods _ _
  rw [Edge, isSome_deps_iff, hmods, eq_iff_iff]
  refine ⟨And.left, fun h => ⟨h, ?_⟩⟩
  obtain ⟨-, m, -, m', hm', -⟩ := h
  exact (List.getElem?_eq_some_iff.mp hm').1

/-- A module that refers to itself through others is not alone. -/
theorem two_of_dependsOn {p : Program} {i j : ℕ} (h : DependsOn p i j) : 2 ≤ p.mods.length := by
  obtain ⟨hne, m, hm, m', hm', -⟩ := h
  have hi := (List.getElem?_eq_some_iff.mp hm).1
  have hj := (List.getElem?_eq_some_iff.mp hm').1
  omega

/-- The check ends on every program. It reports an error if and only if top-level modules refer
to each other in a circle, and the error leads around such a circle by recorded references. -/
theorem checkModuleCycles_exact (p : Program) : ∃ r, checkModuleCycles p = some r ∧
    (r.isSome ↔ ∃ i, TransGen (DependsOn p) i i) ∧ ∀ e ∈ r, Closes p.graph e ∧
      ∀ s ∈ e.steps, DependsOn p s.source s.target := by
  have hmods : p.graph.mods = p.mods := scan_mods _ _
  rw [checkModuleCycles]
  split_ifs with hfew
  · refine ⟨none, rfl, iff_of_false (by simp) ?_, by simp⟩
    rintro ⟨i, hcycle⟩
    obtain ⟨j, hij, -⟩ := TransGen.head'_iff.mp hcycle
    exact absurd (two_of_dependsOn hij) (Nat.not_le.mpr hfew)
  · have hmarked : Marked (Colors.walk ⟨fun _ => .unvisited⟩) [] [] :=
      ⟨by simp [Colors.walk], by simp [Colors.walk]⟩
    have hsearch := searchAll_searched (g := p.graph) (List.range p.mods.length)
      (fun u hu => by rw [hmods]; exact List.mem_range.mp hu) hmarked searching_nil
    rw [graph_edge] at hsearch
    rcases hsearch with ⟨e, hrun, closes, cycle⟩ | ⟨hrun, done', hs, -, hall⟩
    · refine ⟨some e, hrun, iff_of_true rfl cycle, fun e' he' => ?_⟩
      cases he'
      refine ⟨closes, fun s hs => (isSome_deps_iff p _ _).mp ?_⟩
      rw [closes.recorded s hs]
      rfl
    · refine ⟨none, hrun, ?_, by simp⟩
      rw [← hs.found_iff fun u v huv => hall u ?_]
      · simp
      · obtain ⟨-, m, hm, -⟩ := huv
        exact List.mem_range.mpr (List.getElem?_eq_some_iff.mp hm).1

/-- A module with one binding, whose value is a binding of another module. -/
def moduleOf (name : String) (addr letAddr target : ℕ) : Module where
  addr := addr
  loc := ⟨none, 1, 1⟩
  name := name
  decls := [.let letAddr ⟨none, 2, 5⟩
    (some (.mk ⟨none, 2, 13⟩ (.ident (some ⟨some target⟩) none) [])) none]

/-- Two modules that refer to each other. -/
def pingPong : Program where
  symtab := fun _ => none
  mods := [moduleOf "ping" 1 2 4, moduleOf "pong" 3 4 2]
  distinct := by decide

theorem checkModuleCycles_exact_pingPong : ∃ e, checkModuleCycles pingPong = some (some e) ∧
    ∀ s ∈ e.steps, DependsOn pingPong s.source s.target := by
  have hping : DependsOn pingPong 0 1 := ⟨by decide, moduleOf "ping" 1 2 4, rfl,
    moduleOf "pong" 3 4 2, rfl, ⟨some 4⟩, 4, by decide, rfl, by decide⟩
  have hpong : DependsOn pingPong 1 0 := ⟨by decide, moduleOf "pong" 3 4 2, rfl,
    moduleOf "ping" 1 2 4, rfl, ⟨some 2⟩, 2, by decide, rfl, by decide⟩
  obtain ⟨r, hrun, hsome, hsteps⟩ := checkModuleCycles_exact pingPong
  obtain ⟨e, rfl⟩ := Option.isSome_iff_exists.mp (hsome.mpr ⟨0, .tail (.single hping) hpong⟩)
  exact ⟨e, hrun, (hsteps e rfl).2⟩

end

end FcLang.Pass2.Modules
