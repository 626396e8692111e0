import FcLang.Lib.Grammar
import FcLang.Mono.Register

/-!
# The depth guard as a termination measure

What a generic body can apply to its type parameter is a constructor. Every
constructor but the tuple makes a type deeper; a tuple carries its components as
fields, which the measure does not look at.
-/

namespace FcLang.Mono
open Types Grammar

/-- A generic struct or union: its C name, its parameters, its field or payload types. -/
structure GenericType where
  name : String
  isUnion : Bool
  params : List String
  components : List Ty

/-- A type constructor that may stand in a program; `leaf` is a type without components, a const
argument among them. -/
inductive Con where
  | leaf (t : Ty)
  | pointer (isConst : Bool)
  | slice (isConst : Bool)
  | option
  | result
  | fixedArray (size : BitVec 64)
  | func (arity : ℕ) (isVariadic : Bool)
  | generic (tmpl : GenericType)
  | stub (name : String) (arity : ℕ)
  | tuple (arity : ℕ)

/-- `type_tuple`; the name is given later. -/
def typeTuple (elems : List Ty) : Ty := .struct "" none true elems []

/-- The instance of a generic struct or union. -/
def GenericType.instantiate (tmpl : GenericType) (args : List Ty) : Ty :=
  let components := (substituteAll (tmpl.params.zip args) tmpl.components false).1
  if tmpl.isUnion then .union tmpl.name none components args
  else .struct tmpl.name none false components args

/-- A constructor applied to as many types as it takes. The parser rejects a tuple of fewer than
two types. -/
def Con.build : Con → List Ty → Option Ty
  | .leaf t, [] => some t
  | .pointer c, [t] => some (.pointer c t)
  | .slice c, [t] => some (.slice c t)
  | .option, [t] => some (.option t)
  | .result, [t] => some (.result t)
  | .fixedArray size, [t] => some (.fixedArray t size .null)
  | .func arity isVariadic, ret :: params =>
    if params.length = arity then some (.func params ret isVariadic) else none
  | .generic tmpl, args =>
    if args.length = tmpl.params.length then some (tmpl.instantiate args) else none
  | .stub name arity, args => if args.length = arity then some (.stub name none args) else none
  | .tuple arity, args => if args.length = arity ∧ 2 ≤ arity then some (typeTuple args) else none
  | _, _ => none

def Con.arity : Con → ℕ
  | .leaf _ => 0
  | .func arity _ => arity + 1
  | .generic tmpl => tmpl.params.length
  | .stub _ arity => arity
  | .tuple arity => arity
  | _ => 1

theorem Con.arity_of_build (c : Con) (args : List Ty) (t : Ty) (h : c.build args = some t) :
    args.length = c.arity := by
  cases c <;> rcases args with _ | ⟨a, _ | ⟨b, args⟩⟩ <;> simp_all [Con.build, Con.arity]

theorem GenericType.depth_instantiate (tmpl : GenericType) (args : List Ty) :
    typeArgDepth (tmpl.instantiate args) = 1 + maxArgDepth args 0 := by
  unfold GenericType.instantiate
  cases tmpl.isUnion <;> rfl

/-- Every constructor but the tuple makes a type deeper. -/
theorem Con.deeper {c : Con} (hc : ∀ n, 2 ≤ n → c ≠ .tuple n) {args : List Ty} {t a : Ty}
    (h : c.build args = some t) (ha : a ∈ args) : typeArgDepth a < typeArgDepth t := by
  have hlist : ∀ m, typeArgDepth a < 1 + maxArgDepth args m := by
    intro m
    have hle := typeArgDepth_le_max ha m
    omega
  cases c with
  | leaf t =>
    rw [List.eq_nil_of_length_eq_zero (Con.arity_of_build _ _ _ h)] at ha
    cases ha
  | pointer | slice | option | result | fixedArray =>
    obtain ⟨b, rfl⟩ := List.length_eq_one_iff.mp (Con.arity_of_build _ _ _ h)
    cases h
    rw [List.mem_singleton.mp ha, typeArgDepth]
    omega
  | func arity isVariadic =>
    cases args with
    | nil => cases ha
    | cons ret params =>
      rw [Con.build] at h
      split at h
      · cases h
        rw [typeArgDepth]
        rcases List.mem_cons.mp ha with rfl | hmem
        · have hle := le_maxArgDepth params (typeArgDepth a)
          omega
        · have hle := typeArgDepth_le_max hmem (typeArgDepth ret)
          omega
      · cases h
  | generic tmpl =>
    rw [Con.build] at h
    split at h
    · cases h
      rw [tmpl.depth_instantiate]
      exact hlist 0
    · cases h
  | stub name arity =>
    rw [Con.build] at h
    split at h
    · cases h
      exact hlist 0
    · cases h
  | tuple arity =>
    rw [Con.build] at h
    split at h
    · next hn => exact absurd rfl (hc arity hn.2)
    · cases h

theorem finite_prims : {t : Ty | ∃ kind, t = .prim kind}.Finite := by
  apply (Set.finite_range fun i : Fin 14 => Ty.prim (Prim.ofNat i)).subset
  rintro _ ⟨kind, rfl⟩
  refine ⟨⟨kind.ctorIdx, by cases kind <;> decide⟩, ?_⟩
  cases kind <;> rfl

section Guard
variable (assertsHold : String → List Ty → Bool) {f : String} {params : List String}
  {args : List Ty}

/-- Whatever the table, the instance of `f` at these arguments is not entered, and an error is
reported unless its name is there already. -/
def Refused (f : String) (params : List String) (args : List Ty) : Prop :=
  ∀ t, let t' := (monoRegister assertsHold t f none args (some f) params).2
    t'.entries = t.entries ∧
      (t.errors = [] → (∀ e ∈ t.entries, e.mangledName ≠ mangleGenericName f args) →
        t'.errors ≠ [])

theorem refused_of_deep (h : maxInstantiationDepth < maxArgDepth args 0) :
    Refused assertsHold f params args := by
  intro t
  have hfail : ∀ err, (t.fail err).entries = t.entries ∧ (t.fail err).errors ≠ [] :=
    fun err => ⟨rfl, List.append_ne_nil_of_right_ne_nil _ (List.cons_ne_nil _ _)⟩
  dsimp only [monoRegister, baseName]
  split_ifs with herr hname hvoid hcount hdepth
  · exact ⟨rfl, fun hnil => absurd hnil herr⟩
  · refine ⟨rfl, fun _ hnew => ?_⟩
    obtain ⟨e, he, hmangled⟩ := List.any_eq_true.mp hname
    exact absurd (of_decide_eq_true hmangled) (hnew e he)
  · exact ⟨(hfail _).1, fun _ _ => (hfail _).2⟩
  · exact ⟨(hfail _).1, fun _ _ => (hfail _).2⟩
  · exact ⟨(hfail _).1, fun _ _ => (hfail _).2⟩
  · exact ⟨(hfail _).1, fun _ _ => (hfail _).2⟩
  · simp [h] at hdepth

/-- A shallow instance is entered in an empty table. -/
theorem not_refused_of_shallow (h : maxArgDepth args 0 ≤ maxInstantiationDepth)
    (hvoid : args.any typeIsVoid = false) : ¬Refused (fun _ _ => true) f params args := by
  intro hrefused
  have hentries := (hrefused { entries := [], errors := [] }).1
  simp [monoRegister, hvoid, templateCount, maxPerTemplate, maxInstances, Nat.not_lt.mpr h]
    at hentries

end Guard
section Properties

/-- The types a program can build from the scalar types. -/
abbrev Buildable (cons : List Con) : Ty → Prop :=
  Built (fun t => ∃ kind, t = .prim kind) Con.build cons

def FinitelyMany (cons : List Con) : Prop :=
  ∀ D, {t | Buildable cons t ∧ typeArgDepth t ≤ D}.Finite

def Deepens (cons : List Con) : Prop := Increases Con.build typeArgDepth cons

/-- A generic function that instantiates itself along a chain of nested types meets an instance
that is refused. -/
def Stops (cons : List Con) : Prop :=
  ∀ assertsHold f params (t : ℕ → Ty), (∀ n, Buildable cons (t n)) →
    (∀ n, Nests Con.build cons (t n) (t (n + 1))) → ∃ n, Refused assertsHold f params [t n]

def NoTuple (cons : List Con) : Prop := ∀ n, 2 ≤ n → Con.tuple n ∉ cons

variable {cons : List Con}

theorem NoTuple.deepens (h : NoTuple cons) : Deepens cons := by
  intro c hc args t hbuild a ha
  apply Con.deeper _ hbuild ha
  rintro n hn rfl
  exact h n hn hc

theorem Deepens.finitelyMany (h : Deepens cons) : FinitelyMany cons :=
  finite_of_increases finite_prims Con.arity_of_build h

theorem Deepens.stops (h : Deepens cons) : Stops cons := by
  intro assertsHold f params t _ hchain
  refine ⟨maxInstantiationDepth + 1, refused_of_deep _ ?_⟩
  have hdepth := le_measure_of_chain h hchain (maxInstantiationDepth + 1)
  have hle := typeArgDepth_le_max (List.mem_singleton_self (t (maxInstantiationDepth + 1))) 0
  omega

/-- A scalar type wrapped in tuples again and again. -/
def tower (n : ℕ) : ℕ → Ty
  | 0 => .prim .int32
  | k + 1 => typeTuple (tower n k :: List.replicate (n - 1) (.prim .int32))

theorem depth_tower (n k : ℕ) : typeArgDepth (tower n k) = 1 := by
  cases k <;> rfl

theorem tower_not_void (n k : ℕ) : [tower n k].any typeIsVoid = false := by
  cases k <;> rfl

theorem tower_build {n : ℕ} (hn : 2 ≤ n) (k : ℕ) :
    (Con.tuple n).build (tower n k :: List.replicate (n - 1) (.prim .int32)) =
      some (tower n (k + 1)) := by
  rw [Con.build, if_pos]
  · rfl
  · constructor
    · rw [List.length_cons, List.length_replicate]
      omega
    · exact hn

theorem tower_nests {n : ℕ} (hn : 2 ≤ n) (hmem : .tuple n ∈ cons) (k : ℕ) :
    Nests Con.build cons (tower n k) (tower n (k + 1)) :=
  ⟨_, hmem, _, List.mem_cons_self, tower_build hn k⟩

theorem tower_buildable {n : ℕ} (hn : 2 ≤ n) (hmem : .tuple n ∈ cons) (k : ℕ) :
    Buildable cons (tower n k) := by
  induction k with
  | zero => exact .leaf ⟨.int32, rfl⟩
  | succ k ih =>
    apply Built.con hmem _ (tower_build hn k)
    intro x hx
    rcases List.mem_cons.mp hx with rfl | hpad
    · exact ih
    · rw [List.eq_of_mem_replicate hpad]
      exact .leaf ⟨.int32, rfl⟩

theorem tower_injective (n : ℕ) : Function.Injective (tower n) := by
  have hsize : StrictMono fun k => sizeOf (tower n k) := by
    apply strictMono_nat_of_lt_succ
    intro k
    simp only [tower, typeTuple, Ty.struct.sizeOf_spec, List.cons.sizeOf_spec]
    omega
  intro i j hij
  exact hsize.injective (congrArg sizeOf hij)

theorem noTuple_of_finitelyMany (h : FinitelyMany cons) : NoTuple cons := by
  intro n hn hmem
  apply Set.infinite_of_injective_forall_mem (tower_injective n) _ (h 1)
  exact fun k => ⟨tower_buildable hn hmem k, (depth_tower n k).le⟩

theorem noTuple_of_deepens (h : Deepens cons) : NoTuple cons := by
  intro n hn hmem
  have hlt := h _ hmem _ _ (tower_build hn 0) _ List.mem_cons_self
  rw [depth_tower, depth_tower] at hlt
  exact Nat.lt_irrefl 1 hlt

theorem noTuple_of_stops (h : Stops cons) : NoTuple cons := by
  intro n hn hmem
  obtain ⟨k, hrefused⟩ := h (fun _ _ => true) "fc__f" ["'a"] (tower n) (tower_buildable hn hmem)
    (tower_nests hn hmem)
  apply not_refused_of_shallow _ (tower_not_void n k) hrefused
  rw [maxArgDepth, maxArgDepth, depth_tower]
  decide

/-- The depth of type arguments is a termination measure exactly for the programs without
tuples. -/
theorem depth_measures_iff (cons : List Con) :
    (FinitelyMany cons ↔ NoTuple cons) ∧ (Deepens cons ↔ NoTuple cons) ∧
      (Stops cons ↔ NoTuple cons) := by
  refine ⟨⟨noTuple_of_finitelyMany, fun h => ?_⟩, ⟨noTuple_of_deepens, NoTuple.deepens⟩,
    ⟨noTuple_of_stops, fun h => ?_⟩⟩
  · exact h.deepens.finitelyMany
  · exact h.deepens.stops

/-- With pairs alone, no claim of the measure is true. -/
theorem pairs_escape_measure :
    ¬FinitelyMany [.tuple 2] ∧ ¬Deepens [.tuple 2] ∧ ¬Stops [.tuple 2] := by
  have hpair : ¬NoTuple [.tuple 2] := fun h => h 2 le_rfl (List.mem_singleton_self _)
  exact ⟨fun h => hpair (noTuple_of_finitelyMany h), fun h => hpair (noTuple_of_deepens h),
    fun h => hpair (noTuple_of_stops h)⟩

end Properties
end FcLang.Mono
