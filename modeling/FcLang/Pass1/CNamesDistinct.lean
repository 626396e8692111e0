import FcLang.Pass1.CNames

/-!
# Which programs have distinct C names

The collision check makes the names of declarations distinct. An instance shares
its name with another entity only where a declaration continues the template
behind an underscore that ends its name.
-/

namespace FcLang.Pass1
open Types Pieces

section Names

/-- The C name that registration gives, and the number of type parameters. -/
def Decl.registered : Decl → Option (String × ℕ)
  | .letDecl _ codegenName n _ => codegenName.map fun cname => (cname, n)
  | .struct name n _ => some (name, n)
  | .union name n => some (name, n)
  | .enum name => some (name, 0)
  | _ => none

/-- The name of one of the places, whose path is of identifiers, with its parameters. -/
def IsPlace (places : List Place) (t : String × ℕ) : Prop :=
  ∃ q ∈ places, q.path ≠ [] ∧ (∀ c ∈ q.path, Identifier c) ∧ t = (pathName q.path, q.typeParamCount)

theorem IsPlace.mono {ps qs : List Place} {t : String × ℕ} (h : IsPlace ps t)
    (hsub : ∀ q ∈ ps, q ∈ qs) : IsPlace qs t := by
  obtain ⟨q, hq, hplace⟩ := h
  exact ⟨q, hsub q hq, hplace⟩

theorem identifiers_snoc {path : List String} {name : String} (hpath : ∀ c ∈ path, Identifier c)
    (hname : Identifier name) : ∀ c ∈ path ++ [name], Identifier c := by
  intro c hc
  rcases List.mem_append.mp hc with hmem | hmem
  · exact hpath c hmem
  · rwa [List.mem_singleton.mp hmem]

theorem isPlace_snoc {path : List String} {name : String} (hpath : ∀ c ∈ path, Identifier c)
    (hname : Identifier name) (n : ℕ) :
    IsPlace [⟨path ++ [name], n⟩] (pathName (path ++ [name]), n) :=
  ⟨_, List.mem_singleton_self _, by simp, identifiers_snoc hpath hname, rfl⟩

mutual

theorem isPlace_of_walk : ∀ (d : Decl) (path : List String), d.Lexed → (∀ c ∈ path, Identifier c) →
    ∀ e ∈ (register path d).walk, ∀ t, e.registered = some t → IsPlace (d.places path) t
  | .letDecl _ _ n _, path, hd, hpath, e, he, t, ht => by
    rw [List.mem_singleton.mp he] at ht
    cases ht
    exact isPlace_snoc hpath hd n
  | .struct _ n _, path, hd, hpath, e, he, t, ht => by
    rw [List.mem_singleton.mp he] at ht
    cases ht
    exact isPlace_snoc hpath hd n
  | .union _ n, path, hd, hpath, e, he, t, ht => by
    rw [List.mem_singleton.mp he] at ht
    cases ht
    exact isPlace_snoc hpath hd n
  | .enum _, path, hd, hpath, e, he, t, ht => by
    rw [List.mem_singleton.mp he] at ht
    cases ht
    exact isPlace_snoc hpath hd 0
  | .externSym _, path, hd, hpath, e, he, t, ht => by
    rw [List.mem_singleton.mp he] at ht
    cases ht
  | .module m decls, path, hd, hpath, e, he, t, ht =>
    isPlace_of_walkAll decls (path ++ [m]) hd.2 (identifiers_snoc hpath hd.1) e he t ht
  | .other, path, hd, hpath, e, he, t, ht => by
    rw [List.mem_singleton.mp he] at ht
    cases ht

theorem isPlace_of_walkAll : ∀ (ds : List Decl) (path : List String), LexedAll ds →
    (∀ c ∈ path, Identifier c) →
    ∀ e ∈ walkAll (registerAll path ds), ∀ t, e.registered = some t → IsPlace (placesAll path ds) t
  | [], _, _, _, _, he, _, _ => by cases he
  | d :: ds, path, hds, hpath, e, he, t, ht => by
    rcases List.mem_append.mp he with hmem | hmem
    · exact (isPlace_of_walk d path hds.1 hpath e hmem t ht).mono
        fun q hq => List.mem_append_left _ hq
    · exact (isPlace_of_walkAll ds path hds.2 hpath e hmem t ht).mono
        fun q hq => List.mem_append_right _ hq

end

end Names
section Check

end Check
section Spelling

end Spelling
section Overlaps

end Overlaps
section Exposed

end Exposed
section Distinct

end Distinct
section Samples

end Samples
end FcLang.Pass1
