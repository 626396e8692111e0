import FcLang.Types.TypeId

/-!
# When two types are spelled alike

Two different types have one text only where the name of a template, continued
by `__` and a digit, is also the beginning of another name.
-/

namespace FcLang.Types
open Pieces

/-- The name `q` continues the name `p` by `__` and a text with which the arguments of `p` begin;
the rest of them are the arguments of `q`. -/
def Splits (p : String) (as : List (List Char)) (q : String) (bs : List (List Char)) : Prop :=
  ∃ v, v ≠ [] ∧ q.toList = p.toList ++ '_' :: '_' :: v ∧ encodeAll as = v ++ argText bs

mutual

/-- Constructor by constructor the same, up to names that split. -/
def Alike : TypeId → TypeId → Prop
  | .const a, b => match b with
    | .const b => Alike a b
    | _ => False
  | .pointer a, b => match b with
    | .pointer b => Alike a b
    | _ => False
  | .slice a, b => match b with
    | .slice b => Alike a b
    | _ => False
  | .option a, b => match b with
    | .option b => Alike a b
    | _ => False
  | .result a, b => match b with
    | .result b => Alike a b
    | _ => False
  | .fixedArray n a, b => match b with
    | .fixedArray m b => n = m ∧ Alike a b
    | _ => False
  | .func ps r v, b => match b with
    | .func qs s w => AlikeAll ps qs ∧ Alike r s ∧ v = w
    | _ => False
  | .named p as, b => match b with
    | .named q bs => p = q ∧ AlikeAll as bs ∨ Splits p (spellAll as) q (spellAll bs) ∨
        Splits q (spellAll bs) p (spellAll as)
    | _ => False
  | .tuple as, b => match b with
    | .tuple bs => AlikeAll as bs
    | _ => False
  | a, b => a = b

def AlikeAll : List TypeId → List TypeId → Prop
  | [], bs => bs = []
  | a :: as, bs => match bs with
    | [] => False
    | b :: bs => Alike a b ∧ AlikeAll as bs

end

mutual

/-- Every name in the type, with its arguments, satisfies `P`. -/
def AllNamed (P : String → List TypeId → Prop) : TypeId → Prop
  | .const t => AllNamed P t
  | .pointer t => AllNamed P t
  | .slice t => AllNamed P t
  | .option t => AllNamed P t
  | .result t => AllNamed P t
  | .fixedArray _ t => AllNamed P t
  | .func params ret _ => AllNamedIn P params ∧ AllNamed P ret
  | .named name args => P name args ∧ AllNamedIn P args
  | .tuple elems => AllNamedIn P elems
  | _ => True

def AllNamedIn (P : String → List TypeId → Prop) : List TypeId → Prop
  | [] => True
  | t :: ts => AllNamed P t ∧ AllNamedIn P ts

end

theorem allNamedIn_iff {P : String → List TypeId → Prop} {ts : List TypeId} :
    AllNamedIn P ts ↔ ∀ t ∈ ts, AllNamed P t := by
  induction ts with
  | nil => simp [AllNamedIn]
  | cons t ts ih => simp [AllNamedIn, ih]

theorem AllNamed.mono {P Q : String → List TypeId → Prop}
    (h : ∀ name args, P name args → Q name args) {t : TypeId} (ht : AllNamed P t) :
    AllNamed Q t := by
  induction t with
  | const t ih | pointer t ih | slice t ih | option t ih | result t ih | fixedArray _ t ih =>
    exact ih ht
  | func params ret _ ihparams ihret =>
    rw [AllNamed, allNamedIn_iff] at ht ⊢
    exact ⟨fun t hmem => ihparams t hmem (ht.1 t hmem), ihret ht.2⟩
  | named name args ih =>
    rw [AllNamed, allNamedIn_iff] at ht ⊢
    exact ⟨h name args ht.1, fun t hmem => ih t hmem (ht.2 t hmem)⟩
  | tuple elems ih =>
    rw [AllNamed, allNamedIn_iff] at ht ⊢
    exact fun t hmem => ih t hmem (ht t hmem)
  | _ => exact ht

/-- The constructor of a type. -/
def TypeId.tag : TypeId → ℕ
  | .prim _ => 0
  | .str => 1
  | .cstr => 2
  | .const _ => 3
  | .pointer _ => 4
  | .slice _ => 5
  | .option _ => 6
  | .result _ => 7
  | .anyPtr => 8
  | .fixedArray _ _ => 9
  | .constInt _ => 10
  | .func _ _ _ => 11
  | .named _ _ => 12
  | .tuple _ => 13

theorem argText_cases (as : List (List Char)) :
    as = [] ∧ argText as = [] ∨ as ≠ [] ∧ argText as = '_' :: '_' :: encodeAll as := by
  cases as with
  | nil => exact .inl ⟨rfl, rfl⟩
  | cons a as => exact .inr ⟨List.cons_ne_nil a as, rfl⟩

theorem Splits.text_eq {p q : String} {as bs : List (List Char)} (h : Splits p as q bs) :
    p.toList ++ argText as = q.toList ++ argText bs := by
  obtain ⟨v, hv, hq, has⟩ := h
  rcases argText_cases as with ⟨rfl, -⟩ | ⟨-, ha⟩
  · exact absurd (List.append_eq_nil_iff.mp has.symm).1 hv
  · rw [ha, has, hq]
    simp

end FcLang.Types
