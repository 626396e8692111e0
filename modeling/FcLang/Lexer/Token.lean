import Mathlib.Tactic

/-!
# Tokens

A token carries the bytes it was scanned from and where it begins. Layout
tokens have no bytes. A fatal diagnostic ends lexing; the scanning loop may
also run out of the budget it is given.
-/

namespace FcLang.Lexer

inductive TokenKind where
  | intLit | floatLit | stringLit | cstringLit | charLit
  | ident | typeVar
  | kwLet | kwMut | kwStruct | kwUnion | kwEnum | kwError | kwModule | kwNamespace | kwImport
  | kwFrom | kwAs | kwExtern | kwPrivate | kwMatch | kwWith | kwWhen | kwIf | kwThen | kwElse
  | kwFor | kwIn | kwLoop | kwDo | kwBreak | kwContinue | kwReturn | kwDefer | kwIgnore | kwSome
  | kwTrue | kwFalse | kwNone | kwOk | kwErr | kwVoid | kwGuarded | kwUnguarded | kwChecked
  | kwUnchecked | kwAlloc | kwAlloca | kwFree | kwSizeof | kwAlignof | kwBitcast | kwEnumOf
  | kwDefault | kwConst | kwAssert | kwStaticAssert | kwErrorName | kwAtomicLoad | kwAtomicStore
  | interpStart | cinterpStart | interpMid | interpEnd | fmtSpec
  | plus | minus | star | slash | percent | amp | pipe | caret | tilde | bang | eq | eqEq | bangEq
  | lt | gt | ltEq | gtEq | ltLt | gtGt | ampAmp | pipePipe | arrow | dotDot | ellipsis | dot
  | colonColon | colon | comma | question | semicolon
  | lparen | rparen | lbracket | rbracket | lbrace | rbrace
  | newline | indent | dedent
  | hashIf | hashElse | hashElseIf | hashEnd
  | eof
  deriving DecidableEq

structure Token where
  kind : TokenKind
  text : List UInt8
  line : ℕ
  col : ℕ
  deriving DecidableEq

structure Diag where
  loc : Option (ℕ × ℕ)
  message : String
  deriving DecidableEq

inductive Stop where
  | fatal (d : Diag)
  | budget
  deriving DecidableEq

abbrev Run := Except Stop

def bytes (s : String) : List UInt8 := s.toList.map Char.toUInt8

def spell (text : List UInt8) : String := String.ofList (text.map fun c => Char.ofNat c.toNat)

def diagFatal {α : Type} (line col : ℕ) (message : String) : Run α :=
  .error (.fatal ⟨some (line, col), message⟩)

def diagFatalSimple {α : Type} (message : String) : Run α := .error (.fatal ⟨none, message⟩)

/-- Fatal at the place where a token begins. -/
def Token.fatal {α : Type} (t : Token) (message : String) : Run α := diagFatal t.line t.col message

/-- The kinds that stand for characters of the source. -/
@[simp] def TokenKind.OfSource (k : TokenKind) : Prop := k ≠ .indent ∧ k ≠ .dedent ∧ k ≠ .eof

instance (k : TokenKind) : Decidable k.OfSource := inferInstanceAs (Decidable (_ ∧ _ ∧ _))

theorem Run.bind_eq_ok {α β : Type} {x : Run α} {f : α → Run β} {b : β} :
    (x >>= f) = .ok b ↔ ∃ a, x = .ok a ∧ f a = .ok b := by
  cases x with
  | error e => simp [bind, Except.bind]
  | ok a => simp [bind, Except.bind]

/-- A check that is fatal when it fails. -/
theorem Run.check_eq_ok {α : Type} {c : Prop} [Decidable c] {t : Token} {message : String}
    {x : Run α} {a : α} : (if c then t.fatal message else x) = .ok a ↔ ¬c ∧ x = .ok a := by
  by_cases hc : c
  · simp [hc, Token.fatal, diagFatal]
  · simp [hc]

theorem Token.fatal_ne_budget {α : Type} (t : Token) (message : String) :
    (t.fatal message : Run α) ≠ .error .budget := by
  simp [Token.fatal, diagFatal]

theorem Run.bind_ne_budget {α β : Type} {x : Run α} {f : α → Run β} (hx : x ≠ .error .budget)
    (hf : ∀ a, x = .ok a → f a ≠ .error .budget) : (x >>= f) ≠ .error .budget := by
  cases x with
  | error e => simpa [bind, Except.bind] using hx
  | ok a => exact hf a rfl

end FcLang.Lexer
