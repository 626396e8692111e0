import FcLang.Parser.Cast

/-!
# Printed expressions are read back
-/

namespace FcLang.Parser
open Ctx
open Lexer (TokenKind)

section
variable {g : List Name} {K w : List Tok} {c : Ctx} {s : State} {t : Tok}

namespace Written

section
variable (hK : endsLine (peekAt K 0) = true) (hc : c.genericNames = g)
  {n : ℕ} (hex : ∀ x : Written, x.toks.length < n → Exact g K castFree x)
include hK hc hex

end

section
variable {m : ℕ} {start : Start} {left : Expr}

section
variable (hK : endsLine (peekAt K 0) = true) (hc : c.genericNames = g)
include hK hc

omit hc in
/-- An operator between two operands, a `<` among them. -/
theorem infix_binary {op : BinaryOp} (hs : At g K s w) (hgate : gateGenericName c left = false) :
    parseInfix c start left op.kind s = (parseExpr c (op.prec + 1) s).bind
      fun p => some (.binary op.kind left p.1, p.2) := by
  have hrhs : parseBinaryRhs c left op.kind s = (parseExpr c (op.prec + 1) s).bind
      fun p => some (.binary op.kind left p.1, p.2) := by
    rw [parseBinaryRhs]
    rfl
  rw [← hrhs, parseInfix.eq_def]
  cases op with
  | lt => simp only [BinaryOp.kind, bind_run, genericSuffix_none hK hs hgate, Option.bind_some]
  | _ => rfl

end

end

section
variable (hK : endsLine (peekAt K 0) = true)
include hK

end

theorem exact_binary {op : BinaryOp} {l r : Written} (hK : endsLine (peekAt K 0) = true)
    (hl : Exact g K castFree l) (hr : Exact g K castFree r) : Exact g K castFree (binary op l r) := by
  intro c m s w hc hfree hf hn hm hs hnext
  have hs : At g K s (l.toks ++ mark op.kind :: (r.toks ++ w)) := by simpa [toks] using hs
  have hbounds := BinaryOp.prec_bounds op
  simp only [precLor, precMul] at hbounds
  have hleft := (lt_rightMin hf.1 (by simp only [precAssign]; omega)).2 (by simp only [precMul]; omega)
  have hright := (lt_rightMin hf.2.1 (by simp only [precAssign]; omega)).1
  obtain ⟨s', hpast, hrun⟩ := hl hc (fun h => (hfree h).1) hf.2.2.1 hn.1 (hm.trans hf.1) hs hleft
  have hprec : infixPrec (peekAt (w ++ K) 0) < op.prec + 1 := hnext
  obtain ⟨s'', hpast', hrun'⟩ := hr.run hK hc (fun h => (hfree h).2) hf.2.2.2 hn.2 hf.2.1
    hpast.2.advance.reached (hprec.trans_le hright) (.inr hprec)
  have hgate := l.gate_tree (hc ▸ hn.1) c.inConstExpr
  refine ⟨s'', hpast.trans (hpast.2.past_advance.trans hpast'), ?_⟩
  rw [hrun, exprLoop_step hpast.2 hgate (Nat.pos_iff_ne_zero.mp (by
    show 0 < op.prec
    omega)) hm, mark_kind, infix_binary hK hpast.2.advance.reached hgate, hrun', Option.bind_some,
    Option.bind_some]
  rfl

end Written
end
end FcLang.Parser
