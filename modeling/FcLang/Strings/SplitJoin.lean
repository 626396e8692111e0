import FcLang.Strings.Split

/-!
# Splitting and joining are inverse

Both passes of `split` follow the same pieces, and `join` writes as many bytes
as its size pass has counted.
-/

namespace FcLang.Strings
open Exec

section Pieces
variable {d s p rest : List UInt8} {ps qs : List (List UInt8)} {c : UInt8}

theorem Pieces.ne_nil (h : Pieces d s ps) : ps ≠ [] := by
  cases h <;> simp

/-- A byte at which no occurrence starts belongs to the first piece. -/
theorem Pieces.cons (h : Pieces d s (p :: ps)) (hc : ¬d <+: c :: s) :
    Pieces d (c :: s) ((c :: p) :: ps) := by
  cases h with
  | last h =>
    refine .last fun hd => ?_
    exact (List.infix_cons_iff.mp hd).elim hc h
  | @next _ rest _ leftmost h =>
    refine (Pieces.next (fun k hk => ?_) h : Pieces d ((c :: p) ++ (d ++ rest)) ((c :: p) :: ps))
    cases k with
    | zero => exact hc
    | succ k => exact leftmost k (by simpa using hk)

/-- An occurrence ends an empty piece. -/
theorem Pieces.hit (h : Pieces d s ps) : Pieces d (d ++ s) ([] :: ps) :=
  (Pieces.next (by simp) h : Pieces d ([] ++ (d ++ s)) ([] :: ps))

theorem pieces_short (h : s.length < d.length) : Pieces d s [s] :=
  .last fun hd => absurd hd.length_le (not_le.mpr h)

/-- No piece contains the delimiter. -/
theorem Pieces.not_infix (h : Pieces d s ps) (hd : d ≠ []) : ∀ p ∈ ps, ¬d <:+: p := by
  induction h with
  | last h => simpa using h
  | @next piece rest ps leftmost _ ih =>
    refine List.forall_mem_cons.mpr ⟨?_, ih⟩
    rintro ⟨a, b, rfl⟩
    refine leftmost a.length ?_ ?_
    · have hpos := List.length_pos_of_ne_nil hd
      simp only [List.length_append]
      omega
    · rw [List.append_assoc, List.append_assoc, List.drop_left]
      exact List.prefix_append _ _

theorem Pieces.intercalate_eq (h : Pieces d s ps) : List.intercalate d ps = s := by
  induction h with
  | last => simp [List.intercalate]
  | next _ h ih => rw [List.intercalate_cons_of_ne_nil h.ne_nil, ih, List.append_assoc]

/-- Two occurrences that are both leftmost end the same piece. -/
theorem piece_length_le {piece piece' rest rest' : List UInt8}
    (heq : piece ++ (d ++ rest) = piece' ++ (d ++ rest'))
    (leftmost : ∀ k < piece'.length, ¬d <+: (piece' ++ (d ++ rest')).drop k) :
    piece'.length ≤ piece.length := by
  by_contra hlt
  refine leftmost piece.length (not_le.mp hlt) ?_
  rw [← heq, List.drop_left]
  exact List.prefix_append _ _

/-- A string has only one list of pieces. -/
theorem Pieces.unique (h : Pieces d s ps) (h' : Pieces d s qs) : ps = qs := by
  induction h generalizing qs with
  | last h =>
    cases h' with
    | last => rfl
    | @next piece rest _ _ _ => exact absurd ⟨piece, rest, by rw [List.append_assoc]⟩ h
  | @next piece rest ps leftmost _ ih =>
    generalize hs : piece ++ (d ++ rest) = s at h'
    cases h' with
    | last h' => exact absurd ⟨piece, rest, by rw [List.append_assoc, hs]⟩ h'
    | @next piece' rest' qs leftmost' h' =>
      have hlen : piece.length = piece'.length := by
        refine le_antisymm (piece_length_le hs.symm leftmost) ?_
        exact piece_length_le hs leftmost'
      obtain ⟨rfl, hrest⟩ := List.append_inj hs hlen
      obtain rfl := List.append_cancel_left hrest
      rw [ih h']

end Pieces

section Split
variable {d s done cur rest : List UInt8} {count i : ℤ} {c : UInt8}

/-- The bytes compared at a position. -/
theorem range_window (hi : i = done.length) (hlen : d.length ≤ rest.length) :
    Slice.range (done ++ rest) i (i + d.length) = .ret (rest.take d.length) := by
  rw [Slice.range_eq_ret, List.length_append]
  refine ⟨⟨by omega, by omega, by push_cast; omega⟩, ?_⟩
  rw [hi, Int.toNat_natCast, List.drop_left, show ((done.length : ℤ) + d.length - done.length).toNat =
    d.length by omega]

theorem range_piece (hi : i = (done ++ cur).length) :
    Slice.range (done ++ cur ++ rest) done.length i = .ret cur := by
  rw [List.length_append] at hi
  rw [Slice.range_eq_ret, List.length_append, List.length_append]
  refine ⟨⟨by omega, by omega, by push_cast; omega⟩, ?_⟩
  rw [hi, Int.toNat_natCast, List.append_assoc, List.drop_left,
    show (((done.length + cur.length : ℕ) : ℤ) - done.length).toNat = cur.length by omega,
    List.take_left]

theorem countBody_short (done : List UInt8) (count : ℤ) (h : rest.length < d.length) :
    countBody (done ++ rest) d ((done.length : ℤ), count) = .ret (.inr count) := by
  have hgt : (done.length : ℤ) > ((done ++ rest).length : ℤ) - d.length := by
    rw [List.length_append]
    push_cast
    omega
  simp only [countBody, if_pos hgt, pure_eq]

theorem countBody_long (done : List UInt8) (count : ℤ) (h : d.length ≤ rest.length) :
    countBody (done ++ rest) d ((done.length : ℤ), count) =
      .ret (.inl (if d <+: rest then ((done.length : ℤ) + d.length, count + 1)
        else ((done.length : ℤ) + 1, count))) := by
  have hle : ¬(done.length : ℤ) > ((done ++ rest).length : ℤ) - d.length := by
    rw [List.length_append]
    push_cast
    omega
  simp only [countBody, if_neg hle, range_window rfl h, ret_bind, List.prefix_iff_eq_take,
    eq_comm (a := d)]
  split_ifs <;> rfl

theorem fillBody_short {st : Filling} (hi : st.i = done.length) (h : rest.length < d.length) :
    fillBody (done ++ rest) d st = .ret (.inr st) := by
  have hgt : st.i > ((done ++ rest).length : ℤ) - d.length := by
    rw [List.length_append]
    push_cast
    omega
  simp only [fillBody, if_pos hgt, pure_eq]

/-- What the slots hold: the pieces filled, and as many free slots as pieces to come. -/
def Slots (filled : List (List UInt8)) (free : ℕ) : List (Option (List UInt8)) :=
  filled.map some ++ List.replicate free none

theorem set_slot (filled : List (List UInt8)) (free : ℕ) (piece : List UInt8) :
    Slice.set (Slots filled (free + 1)) filled.length (some piece) =
      .ret (Slots (filled ++ [piece]) free) := by
  rw [Slots, List.replicate_succ, Slice.set_middle _ _ _ (by rw [List.length_map]), Slots,
    List.map_append, List.append_assoc]
  rfl

/-- The filling pass at a position: `filled` pieces are stored, the current one began after `done`
and has the bytes `cur` so far, and `free` slots are left. -/
def filling (filled : List (List UInt8)) (free : ℕ) (done cur : List UInt8) : Filling :=
  { parts := Slots filled free, idx := filled.length, start := done.length,
    i := (done ++ cur).length }

/-- An occurrence stores the current piece; the next one begins after it. -/
theorem fillBody_hit (filled : List (List UInt8)) (free : ℕ) (done cur rest : List UInt8) :
    fillBody (done ++ cur ++ (d ++ rest)) d (filling filled (free + 1) done cur) =
      .ret (.inl (filling (filled ++ [cur]) free (done ++ cur ++ d) [])) := by
  have hle : ¬((done ++ cur).length : ℤ) >
      ((done ++ cur ++ (d ++ rest)).length : ℤ) - d.length := by
    simp only [List.length_append]
    push_cast
    omega
  have hwindow : Slice.range (done ++ cur ++ (d ++ rest)) ((done ++ cur).length : ℤ)
      ((done ++ cur).length + d.length) = .ret d := by
    rw [range_window rfl (by simp), List.take_left]
  have hpiece : Slice.range (done ++ cur ++ (d ++ rest)) done.length
      ((done ++ cur).length : ℤ) = .ret cur := range_piece rfl
  simp only [fillBody, filling, if_neg hle, hwindow, ret_bind, if_true, hpiece, set_slot, pure_eq]
  simp [add_assoc]

theorem fillBody_miss (filled : List (List UInt8)) (free : ℕ) (done cur : List UInt8)
    (hlen : d.length ≤ (c :: rest).length) (h : ¬d <+: c :: rest) :
    fillBody (done ++ cur ++ c :: rest) d (filling filled free done cur) =
      .ret (.inl (filling filled free done (cur ++ [c]))) := by
  have hle : ¬((done ++ cur).length : ℤ) >
      ((done ++ cur ++ c :: rest).length : ℤ) - d.length := by
    simp only [List.length_append]
    push_cast
    omega
  have hne : ¬(c :: rest).take d.length = d := fun heq => h (List.prefix_iff_eq_take.mpr heq.symm)
  simp only [fillBody, filling, if_neg hle, range_window rfl hlen, ret_bind, if_neg hne, pure_eq]
  simp [add_assoc]

/-- The last piece is what follows the last occurrence. -/
theorem fillLast_filling (filled : List (List UInt8)) (done cur rest : List UInt8) :
    fillLast (done ++ cur ++ rest) (filling filled 1 done cur) =
      .ret ((filled ++ [cur ++ rest]).map some) := by
  have hpiece : Slice.range (done ++ cur ++ rest) done.length
      ((done ++ cur ++ rest).length : ℤ) = .ret (cur ++ rest) := by
    have h : Slice.range (done ++ (cur ++ rest) ++ []) done.length
        ((done ++ (cur ++ rest)).length : ℤ) = .ret (cur ++ rest) := range_piece rfl
    rwa [List.append_nil, ← List.append_assoc] at h
  have hslot := set_slot filled 0 (cur ++ rest)
  simp only [fillLast, filling, hpiece, ret_bind, hslot]
  simp [Slots]

/-- From any position before `rest`, both passes follow the pieces `p :: ps` of the rest. -/
structure Scan (d rest p : List UInt8) (ps : List (List UInt8)) : Prop where
  pieces : Pieces d rest (p :: ps)
  count : ∀ (done : List UInt8) (count : ℤ) (fuel : ℕ), rest.length < fuel →
    loop (countBody (done ++ rest) d) fuel ((done.length : ℤ), count) = .ret (count + ps.length)
  fill : ∀ (filled : List (List UInt8)) (done cur : List UInt8) (fuel : ℕ), rest.length < fuel →
    ∃ st, loop (fillBody (done ++ cur ++ rest) d) fuel
        (filling filled (ps.length + 1) done cur) = .ret st ∧
      fillLast (done ++ cur ++ rest) st = .ret ((filled ++ (cur ++ p) :: ps).map some)

/-- Without room for an occurrence both loops break, and what is left is the last piece. -/
theorem Scan.short (hlen : rest.length < d.length) : Scan d rest rest [] where
  pieces := pieces_short hlen
  count done count fuel hfuel := by
    obtain ⟨fuel, rfl⟩ := Nat.exists_eq_succ_of_ne_zero (Nat.ne_zero_of_lt hfuel)
    rw [loop_break (countBody_short done count hlen)]
    simp
  fill filled done cur fuel hfuel := by
    obtain ⟨fuel, rfl⟩ := Nat.exists_eq_succ_of_ne_zero (Nat.ne_zero_of_lt hfuel)
    exact ⟨_, loop_break (fillBody_short rfl hlen) fuel, fillLast_filling filled done cur rest⟩

/-- Both loops go on after an occurrence. -/
theorem Scan.hit {p : List UInt8} {ps : List (List UInt8)} (h : Scan d rest p ps) (hd : d ≠ []) :
    Scan d (d ++ rest) [] (p :: ps) where
  pieces := h.pieces.hit
  count done count fuel hfuel := by
    have hpos := List.length_pos_of_ne_nil hd
    obtain ⟨fuel, rfl⟩ := Nat.exists_eq_succ_of_ne_zero (Nat.ne_zero_of_lt hfuel)
    rw [List.length_append] at hfuel
    have hlen : d.length ≤ (d ++ rest).length := by simp
    have hstep := countBody_long done count hlen
    rw [if_pos (List.prefix_append d rest)] at hstep
    have hrun := h.count (done ++ d) (count + 1) fuel (by omega)
    rw [List.append_assoc, List.length_append, Nat.cast_add] at hrun
    rw [loop_next hstep, hrun, List.length_cons]
    congr 1
    push_cast
    ring
  fill filled done cur fuel hfuel := by
    have hpos := List.length_pos_of_ne_nil hd
    obtain ⟨fuel, rfl⟩ := Nat.exists_eq_succ_of_ne_zero (Nat.ne_zero_of_lt hfuel)
    rw [List.length_append] at hfuel
    obtain ⟨st, hst, hlast⟩ := h.fill (filled ++ [cur]) (done ++ cur ++ d) [] fuel (by omega)
    rw [List.append_nil, List.append_assoc (done ++ cur)] at hst hlast
    refine ⟨st, ?_, ?_⟩
    · rw [List.length_cons, loop_next (fillBody_hit filled _ done cur rest)]
      exact hst
    · rw [hlast, List.append_nil, List.nil_append, List.append_assoc, List.singleton_append]

/-- Where no occurrence starts, both loops go on with the next byte. -/
theorem Scan.miss {p : List UInt8} {ps : List (List UInt8)} (h : Scan d rest p ps)
    (hlen : d.length ≤ (c :: rest).length) (hmiss : ¬d <+: c :: rest) :
    Scan d (c :: rest) (c :: p) ps where
  pieces := h.pieces.cons hmiss
  count done count fuel hfuel := by
    obtain ⟨fuel, rfl⟩ := Nat.exists_eq_succ_of_ne_zero (Nat.ne_zero_of_lt hfuel)
    rw [List.length_cons] at hfuel
    have hstep := countBody_long done count hlen
    rw [if_neg hmiss] at hstep
    have hrun := h.count (done ++ [c]) count fuel (by omega)
    rw [List.append_assoc, List.length_append, Nat.cast_add] at hrun
    rw [loop_next hstep]
    exact hrun
  fill filled done cur fuel hfuel := by
    obtain ⟨fuel, rfl⟩ := Nat.exists_eq_succ_of_ne_zero (Nat.ne_zero_of_lt hfuel)
    rw [List.length_cons] at hfuel
    obtain ⟨st, hst, hlast⟩ := h.fill filled done (cur ++ [c]) fuel (by omega)
    have hs : done ++ (cur ++ [c]) ++ rest = done ++ cur ++ c :: rest := by simp
    rw [hs] at hst hlast
    refine ⟨st, ?_, ?_⟩
    · rw [loop_next (fillBody_miss filled _ done cur hlen hmiss)]
      exact hst
    · rw [hlast, List.append_assoc cur, List.singleton_append]

theorem exists_scan (hd : d ≠ []) (rest : List UInt8) : ∃ p ps, Scan d rest p ps := by
  induction hn : rest.length using Nat.strong_induction_on generalizing rest with
  | _ n ih =>
  subst hn
  have hpos := List.length_pos_of_ne_nil hd
  rcases lt_or_ge rest.length d.length with hlen | hlen
  · exact ⟨rest, [], .short hlen⟩
  by_cases hhit : d <+: rest
  · obtain ⟨rest, rfl⟩ := hhit
    rw [List.length_append] at ih
    obtain ⟨p, ps, h⟩ := ih rest.length (by omega) rest rfl
    exact ⟨[], p :: ps, h.hit hd⟩
  · obtain ⟨c, rest, rfl⟩ := List.exists_cons_of_length_pos (hpos.trans_le hlen)
    obtain ⟨p, ps, h⟩ := ih rest.length (by simp) rest rfl
    exact ⟨c :: p, ps, h.miss hlen hhit⟩

/-- Every string has one list of pieces; the counting pass finds its length and the filling pass
stores it. -/
theorem split_pieces (hd : d ≠ []) (s : List UInt8) {fuel : ℕ} (hfuel : s.length < fuel) :
    ∃ ps, Pieces d s ps ∧ countPieces fuel s d = .ret ps.length ∧
      split fuel s d = .ret (ps.map some) := by
  obtain ⟨p, ps, h⟩ := exists_scan hd s
  have hpos := List.length_pos_of_ne_nil hd
  have hcount : countPieces fuel s d = .ret (p :: ps).length := by
    rw [countPieces, if_pos (by omega)]
    refine (h.count [] 1 fuel hfuel).trans ?_
    rw [List.length_cons]
    congr 1
    push_cast
    ring
  obtain ⟨st, hst, hlast⟩ := h.fill [] [] [] fuel hfuel
  refine ⟨p :: ps, h.pieces, hcount, ?_⟩
  simp only [split, hcount, ret_bind, Int.toNat_natCast]
  rw [if_neg (by omega)]
  exact (congrArg (· >>= fillLast s) hst).trans hlast

theorem split_empty (s : List UInt8) (fuel : ℕ) : split fuel s [] = .ret [some s] := rfl

end Split

section Join
variable {d : List UInt8} {parts : List (List UInt8)}

theorem intercalate_snoc (done : List (List UInt8)) (p : List UInt8) :
    d.intercalate (done ++ [p]) =
      d.intercalate done ++ (if done.length > 0 then d else []) ++ p := by
  induction done with
  | nil => simp
  | cons q done ih =>
    rw [List.cons_append, List.intercalate_cons_of_ne_nil (by simp), ih]
    cases done with
    | nil => simp
    | cons => simp [List.intercalate_cons_cons]

theorem intercalate_take_succ {k : ℕ} (h : k < parts.length) :
    d.intercalate (parts.take (k + 1)) =
      d.intercalate (parts.take k) ++ (if k > 0 then d else []) ++ parts[k] := by
  rw [← List.take_append_getElem h, intercalate_snoc, List.length_take_of_le h.le]

/-- What is written first is not longer than the whole. -/
theorem intercalate_length_le (done rest : List (List UInt8)) :
    (d.intercalate done).length ≤ (d.intercalate (done ++ rest)).length := by
  induction rest generalizing done with
  | nil => rw [List.append_nil]
  | cons p rest ih =>
    have h := ih (done ++ [p])
    rw [intercalate_snoc, List.length_append, List.length_append, List.append_assoc,
      List.singleton_append] at h
    omega

theorem sizeBody_next {k : ℕ} (h : k < parts.length) :
    sizeBody parts d ((k : ℤ), ((d.intercalate (parts.take k)).length : ℤ)) =
      .ret (.inl (((k + 1 : ℕ) : ℤ), ((d.intercalate (parts.take (k + 1))).length : ℤ))) := by
  have hlt : ¬(k : ℤ) ≥ parts.length := by omega
  rw [intercalate_take_succ h]
  simp only [sizeBody, if_neg hlt, Slice.get_natCast h, ret_bind, pure_eq]
  by_cases hk : k > 0 <;> simp [hk, add_assoc]

/-- The size pass counts the bytes of the parts and of the delimiters between them. -/
theorem joinSize_eq {fuel : ℕ} (hfuel : parts.length < fuel) :
    joinSize fuel parts d = .ret (d.intercalate parts).length := by
  have hbreak : sizeBody parts d ((parts.length : ℤ),
      ((d.intercalate (parts.take parts.length)).length : ℤ)) =
        .ret (.inr ((d.intercalate parts).length : ℤ)) := by
    simp [sizeBody]
  have hwalk := (loop_walk
    (fun k => ((k : ℤ), ((d.intercalate (parts.take k)).length : ℤ)))
    (fun k hk => sizeBody_next hk) hbreak (Q := (· = ((d.intercalate parts).length : ℤ)))
    rfl fuel)
  obtain ⟨_, hret, rfl⟩ := hwalk.total hfuel
  exact hret

/-- A buffer of `total` bytes that begins with `bytes`; the next write follows them. -/
def written (total : ℕ) (bytes : List UInt8) : Writing :=
  { result := bytes.map some ++ List.replicate (total - bytes.length) none, pos := bytes.length }

theorem set_written {total : ℕ} {bytes : List UInt8} (h : bytes.length < total) (b : UInt8) :
    Slice.set (written total bytes).result (written total bytes).pos (some b) =
      .ret (written total (bytes ++ [b])).result := by
  have hslot : total - bytes.length = total - (bytes ++ [b]).length + 1 := by
    rw [List.length_append, List.length_singleton]
    omega
  rw [written, hslot, List.replicate_succ, Slice.set_middle _ _ _ (by simp), written]
  simp

theorem copyBody_next {total k : ℕ} {bytes src : List UInt8} (hk : k < src.length)
    (hroom : bytes.length + src.length ≤ total) :
    copyBody src (written total (bytes ++ src.take k), (k : ℤ)) =
      .ret (.inl (written total (bytes ++ src.take (k + 1)), ((k + 1 : ℕ) : ℤ))) := by
  have hlt : ¬(k : ℤ) ≥ src.length := by omega
  have hlen : (bytes ++ src.take k).length < total := by
    rw [List.length_append, List.length_take_of_le hk.le]
    omega
  have hsnoc : bytes ++ src.take (k + 1) = bytes ++ src.take k ++ [src[k]] := by
    rw [← List.take_append_getElem hk, List.append_assoc]
  simp only [copyBody, if_neg hlt, Slice.get_natCast hk, set_written hlen, ret_bind, pure_eq]
  rw [hsnoc, written, written]
  simp
  omega

theorem copyBytes_written {total fuel : ℕ} {bytes src : List UInt8}
    (hroom : bytes.length + src.length ≤ total) (hfuel : src.length < fuel) :
    copyBytes fuel src (written total bytes) = .ret (written total (bytes ++ src)) := by
  have hbreak : copyBody src (written total (bytes ++ src.take src.length), (src.length : ℤ)) =
      .ret (.inr (written total (bytes ++ src))) := by
    simp [copyBody]
  have hwalk := loop_walk (fun k => (written total (bytes ++ src.take k), (k : ℤ)))
    (fun k hk => copyBody_next hk hroom) hbreak (Q := (· = written total (bytes ++ src))) rfl fuel
  obtain ⟨_, hret, rfl⟩ := hwalk.total hfuel
  rwa [List.take_zero, List.append_nil] at hret

/-- One round copies the delimiter, except before the first part, and the part. -/
theorem joinBody_next {fuel k : ℕ} (hk : k < parts.length)
    (hfuel : d.length + (d.intercalate parts).length < fuel) :
    joinBody fuel parts d
        (written (d.intercalate parts).length (d.intercalate (parts.take k)), (k : ℤ)) =
      .ret (.inl (written (d.intercalate parts).length (d.intercalate (parts.take (k + 1))),
        ((k + 1 : ℕ) : ℤ))) := by
  have hlt : ¬(k : ℤ) ≥ parts.length := by omega
  have hroom := intercalate_length_le (d := d) (parts.take (k + 1)) (parts.drop (k + 1))
  rw [List.take_append_drop, intercalate_take_succ hk, List.length_append, List.length_append]
    at hroom
  have hdelim : (if (k : ℤ) > 0
      then copyBytes fuel d (written (d.intercalate parts).length (d.intercalate (parts.take k)))
      else .ret (written (d.intercalate parts).length (d.intercalate (parts.take k)))) =
      .ret (written (d.intercalate parts).length
        (d.intercalate (parts.take k) ++ if k > 0 then d else [])) := by
    by_cases hpos : k > 0
    · rw [if_pos hpos] at hroom
      rw [if_pos (by omega), if_pos hpos, copyBytes_written (by omega) (by omega)]
    · rw [if_neg (by omega), if_neg hpos, List.append_nil]
  have hpart : copyBytes fuel parts[k] (written (d.intercalate parts).length
      (d.intercalate (parts.take k) ++ if k > 0 then d else [])) =
        .ret (written (d.intercalate parts).length
          (d.intercalate (parts.take k) ++ (if k > 0 then d else []) ++ parts[k])) :=
    copyBytes_written (by rw [List.length_append]; omega) (by omega)
  simp only [joinBody, if_neg hlt, hdelim, Slice.get_natCast hk, hpart, ret_bind, pure_eq]
  rw [intercalate_take_succ hk]
  rfl

/-- The copy pass fills the buffer that the size pass has measured. -/
theorem joinCopy_eq {fuel : ℕ}
    (hfuel : parts.length + d.length + (d.intercalate parts).length < fuel) :
    joinCopy fuel parts d (List.replicate (d.intercalate parts).length none) =
      .ret (written (d.intercalate parts).length (d.intercalate parts)) := by
  have hbreak : joinBody fuel parts d (written (d.intercalate parts).length
      (d.intercalate (parts.take parts.length)), (parts.length : ℤ)) =
        .ret (.inr (written (d.intercalate parts).length (d.intercalate parts))) := by
    simp [joinBody]
  have hwalk := loop_walk
    (fun k => (written (d.intercalate parts).length (d.intercalate (parts.take k)), (k : ℤ)))
    (fun k hk => joinBody_next hk (by omega)) hbreak
    (Q := (· = written (d.intercalate parts).length (d.intercalate parts))) rfl fuel
  obtain ⟨_, hret, rfl⟩ := hwalk.total (by omega)
  exact hret

theorem written_full (bytes : List UInt8) :
    written bytes.length bytes = { result := bytes.map some, pos := bytes.length } := by
  simp [written]

theorem join_eq {fuel : ℕ} (hfuel : parts.length + d.length + (d.intercalate parts).length < fuel) :
    join fuel parts d = .ret ((d.intercalate parts).map some) := by
  rw [join, joinSize_eq (by omega), ret_bind, Int.toNat_natCast, joinCopy_eq hfuel, written_full]
  rfl

end Join

/-- `split` stores the pieces of a string, one in every slot that its counting pass has made;
`join` puts them together again; and the size pass of `join` is what its copy pass writes. -/
theorem split_join_exact :
    (∀ s d : List UInt8, d ≠ [] → ∃ ps, Pieces d s ps ∧ (∀ qs, Pieces d s qs → qs = ps) ∧
      (∀ p ∈ ps, ¬d <:+: p) ∧ ∃ budget, ∀ fuel ≥ budget,
        countPieces fuel s d = .ret ps.length ∧ split fuel s d = .ret (ps.map some) ∧
        join fuel ps d = .ret (s.map some)) ∧
    (∀ (s : List UInt8) (fuel : ℕ), split fuel s [] = .ret [some s]) ∧
    ∀ (parts : List (List UInt8)) (d : List UInt8), ∃ budget, ∀ fuel ≥ budget, ∃ total : ℕ,
      joinSize fuel parts d = .ret total ∧ (d.intercalate parts).length = total ∧
      joinCopy fuel parts d (List.replicate total none) =
        .ret { result := (d.intercalate parts).map some, pos := total } := by
  refine ⟨fun s d hd => ?_, split_empty, fun parts d => ?_⟩
  · obtain ⟨ps, hps, -⟩ := split_pieces hd s s.length.lt_succ_self
    refine ⟨ps, hps, fun qs hqs => hqs.unique hps, hps.not_infix hd,
      ps.length + d.length + s.length + 1, fun fuel hfuel => ?_⟩
    obtain ⟨qs, hqs, hcount, hsplit⟩ := split_pieces hd s (show s.length < fuel by omega)
    obtain rfl := hqs.unique hps
    refine ⟨hcount, hsplit, ?_⟩
    have hsize : qs.length + d.length + (d.intercalate qs).length < fuel := by
      rw [hps.intercalate_eq]
      omega
    rw [join_eq hsize, hps.intercalate_eq]
  · refine ⟨parts.length + d.length + (d.intercalate parts).length + 1, fun fuel hfuel =>
      ⟨(d.intercalate parts).length, joinSize_eq (by omega), rfl, ?_⟩⟩
    rw [joinCopy_eq (by omega), written_full]

/-- `a,,,b` at `,,`: the delimiters are taken from the left. -/
theorem split_join_exact_commas : ∃ budget, ∀ fuel ≥ budget,
    split fuel [97, 44, 44, 44, 98] [44, 44] = .ret [some [97], some [44, 98]] ∧
      join fuel [[97], [44, 98]] [44, 44] = .ret ([97, 44, 44, 44, 98].map some) := by
  have hpieces : Pieces [44, 44] [97, 44, 44, 44, 98] [[97], [44, 98]] :=
    @Pieces.next [44, 44] [97] [44, 98] [[44, 98]] (by decide) (.last (by decide))
  obtain ⟨ps, -, honly, -, budget, hrun⟩ :=
    split_join_exact.1 [97, 44, 44, 44, 98] [44, 44] (by decide)
  obtain rfl := honly _ hpieces
  exact ⟨budget, fun fuel hfuel => (hrun fuel hfuel).2⟩

end FcLang.Strings
