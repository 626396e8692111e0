import FcLang.Json.Value
import FcLang.Lib.PrintfLength
import Mathlib.Data.List.TakeWhile

/-!
# JSON round trip

The serializer, and that the parser reads back what it writes. A value is read up
to where it ends, whatever stands behind it; for a number, what stands behind it
must not continue it.
-/

namespace FcLang.Json
open Printf (ascii isDigit number Directive)

/-- A byte of a string; a control character that has no escape of its own is `\\u%04x`. -/
def emitByte (c : UInt8) : List UInt8 :=
  if c = quote then [backslash, quote]
  else if c = backslash then [backslash, backslash]
  else if c = 8 then ascii "\\b"
  else if c = 12 then ascii "\\f"
  else if c = 10 then ascii "\\n"
  else if c = 13 then ascii "\\r"
  else if c = 9 then ascii "\\t"
  else if c < 0x20 then ascii "\\u" ++ Printf.atLeast 4 (Printf.digits 16 false c.toNat)
  else [c]

def emitString (s : List UInt8) : List UInt8 := quote :: (s.flatMap emitByte ++ [quote])

/-- `%lld` -/
def formatInt (z : ℤ) : List UInt8 := Printf.signed (Printf.bare 'd'.toUInt8) z

/-- `%.17g` -/
def formatDouble (d : Flt) : List UInt8 :=
  let directive : Directive := { Printf.bare 'g'.toUInt8 with precision := some 17 }
  match d with
  | .finite q => Printf.floatText directive (q < 0) (.finite |q|)
  | .infinite negative => Printf.floatText directive negative .infinite
  | .nan => Printf.floatText directive false .nan

def emitNumber (d : Flt) : List UInt8 :=
  match d with
  | .finite q =>
    if -9200000000000000000 ≤ q ∧ q ≤ 9200000000000000000 ∧ q = Flt.trunc q then
      formatInt (Flt.trunc q)
    else formatDouble d
  | d => formatDouble d

mutual

def jsonSerialize : JsonValue → List UInt8
  | .null => ascii "null"
  | .bool b => if b then ascii "true" else ascii "false"
  | .number d => emitNumber d
  | .string s => emitString s
  | .array items => '['.toUInt8 :: (serializeItems true items ++ [']'.toUInt8])
  | .object members => '\x7b'.toUInt8 :: (serializeMembers true members ++ ['\x7d'.toUInt8])

/-- The loop over the items of an array. -/
def serializeItems (first : Bool) : List JsonValue → List UInt8
  | [] => []
  | v :: items =>
    (if first then [] else [','.toUInt8]) ++ jsonSerialize v ++ serializeItems false items

/-- The loop over the members of an object. A key is written up to its NUL. -/
def serializeMembers (first : Bool) : List (List UInt8 × JsonValue) → List UInt8
  | [] => []
  | (key, v) :: members =>
    (if first then [] else [','.toUInt8]) ++ emitString (cString key) ++ [':'.toUInt8] ++
      jsonSerialize v ++ serializeMembers false members

end

/-- Numbers are integers of magnitude at most 2^53, and keys have no NUL. -/
inductive Plain : JsonValue → Prop where
  | null : Plain .null
  | bool (b : Bool) : Plain (.bool b)
  | number (z : ℤ) (bound : |z| ≤ 2 ^ 53) : Plain (.number (.finite z))
  | string (s : List UInt8) : Plain (.string s)
  | array {items : List JsonValue} (plain : ∀ v ∈ items, Plain v) : Plain (.array items)
  | object {members : List (List UInt8 × JsonValue)} (keys : ∀ m ∈ members, 0 ∉ m.1)
      (plain : ∀ m ∈ members, Plain m.2) : Plain (.object members)

theorem parseString_simple {e b : UInt8} (h : simpleEscape e = some b) (rest : List UInt8) :
    parseString (backslash :: e :: rest) = (parseString rest).map fun r => (b :: r.1, r.2) := by
  have hread : parseEscape (e :: rest) = some ([b], rest) := by rw [parseEscape, h]
  exact parseString_escape hread

/-- The four digits of a control character. -/
theorem control_digits : ∀ n < 32, Printf.atLeast 4 (Printf.digits 16 false n) =
    ['0'.toUInt8, '0'.toUInt8, UInt8.ofNat (48 + n / 16), Printf.digitChar false (n % 16)] := by
  decide

theorem parseString_control {n : ℕ} (hn : n < 32) (rest : List UInt8) :
    parseString (ascii "\\u" ++ Printf.atLeast 4 (Printf.digits 16 false n) ++ rest) =
      (parseString rest).map fun r => (UInt8.ofNat n :: r.1, r.2) := by
  rw [control_digits n hn]
  have hread : parseEscape ('u'.toUInt8 :: '0'.toUInt8 :: '0'.toUInt8 :: UInt8.ofNat (48 + n / 16) ::
      Printf.digitChar false (n % 16) :: rest) = some ([UInt8.ofNat n], rest) := by
    interval_cases n <;> rfl
  exact parseString_escape hread

theorem parseString_emitByte (c : UInt8) (rest : List UInt8) :
    parseString (emitByte c ++ rest) = (parseString rest).map fun r => (c :: r.1, r.2) := by
  unfold emitByte
  split_ifs with h1 h2 h3 h4 h5 h6 h7 h8
  · subst h1
    exact parseString_simple rfl rest
  · subst h2
    exact parseString_simple rfl rest
  · subst h3
    exact parseString_simple rfl rest
  · subst h4
    exact parseString_simple rfl rest
  · subst h5
    exact parseString_simple rfl rest
  · subst h6
    exact parseString_simple rfl rest
  · subst h7
    exact parseString_simple rfl rest
  · have hlt : c.toNat < 32 := UInt8.lt_iff_toNat_lt.mp h8
    rw [parseString_control hlt, UInt8.ofNat_toNat]
  · exact parseString_raw h1 h2 rest

theorem parseString_emitString (s rest : List UInt8) :
    parseString (s.flatMap emitByte ++ quote :: rest) = some (s, rest) := by
  induction s with
  | nil => exact parseString_quote rest
  | cons c s ih => rw [List.flatMap_cons, List.append_assoc, parseString_emitByte, ih]; rfl

/-- Nothing that continues a number. -/
def EndsNumber (rest : List UInt8) : Prop := ∀ c ∈ rest.head?, isNumberChar c = false

/-- An integer is written as its digits behind a minus sign. -/
theorem formatInt_eq (z : ℤ) : ∃ ds, formatInt z = (if z < 0 then ['-'.toUInt8] else []) ++ ds ∧
    ds ≠ [] ∧ (∀ c ∈ ds, isDigit c = true) ∧ number ds = z.natAbs ∧
    ∀ k, z.natAbs < 10 ^ (k + 1) → ds.length ≤ k + 1 := by
  refine ⟨Printf.atLeast 1 (Printf.digits 10 false z.natAbs), ?_, ?_, ?_, ?_, ?_⟩
  · simp [formatInt, Printf.signed, Directive.field, Directive.sign, Printf.bare, ascii]
  · intro h
    have := congrArg List.length h
    rw [Printf.atLeast_length, List.length_nil] at this
    omega
  · intro c hc
    rw [Printf.atLeast, List.mem_append] at hc
    obtain h | h := hc
    · rw [List.eq_of_mem_replicate h]
      rfl
    · exact Printf.isDigit_of_mem_digits c h
  · obtain h | h := Nat.eq_zero_or_pos (Printf.digits 10 false z.natAbs).length
    · rw [List.length_eq_zero_iff] at h
      have hzero := Printf.number_digits z.natAbs
      rw [h] at hzero ⊢
      exact hzero
    · rw [Printf.atLeast, Nat.sub_eq_zero_of_le h, List.replicate_zero, List.nil_append,
        Printf.number_digits]
  · intro k hk
    have := Printf.digits_length_le (by norm_num) false hk
    rw [Printf.atLeast_length]
    omega

theorem isNumberChar_digit {c : UInt8} (h : isDigit c = true) : isNumberChar c = true := by
  rw [isNumberChar, h, Bool.true_or]

theorem isDigit_ne_sign {c : UInt8} (h : isDigit c = true) :
    c ≠ '-'.toUInt8 ∧ c ≠ '+'.toUInt8 := by
  constructor <;> rintro rfl <;> cases h

theorem strtod_digits {ds : List UInt8} (hne : ds ≠ []) (hds : ∀ c ∈ ds, isDigit c = true)
    (negative : Bool) :
    strtod ((if negative then ['-'.toUInt8] else []) ++ ds) =
      FloatFormat.binary64.round (if negative then -(number ds : ℚ) else number ds) := by
  have hhead : ds.head? ≠ some '-'.toUInt8 ∧ ds.head? ≠ some '+'.toUInt8 := by
    constructor
    · intro h
      exact (isDigit_ne_sign (hds _ (List.mem_of_mem_head? h))).1 rfl
    · intro h
      exact (isDigit_ne_sign (hds _ (List.mem_of_mem_head? h))).2 rfl
  have htake : ds.takeWhile isDigit = ds := List.takeWhile_eq_self_iff.mpr hds
  have hdrop : ds.dropWhile isDigit = [] := List.dropWhile_eq_nil_iff.mpr hds
  cases negative with
  | true => simp [strtod, htake, hdrop, hne, strtodExponent]
  | false => simp [strtod, hhead, htake, hdrop, hne, strtodExponent]

/-- The parser reads an integer back. -/
theorem parseNumber_formatInt {z : ℤ} (hz : |z| ≤ 2 ^ 53) {rest : List UInt8}
    (hrest : EndsNumber rest) :
    parseNumber (formatInt z ++ rest) = some (.number (.finite z), rest) := by
  obtain ⟨ds, htext, hne, hds, hnumber, hlen⟩ := formatInt_eq z
  have hnat : z.natAbs < 10 ^ (16 + 1) := by
    have habs : (z.natAbs : ℤ) ≤ 2 ^ 53 := by rwa [Int.natCast_natAbs]
    omega
  have hlen := hlen 16 hnat
  have hpos : 0 < ds.length := List.length_pos_iff.mpr hne
  have hround : FloatFormat.binary64.round (z : ℚ) = .finite z :=
    FloatFormat.binary64.round_intCast hz (by decide)
  have hvalue : strtod (formatInt z) = .finite z := by
    have h := strtod_digits hne hds (decide (z < 0))
    simp only [decide_eq_true_eq] at h
    rw [htext, h, hnumber, ← hround]
    congr 1
    split_ifs with hneg
    · rw [← Int.cast_natCast, Int.natCast_natAbs, abs_of_neg hneg]
      push_cast
      ring
    · rw [← Int.cast_natCast, Int.natCast_natAbs, abs_of_nonneg (by omega)]
  have hends : rest.dropWhile isNumberChar = rest := by
    cases rest with
    | nil => rfl
    | cons c rest => exact List.dropWhile_cons_of_neg (by simp [hrest c rfl])
  have hdrop : (ds ++ rest).dropWhile isNumberChar = rest := by
    rw [List.dropWhile_append_of_pos fun c hc => isNumberChar_digit (hds c hc), hends]
  have hbody : (if (formatInt z ++ rest).head? = some '-'.toUInt8 ∨
      (formatInt z ++ rest).head? = some '+'.toUInt8 then (formatInt z ++ rest).tail
      else formatInt z ++ rest) = ds ++ rest := by
    rw [htext]
    split_ifs with hneg hsign hsign
    · rfl
    · exact (hsign (.inl rfl)).elim
    · have hhead : (ds ++ rest).head? = ds.head? := by
        cases ds with
        | nil => exact (hne rfl).elim
        | cons c ds => rfl
      rw [List.nil_append, hhead] at hsign
      obtain h | h := hsign
      · exact ((isDigit_ne_sign (hds _ (List.mem_of_mem_head? h))).1 rfl).elim
      · exact ((isDigit_ne_sign (hds _ (List.mem_of_mem_head? h))).2 rfl).elim
    · rfl
  have htextlen : (formatInt z).length ≤ 18 ∧ 0 < (formatInt z).length := by
    rw [htext, List.length_append]
    split_ifs <;> simp <;> omega
  unfold parseNumber
  dsimp only
  rw [hbody, hdrop, List.length_append, Nat.add_sub_cancel, if_neg (by omega), List.take_left,
    hvalue]

theorem emitNumber_int {z : ℤ} (hz : |z| ≤ 2 ^ 53) : emitNumber (.finite z) = formatInt z := by
  have htrunc : Flt.trunc (z : ℚ) = z := by simp [Flt.trunc]
  have hbound := abs_le.mp hz
  have hlo : (-9200000000000000000 : ℚ) ≤ z := by exact_mod_cast (by omega : -9200000000000000000 ≤ z)
  have hhi : (z : ℚ) ≤ 9200000000000000000 := by exact_mod_cast (by omega : z ≤ 9200000000000000000)
  simp only [emitNumber, htrunc]
  rw [if_pos ⟨hlo, hhi, trivial⟩]

/-- How a value that has been written starts. -/
def StartsValue (c : UInt8) : Prop := isSpace c = false ∧ c ≠ ']'.toUInt8 ∧ c ≠ '\x7d'.toUInt8

instance (c : UInt8) : Decidable (StartsValue c) :=
  inferInstanceAs (Decidable (_ ∧ _ ∧ _))

theorem digit_cases : ∀ c : UInt8, isDigit c = true →
    StartsValue c ∧ c ≠ '\x7b'.toUInt8 ∧ c ≠ '['.toUInt8 ∧ c ≠ quote ∧ c ≠ 't'.toUInt8 ∧
      c ≠ 'f'.toUInt8 ∧ c ≠ 'n'.toUInt8 := by
  intro c hc
  refine ⟨⟨?_, ?_, ?_⟩, ?_, ?_, ?_, ?_, ?_, ?_⟩
  · rw [← Bool.not_eq_true, isSpace, decide_eq_true_eq]
    intro hmem
    simp [ascii] at hmem
    obtain rfl | rfl | rfl | rfl := hmem <;> cases hc
  all_goals rintro rfl; cases hc

theorem Plain.starts {v : JsonValue} (h : Plain v) :
    ∃ c text, jsonSerialize v = c :: text ∧ StartsValue c := by
  cases h with
  | null => exact ⟨_, _, rfl, by decide⟩
  | bool b => cases b <;> exact ⟨_, _, rfl, by decide⟩
  | string s => exact ⟨_, _, by rw [jsonSerialize, emitString], by decide⟩
  | array _ => exact ⟨_, _, by rw [jsonSerialize], by decide⟩
  | object _ _ => exact ⟨_, _, by rw [jsonSerialize], by decide⟩
  | number z hz =>
    obtain ⟨ds, htext, hne, hds, -, -⟩ := formatInt_eq z
    rw [jsonSerialize, emitNumber_int hz, htext]
    split_ifs with hneg
    · exact ⟨_, _, rfl, by decide⟩
    · cases ds with
      | nil => exact (hne rfl).elim
      | cons c ds => exact ⟨c, ds, rfl, (digit_cases c (hds c List.mem_cons_self)).1⟩

theorem skipWs_cons {c : UInt8} (h : isSpace c = false) (rest : List UInt8) :
    skipWs (c :: rest) = c :: rest := List.dropWhile_cons_of_neg (by simp [h])

/-- The parser reads what is written for `v` up to its end. -/
def ReadsBack (v : JsonValue) : Prop :=
  ∀ rest, EndsNumber rest → Parse.parseValue ⟨jsonSerialize v ++ rest⟩ = some (v, rest)

theorem parseValue_number {c : UInt8} (hc : c = '-'.toUInt8 ∨ isDigit c = true)
    (rest : List UInt8) : Parse.parseValue ⟨c :: rest⟩ = parseNumber (c :: rest) := by
  have hcases : StartsValue c ∧ c ≠ '\x7b'.toUInt8 ∧ c ≠ '['.toUInt8 ∧ c ≠ quote ∧
      c ≠ 't'.toUInt8 ∧ c ≠ 'f'.toUInt8 ∧ c ≠ 'n'.toUInt8 := by
    obtain rfl | hdigit := hc
    · decide
    · exact digit_cases c hdigit
  obtain ⟨hstart, hbrace, hbracket, hquote, ht, hf, hn⟩ := hcases
  have hnumber : c = '-'.toUInt8 ∨ c = '+'.toUInt8 ∨ isDigit c = true := by tauto
  unfold Parse.parseValue
  rw [skipWs_cons hstart.1]
  dsimp only
  rw [if_neg hbrace, if_neg hbracket, if_neg hquote, if_neg ht, if_neg hf, if_neg hn,
    if_pos hnumber]

theorem readsBack_number {z : ℤ} (hz : |z| ≤ 2 ^ 53) : ReadsBack (.number (.finite z)) := by
  intro rest hrest
  have hnumber := parseNumber_formatInt hz hrest
  rw [jsonSerialize, emitNumber_int hz]
  obtain ⟨ds, htext, hne, hds, -, -⟩ := formatInt_eq z
  rw [htext] at hnumber ⊢
  split_ifs at hnumber ⊢ with hneg
  · exact (parseValue_number (.inl rfl) _).trans hnumber
  · cases ds with
    | nil => exact (hne rfl).elim
    | cons c ds =>
      exact (parseValue_number (.inr (hds c List.mem_cons_self)) _).trans hnumber

theorem readsBack_string (s : List UInt8) : ReadsBack (.string s) := by
  intro rest _
  rw [jsonSerialize, emitString, List.cons_append, List.append_assoc, List.singleton_append]
  unfold Parse.parseValue
  rw [skipWs_cons (by decide)]
  dsimp only
  rw [if_neg (by decide), if_neg (by decide), if_pos rfl, parseString_emitString]
  rfl

theorem readsBack_null : ReadsBack .null := by
  intro rest _
  rw [jsonSerialize]
  change Parse.parseValue ⟨'n'.toUInt8 :: (ascii "ull" ++ rest)⟩ = _
  unfold Parse.parseValue
  rw [skipWs_cons (by decide)]
  rfl

theorem readsBack_bool (b : Bool) : ReadsBack (.bool b) := by
  intro rest _
  rw [jsonSerialize]
  cases b with
  | true =>
    change Parse.parseValue ⟨'t'.toUInt8 :: (ascii "rue" ++ rest)⟩ = _
    unfold Parse.parseValue
    rw [skipWs_cons (by decide)]
    rfl
  | false =>
    change Parse.parseValue ⟨'f'.toUInt8 :: (ascii "alse" ++ rest)⟩ = _
    unfold Parse.parseValue
    rw [skipWs_cons (by decide)]
    rfl

theorem parseItems_last {text rest : List UInt8} {v : JsonValue}
    (h : Parse.parseValue ⟨text⟩ = some (v, ']'.toUInt8 :: rest)) :
    Parse.parseItems ⟨text⟩ = some ([v], rest) := by
  unfold Parse.parseItems
  rw [h, Option.bind_eq_bind, Option.bind_some]
  dsimp only
  rw [skipWs_cons (by decide)]
  rfl

theorem parseItems_comma {text rest : List UInt8} {v : JsonValue}
    (h : Parse.parseValue ⟨text⟩ = some (v, ','.toUInt8 :: rest)) :
    Parse.parseItems ⟨text⟩ = (Parse.parseItems ⟨skipWs rest⟩).map fun r => (v :: r.1, r.2) := by
  conv_lhs => unfold Parse.parseItems
  rw [h, Option.bind_eq_bind, Option.bind_some]
  dsimp only
  rw [skipWs_cons (by decide)]
  dsimp only
  rw [if_neg (by decide), if_pos rfl]
  cases Parse.parseItems ⟨skipWs rest⟩ <;> rfl

theorem serializeItems_append (v : JsonValue) (items : List JsonValue) (rest : List UInt8) :
    serializeItems true (v :: items) ++ rest =
      jsonSerialize v ++ (serializeItems false items ++ rest) := by
  simp [serializeItems]

theorem serializeItems_false (v : JsonValue) (items : List JsonValue) :
    serializeItems false (v :: items) = ','.toUInt8 :: serializeItems true (v :: items) := by
  simp [serializeItems]

theorem parseItems_serialize (items : List JsonValue) : ∀ v : JsonValue,
    (∀ w ∈ v :: items, Plain w ∧ ReadsBack w) → ∀ rest,
      Parse.parseItems ⟨serializeItems true (v :: items) ++ ']'.toUInt8 :: rest⟩ =
        some (v :: items, rest) := by
  induction items with
  | nil =>
    intro v hitems rest
    rw [serializeItems_append]
    exact parseItems_last ((hitems v List.mem_cons_self).2 _ (by rintro c ⟨⟩; decide))
  | cons w items ih =>
    intro v hitems rest
    have hnext := ih w (fun u hu => hitems u (List.mem_cons_of_mem v hu)) rest
    obtain ⟨c, text, hstart, hvalue⟩ :=
      (hitems w (List.mem_cons_of_mem v List.mem_cons_self)).1.starts
    have hskip : ∀ tail, skipWs (serializeItems true (w :: items) ++ tail) =
        serializeItems true (w :: items) ++ tail := by
      intro tail
      rw [serializeItems_append, hstart, List.cons_append, skipWs_cons hvalue.1]
    rw [serializeItems_append, serializeItems_false, List.cons_append]
    rw [parseItems_comma ((hitems v List.mem_cons_self).2 _ (by rintro c ⟨⟩; decide)), hskip,
      hnext]
    rfl

theorem readsBack_array {items : List JsonValue} (h : ∀ v ∈ items, Plain v ∧ ReadsBack v) :
    ReadsBack (.array items) := by
  intro rest _
  rw [jsonSerialize, List.cons_append, List.append_assoc, List.singleton_append]
  unfold Parse.parseValue
  rw [skipWs_cons (by decide)]
  dsimp only
  rw [if_neg (by decide), if_pos rfl]
  cases items with
  | nil =>
    rw [serializeItems, List.nil_append, skipWs_cons (by decide)]
    rfl
  | cons v items =>
    obtain ⟨c, text, hstart, hvalue⟩ := (h v List.mem_cons_self).1.starts
    have hitems := parseItems_serialize items v h rest
    rw [serializeItems_append, hstart, List.cons_append] at hitems ⊢
    rw [skipWs_cons hvalue.1]
    dsimp only
    rw [if_neg hvalue.2.1, hitems]
    rfl

/-- The parser reads a member up to its value. -/
theorem parseMembers_start {key : List UInt8} (hkey : 0 ∉ key) {v : JsonValue}
    {text : List UInt8} {c : UInt8} {rest : List UInt8} (hc : isSpace c = false)
    (h : Parse.parseValue ⟨text⟩ = some (v, c :: rest)) :
    Parse.parseMembers ⟨emitString (cString key) ++ [':'.toUInt8] ++ text⟩ =
      if c = '\x7d'.toUInt8 then some ([(key, v)], rest)
      else if c = ','.toUInt8 then
        (Parse.parseMembers ⟨rest⟩).map fun r => ((key, v) :: r.1, r.2)
      else none := by
  have hwhole : cString key = key := by
    rw [cString, List.takeWhile_eq_self_iff]
    intro b hb
    simp only [ne_eq, decide_not, Bool.not_eq_eq_eq_not, Bool.not_true, decide_eq_false_iff_not]
    rintro rfl
    exact hkey hb
  rw [hwhole, emitString]
  conv_lhs => unfold Parse.parseMembers
  simp only [List.cons_append, List.append_assoc, List.nil_append]
  rw [skipWs_cons (by decide)]
  dsimp only
  rw [if_neg (by simp), parseString_emitString, Option.bind_eq_bind, Option.bind_some]
  dsimp only
  rw [skipWs_cons (by decide)]
  dsimp only
  rw [if_neg (by simp), h, Option.bind_eq_bind, Option.bind_some]
  dsimp only
  rw [skipWs_cons hc, hwhole]
  dsimp only
  congr 2
  cases Parse.parseMembers ⟨rest⟩ <;> rfl

theorem serializeMembers_append (key : List UInt8) (v : JsonValue)
    (members : List (List UInt8 × JsonValue)) (rest : List UInt8) :
    serializeMembers true ((key, v) :: members) ++ rest =
      emitString (cString key) ++ [':'.toUInt8] ++
        (jsonSerialize v ++ (serializeMembers false members ++ rest)) := by
  simp [serializeMembers]

theorem serializeMembers_false (m : List UInt8 × JsonValue)
    (members : List (List UInt8 × JsonValue)) :
    serializeMembers false (m :: members) =
      ','.toUInt8 :: serializeMembers true (m :: members) := by
  simp [serializeMembers]

theorem parseMembers_serialize (members : List (List UInt8 × JsonValue)) :
    ∀ m : List UInt8 × JsonValue, (∀ n ∈ m :: members, 0 ∉ n.1 ∧ ReadsBack n.2) → ∀ rest,
      Parse.parseMembers ⟨serializeMembers true (m :: members) ++ '\x7d'.toUInt8 :: rest⟩ =
        some (m :: members, rest) := by
  induction members with
  | nil =>
    rintro ⟨key, v⟩ hmembers rest
    obtain ⟨hkey, hread⟩ := hmembers _ List.mem_cons_self
    rw [serializeMembers_append, serializeMembers, List.nil_append,
      parseMembers_start hkey (by decide) (hread _ (by rintro c ⟨⟩; decide)), if_pos rfl]
  | cons n members ih =>
    rintro ⟨key, v⟩ hmembers rest
    obtain ⟨hkey, hread⟩ := hmembers _ List.mem_cons_self
    have hnext := ih n (fun u hu => hmembers u (List.mem_cons_of_mem _ hu)) rest
    rw [serializeMembers_append, serializeMembers_false, List.cons_append,
      parseMembers_start hkey (by decide) (hread _ (by rintro c ⟨⟩; decide)),
      if_neg (by decide), if_pos rfl, hnext]
    rfl

theorem readsBack_object {members : List (List UInt8 × JsonValue)}
    (h : ∀ m ∈ members, 0 ∉ m.1 ∧ ReadsBack m.2) : ReadsBack (.object members) := by
  intro rest _
  rw [jsonSerialize, List.cons_append, List.append_assoc, List.singleton_append]
  unfold Parse.parseValue
  rw [skipWs_cons (by decide)]
  dsimp only
  rw [if_pos rfl]
  cases members with
  | nil =>
    rw [serializeMembers, List.nil_append, skipWs_cons (by decide)]
    rfl
  | cons m members =>
    have hmembers := parseMembers_serialize members m h rest
    obtain ⟨key, v⟩ := m
    rw [serializeMembers_append, emitString] at hmembers ⊢
    simp only [List.cons_append] at hmembers ⊢
    rw [skipWs_cons (by decide)]
    dsimp only
    rw [if_neg (by decide), hmembers]
    rfl

theorem Plain.readsBack {v : JsonValue} (h : Plain v) : ReadsBack v := by
  induction h with
  | null => exact readsBack_null
  | bool b => exact readsBack_bool b
  | number z hz => exact readsBack_number hz
  | string s => exact readsBack_string s
  | array plain ih => exact readsBack_array fun v hv => ⟨plain v hv, ih v hv⟩
  | object keys _ ih => exact readsBack_object fun m hm => ⟨keys m hm, ih m hm⟩

/-- What is written for a value is read as that value. -/
theorem jsonParse_jsonSerialize {v : JsonValue} (h : Plain v) :
    jsonParse (jsonSerialize v) = some v := by
  have hread := h.readsBack [] (by rintro c ⟨⟩)
  rw [List.append_nil] at hread
  rw [jsonParse, hread]
  rfl

/-- An object with a key twice, around an array with a negative number and a string with a
NUL and a quote. -/
theorem jsonParse_jsonSerialize_nested :
    jsonParse (jsonSerialize (.object [(ascii "a", .array [.number (.finite (-7)), .null]),
      (ascii "a", .string [0, quote])])) =
      some (.object [(ascii "a", .array [.number (.finite (-7)), .null]),
        (ascii "a", .string [0, quote])]) := by
  have hseven : Plain (.number (.finite (-7))) := by
    have h := Plain.number (-7) (by decide)
    push_cast at h
    exact h
  refine jsonParse_jsonSerialize (.object ?_ ?_)
  · intro m hm
    simp only [List.mem_cons, List.not_mem_nil, or_false] at hm
    obtain rfl | rfl := hm <;> decide
  · intro m hm
    simp only [List.mem_cons, List.not_mem_nil, or_false] at hm
    obtain rfl | rfl := hm
    · refine .array fun v hv => ?_
      simp only [List.mem_cons, List.not_mem_nil, or_false] at hv
      obtain rfl | rfl := hv
      · exact hseven
      · exact .null
    · exact .string _

end FcLang.Json
