import FcLang.Lib.CText
import FcLang.Lib.FloatFormat

/-!
# Formatted output

The conversions of C's `printf`, by the bytes they write. `printf` is none where
the standard leaves the call undefined. How a pointer looks is the library's.
-/

namespace FcLang.Printf

inductive Magnitude where
  | finite (q : ℚ)
  | infinite
  | nan
  deriving DecidableEq

/-- An argument as the call passes it. A `long` is a `long long`, or an `unsigned
long long`; a `text` is what can be read behind a pointer, up to the terminator. -/
inductive Arg where
  | int (z : ℤ)
  | long (z : ℤ)
  | float (negative : Bool) (m : Magnitude)
  | text (bytes : List UInt8)
  | pointer (address : ℕ)
  deriving DecidableEq

structure Directive where
  minus : Bool
  plus : Bool
  space : Bool
  hash : Bool
  zero : Bool
  width : ℕ
  precision : Option ℕ
  long : Bool
  conversion : UInt8
  deriving DecidableEq

def ascii (s : String) : List UInt8 := s.toList.map Char.toUInt8

def isFlag (c : UInt8) : Bool := c ∈ ascii "-+ #0"

def isDigit (c : UInt8) : Bool := '0'.toUInt8 ≤ c ∧ c ≤ '9'.toUInt8

def number (digits : List UInt8) : ℕ := CText.numeral 10 CText.hexDigit digits

/-- A written number, or the argument a star stands for. -/
def readField (text : List UInt8) (args : List Arg) : Option (ℤ × List UInt8 × List Arg) :=
  if text.head? = some '*'.toUInt8 then
    match args with
    | .int z :: args => some (z, text.tail, args)
    | _ => none
  else some (number (text.takeWhile isDigit), text.dropWhile isDigit, args)

/-- A precision behind its point; a negative one counts as none. -/
def readPrecision (text : List UInt8) (args : List Arg) :
    Option (Option ℕ × List UInt8 × List Arg) :=
  if text.head? = some '.'.toUInt8 then
    (readField text.tail args).map fun r => (if r.1 < 0 then none else some r.1.toNat, r.2)
  else some (none, text, args)

/-- The directive behind a percent sign. -/
def readDirective (text : List UInt8) (args : List Arg) :
    Option (Directive × List UInt8 × List Arg) := do
  let flags := text.takeWhile isFlag
  let (width, text, args) ← readField (text.dropWhile isFlag) args
  let (precision, text, args) ← readPrecision text args
  let long := text.take 2 = ascii "ll"
  match if long then text.drop 2 else text with
  | [] => none
  | conversion :: text =>
    some ({ minus := '-'.toUInt8 ∈ flags ∨ width < 0, plus := '+'.toUInt8 ∈ flags,
            space := ' '.toUInt8 ∈ flags, hash := '#'.toUInt8 ∈ flags,
            zero := '0'.toUInt8 ∈ flags, width := width.natAbs, precision, long, conversion },
      text, args)

namespace Directive

/-- `head` and `body` padded to the field width, by zeros between them or by blanks. -/
def field (d : Directive) (zeroPads : Bool) (head body : List UInt8) : List UInt8 :=
  let fill := d.width - (head.length + body.length)
  if d.minus then head ++ body ++ List.replicate fill ' '.toUInt8
  else if zeroPads then head ++ List.replicate fill '0'.toUInt8 ++ body
  else List.replicate fill ' '.toUInt8 ++ head ++ body

def sign (d : Directive) (negative : Bool) : List UInt8 :=
  if negative then ascii "-" else if d.plus then ascii "+" else if d.space then ascii " " else []

end Directive

def digitChar (upper : Bool) (d : ℕ) : UInt8 :=
  if d < 10 then UInt8.ofNat (48 + d) else UInt8.ofNat ((if upper then 55 else 87) + d)

def digits (base : ℕ) (upper : Bool) (n : ℕ) : List UInt8 :=
  (Nat.digits base n).reverse.map (digitChar upper)

/-- At least `count` digits. -/
def atLeast (count : ℕ) (text : List UInt8) : List UInt8 :=
  List.replicate (count - text.length) '0'.toUInt8 ++ text

def signed (d : Directive) (z : ℤ) : List UInt8 :=
  d.field (d.zero && d.precision.isNone) (d.sign (z < 0))
    (atLeast (d.precision.getD 1) (digits 10 false z.natAbs))

def unsigned (d : Directive) (base : ℕ) (upper : Bool) (alternative : List UInt8) (n : ℕ) :
    List UInt8 :=
  d.field (d.zero && d.precision.isNone) (if d.hash ∧ n ≠ 0 then alternative else [])
    (atLeast (d.precision.getD 1) (digits base upper n))

/-- The alternative form shows a zero in front. -/
def octal (d : Directive) (n : ℕ) : List UInt8 :=
  let text := atLeast (d.precision.getD 1) (digits 8 false n)
  d.field (d.zero && d.precision.isNone) []
    (if d.hash ∧ text.head? ≠ some '0'.toUInt8 then '0'.toUInt8 :: text else text)

theorem hexDigit_digitChar : ∀ d < 10, CText.hexDigit (digitChar false d) = some d := by decide

theorem isDigit_digitChar : ∀ d < 10, isDigit (digitChar false d) = true := by decide

theorem isDigit_of_mem_digits {n : ℕ} : ∀ c ∈ digits 10 false n, isDigit c = true := by
  intro c hc
  obtain ⟨d, hd, rfl⟩ := List.mem_map.mp hc
  exact isDigit_digitChar d (Nat.digits_lt_base (by norm_num) (List.mem_reverse.mp hd))

/-- The decimal digits of a number are read as that number. -/
theorem number_digits (n : ℕ) : number (digits 10 false n) = n := by
  have hfold (ds : List ℕ) (h : ∀ d ∈ ds, d < 10) :
      number (ds.reverse.map (digitChar false)) = Nat.ofDigits 10 ds := by
    induction ds with
    | nil => rfl
    | cons d ds ih =>
      have hd := hexDigit_digitChar d (h d List.mem_cons_self)
      have hds := ih fun d hd => h d (List.mem_cons_of_mem _ hd)
      rw [number, CText.numeral] at hds ⊢
      rw [List.reverse_cons, List.map_append, List.foldl_append, hds, List.map_singleton,
        List.foldl_cons, List.foldl_nil, hd, Option.getD_some, Nat.ofDigits_cons]
      omega
  rw [digits, hfold _ fun d hd => Nat.digits_lt_base (by norm_num) hd, Nat.ofDigits_digits]

def point (d : Directive) (precision : ℕ) : List UInt8 :=
  if precision > 0 ∨ d.hash then ascii "." else []

/-- `q` with `precision` digits behind the point, in three parts. -/
def fixed (precision : ℕ) (q : ℚ) : List UInt8 × List UInt8 :=
  let n := (roundHalfEven (q * 10 ^ precision)).toNat
  (atLeast 1 (digits 10 false (n / 10 ^ precision)),
    atLeast precision (digits 10 false (n % 10 ^ precision)))

/-- `precision + 1` digits of `q`, and the exponent of the first. -/
def scientific (precision : ℕ) (q : ℚ) : ℕ × ℤ :=
  if q = 0 then (0, 0)
  else
    let x := Int.log 10 q
    let n := (roundHalfEven (q / 10 ^ x * 10 ^ precision)).toNat
    if n = 10 ^ (precision + 1) then (10 ^ precision, x + 1) else (n, x)

def exponent (upper : Bool) (x : ℤ) : List UInt8 :=
  (if upper then ascii "E" else ascii "e") ++ (if x < 0 then ascii "-" else ascii "+") ++
    atLeast 2 (digits 10 false x.natAbs)

def fixedText (d : Directive) (precision : ℕ) (q : ℚ) : List UInt8 :=
  (fixed precision q).1 ++ point d precision ++ (fixed precision q).2

def scientificText (d : Directive) (upper : Bool) (precision : ℕ) (q : ℚ) : List UInt8 :=
  let n := (scientific precision q).1
  atLeast 1 (digits 10 false (n / 10 ^ precision)) ++ point d precision ++
    atLeast precision (digits 10 false (n % 10 ^ precision)) ++
    exponent upper (scientific precision q).2

/-- The text without zeros at the end of its fraction. -/
def trimFraction (whole fraction tail : List UInt8) : List UInt8 :=
  let kept := (fraction.reverse.dropWhile fun c => c = '0'.toUInt8).reverse
  whole ++ (if kept = [] then [] else ascii ".") ++ kept ++ tail

def general (d : Directive) (upper : Bool) (q : ℚ) : List UInt8 :=
  let p := max 1 (d.precision.getD 6)
  let x := (scientific (p - 1) q).2
  if -4 ≤ x ∧ x < p then
    let precision := (p - 1 - x).toNat
    if d.hash then fixedText d precision q
    else trimFraction (fixed precision q).1 (fixed precision q).2 []
  else if d.hash then scientificText d upper (p - 1) q
  else
    let n := (scientific (p - 1) q).1
    trimFraction (atLeast 1 (digits 10 false (n / 10 ^ (p - 1))))
      (atLeast (p - 1) (digits 10 false (n % 10 ^ (p - 1)))) (exponent upper x)

def float (d : Directive) (upper negative : Bool) (m : Magnitude) (finite : ℚ → List UInt8) :
    List UInt8 :=
  match m with
  | .finite q => d.field d.zero (d.sign negative) (finite q)
  | .infinite => d.field false (d.sign negative) (if upper then ascii "INF" else ascii "inf")
  | .nan => d.field false (d.sign negative) (if upper then ascii "NAN" else ascii "nan")

/-- The text a library writes for a pointer. -/
abbrev Pointers := ℕ → List UInt8

/-- A number that is not negative, by any conversion but a signed one. -/
def patternText (d : Directive) (n : ℕ) : List UInt8 :=
  if d.conversion = 'u'.toUInt8 then unsigned d 10 false [] n
  else if d.conversion = 'x'.toUInt8 then unsigned d 16 false (ascii "0x") n
  else if d.conversion = 'X'.toUInt8 then unsigned d 16 true (ascii "0X") n
  else octal d n

def integer (d : Directive) (z : ℤ) : Option (List UInt8) :=
  if d.conversion = 'd'.toUInt8 ∨ d.conversion = 'i'.toUInt8 then some (signed d z)
  else if d.conversion ∈ ascii "uxXo" ∧ 0 ≤ z then some (patternText d z.toNat)
  else none

def floatText (d : Directive) (negative : Bool) (m : Magnitude) : List UInt8 :=
  if d.conversion = 'f'.toUInt8 then
    float d false negative m (fixedText d (d.precision.getD 6))
  else if d.conversion = 'e'.toUInt8 then
    float d false negative m (scientificText d false (d.precision.getD 6))
  else if d.conversion = 'E'.toUInt8 then
    float d true negative m (scientificText d true (d.precision.getD 6))
  else if d.conversion = 'g'.toUInt8 then float d false negative m (general d false)
  else float d true negative m (general d true)

/-- A string up to its terminator, and no more of it than the precision. -/
def stringText (d : Directive) (bytes : List UInt8) : List UInt8 :=
  let shown := match d.precision with
    | some p => bytes.take p
    | none => bytes
  d.field false [] (shown.takeWhile fun b => b ≠ 0)

/-- What a directive asks for is defined for its conversion. -/
def Directive.defined (d : Directive) : Bool :=
  (!d.hash || d.conversion ∈ ascii "xXofeEgG") &&
    (!d.zero || d.conversion ∈ ascii "diuxXofeEgG") &&
    (!d.precision.isSome || d.conversion ∈ ascii "diuxXofeEgGs") &&
    (!d.long || d.conversion ∈ ascii "diuxXo")

/-- A directive applied to the argument it takes, none for an argument of a wrong type. -/
def convert (pointers : Pointers) (d : Directive) (arg : Arg) : Option (List UInt8) :=
  if !d.defined then none
  else match arg with
  | .int z =>
    if d.long then none
    else if d.conversion = 'c'.toUInt8 then some (d.field false [] [UInt8.ofInt z])
    else integer d z
  | .long z =>
    if !d.long then none
    else if (d.conversion = 'd'.toUInt8 ∨ d.conversion = 'i'.toUInt8) ∧ 2 ^ 63 ≤ z then none
    else integer d z
  | .float negative m =>
    if d.conversion ∈ ascii "feEgG" then some (floatText d negative m) else none
  | .text bytes => if d.conversion = 's'.toUInt8 then some (stringText d bytes) else none
  | .pointer address =>
    if d.conversion = 'p'.toUInt8 then some (d.field false [] (pointers address)) else none

theorem readField_length {text rest : List UInt8} {args args' : List Arg} {z : ℤ}
    (h : readField text args = some (z, rest, args')) : rest.length ≤ text.length := by
  unfold readField at h
  split at h
  · split at h <;> cases h
    simp
  · cases h
    exact (List.dropWhile_sublist _).length_le

theorem readPrecision_length {text rest : List UInt8} {args args' : List Arg} {p : Option ℕ}
    (h : readPrecision text args = some (p, rest, args')) : rest.length ≤ text.length := by
  unfold readPrecision at h
  split at h
  · obtain ⟨⟨z, r⟩, hr, heq⟩ := Option.map_eq_some_iff.mp h
    cases heq
    have := readField_length hr
    rw [List.length_tail] at this
    omega
  · cases h
    exact le_rfl

theorem readDirective_length {text rest : List UInt8} {args args' : List Arg} {d : Directive}
    (h : readDirective text args = some (d, rest, args')) : rest.length < text.length := by
  unfold readDirective at h
  obtain ⟨⟨w, text₁, args₁⟩, h₁, h⟩ := Option.bind_eq_some_iff.mp h
  obtain ⟨⟨p, text₂, args₂⟩, h₂, h⟩ := Option.bind_eq_some_iff.mp h
  have hdrop : (text.dropWhile isFlag).length ≤ text.length :=
    (List.dropWhile_sublist _).length_le
  have hfield := readField_length h₁
  have hprecision := readPrecision_length h₂
  dsimp only at h
  split at h
  · cases h
  · rename_i c text₃ heq
    cases h
    have hlen : rest.length + 1 ≤ text₂.length := by
      rw [← List.length_cons, ← heq]
      split
      · rw [List.length_drop]
        omega
      · exact le_rfl
    omega

/-- The text a call writes. The format ends at its terminator. -/
def printf (pointers : Pointers) (format : List UInt8) (args : List Arg) : Option (List UInt8) :=
  match format with
  | [] => some []
  | c :: rest =>
    if c = 0 then some []
    else if c ≠ '%'.toUInt8 then (printf pointers rest args).map (c :: ·)
    else match _h : readDirective rest args with
      | none => none
      | some (d, rest', args') =>
        if d.conversion = '%'.toUInt8 then (printf pointers rest' args').map (c :: ·)
        else match args' with
          | [] => none
          | arg :: args' =>
            (convert pointers d arg).bind fun out => (printf pointers rest' args').map (out ++ ·)
termination_by format.length
decreasing_by
  · simp
  all_goals
    have := readDirective_length (by assumption)
    simp only [List.length_cons]
    omega

section Steps
variable {pointers : Pointers} {rest rest' : List UInt8} {args args' : List Arg} {d : Directive}

@[simp] theorem printf_nil : printf pointers [] args = some [] := by rw [printf]

theorem printf_byte {c : UInt8} (hnul : c ≠ 0) (hc : c ≠ '%'.toUInt8) :
    printf pointers (c :: rest) args = (printf pointers rest args).map (c :: ·) := by
  rw [printf, if_neg hnul, if_pos hc]

theorem printf_percent (h : readDirective rest args = some (d, rest', args'))
    (hd : d.conversion = '%'.toUInt8) :
    printf pointers ('%'.toUInt8 :: rest) args =
      (printf pointers rest' args').map ('%'.toUInt8 :: ·) := by
  rw [printf, if_neg (by decide), if_neg (by simp)]
  split
  · rename_i hnone
    rw [h] at hnone
    cases hnone
  · rename_i hsome
    rw [h] at hsome
    cases hsome
    rw [if_pos hd]

theorem printf_directive {arg : Arg} (h : readDirective rest args = some (d, rest', arg :: args'))
    (hd : d.conversion ≠ '%'.toUInt8) :
    printf pointers ('%'.toUInt8 :: rest) args =
      (convert pointers d arg).bind fun out => (printf pointers rest' args').map (out ++ ·) := by
  rw [printf, if_neg (by decide), if_neg (by simp)]
  split
  · rename_i hnone
    rw [h] at hnone
    cases hnone
  · rename_i hsome
    rw [h] at hsome
    cases hsome
    rw [if_neg hd]

/-- The directive of a conversion character alone. -/
def bare (c : UInt8) : Directive :=
  ⟨false, false, false, false, false, 0, none, false, c⟩

theorem readField_bare {c : UInt8} (hdigit : isDigit c = false) (hstar : c ≠ '*'.toUInt8)
    (args : List Arg) : readField (c :: rest) args = some (0, c :: rest, args) := by
  unfold readField
  rw [if_neg (by simpa using hstar), List.takeWhile_cons_of_neg (by simp [hdigit]),
    List.dropWhile_cons_of_neg (by simp [hdigit])]
  rfl

theorem readDirective_bare {c : UInt8} (hflag : isFlag c = false) (hdigit : isDigit c = false)
    (hstar : c ≠ '*'.toUInt8) (hpoint : c ≠ '.'.toUInt8) (hlong : c ≠ 'l'.toUInt8)
    (args : List Arg) : readDirective (c :: rest) args = some (bare c, rest, args) := by
  have hll : (c :: rest).take 2 ≠ ascii "ll" := by
    intro h
    exact hlong (List.cons.inj h).1
  have hprecision : readPrecision (c :: rest) args = some (none, c :: rest, args) :=
    if_neg (by simpa using hpoint)
  unfold readDirective
  rw [List.takeWhile_cons_of_neg (by simp [hflag]), List.dropWhile_cons_of_neg (by simp [hflag]),
    readField_bare hdigit hstar]
  simp only [Option.bind_eq_bind, Option.bind_some, hprecision, hll, if_false]
  simp [bare]

theorem head?_append_ne {a b : List UInt8} {P : UInt8 → Prop} (ha : ∀ c ∈ a, P c)
    (hb : ∀ c ∈ b.head?, P c) : ∀ c ∈ (a ++ b).head?, P c := by
  cases a with
  | nil => exact hb
  | cons x a =>
    rintro c ⟨⟩
    exact ha x List.mem_cons_self

theorem isDigit_ne_star {c : UInt8} (h : isDigit c = true) : c ≠ '*'.toUInt8 := by
  rintro rfl
  cases h

/-- A number is read up to what follows it. -/
theorem readField_written {digits : List UInt8} (hdigits : ∀ c ∈ digits, isDigit c = true)
    (hrest : ∀ c ∈ rest.head?, isDigit c = false ∧ c ≠ '*'.toUInt8) (args : List Arg) :
    readField (digits ++ rest) args = some ((number digits : ℤ), rest, args) := by
  have hstar : (digits ++ rest).head? ≠ some '*'.toUInt8 := fun h =>
    head?_append_ne (P := (· ≠ '*'.toUInt8)) (fun c hc => isDigit_ne_star (hdigits c hc))
      (fun c hc => (hrest c hc).2) _ h rfl
  have htake : rest.takeWhile isDigit = [] ∧ rest.dropWhile isDigit = rest := by
    cases rest with
    | nil => exact ⟨rfl, rfl⟩
    | cons c rest => simp [(hrest c rfl).1]
  unfold readField
  rw [if_neg hstar, List.takeWhile_append_of_pos hdigits, List.dropWhile_append_of_pos hdigits,
    htake.1, htake.2, List.append_nil]

theorem readPrecision_none (h : rest.head? ≠ some '.'.toUInt8) :
    readPrecision rest args = some (none, rest, args) := if_neg h

theorem readPrecision_written {digits : List UInt8} (hdigits : ∀ c ∈ digits, isDigit c = true)
    (hrest : ∀ c ∈ rest.head?, isDigit c = false ∧ c ≠ '*'.toUInt8) (args : List Arg) :
    readPrecision ('.'.toUInt8 :: digits ++ rest) args = some (some (number digits), rest, args) := by
  unfold readPrecision
  rw [List.cons_append, if_pos List.head?_cons, List.tail_cons, readField_written hdigits hrest]
  simp

theorem readPrecision_star (n : ℕ) :
    readPrecision ('.'.toUInt8 :: '*'.toUInt8 :: rest) (.int n :: args) =
      some (some n, rest, args) := by
  unfold readPrecision readField
  simp

/-- A directive is read as it is written: flags, a width that starts with no flag, a
precision, and the conversion. -/
theorem readDirective_written {flags width ptext : List UInt8} {p : Option ℕ} {long : Bool}
    {c : UInt8} (hflags : ∀ x ∈ flags, isFlag x = true) (hwidth : ∀ x ∈ width, isDigit x = true)
    (hfirst : ∀ x ∈ (width ++ (ptext ++ ((if long then ascii "ll" else []) ++ c :: rest))).head?,
      isFlag x = false)
    (hnext : ∀ x ∈ (ptext ++ ((if long then ascii "ll" else []) ++ c :: rest)).head?,
      isDigit x = false ∧ x ≠ '*'.toUInt8)
    (hp : readPrecision (ptext ++ ((if long then ascii "ll" else []) ++ c :: rest)) args =
      some (p, (if long then ascii "ll" else []) ++ c :: rest, args'))
    (hc : c ≠ 'l'.toUInt8) :
    readDirective (flags ++ (width ++ (ptext ++ ((if long then ascii "ll" else []) ++ c :: rest))))
        args =
      some ({ minus := '-'.toUInt8 ∈ flags, plus := '+'.toUInt8 ∈ flags,
              space := ' '.toUInt8 ∈ flags, hash := '#'.toUInt8 ∈ flags,
              zero := '0'.toUInt8 ∈ flags, width := number width, precision := p, long := long,
              conversion := c }, rest, args') := by
  have hsplit (text : List UInt8) (h : ∀ x ∈ text.head?, isFlag x = false) :
      text.takeWhile isFlag = [] ∧ text.dropWhile isFlag = text := by
    cases text with
    | nil => exact ⟨rfl, rfl⟩
    | cons x text => simp [h x rfl]
  unfold readDirective
  rw [List.takeWhile_append_of_pos hflags, List.dropWhile_append_of_pos hflags,
    (hsplit _ hfirst).1, (hsplit _ hfirst).2, List.append_nil, readField_written hwidth hnext]
  simp only [Option.bind_eq_bind, Option.bind_some, hp]
  cases long with
  | true =>
    have hll : List.take 2 (ascii "ll" ++ c :: rest) = ascii "ll" := rfl
    have hdrop : List.drop 2 (ascii "ll" ++ c :: rest) = c :: rest := rfl
    simp [hll, hdrop]
  | false =>
    have hll : c :: List.take 1 rest ≠ ascii "ll" := fun h => hc (List.cons.inj h).1
    simp [hll]

end Steps
end FcLang.Printf
