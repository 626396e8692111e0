import Mathlib.Data.List.Infix
import Mathlib.Data.List.TakeWhile
import Mathlib.Logic.Relation
import Mathlib.Tactic

/-!
# Response files

`args_expand` of `args.c`. A token `@path` stands for the tokens of the file,
each with the directory of the file it was written in; a relative path in a
file is taken from there. The stack holds the canonical paths of the files being
expanded.
-/

namespace FcLang.Args.Response

abbrev Path := List UInt8

abbrev Message := List UInt8

/-- What the expansion asks of the host. Nothing changes while it runs. -/
structure FileSystem where
  windows : Bool
  realpath : Path → Option Path
  readFile : Path → Option (List UInt8)

structure ExpandedArgs where
  tokens : List (List UInt8 × Option Path) := []
  stack : List Path := []

def slash : UInt8 := '/'.toUInt8

def newline : UInt8 := '\n'.toUInt8

def quote : UInt8 := '"'.toUInt8

def hash : UInt8 := '#'.toUInt8

def atSign : UInt8 := '@'.toUInt8

def isBlank (c : UInt8) : Bool :=
  c = ' '.toUInt8 || c = '\t'.toUInt8 || c = newline || c = '\r'.toUInt8

def isLetter (c : UInt8) : Bool :=
  ('A'.toUInt8 ≤ c && c ≤ 'Z'.toUInt8) || ('a'.toUInt8 ≤ c && c ≤ 'z'.toUInt8)

def pathIsAbs (windows : Bool) : Path → Bool
  | [] => false
  | c :: rest => c = slash ||
      windows && (c = '\\'.toUInt8 || isLetter c && rest.head? = some ':'.toUInt8)

/-- What is before the last slash. -/
def pathDir (path : Path) : Path :=
  if slash ∉ path then ['.'.toUInt8]
  else
    let dir := ((path.reverse.dropWhile (· ≠ slash)).drop 1).reverse
    if dir = [] then [slash] else dir

def pathJoin (dir rel : Path) : Path := dir ++ slash :: rel

def message (text : String) (path : Path) : Message :=
  text.toUTF8.toList ++ '\''.toUInt8 :: path ++ ['\''.toUInt8]

def argsMaxDepth : ℕ := 32

/-- `#` or `//` -/
def startsComment (p : List UInt8) : Bool :=
  p.head? = some hash || p.head? = some slash && p.tail.head? = some slash

/-- The token at `p` and what follows it, or none where a quote is not closed on its line. -/
def lexToken (p : List UInt8) : Option (List UInt8 × List UInt8) :=
  match p with
  | [] => none
  | c :: rest =>
    if c = quote then
      match rest.dropWhile (fun c => c ≠ quote && c ≠ newline) with
      | [] => none
      | d :: after =>
        if d = quote then some (rest.takeWhile (fun c => c ≠ quote && c ≠ newline), after) else none
    else some (p.takeWhile (!isBlank ·), p.dropWhile (!isBlank ·))

/-- The path of a nested response file. -/
def nested : List UInt8 → Option Path
  | c :: child => if c = atSign ∧ child ≠ [] then some child else none
  | [] => none

theorem lexToken_length {p tok after : List UInt8} (h : lexToken p = some (tok, after))
    (hp : ∀ c ∈ p.head?, isBlank c = false) : after.length < p.length := by
  cases p with
  | nil => cases h
  | cons c rest =>
    simp only [lexToken] at h
    split_ifs at h with hc
    · have hle : (rest.dropWhile fun c => c ≠ quote && c ≠ newline).length ≤ rest.length :=
        (List.dropWhile_suffix _).length_le
      cases hd : rest.dropWhile fun c => c ≠ quote && c ≠ newline with
      | nil =>
        rw [hd] at h
        cases h
      | cons d after' =>
        rw [hd] at h hle
        simp only at h
        split_ifs at h
        cases h
        simp only [List.length_cons] at hle ⊢
        omega
    · cases h
      rw [List.dropWhile_cons_of_pos (by simpa using hp c rfl), List.length_cons]
      exact Nat.lt_succ_of_le (List.dropWhile_suffix _).length_le

theorem comment_length {p : List UInt8} (h : startsComment p = true) :
    (p.dropWhile (· ≠ newline)).length < p.length := by
  cases p with
  | nil => simp [startsComment] at h
  | cons c rest =>
    have hc : c ≠ newline := by
      rintro rfl
      simp [startsComment, show newline ≠ hash by decide, show newline ≠ slash by decide] at h
    rw [List.dropWhile_cons_of_pos (by simpa using hc), List.length_cons]
    exact Nat.lt_succ_of_le (List.dropWhile_suffix _).length_le

theorem head?_dropWhile_blank (p : List UInt8) :
    ∀ c ∈ (p.dropWhile isBlank).head?, isBlank c = false := by
  intro c hc
  have h := List.head?_dropWhile_not isBlank p
  rw [Option.mem_def.mp hc] at h
  simpa using h

/-- The loop over the text of a file, from the pointer `p` on. -/
def expandText (windows : Bool) (expand : Path → ExpandedArgs → Option Message × ExpandedArgs)
    (rspPath : Path) (p : List UInt8) (out : ExpandedArgs) : Option Message × ExpandedArgs :=
  let text := p.dropWhile isBlank
  if text = [] then (none, out)
  else if _hcomment : startsComment text = true then
    expandText windows expand rspPath (text.dropWhile (· ≠ newline)) out
  else
    match _htok : lexToken text with
    | none => (some (message "unterminated quote in response file " rspPath), out)
    | some (tok, after) =>
      match nested tok with
      | some child =>
        let cpath := if pathIsAbs windows child then child else pathJoin (pathDir rspPath) child
        match expand cpath out with
        | (some err, out) => (some err, out)
        | (none, out) => expandText windows expand rspPath after out
      | none =>
        expandText windows expand rspPath after
          { out with tokens := out.tokens ++ [(tok, some (pathDir rspPath))] }
termination_by p.length
decreasing_by
  all_goals
    have hle : (p.dropWhile isBlank).length ≤ p.length := (List.dropWhile_suffix _).length_le
  · exact (comment_length _hcomment).trans_le hle
  · exact (lexToken_length _htok (head?_dropWhile_blank p)).trans_le hle
  · exact (lexToken_length _htok (head?_dropWhile_blank p)).trans_le hle

def expandFile (fs : FileSystem) (rspPath : Path) (depth : ℕ) (out : ExpandedArgs) :
    Option Message × ExpandedArgs :=
  if _hdepth : depth > argsMaxDepth then
    (some (message "response files nested too deeply at " rspPath), out)
  else
    match fs.realpath rspPath with
    | none => (some (message "cannot open response file " rspPath), out)
    | some canon =>
      if canon ∈ out.stack then (some (message "recursive response file " rspPath), out)
      else
        match fs.readFile rspPath with
        | none => (some (message "cannot open response file " rspPath), out)
        | some buf =>
          let (err, out) := expandText fs.windows
            (fun cpath out => expandFile fs cpath (depth + 1) out) rspPath (buf.takeWhile (· ≠ 0))
            { out with stack := out.stack ++ [canon] }
          (err, { out with stack := out.stack.dropLast })
termination_by argsMaxDepth + 1 - depth

/-- The loop over `argv`. A token typed directly has no directory. -/
def expandArgv (fs : FileSystem) : List (List UInt8) → ExpandedArgs →
    Option Message × ExpandedArgs
  | [], out => (none, out)
  | t :: argv, out =>
    match nested t with
    | some path =>
      match expandFile fs path 0 out with
      | (some err, out) => (some err, out)
      | (none, out) => expandArgv fs argv out
    | none => expandArgv fs argv { out with tokens := out.tokens ++ [(t, none)] }

/-- The error and the tokens, which are freed where there is one. -/
def argsExpand (fs : FileSystem) (argv : List (List UInt8)) :
    Option Message × List (List UInt8 × Option Path) :=
  match expandArgv fs argv {} with
  | (none, out) => (none, out.tokens)
  | (some err, _) => (some err, [])

end FcLang.Args.Response
