import FcLang.Args.Expand

/-!
# The flattening of response files

The tokens of a text, the files that an argument list reaches, and the
concatenation of all tokens, depth first and left to right. The expansion gives
this concatenation when every file reached can be expanded, and nothing
otherwise.
-/

namespace FcLang.Args.Response

/-- The tokens of a text whose quotes are closed on their lines. -/
inductive Tokens : List UInt8 → List (List UInt8) → Prop
  | nil : Tokens [] []
  | blank {c : UInt8} {text ts} (hc : isBlank c = true) (h : Tokens text ts) : Tokens (c :: text) ts
  | comment {line text ts} (hstart : startsComment line = true) (hline : newline ∉ line)
    (hend : ∀ c ∈ text.head?, c = newline) (h : Tokens text ts) : Tokens (line ++ text) ts
  | quoted {body text ts} (hquote : quote ∉ body) (hline : newline ∉ body) (h : Tokens text ts) :
    Tokens (quote :: (body ++ quote :: text)) (body :: ts)
  | word {c : UInt8} {w text ts} (hblank : ∀ d ∈ c :: w, isBlank d = false) (hquote : c ≠ quote)
    (hcomment : startsComment (c :: w) = false) (hend : ∀ d ∈ text.head?, isBlank d = true)
    (h : Tokens text ts) : Tokens (c :: (w ++ text)) ((c :: w) :: ts)

/-- The bytes of a file before a terminator. -/
def textOf (buf : List UInt8) : List UInt8 := buf.takeWhile (· ≠ 0)

/-- The path of a file named in `origin`, or on the command line. -/
def resolve (windows : Bool) : Option Path → Path → Path
  | none, child => child
  | some file, child => if pathIsAbs windows child then child else pathJoin (pathDir file) child

/-- All tokens, each with the directory of the file it was written in. -/
inductive Flattens (fs : FileSystem) :
    Option Path → List (List UInt8) → List (List UInt8 × Option Path) → Prop
  | nil {origin} : Flattens fs origin [] []
  | plain {origin t ts out} (ht : nested t = none) (h : Flattens fs origin ts out) :
    Flattens fs origin (t :: ts) ((t, origin.map pathDir) :: out)
  | file {origin t ts child buf inner out out'} (ht : nested t = some child)
    (hread : fs.readFile (resolve fs.windows origin child) = some buf)
    (htokens : Tokens (textOf buf) inner)
    (hinner : Flattens fs (some (resolve fs.windows origin child)) inner out)
    (h : Flattens fs origin ts out') : Flattens fs origin (t :: ts) (out ++ out')

/-- A file about to be expanded, below the files of `active`. -/
structure Visit where
  path : Path
  depth : ℕ
  active : List Path

structure Good (fs : FileSystem) (v : Visit) : Prop where
  depth : v.depth ≤ argsMaxDepth
  acyclic : ∃ canon, fs.realpath v.path = some canon ∧ canon ∉ v.active
  closed : ∃ buf ts, fs.readFile v.path = some buf ∧ Tokens (textOf buf) ts

inductive Includes (fs : FileSystem) : Visit → Visit → Prop
  | mk {v canon buf ts t child} (hcanon : fs.realpath v.path = some canon)
    (hread : fs.readFile v.path = some buf) (htokens : Tokens (textOf buf) ts) (ht : t ∈ ts)
    (hchild : nested t = some child) :
    Includes fs v ⟨resolve fs.windows (some v.path) child, v.depth + 1, v.active ++ [canon]⟩

/-- The files that an argument list leads to. -/
def Reaches (fs : FileSystem) (argv : List (List UInt8)) (v : Visit) : Prop :=
  ∃ t ∈ argv, ∃ path, nested t = some path ∧
    Relation.ReflTransGen (Includes fs) ⟨path, 0, []⟩ v

section Tokens

/-- The tokens as the loop of the code finds them. -/
def tokensOf (p : List UInt8) : Option (List (List UInt8)) :=
  let text := p.dropWhile isBlank
  if text = [] then some []
  else if _hcomment : startsComment text = true then tokensOf (text.dropWhile (· ≠ newline))
  else
    match _htok : lexToken text with
    | none => none
    | some (tok, after) => (tokensOf after).map (tok :: ·)
termination_by p.length
decreasing_by
  all_goals
    have hle : (p.dropWhile isBlank).length ≤ p.length := (List.dropWhile_suffix _).length_le
  · exact (comment_length _hcomment).trans_le hle
  · exact (lexToken_length _htok (head?_dropWhile_blank p)).trans_le hle

variable {p text : List UInt8} {ts : List (List UInt8)} {c : UInt8}

/-- One round of the loop, on a text without blanks at its start. -/
theorem tokensOf_unfold (p : List UInt8) : tokensOf p =
    if p.dropWhile isBlank = [] then some []
    else if startsComment (p.dropWhile isBlank) = true then
      tokensOf ((p.dropWhile isBlank).dropWhile (· ≠ newline))
    else (lexToken (p.dropWhile isBlank)).bind fun t => (tokensOf t.2).map (t.1 :: ·) := by
  rw [tokensOf]
  split_ifs
  · rfl
  · rfl
  · split
    · rename_i htok
      rw [htok]
      rfl
    · rename_i tok after htok
      rw [htok]
      rfl

theorem tokensOf_blank (hc : isBlank c = true) : tokensOf (c :: text) = tokensOf text := by
  rw [tokensOf_unfold (c :: text), tokensOf_unfold text, List.dropWhile_cons_of_pos hc]

theorem dropWhile_blank (hblank : ∀ c ∈ p.head?, isBlank c = false) : p.dropWhile isBlank = p := by
  cases p with
  | nil => rfl
  | cons c p => exact List.dropWhile_cons_of_neg (by simp [hblank c rfl])

theorem tokensOf_comment (hblank : ∀ c ∈ p.head?, isBlank c = false)
    (hstart : startsComment p = true) : tokensOf p = tokensOf (p.dropWhile (· ≠ newline)) := by
  have hne : p ≠ [] := by
    rintro rfl
    cases hstart
  rw [tokensOf_unfold, dropWhile_blank hblank, if_neg hne, if_pos hstart]

theorem tokensOf_token (hblank : ∀ c ∈ p.head?, isBlank c = false) (hne : p ≠ [])
    (hstart : startsComment p = false) :
    tokensOf p = (lexToken p).bind fun t => (tokensOf t.2).map (t.1 :: ·) := by
  rw [tokensOf_unfold, dropWhile_blank hblank, if_neg hne, if_neg (by simp [hstart])]

theorem isBlank_quote : isBlank quote = false := by decide

theorem startsComment_blank (h : startsComment p = true) : ∀ c ∈ p.head?, isBlank c = false := by
  intro c hc
  obtain ⟨rest, rfl⟩ := List.head?_eq_some_iff.mp hc
  have hc : c = hash ∨ c = slash := by
    simp only [startsComment, List.head?_cons, Option.some.injEq, Bool.or_eq_true,
      decide_eq_true_eq, Bool.and_eq_true] at h
    exact h.imp id And.left
  rcases hc with rfl | rfl <;> decide

theorem takeWhile_append_stop (q : UInt8 → Bool) (w text : List UInt8) (hw : ∀ d ∈ w, q d = true)
    (hend : ∀ d ∈ text.head?, q d = false) :
    (w ++ text).takeWhile q = w ∧ (w ++ text).dropWhile q = text := by
  rw [List.takeWhile_append_of_pos hw, List.dropWhile_append_of_pos hw]
  cases text with
  | nil => simp
  | cons d text =>
    have hd := hend d rfl
    simp [hd]

/-- The declarative tokens are those that the loop finds. -/
theorem Tokens.tokensOf_eq (h : Tokens p ts) : tokensOf p = some ts := by
  induction h with
  | nil => rw [tokensOf_unfold, List.dropWhile_nil, if_pos rfl]
  | blank hc _ ih => rw [tokensOf_blank hc, ih]
  | @comment line text ts hstart hline hend _ ih =>
    have hstart' : startsComment (line ++ text) = true := by
      match line with
      | [] => cases hstart
      | [c] => cases text <;> simp_all [startsComment]
      | c :: d :: line => exact hstart
    have hsplit := takeWhile_append_stop (· ≠ newline) line text
      (fun d hd => by simpa using ne_of_mem_of_not_mem hd hline)
      (fun d hd => by simpa using hend d hd)
    rw [tokensOf_comment (startsComment_blank hstart') hstart', hsplit.2, ih]
  | @quoted body text ts hquote hline _ ih =>
    have hsplit := takeWhile_append_stop (fun c => c ≠ quote && c ≠ newline) body
      (quote :: text) (fun d hd => by
        have h₁ : d ≠ quote := ne_of_mem_of_not_mem hd hquote
        have h₂ : d ≠ newline := ne_of_mem_of_not_mem hd hline
        simp [h₁, h₂]) (by simp)
    have hlex : lexToken (quote :: (body ++ quote :: text)) = some (body, text) := by
      simp only [lexToken, if_true, hsplit.1, hsplit.2]
    have hnot : startsComment (quote :: (body ++ quote :: text)) = false := by
      simp [startsComment, show quote ≠ hash by decide, show quote ≠ slash by decide]
    rw [tokensOf_token (by simp [isBlank_quote]) (by simp) hnot, hlex, Option.bind_some, ih]
    rfl
  | @word c w text ts hblank hquote hcomment hend _ ih =>
    have hsplit := takeWhile_append_stop (!isBlank ·) (c :: w) text
      (fun d hd => by simp [hblank d hd]) (fun d hd => by simp [hend d hd])
    have hlex : lexToken (c :: (w ++ text)) = some (c :: w, text) := by
      rw [← List.cons_append]
      simp only [List.cons_append] at hsplit ⊢
      simp only [lexToken, if_neg hquote, hsplit.1, hsplit.2]
    have hnot : startsComment (c :: (w ++ text)) = false := by
      cases w with
      | cons d w => exact hcomment
      | nil =>
        cases text with
        | nil => exact hcomment
        | cons d text =>
          have hd : d ≠ slash := by
            rintro rfl
            exact absurd (hend slash rfl) (by decide)
          have hc : c ≠ hash := by simpa [startsComment] using hcomment
          simp [startsComment, hd, hc]
    rw [tokensOf_token (by simpa using hblank c List.mem_cons_self) (by simp) hnot, hlex,
      Option.bind_some, ih]
    rfl

/-- What a token is, from the function that finds it. -/
theorem lexToken_cases (hblank : ∀ c ∈ p.head?, isBlank c = false) {tok after : List UInt8}
    (h : lexToken p = some (tok, after)) :
    (p = quote :: (tok ++ quote :: after) ∧ quote ∉ tok ∧ newline ∉ tok) ∨
    ∃ c w, tok = c :: w ∧ c ≠ quote ∧ p = c :: (w ++ after) ∧ (∀ d ∈ c :: w, isBlank d = false) ∧
      ∀ d ∈ after.head?, isBlank d = true := by
  cases p with
  | nil => cases h
  | cons c rest =>
    simp only [lexToken] at h
    split_ifs at h with hc
    · left
      subst hc
      have hsplit := List.takeWhile_append_dropWhile (p := fun c => c ≠ quote && c ≠ newline)
        (l := rest)
      cases hd : rest.dropWhile fun c => c ≠ quote && c ≠ newline with
      | nil =>
        rw [hd] at h
        cases h
      | cons d after' =>
        rw [hd] at h hsplit
        simp only at h
        split_ifs at h with hq
        cases h
        subst hq
        have hmem : ∀ x ∈ rest.takeWhile (fun c => c ≠ quote && c ≠ newline),
            x ≠ quote ∧ x ≠ newline := fun x hx => by simpa using List.mem_takeWhile_imp hx
        exact ⟨by rw [hsplit], fun hx => (hmem _ hx).1 rfl, fun hx => (hmem _ hx).2 rfl⟩
    · right
      cases h
      have hc' : isBlank c = false := hblank c rfl
      have htake : (c :: rest).takeWhile (!isBlank ·) = c :: rest.takeWhile (!isBlank ·) := by
        simp [hc']
      have hsplit := List.takeWhile_append_dropWhile (p := (!isBlank ·)) (l := c :: rest)
      rw [htake] at hsplit
      refine ⟨c, rest.takeWhile (!isBlank ·), htake, hc, hsplit.symm, ?_, ?_⟩
      · rw [← htake]
        exact fun d hd => by simpa using List.mem_takeWhile_imp hd
      · intro d hd
        have hlast := List.head?_dropWhile_not (!isBlank ·) (c :: rest)
        rw [Option.mem_def.mp hd] at hlast
        simpa using hlast

theorem Tokens.of_dropWhile (h : Tokens (p.dropWhile isBlank) ts) : Tokens p ts := by
  induction p with
  | nil => exact h
  | cons c p ih =>
    cases hc : isBlank c with
    | true =>
      rw [List.dropWhile_cons_of_pos hc] at h
      exact .blank hc (ih h)
    | false =>
      rwa [List.dropWhile_cons_of_neg (by simp [hc])] at h

theorem startsComment_line (h : startsComment p = true) :
    startsComment (p.takeWhile (· ≠ newline)) = true := by
  match p with
  | [] => cases h
  | [c] =>
    have hc : c ≠ newline := by
      rintro rfl
      exact absurd h (by decide)
    simpa [hc] using h
  | c :: d :: p =>
    have hc : c ≠ newline := by
      rintro rfl
      simp [startsComment, show newline ≠ hash by decide, show newline ≠ slash by decide] at h
    rw [List.takeWhile_cons_of_pos (by simpa using hc)]
    by_cases hd : d = newline
    · subst hd
      simpa [startsComment, show newline ≠ slash by decide] using h
    · rw [List.takeWhile_cons_of_pos (by simpa using hd)]
      exact h

/-- The loop finds the tokens of a text, and none where a quote stays open. -/
theorem tokensOf_iff : tokensOf p = some ts ↔ Tokens p ts := by
  refine ⟨fun h => ?_, Tokens.tokensOf_eq⟩
  induction hn : p.length using Nat.strong_induction_on generalizing p ts with
  | _ n ih =>
    subst hn
    have hle : (p.dropWhile isBlank).length ≤ p.length := (List.dropWhile_suffix _).length_le
    have hhead := head?_dropWhile_blank p
    apply Tokens.of_dropWhile
    rw [tokensOf_unfold] at h
    generalize p.dropWhile isBlank = text at h hle hhead ⊢
    split_ifs at h with hnil hcomment
    · cases h
      rw [hnil]
      exact .nil
    · have hrest := ih _ ((comment_length hcomment).trans_le hle) h rfl
      rw [← List.takeWhile_append_dropWhile (p := (· ≠ newline)) (l := text)]
      refine .comment (startsComment_line hcomment) (fun hmem => ?_) (fun c hc => ?_) hrest
      · simpa using List.mem_takeWhile_imp hmem
      · have hlast := List.head?_dropWhile_not (· ≠ newline) text
        rw [Option.mem_def.mp hc] at hlast
        simpa using hlast
    · obtain ⟨⟨tok, after⟩, htok, hafter⟩ := Option.bind_eq_some_iff.mp h
      obtain ⟨ts, hts, rfl⟩ := Option.map_eq_some_iff.mp hafter
      have hrest := ih _ ((lexToken_length htok hhead).trans_le hle) hts rfl
      rcases lexToken_cases hhead htok with ⟨rfl, hquote, hline⟩ |
        ⟨c, w, rfl, hquote, rfl, hblank, hend⟩
      · exact .quoted hquote hline hrest
      · refine .word hblank hquote ?_ hend hrest
        cases hw : startsComment (c :: w) with
        | false => rfl
        | true =>
          refine absurd ?_ hcomment
          cases w with
          | nil => cases after <;> simp_all [startsComment]
          | cons d w => exact hw

theorem Tokens.unique {ts' : List (List UInt8)} (h : Tokens p ts) (h' : Tokens p ts') : ts = ts' :=
  Option.some.inj ((tokensOf_iff.mpr h).symm.trans (tokensOf_iff.mpr h'))

end Tokens

section Expand
variable {fs : FileSystem} {origin : Option Path} {ts : List (List UInt8)}
  {out out' : List (List UInt8 × Option Path)} {v w : Visit}

/-- There is only one concatenation. -/
theorem Flattens.unique (h : Flattens fs origin ts out) (h' : Flattens fs origin ts out') :
    out = out' := by
  induction h generalizing out' with
  | nil =>
    cases h'
    rfl
  | plain ht _ ih =>
    cases h' with
    | plain _ h' => rw [ih h']
    | file ht' _ _ _ _ =>
      rw [ht] at ht'
      cases ht'
  | file ht hread htokens _ _ ihinner ih =>
    cases h' with
    | plain ht' _ =>
      rw [ht] at ht'
      cases ht'
    | file ht' hread' htokens' hinner' h' =>
      obtain rfl := Option.some.inj (ht.symm.trans ht')
      obtain rfl := Option.some.inj (hread.symm.trans hread')
      obtain rfl := htokens.unique htokens'
      rw [ihinner hinner', ih h']

theorem Flattens.append {ts' : List (List UInt8)} (h : Flattens fs origin ts out)
    (h' : Flattens fs origin ts' out') : Flattens fs origin (ts ++ ts') (out ++ out') := by
  induction h with
  | nil => exact h'
  | plain ht _ ih => exact .plain ht (ih h')
  | file ht hread htokens hinner _ _ ih =>
    rw [List.append_assoc]
    exact .file ht hread htokens hinner (ih h')

/-- All files reached from `v` can be expanded. -/
def Fine (fs : FileSystem) (v : Visit) : Prop :=
  ∀ w, Relation.ReflTransGen (Includes fs) v w → Good fs w

theorem fine_iff : Fine fs v ↔ Good fs v ∧ ∀ w, Includes fs v w → Fine fs w := by
  constructor
  · exact fun h => ⟨h v .refl, fun w hw u hu => h u (.head hw hu)⟩
  · rintro ⟨hv, h⟩ w hw
    rcases Relation.ReflTransGen.cases_head hw with rfl | ⟨u, hu, hw⟩
    · exact hv
    · exact h u hu w hw

/-- The tokens `more` that the file at `path` stands for. -/
def FileTokens (fs : FileSystem) (path : Path) (more : List (List UInt8 × Option Path)) : Prop :=
  ∃ buf ts, fs.readFile path = some buf ∧ Tokens (textOf buf) ts ∧ Flattens fs (some path) ts more

/-- An expansion restores the stack, ends without an error exactly where `P` holds, and appends
tokens for which `Q` holds. -/
def Outcome (P : Prop) (Q : List (List UInt8 × Option Path) → Prop) (out : ExpandedArgs)
    (r : Option Message × ExpandedArgs) : Prop :=
  r.2.stack = out.stack ∧ (r.1 = none ↔ P) ∧
    (r.1 = none → ∃ more, r.2.tokens = out.tokens ++ more ∧ Q more)

section Text
variable {windows : Bool} {expand : Path → ExpandedArgs → Option Message × ExpandedArgs}
  {file : Path}

theorem expandText_unfold (p : List UInt8) (out : ExpandedArgs) :
    expandText windows expand file p out =
      if p.dropWhile isBlank = [] then (none, out)
      else if startsComment (p.dropWhile isBlank) = true then
        expandText windows expand file ((p.dropWhile isBlank).dropWhile (· ≠ newline)) out
      else match lexToken (p.dropWhile isBlank) with
        | none => (some (message "unterminated quote in response file " file), out)
        | some (tok, after) => match nested tok with
          | some child => match expand (resolve windows (some file) child) out with
            | (some err, out) => (some err, out)
            | (none, out) => expandText windows expand file after out
          | none => expandText windows expand file after
              { out with tokens := out.tokens ++ [(tok, some (pathDir file))] } := by
  rw [expandText]
  split_ifs
  · rfl
  · rfl
  · split
    · rename_i htok
      rw [htok]
    · rename_i tok after htok
      rw [htok]
      rfl

/-- What the rest of a text has to do with the whole: `F` holds of the files that the tokens
name. -/
def Every (F : Path → Prop) (windows : Bool) (file : Path) (ts : List (List UInt8)) : Prop :=
  ∀ t ∈ ts, ∀ child, nested t = some child → F (resolve windows (some file) child)

theorem every_cons {F : Path → Prop} {t : List UInt8} : Every F windows file (t :: ts) ↔
    (∀ child, nested t = some child → F (resolve windows (some file) child)) ∧
      Every F windows file ts :=
  List.forall_mem_cons

/-- The loop over a text, from what the expansion of the files it names does. -/
theorem expandText_outcome (file : Path) (F : Path → Prop) (stack : List Path) (hwindows : windows = fs.windows)
    (hexpand : ∀ path out, out.stack = stack →
      Outcome (F path) (FileTokens fs path) out (expand path out))
    (p : List UInt8) (out : ExpandedArgs) (hstack : out.stack = stack) :
    Outcome (∃ ts, tokensOf p = some ts ∧ Every F windows file ts)
      (fun more => ∃ ts, tokensOf p = some ts ∧ Flattens fs (some file) ts more) out
      (expandText windows expand file p out) := by
  induction hn : p.length using Nat.strong_induction_on generalizing p out with
  | _ n ih =>
    subst hn
    have hle : (p.dropWhile isBlank).length ≤ p.length := (List.dropWhile_suffix _).length_le
    have hhead := head?_dropWhile_blank p
    rw [expandText_unfold, tokensOf_unfold]
    generalize p.dropWhile isBlank = text at hle hhead ⊢
    split_ifs with hnil hcomment
    · exact ⟨rfl, iff_of_true rfl ⟨[], rfl, by simp [Every]⟩,
        fun _ => ⟨[], (List.append_nil _).symm, [], rfl, .nil⟩⟩
    · exact ih _ ((comment_length hcomment).trans_le hle) _ out hstack rfl
    · cases htok : lexToken text with
      | none => exact ⟨rfl, iff_of_false (by simp) (by simp), by simp⟩
      | some found =>
        obtain ⟨tok, after⟩ := found
        have hlt := (lexToken_length htok hhead).trans_le hle
        simp only [Option.bind_some, Option.map_eq_some_iff]
        cases hchild : nested tok with
        | none =>
          obtain ⟨hs, hiff, htokens⟩ := ih _ hlt after
            { out with tokens := out.tokens ++ [(tok, some (pathDir file))] } hstack rfl
          refine ⟨hs, hiff.trans ?_, fun hok => ?_⟩
          · constructor
            · rintro ⟨ts, hts, hF⟩
              exact ⟨tok :: ts, ⟨ts, hts, rfl⟩, every_cons.mpr ⟨by simp [hchild], hF⟩⟩
            · rintro ⟨_, ⟨ts, hts, rfl⟩, hF⟩
              exact ⟨ts, hts, (every_cons.mp hF).2⟩
          · obtain ⟨more, hmore, ts, hts, hflat⟩ := htokens hok
            refine ⟨(tok, some (pathDir file)) :: more, ?_, tok :: ts, ⟨ts, hts, rfl⟩, ?_⟩
            · rw [hmore, List.append_assoc]
              rfl
            · exact .plain hchild hflat
        | some child =>
          obtain ⟨hs, hiff, htokens⟩ := hexpand (resolve windows (some file) child) out hstack
          simp only
          generalize hr : expand (resolve windows (some file) child) out = r at hs hiff htokens
          obtain ⟨err, out₁⟩ := r
          cases err with
          | some err =>
            refine ⟨hs, iff_of_false (by simp) ?_, by simp⟩
            rintro ⟨_, ⟨ts, hts, rfl⟩, hF⟩
            exact absurd (hiff.mpr ((every_cons.mp hF).1 child hchild)) (by simp)
          | none =>
            have hF := hiff.mp rfl
            obtain ⟨more₁, hmore₁, buf, inner, hread, hinner, hflat₁⟩ := htokens rfl
            obtain ⟨hs₂, hiff₂, htokens₂⟩ := ih _ hlt after out₁ (hs.trans hstack) rfl
            refine ⟨hs₂.trans hs, hiff₂.trans ?_, fun hok => ?_⟩
            · constructor
              · rintro ⟨ts, hts, hF'⟩
                refine ⟨tok :: ts, ⟨ts, hts, rfl⟩, every_cons.mpr ⟨fun c hc => ?_, hF'⟩⟩
                obtain rfl := Option.some.inj (hchild.symm.trans hc)
                exact hF
              · rintro ⟨_, ⟨ts, hts, rfl⟩, hF'⟩
                exact ⟨ts, hts, (every_cons.mp hF').2⟩
            · obtain ⟨more, hmore, ts, hts, hflat⟩ := htokens₂ hok
              refine ⟨more₁ ++ more, ?_, tok :: ts, ⟨ts, hts, rfl⟩, ?_⟩
              · rw [hmore, hmore₁, List.append_assoc]
              · subst hwindows
                exact .file hchild hread hinner hflat₁ hflat

end Text

/-- A file that can be opened is fine when its quotes are closed and the files it names are
fine. -/
theorem fine_iff_of_opened {canon : Path} {buf : List UInt8} (hdepth : v.depth ≤ argsMaxDepth)
    (hcanon : fs.realpath v.path = some canon) (hnew : canon ∉ v.active)
    (hread : fs.readFile v.path = some buf) :
    Fine fs v ↔ ∃ ts, tokensOf (textOf buf) = some ts ∧
      Every (fun path => Fine fs ⟨path, v.depth + 1, v.active ++ [canon]⟩) fs.windows v.path ts := by
  rw [fine_iff]
  constructor
  · rintro ⟨hgood, hnext⟩
    obtain ⟨buf', ts, hread', htokens⟩ := hgood.closed
    obtain rfl := Option.some.inj (hread.symm.trans hread')
    refine ⟨ts, tokensOf_iff.mpr htokens, fun t ht child hchild => ?_⟩
    exact hnext _ (.mk hcanon hread htokens ht hchild)
  · rintro ⟨ts, hts, hevery⟩
    have htokens := tokensOf_iff.mp hts
    refine ⟨⟨hdepth, ⟨canon, hcanon, hnew⟩, buf, ts, hread, htokens⟩, fun w hw => ?_⟩
    cases hw with
    | mk hcanon' hread' htokens' ht hchild =>
      obtain rfl := Option.some.inj (hcanon.symm.trans hcanon')
      obtain rfl := Option.some.inj (hread.symm.trans hread')
      obtain rfl := htokens.unique htokens'
      exact hevery _ ht _ hchild

/-- One file: it is expanded exactly when all files reached from it can be. -/
theorem expandFile_outcome (fs : FileSystem) (v : Visit) (out : ExpandedArgs) (hstack : out.stack = v.active) :
    Outcome (Fine fs v) (FileTokens fs v.path) out (expandFile fs v.path v.depth out) := by
  induction hn : argsMaxDepth + 1 - v.depth using Nat.strong_induction_on generalizing v out with
  | _ n ih =>
    subst hn
    have hfail : ∀ {err : Message}, ¬Good fs v →
        Outcome (Fine fs v) (FileTokens fs v.path) out (some err, out) := fun hbad =>
      ⟨rfl, iff_of_false (by simp) fun h => hbad (fine_iff.mp h).1, by simp⟩
    rw [expandFile]
    split_ifs with hdepth
    · exact hfail fun h => absurd h.depth (not_le.mpr hdepth)
    · cases hcanon : fs.realpath v.path with
      | none =>
        refine hfail fun h => ?_
        obtain ⟨canon, hc, -⟩ := h.acyclic
        rw [hcanon] at hc
        cases hc
      | some canon =>
        simp only
        split_ifs with hmem
        · refine hfail fun h => ?_
          obtain ⟨canon', hc, hnew⟩ := h.acyclic
          obtain rfl := Option.some.inj (hcanon.symm.trans hc)
          exact hnew (hstack ▸ hmem)
        · cases hread : fs.readFile v.path with
          | none =>
            refine hfail fun h => ?_
            obtain ⟨buf, ts, hr, -⟩ := h.closed
            rw [hread] at hr
            cases hr
          | some buf =>
            have hexpand : ∀ path out', out'.stack = v.active ++ [canon] →
                Outcome (Fine fs ⟨path, v.depth + 1, v.active ++ [canon]⟩) (FileTokens fs path)
                  out' (expandFile fs path (v.depth + 1) out') := fun path out' hout' =>
              ih _ (by show argsMaxDepth + 1 - (v.depth + 1) < _; omega)
                ⟨path, v.depth + 1, v.active ++ [canon]⟩ out' hout' rfl
            obtain ⟨hs, hiff, htokens⟩ := expandText_outcome v.path
              (fun path => Fine fs ⟨path, v.depth + 1, v.active ++ [canon]⟩) (v.active ++ [canon])
              rfl hexpand (textOf buf) { out with stack := out.stack ++ [canon] } (by rw [hstack])
            refine ⟨?_, hiff.trans (fine_iff_of_opened (not_lt.mp hdepth) hcanon
              (hstack ▸ hmem) hread).symm, fun hok => ?_⟩
            · exact (congrArg List.dropLast hs).trans (List.dropLast_concat ..)
            · obtain ⟨more, hmore, ts, hts, hflat⟩ := htokens hok
              exact ⟨more, hmore, buf, ts, hread, tokensOf_iff.mp hts, hflat⟩

/-- The loop over the arguments. -/
theorem expandArgv_outcome (fs : FileSystem) (argv : List (List UInt8)) (out : ExpandedArgs) (hstack : out.stack = []) :
    Outcome (∀ t ∈ argv, ∀ path, nested t = some path → Fine fs ⟨path, 0, []⟩)
      (Flattens fs none argv) out (expandArgv fs argv out) := by
  induction argv generalizing out with
  | nil => exact ⟨rfl, iff_of_true rfl (by simp), fun _ => ⟨[], (List.append_nil _).symm, .nil⟩⟩
  | cons t argv ih =>
    rw [expandArgv]
    simp only [List.forall_mem_cons]
    cases hchild : nested t with
    | none =>
      obtain ⟨hs, hiff, htokens⟩ := ih { out with tokens := out.tokens ++ [(t, none)] } hstack
      refine ⟨hs, hiff.trans (by simp), fun hok => ?_⟩
      obtain ⟨more, hmore, hflat⟩ := htokens hok
      refine ⟨(t, none) :: more, ?_, .plain hchild hflat⟩
      rw [hmore, List.append_assoc]
      rfl
    | some path =>
      obtain ⟨hs, hiff, htokens⟩ := expandFile_outcome fs ⟨path, 0, []⟩ out hstack
      simp only
      generalize hr : expandFile fs path 0 out = r at hs hiff htokens
      obtain ⟨err, out₁⟩ := r
      cases err with
      | some err =>
        exact ⟨hs, iff_of_false (by simp) fun h => by simpa using hiff.mpr (h.1 path rfl), by simp⟩
      | none =>
        have hfine := hiff.mp rfl
        obtain ⟨more₁, hmore₁, buf, inner, hread, hinner, hflat₁⟩ := htokens rfl
        obtain ⟨hs₂, hiff₂, htokens₂⟩ := ih out₁ (hs.trans hstack)
        refine ⟨hs₂.trans hs, hiff₂.trans ?_, fun hok => ?_⟩
        · refine ⟨fun h => ⟨fun p hp => ?_, h⟩, And.right⟩
          cases hp
          exact hfine
        · obtain ⟨more, hmore, hflat⟩ := htokens₂ hok
          refine ⟨more₁ ++ more, ?_, .file hchild hread hinner hflat₁ hflat⟩
          rw [hmore, hmore₁, List.append_assoc]

theorem argsExpand_ok_iff {argv : List (List UInt8)} :
    (argsExpand fs argv).1 = none ↔ ∀ v, Reaches fs argv v → Good fs v := by
  obtain ⟨-, hiff, -⟩ := expandArgv_outcome fs argv {} rfl
  have hok : (argsExpand fs argv).1 = (expandArgv fs argv {}).1 := by
    rw [argsExpand]
    rcases expandArgv fs argv {} with ⟨_ | err, out⟩ <;> rfl
  rw [hok, hiff]
  constructor
  · rintro h v ⟨t, ht, path, hpath, hv⟩
    exact h t ht path hpath v hv
  · exact fun h t ht path hpath v hv => h v ⟨t, ht, path, hpath, hv⟩

theorem argsExpand_flattens {argv : List (List UInt8)} (h : (argsExpand fs argv).1 = none) :
    Flattens fs none argv (argsExpand fs argv).2 := by
  obtain ⟨-, -, htokens⟩ := expandArgv_outcome fs argv {} rfl
  rw [argsExpand] at h ⊢
  generalize expandArgv fs argv {} = r at h htokens ⊢
  obtain ⟨err, out⟩ := r
  cases err with
  | some err => cases h
  | none =>
    obtain ⟨more, hmore, hflat⟩ := htokens rfl
    show Flattens fs none argv out.tokens
    rw [show out.tokens = more from hmore]
    exact hflat

/-- The expansion gives no error exactly when every file that is reached can be expanded, and
then its tokens are the concatenation of all tokens. Otherwise it gives no tokens. Naming the
same files again is no cycle. -/
theorem argsExpand_exact (fs : FileSystem) (argv : List (List UInt8)) :
    ((argsExpand fs argv).1 = none ↔ ∀ v, Reaches fs argv v → Good fs v) ∧
    ((argsExpand fs argv).1 = none → Flattens fs none argv (argsExpand fs argv).2) ∧
    ((argsExpand fs argv).1 ≠ none → (argsExpand fs argv).2 = []) ∧
    ((argsExpand fs argv).1 = none → argsExpand fs (argv ++ argv) =
      (none, (argsExpand fs argv).2 ++ (argsExpand fs argv).2)) := by
  refine ⟨argsExpand_ok_iff, argsExpand_flattens, fun h => ?_, fun h => ?_⟩
  · rw [argsExpand] at h ⊢
    generalize expandArgv fs argv {} = r at h ⊢
    obtain ⟨_ | err, out⟩ := r
    · exact absurd rfl h
    · rfl
  · have hflat := argsExpand_flattens h
    have hagain : (argsExpand fs (argv ++ argv)).1 = none := by
      rw [argsExpand_ok_iff] at h ⊢
      rintro v ⟨t, ht, hv⟩
      exact h v ⟨t, (List.mem_append.mp ht).elim id id, hv⟩
    exact Prod.ext hagain ((argsExpand_flattens hagain).unique (hflat.append hflat))

end Expand

end FcLang.Args.Response
