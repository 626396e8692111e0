import FcLang.Lsp.Uri

/-!
# The language server

Open documents, the compilation units they belong to, and the messages that
change them. The compiler and the file system are what the server is given: names
resolve the same way throughout a session, and everything else may change between
two messages. What a query reads of an analysis is a parameter.
-/

namespace FcLang.Lsp
open Args (CString)
open Printf (ascii)

abbrev Bytes := List UInt8

/-- `realpath`: a resolved path resolves to itself. -/
structure Names where
  realpath : Bytes → Option Bytes
  resolved : ∀ x y, realpath x = some y → realpath y = some y

def Names.canonPath (n : Names) (path : Bytes) : Bytes := (n.realpath path).getD path

structure Source where
  filename : Bytes
  text : Bytes
  deriving DecidableEq

structure Flag where
  name : Bytes
  value : Option Bytes
  deriving DecidableEq

/-- An `lsp.rsp` that expands and parses. -/
structure Response where
  inputs : List Bytes
  flags : List Flag
  lenRepr : ℕ

structure World where
  readable : Bytes → Bool
  response : Bytes → Except Bytes Response
  entries : Bytes → List Bytes
  isDir : Bytes → Bool
  readFile : Bytes → Option Bytes

structure Diagnostic where
  file : Option Bytes
  line : ℤ
  col : ℤ
  message : Bytes
  deriving DecidableEq

structure AnalysisInput where
  primary : Source
  extra : List Source
  flags : List Flag
  lenRepr : ℕ

/-- An analysis; `program` is all that queries read. -/
structure Analysis (P : Type) where
  filename : Bytes
  program : P
  typed : Bool
  diags : List Diagnostic

structure Setting (P : Type) where
  names : Names
  stdlib : List Source
  hostFlags : List Flag
  analyze : AnalysisInput → P × Bool × List Diagnostic

inductive UnitKind where
  | rsp | dir | unlisted
  deriving DecidableEq

/-- A unit's key is its kind's letter, a colon and a path. -/
structure UnitKey where
  kind : UnitKind
  path : Bytes
  deriving DecidableEq

structure LspDoc where
  uri : Bytes
  path : Bytes
  real : Bytes
  text : Bytes
  dirty : Bool
  unitKey : Option UnitKey

structure UnitEntry (P : Type) where
  key : UnitKey
  files : List Bytes
  notReported : List Bytes
  result : Option (Analysis P)
  lastGood : Option (Analysis P)

/-- One `publishDiagnostics`: the ranges are those of the positions in `text`. -/
structure Notification where
  uri : Bytes
  text : Bytes
  diags : List (ℤ × ℤ × Bytes)

structure Server (P : Type) where
  docs : List LspDoc
  units : List (UnitEntry P)
  pubUris : List Bytes
  shutdownRequested : Bool
  published : List Notification

variable {P : Type}

def storeFind (docs : List LspDoc) (uri : Bytes) : Option ℕ := docs.findIdx? fun d => d.uri = uri

/-- `store_find_by_path`: the exact string first, then canonical paths. -/
def storeFindByPath (n : Names) (docs : List LspDoc) (path : Bytes) : Option ℕ :=
  (docs.findIdx? fun d => d.path = path) <|> docs.findIdx? fun d => d.real = n.canonPath path

def unitFind (units : List (UnitEntry P)) (key : UnitKey) : Option ℕ :=
  units.findIdx? fun u => u.key = key

/-- `docs[i] = docs[--count]` -/
def swapRemove {α : Type} (l : List α) (i : ℕ) : List α :=
  match l.getLast? with
  | none => []
  | some last => (l.set i last).dropLast

/-- `doc_dir`: what stands before the last slash, if that is not the first byte. -/
def docDir (path : Bytes) : Option Bytes :=
  match (path.reverse.dropWhile (· ≠ slash)).tail.reverse with
  | [] => none
  | dir => some dir

theorem docDir_length {path dir : Bytes} (h : docDir path = some dir) :
    dir.length < path.length := by
  unfold docDir at h
  split at h
  · cases h
  · rename_i hdir
    cases h
    have hdrop : (path.reverse.dropWhile (· ≠ slash)).length ≤ path.reverse.length :=
      (List.dropWhile_suffix _).length_le
    have hpos := List.length_pos_iff.mpr hdir
    simp only [List.length_reverse, List.length_tail] at hdrop hpos ⊢
    omega

/-- The loop of `find_lsp_rsp`, up from `dir`. -/
def findRspFrom (w : World) (dir : Bytes) : Option Bytes :=
  if w.readable (dir ++ ascii "/lsp.rsp") then some (dir ++ ascii "/lsp.rsp")
  else
    match _h : docDir dir with
    | none => none
    | some up => findRspFrom w up
termination_by dir.length
decreasing_by exact docDir_length _h

def findLspRsp (n : Names) (w : World) (path : Bytes) : Option Bytes := do
  findRspFrom w (← n.realpath (← docDir path))

def rspInputPaths (n : Names) (w : World) (rsp : Bytes) : Option (List Bytes) :=
  match w.response rsp with
  | .ok r => some (r.inputs.map n.canonPath)
  | .error _ => none

/-- `rsp_claims_doc`: what cannot be parsed claims every document. -/
def rspClaimsDoc (n : Names) (w : World) (rsp path : Bytes) : Bool :=
  match rspInputPaths n w rsp with
  | none => true
  | some inputs => inputs.contains (n.canonPath path)

def dirKey (n : Names) (kind : UnitKind) (path : Bytes) : UnitKey :=
  match docDir path with
  | none => ⟨kind, path⟩
  | some dir => ⟨kind, n.canonPath dir⟩

def unitKey (n : Names) (w : World) (path : Bytes) : UnitKey :=
  match findLspRsp n w path with
  | none => dirKey n .dir path
  | some rsp =>
    if rspClaimsDoc n w rsp path then ⟨.rsp, n.canonPath rsp⟩ else dirKey n .unlisted path

/-- `collect_sibling_fc` -/
def siblings (w : World) (path : Bytes) : List Bytes :=
  match docDir path with
  | none => []
  | some dir =>
    ((w.entries dir).filter fun name => 4 ≤ name.length ∧ ascii ".fc" <:+ name).map
      (fun name => dir ++ [slash] ++ name) |>.filter fun full => full ≠ path ∧ w.isDir full = false

/-- `UnitSources`, as far as the analysis uses it. -/
structure UnitSources where
  extra : List Source
  flags : List Flag
  lenRepr : ℕ
  rspErr : Option Bytes

def addMemberSource (w : World) (opened : Option LspDoc) (path : Bytes) : List Source :=
  match opened with
  | some d => [⟨d.path, d.text⟩]
  | none =>
    match w.readFile path with
    | some text => [⟨path, text⟩]
    | none => []

/-- The document open under `path`, unless it is the one at `i`. -/
def openedElse (n : Names) (docs : List LspDoc) (i : ℕ) (path : Bytes) : Option LspDoc :=
  match storeFindByPath n docs path with
  | none => none
  | some j => if j = i then none else docs[j]?

/-- The members of a unit that an `lsp.rsp` lists, for the document `d` at `i`. -/
def rspSources (n : Names) (w : World) (docs : List LspDoc) (i : ℕ) (d : LspDoc)
    (inputs : List Bytes) : List Source :=
  inputs.flatMap fun input =>
    if n.canonPath d.path = n.canonPath input then []
    else addMemberSource w (openedElse n docs i (n.canonPath input)) input

def siblingSources (n : Names) (w : World) (docs : List LspDoc) (i : ℕ) (d : LspDoc) :
    List Source :=
  (siblings w d.path).flatMap fun sib =>
    if storeFindByPath n docs sib = some i then []
    else addMemberSource w (openedElse n docs i sib) sib

/-- The entries of the standard library that are no source already there. -/
def stdlibFeed (n : Names) (stdlib present : List Source) : List Source :=
  stdlib.filter fun s =>
    ¬present.any fun p => n.canonPath p.filename = n.canonPath s.filename ∨ p.text = s.text

def gatherHeuristicSources (g : Setting P) (w : World) (docs : List LspDoc) (i : ℕ) (d : LspDoc)
    (rspErr : Option Bytes) : UnitSources :=
  let sibs := siblingSources g.names w docs i d
  { extra := sibs ++ stdlibFeed g.names g.stdlib (⟨d.path, d.text⟩ :: sibs)
    flags := g.hostFlags
    lenRepr := 64
    rspErr := rspErr }

/-- `gather_rsp_sources`, and the directory rule where it returns false. -/
def gatherSources (g : Setting P) (w : World) (docs : List LspDoc) (key : UnitKey) (i : ℕ)
    (d : LspDoc) : UnitSources :=
  if key.kind = .unlisted then gatherHeuristicSources g w docs i d none
  else
    match findLspRsp g.names w d.path with
    | none => gatherHeuristicSources g w docs i d none
    | some rsp =>
      match w.response rsp with
      | .ok r =>
        { extra := rspSources g.names w docs i d r.inputs
          flags := r.flags
          lenRepr := r.lenRepr
          rspErr := none }
      | .error e => gatherHeuristicSources g w docs i d (some e)

/-- What is said on each document that an `lsp.rsp` above it does not list. -/
def unlistedNotes (docs : List LspDoc) (key : UnitKey) (rsp : Bytes) : List Diagnostic :=
  (docs.filter fun d => d.unitKey = some key).map fun d =>
    { file := some d.path
      line := 1
      col := 1
      message := ascii "not listed in " ++ rsp ++ ascii
        ", so it is analyzed with the .fc files beside it and the standard library, as a file with no lsp.rsp is" }

/-- What is said on the document of an `lsp.rsp` that cannot be used. -/
def brokenNotes (d : LspDoc) (rspErr : Option Bytes) : List Diagnostic :=
  rspErr.toList.map fun e =>
    { file := some d.path
      line := 1
      col := 1
      message := ascii "lsp.rsp ignored: " ++ e }

/-- `analyze_unit`, with the document `d` at `i` as the primary source. -/
def analyzeUnit (g : Setting P) (w : World) (docs : List LspDoc) (u : UnitEntry P) (i : ℕ)
    (d : LspDoc) : UnitEntry P :=
  let sources := gatherSources g w docs u.key i d
  let rsp := if u.key.kind = .unlisted then findLspRsp g.names w d.path else none
  let (program, typed, diags) := g.analyze
    { primary := ⟨d.path, d.text⟩
      extra := sources.extra
      flags := sources.flags
      lenRepr := sources.lenRepr }
  let notes := (rsp.map (unlistedNotes docs u.key)).getD [] ++ brokenNotes d sources.rspErr
  let result : Analysis P :=
    { filename := d.path
      program := program
      typed := typed
      diags := diags ++ notes }
  { key := u.key
    files := (d.path :: sources.extra.map Source.filename).map g.names.canonPath
    notReported := (rsp.bind (rspInputPaths g.names w)).getD []
    result := some result
    lastGood := if typed then some result else u.lastGood }

def primaryDocFor (docs : List LspDoc) (key : UnitKey) : Option ℕ :=
  docs.findIdx? fun d => d.unitKey = some key

/-- The analysis of a unit with its primary document, if it has one. -/
def reanalyze (g : Setting P) (w : World) (docs : List LspDoc) (u : UnitEntry P) : UnitEntry P :=
  match primaryDocFor docs u.key with
  | none => u
  | some i =>
    match docs[i]? with
    | none => u
    | some d => analyzeUnit g w docs u i d

/-- The units of a flush, and the keys of those it has analyzed. -/
structure Flushing (P : Type) where
  units : List (UnitEntry P)
  analyzed : List UnitKey

/-- `unit_find_or_create`, then the analysis. -/
def Flushing.analyzeKey (g : Setting P) (w : World) (docs : List LspDoc) (key : UnitKey)
    (f : Flushing P) : Flushing P :=
  match unitFind f.units key with
  | some i => ⟨f.units.modify i (reanalyze g w docs), f.analyzed ++ [key]⟩
  | none =>
    ⟨f.units ++ [reanalyze g w docs ⟨key, [], [], none, none⟩], f.analyzed ++ [key]⟩

def Flushing.analyzeDocs (g : Setting P) (w : World) (docs : List LspDoc) :
    List LspDoc → Flushing P → Flushing P
  | [], f => f
  | d :: ds, f =>
    match d.dirty, d.unitKey with
    | true, some key =>
      if key ∈ f.analyzed then analyzeDocs g w docs ds f
      else analyzeDocs g w docs ds (f.analyzeKey g w docs key)
    | _, _ => analyzeDocs g w docs ds f

def touched (docs : List LspDoc) (u : UnitEntry P) : Bool :=
  docs.any fun d => d.dirty && u.files.contains d.real

def Flushing.analyzeTouched (g : Setting P) (w : World) (docs : List LspDoc) :
    List ℕ → Flushing P → Flushing P
  | [], f => f
  | i :: is, f =>
    match f.units[i]? with
    | none => analyzeTouched g w docs is f
    | some u =>
      if u.key ∈ f.analyzed ∨ touched docs u = false ∨ primaryDocFor docs u.key = none then
        analyzeTouched g w docs is f
      else
        analyzeTouched g w docs is
          ⟨f.units.modify i (reanalyze g w docs), f.analyzed ++ [u.key]⟩

/-- The identity of a document, found anew. -/
def refreshDoc (n : Names) (w : World) (d : LspDoc) : LspDoc :=
  let key := unitKey n w d.path
  { d with
    dirty := d.dirty || d.unitKey ≠ some key
    unitKey := some key
    real := n.canonPath d.path }

/-- The loop of `unit_prune` from `i` on: the last unit takes the place of a removed one. -/
def unitPruneFrom (docs : List LspDoc) (units : List (UnitEntry P)) (i : ℕ) :
    List (UnitEntry P) :=
  match h : units[i]? with
  | none => units
  | some u =>
    if docs.any fun d => d.unitKey = some u.key then unitPruneFrom docs units (i + 1)
    else unitPruneFrom docs (swapRemove units i) i
termination_by units.length - i
decreasing_by
  · have := (List.getElem?_eq_some_iff.mp h).1
    omega
  · have hi := (List.getElem?_eq_some_iff.mp h).1
    unfold swapRemove
    split
    · simp only [List.length_nil]
      omega
    · simp only [List.length_dropLast, List.length_set]
      omega

def unitPrune (docs : List LspDoc) (units : List (UnitEntry P)) : List (UnitEntry P) :=
  unitPruneFrom docs units 0

structure AggDiag where
  file : Bytes
  line : ℤ
  col : ℤ
  msg : Bytes
  deriving DecidableEq

/-- Whether a file is published: not one that another unit reports, and of the standard library
only what is open. -/
def reported (s : Server P) (g : Setting P) (u : UnitEntry P) (file : Bytes) : Bool :=
  ¬u.notReported.contains (g.names.canonPath file) ∧
    ((storeFindByPath g.names s.docs file).isSome ∨ ∀ f ∈ g.stdlib, f.filename ≠ file)

def unitDiags (s : Server P) (g : Setting P) (u : UnitEntry P) : List AggDiag :=
  match u.result with
  | none => []
  | some r =>
    (r.diags.map fun d => ⟨d.file.getD r.filename, d.line, d.col, d.message⟩).filter fun d =>
      reported s g u d.file

/-- The loop that leaves out what is already there. -/
def dedup : List AggDiag → List AggDiag → List AggDiag
  | agg, [] => agg
  | agg, d :: ds => if d ∈ agg then dedup agg ds else dedup (agg ++ [d]) ds

def uriForPath (n : Names) (docs : List LspDoc) (path : Bytes) : Bytes :=
  match (storeFindByPath n docs path).bind (docs[·]?) with
  | some d => d.uri
  | none => scheme ++ (n.canonPath path).flatMap encodeByte

/-- The text that positions of a file refer to. -/
def fileText (n : Names) (w : World) (docs : List LspDoc) (path : Bytes) : Option Bytes :=
  match (storeFindByPath n docs path).bind (docs[·]?) with
  | some d => some d.text
  | none => w.readFile path

def positions (agg : List AggDiag) (file : Bytes) : List (ℤ × ℤ × Bytes) :=
  (agg.filter fun d => d.file = file).map fun d => (d.line, d.col, d.msg)

/-- The files with diagnostics, each where it comes first. -/
def erroredFiles : List Bytes → List AggDiag → List Bytes
  | files, [] => files
  | files, d :: ds =>
    if d.file ∈ files then erroredFiles files ds else erroredFiles (files ++ [d.file]) ds

/-- One notification for each file with diagnostics whose text there is. -/
def errorNotices (g : Setting P) (w : World) (docs : List LspDoc) (agg : List AggDiag) :
    List Notification :=
  (erroredFiles [] agg).filterMap fun file =>
    (fileText g.names w docs file).map fun text =>
      ⟨uriForPath g.names docs file, text, positions agg file⟩

def clearing (uri : Bytes) : Notification := ⟨uri, [], []⟩

def publishProjectDiagnostics (g : Setting P) (w : World) (s : Server P) : Server P :=
  let agg := dedup [] (s.units.flatMap (unitDiags s g))
  let notices := errorNotices g w s.docs agg
  let now := notices.map Notification.uri
  let opened := (s.docs.map LspDoc.uri).filter fun uri => !now.contains uri
  let gone := s.pubUris.filter fun uri =>
    !now.contains uri && !(s.docs.map LspDoc.uri).contains uri
  { s with
    pubUris := now
    published := s.published ++ (notices ++ (opened ++ gone).map clearing) }

/-- Both loops of `flush_dirty`, over refreshed documents. -/
def flushing (g : Setting P) (w : World) (docs : List LspDoc) (units : List (UnitEntry P)) :
    Flushing P :=
  let f := Flushing.analyzeDocs g w docs docs ⟨units, []⟩
  Flushing.analyzeTouched g w docs (List.range f.units.length) f

def settled (docs : List LspDoc) : List LspDoc := docs.map fun d => { d with dirty := false }

def flushDirty (g : Setting P) (w : World) (s : Server P) : Server P :=
  if s.docs.any LspDoc.dirty then
    let docs := s.docs.map (refreshDoc g.names w)
    let units := (flushing g w docs s.units).units
    publishProjectDiagnostics g w
      { s with
        docs := settled docs
        units := unitPrune (settled docs) units }
  else s

/-- What the handlers read of a message's parameters. A change is its `text`, where that is a
string; the other requests name a document at most. -/
inductive Method where
  | didOpen (uri : Option CString) (text : Option Bytes)
  | didChange (uri : Option CString) (changes : List (Option Bytes))
  | didClose (uri : Option CString)
  | query (uri : Option CString)
  | shutdown
  | exit
  | other

/-- A request has an id. -/
structure Message where
  request : Bool
  method : Method

def handleDidOpen (g : Setting P) (s : Server P) (uri : CString) (text : Bytes) : Server P :=
  match storeFind s.docs uri.bytes with
  | some i => { s with docs := s.docs.modify i fun d => { d with text := text, dirty := true } }
  | none =>
    let path := (uriToPath uri).bytes
    let d : LspDoc :=
      { uri := uri.bytes
        path := path
        real := g.names.canonPath path
        text := text
        dirty := true
        unitKey := none }
    { s with docs := s.docs ++ [d] }

/-- Of several changes the last one counts. -/
def handleDidChange (s : Server P) (uri : CString) (changes : List (Option Bytes)) : Server P :=
  match storeFind s.docs uri.bytes, changes.getLast?.join with
  | some i, some text =>
    { s with docs := s.docs.modify i fun d => { d with text := text, dirty := true } }
  | _, _ => s

def handleDidClose (g : Setting P) (w : World) (s : Server P) (uri : CString) : Server P :=
  match storeFind s.docs uri.bytes with
  | none => s
  | some i =>
    let docs := swapRemove s.docs i
    if docs.isEmpty then
      { s with
        docs := docs
        units := unitPrune docs s.units
        pubUris := []
        published := s.published ++ (s.pubUris ++ [uri.bytes]).map clearing }
    else
      flushDirty g w { s with docs := docs.map fun d => { d with dirty := true } }

def handle (g : Setting P) (w : World) (s : Server P) : Method → Server P
  | .didOpen (some uri) (some text) => handleDidOpen g s uri text
  | .didChange (some uri) changes => handleDidChange s uri changes
  | .didClose (some uri) => handleDidClose g w s uri
  | .shutdown => { s with shutdownRequested := true }
  | _ => s

/-- `dispatch`: what a request meets, and what it leaves. -/
def answering (g : Setting P) (w : World) (s : Server P) (m : Message) : Server P :=
  if m.request then flushDirty g w s else s

def dispatch (g : Setting P) (w : World) (s : Server P) (m : Message) : Server P :=
  handle g w (answering g w s m) m.method

/-- A round of the message loop: the message, whether input is pending behind it, and the file
system before and after it is handled. -/
structure Round where
  message : Message
  pending : Bool
  world : World
  later : World

/-- The server after a round; an `exit` ends the loop before the flush. -/
def round (g : Setting P) (s : Server P) (r : Round) : Server P :=
  let s := dispatch g r.world s r.message
  if r.pending then s else flushDirty g r.later s

def start : Server P := ⟨[], [], [], false, []⟩

/-- The server after some rounds, none of which is an `exit`. -/
def serve (g : Setting P) (rounds : List Round) : Server P := rounds.foldl (round g) start

end FcLang.Lsp
