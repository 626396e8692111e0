import FcLang.Data.HashDictRehash
import FcLang.Data.HashSet
import FcLang.Lib.Runs

/-!
# When hash tables stop probing

The load check counts live entries only, so tombstones can use up the empty
buckets a probe needs to end. A run keeps an empty bucket exactly as long as no
insertion takes the last one.
-/

namespace FcLang.Data.HashDict
open Probe Exec
variable {κ β : Type}

def HasEmpty (d : HashDict κ β) : Prop := ∃ e ∈ d.buckets, e.state = .empty

def emptyBuckets (d : HashDict κ β) : ℕ := d.buckets.countP fun e => e.state = .empty

def Present (d : HashDict κ β) (key : κ) : Prop :=
  ∃ e ∈ d.buckets, e.state = .occupied ∧ d.eq e.key key = true

/-- An insertion that leaves an empty bucket: it rehashes, overwrites, reuses a tombstone, or takes
one of at least two empty buckets. -/
def PutSafe (d : HashDict κ β) (key : κ) : Prop :=
  d.overloaded ∨ d.Present key ∨ d.ReusesTombstone key ∨ 2 ≤ d.emptyBuckets

theorem emptyBuckets_eq (d : HashDict κ β) : d.emptyBuckets = empties d.slots := by
  rw [emptyBuckets, empties, slots, List.countP_map]
  congr 1
  funext e
  cases h : e.state <;> simp [HdEntry.slot, Slot.isEmpty, h]

theorem hasEmpty_iff {d : HashDict κ β} : d.HasEmpty ↔ 0 < empties d.slots := by
  rw [← emptyBuckets_eq, emptyBuckets, List.countP_pos_iff]
  simp only [HasEmpty, decide_eq_true_eq]

theorem present_iff {d : HashDict κ β} {key : κ} :
    d.Present key ↔ ∃ v, Maps (Eqv d.eq) d.slots key v := by
  constructor
  · rintro ⟨e, he, hocc, heq⟩
    obtain ⟨j, hj⟩ := List.mem_iff_getElem?.mp he
    exact ⟨e.value, maps_of_hit hj hocc heq⟩
  · rintro ⟨v, j, k, hj, hk⟩
    obtain ⟨e, he, hslot⟩ := slots_eq_some.mp hj
    obtain ⟨hocc, rfl, -⟩ := slot_eq_live.mp hslot
    exact ⟨e, List.mem_of_getElem? he, hocc, hk⟩

inductive Request (κ β : Type) where
  | put (key : κ) (value : β)
  | tryGet (key : κ)
  | get (key : κ)
  | has (key : κ)
  | tryRemove (key : κ)
  | remove (key : κ)

def Safe (d : HashDict κ β) : Request κ β → Prop
  | .put key _ => d.PutSafe key
  | _ => True

section Runs
variable [Inhabited κ] [Inhabited β]

/-- The dictionary after one request. -/
def serve (fuel : ℕ) (d : HashDict κ β) : Request κ β → Exec (HashDict κ β)
  | .put key value => put fuel d key value
  | .tryGet key => do
    let _ ← tryGet fuel d key
    .ret d
  | .get key => do
    let _ ← get fuel d key
    .ret d
  | .has key => do
    let _ ← has fuel d key
    .ret d
  | .tryRemove key => do
    let (_, d) ← tryRemove fuel d key
    .ret d
  | .remove key => do
    let (_, d) ← remove fuel d key
    .ret d

variable {hash : κ → ℤ} {eq : κ → κ → Bool} {d : HashDict κ β}

theorem put_kept (hl : LawfulHash hash eq) (hd : Inv hash eq d) (hempty : d.HasEmpty) (key : κ)
    (value : β) (fuel : ℕ) :
    Within (d.buckets.length * 2 ≤ fuel)
      (fun d' => Inv hash eq d' ∧ (d'.HasEmpty ↔ d.PutSafe key)) (put fuel d key value) := by
  obtain ⟨rfl, rfl⟩ : d.hash = hash ∧ d.eq = eq := ⟨hd.hash_eq, hd.eq_eq⟩
  have hpos := hasEmpty_iff.mp hempty
  refine (put_within hl hd key value fuel).mono (fun h => ⟨hpos, h⟩) fun d' h => ⟨h.1, ?_⟩
  rw [hasEmpty_iff, h.2.2 hpos, PutSafe, present_iff, emptyBuckets_eq]

omit [Inhabited κ] [Inhabited β] in
theorem tryGet_kept (hl : LawfulHash hash eq) (hd : Inv hash eq d) (hempty : d.HasEmpty) (key : κ) :
    ∃ r, tryGet (d.buckets.length * 2) d key = .ret r := by
  have hget := tryGet_within hl hd key (d.buckets.length * 2)
  obtain ⟨r, hr, -⟩ := hget.total ⟨hasEmpty_iff.mp hempty, by omega⟩
  exact ⟨r, hr⟩

omit [Inhabited κ] [Inhabited β] in
theorem tryRemove_kept (hl : LawfulHash hash eq) (hd : Inv hash eq d) (hempty : d.HasEmpty)
    (key : κ) (fuel : ℕ) :
    Within (d.buckets.length * 2 ≤ fuel) (fun r => Inv hash eq r.2 ∧ r.2.HasEmpty)
      (tryRemove fuel d key) := by
  have hpos := hasEmpty_iff.mp hempty
  refine (tryRemove_within hl hd key fuel).mono (fun h => ⟨hpos, by omega⟩) fun r h => ⟨h.inv, ?_⟩
  rw [hasEmpty_iff, h.empties]
  exact hpos

theorem serve_kept (hl : LawfulHash hash eq) (hd : Inv hash eq d) (hempty : d.HasEmpty)
    {c : Request κ β} {fuel : ℕ} {d' : HashDict κ β} (h : serve fuel d c = .ret d') :
    Inv hash eq d' ∧ (d'.HasEmpty ↔ d.Safe c) := by
  cases c with
  | put key value => exact (put_kept hl hd hempty key value fuel).post h
  | tryGet key =>
    obtain ⟨r, -, hret⟩ := bind_eq_ret.mp h
    cases hret
    exact ⟨hd, iff_of_true hempty trivial⟩
  | get key =>
    obtain ⟨r, -, hret⟩ := bind_eq_ret.mp h
    cases hret
    exact ⟨hd, iff_of_true hempty trivial⟩
  | has key =>
    obtain ⟨r, -, hret⟩ := bind_eq_ret.mp h
    cases hret
    exact ⟨hd, iff_of_true hempty trivial⟩
  | tryRemove key =>
    obtain ⟨r, hrem, hret⟩ := bind_eq_ret.mp h
    cases hret
    obtain ⟨hinv, hleft⟩ := (tryRemove_kept hl hd hempty key fuel).post hrem
    exact ⟨hinv, iff_of_true hleft trivial⟩
  | remove key =>
    obtain ⟨r, hrem, hret⟩ := bind_eq_ret.mp h
    obtain ⟨r', htry, hunwrap⟩ := bind_eq_ret.mp hrem
    obtain ⟨v, -, hv⟩ := bind_eq_ret.mp hunwrap
    cases hv
    cases hret
    obtain ⟨hinv, hleft⟩ := (tryRemove_kept hl hd hempty key fuel).post htry
    exact ⟨hinv, iff_of_true hleft trivial⟩

theorem serve_ends (hl : LawfulHash hash eq) (hd : Inv hash eq d) (hempty : d.HasEmpty)
    (c : Request κ β) : serve (d.buckets.length * 2) d c ≠ .timeout := by
  cases c with
  | put key value =>
    obtain ⟨d', hput, -⟩ :=
      (put_kept hl hd hempty key value (d.buckets.length * 2)).total le_rfl
    simp [serve, hput]
  | tryGet key =>
    obtain ⟨r, hr⟩ := tryGet_kept hl hd hempty key
    simp [serve, hr]
  | get key =>
    obtain ⟨r, hr⟩ := tryGet_kept hl hd hempty key
    cases r <;> simp [serve, get, hr, unwrap]
  | has key =>
    obtain ⟨r, hr⟩ := tryGet_kept hl hd hempty key
    simp [serve, has, hr]
  | tryRemove key =>
    obtain ⟨r, hr, -⟩ := (tryRemove_kept hl hd hempty key (d.buckets.length * 2)).total le_rfl
    simp [serve, hr]
  | remove key =>
    obtain ⟨⟨v, d'⟩, hr, -⟩ :=
      (tryRemove_kept hl hd hempty key (d.buckets.length * 2)).total le_rfl
    cases v <;> simp [serve, remove, hr, unwrap]

theorem Made.hasEmpty (h : Made hash eq d) : d.HasEmpty := by
  obtain ⟨n, hn, rfl⟩ := h.eq_fresh
  have hroom : empties (fresh hash eq n : HashDict κ β).slots +
      (lives (fresh hash eq n : HashDict κ β).slots).length = n := (rehashing_fresh n).room
  rw [lives_fresh, List.length_nil] at hroom
  rw [hasEmpty_iff]
  omega

theorem Made.inv (h : Made hash eq d) : Inv hash eq d := by
  obtain ⟨n, hn, rfl⟩ := h.eq_fresh
  exact (rehashing_fresh n).inv hn

/-- A run of a dictionary ends every call with an empty bucket left exactly if every insertion is
safe when it is made. -/
theorem serve_endsWith_iff (hl : LawfulHash hash eq) (hd : Made hash eq d)
    (requests : List (Request κ β)) :
    Runs.EndsWith serve HasEmpty d requests ↔ Runs.MadeWhen serve Safe d requests := by
  apply Runs.throughout_iff (I := Inv hash eq)
  · exact fun d c hI hP => ⟨_, serve_ends hl hI hP c⟩
  · exact fun d c fuel d' hI hP h => serve_kept hl hI hP h
  · intro d c hI hP hunsafe
    cases c with
    | put key value =>
      obtain ⟨d', hput, -⟩ := (put_kept hl hI hP key value (d.buckets.length * 2)).total le_rfl
      exact ⟨_, d', hput⟩
    | _ => exact absurd trivial hunsafe
  · exact hd.inv
  · exact hd.hasEmpty

end Runs
end HashDict

namespace HashSet
open HashDict
variable {κ : Type} [Inhabited κ] {hash : κ → ℤ} {eq : κ → κ → Bool} {s : HashSet κ}

/-- The sets that `make` and `makeWithCapacity` create. -/
def Made (hash : κ → ℤ) (eq : κ → κ → Bool) (s : HashSet κ) : Prop :=
  s = make hash eq ∨ ∃ cap, s = makeWithCapacity cap hash eq

inductive Request (κ : Type) where
  | add (key : κ)
  | has (key : κ)
  | remove (key : κ)

def Safe (s : HashSet κ) : Request κ → Prop
  | .add key => s.PutSafe key
  | _ => True

/-- The set after one request. -/
def serve (fuel : ℕ) (s : HashSet κ) : Request κ → Exec (HashSet κ)
  | .add key => add fuel s key
  | .has key => do
    let _ ← has fuel s key
    .ret s
  | .remove key => do
    let (_, s) ← remove fuel s key
    .ret s

def Request.onDict : Request κ → HashDict.Request κ Unit
  | .add key => .put key ()
  | .has key => .has key
  | .remove key => .tryRemove key

theorem serve_onDict (fuel : ℕ) (s : HashSet κ) (c : Request κ) :
    serve fuel s c = HashDict.serve fuel s c.onDict := by
  cases c with
  | add key => rfl
  | has key => rfl
  | remove key => simp [serve, remove, Request.onDict, HashDict.serve]

omit [Inhabited κ] in
theorem safe_onDict (s : HashSet κ) (c : Request κ) : Safe s c ↔ HashDict.Safe s c.onDict := by
  cases c <;> exact Iff.rfl

theorem serve_endsWith_iff (hl : LawfulHash hash eq) (hs : HashSet.Made hash eq s)
    (requests : List (Request κ)) :
    Runs.EndsWith serve HasEmpty s requests ↔ Runs.MadeWhen serve Safe s requests := by
  have hmade : HashDict.Made hash eq s := hs
  apply Runs.throughout_iff (I := Inv hash eq)
  · intro s c hI hP
    simp only [serve_onDict]
    exact ⟨_, serve_ends hl hI hP c.onDict⟩
  · intro s c fuel s' hI hP h
    rw [serve_onDict] at h
    rw [safe_onDict]
    exact serve_kept hl hI hP h
  · intro s c hI hP hunsafe
    cases c with
    | add key =>
      obtain ⟨s', hput, -⟩ := (put_kept hl hI hP key () (s.buckets.length * 2)).total le_rfl
      exact ⟨_, s', hput⟩
    | _ => exact absurd trivial hunsafe
  · exact hmade.inv
  · exact hmade.hasEmpty

end HashSet

/-- A hash table ends every call with an empty bucket left exactly if no insertion of its run takes
the last empty bucket. -/
theorem probing_ends_iff {κ β : Type} [Inhabited κ] [Inhabited β] {hash : κ → ℤ}
    {eq : κ → κ → Bool} (hl : LawfulHash hash eq) :
    (∀ d : HashDict κ β, d.Made hash eq → ∀ requests,
      Runs.EndsWith HashDict.serve HashDict.HasEmpty d requests ↔
        Runs.MadeWhen HashDict.serve HashDict.Safe d requests) ∧
    ∀ s : HashSet κ, HashSet.Made hash eq s → ∀ requests,
      Runs.EndsWith HashSet.serve HashDict.HasEmpty s requests ↔
        Runs.MadeWhen HashSet.serve HashSet.Safe s requests :=
  ⟨fun _ hd requests => HashDict.serve_endsWith_iff hl hd requests,
    fun _ hs requests => HashSet.serve_endsWith_iff hl hs requests⟩

theorem probing_ends_once : Runs.EndsWith HashDict.serve HashDict.HasEmpty
    (HashDict.makeWithCapacity 4 id (fun x y => decide (x = y)) : HashDict ℤ ℤ)
    [.put 0 0, .tryGet 1] :=
  ((probing_ends_iff (LawfulHash.of_decEq id)).1 _ (.inr ⟨4, rfl⟩) _).mpr
    ⟨.inr (.inr (.inr (by decide))), fun _ _ _ =>
      ⟨trivial, trivial, fun _ _ _ => ⟨trivial, trivial⟩⟩⟩

/-- Four insertions, each removed again, leave four tombstones; the next lookup never ends. -/
theorem tombstones_fill_table :
    let d : HashDict ℤ ℤ := HashDict.makeWithCapacity 4 id fun x y => decide (x = y)
    let requests : List (HashDict.Request ℤ ℤ) := [.put 0 0, .tryRemove 0, .put 1 0, .tryRemove 1,
      .put 2 0, .tryRemove 2, .put 3 0, .tryRemove 3]
    (¬Runs.EndsWith HashDict.serve HashDict.HasEmpty d requests) ∧
      ∃ d', requests.foldlM (HashDict.serve 9) d = .ret d' ∧
        ∀ fuel, HashDict.tryGet fuel d' 0 = .timeout := by
  refine ⟨fun h => ?_, ⟨[⟨0, 0, .deleted⟩, ⟨1, 0, .deleted⟩, ⟨2, 0, .deleted⟩, ⟨3, 0, .deleted⟩], 0,
    id, fun x y => decide (x = y)⟩, rfl, fun fuel => ?_⟩
  · obtain ⟨e, he, hstate⟩ := ((((((((h.2 9 _ rfl).2.2 9 _ rfl).2.2 9 _ rfl).2.2 9 _ rfl).2.2 9 _
      rfl).2.2 9 _ rfl).2.2 9 _ rfl).2.2 9 _ rfl).1
    revert e
    decide
  · apply Exec.loop_diverges (fun idx => idx = 0 ∨ idx = 1 ∨ idx = 2 ∨ idx = 3) _ (.inl rfl)
    rintro _ (rfl | rfl | rfl | rfl)
    · exact ⟨1, rfl, by decide⟩
    · exact ⟨2, rfl, by decide⟩
    · exact ⟨3, rfl, by decide⟩
    · exact ⟨0, rfl, by decide⟩

end FcLang.Data
