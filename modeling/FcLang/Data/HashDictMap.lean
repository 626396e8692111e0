import FcLang.Data.HashDictRehash
import FcLang.Data.HashDictTraverse
import FcLang.Lib.Runs

/-!
# hash_dict refines a finite map

The abstract state of a dictionary is a partial map on the classes of equal
keys. Each call that returns answers from this map and changes it at the class
of its key only, whatever rehashes and reuses of tombstones happen underneath.
-/

namespace FcLang.Data.HashDict
open Probe Exec
variable {κ β : Type}

inductive Op (κ β : Type) : Type 1 where
  | put (key : κ) (value : β)
  | tryGet (key : κ)
  | has (key : κ)
  | tryRemove (key : κ)
  | len
  | keys
  | values
  | fold {γ : Type} (init : γ) (f : γ → κ → β → γ)

abbrev Op.Out : Op κ β → Type
  | .put _ _ => Unit
  | .tryGet _ => Option β
  | .has _ => Bool
  | .tryRemove _ => Option β
  | .len => ℤ
  | .keys => List κ
  | .values => List β
  | .fold (γ := γ) _ _ => γ

section Concrete
variable [Inhabited κ] [Inhabited β]

def call (fuel : ℕ) (d : HashDict κ β) : (op : Op κ β) → Exec (op.Out × HashDict κ β)
  | .put key value => do
    let d ← put fuel d key value
    .ret ((), d)
  | .tryGet key => do
    let v ← tryGet fuel d key
    .ret (v, d)
  | .has key => do
    let b ← has fuel d key
    .ret (b, d)
  | .tryRemove key => tryRemove fuel d key
  | .len => .ret (d.len, d)
  | .keys => do
    let ks ← keys d
    .ret (ks, d)
  | .values => do
    let vs ← values d
    .ret (vs, d)
  | .fold init f => do
    let acc ← fold d init f
    .ret (acc, d)

end Concrete

section Abstract
variable (s : Setoid κ)

/-- The entries of a map, one for each class that has a value. -/
def Lists (m : Quotient s → Option β) (kvs : List (κ × β)) : Prop :=
  (kvs.map fun kv => Quotient.mk s kv.1).Nodup ∧
    ∀ c v, m c = some v ↔ ∃ k, (k, v) ∈ kvs ∧ Quotient.mk s k = c

def Answers (m : Quotient s → Option β) : (op : Op κ β) → op.Out → Prop
  | .put _ _, _ => True
  | .tryGet key, v => v = m (Quotient.mk s key)
  | .has key, b => b = (m (Quotient.mk s key)).isSome
  | .tryRemove key, v => v = m (Quotient.mk s key)
  | .len, n => {c | (m c).isSome}.Finite ∧ n = {c | (m c).isSome}.ncard
  | .keys, ks => (ks.map (Quotient.mk s)).Nodup ∧
      ∀ c, c ∈ ks.map (Quotient.mk s) ↔ (m c).isSome
  | .values, vs => ∃ kvs, Lists s m kvs ∧ vs = kvs.map Prod.snd
  | .fold init f, acc => ∃ kvs, Lists s m kvs ∧
      acc = kvs.foldl (fun acc kv => f acc kv.1 kv.2) init

open Classical in
noncomputable def after (m : Quotient s → Option β) : Op κ β → Quotient s → Option β
  | .put key value => Function.update m (Quotient.mk s key) (some value)
  | .tryRemove key => Function.update m (Quotient.mk s key) none
  | _ => m

/-- A call answered from the map, and what it makes of the map. -/
def MapStep (m : Quotient s → Option β) (op : Op κ β) (out : op.Out)
    (m' : Quotient s → Option β) : Prop :=
  Answers s m op out ∧ m' = after s m op

end Abstract

section Refinement
variable {hash : κ → ℤ} {eq : κ → κ → Bool}

/-- The classes of equal keys. -/
def keySetoid (hl : LawfulHash hash eq) : Setoid κ := ⟨Eqv eq, hl.equiv⟩

structure Represents (hl : LawfulHash hash eq) (m : Quotient (keySetoid hl) → Option β)
    (d : HashDict κ β) : Prop where
  inv : Inv hash eq d
  maps : ∀ k v, m (Quotient.mk _ k) = some v ↔ Maps (Eqv eq) d.slots k v

variable {hl : LawfulHash hash eq} {m : Quotient (keySetoid hl) → Option β} {d : HashDict κ β}

theorem mk_eq_iff {k k' : κ} :
    Quotient.mk (keySetoid hl) k = Quotient.mk (keySetoid hl) k' ↔ Eqv eq k k' := Quotient.eq

theorem Represents.lists (h : Represents hl m d) : Lists (keySetoid hl) m (lives d.slots) := by
  constructor
  · rw [List.Nodup, List.pairwise_map]
    exact h.inv.probed.pairwise.imp fun hne hq => hne (mk_eq_iff.mp hq)
  · intro c v
    induction c using Quotient.inductionOn with
    | h k =>
      rw [h.maps, maps_iff_lives]
      simp only [mk_eq_iff]

theorem Lists.isSome_iff {s : Setoid κ} {m : Quotient s → Option β} {kvs : List (κ × β)}
    (h : Lists s m kvs) (c : Quotient s) :
    (m c).isSome ↔ c ∈ kvs.map fun kv => Quotient.mk s kv.1 := by
  simp only [Option.isSome_iff_exists, h.2, List.mem_map, Prod.exists]
  exact exists_comm.trans (by simp only [exists_and_right])

theorem Lists.card {s : Setoid κ} {m : Quotient s → Option β} {kvs : List (κ × β)}
    (h : Lists s m kvs) :
    {c | (m c).isSome}.Finite ∧ kvs.length = {c | (m c).isSome}.ncard := by
  classical
  have hset : {c | (m c).isSome} =
      ((kvs.map fun kv => Quotient.mk s kv.1).toFinset : Set (Quotient s)) := by
    ext c
    rw [Set.mem_setOf_eq, h.isSome_iff, Finset.mem_coe, List.mem_toFinset]
  rw [hset]
  refine ⟨Finset.finite_toSet _, ?_⟩
  rw [Set.ncard_coe_finset, List.toFinset_card_of_nodup h.1, List.length_map]

theorem found_eq {k : κ} {r : Option β} (h : Represents hl m d)
    (hr : ∀ v, r = some v ↔ Maps (Eqv eq) d.slots k v) : r = m (Quotient.mk _ k) := by
  apply Option.ext
  intro v
  rw [hr, h.maps]

open Classical in
theorem maps_after_put {k : κ} {v : β} (h : Represents hl m d) {d' : HashDict κ β}
    (hd' : ∀ x w, Maps (Eqv eq) d'.slots x w ↔
      Eqv eq k x ∧ w = v ∨ ¬Eqv eq k x ∧ Maps (Eqv eq) d.slots x w) (x : κ) (w : β) :
    after (keySetoid hl) m (.put k v) (Quotient.mk _ x) = some w ↔ Maps (Eqv eq) d'.slots x w := by
  rw [hd', after, Function.update_apply]
  by_cases hx : Eqv eq k x
  · rw [if_pos (mk_eq_iff.mpr hx).symm]
    simp [hx, eq_comm]
  · rw [if_neg fun he => hx (mk_eq_iff.mp he.symm), h.maps]
    simp [hx]

open Classical in
theorem maps_after_remove {k : κ} (h : Represents hl m d) {d' : HashDict κ β}
    (hd' : ∀ x w, Maps (Eqv eq) d'.slots x w ↔ ¬Eqv eq k x ∧ Maps (Eqv eq) d.slots x w)
    (x : κ) (w : β) :
    after (keySetoid hl) m (.tryRemove k) (Quotient.mk _ x) = some w ↔
      Maps (Eqv eq) d'.slots x w := by
  rw [hd', after, Function.update_apply]
  by_cases hx : Eqv eq k x
  · rw [if_pos (mk_eq_iff.mpr hx).symm]
    simp [hx]
  · rw [if_neg fun he => hx (mk_eq_iff.mp he.symm), h.maps]
    simp [hx]

section Step
variable [Inhabited κ] [Inhabited β]

/-- One call that returns is one step of the map. -/
theorem Represents.step (h : Represents hl m d) {op : Op κ β} {fuel : ℕ} {out : op.Out}
    {d' : HashDict κ β} (hcall : call fuel d op = .ret (out, d')) :
    Answers (keySetoid hl) m op out ∧ Represents hl (after (keySetoid hl) m op) d' := by
  cases op with
  | put k v =>
    obtain ⟨d₁, hput, hret⟩ := bind_eq_ret.mp hcall
    cases hret
    obtain ⟨hinv, hmaps, -⟩ := (put_within hl h.inv k v fuel).post hput
    exact ⟨trivial, hinv, maps_after_put h hmaps⟩
  | tryGet k =>
    obtain ⟨r, hget, hret⟩ := bind_eq_ret.mp hcall
    cases hret
    exact ⟨found_eq h ((tryGet_within hl h.inv k fuel).post hget), h⟩
  | has k =>
    obtain ⟨b, hhas, hret⟩ := bind_eq_ret.mp hcall
    obtain ⟨r, hget, hb⟩ := bind_eq_ret.mp hhas
    cases hret
    cases hb
    exact ⟨congrArg Option.isSome (found_eq h ((tryGet_within hl h.inv k fuel).post hget)), h⟩
  | tryRemove k =>
    have hrem := (tryRemove_within hl h.inv k fuel).post hcall
    exact ⟨found_eq h hrem.found, hrem.inv, maps_after_remove h hrem.maps⟩
  | len =>
    cases hcall
    obtain ⟨hfin, hcard⟩ := h.lists.card
    exact ⟨⟨hfin, by rw [h.inv.len, hcard]⟩, h⟩
  | keys =>
    obtain ⟨ks, hkeys, hret⟩ := bind_eq_ret.mp hcall
    cases hret
    rw [keys, collect_ret h.inv] at hkeys
    cases hkeys
    have hlist := h.lists
    have hmap : ((occupied d.buckets).map HdEntry.key).map (Quotient.mk (keySetoid hl)) =
        (lives d.slots).map fun kv => Quotient.mk (keySetoid hl) kv.1 := by
      rw [lives_slots, List.map_map, List.map_map]
      rfl
    refine ⟨⟨?_, fun c => ?_⟩, h⟩
    · rw [hmap]
      exact hlist.1
    · rw [hmap, hlist.isSome_iff]
  | values =>
    obtain ⟨vs, hvalues, hret⟩ := bind_eq_ret.mp hcall
    cases hret
    rw [values, collect_ret h.inv] at hvalues
    cases hvalues
    exact ⟨⟨lives d.slots, h.lists, by rw [lives_slots, List.map_map]; rfl⟩, h⟩
  | fold init f =>
    obtain ⟨acc, hfold, hret⟩ := bind_eq_ret.mp hcall
    cases hret
    rw [fold_ret] at hfold
    cases hfold
    exact ⟨⟨lives d.slots, h.lists, rfl⟩, h⟩

/-- A new dictionary is the empty map. -/
theorem Made.represents (hd : Made hash eq d) : Represents hl (fun _ => none) d := by
  obtain ⟨n, hn, rfl⟩ := hd.eq_fresh
  refine ⟨(rehashing_fresh n).inv hn, fun k v => ?_⟩
  rw [maps_iff_lives, lives_fresh]
  simp

end Step
end Refinement

/-- Whatever calls return on a dictionary is what a finite map would have answered. -/
theorem refines_finite_map [Inhabited κ] [Inhabited β] {hash : κ → ℤ} {eq : κ → κ → Bool}
    (hl : LawfulHash hash eq) {d d' : HashDict κ β} (hd : Made hash eq d)
    {trace : List (Σ op : Op κ β, op.Out)} (hcalls : Runs.Calls call d trace d') :
    ∃ m, Runs.Behaves (MapStep (keySetoid hl)) (fun _ => none) trace m ∧ Represents hl m d' := by
  apply hcalls.behaves (R := fun d m => Represents hl m d) _ hd.represents
  intro d m op fuel out d' h hcall
  obtain ⟨hanswers, hnext⟩ := h.step hcall
  exact ⟨_, ⟨hanswers, rfl⟩, hnext⟩

/-- Keys that collide at their home bucket, with a removal and a reuse of its bucket. -/
def reuseTrace : List (Σ op : Op ℤ ℤ, op.Out) :=
  [⟨.put 3 10, ()⟩, ⟨.put 7 20, ()⟩, ⟨.tryRemove 3, some 10⟩, ⟨.put 11 30, ()⟩,
    ⟨.tryGet 7, some 20⟩, ⟨.has 3, false⟩, ⟨.keys, [11, 7]⟩, ⟨.len, 2⟩]

theorem refines_finite_map_reuse :
    ∃ m d', Runs.Behaves (MapStep (keySetoid (LawfulHash.of_decEq fun k : ℤ => -k)))
      (fun _ => none) reuseTrace m ∧ Represents (LawfulHash.of_decEq fun k : ℤ => -k) m d' := by
  have hcalls : Runs.Calls call
      (makeWithCapacity 4 (fun k : ℤ => -k) fun x y => decide (x = y)) reuseTrace _ :=
    .cons 9 rfl (.cons 9 rfl (.cons 9 rfl (.cons 9 rfl (.cons 9 rfl (.cons 9 rfl
      (.cons 9 rfl (.cons 9 rfl (.nil _))))))))
  obtain ⟨m, hm⟩ := refines_finite_map (LawfulHash.of_decEq fun k : ℤ => -k) (.inr ⟨4, rfl⟩) hcalls
  exact ⟨m, _, hm⟩

end FcLang.Data.HashDict
