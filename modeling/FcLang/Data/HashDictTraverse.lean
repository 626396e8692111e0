import FcLang.Data.HashDictProbe

/-!
# Traversals of a hash_dict

A fold and the key and value slices visit the occupied buckets once, in order.
-/

namespace FcLang.Data.HashDict
open Probe Exec
variable {κ β : Type}

section Traversal
variable {hash : κ → ℤ} {eq : κ → κ → Bool} {d : HashDict κ β}

/-- The occupied buckets in bucket order. -/
def occupied (buckets : List (HdEntry κ β)) : List (HdEntry κ β) :=
  buckets.filter fun e => e.state = .occupied

theorem occupied_snoc (done : List (HdEntry κ β)) (e : HdEntry κ β) :
    occupied (done ++ [e]) = occupied done ++ if e.state = .occupied then [e] else [] := by
  by_cases h : e.state = .occupied <;> simp [occupied, h]

theorem lives_slots (d : HashDict κ β) :
    lives d.slots = (occupied d.buckets).map fun e => (e.key, e.value) := by
  rw [lives, slots, occupied, List.filterMap_map, ← List.filterMap_eq_map, List.filterMap_filter]
  congr 1
  funext e
  cases h : e.state <;> simp [HdEntry.slot, Slot.entry, h]

theorem fold_ret {γ : Type} (d : HashDict κ β) (init : γ) (f : γ → κ → β → γ) :
    fold d init f = .ret ((lives d.slots).foldl (fun acc kv => f acc kv.1 kv.2) init) := by
  have hrun : Within True
      (fun acc => acc = (occupied d.buckets).foldl (fun acc e => f acc e.key e.value) init)
      (fold d init f) := by
    refine Slice.forRange_get_within (fun done acc => acc =
      (occupied done).foldl (fun acc e => f acc e.key e.value) init)
      rfl fun done e rest acc _ hacc => ?_
    subst hacc
    rw [occupied_snoc]
    split_ifs with hocc
    · exact .ret (by simp)
    · exact .ret (by simp)
  obtain ⟨acc, hacc, rfl⟩ := hrun.total trivial
  rw [hacc, lives_slots, List.foldl_map]

/-- The state of `collect` after the buckets in `done`. -/
def Collected {γ : Type} [Inhabited γ] (n : ℕ) (f : HdEntry κ β → γ) (done : List (HdEntry κ β))
    (r : List γ × ℤ) : Prop :=
  r = ((occupied done).map f ++ List.replicate (n - (occupied done).length) default,
    ((occupied done).length : ℤ))

theorem Collected.step {γ : Type} [Inhabited γ] {n : ℕ} {f : HdEntry κ β → γ}
    {done : List (HdEntry κ β)} {r : List γ × ℤ} (h : Collected n f done r) (e : HdEntry κ β)
    (hn : (occupied (done ++ [e])).length ≤ n) :
    Within True (Collected n f (done ++ [e])) (collectBody f e r) := by
  subst h
  rw [collectBody]
  split_ifs with hocc
  · rw [occupied_snoc, if_pos hocc, List.length_append, List.length_singleton] at hn
    have hlt : (occupied done).length < ((occupied done).map f ++
        List.replicate (n - (occupied done).length) default).length := by
      simp only [List.length_append, List.length_map, List.length_replicate]
      omega
    obtain ⟨m, hm⟩ : ∃ m, n - (occupied done).length = m + 1 := ⟨_, (Nat.sub_add_cancel
      (by omega : 1 ≤ n - (occupied done).length)).symm⟩
    have hm' : n - ((occupied done).length + 1) = m := by omega
    rw [Slice.set_natCast hlt, ret_bind]
    refine .ret ?_
    rw [Collected, occupied_snoc, if_pos hocc, hm, List.set_append_right _ _ (by simp)]
    simp [hm', List.replicate_succ]
  · refine .ret ?_
    rw [Collected, occupied_snoc, if_neg hocc, List.append_nil]

theorem collect_ret {γ : Type} [Inhabited γ] (hd : Inv hash eq d) (f : HdEntry κ β → γ) :
    collect d f = .ret ((occupied d.buckets).map f) := by
  have hlen : d.len.toNat = (occupied d.buckets).length := by
    rw [hd.len, lives_slots, List.length_map, Int.toNat_natCast]
  have hstep : ∀ done e rest r, d.buckets = done ++ e :: rest →
      Collected (occupied d.buckets).length f done r →
      Within True (Collected (occupied d.buckets).length f (done ++ [e])) (collectBody f e r) := by
    intro done e rest r hsplit hr
    refine hr.step e ?_
    have hle : (occupied (done ++ [e])).length ≤ (occupied (done ++ [e] ++ rest)).length := by
      simp only [occupied, List.filter_append _ rest, List.length_append]
      omega
    rwa [hsplit, List.append_cons done e rest]
  have hrun : Within True (Collected (occupied d.buckets).length f d.buckets)
      (forRange 0 d.buckets.length (fun i r => Slice.get d.buckets i >>= fun e => collectBody f e r)
        (List.replicate (occupied d.buckets).length default, 0)) :=
    Slice.forRange_get_within (Collected (occupied d.buckets).length f) rfl hstep
  obtain ⟨r, hr, hI⟩ := hrun.total trivial
  rw [collect, hlen]
  refine (congrArg (· >>= fun r => ret r.1) hr).trans ?_
  rw [ret_bind, hI, Nat.sub_self, List.replicate_zero, List.append_nil]

end Traversal

end FcLang.Data.HashDict
