import FcLang.Codegen.TypeOrderNames

/-!
# C accepts the order of the type definitions

A wrapper waits for what it holds, a struct for what its members hold, so each
declaration is accepted where it stands. A round that writes nothing leaves only
wrappers that wait for a struct, and in the end no struct is left.
-/

namespace FcLang.Codegen.TypeOrder
open Relation

/-- The struct or union is defined somewhere. -/
def Known (defs : List SuDef) (n : String) : Prop := ∃ d ∈ defs, d.name = n

section
variable {defs : List SuDef} {sets : TypeSets} {done : List String} {pre out : List CDecl}
  {t u : CType}

theorem TypeSets.Covers.self (h : sets.Covers (Known defs) t) : sets.Has (Known defs) t :=
  h t t.self_mem_parts

theorem isStrType_of_identEq (hu : isStrType u = true)
    (h : typeIdentEq false u (.slice t) = true) : isStrType (.slice t) = true := by
  cases u with
  | slice e =>
    cases e with
    | scalar n =>
      rw [typeIdentEq] at h
      cases t with
      | scalar m =>
        rw [typeIdentEq, beq_iff_eq] at h
        rwa [← h]
      | _ => simp [typeIdentEq] at h
    | _ => simp [isStrType] at hu
  | _ => simp [isStrType] at hu

theorem forward_mem {d : SuDef} (hd : d ∈ defs) (he : d.isExtern = false) :
    CDecl.forward d.name ∈ emitForwards defs sets := by
  simp only [emitForwards, List.mem_append, List.mem_map, List.mem_filter]
  exact .inl (.inl (.inl ⟨d, ⟨hd, by simp [he]⟩, rfl⟩))

theorem forwardWrapper_mem (h : u ∈ sets.options ∨ u ∈ sets.results ∨
    u ∈ sets.slices ∧ isStrType u = false) :
    CDecl.forwardWrapper u ∈ emitForwards defs sets := by
  simp only [emitForwards, List.mem_append, List.mem_map, List.mem_filter]
  rcases h with h | h | h
  · exact .inl (.inl (.inr ⟨u, h, rfl⟩))
  · exact .inl (.inr ⟨u, h, rfl⟩)
  · exact .inr ⟨u, ⟨h.1, by simp [h.2]⟩, rfl⟩

/-- After the forward declarations and some function types, a type is declared
whose own function types are among these. -/
theorem CType.declared_of (fns : List CType) (hpre : emitForwards defs sets ⊆ pre)
    (hfns : ∀ u ∈ fns, CDecl.fnTypedef u ∈ pre) : ∀ t : CType,
    ({ sets with fns := fns } : TypeSets).Covers (Known defs) t → t.Declared defs pre
  | .scalar _, _ | .anyPtr _, _ => by rw [Declared]; trivial
  | .pointer c t, h => by
    rw [Declared]
    exact declared_of fns hpre hfns t fun p hp => h p (by simp [parts, hp])
  | .slice t, h => by
    rw [Declared]
    obtain ⟨u, hu, hident⟩ := h.self
    by_cases hs : isStrType u = true
    · exact .inl (isStrType_of_identEq hs hident)
    · exact .inr ⟨u, hpre (forwardWrapper_mem (.inr (.inr ⟨hu, by simpa using hs⟩))), hident⟩
  | .option t, h => by
    rw [Declared]
    split
    · exact declared_of fns hpre hfns t fun p hp => h p (by simp [parts, hp])
    · rename_i hn
      obtain ⟨u, hu, hident⟩ := (show _ ∨ InSet sets.options _ from h.self).resolve_left hn
      exact ⟨u, hpre (forwardWrapper_mem (.inl hu)), hident⟩
  | .result t, h => by
    rw [Declared]
    obtain ⟨u, hu, hident⟩ := h.self
    exact ⟨u, hpre (forwardWrapper_mem (.inr (.inl hu))), hident⟩
  | .func ps r v, h => by
    rw [Declared]
    obtain ⟨u, hu, hident⟩ := h.self
    exact ⟨u, hfns u hu, hident⟩
  | .named n, h => by
    rw [Declared]
    obtain ⟨d, hd, rfl⟩ := h.self
    cases he : d.isExtern with
    | true => exact .inl ⟨d, hd, rfl, he⟩
    | false => exact .inr (hpre (forward_mem hd he))

/-- What comes before the option and result bodies is out. -/
structure Header (defs : List SuDef) (sets : TypeSets) (out : List CDecl) : Prop where
  forwards : emitForwards defs sets ⊆ out
  fns : ∀ u ∈ sets.fns, CDecl.fnTypedef u ∈ out
  slices : ∀ u ∈ sets.slices, isStrType u = false → CDecl.body u ∈ out

theorem Header.mono (h : Header defs sets pre) (hsub : pre ⊆ out) : Header defs sets out :=
  ⟨fun _ hd => hsub (h.forwards hd), fun u hu => hsub (h.fns u hu),
    fun u hu hs => hsub (h.slices u hu hs)⟩

theorem written_iff : written out t = true ↔
    ∃ u, CDecl.body u ∈ out ∧ typeIdentEq false u t = true := by
  simp only [written, List.any_eq_true]
  constructor
  · rintro ⟨d, hd, h⟩
    cases d with
    | body u => exact ⟨u, hd, h⟩
    | _ => simp at h
  · rintro ⟨u, hu, h⟩
    exact ⟨_, hu, h⟩

/-- A wrapper of the set that the look-up does not hold back has its body out. -/
theorem body_of_find {ts : List CType} (hin : InSet ts t)
    (hc : (match ts.find? (typeIdentEq false · t) with
      | some w => written out w
      | none => true) = true) : ∃ b, CDecl.body b ∈ out ∧ typeIdentEq false b t = true := by
  obtain ⟨u, hu, hident⟩ := hin
  split at hc
  · rename_i w hw
    obtain ⟨b, hb, hbw⟩ := written_iff.mp hc
    exact ⟨b, hb, typeIdentEq_trans hbw (by simpa using List.find?_some hw)⟩
  · rename_i hw
    exact absurd hident (by simpa using List.find?_eq_none.mp hw u hu)

/-- What `wrap_inner_complete` lets pass is complete. -/
theorem CType.complete_of_check (hh : Header defs sets out)
    (hdone : ∀ n ∈ done, IsExtern defs n ∨ ∃ ms, CDecl.suBody n ms ∈ out)
    (ht : sets.Covers (Known defs) t) (hc : wrapInnerComplete sets out done t = true) :
    t.Complete defs out := by
  have hdecl : t.Declared defs out := t.declared_of sets.fns hh.forwards hh.fns ht
  cases t with
  | scalar n => rw [Complete]; trivial
  | anyPtr c => rw [Complete]; trivial
  | pointer c t => rwa [Complete]
  | slice t =>
    rw [Complete]
    obtain ⟨u, hu, hident⟩ := ht.self
    by_cases hs : isStrType u = true
    · exact .inl (isStrType_of_identEq hs hident)
    · exact .inr ⟨u, hh.slices u hu (by simpa using hs), hident⟩
  | option t =>
    rw [Complete]
    split
    · rename_i hn
      rwa [Declared, if_pos hn] at hdecl
    · rename_i hn
      rw [wrapInnerComplete] at hc
      exact body_of_find ((show _ ∨ InSet sets.options _ from ht.self).resolve_left hn) hc
  | result t =>
    rw [Complete]
    rw [wrapInnerComplete] at hc
    exact body_of_find ht.self hc
  | func ps r v =>
    rw [Complete]
    obtain ⟨u, hu, hident⟩ := ht.self
    exact ⟨u, hh.fns u hu, hident⟩
  | named n =>
    rw [Complete]
    exact hdone n (by simpa [wrapInnerComplete] using hc)

theorem find_congr (ts : List CType) (h : typeIdentEq false t u = true) :
    ts.find? (typeIdentEq false · t) = ts.find? (typeIdentEq false · u) := by
  refine congrArg (List.find? · ts) (funext fun v => ?_)
  exact Bool.eq_iff_iff.mpr ⟨fun hv => typeIdentEq_trans hv h,
    fun hv => typeIdentEq_trans hv (typeIdentEq_symm h)⟩

theorem wrapInnerComplete_congr (h : typeIdentEq false t u = true) :
    wrapInnerComplete sets out done t = wrapInnerComplete sets out done u := by
  cases t with
  | option t =>
    cases u with
    | option u => rw [wrapInnerComplete, wrapInnerComplete, find_congr _ h]
    | _ => simp [typeIdentEq] at h
  | result t =>
    cases u with
    | result u => rw [wrapInnerComplete, wrapInnerComplete, find_congr _ h]
    | _ => simp [typeIdentEq] at h
  | named n =>
    cases u with
    | named m =>
      rw [typeIdentEq, beq_iff_eq] at h
      rw [h]
    | _ => simp [typeIdentEq] at h
  | _ => cases u <;> first | rfl | simp [typeIdentEq] at h

/-- No wrapper can be written. -/
def Saturated (sets : TypeSets) (done : List String) (out : List CDecl) : Prop :=
  ∀ t ∈ sets.options ++ sets.results,
    wrapInnerComplete sets out done t.inner = true → written out t = true

/-- When no wrapper can be written, a type is complete once its struct or union is. -/
theorem check_of_saturated (hs : sets.Closed (Known defs)) (hsat : Saturated sets done out) :
    ∀ t : CType, (∀ n, byvalName t = some n → n ∈ done) → wrapInnerComplete sets out done t = true
  | .named n, h => by simpa [wrapInnerComplete] using h n rfl
  | .option t, h => by
    rw [wrapInnerComplete]
    split
    · rename_i u hu
      have hmem := List.mem_of_find?_eq_some hu
      have hident : typeIdentEq false u (.option t) = true := by simpa using List.find?_some hu
      obtain ⟨i, rfl, -, -⟩ := hs.options u hmem
      rw [typeIdentEq] at hident
      refine hsat _ (List.mem_append_left _ hmem) ?_
      rw [CType.inner, wrapInnerComplete_congr hident]
      exact check_of_saturated hs hsat t h
    · rfl
  | .result t, h => by
    rw [wrapInnerComplete]
    split
    · rename_i u hu
      have hmem := List.mem_of_find?_eq_some hu
      have hident : typeIdentEq false u (.result t) = true := by simpa using List.find?_some hu
      obtain ⟨i, rfl, -⟩ := hs.results u hmem
      rw [typeIdentEq] at hident
      refine hsat _ (List.mem_append_right _ hmem) ?_
      rw [CType.inner, wrapInnerComplete_congr hident]
      exact check_of_saturated hs hsat t h
    · rfl
  | .scalar _, _ | .anyPtr _, _ | .pointer _ _, _ | .slice _, _ | .func _ _ _, _ => by
    rw [wrapInnerComplete] <;> simp

/-- What holds of the declarations at every time. -/
structure Emitted (defs : List SuDef) (sets : TypeSets) (done : List String)
    (out : List CDecl) : Prop where
  header : Header defs sets out
  accepted : ∀ pre d post, out = pre ++ d :: post → d.Accepted defs pre
  apart : out.Pairwise fun a b => a.same b = false
  complete : ∀ n ∈ done, IsExtern defs n ∨ ∃ ms, CDecl.suBody n ms ∈ out
  bodies : ∀ n ms, CDecl.suBody n ms ∈ out → n ∈ done ∧ ∃ d ∈ defs, d.name = n ∧ d.members = ms
  origin : ∀ a ∈ out, a.Origin defs sets

/-- A declaration of a new name that C accepts. -/
theorem accepted_concat {d : CDecl} (h : ∀ pre d post, out = pre ++ d :: post → d.Accepted defs pre)
    (hd : d.Accepted defs out) : ∀ pre c post, out ++ [d] = pre ++ c :: post →
      c.Accepted defs pre := by
  intro pre c post heq
  rcases split_concat heq with ⟨rfl, rfl⟩ | ⟨post', hout⟩
  · exact hd
  · exact h pre c post' hout

theorem origin_concat {d : CDecl} (h : ∀ a ∈ out, a.Origin defs sets) (hd : d.Origin defs sets) :
    ∀ a ∈ out ++ [d], a.Origin defs sets := by
  intro a ha
  rcases List.mem_append.mp ha with ha | ha
  · exact h a ha
  · rwa [List.mem_singleton.mp ha]

theorem apart_concat {d : CDecl} (h : out.Pairwise fun a b => a.same b = false)
    (hd : ∀ a ∈ out, a.same d = false) : (out ++ [d]).Pairwise fun a b => a.same b = false := by
  rw [List.pairwise_append]
  refine ⟨h, List.pairwise_singleton _ _, fun a ha b hb => ?_⟩
  rw [List.mem_singleton.mp hb]
  exact hd a ha

theorem emitWrapperBody_eq (sets : TypeSets) (done : List String) (out : List CDecl) (t : CType) :
    (emitWrapperBody sets done out t = out ∧
      (wrapInnerComplete sets out done t.inner = true → written out t = true)) ∨
    (emitWrapperBody sets done out t = out ++ [.body t] ∧ written out t = false ∧
      wrapInnerComplete sets out done t.inner = true) := by
  unfold emitWrapperBody
  split_ifs with hw hc
  · exact .inl ⟨rfl, fun _ => hw⟩
  · exact .inr ⟨rfl, by simpa using hw, hc⟩
  · exact .inl ⟨rfl, fun h => absurd h hc⟩

theorem Emitted.wrapperBody (hs : sets.Closed (Known defs)) (h : Emitted defs sets done out)
    (ht : t ∈ sets.options ++ sets.results) :
    Emitted defs sets done (emitWrapperBody sets done out t) := by
  rcases emitWrapperBody_eq sets done out t with ⟨heq, -⟩ | ⟨heq, hw, hc⟩
  · rwa [heq]
  · rw [heq]
    have haccepted : (CDecl.body t).Accepted defs out := by
      rcases List.mem_append.mp ht with ht | ht
      · obtain ⟨i, rfl, -, hi⟩ := hs.options t ht
        exact CType.complete_of_check h.header h.complete hi hc
      · obtain ⟨i, rfl, hi⟩ := hs.results t ht
        exact CType.complete_of_check h.header h.complete hi hc
    have horigin : (CDecl.body t).Origin defs sets := (List.mem_append.mp ht).imp_right .inl
    refine ⟨h.header.mono (List.subset_append_left _ _), accepted_concat h.accepted haccepted,
      apart_concat h.apart fun a ha => ?_, fun n hn => ?_, fun n ms hms => ?_,
      origin_concat h.origin horigin⟩
    · cases a with
      | body u =>
        rw [CDecl.same, Bool.eq_false_iff]
        exact fun hu => Bool.eq_false_iff.mp hw (written_iff.mpr ⟨u, ha, hu⟩)
      | _ => rfl
    · exact (h.complete n hn).imp id fun ⟨ms, hms⟩ => ⟨ms, List.mem_append_left _ hms⟩
    · exact h.bodies n ms (by simpa using hms)

theorem emitWrapperBody_extends (t : CType) : out <+: emitWrapperBody sets done out t := by
  rcases emitWrapperBody_eq sets done out t with ⟨heq, -⟩ | ⟨heq, -⟩
  · rw [heq]
  · rw [heq]
    exact List.prefix_append _ _

theorem foldl_extends (ts : List CType) : out <+: ts.foldl (emitWrapperBody sets done) out := by
  induction ts generalizing out with
  | nil => exact List.prefix_refl out
  | cons t ts ih => exact (emitWrapperBody_extends t).trans ih

theorem written_mono (h : written pre t = true) (hp : pre <+: out) : written out t = true := by
  obtain ⟨u, hu, hident⟩ := written_iff.mp h
  exact written_iff.mpr ⟨u, hp.subset hu, hident⟩

/-- A round that does not make the output longer has found nothing to write. -/
theorem round_idle {ts : List CType}
    (h : (ts.foldl (emitWrapperBody sets done) out).length = out.length) : ∀ t ∈ ts,
      wrapInnerComplete sets out done t.inner = true → written out t = true := by
  induction ts with
  | nil => simp
  | cons t ts ih =>
    rw [List.foldl_cons] at h
    rcases emitWrapperBody_eq sets done out t with ⟨heq, hidle⟩ | ⟨heq, -⟩
    · rw [heq] at h
      intro u hu
      rcases List.mem_cons.mp hu with rfl | hu
      · exact hidle
      · exact ih h u hu
    · have hle : (emitWrapperBody sets done out t).length ≤
          (ts.foldl (emitWrapperBody sets done) (emitWrapperBody sets done out t)).length :=
        (foldl_extends ts).length_le
      rw [h, heq, List.length_append, List.length_singleton] at hle
      omega

/-- A round that makes it longer has written a wrapper that was left. -/
theorem round_writes {ts : List CType}
    (h : (ts.foldl (emitWrapperBody sets done) out).length ≠ out.length) :
    ∃ t ∈ ts, written out t = false ∧
      written (ts.foldl (emitWrapperBody sets done) out) t = true := by
  induction ts with
  | nil => exact absurd rfl h
  | cons t ts ih =>
    rw [List.foldl_cons] at h ⊢
    rcases emitWrapperBody_eq sets done out t with ⟨heq, -⟩ | ⟨heq, hw, -⟩
    · rw [heq] at h ⊢
      obtain ⟨u, hu, hw⟩ := ih h
      exact ⟨u, List.mem_cons_of_mem t hu, hw⟩
    · refine ⟨t, List.mem_cons_self, hw, written_mono (written_iff.mpr ⟨t, ?_, typeIdentEq_refl t⟩)
        (foldl_extends ts)⟩
      rw [heq]
      exact List.mem_append_right _ (List.mem_singleton_self _)

theorem Emitted.foldl (hs : sets.Closed (Known defs)) {ts : List CType}
    (hts : ∀ t ∈ ts, t ∈ sets.options ++ sets.results) (h : Emitted defs sets done out) :
    Emitted defs sets done (ts.foldl (emitWrapperBody sets done) out) := by
  induction ts generalizing out with
  | nil => exact h
  | cons t ts ih =>
    exact ih (fun u hu => hts u (List.mem_cons_of_mem t hu))
      (h.wrapperBody hs (hts t List.mem_cons_self))

/-- The wrappers that are left. -/
def unwritten (sets : TypeSets) (out : List CDecl) : List CType :=
  (sets.options ++ sets.results).filter fun t => !written out t

theorem unwritten_lt (h : (wrapperRound sets done out).length ≠ out.length) :
    (unwritten sets (wrapperRound sets done out)).length < (unwritten sets out).length := by
  obtain ⟨t, ht, hno, hyes⟩ := round_writes h
  have hsub : unwritten sets (wrapperRound sets done out) =
      (unwritten sets out).filter fun t => !written (wrapperRound sets done out) t := by
    rw [unwritten, unwritten, List.filter_filter]
    refine List.filter_congr fun u _ => ?_
    cases hu : written out u with
    | false => simp
    | true =>
      have hmono : written (wrapperRound sets done out) u = true :=
        written_mono hu (foldl_extends _)
      simp [hmono]
  rw [hsub, List.length_filter_lt_length_iff_exists]
  refine ⟨t, List.mem_filter.mpr ⟨ht, by simp [hno]⟩, ?_⟩
  rw [wrapperRound, hyes]
  simp

/-- The loop ends, when no wrapper can be written. -/
theorem emitWrapperBodies_spec (hs : sets.Closed (Known defs)) (h : Emitted defs sets done out) :
    ∃ out', sets.emitWrapperBodies done out = some out' ∧ Emitted defs sets done out' ∧
      Saturated sets done out' := by
  induction hN : (unwritten sets out).length using Nat.strong_induction_on generalizing out with
  | _ N ih =>
    rw [TypeSets.emitWrapperBodies]
    split
    · rename_i hlen
      exact ⟨out, rfl, h, round_idle hlen⟩
    · rename_i hlen
      exact ih _ (hN ▸ unwritten_lt hlen) (h.foldl hs fun t ht => ht) rfl

/-- The definition comes when those that it holds by value are out. -/
theorem emitSuDef_spec (hs : sets.Closed (Known defs)) {d : SuDef} (hd : d ∈ defs)
    (hcovers : ∀ m ∈ d.members, sets.Covers (Known defs) m.collected) (hnew : d.name ∉ done)
    (hdeps : ∀ n ∈ sudefDeps d, n ∈ done) (h : Emitted defs sets done out)
    (hsat : Saturated sets done out) : ∃ out', emitSuDef sets (out, done) d =
      some (out', done ++ [d.name]) ∧ Emitted defs sets (done ++ [d.name]) out' ∧
        Saturated sets (done ++ [d.name]) out' := by
  have hnext : Emitted defs sets (done ++ [d.name])
      (if d.isExtern then out else out ++ [.suBody d.name d.members]) := by
    split
    · rename_i he
      refine ⟨h.header, h.accepted, h.apart, fun n hn => ?_,
        fun n ms hms => (h.bodies n ms hms).imp (List.mem_append_left _) id, h.origin⟩
      rcases List.mem_append.mp hn with hn | hn
      · exact h.complete n hn
      · exact .inl ⟨d, hd, (List.mem_singleton.mp hn).symm, he⟩
    · rename_i he
      have haccepted : (CDecl.suBody d.name d.members).Accepted defs out := by
        intro m hm
        have hm' : sets.Covers (Known defs) m.type := by
          cases m with
          | value t => exact hcovers _ hm
          | fixedArray t => exact fun p hp => hcovers _ hm p (by
              rw [Member.collected, CType.parts]
              exact List.mem_cons_of_mem _ hp)
        refine CType.complete_of_check h.header h.complete hm'
          (check_of_saturated hs hsat m.type fun n hn => hdeps n ?_)
        rw [sudefDeps, if_neg he]
        exact List.mem_filterMap.mpr ⟨m, hm, hn⟩
      refine ⟨h.header.mono (List.subset_append_left _ _), accepted_concat h.accepted haccepted,
        apart_concat h.apart fun a ha => ?_, fun n hn => ?_, fun n ms hms => ?_,
        origin_concat h.origin ⟨d, hd, by simpa using he, rfl⟩⟩
      · cases a with
        | suBody n ms =>
          rw [CDecl.same, beq_eq_false_iff_ne]
          rintro rfl
          exact hnew (h.bodies _ ms ha).1
        | _ => rfl
      · rcases List.mem_append.mp hn with hn | hn
        · exact (h.complete n hn).imp id fun ⟨ms, hms⟩ => ⟨ms, List.mem_append_left _ hms⟩
        · rw [List.mem_singleton.mp hn]
          exact .inr ⟨d.members, List.mem_append_right _ (List.mem_singleton_self _)⟩
      · rcases List.mem_append.mp hms with hms | hms
        · exact (h.bodies n ms hms).imp (List.mem_append_left _) id
        · cases List.mem_singleton.mp hms
          exact ⟨List.mem_append_right _ (List.mem_singleton_self _), d, hd, rfl, rfl⟩
  obtain ⟨out', hrun, hemitted, hsat'⟩ := emitWrapperBodies_spec hs hnext
  refine ⟨out', ?_, hemitted, hsat'⟩
  rw [emitSuDef]
  simp only [hrun, Option.bind_eq_bind, Option.bind_some]
  rfl

/-- One definition holds another by value. -/
def Holds (defs : List SuDef) (a b : String) : Prop := ∃ d ∈ defs, d.name = a ∧ b ∈ sudefDeps d

/-- What the passes before promise: C names are distinct, each struct or union
that occurs is defined, and none holds itself by value. -/
structure Promised (items : List Item) : Prop where
  names : ((sudefs items).map SuDef.name).Nodup
  defined : ∀ t ∈ items.flatMap Item.types, ∀ n, CType.named n ∈ t.parts → Known (sudefs items) n
  acyclic : ∀ n, ¬TransGen (Holds (sudefs items)) n n

/-- The name of the definition at an index. -/
def nameAt (defs : List SuDef) (i : ℕ) : Option String := defs[i]?.map SuDef.name

theorem mem_sudefSuccs {i j : ℕ} (h : j ∈ sudefSuccs defs i) : j < defs.length ∧
    ∃ d n, defs[i]? = some d ∧ n ∈ sudefDeps d ∧ nameAt defs j = some n := by
  unfold sudefSuccs at h
  split at h
  · cases h
  · rename_i d hd
    obtain ⟨n, hn, hfind⟩ := List.mem_filterMap.mp h
    refine ⟨List.mem_range.mp (List.mem_of_find?_eq_some hfind), d, n, hd, hn, ?_⟩
    have := List.find?_some hfind
    simp only [Bool.and_eq_true, beq_iff_eq] at this
    exact this.2

theorem sudefSuccs_of_dep {i j : ℕ} {d : SuDef} {n : String} (hd : defs[i]? = some d)
    (hn : n ∈ sudefDeps d) (hj : nameAt defs j = some n) (hji : j ≠ i) :
    ∃ k ∈ sudefSuccs defs i, nameAt defs k = some n := by
  have hlt : j < defs.length := by
    by_contra hge
    simp [nameAt, List.getElem?_eq_none (Nat.le_of_not_lt hge)] at hj
  have hsome : ((List.range defs.length).find? fun j =>
      j != i && (defs[j]?.map SuDef.name) == some n).isSome := by
    rw [List.find?_isSome]
    exact ⟨j, List.mem_range.mpr hlt, by simpa [nameAt, hji] using hj⟩
  obtain ⟨k, hk⟩ := Option.isSome_iff_exists.mp hsome
  refine ⟨k, ?_, ?_⟩
  · simp only [sudefSuccs, hd]
    exact List.mem_filterMap.mpr ⟨n, hn, hk⟩
  · have := List.find?_some hk
    simp only [Bool.and_eq_true, beq_iff_eq] at this
    exact this.2

theorem sudefSuccs_acyclic (h : ∀ n, ¬TransGen (Holds defs) n n) (i : ℕ) :
    ¬TransGen (fun i j => j ∈ sudefSuccs defs i) i i := by
  intro hcycle
  refine h ((nameAt defs i).getD "") (TransGen.lift (fun k => (nameAt defs k).getD "")
    (fun a b hab => ?_) _ _ hcycle)
  obtain ⟨-, d, n, hd, hn, hb⟩ := mem_sudefSuccs hab
  exact ⟨d, List.mem_of_getElem? hd, by simp [nameAt, hd], by simpa [hb] using hn⟩

/-- The names of the definitions at these indices. -/
def namesAt (defs : List SuDef) (is : List ℕ) : List String := is.filterMap (nameAt defs)

theorem index_of_name {i j : ℕ} {n : String} (hnames : (defs.map SuDef.name).Nodup)
    (hi : nameAt defs i = some n) (hj : nameAt defs j = some n) : i = j := by
  rw [nameAt, ← List.getElem?_map] at hi hj
  obtain ⟨hi', hi⟩ := List.getElem?_eq_some_iff.mp hi
  obtain ⟨hj', hj⟩ := List.getElem?_eq_some_iff.mp hj
  exact (hnames.getElem_inj_iff).mp (hi.trans hj.symm)

/-- No definition before the one at an index has its name. -/
theorem name_not_before (hnames : (defs.map SuDef.name).Nodup) {before is : List ℕ} {i : ℕ}
    {n : String} (horder : (before ++ i :: is).Nodup) (hi : nameAt defs i = some n) :
    n ∉ namesAt defs before := by
  intro hin
  obtain ⟨k, hk, hname⟩ := List.mem_filterMap.mp hin
  rw [index_of_name hnames hname hi] at hk
  exact (List.nodup_append.mp horder).2.2 i hk i List.mem_cons_self rfl

/-- What a definition holds by value is before it when its successors are. -/
theorem deps_before (hacyclic : ∀ n, ¬TransGen (Holds defs) n n) {before : List ℕ} {i : ℕ}
    {d : SuDef} (hd : defs[i]? = some d) (hdefined : ∀ n ∈ sudefDeps d, Known defs n)
    (hbefore : ∀ j ∈ sudefSuccs defs i, j ∈ before) :
    ∀ n ∈ sudefDeps d, n ∈ namesAt defs before := by
  intro n hn
  have hi : nameAt defs i = some d.name := by simp [nameAt, hd]
  obtain ⟨d', hd', rfl⟩ := hdefined n hn
  obtain ⟨j, hj, hget⟩ := List.mem_iff_getElem.mp hd'
  have hjname : nameAt defs j = some d'.name := by simp [nameAt, hj, hget]
  have hji : j ≠ i := by
    rintro rfl
    have hsame : d'.name = d.name := Option.some.inj (hjname.symm.trans hi)
    exact hacyclic d.name (TransGen.single ⟨d, List.mem_of_getElem? hd, rfl, hsame ▸ hn⟩)
  obtain ⟨k, hk, hname⟩ := sudefSuccs_of_dep hd hn hjname hji
  exact List.mem_filterMap.mpr ⟨k, hbefore k hk, hname⟩

/-- The run over the definitions, each after those that it holds by value. -/
theorem emitSuDefs_spec (hs : sets.Closed (Known defs)) (hnames : (defs.map SuDef.name).Nodup)
    (hacyclic : ∀ n, ¬TransGen (Holds defs) n n)
    (hdefined : ∀ d ∈ defs, ∀ n ∈ sudefDeps d, Known defs n)
    (hcovers : ∀ d ∈ defs, ∀ m ∈ d.members, sets.Covers (Known defs) m.collected)
    {order : List ℕ} (horder : order.Nodup)
    (hafter : ∀ pre i post, order = pre ++ i :: post → ∀ j ∈ sudefSuccs defs i, j ∈ pre)
    {is before : List ℕ} (hsplit : order = before ++ is)
    (h : Emitted defs sets (namesAt defs before) out)
    (hsat : Saturated sets (namesAt defs before) out) :
    ∃ out', emitSuDefs sets (is.filterMap fun i => defs[i]?) (out, namesAt defs before) =
      some (out', namesAt defs order) ∧ Emitted defs sets (namesAt defs order) out' ∧
        Saturated sets (namesAt defs order) out' := by
  induction is generalizing before out with
  | nil =>
    rw [List.append_nil] at hsplit
    exact ⟨out, by rw [hsplit]; rfl, hsplit ▸ h, hsplit ▸ hsat⟩
  | cons i is ih =>
    have hsplit' : order = (before ++ [i]) ++ is := by rw [hsplit]; simp
    have hadd : namesAt defs (before ++ [i]) = namesAt defs before ++ (nameAt defs i).toList := by
      cases hi : nameAt defs i <;> simp [namesAt, hi]
    cases hd : defs[i]? with
    | none =>
      have hi : nameAt defs i = none := by simp [nameAt, hd]
      rw [hi, Option.toList_none, List.append_nil] at hadd
      rw [List.filterMap_cons_none (f := fun i => defs[i]?) hd]
      rw [← hadd] at h hsat ⊢
      exact ih hsplit' h hsat
    | some d =>
      have hi : nameAt defs i = some d.name := by simp [nameAt, hd]
      have hmem : d ∈ defs := List.mem_of_getElem? hd
      rw [hi, Option.toList_some] at hadd
      rw [List.filterMap_cons_some (f := fun i => defs[i]?) hd, emitSuDefs]
      have hnew : d.name ∉ namesAt defs before := name_not_before hnames (hsplit ▸ horder) hi
      have hdeps : ∀ n ∈ sudefDeps d, n ∈ namesAt defs before :=
        deps_before hacyclic hd (hdefined d hmem) (hafter before i is hsplit)
      obtain ⟨out₁, hrun, hemitted, hsat₁⟩ :=
        emitSuDef_spec hs hmem (hcovers d hmem) hnew hdeps h hsat
      rw [← hadd] at hrun hemitted hsat₁
      obtain ⟨out', hrun', hemitted', hsat'⟩ := ih hsplit' hemitted hsat₁
      refine ⟨out', ?_, hemitted', hsat'⟩
      simp only [hrun, Option.bind_eq_bind, Option.bind_some]
      exact hrun'

theorem accepted_append {xs ys : List CDecl}
    (hxs : ∀ pre d post, xs = pre ++ d :: post → d.Accepted defs pre)
    (hys : ∀ pre d post, ys = pre ++ d :: post → d.Accepted defs (xs ++ pre)) :
    ∀ pre d post, xs ++ ys = pre ++ d :: post → d.Accepted defs pre := by
  induction ys using List.reverseRecOn with
  | nil => simpa using hxs
  | append_singleton ys y ih =>
    rw [← List.append_assoc]
    refine accepted_concat (ih fun pre d post heq => ?_) (hys ys y [] rfl)
    exact hys pre d (post ++ [y]) (by rw [heq, List.append_assoc, List.cons_append])

/-- What is written before the first option or result body. -/
def header (defs : List SuDef) (sets : TypeSets) : List CDecl :=
  emitForwards defs sets ++ sets.fns.map .fnTypedef ++
    (sets.slices.filter fun t => !isStrType t).map .body

theorem header_accepted (hs : sets.Closed (Known defs)) : ∀ pre d post,
    header defs sets = pre ++ d :: post → d.Accepted defs pre := by
  have hforward : ∀ pre d post, emitForwards defs sets = pre ++ d :: post →
      d.Accepted defs pre := by
    intro pre d post heq
    have hmem : d ∈ emitForwards defs sets := by
      rw [heq]
      exact List.mem_append_right _ List.mem_cons_self
    simp only [emitForwards, List.mem_append, List.mem_map] at hmem
    rcases hmem with ((⟨x, -, rfl⟩ | ⟨x, -, rfl⟩) | ⟨x, -, rfl⟩) | ⟨x, -, rfl⟩
    all_goals trivial
  refine accepted_append (accepted_append hforward fun pre d post heq => ?_)
    fun pre d post heq => ?_
  · obtain ⟨fns, rest, hfns, rfl, hrest⟩ := List.map_eq_append_iff.mp heq
    obtain ⟨f, fs, rfl, rfl, rfl⟩ := List.map_eq_cons_iff.mp hrest
    obtain ⟨ps, r, v, rfl, hcov⟩ := hs.fns fns f fs hfns
    exact fun t ht => t.declared_of fns (List.subset_append_left _ _)
      (fun u hu => List.mem_append_right _ (List.mem_map_of_mem hu)) (hcov t ht)
  · obtain ⟨slices, rest, hslices, rfl, hrest⟩ := List.map_eq_append_iff.mp heq
    obtain ⟨u, us, rfl, rfl, rfl⟩ := List.map_eq_cons_iff.mp hrest
    have hu : u ∈ sets.slices := List.mem_of_mem_filter (by
      rw [hslices]
      exact List.mem_append_right _ List.mem_cons_self)
    obtain ⟨e, rfl, hcov⟩ := hs.slices u hu
    refine e.declared_of sets.fns (fun c hc => ?_) (fun w hw => ?_) hcov
    · exact List.mem_append_left _ (List.mem_append_left _ hc)
    · exact List.mem_append_left _ (List.mem_append_right _ (List.mem_map_of_mem hw))

theorem Apart.map_wrapper {ts : List CType} (h : Apart ts) {f : CType → CDecl}
    (hf : ∀ t u, (f t).same (f u) = typeIdentEq false t u) :
    (ts.map f).Pairwise fun a b => a.same b = false := by
  rw [List.pairwise_map]
  exact h.imp fun hab => (hf _ _).trans hab

theorem header_apart (hs : sets.Closed (Known defs)) (hnames : (defs.map SuDef.name).Nodup) :
    (header defs sets).Pairwise fun a b => a.same b = false := by
  have hopt : ∀ t ∈ sets.options, ∀ u ∈ sets.results ++ sets.slices,
      typeIdentEq false t u = false := by
    intro t ht u hu
    obtain ⟨i, rfl, -⟩ := hs.options t ht
    rcases List.mem_append.mp hu with hu | hu
    · obtain ⟨j, rfl, -⟩ := hs.results u hu
      rfl
    · obtain ⟨j, rfl, -⟩ := hs.slices u hu
      rfl
  have hres : ∀ t ∈ sets.results, ∀ u ∈ sets.slices, typeIdentEq false t u = false := by
    intro t ht u hu
    obtain ⟨i, rfl, -⟩ := hs.results t ht
    obtain ⟨j, rfl, -⟩ := hs.slices u hu
    rfl
  have hsl : Apart (sets.slices.filter fun t => !isStrType t) := hs.apartSlices.filter _
  have hfw : ((defs.filter fun d => !d.isExtern).map fun d => CDecl.forward d.name).Pairwise
      fun a b => a.same b = false := by
    rw [List.pairwise_map]
    rw [List.nodup_iff_pairwise_ne, List.pairwise_map] at hnames
    exact (hnames.filter _).imp fun hab => by simpa [CDecl.same] using hab
  simp only [header, emitForwards, List.pairwise_append, List.mem_append, List.mem_map,
    List.mem_filter]
  refine ⟨⟨⟨⟨⟨hfw, hs.apartOptions.map_wrapper fun _ _ => rfl, ?_⟩,
    hs.apartResults.map_wrapper fun _ _ => rfl, ?_⟩, hsl.map_wrapper fun _ _ => rfl, ?_⟩,
    hs.apartFns.map_wrapper fun _ _ => rfl, ?_⟩, hsl.map_wrapper fun _ _ => rfl, ?_⟩
  · rintro _ ⟨d, -, rfl⟩ _ ⟨t, -, rfl⟩
    rfl
  · rintro _ (⟨d, -, rfl⟩ | ⟨u, hu, rfl⟩) _ ⟨t, ht, rfl⟩
    · rfl
    · exact hopt u hu t (List.mem_append_left _ ht)
  · rintro _ ((⟨d, -, rfl⟩ | ⟨u, hu, rfl⟩) | ⟨u, hu, rfl⟩) _ ⟨t, ⟨ht, -⟩, rfl⟩
    · rfl
    · exact hopt u hu t (List.mem_append_right _ ht)
    · exact hres u hu t ht
  · rintro _ (((⟨d, -, rfl⟩ | ⟨u, -, rfl⟩) | ⟨u, -, rfl⟩) | ⟨u, -, rfl⟩) _ ⟨t, -, rfl⟩
    all_goals rfl
  · rintro _ ((((⟨d, -, rfl⟩ | ⟨u, -, rfl⟩) | ⟨u, -, rfl⟩) | ⟨u, -, rfl⟩) | ⟨u, -, rfl⟩) _
      ⟨t, -, rfl⟩
    all_goals rfl

theorem header_origin : ∀ a ∈ header defs sets, a.Origin defs sets := by
  intro a ha
  simp only [header, emitForwards, List.mem_append, List.mem_map, List.mem_filter,
    Bool.not_eq_true'] at ha
  rcases ha with ((((⟨d, hd, rfl⟩ | ⟨t, ht, rfl⟩) | ⟨t, ht, rfl⟩) | ⟨t, ht, rfl⟩) |
    ⟨t, ht, rfl⟩) | ⟨t, ht, rfl⟩
  · exact ⟨d, hd.1, hd.2, rfl⟩
  · exact .inl ht
  · exact .inr (.inl ht)
  · exact .inr (.inr ht)
  · exact ht
  · exact .inr (.inr ht)

theorem header_emitted (hs : sets.Closed (Known defs)) (hnames : (defs.map SuDef.name).Nodup) :
    Emitted defs sets [] (header defs sets) where
  header := by
    refine ⟨fun d hd => ?_, fun u hu => ?_, fun u hu hstr => ?_⟩
    · exact List.mem_append_left _ (List.mem_append_left _ hd)
    · exact List.mem_append_left _ (List.mem_append_right _ (List.mem_map_of_mem hu))
    · exact List.mem_append_right _ (List.mem_map_of_mem
        (List.mem_filter.mpr ⟨hu, by simp [hstr]⟩))
  accepted := header_accepted hs
  apart := header_apart hs hnames
  complete := by simp
  bodies := by simp [header, emitForwards]
  origin := header_origin

end

theorem byvalName_mem_parts : ∀ {t : CType} {n : String}, byvalName t = some n → .named n ∈ t.parts
  | .named m, n, h => by
    cases h
    exact CType.self_mem_parts _
  | .option t, n, h | .result t, n, h => by
    rw [CType.parts]
    exact List.mem_cons_of_mem _ (byvalName_mem_parts (t := t) h)

theorem member_types_mem {items : List Item} {d : SuDef} (hd : d ∈ sudefs items) {m : Member}
    (hm : m ∈ d.members) : m.collected ∈ items.flatMap Item.types := by
  obtain ⟨i, hi, heq⟩ := List.mem_filterMap.mp hd
  refine List.mem_flatMap.mpr ⟨i, hi, ?_⟩
  cases i with
  | defines d' =>
    cases heq
    exact List.mem_map_of_mem hm
  | uses t => cases heq

theorem collected_type {d : SuDef} {items : List Item} (hd : d ∈ sudefs items) {n : String}
    (hn : n ∈ sudefDeps d) : ∃ t ∈ items.flatMap Item.types, CType.named n ∈ t.parts := by
  unfold sudefDeps at hn
  split at hn
  · cases hn
  · obtain ⟨m, hm, hname⟩ := List.mem_filterMap.mp hn
    refine ⟨m.collected, member_types_mem hd hm, ?_⟩
    have hpart : CType.named n ∈ m.type.parts := byvalName_mem_parts hname
    cases m with
    | value t => exact hpart
    | fixedArray t =>
      rw [Member.collected, CType.parts]
      exact List.mem_cons_of_mem _ hpart

theorem eq_of_name {defs : List SuDef} (hnames : (defs.map SuDef.name).Nodup) {d d' : SuDef}
    (hd : d ∈ defs) (hd' : d' ∈ defs) (h : d'.name = d.name) : d' = d :=
  List.inj_on_of_nodup_map hnames hd' hd h

section
variable {items : List Item} {out : List CDecl} {t : CType} {n : String}

/-- The declared types have their typedefs. -/
theorem typedef_of_declared {sets : TypeSets} (hh : Header (sudefs items) sets out)
    (hhas : ∀ p ∈ partsAll (items.flatMap Item.types), sets.Has (Known (sudefs items)) p)
    (ht : t ∈ declaredTypes items) :
    ∃ a ∈ out, a.typedefName = some (typeIdent false t) ∧ typeIdentEq false a.type t = true := by
  have hwrapper : ∀ u, CDecl.forwardWrapper u ∈ emitForwards (sudefs items) sets →
      typeIdentEq false u t = true → ∃ a ∈ out, a.typedefName = some (typeIdent false t) ∧
        typeIdentEq false a.type t = true := fun u hu hident =>
    ⟨_, hh.forwards hu, congrArg some (typeIdent_congr hident), hident⟩
  rcases List.mem_append.mp ht with ht | ht
  · obtain ⟨d, hd, rfl⟩ := List.mem_map.mp ht
    obtain ⟨hd, he⟩ := List.mem_filter.mp hd
    exact ⟨_, hh.forwards (forward_mem hd (by simpa using he)), rfl, typeIdentEq_refl _⟩
  · obtain ⟨ht, hw⟩ := List.mem_filter.mp ht
    have hin := hhas t ht
    cases t with
    | slice e =>
      obtain ⟨u, hu, hident⟩ := hin
      have hstr : isStrType u = false := by
        rw [Bool.eq_false_iff]
        intro hs
        simp [CType.isWrapper, isStrType_of_identEq hs hident] at hw
      exact hwrapper u (forwardWrapper_mem (.inr (.inr ⟨hu, hstr⟩))) hident
    | option i =>
      obtain ⟨u, hu, hident⟩ := hin.resolve_left fun hn => by simp [CType.isWrapper, hn] at hw
      exact hwrapper u (forwardWrapper_mem (.inl hu)) hident
    | result i =>
      obtain ⟨u, hu, hident⟩ := hin
      exact hwrapper u (forwardWrapper_mem (.inr (.inl hu))) hident
    | func ps r v =>
      obtain ⟨u, hu, hident⟩ := hin
      exact ⟨_, hh.fns u hu, congrArg some (typeIdent_congr hident), hident⟩
    | _ => cases hw

/-- The declared types that are structs in C have their definitions. -/
theorem definition_of_declared
    (hbodies : ∀ d ∈ sudefs items, d.isExtern = false → .suBody d.name d.members ∈ out)
    (hcomplete : ∀ p ∈ partsAll (items.flatMap Item.types), p.Complete (sudefs items) out)
    (ht : t ∈ declaredTypes items) (hn : t.tag = some n) :
    ∃ a ∈ out, a.definedTag = some n ∧ typeIdentEq false a.type t = true := by
  have hbody : (∃ u, CDecl.body u ∈ out ∧ typeIdentEq false u t = true) →
      ∃ a ∈ out, a.definedTag = some n ∧ typeIdentEq false a.type t = true := by
    rintro ⟨u, hu, hident⟩
    exact ⟨_, hu, (tag_congr hident).trans hn, hident⟩
  rcases List.mem_append.mp ht with ht | ht
  · obtain ⟨d, hd, rfl⟩ := List.mem_map.mp ht
    obtain ⟨hd, he⟩ := List.mem_filter.mp hd
    exact ⟨_, hbodies d hd (by simpa using he), hn, typeIdentEq_refl _⟩
  · obtain ⟨ht, hw⟩ := List.mem_filter.mp ht
    have hc := hcomplete t ht
    cases t with
    | slice e =>
      rw [CType.Complete] at hc
      exact hbody (hc.resolve_left fun hs => by simp [CType.isWrapper, hs] at hw)
    | option i =>
      rw [CType.Complete, if_neg (by simpa [CType.isWrapper] using hw)] at hc
      exact hbody hc
    | result i =>
      rw [CType.Complete] at hc
      exact hbody hc
    | func ps r v => cases hn
    | _ => cases hw

instance : Std.Symm fun a b : CDecl => ¬a.Clashes b where
  symm a b h := by
    rintro (⟨n, hb, ha⟩ | ⟨n, hb, ha⟩)
    · exact h (.inl ⟨n, ha, hb⟩)
    · exact h (.inr ⟨n, ha, hb⟩)

/-- In declarations without a clash, two of one name are for one type. -/
theorem oneType_of_noClash (h : out.Pairwise fun a b => ¬a.Clashes b) {u : CType} {a b : CDecl}
    (ha : a ∈ out) (hb : b ∈ out) (hc : a.Clashes b) (hat : typeIdentEq false a.type t = true)
    (hbu : typeIdentEq false b.type u = true) : typeIdentEq false t u = true := by
  by_cases hab : a = b
  · subst hab
    exact typeIdentEq_trans (typeIdentEq_symm hat) hbu
  · exact absurd hc (h.forall ha hb hab)

end

/-- `emit_types` ends on every program that the passes before accept. Each
declaration is accepted by C after those before it, every definition is written,
and in the end every type that occurs anywhere in the program is complete. No C
name is declared or defined twice, exactly when types that differ have C names
that differ. -/
theorem emitTypes_accepted (items : List Item) (h : Promised items) : ∃ out,
    emitTypes items = some out ∧
    (∀ pre d post, out = pre ++ d :: post → d.Accepted (sudefs items) pre) ∧
    ((out.Pairwise fun a b => ¬a.Clashes b) ↔ OneNameEach items) ∧
    (∀ d ∈ sudefs items, d.isExtern = false → .suBody d.name d.members ∈ out) ∧
    ∀ t ∈ items.flatMap Item.types, ∀ p ∈ t.parts, p.Complete (sudefs items) out := by
  obtain ⟨-, hs, hall⟩ := collectTypesInTypes_collected (items.flatMap Item.types)
    (closed_nil (Known (sudefs items))) fun n hn => by
      obtain ⟨t, ht, hn⟩ := mem_partsAll.mp hn
      exact h.defined t ht n hn
  obtain ⟨order, horder, hnodup, hevery, hafter⟩ := Toposort.toposort_spec
    (Finset.range (sudefs items).length) (List.range (sudefs items).length)
    (fun _ _ j hj => Finset.mem_range.mpr (mem_sudefSuccs hj).1) (sudefSuccs_acyclic h.acyclic)
    (fun i hi => Finset.mem_range.mpr (List.mem_range.mp hi))
  obtain ⟨out₁, hrun₁, hemitted₁, hsat₁⟩ := emitWrapperBodies_spec hs (header_emitted hs h.names)
  obtain ⟨out, hrun, hemitted, hsat⟩ := emitSuDefs_spec hs h.names h.acyclic
    (fun d hd n hn => by
      obtain ⟨t, ht, hpart⟩ := collected_type hd hn
      exact h.defined t ht n hpart)
    (fun d hd m hm => hall _ (member_types_mem hd hm)) hnodup hafter
    (show order = [] ++ order from rfl) hemitted₁ hsat₁
  have hnames : ∀ n, Known (sudefs items) n → n ∈ namesAt (sudefs items) order := by
    rintro n ⟨d, hd, rfl⟩
    obtain ⟨i, hi, hget⟩ := List.mem_iff_getElem.mp hd
    exact List.mem_filterMap.mpr ⟨i, hevery i (List.mem_range.mpr hi), by simp [nameAt, hi, hget]⟩
  have hbodies : ∀ d ∈ sudefs items, d.isExtern = false → .suBody d.name d.members ∈ out := by
    intro d hd he
    rcases hemitted.complete d.name (hnames _ ⟨d, hd, rfl⟩) with ⟨d', hd', hname, he'⟩ | ⟨ms, hms⟩
    · rw [eq_of_name h.names hd hd' hname, he] at he'
      cases he'
    · obtain ⟨-, d', hd', hname, hmembers⟩ := hemitted.bodies d.name ms hms
      rwa [← hmembers, eq_of_name h.names hd hd' hname] at hms
  have hcomplete : ∀ t ∈ items.flatMap Item.types, ∀ p ∈ t.parts,
      p.Complete (sudefs items) out := by
    intro t ht p hp
    refine CType.complete_of_check hemitted.header hemitted.complete
      (fun q hq => hall t ht q (t.parts_trans hp hq))
      (check_of_saturated hs hsat p fun n hn => hnames n (h.defined t ht n ?_))
    exact t.parts_trans hp (byvalName_mem_parts hn)
  refine ⟨out, ?_, hemitted.accepted, ?_, hbodies, hcomplete⟩
  · rw [emitTypes]
    simp only [sudefOrder, horder, Option.bind_eq_bind, Option.bind_some]
    rw [show (collectTypes items).emitWrapperBodies [] (emitForwards (sudefs items)
      (collectTypes items) ++ (collectTypes items).fns.map .fnTypedef ++
      ((collectTypes items).slices.filter fun t => !isStrType t).map .body) = some out₁ from hrun₁]
    simp only [Option.bind_some]
    rw [show emitSuDefs (collectTypes items) (order.filterMap fun i => (sudefs items)[i]?)
      (out₁, []) = some (out, namesAt (sudefs items) order) from hrun]
    rfl
  · constructor
    · rintro hapart t ht u hu (hname | ⟨n, htag, htag'⟩)
      · have hhas : ∀ p ∈ partsAll (items.flatMap Item.types),
            (collectTypes items).Has (Known (sudefs items)) p := by
          intro p hp
          obtain ⟨t, ht, hp⟩ := mem_partsAll.mp hp
          exact hall t ht p hp
        obtain ⟨a, ha, hat, hident⟩ := typedef_of_declared hemitted.header hhas ht
        obtain ⟨b, hb, hbu, hident'⟩ := typedef_of_declared hemitted.header hhas hu
        exact oneType_of_noClash hapart ha hb (.inl ⟨_, hat, hname ▸ hbu⟩) hident hident'
      · have hall' : ∀ p ∈ partsAll (items.flatMap Item.types),
            p.Complete (sudefs items) out := by
          intro p hp
          obtain ⟨t, ht, hp⟩ := mem_partsAll.mp hp
          exact hcomplete t ht p hp
        obtain ⟨a, ha, hat, hident⟩ := definition_of_declared hbodies hall' ht htag
        obtain ⟨b, hb, hbu, hident'⟩ := definition_of_declared hbodies hall' hu htag'
        exact oneType_of_noClash hapart ha hb (.inr ⟨n, hat, hbu⟩) hident hident'
    · intro hone
      refine hemitted.apart.imp_of_mem fun ha hb hsame hclash => ?_
      have horigin := hemitted.origin _ ha
      have horigin' := hemitted.origin _ hb
      have heq := hone _ (declared_of_origin hs horigin) _ (declared_of_origin hs horigin')
        (names_of_clash hclash)
      rw [same_of_clash hs horigin horigin' hclash heq] at hsame
      cases hsame

/-- A struct that holds an option of one defined after it. -/
def outerFirst : List Item :=
  [.defines ⟨"outer", false, [.value (.option (.named "inner"))]⟩,
    .defines ⟨"inner", false, [.value (.scalar "int32_t")]⟩]

theorem outerFirst_promised : Promised outerFirst where
  names := by simp [outerFirst, sudefs]
  defined t ht n hn := by
    simp only [outerFirst, List.flatMap_cons, List.flatMap_nil, Item.types, List.map_cons,
      List.map_nil, Member.collected, List.mem_append, List.mem_singleton, List.not_mem_nil,
      or_false] at ht
    rcases ht with rfl | rfl <;> simp [CType.parts] at hn
    subst hn
    exact ⟨⟨"inner", false, [.value (.scalar "int32_t")]⟩, by simp [outerFirst, sudefs], rfl⟩
  acyclic n h := by
    have hends : ∀ a b, Holds (sudefs outerFirst) a b → a = "outer" ∧ b = "inner" := by
      rintro a b ⟨d, hd, rfl, hb⟩
      simp only [outerFirst, sudefs, List.filterMap_cons, List.filterMap_nil, List.mem_cons,
        List.not_mem_nil, or_false] at hd
      rcases hd with rfl | rfl <;> simp [sudefDeps, byvalName, Member.type] at hb
      exact ⟨rfl, hb⟩
    obtain ⟨b, hfirst, -⟩ := TransGen.head'_iff.mp h
    obtain ⟨c, -, hlast⟩ := TransGen.tail'_iff.mp h
    exact absurd ((hends _ _ hfirst).1.symm.trans (hends _ _ hlast).2) (by decide)

theorem outerFirst_oneNameEach : OneNameEach outerFirst := by
  intro t ht u hu h
  have hmem : ∀ v ∈ declaredTypes outerFirst, v = .named "outer" ∨ v = .named "inner" ∨
      v = .option (.named "inner") := by
    intro v hv
    simp [declaredTypes, outerFirst, sudefs, Item.types, Member.collected, partsAll, CType.parts,
      CType.isWrapper, isNullSentinel] at hv
    tauto
  rcases hmem t ht with rfl | rfl | rfl <;> rcases hmem u hu with rfl | rfl | rfl <;>
    first
    | exact typeIdentEq_refl _
    | simp [CType.tag, typeIdent] at h

/-- Slices of pointers to a struct, and of a struct that is named like one. -/
def nodePtrs : List Item :=
  [.defines ⟨"node", false, [.value (.scalar "int32_t")]⟩,
    .defines ⟨"node_ptr", false, [.value (.scalar "int32_t")]⟩,
    .uses (.slice (.pointer false (.named "node"))), .uses (.slice (.named "node_ptr"))]

theorem nodePtrs_promised : Promised nodePtrs where
  names := by simp [nodePtrs, sudefs]
  defined t ht n hn := by
    simp only [nodePtrs, List.flatMap_cons, List.flatMap_nil, Item.types, List.map_cons,
      List.map_nil, Member.collected, List.mem_append, List.mem_singleton, List.not_mem_nil,
      or_false] at ht
    rcases ht with rfl | rfl | rfl | rfl <;> simp [CType.parts] at hn <;> subst hn <;>
      simp [Known, nodePtrs, sudefs]
  acyclic n h := by
    obtain ⟨b, ⟨d, hd, -, hb⟩, -⟩ := TransGen.head'_iff.mp h
    simp only [nodePtrs, sudefs, List.filterMap_cons, List.filterMap_nil, List.mem_cons,
      List.not_mem_nil, or_false] at hd
    rcases hd with rfl | rfl <;> simp [sudefDeps, byvalName, Member.type] at hb

theorem nodePtrs_oneName : ¬OneNameEach nodePtrs := by
  intro h
  have hslice : ∀ t, CType.slice t ∈ partsAll (nodePtrs.flatMap Item.types) →
      (CType.slice t).isWrapper = true → CType.slice t ∈ declaredTypes nodePtrs := fun t ht hw =>
    List.mem_append_right _ (List.mem_filter.mpr ⟨ht, hw⟩)
  have hsame := h _ (hslice (.pointer false (.named "node")) (by
      simp [nodePtrs, Item.types, partsAll, CType.parts, Member.collected]) rfl)
    _ (hslice (.named "node_ptr") (by
      simp [nodePtrs, Item.types, partsAll, CType.parts, Member.collected]) rfl)
    (.inl (by simp [typeIdent, isStrType]))
  simp [typeIdentEq] at hsame

theorem emitTypes_accepted_outerFirst :
    (∃ out, emitTypes outerFirst = some out ∧
      (∀ pre d post, out = pre ++ d :: post → d.Accepted (sudefs outerFirst) pre) ∧
      (out.Pairwise fun a b => ¬a.Clashes b) ∧
      .suBody "outer" [.value (.option (.named "inner"))] ∈ out) ∧
    ∃ out, emitTypes nodePtrs = some out ∧ ¬out.Pairwise fun a b => ¬a.Clashes b := by
  constructor
  · obtain ⟨out, hrun, haccepted, hnames, hbodies, -⟩ :=
      emitTypes_accepted outerFirst outerFirst_promised
    exact ⟨out, hrun, haccepted, hnames.mpr outerFirst_oneNameEach,
      hbodies ⟨"outer", false, [.value (.option (.named "inner"))]⟩
        (by simp [outerFirst, sudefs]) rfl⟩
  · obtain ⟨out, hrun, -, hnames, -⟩ := emitTypes_accepted nodePtrs nodePtrs_promised
    exact ⟨out, hrun, fun h => nodePtrs_oneName (hnames.mp h)⟩

end FcLang.Codegen.TypeOrder
