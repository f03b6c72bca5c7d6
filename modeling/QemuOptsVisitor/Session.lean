import QemuOptsVisitor.Commutation

/-! A whole struct decode: `opts_start_struct` on a fresh visitor, a schema's field visits on
distinct names, and the outermost `opts_end_struct`. Each field decodes from its own name's
occurrences alone, whatever the order of the schema; `opts_end_struct` reports no error exactly
when every occurring name was consumed by its field, and otherwise names one that was not. -/

namespace QemuOptsVisitor.Session
open Glib Parsing Visitor Decoders RangeCheck BuildIndex Protocol Invariant Fields Expansion
  ListTraversal Commutation

def runFields (env : Env) : List (FieldVisit × String) → VisitM (List Outcome)
  | [] => fun ov => some ([], ov)
  | (F, n) :: rest => fun ov =>
    (runVisit env F n ov).bind fun (x, ov) =>
      (runFields env rest ov).map fun (xs, ov) => (x :: xs, ov)

/-- Modelled from the spec: the generated visitor of a flat struct, absent here. -/
def visitStruct (env : Env) (schema : List (FieldVisit × String)) :
    VisitM (List Outcome × Option QError) := fun ov =>
  (optsStartStruct ov).bind fun ((), ov) =>
    (runFields env schema ov).bind fun (xs, ov) =>
      (optsEndStruct ov).map fun (e, ov) => ((xs, e), ov)

def occurrenceQueue (opts : QemuOpts) (n : String) : Option (List QemuOpt) :=
  if ∃ o ∈ opts.head ++ fakeId opts, o.name = n then some (occurrences opts n) else none

def fieldEffects (env : Env) (queue : String → Option (List QemuOpt)) :
    List (FieldVisit × String) → Option (List (Outcome × Edit))
  | [] => some []
  | (F, n) :: rest =>
    (visitEffect env F n (queue n)).bind fun xe => (fieldEffects env queue rest).map (xe :: ·)

def consumedNames : List (FieldVisit × String) → List Outcome → List String
  | (_, n) :: schema, x :: xs =>
    if x.consumes then n :: consumedNames schema xs else consumedNames schema xs
  | _, _ => []

section Effects

variable {env : Env} {ov : OptsVisitor}

theorem fieldEffects_congr {q q' : String → Option (List QemuOpt)}
    {schema : List (FieldVisit × String)} (h : ∀ m ∈ schema.map Prod.snd, q m = q' m) :
    fieldEffects env q schema = fieldEffects env q' schema := by
  induction schema with
  | nil => rfl
  | cons Fn schema ih =>
    simp only [List.map_cons, List.mem_cons, forall_eq_or_imp] at h
    simp only [fieldEffects, h.1, ih h.2]

theorem visitEffect_consumes {F : FieldVisit} {n : String} {q : Option (List QemuOpt)}
    {x : Outcome} {e : Edit} (h : visitEffect env F n q = some (x, e)) :
    x.consumes = true ↔ e = .drop := by
  have scalar : ∀ {α : Type} (convert : Option String → Except String α),
      (scalarEffect convert n q).1.isStored = true ↔ (scalarEffect convert n q).2 = .drop :=
    fun convert => by
      unfold scalarEffect
      split
      · simp [Decoded.isStored]
      · split
        · simp [Decoded.isStored]
        · split <;> simp [Decoded.isStored]
  have list : ∀ {V : Type} (k : IntegerKind V) (fuel : Nat) (r : List V × Option QError),
      listEffect k n fuel q = some (r, e) → (r.2.isNone = true ↔ e = .drop) := fun k fuel r hr => by
    cases q with
    | none =>
      simp only [listEffect, Option.some.injEq, Prod.mk.injEq] at hr
      obtain ⟨rfl, rfl⟩ := hr
      simp
    | some q =>
      simp only [listEffect] at hr
      split_ifs at hr
      simp only [Option.some.injEq, Prod.mk.injEq] at hr
      obtain ⟨rfl, rfl⟩ := hr
      cases hw : (walk (kindExpand k) q).2 <;> simp [hw]
  cases F <;> simp only [visitEffect, Option.some.injEq, Prod.mk.injEq, Option.map_eq_some'] at h
  case str | bool | int | uint64 | size =>
    obtain ⟨rfl, rfl⟩ := h
    exact scalar _
  case optional =>
    obtain ⟨rfl, rfl⟩ := h
    simp [Outcome.consumes]
  case intList | uint64List =>
    obtain ⟨⟨r, e'⟩, hr, rfl, rfl⟩ := h
    exact list _ _ _ hr

theorem applyEdit_cases (ov : OptsVisitor) (n : String) (e : Edit) :
    applyEdit ov n e = ov ∨ ∃ t p, ov.unprocessedOpts = some t ∧ gHashTableLookup t n = some p ∧
      applyEdit ov n e =
        { ov with unprocessedOpts := some (e.table n t), queues := e.heap p ov.queues } := by
  cases ht : ov.unprocessedOpts with
  | none => exact .inl (applyEdit_of_table_none ht e)
  | some t =>
    cases hl : gHashTableLookup t n with
    | none => exact .inl (applyEdit_of_lookup_none ht hl e)
    | some p => exact .inr ⟨t, p, rfl, hl, applyEdit_of_lookup ht hl e⟩

theorem depth_applyEdit (ov : OptsVisitor) (n : String) (e : Edit) :
    (applyEdit ov n e).depth = ov.depth := by
  rcases applyEdit_cases ov n e with h | ⟨t, p, -, -, h⟩ <;> rw [h]

theorem isSome_applyEdit (ov : OptsVisitor) (n : String) (e : Edit) :
    (applyEdit ov n e).unprocessedOpts.isSome = ov.unprocessedOpts.isSome := by
  rcases applyEdit_cases ov n e with h | ⟨t, p, ht, -, h⟩
  · rw [h]
  · simp [h, ht]

theorem mem_keys_applyEdit (ov : OptsVisitor) (n : String) (e : Edit) (k : String) :
    k ∈ (applyEdit ov n e).keys ↔ k ∈ ov.keys ∧ (e = .drop → k ≠ n) := by
  cases ht : ov.unprocessedOpts with
  | none => simp [applyEdit_of_table_none ht, OptsVisitor.keys, ht]
  | some t =>
    cases hl : gHashTableLookup t n with
    | none =>
      rw [applyEdit_of_lookup_none ht hl]
      have hn := lookup_eq_none.1 hl
      simp only [OptsVisitor.keys, ht, Option.getD_some]
      exact ⟨fun hk => ⟨hk, fun _ hkn => hn (hkn ▸ hk)⟩, And.left⟩
    | some p =>
      rw [applyEdit_of_lookup ht hl]
      cases e <;> simp only [OptsVisitor.keys, ht, Option.getD_some, Edit.table, mem_keys_filter] <;>
        simp

end Effects

section Run

variable {env : Env}

theorem runFields_effect (env : Env) (schema : List (FieldVisit × String)) :
    ∀ ov : OptsVisitor, (schema.map Prod.snd).Nodup → Idle ov →
      (runFields env schema ov).map (·.1) =
        (fieldEffects env ov.queueOf schema).map (·.map Prod.fst) ∧
      ∀ xs ov', runFields env schema ov = some (xs, ov') →
        Idle ov' ∧ ov'.depth = ov.depth ∧ ov'.unprocessedOpts.isSome = ov.unprocessedOpts.isSome ∧
        ∀ k, k ∈ ov'.keys ↔ k ∈ ov.keys ∧ k ∉ consumedNames schema xs := by
  induction schema with
  | nil =>
    intro ov _ _
    refine ⟨rfl, fun xs ov' h => ?_⟩
    simp only [runFields, Option.some.injEq, Prod.mk.injEq] at h
    obtain ⟨rfl, rfl⟩ := h
    simp_all [consumedNames]
  | cons Fn rest ih =>
    obtain ⟨F, n⟩ := Fn
    intro ov hnd hi
    simp only [List.map_cons, List.nodup_cons] at hnd
    simp only [runFields, runVisit_effect env hi F n, fieldEffects]
    cases hx : visitEffect env F n (ov.queueOf n) with
    | none => exact ⟨rfl, fun xs ov' h => by cases h⟩
    | some xe =>
      obtain ⟨x, e⟩ := xe
      set c := visitRange env F (ov.queueOf n) (ov.rangeNext, ov.rangeLimit)
      have hi2 := (idle_applyEdit hi (visitEffect_fits hx)).withRange c
      obtain ⟨hout, hrun⟩ := ih _ hnd.2 hi2
      have hq : fieldEffects env (withRange (applyEdit ov n e) c).queueOf rest =
          fieldEffects env ov.queueOf rest := fieldEffects_congr fun m hm => by
        rw [queueOf_withRange, queueOf_applyEdit_ne hi (by rintro rfl; exact hnd.1 hm)]
      refine ⟨?_, fun xs ov' h => ?_⟩
      · rw [hq] at hout
        simp only [Option.map_some', Option.some_bind]
        calc _ = ((runFields env rest _).map (·.1)).map (x :: ·) := by simp only [Option.map_map]; rfl
          _ = ((fieldEffects env ov.queueOf rest).map (·.map Prod.fst)).map (x :: ·) := by rw [hout]
          _ = _ := by simp only [Option.map_map]; rfl
      · simp only [Option.map_some', Option.some_bind, Option.map_eq_some'] at h
        obtain ⟨⟨xs', ov''⟩, hr, h⟩ := h
        simp only [Prod.mk.injEq] at h
        obtain ⟨rfl, rfl⟩ := h
        obtain ⟨hi', hd, hs, hk⟩ := hrun xs' ov'' hr
        have hdrop := visitEffect_consumes hx
        refine ⟨hi', hd.trans (depth_applyEdit ov n e), ?_, fun k => ?_⟩
        · exact hs.trans (isSome_applyEdit ov n e)
        · rw [hk, show k ∈ (withRange (applyEdit ov n e) c).keys ↔ k ∈ (applyEdit ov n e).keys
            from Iff.rfl, mem_keys_applyEdit]
          by_cases hc : x.consumes
          · rw [consumedNames, if_pos hc]
            simp only [hdrop.1 hc, true_implies, List.mem_cons, not_or, ne_eq, and_assoc]
          · rw [consumedNames, if_neg hc]
            simp only [show ¬e = .drop from mt hdrop.2 hc, false_implies, and_true]

theorem keys_applyEdit_drop (ov : OptsVisitor) (n : String) :
    (applyEdit ov n .drop).keys = ov.keys.filter (· ≠ n) := by
  cases ht : ov.unprocessedOpts with
  | none => simp [applyEdit_of_table_none ht, OptsVisitor.keys, ht]
  | some t =>
    cases hl : gHashTableLookup t n with
    | none =>
      rw [applyEdit_of_lookup_none ht hl]
      refine (List.filter_eq_self.2 fun k hk => ?_).symm
      have hkn : k ≠ n := fun hkn => lookup_eq_none.1 hl (by simpa [OptsVisitor.keys, ht, hkn] using hk)
      simpa using hkn
    | some p =>
      rw [applyEdit_of_lookup ht hl]
      simp [OptsVisitor.keys, ht, Edit.table, List.filter_map, Function.comp_def]

theorem keys_applyEdit_of_ne (ov : OptsVisitor) (n : String) {e : Edit} (he : e ≠ .drop) :
    (applyEdit ov n e).keys = ov.keys := by
  rcases applyEdit_cases ov n e with h | ⟨t, p, ht, -, h⟩
  · rw [h]
  · cases e <;> simp_all [OptsVisitor.keys, Edit.table]

theorem runFields_keys (env : Env) (schema : List (FieldVisit × String)) :
    ∀ ov xs ov', Idle ov → runFields env schema ov = some (xs, ov') →
      ov'.keys = ov.keys.filter (· ∉ consumedNames schema xs) := by
  induction schema with
  | nil =>
    intro ov xs ov' _ h
    simp only [runFields, Option.some.injEq, Prod.mk.injEq] at h
    obtain ⟨rfl, rfl⟩ := h
    simp [consumedNames]
  | cons Fn rest ih =>
    obtain ⟨F, n⟩ := Fn
    intro ov xs ov' hi h
    simp only [runFields, runVisit_effect env hi F n] at h
    cases hx : visitEffect env F n (ov.queueOf n) with
    | none => simp [hx] at h
    | some xe =>
      obtain ⟨x, e⟩ := xe
      simp only [hx, Option.map_some', Option.some_bind, Option.map_eq_some'] at h
      obtain ⟨⟨xs', ov''⟩, hr, h⟩ := h
      obtain ⟨rfl, rfl⟩ := Prod.mk.inj h
      have hi2 := (idle_applyEdit hi (visitEffect_fits hx)).withRange
        (visitRange env F (ov.queueOf n) (ov.rangeNext, ov.rangeLimit))
      rw [ih _ _ _ hi2 hr, show (withRange (applyEdit ov n e) _).keys = (applyEdit ov n e).keys
        from rfl]
      have hdrop := visitEffect_consumes hx
      by_cases hc : x.consumes
      · rw [consumedNames, if_pos hc, hdrop.1 hc, keys_applyEdit_drop, List.filter_filter]
        simp [Bool.and_comm]
      · rw [consumedNames, if_neg hc, keys_applyEdit_of_ne ov n (mt hdrop.2 hc)]

theorem leftover_keys {ov : OptsVisitor} (hi : Idle ov) {t : Table}
    (ht : ov.unprocessedOpts = some t) :
    leftover ov = some (ov.keys.head?.map .invalidParameter) := by
  rcases leftover_of_tableOk ht (hi.table t ht) with ⟨rfl, he⟩ | ⟨k, p, rest, rfl, he⟩ <;>
    simp [he, OptsVisitor.keys, ht]

end Run

theorem optsStartStruct_reset {ov : OptsVisitor} (hd : ov.depth = 0) (hm : ov.listMode = .lmNone)
    (hr : ov.repeatedOpts = none) (hid : ∀ o ∈ ov.optsRoot.head, o.name ≠ "id") :
    ∃ ov1, optsStartStruct ov = some ((), ov1) ∧ Idle ov1 ∧ ov1.depth = 1 ∧
      ov1.unprocessedOpts.isSome ∧ (∀ n, ov1.queueOf n = occurrenceQueue ov.optsRoot n) ∧
      ov1.keys = firstNames [] (ov.optsRoot.head ++ fakeId ov.optsRoot) := by
  obtain ⟨t, h, fake, hs, gr⟩ := optsStartStruct_outer ov hd hid
  refine ⟨_, hs, ⟨hm, hr, fun t' ht' => ?_⟩, rfl, rfl, fun n => grouped_lookup gr n,
    optsStartStruct_keys hd hs⟩
  cases ht'
  exact tableOk_of_grouped gr

/-- A struct decode's outcome from the options alone, field by field. -/
def structResult (env : Env) (opts : QemuOpts) (schema : List (FieldVisit × String)) :
    Option (List Outcome × Option QError) :=
  (fieldEffects env (occurrenceQueue opts) schema).map fun xes =>
    (xes.map Prod.fst, ((firstNames [] (opts.head ++ fakeId opts)).filter
      (· ∉ consumedNames schema (xes.map Prod.fst))).head?.map .invalidParameter)

theorem visitStruct_reset (env : Env) {ov : OptsVisitor} (hd : ov.depth = 0)
    (hm : ov.listMode = .lmNone) (hr : ov.repeatedOpts = none)
    (hid : ∀ o ∈ ov.optsRoot.head, o.name ≠ "id") {schema : List (FieldVisit × String)}
    (hnd : (schema.map Prod.snd).Nodup) :
    (visitStruct env schema ov).map (·.1) = structResult env ov.optsRoot schema := by
  obtain ⟨ov1, hs, hi1, hd1, ht1, hq1, hk1⟩ := optsStartStruct_reset hd hm hr hid
  obtain ⟨hout, hrun⟩ := runFields_effect env schema ov1 hnd hi1
  rw [show ov1.queueOf = occurrenceQueue ov.optsRoot from funext hq1] at hout
  unfold structResult
  cases hrf : runFields env schema ov1 with
  | none =>
    rw [hrf, Option.map_none', eq_comm, Option.map_eq_none'] at hout
    simp [visitStruct, hs, hrf, hout]
  | some r =>
    obtain ⟨xs, ov2⟩ := r
    rw [hrf] at hout
    obtain ⟨xes, hfe, hxs⟩ := Option.map_eq_some'.1 hout.symm
    obtain ⟨hi2, hd2, hs2, -⟩ := hrun xs ov2 hrf
    obtain ⟨t2, ht2⟩ := Option.isSome_iff_exists.1 (hs2.trans ht1)
    simp [visitStruct, hs, hrf, optsEndStruct_of_leftover (hd2.trans hd1) (leftover_keys hi2 ht2),
      hfe, hxs, runFields_keys env schema ov1 xs ov2 hi1 hrf, hk1]

theorem optsStartStruct_fresh {opts : QemuOpts} (hid : ∀ o ∈ opts.head, o.name ≠ "id") :
    ∃ ov, optsStartStruct (optsVisitorNew opts) = some ((), ov) ∧ Idle ov ∧ ov.depth = 1 ∧
      ov.optsRoot = opts ∧ ov.unprocessedOpts.isSome ∧
      (∀ n, ov.queueOf n = occurrenceQueue opts n) ∧ ∀ k, k ∈ ov.keys ↔ Occurs opts k := by
  obtain ⟨t, h, fake, hs, gr⟩ := optsStartStruct_outer (optsVisitorNew opts) rfl hid
  refine ⟨_, hs, ⟨rfl, rfl, fun t' ht' => ?_⟩, rfl, rfl, rfl, fun n => ?_, fun k => ?_⟩
  · cases ht'
    exact tableOk_of_grouped gr
  · exact grouped_lookup gr n
  · simp only [OptsVisitor.keys, Option.getD_some, gr.mem_keys, Occurs]
    exact exists_mem_fakeId opts k

theorem optsEndStruct_outer {ov : OptsVisitor} (hi : Idle ov) (hd : ov.depth = 1)
    (ht : ov.unprocessedOpts.isSome) :
    ∃ e ov', optsEndStruct ov = some (e, ov') ∧ ov'.depth = 0 ∧ ov'.unprocessedOpts = none ∧
      (e = none ↔ ov.keys = []) ∧ ∀ m, e = some m → ∃ k, m = .invalidParameter k ∧ k ∈ ov.keys := by
  obtain ⟨t, ht⟩ := Option.isSome_iff_exists.1 ht
  have hend : ∀ e, leftover ov = some e → ∃ ov', optsEndStruct ov = some (e, ov') ∧
      ov'.depth = 0 ∧ ov'.unprocessedOpts = none :=
    fun e he => ⟨_, optsEndStruct_of_leftover hd he, rfl, rfl⟩
  rcases leftover_of_tableOk ht (hi.table t ht) with ⟨rfl, he⟩ | ⟨k, p, rest, rfl, he⟩
  · obtain ⟨ov', h, h0, hn⟩ := hend _ he
    exact ⟨_, ov', h, h0, hn, by simp [OptsVisitor.keys, ht], fun m hm => by cases hm⟩
  · obtain ⟨ov', h, h0, hn⟩ := hend _ he
    refine ⟨_, ov', h, h0, hn, by simp [OptsVisitor.keys, ht], fun m hm => ?_⟩
    cases hm
    exact ⟨k, rfl, by simp [OptsVisitor.keys, ht]⟩

/-- A fresh struct decode gives each field what its own name's occurrences give it. -/
theorem visitStruct_decodes (env : Env) {opts : QemuOpts} (hid : ∀ o ∈ opts.head, o.name ≠ "id")
    {schema : List (FieldVisit × String)} (hnd : (schema.map Prod.snd).Nodup) :
    (visitStruct env schema (optsVisitorNew opts)).map (fun r => r.1.1) =
      (fieldEffects env (occurrenceQueue opts) schema).map (·.map Prod.fst) ∧
    ∀ xs e ov', visitStruct env schema (optsVisitorNew opts) = some ((xs, e), ov') →
      ov'.depth = 0 ∧ ov'.unprocessedOpts = none ∧
      (e = none ↔ ∀ n, Occurs opts n → n ∈ consumedNames schema xs) ∧
      ∀ m, e = some m → ∃ k, m = .invalidParameter k ∧ Occurs opts k ∧ k ∉ consumedNames schema xs := by
  obtain ⟨ov1, hs, hi1, hd1, -, ht1, hq1, hk1⟩ := optsStartStruct_fresh hid
  obtain ⟨hout, hrun⟩ := runFields_effect env schema ov1 hnd hi1
  rw [show ov1.queueOf = occurrenceQueue opts from funext hq1] at hout
  have hend : ∀ xs ov2, runFields env schema ov1 = some (xs, ov2) →
      ∃ e ov', optsEndStruct ov2 = some (e, ov') ∧ ov'.depth = 0 ∧ ov'.unprocessedOpts = none ∧
        (e = none ↔ ∀ n, Occurs opts n → n ∈ consumedNames schema xs) ∧
        ∀ m, e = some m → ∃ k, m = .invalidParameter k ∧ Occurs opts k ∧
          k ∉ consumedNames schema xs := fun xs ov2 hr => by
    obtain ⟨hi2, hd2, ht2, hk2⟩ := hrun xs ov2 hr
    obtain ⟨e, ov', h, h0, hn, hnone, hsome⟩ :=
      optsEndStruct_outer hi2 (hd2.trans hd1) (ht2.trans ht1)
    refine ⟨e, ov', h, h0, hn, ?_, fun m hm => ?_⟩
    · rw [hnone, List.eq_nil_iff_forall_not_mem]
      simp only [hk2, hk1, not_and, not_not]
    · obtain ⟨k, rfl, hk⟩ := hsome m hm
      exact ⟨k, rfl, ((hk2 k).1 hk).1 |> (hk1 k).1, ((hk2 k).1 hk).2⟩
  refine ⟨?_, fun xs e ov' h => ?_⟩
  · rw [← hout]
    simp only [visitStruct, hs, Option.some_bind]
    cases hr : runFields env schema ov1 with
    | none => rfl
    | some r =>
      obtain ⟨e, ov', h, -⟩ := hend r.1 r.2 hr
      simp [h]
  · simp only [visitStruct, hs, Option.some_bind, Option.bind_eq_some, Option.map_eq_some'] at h
    obtain ⟨⟨xs', ov2⟩, hr, ⟨e', ov''⟩, he, h⟩ := h
    simp only [Prod.mk.injEq] at h
    obtain ⟨⟨rfl, rfl⟩, rfl⟩ := h
    obtain ⟨e, ov', h', h0, hn, hiff, hsome⟩ := hend xs' ov2 hr
    rw [he] at h'
    obtain ⟨rfl, rfl⟩ := Prod.mk.inj (Option.some.inj h')
    exact ⟨h0, hn, hiff, hsome⟩

/-- The end-to-end scenario of the spec: a list of unsigned integers and a string. -/
theorem visitStruct_decodes_sample :
    ∃ ov', visitStruct specEnv [(.uint64List 3, "size"), (.str, "name")]
        (optsVisitorNew ⟨[⟨"size", some "10"⟩, ⟨"size", some "20"⟩, ⟨"name", some "x"⟩], none⟩) =
      some (([.uint64List ([10, 20], none), .str (.stored "x")], none), ov') := by
  obtain ⟨hout, hend⟩ := @visitStruct_decodes specEnv
    ⟨[⟨"size", some "10"⟩, ⟨"size", some "20"⟩, ⟨"name", some "x"⟩], none⟩ (by decide)
    [(.uint64List 3, "size"), (.str, "name")] (by decide)
  have hxs : (fieldEffects specEnv
      (occurrenceQueue ⟨[⟨"size", some "10"⟩, ⟨"size", some "20"⟩, ⟨"name", some "x"⟩], none⟩)
      [(.uint64List 3, "size"), (.str, "name")]).map (·.map Prod.fst) =
      some [.uint64List ([10, 20], none), .str (.stored "x")] := by decide
  rw [hxs] at hout
  cases hv : visitStruct specEnv [(.uint64List 3, "size"), (.str, "name")]
      (optsVisitorNew ⟨[⟨"size", some "10"⟩, ⟨"size", some "20"⟩, ⟨"name", some "x"⟩], none⟩) with
  | none => simp [hv] at hout
  | some r =>
    obtain ⟨⟨xs, e⟩, ov'⟩ := r
    simp only [hv, Option.map_some', Option.some.injEq] at hout
    subst hout
    obtain ⟨-, -, hiff, -⟩ := hend _ _ _ hv
    obtain rfl := hiff.2 fun n hn => by
      rcases hn with ⟨o, ho, rfl⟩ | ⟨-, h⟩
      · simp only [List.mem_cons, List.mem_singleton, List.not_mem_nil, or_false] at ho
        rcases ho with rfl | rfl | rfl <;> decide
      · cases h
    exact ⟨ov', rfl⟩

/-! Nested structs. A struct member of a struct is visited between its own `opts_start_struct`
and `opts_end_struct`, which inside an open struct only count the depth: the nested members read
the one flat index. -/

/-- A member of a struct's schema: a field, or a nested struct with members of its own. -/
inductive Member
  | field (F : FieldVisit) (n : String)
  | struct (members : List Member)

mutual
def memberFields : Member → List (FieldVisit × String)
  | .field F n => [(F, n)]
  | .struct ms => membersFields ms

def membersFields : List Member → List (FieldVisit × String)
  | [] => []
  | m :: ms => memberFields m ++ membersFields ms
end

mutual
def memberDepth : Member → Nat
  | .field _ _ => 0
  | .struct ms => membersDepth ms + 1

def membersDepth : List Member → Nat
  | [] => 0
  | m :: ms => max (memberDepth m) (membersDepth ms)
end

mutual
/-- Modelled from the spec: the generated visitor of one member, nested structs included. -/
def visitMember (env : Env) : Member → VisitM (List Outcome × List (Option QError))
  | .field F n => fun ov => (runVisit env F n ov).map fun (x, ov) => (([x], []), ov)
  | .struct ms => fun ov =>
    (optsStartStruct ov).bind fun ((), ov) =>
      (visitMembers env ms ov).bind fun ((xs, es), ov) =>
        (optsEndStruct ov).map fun (e, ov) => ((xs, es ++ [e]), ov)

def visitMembers (env : Env) : List Member → VisitM (List Outcome × List (Option QError))
  | [] => fun ov => some (([], []), ov)
  | m :: ms => fun ov =>
    (visitMember env m ov).bind fun ((xs, es), ov) =>
      (visitMembers env ms ov).map fun ((xs', es'), ov) => ((xs ++ xs', es ++ es'), ov)
end

section Nested

variable {env : Env}

theorem applyEdit_withDepth (ov : OptsVisitor) (n : String) (e : Edit) (k : BitVec 32) :
    applyEdit { ov with depth := k } n e = { applyEdit ov n e with depth := k } := by
  obtain ⟨root, depth, table, mode, rep, rn, rl, fake, qs⟩ := ov
  cases e with
  | keep => rfl
  | drop => cases table <;> rfl
  | cut left =>
    cases table with
    | none => rfl
    | some t => cases h : gHashTableLookup t n <;> simp [applyEdit, h]

theorem runVisit_withDepth {ov : OptsVisitor} (hi : Idle ov) (F : FieldVisit) (n : String)
    (k : BitVec 32) : runVisit env F n { ov with depth := k } =
      (runVisit env F n ov).map fun (x, ov') => (x, { ov' with depth := k }) := by
  rw [runVisit_effect env (⟨hi.mode, hi.repeated, hi.table⟩ : Idle { ov with depth := k }),
    runVisit_effect env hi, Option.map_map]
  congr 1
  funext xe
  simp only [Function.comp_apply, applyEdit_withDepth]
  rfl

theorem idle_runVisit {ov ov' : OptsVisitor} (hi : Idle ov) {F : FieldVisit} {n : String}
    {x : Outcome} (h : runVisit env F n ov = some (x, ov')) : Idle ov' ∧ ov'.depth = ov.depth := by
  rw [runVisit_effect env hi] at h
  obtain ⟨⟨x, e⟩, hx, hh⟩ := Option.map_eq_some'.1 h
  cases hh
  exact ⟨(idle_applyEdit hi (visitEffect_fits hx)).withRange _, depth_applyEdit ov n e⟩

theorem idle_runFields (schema : List (FieldVisit × String)) :
    ∀ {ov ov' : OptsVisitor} {xs : List Outcome}, Idle ov → runFields env schema ov = some (xs, ov') →
      Idle ov' ∧ ov'.depth = ov.depth := by
  induction schema with
  | nil => intro ov ov' xs hi h; cases h; exact ⟨hi, rfl⟩
  | cons Fn rest ih =>
    intro ov ov' xs hi h
    simp only [runFields, Option.bind_eq_some, Option.map_eq_some'] at h
    obtain ⟨⟨x, ov1⟩, h1, ⟨xs', ov2⟩, h2, hh⟩ := h
    cases hh
    obtain ⟨hi1, hd1⟩ := idle_runVisit hi h1
    obtain ⟨hi2, hd2⟩ := ih hi1 h2
    exact ⟨hi2, hd2.trans hd1⟩

theorem runFields_withDepth (schema : List (FieldVisit × String)) :
    ∀ {ov : OptsVisitor}, Idle ov → ∀ k, runFields env schema { ov with depth := k } =
      (runFields env schema ov).map fun (xs, ov') => (xs, { ov' with depth := k }) := by
  induction schema with
  | nil => intro ov _ k; rfl
  | cons Fn rest ih =>
    obtain ⟨F, n⟩ := Fn
    intro ov hi k
    simp only [runFields, runVisit_withDepth hi F n k]
    cases h1 : runVisit env F n ov with
    | none => rfl
    | some r =>
      obtain ⟨x, ov1⟩ := r
      simp only [Option.map_some', Option.some_bind, ih (idle_runVisit hi h1).1 k, Option.map_map]
      rfl

theorem runFields_append (s s' : List (FieldVisit × String)) (ov : OptsVisitor) :
    runFields env (s ++ s') ov = (runFields env s ov).bind fun (xs, ov) =>
      (runFields env s' ov).map fun (xs', ov) => (xs ++ xs', ov) := by
  induction s generalizing ov with
  | nil => simp [runFields]
  | cons Fn s ih =>
    obtain ⟨F, n⟩ := Fn
    simp only [List.cons_append, runFields]
    cases runVisit env F n ov with
    | none => rfl
    | some r =>
      simp only [Option.some_bind, List.append_eq, ih]
      cases runFields env s r.2 with
      | none => rfl
      | some r' => simp [Option.map_map, Function.comp_def]

/-- Inside an open struct, `visit` acts as the field visits `fields`, `depth` levels down. -/
def VisitsAs (env : Env) (visit : VisitM (List Outcome × List (Option QError)))
    (fields : List (FieldVisit × String)) (depth : Nat) : Prop :=
  ∃ es : List (Option QError), (∀ e ∈ es, e = none) ∧ ∀ ov : OptsVisitor, Idle ov →
    0 < ov.depth → ov.depth.toNat + depth < 2 ^ 32 →
    visit ov = (runFields env fields ov).map fun r => ((r.1, es), r.2)

theorem visitMembers_fields (ms : List Member) :
    VisitsAs env (visitMembers env ms) (membersFields ms) (membersDepth ms) := by
  refine @Member.rec_1
    (fun m => VisitsAs env (visitMember env m) (memberFields m) (memberDepth m))
    (fun ms => VisitsAs env (visitMembers env ms) (membersFields ms) (membersDepth ms))
    (fun F n => ⟨[], by simp, fun ov _ _ _ => ?_⟩) (fun ms ih => ?_)
    ⟨[], by simp, fun ov _ _ _ => rfl⟩ (fun m ms ihm ihms => ?_) ms
  · simp only [visitMember, memberFields, runFields, Option.map_map]
    cases runVisit env F n ov <;> rfl
  · obtain ⟨es, hes, hms⟩ := ih
    refine ⟨es ++ [none], fun e he => (List.mem_append.1 he).elim (hes e) List.mem_singleton.1,
      fun ov hi hd hb => ?_⟩
    simp only [memberDepth] at hb
    have hd1 : 0 < ov.depth + 1 := by bv_omega
    have hb1 : (ov.depth + 1).toNat + membersDepth ms < 2 ^ 32 := by bv_omega
    simp only [visitMember, memberFields]
    rw [optsStartStruct_nested hd, Option.some_bind,
      hms { ov with depth := ov.depth + 1 } ⟨hi.mode, hi.repeated, hi.table⟩ hd1 hb1,
      runFields_withDepth _ hi]
    cases hr : runFields env (membersFields ms) ov with
    | none => rfl
    | some r =>
      obtain ⟨xs, ov2⟩ := r
      have hd' : ov2.depth = ov.depth := (idle_runFields _ hi hr).2
      have he : optsEndStruct { ov2 with depth := ov.depth + 1 } = some (none, ov2) := by
        rw [optsEndStruct_of_ne_one (by bv_omega), BitVec.add_sub_cancel, ← hd']
      simp only [Option.map_some', Option.some_bind, he]
  · obtain ⟨es, hes, hm⟩ := ihm
    obtain ⟨es', hes', hms⟩ := ihms
    refine ⟨es ++ es', fun e he => (List.mem_append.1 he).elim (hes e) (hes' e),
      fun ov hi hd hb => ?_⟩
    simp only [membersDepth] at hb
    simp only [visitMembers, membersFields,
      hm ov hi hd (by have := le_max_left (memberDepth m) (membersDepth ms); omega),
      runFields_append, Option.bind_map]
    cases hr : runFields env (memberFields m) ov with
    | none => rfl
    | some r =>
      obtain ⟨hi1, hd1⟩ := idle_runFields _ hi hr
      simp [hms r.2 hi1 (hd1 ▸ hd)
        (by rw [hd1]; have := le_max_right (memberDepth m) (membersDepth ms); omega),
        Option.map_map, Function.comp_def]

/-- Nested structs are transparent: a schema tree visits as its flattened fields. -/
theorem reachable_nested_flat {opts : QemuOpts} {ov : OptsVisitor} {g : Caller}
    (h : Reachable env opts ov g) (hm : ov.listMode = .lmNone) (hd : 0 < ov.depth)
    (ms : List Member) (hb : ov.depth.toNat + membersDepth ms < 2 ^ 32) :
    (visitMembers env ms ov).map (fun r => (r.1.1, r.2)) = runFields env (membersFields ms) ov ∧
    ∀ r ov', visitMembers env ms ov = some (r, ov') → ∀ e ∈ r.2, e = none := by
  obtain ⟨es, hes, hv⟩ := @visitMembers_fields env ms
  rw [hv ov (idle_of_reachable h hm) hd hb, Option.map_map]
  refine ⟨by cases runFields env (membersFields ms) ov <;> rfl, fun r ov' hr => ?_⟩
  obtain ⟨_, -, hh⟩ := Option.map_eq_some'.1 hr
  cases hh
  exact hes

theorem reachable_nested_flat_sample :
    ∃ ov, optsStartStruct (optsVisitorNew ⟨[⟨"a", some "1"⟩, ⟨"b", some "x"⟩], none⟩) =
        some ((), ov) ∧
      (visitMembers specEnv [.field .int "a", .struct [.field .str "b"]] ov).map
          (fun r => (r.1.1, r.2)) =
        runFields specEnv [(.int, "a"), (.str, "b")] ov :=
  ⟨_, rfl, (reachable_nested_flat
    (.step (@Reachable.init specEnv ⟨[⟨"a", some "1"⟩, ⟨"b", some "x"⟩], none⟩) (.startStruct rfl))
    rfl (by decide) [.field .int "a", .struct [.field .str "b"]] (by decide)).1⟩

end Nested

end QemuOptsVisitor.Session
