import QemuOptsVisitor.Invariant

/-! One field visited outside a list. While a struct is open and no list is, the index holds
exactly the occurring names the caller has not consumed; a scalar decode of an indexed name reads
its last occurrence and, on success, drops the name with all its occurrences; a call that reports
an error leaves the visitor as it was. -/

namespace QemuOptsVisitor.Fields
open Glib Parsing Visitor Decoders BuildIndex Protocol Invariant

/-- `n` names an option of the source, or is `"id"` and the source has an id. -/
def Occurs (opts : QemuOpts) (n : String) : Prop :=
  (∃ o ∈ opts.head, o.name = n) ∨ (n = "id" ∧ opts.id.isSome)

instance (opts : QemuOpts) (n : String) : Decidable (Occurs opts n) :=
  inferInstanceAs (Decidable (_ ∨ _))

/-- A decode outside a list of the occurrence `o` of `n`. -/
def decodeLast {α : Type} (convert : Option String → Except String α) (o : QemuOpt)
    (ov : OptsVisitor) (n : String) : Decoded α × OptsVisitor :=
  match convert o.str with
  | .ok v => (.stored v, removeOpt ov n)
  | .error expected => (.failed (.invalidParameterValue n expected), ov)

theorem decodeLast_stored {α : Type} {convert : Option String → Except String α} {o : QemuOpt}
    {ov : OptsVisitor} {n : String} {v : α} :
    (∃ ov', decodeLast convert o ov n = (.stored v, ov')) ↔ convert o.str = .ok v := by
  unfold decodeLast
  cases convert o.str <;> simp

theorem typeScalar_decodeLast {α : Type} {convert : Option String → Except String α}
    {ov : OptsVisitor} {n : String} {o : QemuOpt} (hm : ov.listMode = .lmNone)
    (h : lookupScalar ov n = some (.ok (some o))) (ho : o.name = n) :
    typeScalar convert n ov = some (decodeLast convert o ov n) := by
  cases hc : convert o.str <;> simp [typeScalar, h, decodeLast, hc, processed, hm, ho]

theorem getLast?_eq_of_suffix {α : Type} {q l : List α} (hs : q <:+ l) (hq : q ≠ []) :
    q.getLast? = l.getLast? := by
  obtain ⟨r, rfl⟩ := hs
  rw [List.getLast?_append, List.getLast?_eq_getLast q hq]
  rfl

theorem keys_of_table {ov : OptsVisitor} {t : Table} (ht : ov.unprocessedOpts = some t) :
    ov.keys = t.map Prod.fst := by
  simp [OptsVisitor.keys, ht]

theorem removeOpt_queueOf {opts : QemuOpts} {ov : OptsVisitor} {t : Table} {n : String} {p : Nat}
    (ok : TableOk opts t ov.queues) (ht : ov.unprocessedOpts = some t)
    (hl : gHashTableLookup t n = some p) (m : String) :
    (removeOpt ov n).queueOf m = if m = n then none else ov.queueOf m := by
  rw [removeOpt_of_lookup ht hl]
  by_cases hm : m = n
  · subst hm
    simp only [OptsVisitor.queueOf, Option.some_bind, lookup_filter_self, Option.none_bind, if_true]
  · simp only [OptsVisitor.queueOf, ht, Option.some_bind, lookup_filter_ne hm, if_neg hm]
    cases hm' : gHashTableLookup t m with
    | none => rfl
    | some p' =>
      exact queue_write_ne _ _ (ok.addr_ne hl (lookup_mem hm') (by simpa using hm))

theorem removeOpt_keys {ov : OptsVisitor} {t : Table} {n : String} {p : Nat}
    (ht : ov.unprocessedOpts = some t) (hl : gHashTableLookup t n = some p) :
    (removeOpt ov n).keys = ov.keys.filter (· ≠ n) := by
  rw [removeOpt_of_lookup ht hl, keys_of_table ht]
  simp [OptsVisitor.keys, List.filter_map, Function.comp_def]

theorem leftover_of_tableOk {ov : OptsVisitor} {t : Table} (ht : ov.unprocessedOpts = some t)
    (ok : TableOk ov.optsRoot t ov.queues) :
    (t = [] ∧ leftover ov = some none) ∨
    ∃ k p rest, t = (k, p) :: rest ∧ leftover ov = some (some (.invalidParameter k)) := by
  rcases t with _ | ⟨⟨k, p⟩, rest⟩
  · exact .inl ⟨rfl, by simp [leftover, ht, gHashTableFind]⟩
  · obtain ⟨_ | ⟨o, q⟩, hq, hne, hs⟩ := ok.queue (k, p) (List.mem_cons_self _ _)
    · exact absurd rfl hne
    · refine .inr ⟨k, p, rest, rfl, ?_⟩
      simp [leftover, ht, gHashTableFind, ghrTrue, gQueuePeekHead, hq,
        name_of_mem_suffix hs (List.mem_cons_self _ _)]

section Reachable

variable {env : Env} {opts : QemuOpts} {ov : OptsVisitor} {g : Caller}

/-- A call that reports an error leaves the visitor as it was. -/
theorem reachable_error_keeps_state (h : Reachable env opts ov g) (n : String) :
    (∀ e ov', optsStartList n ov = some (some e, ov') → ov' = ov) ∧
    (∀ e ov', optsTypeStr n ov = some (.failed e, ov') → ov' = ov) ∧
    (∀ e ov', optsTypeBool n ov = some (.failed e, ov') → ov' = ov) ∧
    (∀ e ov', optsTypeInt env n ov = some (.failed e, ov') → ov' = ov) ∧
    (∀ e ov', optsTypeUint64 env n ov = some (.failed e, ov') → ov' = ov) ∧
    (∀ e ov', optsTypeSize env n ov = some (.failed e, ov') → ov' = ov) ∧
    (∀ b ov', optsStartOptional n ov = some (b, ov') → ov' = ov) := by
  refine ⟨fun e ov' hs => ?_, fun _ _ => typeScalar_failed, fun _ _ => typeScalar_failed,
    fun _ _ => typeInteger_failed, fun _ _ => typeInteger_failed, fun _ _ => typeScalar_failed,
    fun b ov' hs => ?_⟩
  · obtain ⟨hm, ⟨_, _, he, _⟩ | ⟨-, -, rfl⟩⟩ := optsStartList_some hs
    · cases he
    · rw [← (reachable_inv h).1.idle_repeated hm]
  · simp only [optsStartOptional] at hs
    split_ifs at hs
    exact (Prod.mk.inj (Option.some.inj hs)).2.symm

theorem reachable_error_keeps_state_sample :
    ∃ ov e ov', optsStartStruct (optsVisitorNew ⟨[⟨"a", some "5-3"⟩], none⟩) = some ((), ov) ∧
      optsTypeInt specEnv "a" ov = some (.failed e, ov') ∧ ov' = ov := by
  refine ⟨_, _, _, rfl, rfl, ?_⟩
  exact (reachable_error_keeps_state
    (.step (@Reachable.init specEnv ⟨[⟨"a", some "5-3"⟩], none⟩) (.startStruct rfl)) "a").2.2.2.1
    _ _ rfl

/-- Outside a list, a decode reads the name's last occurrence and drops the name. -/
theorem reachable_decode_last (h : Reachable env opts ov g) (hm : ov.listMode = .lmNone)
    (n : String) (hn : n ∈ ov.keys) :
    ∃ o, (occurrences opts n).getLast? = some o ∧
      optsTypeStr n ov = some (.stored (o.str.getD ""), removeOpt ov n) ∧
      optsTypeBool n ov = some (decodeLast parseBool o ov n) ∧
      (o.str = none → optsTypeBool n ov = some (.stored true, removeOpt ov n)) ∧
      optsTypeInt env n ov = some (decodeLast (wholeInteger (int64Kind env.rangeMax)) o ov n) ∧
      (∀ v, (∃ ov', optsTypeInt env n ov = some (.stored v, ov')) ↔
        strtollPrefix (o.str.getD "").toList = some (v, [])) ∧
      optsTypeUint64 env n ov = some (decodeLast (wholeInteger (uint64Kind env)) o ov n) ∧
      (∀ v, (∃ ov', optsTypeUint64 env n ov = some (.stored v, ov')) ↔
        parseUintPrefix env o.str = some (v, [])) ∧
      optsTypeSize env n ov = some (decodeLast (sizeValue env) o ov n) ∧
      (removeOpt ov n).listMode = .lmNone ∧
      (removeOpt ov n).keys = ov.keys.filter (· ≠ n) ∧
      ∀ m, (removeOpt ov n).queueOf m = if m = n then none else ov.queueOf m := by
  obtain ⟨hi, rfl⟩ := reachable_inv h
  obtain ⟨t, ht⟩ : ∃ t, ov.unprocessedOpts = some t := by
    cases hto : ov.unprocessedOpts with
    | none => simp [OptsVisitor.keys, hto] at hn
    | some t => exact ⟨t, rfl⟩
  rw [keys_of_table ht] at hn
  obtain ⟨p, hl⟩ := Option.isSome_iff_exists.1 (lookup_isSome.2 hn)
  obtain ⟨q, hq, hne, hs⟩ := (hi.table t ht).lookup hl
  have hlast := List.getLast?_eq_getLast q hne
  have ho := name_of_mem_suffix hs (List.mem_of_getLast?_eq_some hlast)
  have hsc := lookupScalar_found hm (by rw [ht]; exact hl) hq
  rw [hlast] at hsc
  have dec : ∀ {α : Type} (convert : Option String → Except String α),
      typeScalar convert n ov = some (decodeLast convert (q.getLast hne) ov n) :=
    fun _ => typeScalar_decodeLast hm hsc ho
  have hint : ∀ {V : Type} (k : IntegerKind V), k.interval ≠ .lmNone →
      typeInteger k n ov = some (decodeLast (wholeInteger k) (q.getLast hne) ov n) :=
    fun k hk => by rw [typeInteger_lmNone hm hk]; exact dec _
  refine ⟨_, (getLast?_eq_of_suffix hs hne).symm.trans hlast, dec _, dec _,
    fun hb => by rw [optsTypeBool, dec]; simp [decodeLast, parseBool, hb], hint _ nofun,
    fun v => by simp only [optsTypeInt, hint (int64Kind env.rangeMax) nofun, Option.some.injEq,
      decodeLast_stored, wholeInteger_ok, int64Kind_parse], hint _ nofun,
    fun v => by simp only [optsTypeUint64, hint (uint64Kind env) nofun, Option.some.injEq,
      decodeLast_stored, wholeInteger_ok, uint64Kind_parse], dec _,
    by rw [removeOpt_of_lookup ht hl]; exact hm, removeOpt_keys ht hl,
    removeOpt_queueOf (hi.table t ht) ht hl⟩

theorem reachable_decode_last_sample :
    ∃ ov, optsStartStruct (optsVisitorNew ⟨[⟨"a", some "1"⟩, ⟨"a", some "2"⟩], none⟩) =
        some ((), ov) ∧
      optsTypeStr "a" ov = some (.stored "2", removeOpt ov "a") := by
  refine ⟨_, rfl, ?_⟩
  obtain ⟨o, ho, hstr, -⟩ := reachable_decode_last
    (.step (@Reachable.init specEnv ⟨[⟨"a", some "1"⟩, ⟨"a", some "2"⟩], none⟩) (.startStruct rfl))
    (by decide) "a" (by decide)
  obtain rfl : o = ⟨"a", some "2"⟩ := Option.some.inj (ho.symm.trans rfl)
  exact hstr

end Reachable

end QemuOptsVisitor.Fields
