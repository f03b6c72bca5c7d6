import QemuOptsVisitor.Session

/-! The visitor over its whole life: `opts_visitor_new`, a run of method calls, and
`opts_visitor_cleanup`. While fewer than 2^32 structs are open at once the index owns every live
queue (`NoLeak`), so the outermost `opts_end_struct` and `opts_visitor_cleanup` free all of them,
each once; past that, the `opts_start_struct` that finds `depth` wrapped to 0 builds a new index
over the live one and leaks its queues. Nothing a run leaves behind outside a struct (freed
queues, stale range counters) reaches the next struct decode, which yields what it yields on a
fresh visitor. -/

namespace QemuOptsVisitor.Lifecycle
open Glib Parsing Visitor Decoders BuildIndex Protocol Invariant Commutation Session

def Owned (t : Table) (h : Heap QemuOpt) : Prop := ∀ p, (h.queue p).isSome → p ∈ t.map Prod.snd

/-- The index owns every live queue; with no index, no queue is live. -/
def NoLeak (ov : OptsVisitor) : Prop := Owned (ov.unprocessedOpts.getD []) ov.queues

namespace Owned

variable {t : Table} {h : Heap QemuOpt}

theorem write (ho : Owned t h) {p : Nat} (hp : (h.queue p).isSome) (v : Option (List QemuOpt)) :
    Owned t (h.write p v) := fun p' hp' => by
  by_cases hpp : p = p'
  · exact hpp ▸ ho p hp
  · rw [queue_write_ne _ _ hpp] at hp'
    exact ho p' hp'

theorem alloc (ho : Owned t h) (k : String) :
    Owned (gHashTableInsert t k h.length) (h ++ [some []]) := fun p hp => by
  simp only [gHashTableInsert, List.map_append, List.map_cons, List.map_nil, List.mem_append,
    List.mem_singleton]
  rcases Nat.lt_trichotomy p h.length with hlt | rfl | hgt
  · rw [queue_append_old _ _ hlt] at hp
    exact .inl (ho p hp)
  · exact .inr rfl
  · simp [Heap.queue, List.getElem?_eq_none (show (h ++ [some []]).length ≤ p by simp; omega)] at hp

theorem insert (ho : Owned t h) {opt : QemuOpt} {t' : Table} {h' : Heap QemuOpt}
    (hi : optsVisitorInsert t h opt = some (t', h')) : Owned t' h' := by
  unfold optsVisitorInsert at hi
  split at hi
  · obtain ⟨_, hpush, hh⟩ := Option.map_eq_some'.1 hi
    cases hh
    obtain ⟨q, hq, rfl⟩ := Option.map_eq_some'.1 hpush
    exact ho.write (by simp [hq]) _
  · obtain ⟨_, hpush, hh⟩ := Option.map_eq_some'.1 hi
    cases hh
    obtain ⟨q, hq, rfl⟩ := Option.map_eq_some'.1 hpush
    exact (ho.alloc opt.name).write (by simp [hq]) _

theorem insertOpts {L : List QemuOpt} : ∀ {t t' : Table} {h h' : Heap QemuOpt}, Owned t h →
    QemuOptsVisitor.Visitor.insertOpts t h L = some (t', h') → Owned t' h' := by
  induction L with
  | nil => intro t t' h h' ho hi; cases hi; exact ho
  | cons o L ih =>
    intro t t' h h' ho hi
    simp only [QemuOptsVisitor.Visitor.insertOpts] at hi
    split_ifs at hi
    obtain ⟨⟨t1, h1⟩, h1i, hi⟩ := Option.bind_eq_some.1 hi
    exact ih (ho.insert h1i) hi

theorem free (ho : Owned t h) (hn : (t.map Prod.fst).Nodup) {n : String} {p : Nat}
    (hl : gHashTableLookup t n = some p) : Owned (t.filter (·.1 ≠ n)) (h.write p none) :=
  fun p' hp' => by
    by_cases hpp : p = p'
    · rw [← hpp, queue_write_none_self] at hp'
      cases hp'
    · rw [queue_write_ne _ _ hpp] at hp'
      obtain ⟨⟨k, p''⟩, he, rfl⟩ := List.mem_map.1 (ho p' hp')
      refine List.mem_map.2 ⟨(k, p''), List.mem_filter.2 ⟨he, ?_⟩, rfl⟩
      simp only [ne_eq, decide_eq_true_eq]
      rintro rfl
      exact hpp (Option.some.inj (hl.symm.trans (lookup_of_mem hn he)))

theorem destroy (ho : Owned t h) : Owned [] (gHashTableDestroy t h) := fun p hp => by
  have hfree : h.queue p = none ∨ ∃ k, (k, p) ∈ t := by
    cases hq : h.queue p with
    | none => exact .inl rfl
    | some q =>
      obtain ⟨⟨k, _⟩, he, rfl⟩ := List.mem_map.1 (ho p (by simp [hq]))
      exact .inr ⟨k, he⟩
  rw [queue_destroy_none t h hfree] at hp
  cases hp

end Owned

section Step

variable {env : Env} {ov ov' : OptsVisitor} {g g' : Caller}

theorem noLeak_removeOpt (hn : NoLeak ov)
    (hnd : ∀ t, ov.unprocessedOpts = some t → (t.map Prod.fst).Nodup) (name : String) :
    NoLeak (removeOpt ov name) := by
  cases ht : ov.unprocessedOpts with
  | none => simpa [removeOpt, ht] using hn
  | some t =>
    cases hl : gHashTableLookup t name with
    | none => rwa [removeOpt_of_lookup_none ht hl]
    | some p =>
      rw [removeOpt_of_lookup ht hl]
      simp only [NoLeak, ht, Option.getD_some] at hn
      exact hn.free (hnd t ht) hl

theorem noLeak_startStruct (hi : Inv env ov g) (hb : g.nesting < 2 ^ 32) (hn : NoLeak ov)
    (h : optsStartStruct ov = some ((), ov')) : NoLeak ov' := by
  rcases zero_or_pos ov.depth with hd | hd
  · have ht : ov.unprocessedOpts = none :=
      hi.closed ((ofNat_eq_zero hb).1 (by rw [← hi.depth]; exact hd))
    simp only [NoLeak, ht, Option.getD_none] at hn
    unfold optsStartStruct at h
    rw [if_neg (by simp [hd]), Option.bind_eq_some] at h
    obtain ⟨⟨t, h1⟩, hins, h⟩ := h
    have ho := hn.insertOpts hins
    dsimp only at h
    split at h
    · cases h
      exact ho
    · obtain ⟨⟨t2, h2⟩, hi2, hh⟩ := Option.map_eq_some'.1 h
      cases hh
      exact ho.insert hi2
  · cases (optsStartStruct_nested hd).symm.trans h
    exact hn

theorem noLeak_endStruct (hn : NoLeak ov) {e : Option QError}
    (h : optsEndStruct ov = some (e, ov')) : NoLeak ov' := by
  rcases optsEndStruct_some h with ⟨-, -, rfl⟩ | ⟨-, -, rfl⟩
  · exact hn
  · cases ht : ov.unprocessedOpts with
    | none => simpa [NoLeak, ht] using hn
    | some t =>
      simp only [NoLeak, ht, Option.getD_some] at hn
      simpa [NoLeak, ht] using hn.destroy

theorem noLeak_nextList (hi : Inv env ov g) (hn : NoLeak ov) {b : Bool}
    (h : optsNextList ov = some (b, ov')) : NoLeak ov' := by
  rcases optsNextList_some h with ⟨-, -, rfl⟩ | ⟨-, -, -, rfl⟩ | ⟨-, -, -, rfl⟩ | ⟨-, -, hp⟩
  · exact hn
  · exact hn
  · exact hn
  · obtain ⟨p, o, rest, -, hq, hpop⟩ := popRepeated_some hp
    have hw : ∀ v, NoLeak { ov with listMode := .lmInProgress, queues := ov.queues.write p v } :=
      fun v => Owned.write hn (by simp [hq]) v
    rcases hpop with ⟨-, -, rfl⟩ | ⟨-, -, rfl⟩
    · exact noLeak_removeOpt (hw _) (fun t ht => (hi.table t ht).keys_nodup) o.name
    · exact hw _

theorem noLeak_step (hi : Inv env ov g) (hb : g.nesting < 2 ^ 32) (hn : NoLeak ov)
    (h : Step env (ov, g) (ov', g')) : NoLeak ov' := by
  have hnd : ∀ t, ov.unprocessedOpts = some t → (t.map Prod.fst).Nodup :=
    fun t ht => (hi.table t ht).keys_nodup
  cases h with
  | startStruct h => exact noLeak_startStruct hi hb hn h
  | endStruct h _ _ => exact noLeak_endStruct hn h
  | startList name h =>
    obtain ⟨-, ⟨_, -, -, rfl⟩ | ⟨-, -, rfl⟩⟩ := optsStartList_some h <;> exact hn
  | nextList h => exact noLeak_nextList hi hn h
  | endList h => obtain ⟨-, rfl⟩ := optsEndList_some h; exact hn
  | typeStr name h | typeBool name h | typeSize name h =>
    rcases typeScalar_some h with ⟨rfl, -⟩ | ⟨-, -, -, rfl⟩
    · exact hn
    · exact noLeak_removeOpt hn hnd name
  | typeInt name h | typeUint64 name h =>
    rcases typeInteger_some h with ⟨-, rfl⟩ | ⟨rfl, -⟩ | ⟨-, -, -, rfl⟩ |
      ⟨-, _, _, _, _, -, -, -, -, -, rfl⟩
    · exact hn
    · exact hn
    · exact noLeak_removeOpt hn hnd name
    · exact hn
  | startOptional name h =>
    simp only [optsStartOptional] at h
    split_ifs at h
    cases h
    exact hn

end Step

section Reachable

variable {env : Env} {opts : QemuOpts} {ov : OptsVisitor} {g : Caller}

theorem reachable_noLeak (h : Reachable env opts ov g) (hb : g.peak < 2 ^ 32) : NoLeak ov := by
  induction h with
  | init => intro p hp; simp [optsVisitorNew, Heap.queue] at hp
  | step hr hs ih =>
    have hi := (reachable_inv hr).1
    have := step_peak hs
    exact noLeak_step hi (by have := hi.peak; omega) (ih (by omega)) hs

/-- Below 2^32 open structs, the live queues are exactly those the index holds. -/
theorem reachable_live_queues (h : Reachable env opts ov g) (hb : g.peak < 2 ^ 32) (p : Nat) :
    (ov.queues.queue p).isSome ↔ ∃ t, ov.unprocessedOpts = some t ∧ p ∈ t.map Prod.snd := by
  constructor
  · intro hp
    have hown := reachable_noLeak h hb p hp
    cases ht : ov.unprocessedOpts with
    | none => simp [ht] at hown
    | some t => exact ⟨t, rfl, by simpa [ht] using hown⟩
  · rintro ⟨t, ht, hp⟩
    obtain ⟨e, he, rfl⟩ := List.mem_map.1 hp
    obtain ⟨q, hq, -⟩ := ((reachable_inv h).1.table t ht).queue e he
    simp [hq]

theorem reachable_live_queues_sample :
    ∃ ov, optsStartStruct (optsVisitorNew ⟨[⟨"a", some "1"⟩, ⟨"b", some "2"⟩], none⟩) =
        some ((), ov) ∧
      ((ov.queues.queue 1).isSome ↔ ∃ t, ov.unprocessedOpts = some t ∧ 1 ∈ t.map Prod.snd) :=
  ⟨_, rfl, reachable_live_queues
    (.step (@Reachable.init specEnv ⟨[⟨"a", some "1"⟩, ⟨"b", some "2"⟩], none⟩)
      (.startStruct rfl)) (by decide) 1⟩

/-- `opts_visitor_cleanup` frees every queue, each exactly once. -/
theorem reachable_cleanup_frees_all (h : Reachable env opts ov g) (hb : g.peak < 2 ^ 32) :
    (∀ t, ov.unprocessedOpts = some t →
      (t.map Prod.snd).Nodup ∧ ∀ e ∈ t, (ov.queues.queue e.2).isSome) ∧
    ∀ p, (optsVisitorCleanup ov).queue p = none := by
  have hn := reachable_noLeak h hb
  refine ⟨fun t ht => ⟨((reachable_inv h).1.table t ht).addrs_nodup, fun e he => ?_⟩, fun p => ?_⟩
  · obtain ⟨q, hq, -⟩ := ((reachable_inv h).1.table t ht).queue e he
    simp [hq]
  · cases ht : ov.unprocessedOpts with
    | none =>
      simp only [NoLeak, ht, Option.getD_none] at hn
      simpa [optsVisitorCleanup, ht] using mt (hn p)
    | some t =>
      simp only [NoLeak, ht, Option.getD_some] at hn
      simpa [optsVisitorCleanup, ht] using mt (hn.destroy p)

theorem reachable_cleanup_frees_all_sample :
    ∃ ov, optsStartStruct (optsVisitorNew ⟨[⟨"a", some "1"⟩], none⟩) = some ((), ov) ∧
      ∀ p, (optsVisitorCleanup ov).queue p = none :=
  ⟨_, rfl, (reachable_cleanup_frees_all
    (.step (@Reachable.init specEnv ⟨[⟨"a", some "1"⟩], none⟩) (.startStruct rfl))
    (by decide)).2⟩

/-- With no struct open, a struct decode yields what it yields on a fresh visitor. -/
theorem reachable_visitStruct_repeatable (h : Reachable env opts ov g) (hg : g.nesting = 0)
    {schema : List (FieldVisit × String)} (hnd : (schema.map Prod.snd).Nodup) :
    (visitStruct env schema ov).map (·.1) =
      (visitStruct env schema (optsVisitorNew opts)).map (·.1) := by
  obtain ⟨hi, rfl⟩ := reachable_inv h
  have hd : ov.depth = 0 := by rw [hi.depth, hg]; rfl
  have hm : ov.listMode = .lmNone := by_contra fun hm => by
    simpa [hi.closed hg] using hi.list_table hm
  by_cases hid : ∀ o ∈ ov.optsRoot.head, o.name ≠ "id"
  · rw [visitStruct_reset env hd hm (hi.idle_repeated hm) hid hnd,
      @visitStruct_reset env (optsVisitorNew ov.optsRoot) rfl rfl rfl hid _ hnd]
    rfl
  · push_neg at hid
    have hnone : ∀ ov' : OptsVisitor, ov'.depth = 0 → ov'.optsRoot = ov.optsRoot →
        visitStruct env schema ov' = none := fun ov' hd' hr' => by
      simp [visitStruct, optsStartStruct, hd', hr', insertOpts_of_id hid]
    rw [hnone ov hd rfl, hnone (optsVisitorNew ov.optsRoot) rfl rfl]

/-- After an `a=1-2` list decode, a string decode of `a` is as on a fresh visitor. -/
theorem reachable_visitStruct_repeatable_sample :
    ∃ ov g, Reachable specEnv ⟨[⟨"a", some "1-2"⟩], none⟩ ov g ∧ ov.depth = 0 ∧
      ov.rangeNext = 2 ∧ ov.queues = [none] ∧
      (visitStruct specEnv [(.str, "a")] ov).map (·.1) =
        (visitStruct specEnv [(.str, "a")] (optsVisitorNew ⟨[⟨"a", some "1-2"⟩], none⟩)).map (·.1) := by
  have hr := Reachable.step (Reachable.step (Reachable.step (Reachable.step (Reachable.step
    (Reachable.step (Reachable.step (Reachable.step (Reachable.step
    (@Reachable.init specEnv ⟨[⟨"a", some "1-2"⟩], none⟩) (.startStruct rfl)) (.startList "a" rfl))
    (.nextList rfl)) (.typeInt "a" rfl)) (.nextList rfl)) (.typeInt "a" rfl)) (.nextList rfl))
    (.endList rfl)) (.endStruct rfl (by decide) (.inr rfl))
  exact ⟨_, _, hr, rfl, rfl, rfl, reachable_visitStruct_repeatable hr rfl (by decide)⟩

end Reachable

end QemuOptsVisitor.Lifecycle
