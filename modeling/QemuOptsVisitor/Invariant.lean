import QemuOptsVisitor.Protocol
import QemuOptsVisitor.RangeCheck
import QemuOptsVisitor.BuildIndex

/-! The invariants of reachable visitors. In every run (`Inv`) the 32-bit `depth` is the number
of structs the caller has open, modulo 2^32; the table and the heap agree (`TableOk`); an open
list that has not ended reads a live suffix of its name's occurrences, and one that ended an
empty or freed queue; an interval counts within the cap. While fewer than 2^32 structs are open
(`Counted`), `depth` is that number, so the table exists exactly inside a struct, holds the
occurring names the caller has not consumed, and an open list reads its name's queue there. -/

namespace QemuOptsVisitor.Invariant
open Glib Parsing Visitor Decoders RangeCheck BuildIndex Protocol

/-- Distinct names with distinct live, non-empty queues, each a suffix of its occurrences. -/
structure TableOk (opts : QemuOpts) (t : Table) (h : Heap QemuOpt) : Prop where
  keys_nodup : (t.map Prod.fst).Nodup
  addrs_nodup : (t.map Prod.snd).Nodup
  queue : ∀ e ∈ t, ∃ q, h.queue e.2 = some q ∧ q ≠ [] ∧ q <:+ occurrences opts e.1

theorem name_of_mem_suffix {opts : QemuOpts} {n : String} {q : List QemuOpt} {o : QemuOpt}
    (hq : q <:+ occurrences opts n) (ho : o ∈ q) : o.name = n := by
  simpa using (List.mem_filter.1 (hq.subset ho)).2

/-! `depth` against the caller's count of open structs. -/

theorem ofNat_succ (n : Nat) : BitVec.ofNat 32 n + 1 = BitVec.ofNat 32 (n + 1) := by
  simp [BitVec.ofNat_add]

theorem ofNat_pred {n : Nat} (hn : 0 < n) : BitVec.ofNat 32 n - 1 = BitVec.ofNat 32 (n - 1) := by
  obtain ⟨m, rfl⟩ := Nat.exists_eq_add_of_lt hn
  rw [Nat.zero_add, ← ofNat_succ, BitVec.add_sub_cancel, Nat.add_sub_cancel]

theorem ofNat_eq_zero {n : Nat} (hn : n < 2 ^ 32) : BitVec.ofNat 32 n = 0 ↔ n = 0 := by bv_omega

theorem ofNat_eq_one {n : Nat} (hn : n < 2 ^ 32) : BitVec.ofNat 32 n = 1 ↔ n = 1 := by bv_omega

theorem zero_or_pos (d : BitVec 32) : d = 0 ∨ 0 < d := by bv_omega

namespace TableOk
variable {opts : QemuOpts} {t : Table} {h : Heap QemuOpt} {n : String} {p : Nat}

theorem lookup (ok : TableOk opts t h) (hl : gHashTableLookup t n = some p) :
    ∃ q, h.queue p = some q ∧ q ≠ [] ∧ q <:+ occurrences opts n :=
  ok.queue _ (lookup_mem hl)

theorem addr_ne (ok : TableOk opts t h) (hl : gHashTableLookup t n = some p) {e : String × Nat}
    (he : e ∈ t) (hn : e.1 ≠ n) : p ≠ e.2 :=
  (addr_ne_of_mem ok.addrs_nodup he (lookup_mem hl) hn).symm

theorem owner (ok : TableOk opts t h) (hl : gHashTableLookup t n = some p) :
    ∀ e ∈ t, e.2 = p → e.1 = n := by
  intro e he hp
  exact congrArg Prod.fst (List.inj_on_of_nodup_map ok.addrs_nodup he (lookup_mem hl) hp)

theorem filter (ok : TableOk opts t h) (n : String) : TableOk opts (t.filter (·.1 ≠ n)) h where
  keys_nodup := ok.keys_nodup.sublist (List.Sublist.map _ (List.filter_sublist _))
  addrs_nodup := ok.addrs_nodup.sublist (List.Sublist.map _ (List.filter_sublist _))
  queue e he := ok.queue e (List.mem_filter.1 he).1

theorem write_out (ok : TableOk opts t h) (hp : ∀ e ∈ t, e.2 ≠ p) (v : Option (List QemuOpt)) :
    TableOk opts t (h.write p v) where
  keys_nodup := ok.keys_nodup
  addrs_nodup := ok.addrs_nodup
  queue e he := by
    rw [queue_write_ne _ _ (Ne.symm (hp e he))]
    exact ok.queue e he

theorem remove (ok : TableOk opts t h) (hl : gHashTableLookup t n = some p) :
    TableOk opts (t.filter (·.1 ≠ n)) (h.write p none) :=
  (ok.filter n).write_out (fun e he => by
    obtain ⟨he, hn⟩ := List.mem_filter.1 he
    exact (ok.addr_ne hl he (by simpa using hn)).symm) none

theorem write_owned (ok : TableOk opts t h) (hown : ∀ e ∈ t, e.2 = p → e.1 = n)
    (hp : p < h.length) {q : List QemuOpt} (hq : q ≠ []) (hs : q <:+ occurrences opts n) :
    TableOk opts t (h.write p (some q)) where
  keys_nodup := ok.keys_nodup
  addrs_nodup := ok.addrs_nodup
  queue e he := by
    by_cases hep : e.2 = p
    · rw [hep, queue_write_self _ _ _ hp, hown e he hep]
      exact ⟨q, rfl, hq, hs⟩
    · rw [queue_write_ne _ _ (Ne.symm hep)]
      exact ok.queue e he

end TableOk

/-- The queue an open list reads: live, non-empty, a suffix of `n`'s occurrences. -/
abbrev Reads (ov : OptsVisitor) (n : String) (p : Nat) : Prop :=
  (∃ q, ov.queues.queue p = some q ∧ q ≠ [] ∧ q <:+ occurrences ov.optsRoot n) ∧
  ∀ t, ov.unprocessedOpts = some t → ∀ e ∈ t, e.2 = p → e.1 = n

/-- The queue of a list whose `opts_next_list` returned NULL: empty or freed, and unindexed. -/
abbrev Spent (ov : OptsVisitor) (p : Nat) : Prop :=
  (ov.queues.queue p).getD [] = [] ∧ p < ov.queues.length ∧
  ∀ t, ov.unprocessedOpts = some t → ∀ e ∈ t, e.2 ≠ p

structure Inv (env : Env) (ov : OptsVisitor) (g : Caller) : Prop where
  depth : ov.depth = BitVec.ofNat 32 g.nesting
  peak : g.nesting ≤ g.peak
  closed : g.nesting = 0 → ov.unprocessedOpts = none
  list_table : ov.listMode ≠ .lmNone → ov.unprocessedOpts.isSome
  table : ∀ t, ov.unprocessedOpts = some t → TableOk ov.optsRoot t ov.queues
  idle : ov.listMode = .lmNone ↔ g.active = none
  idle_repeated : ov.listMode = .lmNone → ov.repeatedOpts = none
  live : ∀ n, g.active = some (n, false) → ∃ p, ov.repeatedOpts = some p ∧ Reads ov n p
  ended : ∀ n, g.active = some (n, true) → ov.listMode = .lmInProgress ∧
    ∃ p, ov.repeatedOpts = some p ∧ Spent ov p
  bounded : intervalBounded env.rangeMax ov.listMode ov.rangeNext ov.rangeLimit

variable {env : Env} {ov ov' : OptsVisitor} {g : Caller}

theorem inv_init (env : Env) (opts : QemuOpts) :
    Inv env (optsVisitorNew opts) ⟨[], none, 0, 0⟩ where
  depth := rfl
  peak := le_rfl
  closed _ := rfl
  list_table h := absurd rfl h
  table _ h := by cases h
  idle := by simp [optsVisitorNew]
  idle_repeated _ := rfl
  live _ h := by cases h
  ended _ h := by cases h
  bounded := trivial

theorem nesting_ne_zero (hi : Inv env ov g) {t : Table} (ht : ov.unprocessedOpts = some t) :
    g.nesting ≠ 0 := fun h0 => by simp [hi.closed h0] at ht

theorem insertOpts_no_id {t : Table} {h : Heap QemuOpt} {opts : List QemuOpt} {r}
    (hr : insertOpts t h opts = some r) : ∀ o ∈ opts, o.name ≠ "id" := by
  induction opts generalizing t h with
  | nil => simp
  | cons opt opts ih =>
    simp only [insertOpts] at hr
    split_ifs at hr with hid
    obtain ⟨⟨t', h'⟩, -, hr⟩ := Option.bind_eq_some.1 hr
    exact List.forall_mem_cons.2 ⟨hid, ih hr⟩

theorem optsStartStruct_no_id (hd : ov.depth = 0) (h : optsStartStruct ov = some ((), ov')) :
    ∀ o ∈ ov.optsRoot.head, o.name ≠ "id" := by
  unfold optsStartStruct at h
  rw [if_neg (by simp [hd]), Option.bind_eq_some] at h
  obtain ⟨_, hr, -⟩ := h
  exact insertOpts_no_id hr

theorem tableOk_of_grouped {opts : QemuOpts} {h0 h : Heap QemuOpt} {t : Table}
    (gr : Grouped h0 (opts.head ++ fakeId opts) t h) : TableOk opts t h where
  keys_nodup := gr.keys_nodup
  addrs_nodup := gr.addrs_nodup
  queue e he := by
    refine ⟨_, gr.queue_eq e he, ?_, List.suffix_refl _⟩
    obtain ⟨o, ho, hn⟩ := (gr.mem_keys e.1).1 (List.mem_map_of_mem _ he)
    exact List.ne_nil_of_mem (List.mem_filter.2 ⟨ho, by simpa using hn⟩)

section Rebuild

variable {L : List QemuOpt} {t : Table} {h : Heap QemuOpt} {n : String} {p : Nat}

theorem Reads.rebuild (hr : Reads ov n p) (gr : Grouped ov.queues L t h) (d : BitVec 32)
    (fake : Option QemuOpt) :
    Reads { ov with depth := d, unprocessedOpts := some t, queues := h, fakeIdOpt := fake } n p := by
  obtain ⟨⟨q, hq, hne, hs⟩, -⟩ := hr
  have hp := lt_length_of_queue hq
  refine ⟨⟨q, (gr.old p hp).trans hq, hne, hs⟩, fun t' ht' e he hep => ?_⟩
  cases ht'
  exact absurd hep (by have := (gr.fresh e he).1; omega)

theorem Spent.rebuild (hs : Spent ov p) (gr : Grouped ov.queues L t h) (d : BitVec 32)
    (fake : Option QemuOpt) :
    Spent { ov with depth := d, unprocessedOpts := some t, queues := h, fakeIdOpt := fake } p := by
  obtain ⟨he, hp, -⟩ := hs
  refine ⟨?_, ?_, fun t' ht' e hm => ?_⟩
  · show (h.queue p).getD [] = []
    rw [gr.old p hp]
    exact he
  · show p < h.length
    have := gr.grows
    omega
  · cases ht'
    have := (gr.fresh e hm).1
    omega

end Rebuild

theorem inv_startStruct (hi : Inv env ov g) (h : optsStartStruct ov = some ((), ov')) :
    Inv env ov' g.opened := by
  rcases zero_or_pos ov.depth with hd | hd
  · obtain ⟨t, hp, fake, hs, gr⟩ := optsStartStruct_outer ov hd (optsStartStruct_no_id hd h)
    cases hs.symm.trans h
    exact {
      depth := show 1 = BitVec.ofNat 32 (g.nesting + 1) by rw [← ofNat_succ, ← hi.depth, hd]; rfl
      peak := le_max_right _ _
      closed := fun h => absurd h (Nat.succ_ne_zero _)
      list_table := fun _ => rfl
      table := fun t' ht => by cases ht; exact tableOk_of_grouped gr
      idle := hi.idle
      idle_repeated := hi.idle_repeated
      live := fun n hn => (hi.live n hn).imp fun _ ⟨hr, hrd⟩ => ⟨hr, hrd.rebuild gr 1 fake⟩
      ended := fun n hn => (hi.ended n hn).imp_right fun ⟨p, hr, hsp⟩ =>
        ⟨p, hr, hsp.rebuild gr 1 fake⟩
      bounded := hi.bounded }
  · cases (optsStartStruct_nested hd).symm.trans h
    exact { hi with
      depth := by rw [hi.depth]; exact ofNat_succ _
      peak := le_max_right _ _
      closed := fun h => absurd h (Nat.succ_ne_zero _) }

theorem inv_endStruct {e : Option QError} (hi : Inv env ov g) (h : optsEndStruct ov = some (e, ov'))
    (hn : 0 < g.nesting) (hp : ov.depth ≠ 1 ∨ ov.listMode = .lmNone) :
    Inv env ov' { g with nesting := g.nesting - 1 } := by
  have hdepth : ov.depth - 1 = BitVec.ofNat 32 (g.nesting - 1) := by
    rw [hi.depth]
    exact ofNat_pred hn
  rcases optsEndStruct_some h with ⟨hd, -, rfl⟩ | ⟨hd, -, rfl⟩
  · exact { hi with
      depth := hdepth
      peak := (Nat.sub_le _ _).trans hi.peak
      closed := fun h0 => absurd (by rw [hi.depth, show g.nesting = 1 by simp only at h0; omega]; rfl) hd }
  · have hm : ov.listMode = .lmNone := hp.resolve_left (· hd)
    have ha := hi.idle.1 hm
    exact {
      depth := show 0 = BitVec.ofNat 32 (g.nesting - 1) by rw [← hdepth, hd]; rfl
      peak := (Nat.sub_le _ _).trans hi.peak
      closed := fun _ => rfl
      list_table := fun h => absurd hm h
      table := fun t ht => by cases ht
      idle := hi.idle
      idle_repeated := hi.idle_repeated
      live := fun n hn => by simp [ha] at hn
      ended := fun n hn => by simp [ha] at hn
      bounded := hi.bounded }

theorem inv_startList {name : String} {e : Option QError} (hi : Inv env ov g)
    (h : optsStartList name ov = some (e, ov')) :
    Inv env ov' (if e = none then { g with active := some (name, false) } else g) := by
  obtain ⟨hm, ⟨p, hp, rfl, rfl⟩ | ⟨-, rfl, rfl⟩⟩ := optsStartList_some h
  · obtain ⟨t, ht, hl⟩ := Option.bind_eq_some.1 (lookupDistinct_ok.1 hp)
    obtain ⟨q, hq, hne, hs⟩ := (hi.table t ht).lookup hl
    rw [if_pos rfl]
    exact { hi with
      list_table := fun _ => by simp [ht]
      idle := by simp
      idle_repeated := fun h => by cases h
      live := fun n hn => by
        cases (show name = n by simpa using hn)
        refine ⟨p, rfl, ⟨q, hq, hne, hs⟩, fun t' ht' => ?_⟩
        cases ht.symm.trans ht'
        exact (hi.table t ht).owner hl
      ended := fun n hn => by simp at hn
      bounded := trivial }
  · have ha := hi.idle.1 hm
    rw [if_neg (by simp)]
    exact { hi with
      idle_repeated := fun _ => rfl
      live := fun n hn => by simp [ha] at hn
      ended := fun n hn => by simp [ha] at hn }

theorem inv_endList (hi : Inv env ov g) (h : optsEndList ov = some ((), ov')) :
    Inv env ov' { g with active := none } := by
  obtain ⟨-, rfl⟩ := optsEndList_some h
  exact { hi with
    list_table := fun h => absurd rfl h
    idle := by simp
    idle_repeated := fun _ => rfl
    live := fun n hn => by cases hn
    ended := fun n hn => by cases hn
    bounded := trivial }

theorem active_live (hi : Inv env ov g) (hm : ov.listMode ≠ .lmNone)
    (hq : ∀ p, ov.repeatedOpts = some p → (ov.queues.queue p).getD [] ≠ []) :
    ∃ n, g.active = some (n, false) := by
  obtain ⟨⟨n, b⟩, ha⟩ := Option.ne_none_iff_exists'.1 (mt hi.idle.2 hm)
  cases b
  · exact ⟨n, ha⟩
  · obtain ⟨-, p, hp, hn, -⟩ := hi.ended n ha
    exact absurd hn (hq p hp)

theorem removeOpt_emptied {t : Table} {n : String} {p : Nat} (ht : ov.unprocessedOpts = some t)
    (ok : TableOk ov.optsRoot t ov.queues) (hown : ∀ e ∈ t, e.2 = p → e.1 = n)
    (hp : p < ov.queues.length) :
    ∃ t' h, removeOpt { ov with queues := ov.queues.write p (some []) } n =
        { ov with unprocessedOpts := some t', queues := h } ∧
      TableOk ov.optsRoot t' h ∧ (h.queue p).getD [] = [] ∧ h.length = ov.queues.length ∧
      ∀ e ∈ t', e.2 ≠ p := by
  cases hl : gHashTableLookup t n with
  | none =>
    have hout : ∀ e ∈ t, e.2 ≠ p := fun e he hep =>
      lookup_eq_none.1 hl (hown e he hep ▸ List.mem_map_of_mem Prod.fst he)
    refine ⟨t, ov.queues.write p (some []), by
      rw [@removeOpt_of_lookup_none { ov with queues := ov.queues.write p (some []) } t n ht hl,
        ← ht], ok.write_out hout _,
      by simp [queue_write_self _ _ _ hp], by simp, hout⟩
  | some p' =>
    have hout : ∀ e ∈ t.filter (·.1 ≠ n), e.2 ≠ p := fun e he hep => by
      obtain ⟨he, hn⟩ := List.mem_filter.1 he
      simp [hown e he hep] at hn
    refine ⟨_, _, removeOpt_of_lookup ht hl, ((ok.filter n).write_out hout _).write_out
      (fun e he => by
        obtain ⟨he, hn⟩ := List.mem_filter.1 he
        exact (ok.addr_ne hl he (by simpa using hn)).symm) none, ?_, by simp, hout⟩
    by_cases hpp : p' = p
    · simp [hpp, queue_write_none_self]
    · simp [queue_write_ne _ _ hpp, queue_write_self _ _ _ hp]

theorem inv_pop {b : Bool} (hi : Inv env ov g) (hm : ov.listMode ≠ .lmNone)
    (h : popRepeated { ov with listMode := .lmInProgress } = some (b, ov')) :
    Inv env ov' (if b then g else g.listEnded) := by
  obtain ⟨p, o, rest, hr, hq, hpop⟩ := popRepeated_some h
  simp only at hr hq
  obtain ⟨n, hn⟩ := active_live hi hm fun p' hp' => by simp_all
  obtain ⟨p', hr', ⟨q, hq', -, hsuf⟩, hown⟩ := hi.live n hn
  obtain rfl : p = p' := Option.some.inj (hr.symm.trans hr')
  obtain rfl : q = o :: rest := Option.some.inj (hq'.symm.trans hq)
  obtain ⟨t, ht⟩ := Option.isSome_iff_exists.1 (hi.list_table hm)
  have hnz := nesting_ne_zero hi ht
  have hlt := lt_length_of_queue hq
  rcases hpop with ⟨rfl, rfl, rfl⟩ | ⟨hne, rfl, rfl⟩
  · -- the last occurrence: the list ends and its name is dropped
    rw [name_of_mem_suffix hsuf (List.mem_cons_self _ _)]
    obtain ⟨t', H, hrm, ok', hp, hlen, hout⟩ := @removeOpt_emptied
      { ov with listMode := .lmInProgress } t n p ht (hi.table t ht) (hown t ht) hlt
    rw [hrm]
    simp only [Bool.false_eq_true, if_false, Caller.listEnded, hn]
    exact {
      depth := hi.depth
      peak := hi.peak
      closed := fun h0 => absurd h0 hnz
      list_table := fun _ => rfl
      table := fun t'' ht'' => by cases ht''; exact ok'
      idle := by simp
      idle_repeated := fun h => by cases h
      live := fun m hm => by simp at hm
      ended := fun m _ => ⟨rfl, p, hr, hp, by rw [hlen]; exact hlt,
        fun t'' ht'' => by cases ht''; exact hout⟩
      bounded := trivial }
  · simp only [if_true]
    have hsuf' := (List.suffix_cons o rest).trans hsuf
    exact { hi with
      list_table := fun _ => by simp [ht]
      table := fun t' ht' => by
        cases ht.symm.trans ht'
        exact (hi.table t ht).write_owned (hown t ht) hlt hne hsuf'
      idle := by simp [hn]
      idle_repeated := fun h => by cases h
      live := fun m hm => by
        cases hm.symm.trans hn
        exact ⟨p, hr, ⟨rest, queue_write_self _ _ _ hlt, hne, hsuf'⟩, hown⟩
      ended := fun m hm => by simp [hn] at hm
      bounded := trivial }

theorem inv_nextList {b : Bool} (hi : Inv env ov g) (h : optsNextList ov = some (b, ov')) :
    Inv env ov' (if b then g else g.listEnded) := by
  rcases optsNextList_some h with ⟨hm, rfl, rfl⟩ | ⟨hm, hlt, rfl, rfl⟩ | ⟨hm, hlt, rfl, rfl⟩ |
    ⟨hm, -, hp⟩
  · exact { hi with
      list_table := fun _ => hi.list_table (by simp [hm])
      idle := by simpa [hm] using hi.idle
      idle_repeated := fun h => by cases h
      ended := fun n hn => by have := (hi.ended n hn).1; rw [hm] at this; cases this
      bounded := trivial }
  · have hb := hi.bounded
    simp only [hm, intervalBounded] at hb
    exact { hi with bounded := by simp only [hm, intervalBounded, toInt_add_one hlt]; omega }
  · have hb := hi.bounded
    simp only [hm, intervalBounded] at hb
    exact { hi with bounded := by simp only [hm, intervalBounded, toNat_add_one hlt]; omega }
  · exact inv_pop hi hm hp

theorem inv_processed {name : String} {p : Nat} (hi : Inv env ov g) (hm : ov.listMode = .lmNone)
    (hp : lookupDistinct ov name = .ok p) :
    Inv env (removeOpt ov name) { g with consumed := name :: g.consumed } := by
  obtain ⟨t, ht, hl⟩ := Option.bind_eq_some.1 (lookupDistinct_ok.1 hp)
  have ha := hi.idle.1 hm
  have hnz := nesting_ne_zero hi ht
  rw [removeOpt_of_lookup ht hl]
  exact { hi with
    closed := fun h0 => absurd h0 hnz
    list_table := fun h => absurd hm h
    table := fun t' ht' => by cases ht'; exact (hi.table t ht).remove hl
    live := fun n hn => by simp [ha] at hn
    ended := fun n hn => by simp [ha] at hn }

theorem inv_typeScalar {α : Type} {convert : Option String → Except String α} {name : String}
    {d : Decoded α} (hi : Inv env ov g) (h : typeScalar convert name ov = some (d, ov')) :
    Inv env ov' (g.afterDecode ov.listMode name d.isStored) := by
  rcases typeScalar_some h with ⟨rfl, hn⟩ | ⟨hm, hs, ⟨p, hp⟩, rfl⟩
  · rwa [Caller.afterDecode, if_neg hn]
  · rw [Caller.afterDecode, if_pos ⟨hm, hs⟩]
    exact inv_processed hi hm hp

theorem inv_typeInteger {V : Type} {k : IntegerKind V} (hk : Lawful k env.rangeMax) {name : String}
    {d : Decoded V} (hi : Inv env ov g) (h : typeInteger k name ov = some (d, ov')) :
    Inv env ov' (g.afterDecode ov.listMode name d.isStored) := by
  have hkn : k.interval ≠ .lmNone := by rcases hk.interval with h | h <;> simp [h]
  rcases typeInteger_some h with ⟨hm, rfl⟩ | ⟨rfl, hn⟩ | ⟨hm, hs, ⟨p, hp⟩, rfl⟩ |
    ⟨hm, opt, val, rest, val2, hr, hparse, hfull, hok, -, rfl⟩
  · rwa [Caller.afterDecode, if_neg fun h => hkn (hm ▸ h.1)]
  · rwa [Caller.afterDecode, if_neg hn]
  · rw [Caller.afterDecode, if_pos ⟨hm, hs⟩]
    exact inv_processed hi hm hp
  · rw [Caller.afterDecode, if_neg fun h => by simp [hm] at h]
    have hq : ∀ p, ov.repeatedOpts = some p → (ov.queues.queue p).getD [] ≠ [] := by
      rcases lookupScalar_some hr with ⟨hm', -⟩ | ⟨-, ⟨hn, h⟩ | ⟨p, q, hp, hq, hrq⟩⟩
      · simp [hm] at hm'
      · cases h
      · intro p' hp' h0
        rw [Option.some.inj (hp'.symm.trans hp), hq, Option.getD_some] at h0
        subst h0
        cases hrq
    obtain ⟨n, hn⟩ := active_live hi (by simp [hm]) hq
    exact { hi with
      list_table := fun _ => hi.list_table (by simp [hm])
      idle := by simp [hkn, hn]
      idle_repeated := fun h => absurd h hkn
      ended := fun m hm => by simp [hn] at hm
      bounded := hk.bounded _ _ _ _ hparse hfull hok }

theorem inv_step {g' : Caller} (hi : Inv env ov g) (h : Step env (ov, g) (ov', g')) :
    Inv env ov' g' := by
  cases h with
  | startStruct h => exact inv_startStruct hi h
  | endStruct h hn hp => exact inv_endStruct hi h hn hp
  | startList name h => exact inv_startList hi h
  | nextList h => exact inv_nextList hi h
  | endList h => exact inv_endList hi h
  | typeStr name h => exact inv_typeScalar hi h
  | typeBool name h => exact inv_typeScalar hi h
  | typeInt name h => exact inv_typeInteger (int64Kind_lawful env.rangeMax_le) hi h
  | typeUint64 name h => exact inv_typeInteger (uint64Kind_lawful env) hi h
  | typeSize name h => exact inv_typeScalar hi h
  | startOptional name h =>
    simp only [optsStartOptional] at h
    split_ifs at h
    cases h
    exact hi

theorem removeOpt_optsRoot (ov : OptsVisitor) (name : String) :
    (removeOpt ov name).optsRoot = ov.optsRoot := by
  unfold removeOpt; split <;> rfl

theorem step_optsRoot {g' : Caller} (h : Step env (ov, g) (ov', g')) : ov'.optsRoot = ov.optsRoot := by
  cases h with
  | startStruct h =>
    rcases zero_or_pos ov.depth with hd | hd
    · obtain ⟨_, _, _, hs, -⟩ := optsStartStruct_outer ov hd (optsStartStruct_no_id hd h)
      cases hs.symm.trans h
      rfl
    · cases (optsStartStruct_nested hd).symm.trans h
      rfl
  | endStruct h _ _ => rcases optsEndStruct_some h with ⟨-, -, rfl⟩ | ⟨-, -, rfl⟩ <;> rfl
  | startList name h => obtain ⟨-, ⟨_, -, -, rfl⟩ | ⟨-, -, rfl⟩⟩ := optsStartList_some h <;> rfl
  | nextList h =>
    rcases optsNextList_some h with ⟨-, -, rfl⟩ | ⟨-, -, -, rfl⟩ | ⟨-, -, -, rfl⟩ | ⟨-, -, hp⟩
    · rfl
    · rfl
    · rfl
    · obtain ⟨p, o, rest, -, -, ⟨-, -, rfl⟩ | ⟨-, -, rfl⟩⟩ := popRepeated_some hp
      · exact removeOpt_optsRoot _ _
      · rfl
  | endList h => obtain ⟨-, rfl⟩ := optsEndList_some h; rfl
  | typeStr name h | typeBool name h | typeSize name h =>
    rcases typeScalar_some h with ⟨rfl, -⟩ | ⟨-, -, -, rfl⟩
    · rfl
    · exact removeOpt_optsRoot _ _
  | typeInt name h | typeUint64 name h =>
    rcases typeInteger_some h with ⟨-, rfl⟩ | ⟨rfl, -⟩ | ⟨-, -, -, rfl⟩ | ⟨-, _, _, _, _, -, -, -, -, -, rfl⟩
    · rfl
    · rfl
    · exact removeOpt_optsRoot _ _
    · rfl
  | startOptional name h =>
    simp only [optsStartOptional] at h
    split_ifs at h
    cases h
    rfl

theorem reachable_inv {opts : QemuOpts} {g : Caller} (h : Reachable env opts ov g) :
    Inv env ov g ∧ ov.optsRoot = opts := by
  induction h with
  | init => exact ⟨inv_init env opts, rfl⟩
  | step _ hs ih => exact ⟨inv_step ih.1 hs, (step_optsRoot hs).trans ih.2⟩

/-! Fewer than 2^32 open structs. -/

structure Counted (ov : OptsVisitor) (g : Caller) : Prop where
  table_iff : ov.unprocessedOpts.isSome ↔ 0 < g.nesting
  keys : ∀ t, ov.unprocessedOpts = some t →
    ∀ n, n ∈ t.map Prod.fst ↔ occurrences ov.optsRoot n ≠ [] ∧ n ∉ g.consumed
  live : ∀ n, g.active = some (n, false) → ∃ t p, ov.unprocessedOpts = some t ∧
    gHashTableLookup t n = some p ∧ ov.repeatedOpts = some p
  ended : ∀ n, g.active = some (n, true) → ∃ p, ov.repeatedOpts = some p ∧ ov.queues.queue p = none

theorem counted_init (opts : QemuOpts) : Counted (optsVisitorNew opts) ⟨[], none, 0, 0⟩ where
  table_iff := by simp [optsVisitorNew]
  keys _ h := by cases h
  live _ h := by cases h
  ended _ h := by cases h

theorem counted_startStruct (hi : Inv env ov g) (hc : Counted ov g) (hb : g.nesting < 2 ^ 32)
    (h : optsStartStruct ov = some ((), ov')) : Counted ov' g.opened := by
  rcases zero_or_pos ov.depth with hd | hd
  · have hn : g.nesting = 0 := (ofNat_eq_zero hb).1 (by rw [← hi.depth]; exact hd)
    have hm : ov.listMode = .lmNone := by_contra fun hm => by simpa [hi.closed hn] using hi.list_table hm
    have ha := hi.idle.1 hm
    obtain ⟨t, hp, fake, hs, gr⟩ := optsStartStruct_outer ov hd (optsStartStruct_no_id hd h)
    cases hs.symm.trans h
    rw [Caller.opened_of_zero hn]
    exact {
      table_iff := by simp
      keys := fun t' ht n => by
        cases ht
        simp only [gr.mem_keys, List.not_mem_nil, not_false_eq_true, and_true, occurrences]
        rw [ne_eq, List.filter_eq_nil_iff]
        simp
      live := fun n hn => by simp [ha] at hn
      ended := fun n hn => by simp [ha] at hn }
  · have hn : g.nesting ≠ 0 := fun h0 => by simp [hi.depth, h0] at hd
    cases (optsStartStruct_nested hd).symm.trans h
    rw [Caller.opened_of_ne_zero hn]
    exact { hc with table_iff := by simpa using hc.table_iff.2 (Nat.pos_of_ne_zero hn) }

theorem counted_endStruct {e : Option QError} (hi : Inv env ov g) (hc : Counted ov g)
    (hb : g.nesting < 2 ^ 32) (h : optsEndStruct ov = some (e, ov')) (hn : 0 < g.nesting)
    (hp : ov.depth ≠ 1 ∨ ov.listMode = .lmNone) :
    Counted ov' { g with nesting := g.nesting - 1 } := by
  rcases optsEndStruct_some h with ⟨hd, -, rfl⟩ | ⟨hd, -, rfl⟩
  · have h1 : g.nesting ≠ 1 := fun h1 => hd (by rw [hi.depth, h1]; rfl)
    exact { hc with
      table_iff := by simpa [show 0 < g.nesting - 1 by omega] using hc.table_iff.2 hn }
  · have h1 : g.nesting = 1 := (ofNat_eq_one hb).1 (by rw [← hi.depth]; exact hd)
    have ha := hi.idle.1 (hp.resolve_left (· hd))
    exact {
      table_iff := by simp [h1]
      keys := fun t ht => by cases ht
      live := fun n hn => by simp [ha] at hn
      ended := fun n hn => by simp [ha] at hn }

theorem counted_startList {name : String} {e : Option QError} (hi : Inv env ov g)
    (hc : Counted ov g) (h : optsStartList name ov = some (e, ov')) :
    Counted ov' (if e = none then { g with active := some (name, false) } else g) := by
  obtain ⟨hm, ⟨p, hp, rfl, rfl⟩ | ⟨-, rfl, rfl⟩⟩ := optsStartList_some h
  · obtain ⟨t, ht, hl⟩ := Option.bind_eq_some.1 (lookupDistinct_ok.1 hp)
    rw [if_pos rfl]
    exact { hc with
      live := fun n hn => by
        cases (show name = n by simpa using hn)
        exact ⟨t, p, ht, hl, rfl⟩
      ended := fun n hn => by simp at hn }
  · have ha := hi.idle.1 hm
    rw [if_neg (by simp)]
    exact { hc with
      live := fun n hn => by simp [ha] at hn
      ended := fun n hn => by simp [ha] at hn }

theorem counted_endList (hc : Counted ov g) (h : optsEndList ov = some ((), ov')) :
    Counted ov' { g with active := none } := by
  obtain ⟨-, rfl⟩ := optsEndList_some h
  exact { hc with
    live := fun n hn => by cases hn
    ended := fun n hn => by cases hn }

theorem counted_pop {b : Bool} (hi : Inv env ov g) (hc : Counted ov g)
    (hm : ov.listMode ≠ .lmNone)
    (h : popRepeated { ov with listMode := .lmInProgress } = some (b, ov')) :
    Counted ov' (if b then g else g.listEnded) := by
  obtain ⟨p, o, rest, hr, hq, hpop⟩ := popRepeated_some h
  simp only at hr hq
  obtain ⟨n, hn⟩ := active_live hi hm fun p' hp' => by simp_all
  obtain ⟨t, p', ht, hl, hr'⟩ := hc.live n hn
  obtain rfl : p = p' := Option.some.inj (hr.symm.trans hr')
  obtain ⟨q, hq', -, hsuf⟩ := (hi.table t ht).lookup hl
  obtain rfl : q = o :: rest := Option.some.inj (hq'.symm.trans hq)
  rcases hpop with ⟨rfl, rfl, rfl⟩ | ⟨-, rfl, rfl⟩
  · rw [name_of_mem_suffix hsuf (List.mem_cons_self _ _), removeOpt_of_lookup (by exact ht) hl]
    simp only [Bool.false_eq_true, if_false, Caller.listEnded, hn, write_write]
    exact {
      table_iff := by simpa using hc.table_iff.1 (by simp [ht])
      keys := fun t' ht' m => by
        cases ht'
        rw [mem_keys_filter, hc.keys t ht]
        simp only [List.mem_cons, not_or]
        tauto
      live := fun m hm => by simp at hm
      ended := fun m _ => ⟨p, hr, queue_write_none_self _ _⟩ }
  · simp only [if_true]
    exact { hc with ended := fun m hm => by simp [hn] at hm }

theorem counted_nextList {b : Bool} (hi : Inv env ov g) (hc : Counted ov g)
    (h : optsNextList ov = some (b, ov')) : Counted ov' (if b then g else g.listEnded) := by
  rcases optsNextList_some h with ⟨-, rfl, rfl⟩ | ⟨-, -, rfl, rfl⟩ | ⟨-, -, rfl, rfl⟩ | ⟨hm, -, hp⟩
  · exact ⟨hc.table_iff, hc.keys, hc.live, hc.ended⟩
  · exact ⟨hc.table_iff, hc.keys, hc.live, hc.ended⟩
  · exact ⟨hc.table_iff, hc.keys, hc.live, hc.ended⟩
  · exact counted_pop hi hc hm hp

theorem counted_processed {name : String} {p : Nat} (hi : Inv env ov g) (hc : Counted ov g)
    (hm : ov.listMode = .lmNone) (hp : lookupDistinct ov name = .ok p) :
    Counted (removeOpt ov name) { g with consumed := name :: g.consumed } := by
  obtain ⟨t, ht, hl⟩ := Option.bind_eq_some.1 (lookupDistinct_ok.1 hp)
  have ha := hi.idle.1 hm
  rw [removeOpt_of_lookup ht hl]
  exact {
    table_iff := by simpa [ht] using hc.table_iff
    keys := fun t' ht' m => by
      cases ht'
      rw [mem_keys_filter, hc.keys t ht]
      simp only [List.mem_cons, not_or]
      tauto
    live := fun n hn => by simp [ha] at hn
    ended := fun n hn => by simp [ha] at hn }

theorem counted_typeScalar {α : Type} {convert : Option String → Except String α} {name : String}
    {d : Decoded α} (hi : Inv env ov g) (hc : Counted ov g)
    (h : typeScalar convert name ov = some (d, ov')) :
    Counted ov' (g.afterDecode ov.listMode name d.isStored) := by
  rcases typeScalar_some h with ⟨rfl, hn⟩ | ⟨hm, hs, ⟨p, hp⟩, rfl⟩
  · rwa [Caller.afterDecode, if_neg hn]
  · rw [Caller.afterDecode, if_pos ⟨hm, hs⟩]
    exact counted_processed hi hc hm hp

theorem counted_typeInteger {V : Type} {k : IntegerKind V} (hkn : k.interval ≠ .lmNone)
    {name : String} {d : Decoded V} (hi : Inv env ov g) (hc : Counted ov g)
    (h : typeInteger k name ov = some (d, ov')) :
    Counted ov' (g.afterDecode ov.listMode name d.isStored) := by
  rcases typeInteger_some h with ⟨hm, rfl⟩ | ⟨rfl, hn⟩ | ⟨hm, hs, ⟨p, hp⟩, rfl⟩ |
    ⟨hm, -, -, -, -, -, -, -, -, -, rfl⟩
  · rwa [Caller.afterDecode, if_neg fun h => hkn (hm ▸ h.1)]
  · rwa [Caller.afterDecode, if_neg hn]
  · rw [Caller.afterDecode, if_pos ⟨hm, hs⟩]
    exact counted_processed hi hc hm hp
  · rw [Caller.afterDecode, if_neg fun h => by simp [hm] at h]
    exact ⟨hc.table_iff, hc.keys, hc.live, hc.ended⟩

theorem counted_step {g' : Caller} (hi : Inv env ov g) (hc : Counted ov g)
    (hb : g.nesting < 2 ^ 32) (h : Step env (ov, g) (ov', g')) : Counted ov' g' := by
  cases h with
  | startStruct h => exact counted_startStruct hi hc hb h
  | endStruct h hn hp => exact counted_endStruct hi hc hb h hn hp
  | startList name h => exact counted_startList hi hc h
  | nextList h => exact counted_nextList hi hc h
  | endList h => exact counted_endList hc h
  | typeStr name h => exact counted_typeScalar hi hc h
  | typeBool name h => exact counted_typeScalar hi hc h
  | typeInt name h => exact counted_typeInteger (by simp) hi hc h
  | typeUint64 name h => exact counted_typeInteger (by simp) hi hc h
  | typeSize name h => exact counted_typeScalar hi hc h
  | startOptional name h =>
    simp only [optsStartOptional] at h
    split_ifs at h
    cases h
    exact hc

theorem step_peak {g' : Caller} (h : Step env (ov, g) (ov', g')) : g.peak ≤ g'.peak := by
  cases h with
  | startStruct _ => exact le_max_left _ _
  | startList name _ => split <;> exact le_rfl
  | nextList _ => split <;> simp
  | _ => simp

/-- Below 2^32 open structs, `depth` counts them and the index is the outermost one's. -/
theorem reachable_counted {opts : QemuOpts} (h : Reachable env opts ov g) (hb : g.peak < 2 ^ 32) :
    Counted ov g := by
  induction h with
  | init => exact counted_init opts
  | step hr hs ih =>
    have hi := (reachable_inv hr).1
    have := step_peak hs
    exact counted_step hi (ih (by omega)) (by have := hi.peak; omega) hs

end QemuOptsVisitor.Invariant
