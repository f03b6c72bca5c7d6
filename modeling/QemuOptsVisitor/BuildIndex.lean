import QemuOptsVisitor.Visitor

/-! The index the outermost `opts_start_struct` builds: one queue per name, holding that name's
occurrences in source order, plus the `id` entry. `Grouped` is the loop invariant of
`opts_visitor_insert` over the options seen so far. -/

namespace QemuOptsVisitor.BuildIndex
open Glib Visitor

/-- The synthetic occurrence `opts_start_struct` makes of the `id`. -/
def fakeId (opts : QemuOpts) : List QemuOpt := (opts.id.map fun id => ⟨"id", some id⟩).toList

/-- The occurrences named `n` that the index starts with, in source order. -/
def occurrences (opts : QemuOpts) (n : String) : List QemuOpt :=
  (opts.head ++ fakeId opts).filter (·.name = n)

/-- The table and heap after inserting `done` into an empty table over the heap `h0`. -/
structure Grouped (h0 : Heap QemuOpt) (done : List QemuOpt) (t : Table) (h : Heap QemuOpt) :
    Prop where
  keys_nodup : (t.map Prod.fst).Nodup
  mem_keys : ∀ k, k ∈ t.map Prod.fst ↔ ∃ o ∈ done, o.name = k
  addrs_nodup : (t.map Prod.snd).Nodup
  fresh : ∀ e ∈ t, h0.length ≤ e.2 ∧ e.2 < h.length
  queue_eq : ∀ e ∈ t, h.queue e.2 = some (done.filter (·.name = e.1))
  old : ∀ p < h0.length, h.queue p = h0.queue p
  grows : h0.length ≤ h.length

theorem grouped_nil (h0 : Heap QemuOpt) : Grouped h0 [] [] h0 :=
  ⟨List.nodup_nil, by simp, List.nodup_nil, by simp, by simp, fun _ _ => rfl, le_rfl⟩

theorem addr_ne_of_mem {t : Table} (hn : (t.map Prod.snd).Nodup) {e e' : String × Nat}
    (he : e ∈ t) (he' : e' ∈ t) (hne : e.1 ≠ e'.1) : e.2 ≠ e'.2 :=
  fun h => hne (congrArg Prod.fst (List.inj_on_of_nodup_map hn he he' h))

theorem filter_append_ne {done : List QemuOpt} {opt : QemuOpt} {k : String} (hk : opt.name ≠ k) :
    (done ++ [opt]).filter (·.name = k) = done.filter (·.name = k) := by
  simp [List.filter_append, hk]

theorem grouped_push {h0 h : Heap QemuOpt} {done : List QemuOpt} {t : Table} {p : Nat}
    (g : Grouped h0 done t h) (opt : QemuOpt) (hp : (opt.name, p) ∈ t) :
    Grouped h0 (done ++ [opt]) t (h.write p (some (done.filter (·.name = opt.name) ++ [opt]))) where
  keys_nodup := g.keys_nodup
  mem_keys k := by
    rw [g.mem_keys]
    constructor
    · rintro ⟨o, ho, rfl⟩; exact ⟨o, List.mem_append_left _ ho, rfl⟩
    · rintro ⟨o, ho, rfl⟩
      rcases List.mem_append.1 ho with ho | ho
      · exact ⟨o, ho, rfl⟩
      · rw [List.mem_singleton.1 ho]
        exact (g.mem_keys _).1 (List.mem_map_of_mem _ hp)
  addrs_nodup := g.addrs_nodup
  fresh e he := by simpa using g.fresh e he
  queue_eq e he := by
    by_cases hk : e.1 = opt.name
    · have : e = (opt.name, p) := List.inj_on_of_nodup_map g.keys_nodup he hp hk
      subst this
      rw [queue_write_self _ _ _ (g.fresh _ hp).2]
      simp [List.filter_append]
    · rw [queue_write_ne _ _ (addr_ne_of_mem g.addrs_nodup hp he (Ne.symm hk)),
        filter_append_ne (Ne.symm hk), g.queue_eq e he]
  old p' hp' := by
    rw [queue_write_ne _ _ (by have := (g.fresh _ hp).1; omega), g.old p' hp']
  grows := by simpa using g.grows

theorem grouped_new {h0 h : Heap QemuOpt} {done : List QemuOpt} {t : Table}
    (g : Grouped h0 done t h) (opt : QemuOpt) (hk : opt.name ∉ t.map Prod.fst) :
    Grouped h0 (done ++ [opt]) (gHashTableInsert t opt.name h.length)
      ((h ++ [some []]).write h.length (some [opt])) := by
  have hnone : ∀ o ∈ done, o.name ≠ opt.name := fun o ho he => hk ((g.mem_keys _).2 ⟨o, ho, he⟩)
  have hlen : ∀ e ∈ t, e.2 < h.length := fun e he => (g.fresh e he).2
  refine ⟨?_, ?_, ?_, ?_, ?_, ?_, ?_⟩
  · simp only [gHashTableInsert, List.map_append, List.nodup_append, List.map_cons, List.map_nil,
      List.nodup_singleton, List.disjoint_singleton]
    exact ⟨g.keys_nodup, trivial, hk⟩
  · intro k
    simp [gHashTableInsert, g.mem_keys, or_and_right, exists_or, eq_comm]
  · simp only [gHashTableInsert, List.map_append, List.nodup_append, List.map_cons, List.map_nil,
      List.nodup_singleton, List.disjoint_singleton]
    exact ⟨g.addrs_nodup, trivial, fun hm => by
      obtain ⟨e, he, he'⟩ := List.mem_map.1 hm
      have := hlen e he; omega⟩
  · intro e he
    simp only [gHashTableInsert, List.mem_append, List.mem_singleton] at he
    simp only [length_write, List.length_append, List.length_singleton]
    rcases he with he | rfl
    · have := g.fresh e he; omega
    · exact ⟨g.grows, by omega⟩
  · intro e he
    simp only [gHashTableInsert, List.mem_append, List.mem_singleton] at he
    rcases he with he | rfl
    · have hne : e.1 ≠ opt.name := fun h' => hk (h' ▸ List.mem_map_of_mem _ he)
      rw [queue_write_ne _ _ (by have := hlen e he; omega),
        queue_append_old h _ (hlen e he), filter_append_ne (Ne.symm hne), g.queue_eq e he]
    · rw [queue_write_self _ _ _ (by simp)]
      simpa [List.filter_append] using hnone
  · intro p hp
    rw [queue_write_ne _ _ (by have := g.grows; omega),
      queue_append_old h _ (by have := g.grows; omega), g.old p hp]
  · simp only [length_write, List.length_append]; have := g.grows; omega

theorem insert_grouped {h0 h : Heap QemuOpt} {done : List QemuOpt} {t : Table}
    (g : Grouped h0 done t h) (opt : QemuOpt) :
    ∃ t' h', optsVisitorInsert t h opt = some (t', h') ∧ Grouped h0 (done ++ [opt]) t' h' := by
  cases hl : gHashTableLookup t opt.name with
  | some p =>
    have hp := lookup_mem hl
    refine ⟨_, _, ?_, grouped_push g opt hp⟩
    simp [optsVisitorInsert, hl, gQueuePushTail, g.queue_eq _ hp]
  | none =>
    refine ⟨_, _, ?_, grouped_new g opt (lookup_eq_none.1 hl)⟩
    simp [optsVisitorInsert, hl, gQueuePushTail, gQueueNew, Heap.queue]

theorem insertOpts_grouped {h0 h : Heap QemuOpt} {done : List QemuOpt} {t : Table}
    (g : Grouped h0 done t h) (opts : List QemuOpt) (hid : ∀ o ∈ opts, o.name ≠ "id") :
    ∃ t' h', insertOpts t h opts = some (t', h') ∧ Grouped h0 (done ++ opts) t' h' := by
  induction opts generalizing done t h with
  | nil => exact ⟨t, h, rfl, by simpa using g⟩
  | cons opt opts ih =>
    obtain ⟨t1, h1, hi, g1⟩ := insert_grouped g opt
    obtain ⟨t2, h2, hr, g2⟩ := ih g1 fun o ho => hid o (List.mem_cons_of_mem _ ho)
    refine ⟨t2, h2, ?_, by simpa using g2⟩
    simp [insertOpts, hid opt (List.mem_cons_self _ _), hi, hr]

theorem grouped_lookup {h0 h : Heap QemuOpt} {L : List QemuOpt} {t : Table}
    (g : Grouped h0 L t h) (k : String) :
    (gHashTableLookup t k).bind h.queue =
      if ∃ o ∈ L, o.name = k then some (L.filter (·.name = k)) else none := by
  split_ifs with hk
  · obtain ⟨e, he, rfl⟩ := List.mem_map.1 ((g.mem_keys k).2 hk)
    rw [lookup_of_mem g.keys_nodup he, Option.some_bind, g.queue_eq e he]
  · rw [lookup_eq_none.2 fun hm => hk ((g.mem_keys k).1 hm), Option.none_bind]

theorem optsStartStruct_outer (ov : OptsVisitor) (hd : ov.depth = 0)
    (hid : ∀ o ∈ ov.optsRoot.head, o.name ≠ "id") :
    ∃ t h fake, optsStartStruct ov =
      some ((), { ov with depth := 1, unprocessedOpts := some t, queues := h, fakeIdOpt := fake }) ∧
      Grouped ov.queues (ov.optsRoot.head ++ fakeId ov.optsRoot) t h := by
  obtain ⟨t, h, hi, g⟩ := insertOpts_grouped (grouped_nil ov.queues) _ hid
  cases hroot : ov.optsRoot.id with
  | none => exact ⟨t, h, ov.fakeIdOpt, by simp [optsStartStruct, hd, hi, hroot], by
      simpa [fakeId, hroot] using g⟩
  | some id =>
    obtain ⟨t', h', hi', g'⟩ := insert_grouped g ⟨"id", some id⟩
    exact ⟨t', h', some ⟨"id", some id⟩, by simp [optsStartStruct, hd, hi, hroot, hi'],
      by simpa [fakeId, hroot] using g'⟩

def firstNames (ks : List String) : List QemuOpt → List String
  | [] => ks
  | o :: L => firstNames (if o.name ∈ ks then ks else ks ++ [o.name]) L

theorem firstNames_append (ks : List String) (L L' : List QemuOpt) :
    firstNames ks (L ++ L') = firstNames (firstNames ks L) L' := by
  induction L generalizing ks with
  | nil => rfl
  | cons o L ih => exact ih _

theorem optsVisitorInsert_keys {t t' : Table} {h h' : Heap QemuOpt} {opt : QemuOpt}
    (hi : optsVisitorInsert t h opt = some (t', h')) :
    t'.map Prod.fst = firstNames (t.map Prod.fst) [opt] := by
  unfold optsVisitorInsert at hi
  split at hi
  · rename_i p hl
    obtain ⟨_, -, hh⟩ := Option.map_eq_some'.1 hi
    cases hh
    simp [firstNames, lookup_isSome.1 (by simp [hl] : (gHashTableLookup t opt.name).isSome)]
  · rename_i hl
    obtain ⟨_, -, hh⟩ := Option.map_eq_some'.1 hi
    cases hh
    simp [firstNames, gHashTableInsert, lookup_eq_none.1 hl]

theorem insertOpts_keys {L : List QemuOpt} : ∀ {t t' : Table} {h h' : Heap QemuOpt},
    insertOpts t h L = some (t', h') → t'.map Prod.fst = firstNames (t.map Prod.fst) L := by
  induction L with
  | nil => intro t t' h h' hi; cases hi; rfl
  | cons o L ih =>
    intro t t' h h' hi
    simp only [insertOpts] at hi
    split_ifs at hi
    obtain ⟨⟨t1, h1⟩, h1i, hi⟩ := Option.bind_eq_some.1 hi
    rw [ih hi, optsVisitorInsert_keys h1i]
    rfl

theorem optsStartStruct_keys {ov ov' : OptsVisitor} (hd : ov.depth = 0)
    (h : optsStartStruct ov = some ((), ov')) :
    ov'.keys = firstNames [] (ov.optsRoot.head ++ fakeId ov.optsRoot) := by
  unfold optsStartStruct at h
  rw [if_neg (by simp [hd]), Option.bind_eq_some] at h
  obtain ⟨⟨t, h1⟩, hi, h⟩ := h
  have hk : t.map Prod.fst = firstNames [] ov.optsRoot.head := insertOpts_keys hi
  rw [firstNames_append, ← hk]
  cases hroot : ov.optsRoot.id with
  | none =>
    simp only [hroot, Option.some.injEq, Prod.mk.injEq, true_and] at h
    subst h
    simp [OptsVisitor.keys, fakeId, hroot, firstNames]
  | some id =>
    simp only [hroot, Option.map_eq_some', Prod.mk.injEq, true_and] at h
    obtain ⟨⟨t2, h2⟩, hi2, rfl⟩ := h
    simpa [OptsVisitor.keys, fakeId, hroot] using optsVisitorInsert_keys hi2

theorem insertOpts_of_id {L : List QemuOpt} (hid : ∃ o ∈ L, o.name = "id") :
    ∀ (t : Table) (h : Heap QemuOpt), insertOpts t h L = none := by
  induction L with
  | nil => simp at hid
  | cons o L ih =>
    intro t h
    simp only [insertOpts]
    split_ifs with ho
    · rfl
    · obtain ⟨o', ho', hn⟩ := hid
      have hL : ∃ o ∈ L, o.name = "id" :=
        ⟨o', (List.mem_cons.1 ho').resolve_left (by rintro rfl; exact ho hn), hn⟩
      cases optsVisitorInsert t h o with
      | none => rfl
      | some r => exact ih hL r.1 r.2

theorem exists_mem_fakeId (opts : QemuOpts) (k : String) :
    (∃ o ∈ opts.head ++ fakeId opts, o.name = k) ↔
      (∃ o ∈ opts.head, o.name = k) ∨ (k = "id" ∧ opts.id.isSome) := by
  cases h : opts.id <;> simp [fakeId, h, or_and_right, exists_or, eq_comm]

end QemuOptsVisitor.BuildIndex
