import QemuOptsVisitor.Fields

/-! Calls that return. A caller that follows the protocol never makes the visitor abort or touch
freed memory: in every reachable state each call the protocol allows there returns. The call it
forbids once `opts_next_list` has returned NULL, another `opts_next_list`, pops the queue that
returning NULL freed. -/

namespace QemuOptsVisitor.Progress
open Glib Parsing Visitor Decoders RangeCheck BuildIndex Protocol Invariant Fields

section Calls

variable {ov : OptsVisitor} {name : String}

end Calls

section Reachable

variable {env : Env} {opts : QemuOpts} {ov : OptsVisitor} {g : Caller}

/-- The outermost `opts_end_struct` returns with a list open and tears the index down. -/
theorem reachable_endStruct_keeps_list (h : Reachable env opts ov g) (hb : g.peak < 2 ^ 32)
    (hd : ov.depth = 1) (hm : ov.listMode ≠ .lmNone) :
    ∃ e ov' p, optsEndStruct ov = some (e, ov') ∧ ov'.depth = 0 ∧ ov'.unprocessedOpts = none ∧
      ov'.fakeIdOpt = none ∧ ov'.listMode = ov.listMode ∧ ov'.repeatedOpts = some p ∧
      ov'.queues.queue p = none := by
  obtain ⟨hi, -⟩ := reachable_inv h
  have hc := reachable_counted h hb
  obtain ⟨t, ht⟩ := Option.isSome_iff_exists.1 (hi.list_table hm)
  obtain ⟨e, he⟩ : ∃ e, leftover ov = some e := by
    rcases leftover_of_tableOk ht (hi.table t ht) with ⟨-, he⟩ | ⟨k, -, -, -, he⟩ <;> exact ⟨_, he⟩
  -- the open list's queue is still in the table, or was freed when the list ended
  obtain ⟨p, hr, hp⟩ : ∃ p, ov.repeatedOpts = some p ∧
      (ov.queues.queue p = none ∨ ∃ k, (k, p) ∈ t) := by
    obtain ⟨⟨n, b⟩, hact⟩ := Option.ne_none_iff_exists'.1 (mt hi.idle.2 hm)
    cases b
    · obtain ⟨t', p, ht', hl, hr⟩ := hc.live n hact
      cases ht.symm.trans ht'
      exact ⟨p, hr, .inr ⟨n, lookup_mem hl⟩⟩
    · obtain ⟨p, hr, hq⟩ := hc.ended n hact
      exact ⟨p, hr, .inl hq⟩
  refine ⟨e, _, p, optsEndStruct_of_leftover hd he, rfl, rfl, rfl, rfl, hr, ?_⟩
  simp only [ht, Option.map_some', Option.getD_some]
  exact queue_destroy_none t ov.queues hp

theorem reachable_endStruct_keeps_list_sample :
    ∃ ov ov', optsStartStruct (optsVisitorNew ⟨[⟨"a", some "1"⟩], none⟩) = some ((), ov) ∧
      optsStartList "a" ov = some (none, ov') ∧
      ∃ e ov'' p, optsEndStruct ov' = some (e, ov'') ∧ ov''.unprocessedOpts = none ∧
        ov''.listMode = .lmStarted ∧ ov''.repeatedOpts = some p ∧ ov''.queues.queue p = none := by
  refine ⟨_, _, rfl, rfl, ?_⟩
  obtain ⟨e, ov'', p, h, -, ht, -, hm, hr, hq⟩ := reachable_endStruct_keeps_list
    (.step (.step (@Reachable.init specEnv ⟨[⟨"a", some "1"⟩], none⟩) (.startStruct rfl))
      (.startList "a" rfl)) (by decide) rfl (by decide)
  exact ⟨e, ov'', p, h, ht, hm, hr, hq⟩

end Reachable

end QemuOptsVisitor.Progress
