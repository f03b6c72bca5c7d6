import QemuOptsVisitor.Glib

/-! The options visitor's state and its struct, list and lookup methods. A method returns its
answer and the new visitor, or `none` where the C code aborts (a failed `assert`, `abort()`) or
dereferences a NULL or freed pointer. Option values are pointers to immutable `QemuOpt`s, which
are modelled by value; the list links `opts_next_list` allocates are left to the caller and only
whether it returns NULL is kept. The `unsigned depth` is a 32-bit word and wraps as C's does. -/

namespace QemuOptsVisitor.Visitor
open Glib

/-- The fields of a `QemuOpt` the visitor reads. -/
structure QemuOpt where
  name : String
  str : Option String
deriving DecidableEq, Repr

structure QemuOpts where
  head : List QemuOpt
  id : Option String
deriving DecidableEq, Repr

inductive ListMode
  | lmNone
  | lmStarted
  | lmInProgress
  | lmSignedInterval
  | lmUnsignedInterval
deriving DecidableEq, Repr

/-- `struct OptsVisitor`, with the heap of queues it owns. -/
structure OptsVisitor where
  optsRoot : QemuOpts
  depth : BitVec 32
  unprocessedOpts : Option Table
  listMode : ListMode
  repeatedOpts : Option Nat
  rangeNext : BitVec 64
  rangeLimit : BitVec 64
  fakeIdOpt : Option QemuOpt
  queues : Heap QemuOpt
deriving DecidableEq, Repr

inductive QError
  | missingParameter (name : String)
  | invalidParameter (name : String)
  | invalidParameterValue (name expected : String)
deriving DecidableEq, Repr

def OptsVisitor.queueOf (ov : OptsVisitor) (name : String) : Option (List QemuOpt) :=
  (ov.unprocessedOpts.bind (gHashTableLookup · name)).bind ov.queues.queue

def OptsVisitor.keys (ov : OptsVisitor) : List String := (ov.unprocessedOpts.getD []).map Prod.fst

/-- A visitor method: `none` where the C code does not return normally. -/
abbrev VisitM := StateT OptsVisitor Option

def optsVisitorNew (opts : QemuOpts) : OptsVisitor :=
  ⟨opts, 0, none, .lmNone, none, 0, 0, none, []⟩

def optsVisitorInsert (t : Table) (h : Heap QemuOpt) (opt : QemuOpt) :
    Option (Table × Heap QemuOpt) :=
  match gHashTableLookup t opt.name with
  | some p => (gQueuePushTail h p opt).map (t, ·)
  | none =>
    let (p, h) := gQueueNew h
    (gQueuePushTail h p opt).map (gHashTableInsert t opt.name p, ·)

/-- The `QTAILQ_FOREACH` loop of `opts_start_struct`. -/
def insertOpts : Table → Heap QemuOpt → List QemuOpt → Option (Table × Heap QemuOpt)
  | t, h, [] => some (t, h)
  | t, h, opt :: opts =>
    if opt.name = "id" then none
    else (optsVisitorInsert t h opt).bind fun (t, h) => insertOpts t h opts

/-- `if (ov->depth++ > 0) return;` and the outermost struct's index. -/
def optsStartStruct : VisitM Unit := fun ov =>
  if 0 < ov.depth then some ((), { ov with depth := ov.depth + 1 })
  else (insertOpts [] ov.queues ov.optsRoot.head).bind fun (t, h) =>
    match ov.optsRoot.id with
    | none => some ((), { ov with depth := 1, unprocessedOpts := some t, queues := h })
    | some id =>
      let fake : QemuOpt := ⟨"id", some id⟩
      (optsVisitorInsert t h fake).map fun (t, h) =>
        ((), { ov with depth := 1, unprocessedOpts := some t, queues := h, fakeIdOpt := some fake })

def ghrTrue (_ : String) (_ : Nat) : Bool := true

def leftover (ov : OptsVisitor) : Option (Option QError) :=
  match ov.unprocessedOpts.bind (gHashTableFind · ghrTrue) with
  | none => some none
  | some any =>
    match gQueuePeekHead ov.queues any with
    | some (some first) => some (some (.invalidParameter first.name))
    | _ => none

/-- `if (--ov->depth > 0) return;` and the outermost struct's teardown. -/
def optsEndStruct : VisitM (Option QError) := fun ov =>
  if 0 < ov.depth - 1 then some (none, { ov with depth := ov.depth - 1 })
  else (leftover ov).map fun err =>
    (err, { ov with depth := ov.depth - 1, unprocessedOpts := none, fakeIdOpt := none,
                    queues := (ov.unprocessedOpts.map (gHashTableDestroy · ov.queues)).getD ov.queues })

/-- `lookup_distinct`: the queue address, or the error it sets. -/
def lookupDistinct (ov : OptsVisitor) (name : String) : Except QError Nat :=
  match ov.unprocessedOpts.bind (gHashTableLookup · name) with
  | some p => .ok p
  | none => .error (.missingParameter name)

def optsStartList (name : String) : VisitM (Option QError) := fun ov =>
  if ov.listMode ≠ .lmNone then none
  else match lookupDistinct ov name with
    | .error e => some (some e, { ov with repeatedOpts := none })
    | .ok p => some (none, { ov with repeatedOpts := some p, listMode := .lmStarted })

def removeOpt (ov : OptsVisitor) (name : String) : OptsVisitor :=
  match ov.unprocessedOpts with
  | none => ov
  | some t =>
    let r := gHashTableRemove t ov.queues name
    { ov with unprocessedOpts := some r.1, queues := r.2 }

/-- The `LM_IN_PROGRESS` case of `opts_next_list`. -/
def popRepeated (ov : OptsVisitor) : Option (Bool × OptsVisitor) := do
  let p ← ov.repeatedOpts
  let (opt, h) ← gQueuePopHead ov.queues p
  let empty ← gQueueIsEmpty h p
  if empty then
    let opt ← opt
    some (false, removeOpt { ov with queues := h } opt.name)
  else some (true, { ov with queues := h })

def optsNextList : VisitM Bool := fun ov =>
  match ov.listMode with
  | .lmStarted => some (true, { ov with listMode := .lmInProgress })
  | .lmSignedInterval =>
    if ov.rangeNext.toInt < ov.rangeLimit.toInt then
      some (true, { ov with rangeNext := ov.rangeNext + 1 })
    else popRepeated { ov with listMode := .lmInProgress }
  | .lmUnsignedInterval =>
    if ov.rangeNext.toNat < ov.rangeLimit.toNat then
      some (true, { ov with rangeNext := ov.rangeNext + 1 })
    else popRepeated { ov with listMode := .lmInProgress }
  | .lmInProgress => popRepeated ov
  | .lmNone => none

def optsEndList : VisitM Unit := fun ov =>
  if ov.listMode = .lmNone then none
  else some ((), { ov with repeatedOpts := none, listMode := .lmNone })

/-- `lookup_scalar`: the occurrence, NULL without an error, or the error it sets. -/
def lookupScalar (ov : OptsVisitor) (name : String) : Option (Except QError (Option QemuOpt)) :=
  if ov.listMode = .lmNone then
    match lookupDistinct ov name with
    | .error e => some (.error e)
    | .ok p => (gQueuePeekTail ov.queues p).map .ok
  else if ov.listMode = .lmInProgress then
    match ov.repeatedOpts with
    | none => some (.ok none)
    | some p => (gQueuePeekHead ov.queues p).map .ok
  else none

def processed (ov : OptsVisitor) (name : String) : Option OptsVisitor :=
  if ov.listMode = .lmNone then some (removeOpt ov name)
  else if ov.listMode = .lmInProgress then some ov
  else none

def optsStartOptional (name : String) : VisitM Bool := fun ov =>
  if ov.listMode ≠ .lmNone then none
  else some ((ov.unprocessedOpts.bind (gHashTableLookup · name)).isSome, ov)

/-- `opts_visitor_cleanup`: the heap once the table and its queues are destroyed. -/
def optsVisitorCleanup (ov : OptsVisitor) : Heap QemuOpt :=
  match ov.unprocessedOpts with
  | some t => gHashTableDestroy t ov.queues
  | none => ov.queues

/-! What each method can do when it returns. -/

theorem removeOpt_of_lookup {ov : OptsVisitor} {t : Table} {n : String} {p : Nat}
    (ht : ov.unprocessedOpts = some t) (hl : gHashTableLookup t n = some p) :
    removeOpt ov n = { ov with unprocessedOpts := some (t.filter (·.1 ≠ n)),
                               queues := ov.queues.write p none } := by
  simp [removeOpt, ht, gHashTableRemove, hl, gQueueFree]

theorem removeOpt_of_lookup_none {ov : OptsVisitor} {t : Table} {n : String}
    (ht : ov.unprocessedOpts = some t) (hl : gHashTableLookup t n = none) : removeOpt ov n = ov := by
  cases ov
  simp_all [removeOpt, gHashTableRemove]

theorem lookupDistinct_ok {ov : OptsVisitor} {name : String} {p : Nat} :
    lookupDistinct ov name = .ok p ↔ ov.unprocessedOpts.bind (gHashTableLookup · name) = some p := by
  cases h : ov.unprocessedOpts.bind (gHashTableLookup · name) <;> simp [lookupDistinct, h]

theorem lookupDistinct_error {ov : OptsVisitor} {name : String} {e : QError} :
    lookupDistinct ov name = .error e ↔
      e = .missingParameter name ∧ ov.unprocessedOpts.bind (gHashTableLookup · name) = none := by
  cases h : ov.unprocessedOpts.bind (gHashTableLookup · name) <;> simp [lookupDistinct, h, eq_comm]

theorem optsStartList_some {name : String} {ov ov' : OptsVisitor} {e : Option QError}
    (h : optsStartList name ov = some (e, ov')) :
    ov.listMode = .lmNone ∧
      ((∃ p, lookupDistinct ov name = .ok p ∧ e = none ∧
          ov' = { ov with repeatedOpts := some p, listMode := .lmStarted }) ∨
       (lookupDistinct ov name = .error (.missingParameter name) ∧
          e = some (.missingParameter name) ∧ ov' = { ov with repeatedOpts := none })) := by
  unfold optsStartList at h
  split_ifs at h with hm
  split at h <;> simp_all [lookupDistinct_error]

theorem popRepeated_some {ov ov' : OptsVisitor} {b : Bool} (h : popRepeated ov = some (b, ov')) :
    ∃ p o rest, ov.repeatedOpts = some p ∧ ov.queues.queue p = some (o :: rest) ∧
      (rest = [] ∧ b = false ∧ ov' = removeOpt { ov with queues := ov.queues.write p (some []) } o.name ∨
       rest ≠ [] ∧ b = true ∧ ov' = { ov with queues := ov.queues.write p (some rest) }) := by
  cases hr : ov.repeatedOpts with
  | none => simp [popRepeated, hr] at h
  | some p =>
    cases hq : ov.queues.queue p with
    | none => simp [popRepeated, hr, gQueuePopHead, hq] at h
    | some q =>
      cases q with
      | nil => simp [popRepeated, hr, gQueuePopHead, hq, gQueueIsEmpty, Heap.write] at h
      | cons o rest =>
        have hlt := lt_length_of_queue hq
        refine ⟨p, o, rest, rfl, hq, ?_⟩
        by_cases hrest : rest = []
        · subst hrest
          simp [popRepeated, hr, gQueuePopHead, hq, gQueueIsEmpty, hlt] at h
          exact .inl ⟨rfl, h.1, h.2.symm⟩
        · simp [popRepeated, hr, gQueuePopHead, hq, gQueueIsEmpty, hlt, hrest] at h
          exact .inr ⟨hrest, h.1, h.2.symm⟩

theorem optsNextList_some {ov ov' : OptsVisitor} {b : Bool} (h : optsNextList ov = some (b, ov')) :
    (ov.listMode = .lmStarted ∧ b = true ∧ ov' = { ov with listMode := .lmInProgress }) ∨
    (ov.listMode = .lmSignedInterval ∧ ov.rangeNext.toInt < ov.rangeLimit.toInt ∧ b = true ∧
      ov' = { ov with rangeNext := ov.rangeNext + 1 }) ∨
    (ov.listMode = .lmUnsignedInterval ∧ ov.rangeNext.toNat < ov.rangeLimit.toNat ∧ b = true ∧
      ov' = { ov with rangeNext := ov.rangeNext + 1 }) ∨
    (ov.listMode ≠ .lmNone ∧ ov.listMode ≠ .lmStarted ∧
      popRepeated { ov with listMode := .lmInProgress } = some (b, ov')) := by
  obtain ⟨root, depth, t, mode, rep, rn, rl, fake, qs⟩ := ov
  cases mode <;> simp only [optsNextList] at h
  · cases h
  · simp_all
  · simp_all
  · split_ifs at h <;> simp_all
  · split_ifs at h <;> simp_all

theorem optsEndList_some {ov ov' : OptsVisitor} (h : optsEndList ov = some ((), ov')) :
    ov.listMode ≠ .lmNone ∧ ov' = { ov with repeatedOpts := none, listMode := .lmNone } := by
  unfold optsEndList at h
  split_ifs at h with hm
  simp_all [eq_comm]

theorem lookupScalar_some {ov : OptsVisitor} {name : String} {r : Except QError (Option QemuOpt)}
    (h : lookupScalar ov name = some r) :
    (ov.listMode = .lmNone ∧
      ((lookupDistinct ov name = .error (.missingParameter name) ∧
          r = .error (.missingParameter name)) ∨
       ∃ p q, lookupDistinct ov name = .ok p ∧ ov.queues.queue p = some q ∧ r = .ok q.getLast?)) ∨
    (ov.listMode = .lmInProgress ∧
      ((ov.repeatedOpts = none ∧ r = .ok none) ∨
       ∃ p q, ov.repeatedOpts = some p ∧ ov.queues.queue p = some q ∧ r = .ok q.head?)) := by
  unfold lookupScalar at h
  split_ifs at h with h1 h2
  · refine .inl ⟨h1, ?_⟩
    split at h
    · simp_all [lookupDistinct_error]
    · simp only [gQueuePeekTail, Option.map_map, Option.map_eq_some'] at h
      obtain ⟨q, hq, rfl⟩ := h
      exact .inr ⟨_, q, ‹_›, hq, rfl⟩
  · refine .inr ⟨h2, ?_⟩
    split at h
    · simp_all
    · simp only [gQueuePeekHead, Option.map_map, Option.map_eq_some'] at h
      obtain ⟨q, hq, rfl⟩ := h
      exact .inr ⟨_, q, ‹_›, hq, rfl⟩

theorem lookupScalar_missing {ov : OptsVisitor} {name : String} (hm : ov.listMode = .lmNone)
    (hl : ov.unprocessedOpts.bind (gHashTableLookup · name) = none) :
    lookupScalar ov name = some (.error (.missingParameter name)) := by
  simp [lookupScalar, hm, lookupDistinct, hl]

theorem lookupScalar_found {ov : OptsVisitor} {name : String} {p : Nat} {q : List QemuOpt}
    (hm : ov.listMode = .lmNone) (hl : ov.unprocessedOpts.bind (gHashTableLookup · name) = some p)
    (hq : ov.queues.queue p = some q) : lookupScalar ov name = some (.ok q.getLast?) := by
  simp [lookupScalar, hm, lookupDistinct, hl, gQueuePeekTail, hq]

theorem depth_sub_one_pos {d : BitVec 32} : 0 < d - 1 ↔ d ≠ 1 := by
  constructor
  · rintro h rfl
    exact absurd h (by decide)
  · intro h
    bv_omega

theorem optsEndStruct_some {ov ov' : OptsVisitor} {e : Option QError}
    (h : optsEndStruct ov = some (e, ov')) :
    (ov.depth ≠ 1 ∧ e = none ∧ ov' = { ov with depth := ov.depth - 1 }) ∨
    (ov.depth = 1 ∧ leftover ov = some e ∧
      ov' = { ov with depth := 0, unprocessedOpts := none, fakeIdOpt := none,
                      queues := (ov.unprocessedOpts.map (gHashTableDestroy · ov.queues)).getD ov.queues }) := by
  unfold optsEndStruct at h
  split_ifs at h with h1
  · simp only [Option.some.injEq, Prod.mk.injEq] at h
    exact .inl ⟨depth_sub_one_pos.1 h1, h.1.symm, h.2.symm⟩
  · simp only [Option.map_eq_some', Prod.mk.injEq] at h
    obtain ⟨e', he, rfl, rfl⟩ := h
    have hd : ov.depth = 1 := not_not.1 (mt depth_sub_one_pos.2 h1)
    exact .inr ⟨hd, he, by rw [hd]; rfl⟩

theorem optsStartStruct_nested {ov : OptsVisitor} (hd : 0 < ov.depth) :
    optsStartStruct ov = some ((), { ov with depth := ov.depth + 1 }) := by
  unfold optsStartStruct
  rw [if_pos hd]

theorem optsEndStruct_of_leftover {ov : OptsVisitor} {e : Option QError} (hd : ov.depth = 1)
    (he : leftover ov = some e) :
    optsEndStruct ov = some (e, { ov with depth := 0, unprocessedOpts := none, fakeIdOpt := none,
                                          queues := (ov.unprocessedOpts.map
                                            (gHashTableDestroy · ov.queues)).getD ov.queues }) := by
  simp [optsEndStruct, hd, he]

theorem optsEndStruct_of_ne_one {ov : OptsVisitor} (hd : ov.depth ≠ 1) :
    optsEndStruct ov = some (none, { ov with depth := ov.depth - 1 }) := by
  unfold optsEndStruct
  rw [if_pos (depth_sub_one_pos.2 hd)]

end QemuOptsVisitor.Visitor
