import QemuOptsVisitor.ListTraversal

/-! Field visits on distinct names, in either order. Each field visit of a schema reads only its
name's queue and changes only its name's entry, besides `range_next` and `range_limit`: a list
traversal through an interval leaves them as the interval ended, and `opts_end_list` does not
reset them. So two visits on distinct names decode the same in either order and leave the same
visitor up to those two counters; the counters agree too when at most one of the visits reads
an interval, and no more than that: after two interval lists they are those of the list visited
last. -/

namespace QemuOptsVisitor.Commutation
open Glib Parsing Visitor Decoders RangeCheck BuildIndex Protocol Invariant Fields Expansion
  ListTraversal

inductive FieldVisit
  | str
  | bool
  | int
  | uint64
  | size
  | optional
  | intList (fuel : Nat)
  | uint64List (fuel : Nat)
deriving DecidableEq, Repr

inductive Outcome
  | str (d : Decoded String)
  | bool (d : Decoded Bool)
  | int (d : Decoded Int)
  | uint64 (d : Decoded (BitVec 64))
  | size (d : Decoded (BitVec 64))
  | optional (present : Bool)
  | intList (r : List Int × Option QError)
  | uint64List (r : List (BitVec 64) × Option QError)
deriving DecidableEq, Repr

def Outcome.consumes : Outcome → Bool
  | .str d => d.isStored
  | .bool d => d.isStored
  | .int d => d.isStored
  | .uint64 d => d.isStored
  | .size d => d.isStored
  | .optional _ => false
  | .intList r => r.2.isNone
  | .uint64List r => r.2.isNone

def runVisit (env : Env) : FieldVisit → String → VisitM Outcome
  | .str, n => fun ov => (optsTypeStr n ov).map fun (d, ov) => (.str d, ov)
  | .bool, n => fun ov => (optsTypeBool n ov).map fun (d, ov) => (.bool d, ov)
  | .int, n => fun ov => (optsTypeInt env n ov).map fun (d, ov) => (.int d, ov)
  | .uint64, n => fun ov => (optsTypeUint64 env n ov).map fun (d, ov) => (.uint64 d, ov)
  | .size, n => fun ov => (optsTypeSize env n ov).map fun (d, ov) => (.size d, ov)
  | .optional, n => fun ov => (optsStartOptional n ov).map fun (b, ov) => (.optional b, ov)
  | .intList fuel, n => fun ov =>
    (visitList (int64Kind env.rangeMax) n fuel ov).map fun (r, ov) => (.intList r, ov)
  | .uint64List fuel, n => fun ov =>
    (visitList (uint64Kind env) n fuel ov).map fun (r, ov) => (.uint64List r, ov)

def twoVisits (env : Env) (F : FieldVisit) (a : String) (G : FieldVisit) (b : String) :
    VisitM (Outcome × Outcome) := fun ov =>
  (runVisit env F a ov).bind fun (x, ov) => (runVisit env G b ov).map fun (y, ov) => ((x, y), ov)

def withoutRange (ov : OptsVisitor) : OptsVisitor := { ov with rangeNext := 0, rangeLimit := 0 }

def withRange (ov : OptsVisitor) (c : BitVec 64 × BitVec 64) : OptsVisitor :=
  { ov with rangeNext := c.1, rangeLimit := c.2 }

@[simp] theorem withRange_rangeNext (ov : OptsVisitor) (c : BitVec 64 × BitVec 64) :
    (withRange ov c).rangeNext = c.1 := rfl

@[simp] theorem withRange_rangeLimit (ov : OptsVisitor) (c : BitVec 64 × BitVec 64) :
    (withRange ov c).rangeLimit = c.2 := rfl

@[simp] theorem withRange_withRange (ov : OptsVisitor) (c c' : BitVec 64 × BitVec 64) :
    withRange (withRange ov c) c' = withRange ov c' := rfl

@[simp] theorem withRange_self (ov : OptsVisitor) : withRange ov (ov.rangeNext, ov.rangeLimit) = ov :=
  rfl

@[simp] theorem withoutRange_withRange (ov : OptsVisitor) (c : BitVec 64 × BitVec 64) :
    withoutRange (withRange ov c) = withoutRange ov := rfl

/-! What one visit does to the index, from its name's queue alone. -/

/-- What a field visit does to its name's entry. -/
inductive Edit
  | keep
  | drop
  | cut (left : List QemuOpt)

def Edit.table : Edit → String → Table → Table
  | .drop, n, t => t.filter (·.1 ≠ n)
  | _, _, t => t

def Edit.heap : Edit → Nat → Heap QemuOpt → Heap QemuOpt
  | .keep, _, h => h
  | .drop, p, h => h.write p none
  | .cut left, p, h => h.write p (some left)

def applyEdit (ov : OptsVisitor) (n : String) : Edit → OptsVisitor
  | .keep => ov
  | .drop => removeOpt ov n
  | .cut left =>
    match ov.unprocessedOpts.bind (gHashTableLookup · n) with
    | some p => { ov with queues := ov.queues.write p (some left) }
    | none => ov

def scalarEffect {α : Type} (convert : Option String → Except String α) (n : String) :
    Option (List QemuOpt) → Decoded α × Edit
  | none => (.failed (.missingParameter n), .keep)
  | some q =>
    match q.getLast? with
    | none => (.untouched, .keep)
    | some o =>
      match convert o.str with
      | .ok v => (.stored v, .drop)
      | .error expected => (.failed (.invalidParameterValue n expected), .keep)

def listEffect {V : Type} (k : IntegerKind V) (n : String) (fuel : Nat) :
    Option (List QemuOpt) → Option ((List V × Option QError) × Edit)
  | none => some (([], some (.missingParameter n)), .keep)
  | some q =>
    if (walk (kindExpand k) q).1.length + 1 ≤ fuel then
      some (((walk (kindExpand k) q).1,
          (walk (kindExpand k) q).2.map fun _ => .invalidParameterValue n k.valueOrRange),
        match (walk (kindExpand k) q).2 with
        | none => .drop
        | some left => .cut left)
    else none

/-- A field visit on `n`, from `n`'s queue alone. -/
def visitEffect (env : Env) : FieldVisit → String → Option (List QemuOpt) →
    Option (Outcome × Edit)
  | .str, n, q =>
    let r := scalarEffect (fun s => .ok (s.getD "")) n q
    some (.str r.1, r.2)
  | .bool, n, q =>
    let r := scalarEffect parseBool n q
    some (.bool r.1, r.2)
  | .int, n, q =>
    let r := scalarEffect (wholeInteger (int64Kind env.rangeMax)) n q
    some (.int r.1, r.2)
  | .uint64, n, q =>
    let r := scalarEffect (wholeInteger (uint64Kind env)) n q
    some (.uint64 r.1, r.2)
  | .size, n, q =>
    let r := scalarEffect (sizeValue env) n q
    some (.size r.1, r.2)
  | .optional, _, q => some (.optional q.isSome, .keep)
  | .intList fuel, n, q =>
    (listEffect (int64Kind env.rangeMax) n fuel q).map fun r => (.intList r.1, r.2)
  | .uint64List fuel, n, q =>
    (listEffect (uint64Kind env) n fuel q).map fun r => (.uint64List r.1, r.2)

def listRange {V : Type} (k : IntegerKind V) :
    Option (List QemuOpt) → BitVec 64 × BitVec 64 → BitVec 64 × BitVec 64
  | none, c => c
  | some q, c => walkRange k q c

def visitRange (env : Env) : FieldVisit → Option (List QemuOpt) → BitVec 64 × BitVec 64 →
    BitVec 64 × BitVec 64
  | .intList _, q, c => listRange (int64Kind env.rangeMax) q c
  | .uint64List _, q, c => listRange (uint64Kind env) q c
  | _, _, c => c

def readsInterval (env : Env) : FieldVisit → Option (List QemuOpt) → Bool
  | .intList _, some q => intervalRead (int64Kind env.rangeMax) q
  | .uint64List _, some q => intervalRead (uint64Kind env) q
  | _, _ => false

theorem visitRange_of_readsInterval {env : Env} {F : FieldVisit} {q : Option (List QemuOpt)}
    (h : readsInterval env F q = false) (c : BitVec 64 × BitVec 64) : visitRange env F q c = c := by
  cases F <;> cases q <;>
    simp_all [visitRange, readsInterval, listRange, walkRange_of_intervalRead]

def Edit.Fits : Edit → Option (List QemuOpt) → Prop
  | .cut left, q => ∃ q', q = some q' ∧ left ≠ [] ∧ left <:+ q'
  | _, _ => True

/-- A visitor with no list open, whose table agrees with its heap. -/
structure Idle (ov : OptsVisitor) : Prop where
  mode : ov.listMode = .lmNone
  repeated : ov.repeatedOpts = none
  table : ∀ t, ov.unprocessedOpts = some t → TableOk ov.optsRoot t ov.queues

theorem Idle.withRange {ov : OptsVisitor} (hi : Idle ov) (c : BitVec 64 × BitVec 64) :
    Idle (withRange ov c) := ⟨hi.mode, hi.repeated, hi.table⟩

@[simp] theorem queueOf_withRange (ov : OptsVisitor) (c : BitVec 64 × BitVec 64) (n : String) :
    (withRange ov c).queueOf n = ov.queueOf n := rfl

section Edits

variable {ov : OptsVisitor} {t : Table} {n : String} {p : Nat}

theorem applyEdit_of_lookup (ht : ov.unprocessedOpts = some t) (hl : gHashTableLookup t n = some p)
    (e : Edit) :
    applyEdit ov n e =
      { ov with unprocessedOpts := some (e.table n t), queues := e.heap p ov.queues } := by
  cases ov
  cases e <;> simp_all [applyEdit, removeOpt, gHashTableRemove, gQueueFree, Edit.table, Edit.heap]

theorem applyEdit_of_lookup_none (ht : ov.unprocessedOpts = some t)
    (hl : gHashTableLookup t n = none) (e : Edit) : applyEdit ov n e = ov := by
  cases e with
  | keep => rfl
  | drop => exact removeOpt_of_lookup_none ht hl
  | cut left => simp [applyEdit, ht, hl]

theorem applyEdit_of_table_none (ht : ov.unprocessedOpts = none) (e : Edit) :
    applyEdit ov n e = ov := by
  cases e <;> simp [applyEdit, removeOpt, ht]

theorem applyEdit_withRange (ov : OptsVisitor) (n : String) (e : Edit) (c : BitVec 64 × BitVec 64) :
    applyEdit (withRange ov c) n e = withRange (applyEdit ov n e) c := by
  obtain ⟨root, depth, table, mode, rep, rn, rl, fake, qs⟩ := ov
  cases e with
  | keep => rfl
  | drop => cases table <;> rfl
  | cut left =>
    cases table with
    | none => rfl
    | some t => cases h : gHashTableLookup t n <;> simp [applyEdit, withRange, h]

theorem Edit.lookup_table (e : Edit) {m : String} (hm : m ≠ n) (t : Table) :
    gHashTableLookup (e.table n t) m = gHashTableLookup t m := by
  cases e
  · rfl
  · exact lookup_filter_ne hm
  · rfl

theorem Edit.table_comm (e e' : Edit) (a b : String) (t : Table) :
    e'.table b (e.table a t) = e.table a (e'.table b t) := by
  cases e <;> cases e' <;> simp [Edit.table, Bool.and_comm]

theorem Edit.heap_comm (e e' : Edit) {pa pb : Nat} (hp : pa ≠ pb) (h : Heap QemuOpt) :
    e'.heap pb (e.heap pa h) = e.heap pa (e'.heap pb h) := by
  cases e <;> cases e' <;> simp only [Edit.heap] <;> exact write_comm _ _ _ hp

end Edits

section Idle

variable {ov : OptsVisitor} {n : String}

theorem queueOf_cases (hi : Idle ov) (n : String) :
    (ov.unprocessedOpts.bind (gHashTableLookup · n) = none ∧ ov.queueOf n = none) ∨
    ∃ t p q, ov.unprocessedOpts = some t ∧ gHashTableLookup t n = some p ∧
      ov.queues.queue p = some q ∧ q ≠ [] ∧ q <:+ occurrences ov.optsRoot n ∧
      ov.queueOf n = some q := by
  cases ht : ov.unprocessedOpts with
  | none => exact .inl ⟨rfl, by simp [OptsVisitor.queueOf, ht]⟩
  | some t =>
    cases hl : gHashTableLookup t n with
    | none => exact .inl ⟨by simp [hl], by simp [OptsVisitor.queueOf, ht, hl]⟩
    | some p =>
      obtain ⟨q, hq, hne, hs⟩ := (hi.table t ht).lookup hl
      exact .inr ⟨t, p, q, rfl, hl, hq, hne, hs, by simp [OptsVisitor.queueOf, ht, hl, hq]⟩

theorem typeScalar_effect {α : Type} (hi : Idle ov) (convert : Option String → Except String α)
    (n : String) :
    typeScalar convert n ov = some ((scalarEffect convert n (ov.queueOf n)).1,
      applyEdit ov n (scalarEffect convert n (ov.queueOf n)).2) := by
  rcases queueOf_cases hi n with ⟨hl, hq⟩ | ⟨t, p, q, ht, hl, hq, hne, hs, hqo⟩
  · rw [typeScalar_of_error (lookupScalar_missing hi.mode hl), hq]
    rfl
  · obtain ⟨o, hlast⟩ := Option.isSome_iff_exists.1
      (Option.isSome_iff_ne_none.2 (mt List.getLast?_eq_none_iff.1 hne))
    have ho := name_of_mem_suffix hs (List.mem_of_getLast?_eq_some hlast)
    have hsc := lookupScalar_found hi.mode (by rw [ht]; exact hl) hq
    rw [hlast] at hsc
    rw [typeScalar_decodeLast hi.mode hsc ho, hqo]
    simp only [decodeLast, scalarEffect, hlast]
    cases convert o.str <;> rfl

theorem visitList_effect {V : Type} {k : IntegerKind V} {M : Nat} (hk : Lawful k M) (hi : Idle ov)
    (n : String) (fuel : Nat) : visitList k n fuel ov =
      (listEffect k n fuel (ov.queueOf n)).map fun (r, e) =>
        (r, withRange (applyEdit ov n e) (listRange k (ov.queueOf n) (ov.rangeNext, ov.rangeLimit))) := by
  rcases queueOf_cases hi n with ⟨hl, hq⟩ | ⟨t, p, q, ht, hl, hq, hne, hs, hqo⟩
  · have hs : optsStartList n ov = some (some (.missingParameter n), ov) := by
      unfold optsStartList
      rw [if_neg (by simp [hi.mode]), lookupDistinct_error.2 ⟨rfl, hl⟩]
      simp only [Option.some.injEq, Prod.mk.injEq, true_and]
      rw [← hi.repeated]
    simp [visitList, visitListWith, hs, hq, listEffect, applyEdit, listRange]
  · have hrun := visitList_run hk hi.mode hi.repeated ht hl hq hne
      fun o ho => name_of_mem_suffix hs ho
    rw [hrun fuel, hqo, listEffect]
    split_ifs
    · cases hw : (walk (kindExpand k) q).2 with
      | none => simp [hw, listEnd, applyEdit, listRange, withRange]
      | some left => simp [hw, listEnd, applyEdit, ht, hl, listRange, withRange]
    · rfl

/-- A field visit's outcome, edit and range counters come from its name's queue alone. -/
theorem runVisit_effect (env : Env) (hi : Idle ov) (F : FieldVisit) (n : String) :
    runVisit env F n ov = (visitEffect env F n (ov.queueOf n)).map fun (x, e) =>
      (x, withRange (applyEdit ov n e) (visitRange env F (ov.queueOf n) (ov.rangeNext, ov.rangeLimit))) := by
  have scalar : ∀ {α : Type} (convert : Option String → Except String α),
      typeScalar convert n ov = some ((scalarEffect convert n (ov.queueOf n)).1,
        withRange (applyEdit ov n (scalarEffect convert n (ov.queueOf n)).2)
          (ov.rangeNext, ov.rangeLimit)) := fun convert => by
    rw [typeScalar_effect hi convert n, ← applyEdit_withRange, withRange_self]
  cases F with
  | str => simp [runVisit, optsTypeStr, scalar, visitEffect, visitRange]
  | bool => simp [runVisit, optsTypeBool, scalar, visitEffect, visitRange]
  | int =>
    simp [runVisit, optsTypeInt, @typeInteger_lmNone _ (int64Kind env.rangeMax) n ov hi.mode nofun,
      scalar, visitEffect, visitRange]
  | uint64 =>
    simp [runVisit, optsTypeUint64, @typeInteger_lmNone _ (uint64Kind env) n ov hi.mode nofun,
      scalar, visitEffect, visitRange]
  | size => simp [runVisit, optsTypeSize, scalar, visitEffect, visitRange]
  | optional =>
    show Option.map _ (optsStartOptional n ov) = some (Outcome.optional (ov.queueOf n).isSome, ov)
    rcases queueOf_cases hi n with ⟨hl, hq⟩ | ⟨t, p, q, ht, hl, -, -, -, hqo⟩
    · simp [optsStartOptional, hi.mode, hl, hq]
    · simp [optsStartOptional, hi.mode, ht, hl, hqo]
  | intList fuel =>
    simp [runVisit, visitList_effect (int64Kind_lawful env.rangeMax_le) hi n fuel, visitEffect,
      visitRange, Option.map_map, Function.comp_def]
  | uint64List fuel =>
    simp [runVisit, visitList_effect (uint64Kind_lawful env) hi n fuel, visitEffect, visitRange,
      Option.map_map, Function.comp_def]

theorem walk_fits {V : Type} {expand : QemuOpt → Option (List V)} {q left : List QemuOpt}
    (h : (walk expand q).2 = some left) : left ≠ [] ∧ left <:+ q := by
  induction q with
  | nil => cases h
  | cons o q ih =>
    simp only [walk] at h
    split at h
    · obtain ⟨hne, hs⟩ := ih h
      exact ⟨hne, hs.trans (List.suffix_cons o q)⟩
    · cases h
      exact ⟨List.cons_ne_nil _ _, List.suffix_refl _⟩

theorem scalarEffect_fits {α : Type} (convert : Option String → Except String α) (n : String)
    (q : Option (List QemuOpt)) : (scalarEffect convert n q).2.Fits q := by
  unfold scalarEffect
  split
  · trivial
  · split
    · trivial
    · split <;> trivial

theorem listEffect_fits {V : Type} {k : IntegerKind V} {fuel : Nat} {q : Option (List QemuOpt)}
    {r : List V × Option QError} {e : Edit} (h : listEffect k n fuel q = some (r, e)) :
    e.Fits q := by
  cases q with
  | none =>
    simp only [listEffect, Option.some.injEq, Prod.mk.injEq] at h
    rw [← h.2]
    trivial
  | some q =>
    simp only [listEffect] at h
    split_ifs at h
    simp only [Option.some.injEq, Prod.mk.injEq] at h
    rw [← h.2]
    split
    · trivial
    · exact ⟨q, rfl, walk_fits ‹_›⟩

theorem visitEffect_fits {env : Env} {F : FieldVisit} {q : Option (List QemuOpt)} {x : Outcome}
    {e : Edit} (h : visitEffect env F n q = some (x, e)) : e.Fits q := by
  cases F <;> simp only [visitEffect, Option.some.injEq, Prod.mk.injEq, Option.map_eq_some'] at h
  case str | bool | int | uint64 | size =>
    rw [← h.2]
    exact scalarEffect_fits _ _ _
  case optional =>
    rw [← h.2]
    trivial
  case intList | uint64List =>
    obtain ⟨⟨r, e'⟩, hr, -, rfl⟩ := h
    exact listEffect_fits hr

theorem applyEdit_of_bind_none (hl : ov.unprocessedOpts.bind (gHashTableLookup · n) = none)
    (e : Edit) : applyEdit ov n e = ov := by
  cases ht : ov.unprocessedOpts with
  | none => exact applyEdit_of_table_none ht e
  | some t => exact applyEdit_of_lookup_none ht (by simpa [ht] using hl) e

theorem bind_lookup_applyEdit {m : String} (hmn : m ≠ n) (e : Edit) :
    (applyEdit ov n e).unprocessedOpts.bind (gHashTableLookup · m) =
      ov.unprocessedOpts.bind (gHashTableLookup · m) := by
  cases ht : ov.unprocessedOpts with
  | none => rw [applyEdit_of_table_none ht, ht]
  | some t =>
    cases hl : gHashTableLookup t n with
    | none => rw [applyEdit_of_lookup_none ht hl, ht]
    | some p => simp [applyEdit_of_lookup ht hl, Edit.lookup_table e hmn]

theorem idle_applyEdit (hi : Idle ov) {e : Edit} (he : e.Fits (ov.queueOf n)) :
    Idle (applyEdit ov n e) := by
  rcases queueOf_cases hi n with ⟨hl, -⟩ | ⟨t, p, q, ht, hl, hq, -, hs, hqo⟩
  · rw [applyEdit_of_bind_none hl]
    exact ⟨hi.mode, hi.repeated, hi.table⟩
  · rw [applyEdit_of_lookup ht hl]
    refine ⟨hi.mode, hi.repeated, fun t' ht' => ?_⟩
    cases ht'
    have ok := hi.table t ht
    cases e with
    | keep => exact ok
    | drop => exact ok.remove hl
    | cut left =>
      obtain ⟨q', hq', hne', hs'⟩ := he
      rw [hqo] at hq'
      cases hq'
      exact ok.write_owned (ok.owner hl) (lt_length_of_queue hq) hne' (hs'.trans hs)

theorem queueOf_applyEdit_ne (hi : Idle ov) {m : String} (hmn : m ≠ n) (e : Edit) :
    (applyEdit ov n e).queueOf m = ov.queueOf m := by
  rcases queueOf_cases hi n with ⟨hl, -⟩ | ⟨t, p, q, ht, hl, -, -, -, -⟩
  · rw [applyEdit_of_bind_none hl]
  · rw [applyEdit_of_lookup ht hl]
    simp only [OptsVisitor.queueOf, ht, Option.some_bind, Edit.lookup_table e hmn]
    cases hm : gHashTableLookup t m with
    | none => rfl
    | some p' =>
      have hne : p ≠ p' := (hi.table t ht).addr_ne hl (lookup_mem hm) hmn
      cases e <;> simp [Edit.heap, queue_write_ne _ _ hne]

theorem applyEdit_comm (hi : Idle ov) {a b : String} (hab : a ≠ b) (e e' : Edit) :
    applyEdit (applyEdit ov a e) b e' = applyEdit (applyEdit ov b e') a e := by
  rcases queueOf_cases hi a with ⟨ha, -⟩ | ⟨t, pa, -, ht, ha, -, -, -, -⟩
  · rw [applyEdit_of_bind_none ha,
      applyEdit_of_bind_none ((bind_lookup_applyEdit hab e').trans ha)]
  rcases queueOf_cases hi b with ⟨hb, -⟩ | ⟨t', pb, -, ht', hb, -, -, -, -⟩
  · rw [applyEdit_of_bind_none hb,
      applyEdit_of_bind_none ((bind_lookup_applyEdit (Ne.symm hab) e).trans hb)]
  cases ht.symm.trans ht'
  have hpab : pa ≠ pb := (hi.table t ht).addr_ne ha (lookup_mem hb) (Ne.symm hab)
  rw [applyEdit_of_lookup ht ha, applyEdit_of_lookup ht hb,
    applyEdit_of_lookup rfl (by rw [Edit.lookup_table e (Ne.symm hab)]; exact hb),
    applyEdit_of_lookup rfl (by rw [Edit.lookup_table e' hab]; exact ha),
    Edit.table_comm e e', Edit.heap_comm e e' hpab]

end Idle

section Reachable

variable {env : Env} {opts : QemuOpts} {ov : OptsVisitor} {g : Caller}

theorem idle_of_reachable (h : Reachable env opts ov g) (hm : ov.listMode = .lmNone) : Idle ov :=
  have hi := (reachable_inv h).1
  ⟨hm, hi.idle_repeated hm, hi.table⟩

theorem twoVisits_effect (env : Env) (hi : Idle ov) {a b : String} (hab : a ≠ b)
    (F G : FieldVisit) :
    twoVisits env F a G b ov =
      (visitEffect env F a (ov.queueOf a)).bind fun (x, e) =>
        (visitEffect env G b (ov.queueOf b)).map fun (y, e') =>
          ((x, y), withRange (applyEdit (applyEdit ov a e) b e')
            (visitRange env G (ov.queueOf b)
              (visitRange env F (ov.queueOf a) (ov.rangeNext, ov.rangeLimit)))) := by
  simp only [twoVisits, runVisit_effect env hi F a]
  cases hx : visitEffect env F a (ov.queueOf a) with
  | none => rfl
  | some xe =>
    obtain ⟨x, e⟩ := xe
    have hi1 := (idle_applyEdit hi (visitEffect_fits hx)).withRange
      (visitRange env F (ov.queueOf a) (ov.rangeNext, ov.rangeLimit))
    simp only [Option.map_some', Option.some_bind, runVisit_effect env hi1 G b, queueOf_withRange,
      queueOf_applyEdit_ne hi (Ne.symm hab), withRange_rangeNext, withRange_rangeLimit]
    cases visitEffect env G b (ov.queueOf b) with
    | none => rfl
    | some ye => simp [applyEdit_withRange]

/-- When at most one visit reads an interval, the two orders agree exactly. -/
theorem reachable_visits_commute_exact (h : Reachable env opts ov g) (hm : ov.listMode = .lmNone)
    {a b : String} (hab : a ≠ b) (F G : FieldVisit)
    (hr : readsInterval env F (ov.queueOf a) = false ∨ readsInterval env G (ov.queueOf b) = false) :
    twoVisits env F a G b ov =
      (twoVisits env G b F a ov).map fun ((y, x), s) => ((x, y), s) := by
  have idle := idle_of_reachable h hm
  have hc : ∀ c, visitRange env G (ov.queueOf b) (visitRange env F (ov.queueOf a) c) =
      visitRange env F (ov.queueOf a) (visitRange env G (ov.queueOf b) c) := fun c => by
    rcases hr with hr | hr <;> simp only [visitRange_of_readsInterval hr]
  rw [twoVisits_effect env idle hab, twoVisits_effect env idle (Ne.symm hab)]
  cases visitEffect env F a (ov.queueOf a) <;> cases visitEffect env G b (ov.queueOf b) <;>
    simp [applyEdit_comm idle hab, hc]

theorem reachable_visits_commute_exact_sample :
    ∃ ov, optsStartStruct (optsVisitorNew ⟨[⟨"a", some "1-2"⟩, ⟨"b", some "x"⟩], none⟩) =
        some ((), ov) ∧
      twoVisits specEnv (.intList 4) "a" .str "b" ov =
        (twoVisits specEnv .str "b" (.intList 4) "a" ov).map fun ((y, x), s) => ((x, y), s) := by
  refine ⟨_, rfl, ?_⟩
  exact reachable_visits_commute_exact
    (.step (@Reachable.init specEnv ⟨[⟨"a", some "1-2"⟩, ⟨"b", some "x"⟩], none⟩)
      (.startStruct rfl)) rfl (by decide) _ _ (.inr rfl)

end Reachable

end QemuOptsVisitor.Commutation
