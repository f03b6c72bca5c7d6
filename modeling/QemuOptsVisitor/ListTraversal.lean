import QemuOptsVisitor.Expansion

/-! A whole traversal of one name's list: `opts_start_list`, then `opts_next_list` and the
element decoder on each element until `opts_next_list` returns NULL or the decoder fails, then
`opts_end_list`. With an integer decoder the traversal yields the elements of the name's
occurrences in source order, intervals expanded, one call of `opts_next_list` per element and one
more, and stops at the first occurrence that has none; with a scalar decoder (string, boolean or
size) each occurrence is one element. -/

namespace QemuOptsVisitor.ListTraversal
open Glib Parsing Visitor Decoders RangeCheck Protocol Invariant Expansion

def decodeThen {V : Type} (decode : VisitM (Decoded V))
    (rest : VisitM (List V × Option QError)) : VisitM (List V × Option QError) := fun ov =>
  (decode ov).bind fun (d, ov) =>
    match d with
    | .stored v => (rest ov).map fun ((vs, e), ov) => ((v :: vs, e), ov)
    | .failed e => some (([], some e), ov)
    | .untouched => rest ov

/-- The element loop, for at most `fuel` calls of `opts_next_list`. -/
def visitElements {V : Type} (decode : VisitM (Decoded V)) :
    Nat → VisitM (List V × Option QError)
  | 0 => fun _ => none
  | fuel + 1 => fun ov =>
    (optsNextList ov).bind fun (more, ov) =>
      if more then decodeThen decode (visitElements decode fuel) ov else some (([], none), ov)

/-- Modelled from the spec: the generated list visitor, absent here, over `decode`. -/
def visitListWith {V : Type} (decode : VisitM (Decoded V)) (name : String) (fuel : Nat) :
    VisitM (List V × Option QError) := fun ov =>
  (optsStartList name ov).bind fun (err, ov) =>
    match err with
    | some e => some (([], some e), ov)
    | none => (visitElements decode fuel ov).bind fun (r, ov) =>
      (optsEndList ov).map fun ((), ov) => (r, ov)

def visitList {V : Type} (k : IntegerKind V) (name : String) (fuel : Nat) :
    VisitM (List V × Option QError) :=
  visitListWith (typeInteger k name) name fuel

def Finishes {V : Type} (decode : VisitM (Decoded V)) (ov : OptsVisitor) (m : Nat)
    (r : (List V × Option QError) × OptsVisitor) : Prop :=
  ∀ fuel, visitElements decode fuel ov = if m ≤ fuel then some r else none

section Loop

variable {V : Type} {decode : VisitM (Decoded V)}

theorem finishes_stop {ov ov' : OptsVisitor} (h : optsNextList ov = some (false, ov')) :
    Finishes decode ov 1 (([], none), ov') := by
  intro fuel
  cases fuel with
  | zero => rfl
  | succ fuel => simp [visitElements, h]

theorem finishes_fail {ov ov' ov'' : OptsVisitor} {e : QError}
    (h : optsNextList ov = some (true, ov')) (hd : decode ov' = some (.failed e, ov'')) :
    Finishes decode ov 1 (([], some e), ov'') := by
  intro fuel
  cases fuel with
  | zero => rfl
  | succ fuel => simp [visitElements, h, decodeThen, hd]

theorem finishes_cons {ov ov' ov'' ovE : OptsVisitor} {v : V} {m : Nat} {vs : List V}
    {e : Option QError} (h : optsNextList ov = some (true, ov'))
    (hd : decode ov' = some (.stored v, ov''))
    (hf : Finishes decode ov'' m ((vs, e), ovE)) :
    Finishes decode ov (m + 1) ((v :: vs, e), ovE) := by
  intro fuel
  cases fuel with
  | zero => rfl
  | succ fuel =>
    simp only [visitElements, h, decodeThen, hd, hf fuel, Option.some_bind, if_true]
    by_cases hm : m ≤ fuel <;> simp [hm]

end Loop

def listState (ov : OptsVisitor) (p : Nat) (mode : ListMode) (q : List QemuOpt)
    (next limit : BitVec 64) : OptsVisitor :=
  { ov with listMode := mode, repeatedOpts := some p, queues := ov.queues.write p (some q),
            rangeNext := next, rangeLimit := limit }

/-- The elements `expand` gives along `q`, and the queue left at the first occurrence with none. -/
def walk {V : Type} (expand : QemuOpt → Option (List V)) :
    List QemuOpt → List V × Option (List QemuOpt)
  | [] => ([], none)
  | o :: q =>
    match expand o with
    | some vs => (vs ++ (walk expand q).1, (walk expand q).2)
    | none => ([], some (o :: q))

def loopEnd (ov : OptsVisitor) (p : Nat) (n : String) :
    Option (List QemuOpt) → BitVec 64 → BitVec 64 → OptsVisitor
  | none, next, limit => removeOpt (listState ov p .lmInProgress [] next limit) n
  | some left, next, limit => listState ov p .lmInProgress left next limit

def walkRange {V : Type} (k : IntegerKind V) :
    List QemuOpt → BitVec 64 × BitVec 64 → BitVec 64 × BitVec 64
  | [], c => c
  | o :: q, c =>
    match reading k o with
    | some (.value _) => walkRange k q c
    | some (.interval _ b) => walkRange k q (k.store b, k.store b)
    | _ => c

def intervalRead {V : Type} (k : IntegerKind V) : List QemuOpt → Bool
  | [] => false
  | o :: q =>
    match reading k o with
    | some (.value _) => intervalRead k q
    | some (.interval _ _) => true
    | _ => false

theorem walkRange_of_intervalRead {V : Type} {k : IntegerKind V} {q : List QemuOpt}
    (h : intervalRead k q = false) (c : BitVec 64 × BitVec 64) : walkRange k q c = c := by
  induction q with
  | nil => rfl
  | cons o q ih =>
    cases hr : reading k o with
    | none => simp [walkRange, hr]
    | some r => cases r <;> simp_all [walkRange, intervalRead]

def LoopResult {V : Type} (k : IntegerKind V) (m : String) (ov : OptsVisitor) (p : Nat)
    (n : String) (s : OptsVisitor) (q : List QemuOpt) (c : BitVec 64 × BitVec 64) : Prop :=
  Finishes (typeInteger k m) s ((walk (kindExpand k) q).1.length + 1)
    (((walk (kindExpand k) q).1,
      (walk (kindExpand k) q).2.map fun _ => .invalidParameterValue n k.valueOrRange),
     loopEnd ov p n (walk (kindExpand k) q).2 (walkRange k q c).1 (walkRange k q c).2)

@[simp] theorem listState_listMode (ov : OptsVisitor) (p : Nat) (mode : ListMode)
    (q : List QemuOpt) (next limit : BitVec 64) : (listState ov p mode q next limit).listMode = mode :=
  rfl

@[simp] theorem listState_rangeNext (ov : OptsVisitor) (p : Nat) (mode : ListMode)
    (q : List QemuOpt) (next limit : BitVec 64) : (listState ov p mode q next limit).rangeNext = next :=
  rfl

@[simp] theorem listState_rangeLimit (ov : OptsVisitor) (p : Nat) (mode : ListMode)
    (q : List QemuOpt) (next limit : BitVec 64) :
    (listState ov p mode q next limit).rangeLimit = limit :=
  rfl

theorem add_one_add_ofNat (x : BitVec 64) (i : Nat) :
    x + BitVec.ofNat 64 1 + BitVec.ofNat 64 i = x + BitVec.ofNat 64 (i + 1) := by
  rw [BitVec.add_assoc, BitVec.ofNat_add_ofNat, Nat.add_comm 1 i]

section Run

variable {V : Type} {k : IntegerKind V} {M : Nat} {ov0 : OptsVisitor} {p : Nat} {n m : String}

theorem popRepeated_last (hp : p < ov0.queues.length) (o : QemuOpt) (next limit : BitVec 64) :
    popRepeated (listState ov0 p .lmInProgress [o] next limit) =
      some (false, removeOpt (listState ov0 p .lmInProgress [] next limit) o.name) := by
  simp [popRepeated, listState, gQueuePopHead, gQueueIsEmpty, hp]

theorem popRepeated_cons (hp : p < ov0.queues.length) (o o' : QemuOpt) (q : List QemuOpt)
    (next limit : BitVec 64) :
    popRepeated (listState ov0 p .lmInProgress (o :: o' :: q) next limit) =
      some (true, listState ov0 p .lmInProgress (o' :: q) next limit) := by
  simp [popRepeated, listState, gQueuePopHead, gQueueIsEmpty, hp]

theorem interval_run (hk : IsInterval k.interval) {q : List QemuOpt} {limit : BitVec 64} (d : Nat) :
    ∀ next, intervalBounded M k.interval next limit → span k.interval next limit = d →
      ∀ j vs e ovE, Finishes (typeInteger k m) (listState ov0 p k.interval q limit limit) j
          ((vs, e), ovE) →
        Finishes (typeInteger k m) (listState ov0 p k.interval q next limit) (d + j)
          (((List.range d).map (fun i => k.load (next + BitVec.ofNat 64 (i + 1))) ++ vs, e),
            ovE) := by
  induction d with
  | zero =>
    intro next hb hs j vs e ovE hf
    rw [eq_of_span_eq_zero hk hb hs]
    simpa using hf
  | succ d ih =>
    intro next hb hs j vs e ovE hf
    have hpos : 0 < span k.interval next limit := by omega
    have hnext : optsNextList (listState ov0 p k.interval q next limit) =
        some (true, listState ov0 p k.interval q (next + 1) limit) := by
      rw [optsNextList_interval hk]
      exact (if_pos hpos).trans rfl
    have := finishes_cons hnext (typeInteger_interval rfl)
      (ih (next + 1) (bounded_add_one hk hb hpos) (by rw [span_add_one hk hpos]; omega) j vs e ovE
        hf)
    rw [show d + 1 + j = d + j + 1 by omega, List.range_succ_eq_map, List.map_cons,
      List.map_map, List.cons_append]
    simpa [Function.comp_def, add_one_add_ofNat] using this

theorem decode_run (hk : Lawful k M) (hp : p < ov0.queues.length) {o : QemuOpt}
    {q : List QemuOpt} (ho : o.name = n)
    (hafter : ∀ s rn rl, optsNextList s = popRepeated (listState ov0 p .lmInProgress (o :: q) rn rl) →
      LoopResult k m ov0 p n s q (rn, rl))
    {s : OptsVisitor} {next limit : BitVec 64}
    (hs : optsNextList s = some (true, listState ov0 p .lmInProgress (o :: q) next limit)) :
    LoopResult k m ov0 p n s (o :: q) (next, limit) := by
  have hint : IsInterval k.interval := hk.interval
  have hdec := @typeInteger_inProgress V k m (listState ov0 p .lmInProgress (o :: q) next limit) p o
    q (by rcases hint with h | h <;> simp [h]) rfl rfl (queue_write_self _ _ _ hp)
  obtain ⟨rd, hrd⟩ := Option.isSome_iff_exists.1 (reading_isSome hk o)
  rw [hrd, Option.map_some'] at hdec
  cases rd with
  | value v =>
    have hw : walk (kindExpand k) (o :: q) =
        (v :: (walk (kindExpand k) q).1, (walk (kindExpand k) q).2) := by
      simp [walk, kindExpand, hrd]
    rw [LoopResult, hw, show walkRange k (o :: q) (next, limit) = walkRange k q (next, limit) by
      simp [walkRange, hrd]]
    exact finishes_cons hs hdec (hafter _ next limit rfl)
  | interval a b =>
    have hw : walk (kindExpand k) (o :: q) =
        (intervalVals k a b ++ (walk (kindExpand k) q).1, (walk (kindExpand k) q).2) := by
      simp [walk, kindExpand, hrd]
    obtain ⟨rest, hpa, hpb, hok⟩ := reading_interval hrd
    have hrun := @interval_run V k M ov0 p m hint (o :: q) (k.store b) _ (k.store a)
      (hk.bounded _ _ _ _ hpa hpb hok) rfl
    have hf := hafter (listState ov0 p k.interval (o :: q) (k.store b) (k.store b)) (k.store b)
      (k.store b) (by rw [optsNextList_interval hint, if_neg (by simp [listState, span_self])]; rfl)
    have := finishes_cons hs hdec (hrun _ _ _ _ hf)
    rw [LoopResult, hw, show walkRange k (o :: q) (next, limit) =
      walkRange k q (k.store b, k.store b) by simp [walkRange, hrd], intervalVals,
      List.range_succ_eq_map, List.map_cons, List.map_map]
    simpa [Function.comp_def, Nat.add_assoc, Nat.add_comm 1] using this
  | invalid =>
    have hw : walk (kindExpand k) (o :: q) = ([], some (o :: q)) := by
      simp [walk, kindExpand, hrd]
    rw [LoopResult, hw, show walkRange k (o :: q) (next, limit) = (next, limit) by
      simp [walkRange, hrd]]
    simpa [ho] using finishes_fail hs hdec

theorem pop_run_of (R : OptsVisitor → List QemuOpt → BitVec 64 → BitVec 64 → Prop)
    (hp : p < ov0.queues.length)
    (hnil : ∀ s rn rl, optsNextList s =
      some (false, removeOpt (listState ov0 p .lmInProgress [] rn rl) n) → R s [] rn rl)
    (hcons : ∀ o q, o.name = n →
      (∀ s rn rl, optsNextList s = popRepeated (listState ov0 p .lmInProgress (o :: q) rn rl) →
        R s q rn rl) →
      ∀ s next limit,
        optsNextList s = some (true, listState ov0 p .lmInProgress (o :: q) next limit) →
        R s (o :: q) next limit)
    (q : List QemuOpt) :
    (∀ o ∈ q, o.name = n) → ∀ s o rn rl, o.name = n →
      optsNextList s = popRepeated (listState ov0 p .lmInProgress (o :: q) rn rl) →
      R s q rn rl := by
  induction q with
  | nil =>
    intro _ s o rn rl ho hs
    rw [popRepeated_last hp, ho] at hs
    exact hnil s rn rl hs
  | cons o' q ih =>
    intro hq s o rn rl _ hs
    rw [popRepeated_cons hp] at hs
    have ho' := hq o' (List.mem_cons_self _ _)
    exact hcons o' q ho'
      (fun s rn rl => ih (fun o'' h => hq o'' (List.mem_cons_of_mem _ h)) s o' rn rl ho') s rn rl hs

theorem start_run_of (R : OptsVisitor → List QemuOpt → BitVec 64 → BitVec 64 → Prop)
    (hnil : ∀ s rn rl, optsNextList s =
      some (false, removeOpt (listState ov0 p .lmInProgress [] rn rl) n) → R s [] rn rl)
    (hcons : ∀ o q, o.name = n →
      (∀ s rn rl, optsNextList s = popRepeated (listState ov0 p .lmInProgress (o :: q) rn rl) →
        R s q rn rl) →
      ∀ s next limit,
        optsNextList s = some (true, listState ov0 p .lmInProgress (o :: q) next limit) →
        R s (o :: q) next limit)
    {o : QemuOpt} {q : List QemuOpt}
    (hq0 : ov0.queues.queue p = some (o :: q)) (hn : ∀ o' ∈ o :: q, o'.name = n) :
    R { ov0 with repeatedOpts := some p, listMode := .lmStarted } (o :: q) ov0.rangeNext
      ov0.rangeLimit := by
  have hp := lt_length_of_queue hq0
  have ho := hn o (List.mem_cons_self _ _)
  have hs : optsNextList { ov0 with repeatedOpts := some p, listMode := .lmStarted } =
      some (true, listState ov0 p .lmInProgress (o :: q) ov0.rangeNext ov0.rangeLimit) := by
    simp [optsNextList, listState, write_queue_self hq0]
  exact hcons o q ho (fun s rn rl =>
    pop_run_of R hp hnil hcons q (fun o' h => hn o' (List.mem_cons_of_mem _ h)) s o rn rl ho) _ _ _ hs

theorem start_run (hk : Lawful k M) {o : QemuOpt} {q : List QemuOpt}
    (hq0 : ov0.queues.queue p = some (o :: q)) (hn : ∀ o' ∈ o :: q, o'.name = n) :
    LoopResult k m ov0 p n { ov0 with repeatedOpts := some p, listMode := .lmStarted } (o :: q)
      (ov0.rangeNext, ov0.rangeLimit) :=
  start_run_of (fun s q rn rl => LoopResult k m ov0 p n s q (rn, rl)) (fun _ _ _ hs => finishes_stop hs)
    (fun _ _ ho hafter _ _ _ hs => decode_run hk (lt_length_of_queue hq0) ho hafter hs) hq0 hn

/-- The elements a scalar decoder reads along `q`, and where and why it stops. -/
def scalarWalk {α : Type} (convert : Option String → Except String α) :
    List QemuOpt → List α × Option (String × List QemuOpt)
  | [] => ([], none)
  | o :: q =>
    match convert o.str with
    | .ok v => (v :: (scalarWalk convert q).1, (scalarWalk convert q).2)
    | .error expected => ([], some (expected, o :: q))

def ScalarResult {α : Type} (convert : Option String → Except String α) (m : String)
    (ov : OptsVisitor) (p : Nat) (n : String) (s : OptsVisitor) (q : List QemuOpt)
    (rn rl : BitVec 64) : Prop :=
  Finishes (typeScalar convert m) s ((scalarWalk convert q).1.length + 1)
    (((scalarWalk convert q).1,
      (scalarWalk convert q).2.map fun w => .invalidParameterValue n w.1),
     loopEnd ov p n ((scalarWalk convert q).2.map Prod.snd) rn rl)

theorem scalar_decode_run {α : Type} {convert : Option String → Except String α} {m : String}
    (hp : p < ov0.queues.length) {o : QemuOpt} {q : List QemuOpt} (ho : o.name = n)
    (hafter : ∀ s rn rl, optsNextList s = popRepeated (listState ov0 p .lmInProgress (o :: q) rn rl) →
      ScalarResult convert m ov0 p n s q rn rl)
    {s : OptsVisitor} {next limit : BitVec 64}
    (hs : optsNextList s = some (true, listState ov0 p .lmInProgress (o :: q) next limit)) :
    ScalarResult convert m ov0 p n s (o :: q) next limit := by
  have hdec := @typeScalar_inProgress α convert m (listState ov0 p .lmInProgress (o :: q) next limit)
    p o q rfl rfl (queue_write_self _ _ _ hp)
  unfold ScalarResult
  cases hc : convert o.str with
  | ok v =>
    simp only [scalarWalk, hc, scalarReading] at hdec ⊢
    exact finishes_cons hs hdec (hafter _ next limit rfl)
  | error expected =>
    simp only [scalarWalk, hc, scalarReading, ho] at hdec ⊢
    exact finishes_fail hs hdec

end Run

theorem walk_of_all {V : Type} {expand : QemuOpt → Option (List V)} {q : List QemuOpt}
    (h : ∀ o ∈ q, (expand o).isSome) :
    walk expand q = (q.flatMap fun o => (expand o).getD [], none) := by
  induction q with
  | nil => rfl
  | cons o q ih =>
    obtain ⟨vs, hvs⟩ := Option.isSome_iff_exists.1 (h o (List.mem_cons_self _ _))
    simp [walk, hvs, ih fun o' h' => h o' (List.mem_cons_of_mem _ h')]

theorem walk_of_first {V : Type} {expand : QemuOpt → Option (List V)} {pre : List QemuOpt}
    {o : QemuOpt} {post : List QemuOpt} (hpre : ∀ o' ∈ pre, (expand o').isSome)
    (ho : expand o = none) :
    walk expand (pre ++ o :: post) = (pre.flatMap fun o => (expand o).getD [], some (o :: post)) := by
  induction pre with
  | nil => simp [walk, ho]
  | cons o' pre ih =>
    obtain ⟨vs, hvs⟩ := Option.isSome_iff_exists.1 (hpre o' (List.mem_cons_self _ _))
    simp [walk, hvs, ih fun o'' h' => hpre o'' (List.mem_cons_of_mem _ h')]

def listEnd (ov : OptsVisitor) (p : Nat) (n : String) :
    Option (List QemuOpt) → BitVec 64 → BitVec 64 → OptsVisitor
  | none, next, limit => { removeOpt ov n with rangeNext := next, rangeLimit := limit }
  | some left, next, limit =>
    { ov with queues := ov.queues.write p (some left), rangeNext := next, rangeLimit := limit }

theorem optsEndList_loopEnd {ov : OptsVisitor} {p : Nat} {n : String} {t : Table}
    (hm : ov.listMode = .lmNone) (hr : ov.repeatedOpts = none) (ht : ov.unprocessedOpts = some t)
    (hl : gHashTableLookup t n = some p) (w : Option (List QemuOpt)) (next limit : BitVec 64) :
    optsEndList (loopEnd ov p n w next limit) = some ((), listEnd ov p n w next limit) := by
  cases w with
  | none =>
    rw [loopEnd, removeOpt_of_lookup
      (show (listState ov p .lmInProgress [] next limit).unprocessedOpts = some t from ht) hl,
      listEnd, removeOpt_of_lookup ht hl]
    cases ov
    simp_all [optsEndList, listState]
  | some left =>
    cases ov
    simp_all [optsEndList, loopEnd, listEnd, listState]

theorem visitListWith_run {V : Type} {decode : VisitM (Decoded V)} {ov : OptsVisitor}
    {n : String} {p : Nat} {t : Table} (hm : ov.listMode = .lmNone) (hr : ov.repeatedOpts = none)
    (ht : ov.unprocessedOpts = some t) (hl : gHashTableLookup t n = some p) {m : Nat}
    {res : List V × Option QError} {w : Option (List QemuOpt)} {next limit : BitVec 64}
    (hf : Finishes decode { ov with repeatedOpts := some p, listMode := .lmStarted } m
      (res, loopEnd ov p n w next limit)) :
    ∀ fuel, visitListWith decode n fuel ov =
      if m ≤ fuel then some (res, listEnd ov p n w next limit) else none := by
  intro fuel
  have hs : optsStartList n ov =
      some (none, { ov with repeatedOpts := some p, listMode := .lmStarted }) := by
    simp [optsStartList, hm, lookupDistinct, ht, hl]
  simp only [visitListWith, hs, Option.some_bind, hf fuel]
  split_ifs
  · simp [optsEndList_loopEnd hm hr ht hl]
  · rfl

theorem visitListWith_typeInteger_run {V : Type} {k : IntegerKind V} {M : Nat} (hk : Lawful k M)
    {ov : OptsVisitor} {n : String} {p : Nat} {t : Table} {q : List QemuOpt}
    (hm : ov.listMode = .lmNone) (hr : ov.repeatedOpts = none) (ht : ov.unprocessedOpts = some t)
    (hl : gHashTableLookup t n = some p) (hq : ov.queues.queue p = some q) (hne : q ≠ [])
    (hn : ∀ o ∈ q, o.name = n) (m : String) :
    ∀ fuel, visitListWith (typeInteger k m) n fuel ov =
      if (walk (kindExpand k) q).1.length + 1 ≤ fuel then
        some (((walk (kindExpand k) q).1,
            (walk (kindExpand k) q).2.map fun _ => .invalidParameterValue n k.valueOrRange),
          listEnd ov p n (walk (kindExpand k) q).2 (walkRange k q (ov.rangeNext, ov.rangeLimit)).1
            (walkRange k q (ov.rangeNext, ov.rangeLimit)).2)
      else none := by
  obtain ⟨o, q', rfl⟩ := List.exists_cons_of_ne_nil hne
  exact visitListWith_run hm hr ht hl (start_run hk hq hn)

theorem visitList_run {V : Type} {k : IntegerKind V} {M : Nat} (hk : Lawful k M)
    {ov : OptsVisitor} {n : String} {p : Nat} {t : Table} {q : List QemuOpt}
    (hm : ov.listMode = .lmNone) (hr : ov.repeatedOpts = none) (ht : ov.unprocessedOpts = some t)
    (hl : gHashTableLookup t n = some p) (hq : ov.queues.queue p = some q) (hne : q ≠ [])
    (hn : ∀ o ∈ q, o.name = n) :
    ∀ fuel, visitList k n fuel ov =
      if (walk (kindExpand k) q).1.length + 1 ≤ fuel then
        some (((walk (kindExpand k) q).1,
            (walk (kindExpand k) q).2.map fun _ => .invalidParameterValue n k.valueOrRange),
          listEnd ov p n (walk (kindExpand k) q).2 (walkRange k q (ov.rangeNext, ov.rangeLimit)).1
            (walkRange k q (ov.rangeNext, ov.rangeLimit)).2)
      else none :=
  visitListWith_typeInteger_run hk hm hr ht hl hq hne hn n

theorem visitListWith_scalar_run {α : Type} (convert : Option String → Except String α)
    (m : String) {ov : OptsVisitor} {n : String} {p : Nat} {t : Table} {q : List QemuOpt}
    (hm : ov.listMode = .lmNone) (hr : ov.repeatedOpts = none) (ht : ov.unprocessedOpts = some t)
    (hl : gHashTableLookup t n = some p) (hq : ov.queues.queue p = some q) (hne : q ≠ [])
    (hn : ∀ o ∈ q, o.name = n) :
    ∀ fuel, visitListWith (typeScalar convert m) n fuel ov =
      if (scalarWalk convert q).1.length + 1 ≤ fuel then
        some (((scalarWalk convert q).1,
            (scalarWalk convert q).2.map fun w => .invalidParameterValue n w.1),
          listEnd ov p n ((scalarWalk convert q).2.map Prod.snd) ov.rangeNext ov.rangeLimit)
      else none := by
  obtain ⟨o, q', rfl⟩ := List.exists_cons_of_ne_nil hne
  exact visitListWith_run hm hr ht hl
    (start_run_of (fun s q rn rl => ScalarResult convert m ov p n s q rn rl)
      (fun _ _ _ hs => finishes_stop hs)
      (fun _ _ ho hafter _ _ _ hs => scalar_decode_run (lt_length_of_queue hq) ho hafter hs) hq hn)

/-- A whole traversal of `n` under `k`, with the elements `expand` assigns each occurrence. -/
def ListOutcome {V : Type} (k : IntegerKind V) (expand : QemuOpt → Option (List V)) (m : String)
    (ov : OptsVisitor) (n : String) (p : Nat) (q : List QemuOpt) : Prop :=
  ((∀ o ∈ q, (expand o).isSome) →
    ∃ rn rl, ∀ fuel, visitListWith (typeInteger k m) n fuel ov =
      if (q.flatMap fun o => (expand o).getD []).length + 1 ≤ fuel then
        some ((q.flatMap fun o => (expand o).getD [], none),
          { removeOpt ov n with rangeNext := rn, rangeLimit := rl })
      else none) ∧
  (∀ pre o post, q = pre ++ o :: post → (∀ o' ∈ pre, (expand o').isSome) → expand o = none →
    ∃ rn rl, ∀ fuel, visitListWith (typeInteger k m) n fuel ov =
      if (pre.flatMap fun o => (expand o).getD []).length + 1 ≤ fuel then
        some ((pre.flatMap fun o => (expand o).getD [],
            some (.invalidParameterValue n k.valueOrRange)),
          { ov with queues := ov.queues.write p (some (o :: post)), rangeNext := rn,
                    rangeLimit := rl })
      else none)

theorem listOutcome_kindExpand {V : Type} {k : IntegerKind V} {M : Nat} (hk : Lawful k M)
    {ov : OptsVisitor} {n : String} {p : Nat} {t : Table} {q : List QemuOpt}
    (hm : ov.listMode = .lmNone) (hr : ov.repeatedOpts = none) (ht : ov.unprocessedOpts = some t)
    (hl : gHashTableLookup t n = some p) (hq : ov.queues.queue p = some q) (hne : q ≠ [])
    (hn : ∀ o ∈ q, o.name = n) (m : String) : ListOutcome k (kindExpand k) m ov n p q := by
  have hrun := visitListWith_typeInteger_run hk hm hr ht hl hq hne hn m
  rcases hc : walkRange k q (ov.rangeNext, ov.rangeLimit) with ⟨rn, rl⟩
  simp only [hc] at hrun
  refine ⟨fun hall => ⟨rn, rl, fun fuel => ?_⟩,
    fun pre o post hq' hpre ho => ⟨rn, rl, fun fuel => ?_⟩⟩
  · rw [hrun fuel, walk_of_all hall]
    rfl
  · rw [hrun fuel, hq', walk_of_first hpre ho]
    rfl

theorem visitList_range {V : Type} {k : IntegerKind V} {M : Nat} (hk : Lawful k M)
    {ov : OptsVisitor} {n : String} {p : Nat} {t : Table} {q : List QemuOpt}
    (hm : ov.listMode = .lmNone) (hr : ov.repeatedOpts = none) (ht : ov.unprocessedOpts = some t)
    (hl : gHashTableLookup t n = some p) (hq : ov.queues.queue p = some q) (hne : q ≠ [])
    (hn : ∀ o ∈ q, o.name = n) {fuel : Nat} {r : List V × Option QError} {ov' : OptsVisitor}
    (hv : visitList k n fuel ov = some (r, ov')) :
    (ov'.rangeNext, ov'.rangeLimit) = walkRange k q (ov.rangeNext, ov.rangeLimit) := by
  rw [visitList_run hk hm hr ht hl hq hne hn fuel] at hv
  split_ifs at hv
  obtain ⟨-, rfl⟩ := Prod.mk.inj (Option.some.inj hv)
  cases (walk (kindExpand k) q).2 <;> rfl

section Reachable

variable {env : Env} {opts : QemuOpts} {ov : OptsVisitor} {g : Caller}

theorem reachable_indexed (h : Reachable env opts ov g) (hm : ov.listMode = .lmNone) {n : String}
    {p : Nat} {q : List QemuOpt} (hp : lookupDistinct ov n = .ok p)
    (hq : ov.queues.queue p = some q) :
    ov.repeatedOpts = none ∧ ∃ t, ov.unprocessedOpts = some t ∧ gHashTableLookup t n = some p ∧
      q ≠ [] ∧ ∀ o ∈ q, o.name = n := by
  obtain ⟨hi, -⟩ := reachable_inv h
  obtain ⟨t, ht, hl⟩ := Option.bind_eq_some.1 (lookupDistinct_ok.1 hp)
  obtain ⟨q', hq', hne, hs⟩ := (hi.table t ht).lookup hl
  obtain rfl : q' = q := Option.some.inj (hq'.symm.trans hq)
  exact ⟨hi.idle_repeated hm, t, ht, hl, hne, fun o ho => name_of_mem_suffix hs ho⟩

/-- An integer list traversal yields its occurrences' elements in source order. -/
theorem reachable_list_traversal (h : Reachable env opts ov g) (hm : ov.listMode = .lmNone)
    (n m : String) {p : Nat} {q : List QemuOpt} (hp : lookupDistinct ov n = .ok p)
    (hq : ov.queues.queue p = some q) :
    ListOutcome (int64Kind env.rangeMax) (expandInt env.rangeMax) m ov n p q ∧
      ListOutcome (uint64Kind env) (expandUint64 env) m ov n p q := by
  obtain ⟨hr, t, ht, hl, hne, hn⟩ := reachable_indexed h hm hp hq
  constructor
  · rw [← funext (kindExpand_int64 env.rangeMax_le)]
    exact listOutcome_kindExpand (int64Kind_lawful env.rangeMax_le) hm hr ht hl hq hne hn m
  · rw [← funext (kindExpand_uint64 env)]
    exact listOutcome_kindExpand (uint64Kind_lawful env) hm hr ht hl hq hne hn m

theorem reachable_list_traversal_sample :
    ∃ ov, optsStartStruct (optsVisitorNew ⟨[⟨"nums", some "3-7"⟩], none⟩) = some ((), ov) ∧
      ∃ ov', visitListWith (typeInteger (int64Kind specEnv.rangeMax) "elem") "nums" 6 ov =
        some (([3, 4, 5, 6, 7], none), ov') := by
  refine ⟨_, rfl, ?_⟩
  obtain ⟨rn, rl, hrun⟩ := (reachable_list_traversal
    (.step (@Reachable.init specEnv ⟨[⟨"nums", some "3-7"⟩], none⟩) (.startStruct rfl)) rfl "nums"
    "elem" rfl rfl).1.1 (by decide)
  have hv : ([⟨"nums", some "3-7"⟩] : List QemuOpt).flatMap
      (fun o => (expandInt specEnv.rangeMax o).getD []) = [3, 4, 5, 6, 7] := by decide
  rw [hrun 6]
  simp only [List.nil_append, hv]
  exact ⟨_, rfl⟩

/-- A list traversal leaves the range counters at the last interval's upper bound. -/
theorem reachable_list_range (h : Reachable env opts ov g) (hm : ov.listMode = .lmNone)
    (n : String) {p : Nat} {q : List QemuOpt} (hp : lookupDistinct ov n = .ok p)
    (hq : ov.queues.queue p = some q) (fuel : Nat) :
    (∀ r ov', visitList (int64Kind env.rangeMax) n fuel ov = some (r, ov') →
      (ov'.rangeNext, ov'.rangeLimit) =
        walkRange (int64Kind env.rangeMax) q (ov.rangeNext, ov.rangeLimit)) ∧
    (∀ r ov', visitList (uint64Kind env) n fuel ov = some (r, ov') →
      (ov'.rangeNext, ov'.rangeLimit) =
        walkRange (uint64Kind env) q (ov.rangeNext, ov.rangeLimit)) := by
  obtain ⟨hr, t, ht, hl, hne, hn⟩ := reachable_indexed h hm hp hq
  exact ⟨fun _ _ => visitList_range (int64Kind_lawful env.rangeMax_le) hm hr ht hl hq hne hn,
    fun _ _ => visitList_range (uint64Kind_lawful env) hm hr ht hl hq hne hn⟩

theorem reachable_list_range_sample :
    ∃ ov, optsStartStruct (optsVisitorNew ⟨[⟨"a", some "1-2"⟩, ⟨"a", some "7"⟩], none⟩) =
        some ((), ov) ∧
      ∀ r ov', visitList (int64Kind specEnv.rangeMax) "a" 4 ov = some (r, ov') →
        ov'.rangeNext = 2 ∧ ov'.rangeLimit = 2 := by
  refine ⟨_, rfl, fun r ov' hv => ?_⟩
  have hc := (reachable_list_range
    (.step (@Reachable.init specEnv ⟨[⟨"a", some "1-2"⟩, ⟨"a", some "7"⟩], none⟩)
      (.startStruct rfl)) rfl "a" rfl rfl 4).1 r ov' hv
  exact Prod.mk.inj (hc.trans (by decide))

/-- A scalar list traversal yields one element per occurrence, in source order. -/
theorem reachable_scalar_list (h : Reachable env opts ov g) (hm : ov.listMode = .lmNone)
    (n : String) {p : Nat} {q : List QemuOpt} (hp : lookupDistinct ov n = .ok p)
    (hq : ov.queues.queue p = some q) {α : Type} (convert : Option String → Except String α)
    (m : String) (fuel : Nat) :
    visitListWith (typeScalar convert m) n fuel ov =
      if (scalarWalk convert q).1.length + 1 ≤ fuel then
        some (((scalarWalk convert q).1,
            (scalarWalk convert q).2.map fun w => .invalidParameterValue n w.1),
          listEnd ov p n ((scalarWalk convert q).2.map Prod.snd) ov.rangeNext ov.rangeLimit)
      else none := by
  obtain ⟨hr, t, ht, hl, hne, hn⟩ := reachable_indexed h hm hp hq
  exact visitListWith_scalar_run convert m hm hr ht hl hq hne hn fuel

theorem reachable_scalar_list_sample :
    ∃ ov, optsStartStruct (optsVisitorNew
        ⟨[⟨"a", some "on"⟩, ⟨"a", some "x"⟩, ⟨"a", some "off"⟩], none⟩) = some ((), ov) ∧
      ∃ ov', visitListWith (optsTypeBool "") "a" 5 ov =
        some (([true], some (.invalidParameterValue "a" "on|yes|y|off|no|n")), ov') := by
  refine ⟨_, rfl, ?_⟩
  rw [optsTypeBool, reachable_scalar_list (.step (@Reachable.init specEnv
    ⟨[⟨"a", some "on"⟩, ⟨"a", some "x"⟩, ⟨"a", some "off"⟩], none⟩) (.startStruct rfl)) rfl "a"
    rfl rfl parseBool "" 5]
  exact ⟨_, rfl⟩

end Reachable

end QemuOptsVisitor.ListTraversal
