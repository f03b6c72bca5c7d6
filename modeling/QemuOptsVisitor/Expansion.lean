import QemuOptsVisitor.Fields

/-! What one occurrence stands for inside a list. An integer decoder reads the occurrence at the
head of the queue as one value, as an interval `a-b`, or as neither; through an interval,
`opts_next_list` counts `range_next` up to `range_limit`. `expandInt` and `expandUint64` say what
an occurrence stands for over the integers; the model's `kindExpand` agrees with both. -/

namespace QemuOptsVisitor.Expansion
open Glib Parsing Visitor Decoders RangeCheck Protocol Invariant

/-- The elements an occurrence stands for in an `int64` list: a value or an interval. -/
def expandInt (M : Nat) (o : QemuOpt) : Option (List Int) :=
  match strtollPrefix (o.str.getD "").toList with
  | some (v, []) => some [v]
  | some (a, '-' :: rest) =>
    match strtollFull rest with
    | some b =>
      if a ≤ b ∧ b - a < M then some ((List.range ((b - a).toNat + 1)).map fun (i : Nat) => a + i)
      else none
    | none => none
  | _ => none

/-- The same for a `uint64` list, with `parse_uint` and `parse_uint_full`. -/
def expandUint64 (env : Env) (o : QemuOpt) : Option (List (BitVec 64)) :=
  match parseUintPrefix env (some (o.str.getD "")) with
  | some (v, []) => some [v]
  | some (a, '-' :: rest) =>
    match parseUintFull env rest with
    | some b =>
      if a.toNat ≤ b.toNat ∧ b.toNat - a.toNat < env.rangeMax then
        some ((List.range (b.toNat - a.toNat + 1)).map fun i => BitVec.ofNat 64 (a.toNat + i))
      else none
    | none => none
  | _ => none

inductive Reading (V : Type)
  | value (v : V)
  | interval (a b : V)
  | invalid
deriving DecidableEq, Repr

def reading {V : Type} (k : IntegerKind V) (o : QemuOpt) : Option (Reading V) :=
  match k.parse o.str with
  | some (v, []) => some (.value v)
  | some (a, '-' :: rest) =>
    match k.parseFull rest with
    | some b => (k.rangeOk a b).map fun ok => if ok then .interval a b else .invalid
    | none => some .invalid
  | _ => some .invalid

def applyReading {V : Type} (k : IntegerKind V) (o : QemuOpt) (ov : OptsVisitor) :
    Reading V → Decoded V × OptsVisitor
  | .value v => (.stored v, ov)
  | .interval a b =>
    (.stored (k.load (k.store a)),
      { ov with rangeNext := k.store a, rangeLimit := k.store b, listMode := k.interval })
  | .invalid => (.failed (.invalidParameterValue o.name k.valueOrRange), ov)

theorem typeInteger_inProgress {V : Type} {k : IntegerKind V} {name : String} {ov : OptsVisitor}
    {p : Nat} {o : QemuOpt} {rest : List QemuOpt} (hk : k.interval ≠ .lmInProgress)
    (hm : ov.listMode = .lmInProgress) (hr : ov.repeatedOpts = some p)
    (hq : ov.queues.queue p = some (o :: rest)) :
    typeInteger k name ov = (reading k o).map (applyReading k o ov) := by
  have hl : lookupScalar ov name = some (.ok (some o)) := by
    simp [lookupScalar, hm, hr, gQueuePeekHead, hq]
  unfold typeInteger
  rw [if_neg (by rw [hm]; exact Ne.symm hk), hl, Option.some_bind]
  simp only [reading, hm, reduceCtorEq, if_false, if_true]
  rcases k.parse o.str with _ | ⟨v, _ | ⟨c, rest⟩⟩
  · rfl
  · simp [processed, hm, applyReading]
  · by_cases hc : c = '-'
    · subst hc
      simp only
      rcases k.parseFull rest with _ | b
      · rfl
      · dsimp only
        cases k.rangeOk v b with
        | none => rfl
        | some ok => cases ok <;> rfl
    · split <;> simp_all [applyReading]

/-- How often `opts_next_list` still steps `range_next` before it reaches `range_limit`. -/
def span : ListMode → BitVec 64 → BitVec 64 → Nat
  | .lmSignedInterval, next, limit => (limit.toInt - next.toInt).toNat
  | .lmUnsignedInterval, next, limit => limit.toNat - next.toNat
  | _, _, _ => 0

def intervalVals {V : Type} (k : IntegerKind V) (a b : V) : List V :=
  (List.range (span k.interval (k.store a) (k.store b) + 1)).map fun i =>
    k.load (k.store a + BitVec.ofNat 64 i)

def kindExpand {V : Type} (k : IntegerKind V) (o : QemuOpt) : Option (List V) :=
  match reading k o with
  | some (.value v) => some [v]
  | some (.interval a b) => some (intervalVals k a b)
  | _ => none

def IsInterval (mode : ListMode) : Prop :=
  mode = .lmSignedInterval ∨ mode = .lmUnsignedInterval

theorem optsNextList_interval {ov : OptsVisitor} (hm : IsInterval ov.listMode) :
    optsNextList ov = if 0 < span ov.listMode ov.rangeNext ov.rangeLimit
      then some (true, { ov with rangeNext := ov.rangeNext + 1 })
      else popRepeated { ov with listMode := .lmInProgress } := by
  rcases hm with h | h <;> simp [optsNextList, h, span, Nat.sub_pos_iff_lt]

theorem span_add_one {mode : ListMode} (hm : IsInterval mode) {next limit : BitVec 64}
    (h : 0 < span mode next limit) : span mode (next + 1) limit = span mode next limit - 1 := by
  rcases hm with rfl | rfl <;> simp only [span] at h ⊢
  · rw [@toInt_add_one _ limit (by omega)]
    omega
  · rw [@toNat_add_one _ limit (by omega)]
    omega

theorem bounded_add_one {mode : ListMode} (hm : IsInterval mode) {M : Nat} {next limit : BitVec 64}
    (hb : intervalBounded M mode next limit) (h : 0 < span mode next limit) :
    intervalBounded M mode (next + 1) limit := by
  rcases hm with rfl | rfl <;> simp only [intervalBounded, span] at hb h ⊢
  · rw [@toInt_add_one _ limit (by omega)]
    omega
  · rw [@toNat_add_one _ limit (by omega)]
    omega

theorem eq_of_span_eq_zero {mode : ListMode} (hm : IsInterval mode) {M : Nat}
    {next limit : BitVec 64} (hb : intervalBounded M mode next limit)
    (h : span mode next limit = 0) : next = limit := by
  rcases hm with rfl | rfl <;> simp only [intervalBounded, span] at hb h
  · exact BitVec.eq_of_toInt_eq (by omega)
  · exact BitVec.eq_of_toNat_eq (by omega)

theorem span_self (mode : ListMode) (x : BitVec 64) : span mode x x = 0 := by
  cases mode <;> simp [span]

theorem reading_isSome {V : Type} {k : IntegerKind V} {M : Nat} (hk : Lawful k M) (o : QemuOpt) :
    (reading k o).isSome := by
  unfold reading
  split
  · rfl
  · rename_i a rest ha
    cases hb : k.parseFull rest with
    | none => rfl
    | some b => simpa using hk.rangeOk_isSome _ _ _ _ ha hb
  · rfl

theorem reading_interval {V : Type} {k : IntegerKind V} {o : QemuOpt} {a b : V}
    (h : reading k o = some (.interval a b)) :
    ∃ rest, k.parse o.str = some (a, '-' :: rest) ∧ k.parseFull rest = some b ∧
      k.rangeOk a b = some true := by
  unfold reading at h
  split at h
  · cases h
  · rename_i a' rest ha
    split at h
    · rename_i b' hb
      obtain ⟨ok, hok, h⟩ := Option.map_eq_some'.1 h
      cases ok
      · cases h
      · cases h
        exact ⟨rest, ha, hb, hok⟩
    · cases h
  · cases h

/-! The model's expansions are the integers' ones. -/

theorem toInt_ofInt_add_ofNat {a : Int} {i : Nat} (h1 : int64Min ≤ a) (h2 : a + i ≤ int64Max) :
    (BitVec.ofInt 64 a + BitVec.ofNat 64 i).toInt = a + i := by
  rw [← BitVec.ofInt_natCast, ← BitVec.ofInt_add, toInt_ofInt_of_mem (by omega) h2]

theorem add_ofNat_eq {a : BitVec 64} {i : Nat} (h : a.toNat + i < 2 ^ 64) :
    a + BitVec.ofNat 64 i = BitVec.ofNat 64 (a.toNat + i) := by
  apply BitVec.eq_of_toNat_eq
  simp only [BitVec.toNat_add, BitVec.toNat_ofNat]
  rw [Nat.mod_eq_of_lt (by omega : i < 2 ^ 64)]

theorem kindExpand_int64 {M : Nat} (hM : (M : Int) ≤ int64Max) (o : QemuOpt) :
    kindExpand (int64Kind M) o = expandInt M o := by
  unfold kindExpand reading expandInt
  rw [int64Kind_parse]
  rcases ha : strtollPrefix (o.str.getD "").toList with _ | ⟨a, _ | ⟨c, rest⟩⟩
  · rfl
  · rfl
  · by_cases hc : c = '-'
    · subst hc
      simp only [int64Kind_parseFull]
      rcases hb : strtollFull rest with _ | b
      · rfl
      · have ha' := strtollPrefix_mem ha
        have hb' := strtollFull_mem hb
        simp only [int64Kind_rangeOk, signedRangeOk_eq hM ha' hb', Option.map_some']
        by_cases hab : a ≤ b ∧ b - a < M
        · simp only [hab, and_self, decide_True, if_true, intervalVals, int64Kind_interval, int64Kind_store,
            int64Kind_load, span, toInt_ofInt_of_mem ha'.1 ha'.2, toInt_ofInt_of_mem hb'.1 hb'.2]
          refine congrArg some (List.map_congr_left fun i hi => ?_)
          have := List.mem_range.1 hi
          exact toInt_ofInt_add_ofNat ha'.1 (by omega)
        · simp [hab]
    · split <;> simp_all

theorem parseUintPrefix_getD (env : Env) (s : Option String) :
    parseUintPrefix env s = parseUintPrefix env (some (s.getD "")) := by
  cases s with
  | none => simp [parseUintPrefix, env.parseUint_null, env.parseUint_empty]
  | some s => rfl

theorem kindExpand_uint64 (env : Env) (o : QemuOpt) :
    kindExpand (uint64Kind env) o = expandUint64 env o := by
  have hM : env.rangeMax < 2 ^ 64 := by
    have := env.rangeMax_le
    simp only [int64Max] at this
    omega
  unfold kindExpand reading expandUint64
  rw [uint64Kind_parse, parseUintPrefix_getD]
  rcases parseUintPrefix env (some (o.str.getD "")) with _ | ⟨a, _ | ⟨c, rest⟩⟩
  · rfl
  · rfl
  · by_cases hc : c = '-'
    · subst hc
      simp only [uint64Kind_parseFull]
      rcases parseUintFull env rest with _ | b
      · rfl
      · simp only [uint64Kind_rangeOk, unsignedRangeOk_eq hM, Option.map_some']
        by_cases hab : a.toNat ≤ b.toNat ∧ b.toNat - a.toNat < env.rangeMax
        · simp only [hab, and_self, decide_True, if_true, intervalVals, uint64Kind_interval, uint64Kind_store,
            uint64Kind_load, span, id]
          refine congrArg some (List.map_congr_left fun i hi => ?_)
          have := List.mem_range.1 hi
          have := b.isLt
          exact add_ofNat_eq (by omega)
        · simp [hab]
    · split <;> simp_all

end QemuOptsVisitor.Expansion
