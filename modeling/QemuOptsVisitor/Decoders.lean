import QemuOptsVisitor.Visitor
import QemuOptsVisitor.Parsing

/-! The scalar decoders. `opts_type_str`, `opts_type_bool` and `opts_type_size` share one shape:
look the occurrence up, convert its text, mark the name processed. `opts_type_int` and
`opts_type_uint64` share another, with the `a-b` interval syntax inside lists; they differ in the
parser, the bound test, the interval mode and the half of the `range_next` union they use. -/

namespace QemuOptsVisitor.Decoders
open Glib Parsing Visitor

/-- A decoder's result: a stored value, an error in `errp`, or neither. -/
inductive Decoded (α : Type)
  | stored (v : α)
  | failed (e : QError)
  | untouched
deriving DecidableEq, Repr

def Decoded.isStored {α : Type} : Decoded α → Bool
  | .stored _ => true
  | _ => false

/-- The common body of `opts_type_str`, `opts_type_bool` and `opts_type_size`. -/
def typeScalar {α : Type} (convert : Option String → Except String α) (name : String) :
    VisitM (Decoded α) := fun ov =>
  (lookupScalar ov name).bind fun
    | .error e => some (.failed e, ov)
    | .ok none => some (.untouched, ov)
    | .ok (some opt) =>
      match convert opt.str with
      | .error expected => some (.failed (.invalidParameterValue opt.name expected), ov)
      | .ok v => (processed ov name).map (.stored v, ·)

def optsTypeStr : String → VisitM (Decoded String) :=
  typeScalar fun str => .ok (str.getD "")

def parseBool : Option String → Except String Bool
  | none => .ok true
  | some s =>
    if s = "on" ∨ s = "yes" ∨ s = "y" then .ok true
    else if s = "off" ∨ s = "no" ∨ s = "n" then .ok false
    else .error "on|yes|y|off|no|n"

def optsTypeBool : String → VisitM (Decoded Bool) := typeScalar parseBool

def sizeValue (env : Env) (str : Option String) : Except String (BitVec 64) :=
  let (val, endptr) := env.strtoszSuffix (str.getD "")
  if val < 0 ∨ endptr ≠ [] then .error "a size value representible as a non-negative int64"
  else .ok (BitVec.ofInt 64 val)

def optsTypeSize (env : Env) : String → VisitM (Decoded (BitVec 64)) := typeScalar (sizeValue env)

def int64Checked (x : Int) : Option Int :=
  if int64Min ≤ x ∧ x ≤ int64Max then some x else none

/-- The interval test of `opts_type_int`, left to right; `none` on signed overflow. -/
def signedRangeOk (rangeMax : Nat) (val val2 : Int) : Option Bool :=
  if val ≤ val2 then
    (int64Checked (int64Max - rangeMax)).bind fun lim =>
      if lim < val then some true
      else (int64Checked (val + rangeMax)).map fun hi => decide (val2 < hi)
  else some false

def unsignedRangeOk (rangeMax : Nat) (val val2 : BitVec 64) : Option Bool :=
  some (decide (val ≤ val2) && decide (val2 - val < BitVec.ofNat 64 rangeMax))

/-- What `opts_type_int` and `opts_type_uint64` differ in. -/
structure IntegerKind (V : Type) where
  interval : ListMode
  /-- the first parse and its success test: the value and the text from `endptr` on -/
  parse : Option String → Option (V × List Char)
  /-- the second bound, which must reach the end of the string -/
  parseFull : List Char → Option V
  rangeOk : V → V → Option Bool
  /-- write and read the union member -/
  store : V → BitVec 64
  load : BitVec 64 → V
  value : String
  valueOrRange : String

/-- The common body of `opts_type_int` and `opts_type_uint64`. -/
def typeInteger {V : Type} (k : IntegerKind V) (name : String) : VisitM (Decoded V) := fun ov =>
  if ov.listMode = k.interval then some (.stored (k.load ov.rangeNext), ov)
  else (lookupScalar ov name).bind fun
    | .error e => some (.failed e, ov)
    | .ok none => some (.untouched, ov)
    | .ok (some opt) =>
      let fail : Decoded V := .failed (.invalidParameterValue opt.name
        (if ov.listMode = .lmNone then k.value else k.valueOrRange))
      match k.parse opt.str with
      | some (val, []) => (processed ov name).map (.stored val, ·)
      | some (val, '-' :: rest) =>
        if ov.listMode = .lmInProgress then
          match k.parseFull rest with
          | some val2 =>
            (k.rangeOk val val2).map fun ok =>
              if ok then
                (.stored (k.load (k.store val)),
                  { ov with rangeNext := k.store val, rangeLimit := k.store val2,
                            listMode := k.interval })
              else (fail, ov)
          | none => (fail, ov)
        else some (fail, ov)
      | _ => some (fail, ov)

def int64Kind (rangeMax : Nat) : IntegerKind Int where
  interval := .lmSignedInterval
  parse str := strtollPrefix (str.getD "").toList
  parseFull := strtollFull
  rangeOk := signedRangeOk rangeMax
  store := BitVec.ofInt 64
  load := BitVec.toInt
  value := "an int64 value"
  valueOrRange := "an int64 value or range"

@[simp] theorem int64Kind_parse (M : Nat) (s : Option String) :
    (int64Kind M).parse s = strtollPrefix (s.getD "").toList := by simp only [int64Kind]

@[simp] theorem int64Kind_interval (M : Nat) : (int64Kind M).interval = .lmSignedInterval := rfl
@[simp] theorem int64Kind_parseFull (M : Nat) : (int64Kind M).parseFull = strtollFull := by
  simp only [int64Kind]
@[simp] theorem int64Kind_rangeOk (M : Nat) : (int64Kind M).rangeOk = signedRangeOk M := rfl
@[simp] theorem int64Kind_store (M : Nat) : (int64Kind M).store = BitVec.ofInt 64 := rfl
@[simp] theorem int64Kind_load (M : Nat) : (int64Kind M).load = BitVec.toInt := rfl

def uint64Kind (env : Env) : IntegerKind (BitVec 64) where
  interval := .lmUnsignedInterval
  parse := parseUintPrefix env
  parseFull := parseUintFull env
  rangeOk := unsignedRangeOk env.rangeMax
  store := id
  load := id
  value := "a uint64 value"
  valueOrRange := "a uint64 value or range"

@[simp] theorem uint64Kind_parse (env : Env) : (uint64Kind env).parse = parseUintPrefix env := rfl
@[simp] theorem uint64Kind_interval (env : Env) :
    (uint64Kind env).interval = .lmUnsignedInterval := rfl
@[simp] theorem uint64Kind_parseFull (env : Env) :
    (uint64Kind env).parseFull = parseUintFull env := rfl
@[simp] theorem uint64Kind_rangeOk (env : Env) :
    (uint64Kind env).rangeOk = unsignedRangeOk env.rangeMax := rfl
@[simp] theorem uint64Kind_store (env : Env) : (uint64Kind env).store = id := rfl
@[simp] theorem uint64Kind_load (env : Env) : (uint64Kind env).load = id := rfl

def optsTypeInt (env : Env) : String → VisitM (Decoded Int) := typeInteger (int64Kind env.rangeMax)

def optsTypeUint64 (env : Env) : String → VisitM (Decoded (BitVec 64)) :=
  typeInteger (uint64Kind env)

def wholeInteger {V : Type} (k : IntegerKind V) (str : Option String) : Except String V :=
  match k.parse str with
  | some (val, []) => .ok val
  | _ => .error k.value

theorem wholeInteger_ok {V : Type} {k : IntegerKind V} {str : Option String} {v : V} :
    wholeInteger k str = .ok v ↔ k.parse str = some (v, []) := by
  unfold wholeInteger
  rcases k.parse str with _ | ⟨val, _ | ⟨c, rest⟩⟩ <;> simp [eq_comm]

/-! What the decoders can do when they return. -/

theorem processed_some {ov ov' : OptsVisitor} {name : String} (h : processed ov name = some ov') :
    (ov.listMode = .lmNone ∧ ov' = removeOpt ov name) ∨
    (ov.listMode = .lmInProgress ∧ ov' = ov) := by
  unfold processed at h
  split_ifs at h <;> simp_all [eq_comm]

theorem typeScalar_some {α : Type} {convert : Option String → Except String α} {name : String}
    {ov ov' : OptsVisitor} {d : Decoded α} (h : typeScalar convert name ov = some (d, ov')) :
    (ov' = ov ∧ ¬(ov.listMode = .lmNone ∧ d.isStored = true)) ∨
    (ov.listMode = .lmNone ∧ d.isStored = true ∧ (∃ p, lookupDistinct ov name = .ok p) ∧
      ov' = removeOpt ov name) := by
  simp only [typeScalar, Option.bind_eq_some] at h
  obtain ⟨r, hr, h⟩ := h
  match r, h with
  | .error e, h =>
    simp only [Option.some.injEq, Prod.mk.injEq] at h
    obtain ⟨rfl, rfl⟩ := h
    exact .inl ⟨rfl, by simp [Decoded.isStored]⟩
  | .ok none, h =>
    simp only [Option.some.injEq, Prod.mk.injEq] at h
    obtain ⟨rfl, rfl⟩ := h
    exact .inl ⟨rfl, by simp [Decoded.isStored]⟩
  | .ok (some opt), h =>
    simp only at h
    split at h
    · simp only [Option.some.injEq, Prod.mk.injEq] at h
      obtain ⟨rfl, rfl⟩ := h
      exact .inl ⟨rfl, by simp [Decoded.isStored]⟩
    · obtain ⟨ov'', hp', h⟩ := Option.map_eq_some'.1 h
      cases h
      rcases processed_some hp' with ⟨hm, rfl⟩ | ⟨hm, rfl⟩
      · refine .inr ⟨hm, rfl, ?_, rfl⟩
        rcases lookupScalar_some hr with ⟨-, ⟨-, h⟩ | ⟨p, -, hp, -⟩⟩ | ⟨hm', -⟩
        · cases h
        · exact ⟨p, hp⟩
        · simp_all
      · exact .inl ⟨rfl, by simp [hm]⟩

theorem typeInteger_some {V : Type} {k : IntegerKind V} {name : String} {ov ov' : OptsVisitor}
    {d : Decoded V} (h : typeInteger k name ov = some (d, ov')) :
    (ov.listMode = k.interval ∧ ov' = ov) ∨
    (ov' = ov ∧ ¬(ov.listMode = .lmNone ∧ d.isStored = true)) ∨
    (ov.listMode = .lmNone ∧ d.isStored = true ∧ (∃ p, lookupDistinct ov name = .ok p) ∧
      ov' = removeOpt ov name) ∨
    (ov.listMode = .lmInProgress ∧ ∃ opt val rest val2,
      lookupScalar ov name = some (.ok (some opt)) ∧ k.parse opt.str = some (val, '-' :: rest) ∧
      k.parseFull rest = some val2 ∧ k.rangeOk val val2 = some true ∧
      d = .stored (k.load (k.store val)) ∧
      ov' = { ov with rangeNext := k.store val, rangeLimit := k.store val2,
                      listMode := k.interval }) := by
  unfold typeInteger at h
  by_cases hi : ov.listMode = k.interval
  · rw [if_pos hi] at h
    simp only [Option.some.injEq, Prod.mk.injEq] at h
    exact .inl ⟨hi, h.2.symm⟩
  rw [if_neg hi] at h
  obtain ⟨r, hr, h⟩ := Option.bind_eq_some.1 h
  right
  have kept : ∀ {d' : Decoded V}, some (d', ov) = some (d, ov') → d'.isStored = false →
      ov' = ov ∧ ¬(ov.listMode = .lmNone ∧ d.isStored = true) := fun h hd => by
    simp only [Option.some.injEq, Prod.mk.injEq] at h
    obtain ⟨rfl, rfl⟩ := h
    simp [hd]
  match r, h with
  | .error e, h => exact .inl (kept h rfl)
  | .ok none, h => exact .inl (kept h rfl)
  | .ok (some opt), h =>
    simp only at h
    split at h
    · obtain ⟨ov'', hp', h⟩ := Option.map_eq_some'.1 h
      cases h
      rcases processed_some hp' with ⟨hm, rfl⟩ | ⟨hm, rfl⟩
      · refine .inr (.inl ⟨hm, rfl, ?_, rfl⟩)
        rcases lookupScalar_some hr with ⟨-, ⟨-, h⟩ | ⟨p, -, hp, -⟩⟩ | ⟨hm', -⟩
        · cases h
        · exact ⟨p, hp⟩
        · simp_all
      · exact .inl ⟨rfl, by simp [hm]⟩
    · rename_i val rest hparse
      by_cases hp : ov.listMode = .lmInProgress
      · rw [if_pos hp] at h
        split at h
        · rename_i val2 hfull
          obtain ⟨ok, hok, h⟩ := Option.map_eq_some'.1 h
          by_cases hb : ok = true
          · rw [if_pos hb] at h
            cases h
            exact .inr (.inr ⟨hp, opt, val, rest, val2, hr, hparse, hfull, hb ▸ hok, rfl, rfl⟩)
          · rw [if_neg hb] at h
            exact .inl (kept (congrArg some h) rfl)
        · exact .inl (kept h rfl)
      · rw [if_neg hp] at h
        exact .inl (kept h rfl)
    · exact .inl (kept h rfl)

theorem typeScalar_failed {α : Type} {convert : Option String → Except String α} {name : String}
    {ov ov' : OptsVisitor} {e : QError} (h : typeScalar convert name ov = some (.failed e, ov')) :
    ov' = ov := by
  rcases typeScalar_some h with ⟨rfl, -⟩ | ⟨-, hs, -⟩
  · rfl
  · cases hs

theorem typeInteger_failed {V : Type} {k : IntegerKind V} {name : String} {ov ov' : OptsVisitor}
    {e : QError} (h : typeInteger k name ov = some (.failed e, ov')) : ov' = ov := by
  rcases typeInteger_some h with ⟨-, rfl⟩ | ⟨rfl, -⟩ | ⟨-, hs, -⟩ | ⟨-, _, _, _, _, -, -, -, -, hd, -⟩
  · rfl
  · rfl
  · cases hs
  · cases hd

theorem typeInteger_interval {V : Type} {k : IntegerKind V} {name : String} {ov : OptsVisitor}
    (h : ov.listMode = k.interval) :
    typeInteger k name ov = some (.stored (k.load ov.rangeNext), ov) := by
  simp [typeInteger, h]

theorem typeScalar_of_error {α : Type} {convert : Option String → Except String α} {name : String}
    {ov : OptsVisitor} {e : QError} (h : lookupScalar ov name = some (.error e)) :
    typeScalar convert name ov = some (.failed e, ov) := by
  simp [typeScalar, h]

def scalarReading {α : Type} (convert : Option String → Except String α) (o : QemuOpt) :
    Decoded α :=
  match convert o.str with
  | .ok v => .stored v
  | .error expected => .failed (.invalidParameterValue o.name expected)

theorem typeScalar_inProgress {α : Type} {convert : Option String → Except String α}
    {name : String} {ov : OptsVisitor} {p : Nat} {o : QemuOpt} {rest : List QemuOpt}
    (hm : ov.listMode = .lmInProgress) (hr : ov.repeatedOpts = some p)
    (hq : ov.queues.queue p = some (o :: rest)) :
    typeScalar convert name ov = some (scalarReading convert o, ov) := by
  have hl : lookupScalar ov name = some (.ok (some o)) := by
    simp [lookupScalar, hm, hr, gQueuePeekHead, hq]
  simp only [typeScalar, hl, Option.some_bind, scalarReading]
  cases convert o.str <;> simp [processed, hm]

theorem typeInteger_lmNone {V : Type} {k : IntegerKind V} {name : String} {ov : OptsVisitor}
    (hm : ov.listMode = .lmNone) (hk : k.interval ≠ .lmNone) :
    typeInteger k name ov = typeScalar (wholeInteger k) name ov := by
  unfold typeInteger typeScalar
  rw [if_neg (by rw [hm]; exact Ne.symm hk)]
  congr 1
  funext r
  rcases r with e | _ | opt
  · rfl
  · rfl
  · simp only [wholeInteger, hm, if_true, reduceCtorEq, if_false]
    rcases k.parse opt.str with _ | ⟨val, _ | ⟨c, rest⟩⟩
    · rfl
    · rfl
    · split <;> simp_all

end QemuOptsVisitor.Decoders
