import QemuOptsVisitor.Glib

/-! The integer parsing the decoders rely on. `strtoll` is the C library's, with base 0:
leading white space, one optional sign, a `0x` or `0` prefix choosing hexadecimal or octal, then
the longest run of digits; on overflow it saturates and sets `errno` to `ERANGE`. The rest comes
from `util/cutils.c` and `qapi/opts-visitor.h`, which this tree does not hold: `Env` carries them. -/

namespace QemuOptsVisitor.Parsing

def int64Max : Int := 2 ^ 63 - 1
def int64Min : Int := -2 ^ 63
def erange : Nat := 34

def isSpace (c : Char) : Bool :=
  c = ' ' || c = '\t' || c = '\n' || c = '\x0b' || c = '\x0c' || c = '\r'

def digitValue (c : Char) : Nat :=
  if '0' ≤ c ∧ c ≤ '9' then c.toNat - '0'.toNat
  else if 'a' ≤ c ∧ c ≤ 'z' then c.toNat - 'a'.toNat + 10
  else if 'A' ≤ c ∧ c ≤ 'Z' then c.toNat - 'A'.toNat + 10
  else 36

def scanDigits (base : Nat) : List Char → Nat → Nat × Nat
  | [], acc => (acc, 0)
  | c :: s, acc =>
    if digitValue c < base then
      let r := scanDigits base s (acc * base + digitValue c)
      (r.1, r.2 + 1)
    else (acc, 0)

/-- What `strtoll(s, &endptr, 0)` returns and leaves in `endptr` and `errno`. -/
structure Strtoll where
  value : Int
  /-- characters consumed; `endptr == s` is `0` -/
  endptr : Nat
  errno : Nat
deriving DecidableEq, Repr

def basePrefix : List Char → Nat × Nat
  | '0' :: x :: c :: _ => if (x = 'x' ∨ x = 'X') ∧ digitValue c < 16 then (16, 2) else (8, 0)
  | '0' :: _ => (8, 0)
  | _ => (10, 0)

def strtoll (s : List Char) : Strtoll :=
  let ws := (s.takeWhile isSpace).length
  let t := s.drop ws
  let (neg, sign) : Bool × Nat := match t with
    | '-' :: _ => (true, 1)
    | '+' :: _ => (false, 1)
    | _ => (false, 0)
  let u := t.drop sign
  let (base, pre) := basePrefix u
  let (mag, count) := scanDigits base (u.drop pre) 0
  if count = 0 then ⟨0, 0, 0⟩
  else
    let endptr := ws + sign + pre + count
    if neg then
      if (mag : Int) ≤ -int64Min then ⟨-mag, endptr, 0⟩ else ⟨int64Min, endptr, erange⟩
    else if (mag : Int) ≤ int64Max then ⟨mag, endptr, 0⟩ else ⟨int64Max, endptr, erange⟩

theorem strtoll_value_mem (s : List Char) :
    int64Min ≤ (strtoll s).value ∧ (strtoll s).value ≤ int64Max := by
  have h1 : int64Min < 0 := by decide
  have h2 : (0 : Int) < int64Max := by decide
  simp only [strtoll]
  split_ifs <;> dsimp only <;> omega

/-- The test `opts_type_int` puts on one `strtoll` call, with the text from `endptr` on. -/
def strtollPrefix (s : List Char) : Option (Int × List Char) :=
  let r := strtoll s
  if r.errno = 0 ∧ 0 < r.endptr ∧ int64Min ≤ r.value ∧ r.value ≤ int64Max then
    some (r.value, s.drop r.endptr)
  else none

example : strtollPrefix "3-7".toList = some (3, "-7".toList) := by decide
example : strtollPrefix " -0x1F".toList = some (-31, []) := by decide
example : strtollPrefix "9223372036854775808".toList = none := by decide

theorem strtollPrefix_mem {s : List Char} {v : Int} {rest : List Char}
    (h : strtollPrefix s = some (v, rest)) : int64Min ≤ v ∧ v ≤ int64Max := by
  simp only [strtollPrefix] at h
  split_ifs at h with hc
  cases h
  exact ⟨hc.2.2.1, hc.2.2.2⟩

def strtollFull (s : List Char) : Option Int :=
  match strtollPrefix s with
  | some (v, []) => some v
  | _ => none

theorem strtollFull_mem {s : List Char} {v : Int} (h : strtollFull s = some v) :
    int64Min ≤ v ∧ v ≤ int64Max := by
  unfold strtollFull at h
  split at h
  · cases h; exact strtollPrefix_mem ‹_›
  · cases h

structure ParseUint where
  ret : Int
  value : BitVec 64
  /-- characters consumed -/
  endptr : Nat

/-- The helpers the visitor calls from other files, and `OPTS_VISITOR_RANGE_MAX`. -/
structure Env where
  rangeMax : Nat
  rangeMax_pos : 0 < rangeMax
  rangeMax_le : (rangeMax : Int) ≤ int64Max
  parseUint : Option String → ParseUint
  parseUint_null : (parseUint none).ret ≠ 0
  parseUint_empty : (parseUint (some "")).ret ≠ 0
  /-- the `int64_t` result and the text from `endptr` on -/
  strtoszSuffix : String → Int × List Char

/-- Modelled from the spec: `parse_uint` of `util/cutils.c`, absent here. -/
def parseUintSpec : Option String → ParseUint
  | none => ⟨-22, 0, 0⟩
  | some s =>
    let ws := (s.toList.takeWhile isSpace).length
    let u := s.toList.drop ws
    match u with
    | '-' :: _ | '+' :: _ => ⟨-22, 0, 0⟩
    | _ =>
      let (base, pre) := basePrefix u
      let (mag, count) := scanDigits base (u.drop pre) 0
      if count = 0 then ⟨-22, 0, 0⟩
      else if mag < 2 ^ 64 then ⟨0, BitVec.ofNat 64 mag, ws + pre + count⟩
      else ⟨-(erange : Int), BitVec.allOnes 64, ws + pre + count⟩

def suffixMul : Char → Option Nat
  | 'B' | 'b' => some 1
  | 'K' | 'k' => some (2 ^ 10)
  | 'M' | 'm' => some (2 ^ 20)
  | 'G' | 'g' => some (2 ^ 30)
  | 'T' | 't' => some (2 ^ 40)
  | 'P' | 'p' => some (2 ^ 50)
  | 'E' | 'e' => some (2 ^ 60)
  | _ => none

/-- Modelled from the spec: `strtosz_suffix` with `STRTOSZ_DEFSUFFIX_B`, absent here. -/
def strtoszSpec (s : String) : Int × List Char :=
  let ws := (s.toList.takeWhile isSpace).length
  let t := s.toList.drop ws
  let (neg, sign) : Bool × Nat := match t with
    | '-' :: _ => (true, 1)
    | '+' :: _ => (false, 1)
    | _ => (false, 0)
  let u := t.drop sign
  let (whole, wcount) := scanDigits 10 u 0
  let (frac, fcount, dot) : Nat × Nat × Nat := match u.drop wcount with
    | '.' :: r => ((scanDigits 10 r 0).1, (scanDigits 10 r 0).2, 1)
    | _ => (0, 0, 0)
  if wcount + fcount = 0 then (-22, s.toList) else
  -- the literal is `num / 10 ^ fcount`
  let num := whole * 10 ^ fcount + frac
  let (mul, rest) : Nat × List Char := match u.drop (wcount + dot + fcount) with
    | c :: r => match suffixMul c with
      | some m => (m, r)
      | none => (1, c :: r)
    | [] => (1, [])
  if frac ≠ 0 ∧ mul = 1 then (-22, rest)
  else if (neg ∧ num ≠ 0) ∨ int64Max * 10 ^ fcount ≤ num * mul then (-(erange : Int), rest)
  else ((num * mul / 10 ^ fcount : Nat), rest)

example : strtoszSpec "1.5K" = (1536, []) := by decide
example : strtoszSpec "1.5" = (-22, []) := by decide
example : strtoszSpec "64k" = (65536, []) := by decide

def specEnv : Env where
  rangeMax := 65536
  rangeMax_pos := by decide
  rangeMax_le := by decide
  parseUint := parseUintSpec
  parseUint_null := by decide
  parseUint_empty := by decide
  strtoszSuffix := strtoszSpec

def parseUintPrefix (env : Env) (s : Option String) : Option (BitVec 64 × List Char) :=
  let r := env.parseUint s
  if r.ret = 0 then some (r.value, (s.getD "").toList.drop r.endptr) else none

/-- Modelled from the spec: `parse_uint_full`, `parse_uint` that must reach the end. -/
def parseUintFull (env : Env) (s : List Char) : Option (BitVec 64) :=
  match parseUintPrefix env (some (String.mk s)) with
  | some (v, []) => some v
  | _ => none

end QemuOptsVisitor.Parsing
