import QemuOptsVisitor.Decoders

/-! The interval arithmetic of `opts_type_int`, `opts_type_uint64` and `opts_next_list`: the
bound tests agree with their meaning over the integers without overflowing, and counting
`range_next` up to `range_limit` never wraps. -/

namespace QemuOptsVisitor.RangeCheck
open Parsing Visitor Decoders

theorem bmod_of_mem {x : Int} (h1 : int64Min ≤ x) (h2 : x ≤ int64Max) :
    x.bmod (2 ^ 64) = x := by
  rw [Int.bmod_def]
  simp only [int64Min, int64Max] at *
  simp only [Nat.reducePow, Int.reducePow, Int.reduceNeg] at *
  split <;> omega

theorem toInt_mem (x : BitVec 64) : int64Min ≤ x.toInt ∧ x.toInt ≤ int64Max := by
  have := x.isLt
  rw [BitVec.toInt_eq_toNat_cond]
  simp only [int64Min, int64Max]
  simp only [Nat.reducePow, Int.reducePow, Int.reduceNeg] at *
  split <;> omega

theorem toInt_ofInt_of_mem {v : Int} (h1 : int64Min ≤ v) (h2 : v ≤ int64Max) :
    (BitVec.ofInt 64 v).toInt = v := by
  rw [BitVec.toInt_ofInt, bmod_of_mem h1 h2]

theorem toInt_add_one {a b : BitVec 64} (h : a.toInt < b.toInt) :
    (a + 1).toInt = a.toInt + 1 := by
  have ha := toInt_mem a
  have hb := toInt_mem b
  rw [BitVec.toInt_add, show (1 : BitVec 64).toInt = 1 by rfl, bmod_of_mem (by omega) (by omega)]

theorem toNat_add_one {a b : BitVec 64} (h : a.toNat < b.toNat) :
    (a + 1).toNat = a.toNat + 1 := by
  have := b.isLt
  rw [BitVec.toNat_add, show (1 : BitVec 64).toNat = 1 by rfl, Nat.mod_eq_of_lt (by omega)]

theorem int64Checked_of_mem {x : Int} (h1 : int64Min ≤ x) (h2 : x ≤ int64Max) :
    int64Checked x = some x := by
  simp [int64Checked, h1, h2]

theorem signedRangeOk_eq {M : Nat} (hM : (M : Int) ≤ int64Max) {a b : Int}
    (ha : int64Min ≤ a ∧ a ≤ int64Max) (hb : int64Min ≤ b ∧ b ≤ int64Max) :
    signedRangeOk M a b = some (decide (a ≤ b ∧ b - a < M)) := by
  have hm : int64Min ≤ int64Max - M := by simp only [int64Min, int64Max] at *; omega
  have hm' : int64Max - M ≤ int64Max := by omega
  rw [signedRangeOk]
  by_cases hab : a ≤ b
  · rw [if_pos hab, int64Checked_of_mem hm hm', Option.some_bind]
    by_cases hl : int64Max - M < a
    · rw [if_pos hl, Option.some.injEq, eq_comm, decide_eq_true_eq]; omega
    · rw [if_neg hl, int64Checked_of_mem (by simp only [int64Min, int64Max] at *; omega) (by omega)]
      simp only [Option.map_some', Option.some.injEq, decide_eq_decide]
      omega
  · simp [hab]

theorem unsignedRangeOk_eq {M : Nat} (hM : M < 2 ^ 64) (a b : BitVec 64) :
    unsignedRangeOk M a b = some (decide (a.toNat ≤ b.toNat ∧ b.toNat - a.toNat < M)) := by
  simp only [unsignedRangeOk, BitVec.le_def, BitVec.lt_def, BitVec.toNat_ofNat,
    Nat.mod_eq_of_lt hM, Option.some.injEq]
  by_cases h : a.toNat ≤ b.toNat
  · simp [h, BitVec.toNat_sub_of_le (BitVec.le_def.2 h)]
  · simp [h]

/-- The bound an interval mode keeps between `range_next` and `range_limit`. -/
def intervalBounded (M : Nat) : ListMode → BitVec 64 → BitVec 64 → Prop
  | .lmSignedInterval, next, limit => next.toInt ≤ limit.toInt ∧ limit.toInt - next.toInt < M
  | .lmUnsignedInterval, next, limit => next.toNat ≤ limit.toNat ∧ limit.toNat - next.toNat < M
  | _, _, _ => True

/-- A decoder kind that enters an interval mode only with bounds it accepted. -/
structure Lawful {V : Type} (k : IntegerKind V) (M : Nat) : Prop where
  interval : k.interval = .lmSignedInterval ∨ k.interval = .lmUnsignedInterval
  rangeOk_isSome : ∀ s a rest b, k.parse s = some (a, '-' :: rest) → k.parseFull rest = some b →
    (k.rangeOk a b).isSome
  bounded : ∀ s a rest b, k.parse s = some (a, '-' :: rest) → k.parseFull rest = some b →
    k.rangeOk a b = some true → intervalBounded M k.interval (k.store a) (k.store b)

theorem int64Kind_lawful {M : Nat} (hM : (M : Int) ≤ int64Max) : Lawful (int64Kind M) M where
  interval := .inl rfl
  rangeOk_isSome s a rest b ha hb := by
    rw [int64Kind_parse] at ha
    rw [int64Kind_parseFull] at hb
    rw [int64Kind_rangeOk, signedRangeOk_eq hM (strtollPrefix_mem ha) (strtollFull_mem hb)]
    rfl
  bounded s a rest b ha hb hok := by
    rw [int64Kind_parse] at ha
    rw [int64Kind_parseFull] at hb
    have ha' := strtollPrefix_mem ha
    have hb' := strtollFull_mem hb
    rw [int64Kind_rangeOk, signedRangeOk_eq hM ha' hb', Option.some.injEq,
      decide_eq_true_eq] at hok
    rw [int64Kind_interval, int64Kind_store, intervalBounded, toInt_ofInt_of_mem ha'.1 ha'.2,
      toInt_ofInt_of_mem hb'.1 hb'.2]
    omega

theorem uint64Kind_lawful (env : Env) : Lawful (uint64Kind env) env.rangeMax where
  interval := .inr rfl
  rangeOk_isSome _ _ _ _ _ _ := rfl
  bounded s a rest b _ _ hok := by
    have hM : env.rangeMax < 2 ^ 64 := by
      have := env.rangeMax_le; simp only [int64Max] at this; omega
    change unsignedRangeOk env.rangeMax a b = some true at hok
    rw [unsignedRangeOk_eq hM, Option.some.injEq, decide_eq_true_eq] at hok
    exact hok

end QemuOptsVisitor.RangeCheck
