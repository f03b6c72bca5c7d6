import QemuOptsVisitor.Decoders

/-! Runs of the visitor. A step is one method call that returns normally; a call that would
abort or touch freed memory has no step, so a run is a caller that never does either, closes
only structs it opened, and never takes `depth` to 0 with a list open. `Caller` is what the
caller knows: the names it consumed in its current outermost struct, the list it has open, and
how many structs it has open, now and at most. -/

namespace QemuOptsVisitor.Protocol
open Glib Parsing Visitor Decoders

structure Caller where
  consumed : List String
  /-- the open list's name, and whether `opts_next_list` has returned NULL for it -/
  active : Option (String × Bool)
  nesting : Nat
  peak : Nat
deriving DecidableEq, Repr

/-- `opts_start_struct` returned; the caller's outermost struct starts with nothing consumed. -/
def Caller.opened (g : Caller) : Caller :=
  { g with consumed := if g.nesting = 0 then [] else g.consumed, nesting := g.nesting + 1,
           peak := max g.peak (g.nesting + 1) }

theorem Caller.opened_of_zero {g : Caller} (hn : g.nesting = 0) :
    g.opened = { g with consumed := [], nesting := 1, peak := max g.peak 1 } := by
  simp [Caller.opened, hn]

theorem Caller.opened_of_ne_zero {g : Caller} (hn : g.nesting ≠ 0) :
    g.opened = { g with nesting := g.nesting + 1, peak := max g.peak (g.nesting + 1) } := by
  simp [Caller.opened, hn]

/-- A scalar decode consumes its name when it stores a value outside a list. -/
def Caller.afterDecode (g : Caller) (mode : ListMode) (name : String) (stored : Bool) : Caller :=
  if mode = .lmNone ∧ stored = true then { g with consumed := name :: g.consumed } else g

/-- `opts_next_list` returned NULL: the open list's name is consumed. -/
def Caller.listEnded (g : Caller) : Caller :=
  match g.active with
  | some (n, _) => { g with consumed := n :: g.consumed, active := some (n, true) }
  | none => g

@[simp] theorem Caller.afterDecode_peak (g : Caller) (mode : ListMode) (name : String)
    (stored : Bool) : (g.afterDecode mode name stored).peak = g.peak := by
  unfold Caller.afterDecode
  split <;> rfl

@[simp] theorem Caller.listEnded_peak (g : Caller) : g.listEnded.peak = g.peak := by
  unfold Caller.listEnded
  split <;> rfl

inductive Step (env : Env) : OptsVisitor × Caller → OptsVisitor × Caller → Prop
  | startStruct {ov ov' : OptsVisitor} {g : Caller} : optsStartStruct ov = some ((), ov') →
      Step env (ov, g) (ov', g.opened)
  | endStruct {ov ov' : OptsVisitor} {g : Caller} {e : Option QError} :
      optsEndStruct ov = some (e, ov') → 0 < g.nesting → ov.depth ≠ 1 ∨ ov.listMode = .lmNone →
      Step env (ov, g) (ov', { g with nesting := g.nesting - 1 })
  | startList {ov ov' : OptsVisitor} {g : Caller} {e : Option QError} (name : String) :
      optsStartList name ov = some (e, ov') →
      Step env (ov, g) (ov', if e = none then { g with active := some (name, false) } else g)
  | nextList {ov ov' : OptsVisitor} {g : Caller} {b : Bool} : optsNextList ov = some (b, ov') →
      Step env (ov, g) (ov', if b then g else g.listEnded)
  | endList {ov ov' : OptsVisitor} {g : Caller} : optsEndList ov = some ((), ov') →
      Step env (ov, g) (ov', { g with active := none })
  | typeStr {ov ov' : OptsVisitor} {g : Caller} {d : Decoded String} (name : String) :
      optsTypeStr name ov = some (d, ov') →
      Step env (ov, g) (ov', g.afterDecode ov.listMode name (Decoded.isStored d))
  | typeBool {ov ov' : OptsVisitor} {g : Caller} {d : Decoded Bool} (name : String) :
      optsTypeBool name ov = some (d, ov') →
      Step env (ov, g) (ov', g.afterDecode ov.listMode name (Decoded.isStored d))
  | typeInt {ov ov' : OptsVisitor} {g : Caller} {d : Decoded Int} (name : String) :
      optsTypeInt env name ov = some (d, ov') →
      Step env (ov, g) (ov', g.afterDecode ov.listMode name (Decoded.isStored d))
  | typeUint64 {ov ov' : OptsVisitor} {g : Caller} {d : Decoded (BitVec 64)} (name : String) :
      optsTypeUint64 env name ov = some (d, ov') →
      Step env (ov, g) (ov', g.afterDecode ov.listMode name (Decoded.isStored d))
  | typeSize {ov ov' : OptsVisitor} {g : Caller} {d : Decoded (BitVec 64)} (name : String) :
      optsTypeSize env name ov = some (d, ov') →
      Step env (ov, g) (ov', g.afterDecode ov.listMode name (Decoded.isStored d))
  | startOptional {ov ov' : OptsVisitor} {g : Caller} {b : Bool} (name : String) :
      optsStartOptional name ov = some (b, ov') → Step env (ov, g) (ov', g)

/-- The states a visitor made by `opts_visitor_new opts` reaches, with the caller's record. -/
inductive Reachable (env : Env) (opts : QemuOpts) : OptsVisitor → Caller → Prop
  | init : Reachable env opts (optsVisitorNew opts) ⟨[], none, 0, 0⟩
  | step {ov ov' : OptsVisitor} {g g' : Caller} :
      Reachable env opts ov g → Step env (ov, g) (ov', g') → Reachable env opts ov' g'

end QemuOptsVisitor.Protocol
