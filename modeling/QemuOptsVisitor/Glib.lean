import Mathlib.Data.List.Nodup
import Mathlib.Algebra.Group.Nat.Basic
import Mathlib.Algebra.Group.Int

/-! The two GLib containers of the visitor. `GQueue` objects live in a heap indexed by
allocation order: `g_queue_new` appends a cell, `g_queue_free` empties it and the address is
never handed out again. The `GHashTable` from option names to queue addresses is the list of its
entries in the table's own iteration order; its value destructor is `destroy_list`. -/

namespace QemuOptsVisitor.Glib

/-- `GQueue` objects by address; `none` once the queue was freed. -/
abbrev Heap (α : Type) := List (Option (List α))

def Heap.queue {α : Type} (h : Heap α) (p : Nat) : Option (List α) := h[p]?.join

def Heap.write {α : Type} (h : Heap α) (p : Nat) (v : Option (List α)) : Heap α := h.set p v

def gQueueNew {α : Type} (h : Heap α) : Nat × Heap α := (h.length, h ++ [some []])

def gQueueFree {α : Type} (h : Heap α) (p : Nat) : Heap α := h.write p none

/-- Every `g_queue_*` access below is `none` on a freed or never allocated queue. -/
def gQueuePushTail {α : Type} (h : Heap α) (p : Nat) (x : α) : Option (Heap α) :=
  (h.queue p).map fun q => h.write p (some (q ++ [x]))

def gQueuePopHead {α : Type} (h : Heap α) (p : Nat) : Option (Option α × Heap α) :=
  (h.queue p).map fun
    | [] => (none, h)
    | x :: q => (some x, h.write p (some q))

def gQueueIsEmpty {α : Type} (h : Heap α) (p : Nat) : Option Bool := (h.queue p).map List.isEmpty

def gQueuePeekHead {α : Type} (h : Heap α) (p : Nat) : Option (Option α) :=
  (h.queue p).map List.head?

def gQueuePeekTail {α : Type} (h : Heap α) (p : Nat) : Option (Option α) :=
  (h.queue p).map List.getLast?

/-- A string-keyed table of queue addresses. -/
abbrev Table := List (String × Nat)

def gHashTableLookup : Table → String → Option Nat
  | [], _ => none
  | (k, p) :: t, key => if k = key then some p else gHashTableLookup t key

def gHashTableInsert (t : Table) (key : String) (p : Nat) : Table := t ++ [(key, p)]

/-- `g_hash_table_remove`, with `destroy_list` freeing the queue of the removed entry. -/
def gHashTableRemove (t : Table) (h : Heap α) (key : String) : Table × Heap α :=
  match gHashTableLookup t key with
  | none => (t, h)
  | some p => (t.filter (·.1 ≠ key), gQueueFree h p)

def gHashTableFind (t : Table) (pred : String → Nat → Bool) : Option Nat :=
  (t.find? fun e => pred e.1 e.2).map Prod.snd

def gHashTableDestroy (t : Table) (h : Heap α) : Heap α :=
  t.foldl (fun h e => gQueueFree h e.2) h

/-! Heap frame lemmas. -/

@[simp] theorem queue_write_self {α : Type} (h : Heap α) (p : Nat) (v : Option (List α))
    (hp : p < h.length) : (h.write p v).queue p = v := by
  simp [Heap.queue, Heap.write, List.getElem?_set_self hp]

@[simp] theorem queue_write_ne {α : Type} (h : Heap α) {p p' : Nat} (v : Option (List α))
    (hp : p ≠ p') : (h.write p v).queue p' = h.queue p' := by
  simp [Heap.queue, Heap.write, List.getElem?_set_ne hp]

@[simp] theorem write_write {α : Type} (h : Heap α) (p : Nat) (v w : Option (List α)) :
    (h.write p v).write p w = h.write p w := List.set_set ..

theorem lt_length_of_queue {α : Type} {h : Heap α} {p : Nat} {q : List α}
    (hq : h.queue p = some q) : p < h.length := by
  by_contra hn
  simp [Heap.queue, List.getElem?_eq_none (Nat.le_of_not_lt hn)] at hq

theorem write_queue_self {α : Type} {h : Heap α} {p : Nat} {q : List α}
    (hq : h.queue p = some q) : h.write p (some q) = h := by
  have hp : h[p]? = some (some q) := by
    cases h' : h[p]? with
    | none => simp [Heap.queue, h'] at hq
    | some v => simp_all [Heap.queue]
  apply List.ext_getElem?
  intro i
  rw [Heap.write, List.getElem?_set]
  split_ifs with h1 h2
  · rw [← hp, h1]
  · exact absurd (lt_length_of_queue hq) (h1 ▸ h2)
  · rfl

theorem write_comm {α : Type} (h : Heap α) {p p' : Nat} (v v' : Option (List α)) (hp : p ≠ p') :
    (h.write p v).write p' v' = (h.write p' v').write p v :=
  List.set_comm _ _ _ hp

@[simp] theorem length_write {α : Type} (h : Heap α) (p : Nat) (v : Option (List α)) :
    (h.write p v).length = h.length := List.length_set ..

theorem queue_append_old {α : Type} (h : Heap α) (v : Option (List α)) {p : Nat}
    (hp : p < h.length) : Heap.queue (h ++ [v]) p = h.queue p := by
  simp [Heap.queue, List.getElem?_append_left hp]

theorem queue_destroy_of_not_mem {α : Type} (t : Table) (h : Heap α) {p : Nat}
    (hp : ∀ e ∈ t, e.2 ≠ p) : (gHashTableDestroy t h).queue p = h.queue p := by
  induction t generalizing h with
  | nil => rfl
  | cons e t ih =>
    simp only [gHashTableDestroy, List.foldl_cons] at ih ⊢
    rw [ih _ fun e' he' => hp e' (List.mem_cons_of_mem _ he'), gQueueFree,
      queue_write_ne _ _ (hp e (List.mem_cons_self _ _))]

theorem queue_write_none_self {α : Type} (h : Heap α) (p : Nat) : (h.write p none).queue p = none := by
  simp only [Heap.queue, Heap.write, List.getElem?_set, if_true]
  split <;> rfl

theorem queue_destroy_none {α : Type} (t : Table) (h : Heap α) {p : Nat}
    (hp : h.queue p = none ∨ ∃ k, (k, p) ∈ t) : (gHashTableDestroy t h).queue p = none := by
  induction t generalizing h with
  | nil => simpa using hp
  | cons e t ih =>
    simp only [gHashTableDestroy, List.foldl_cons] at ih ⊢
    apply ih
    by_cases he : e.2 = p
    · exact .inl (he ▸ queue_write_none_self h e.2)
    · rw [gQueueFree, queue_write_ne _ _ he]
      rcases hp with hp | ⟨k, hk⟩
      · exact .inl hp
      · rcases List.mem_cons.1 hk with rfl | hk
        · exact absurd rfl he
        · exact .inr ⟨k, hk⟩

/-! Table lemmas. -/

theorem lookup_mem {t : Table} {k : String} {p : Nat} (h : gHashTableLookup t k = some p) :
    (k, p) ∈ t := by
  induction t with
  | nil => simp [gHashTableLookup] at h
  | cons e t ih =>
    simp only [gHashTableLookup] at h
    split_ifs at h with hk
    · cases h; simp [← hk]
    · exact List.mem_cons_of_mem _ (ih h)

theorem lookup_of_mem {t : Table} {k : String} {p : Nat} (hn : (t.map Prod.fst).Nodup)
    (h : (k, p) ∈ t) : gHashTableLookup t k = some p := by
  induction t with
  | nil => simp at h
  | cons e t ih =>
    simp only [List.map_cons, List.nodup_cons, List.mem_map] at hn
    simp only [gHashTableLookup]
    rcases List.mem_cons.1 h with rfl | h
    · simp
    · rw [if_neg fun he => hn.1 ⟨_, h, he.symm⟩]
      exact ih hn.2 h

theorem lookup_eq_none {t : Table} {k : String} :
    gHashTableLookup t k = none ↔ k ∉ t.map Prod.fst := by
  induction t with
  | nil => simp [gHashTableLookup]
  | cons e t ih =>
    simp only [gHashTableLookup, List.map_cons, List.mem_cons]
    split_ifs with hk <;> simp_all [eq_comm]

theorem lookup_isSome {t : Table} {k : String} :
    (gHashTableLookup t k).isSome ↔ k ∈ t.map Prod.fst := by
  rw [← not_iff_not, Option.not_isSome_iff_eq_none, lookup_eq_none]

theorem lookup_filter_ne {t : Table} {k n : String} (hk : k ≠ n) :
    gHashTableLookup (t.filter (·.1 ≠ n)) k = gHashTableLookup t k := by
  induction t with
  | nil => rfl
  | cons e t ih =>
    by_cases he : e.1 = n
    · rw [List.filter_cons_of_neg (by simp [he]), ih, gHashTableLookup,
        if_neg fun h => hk (h.symm.trans he)]
    · rw [List.filter_cons_of_pos (by simp [he]), gHashTableLookup, gHashTableLookup, ih]

theorem lookup_filter_self (t : Table) (n : String) :
    gHashTableLookup (t.filter (·.1 ≠ n)) n = none := by
  rw [lookup_eq_none]
  simp

theorem mem_keys_filter {t : Table} {n m : String} :
    m ∈ (t.filter (·.1 ≠ n)).map Prod.fst ↔ m ∈ t.map Prod.fst ∧ m ≠ n := by
  simp only [List.mem_map, List.mem_filter, decide_eq_true_eq]
  constructor
  · rintro ⟨e, ⟨he, hn⟩, rfl⟩; exact ⟨⟨e, he, rfl⟩, hn⟩
  · rintro ⟨⟨e, he, rfl⟩, hn⟩; exact ⟨e, ⟨he, hn⟩, rfl⟩

theorem lookup_insert (t : Table) (key k : String) (p : Nat) :
    gHashTableLookup (gHashTableInsert t key p) k =
      (gHashTableLookup t k).or (if key = k then some p else none) := by
  induction t with
  | nil => simp [gHashTableInsert, gHashTableLookup]
  | cons e t ih =>
    simp only [gHashTableInsert, List.cons_append, gHashTableLookup] at ih ⊢
    split_ifs <;> simp_all

end QemuOptsVisitor.Glib
