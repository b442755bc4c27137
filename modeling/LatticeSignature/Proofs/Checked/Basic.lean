import LatticeSignature.Bytes
import LatticeSignature.Proofs.Words

/-!
# Checked evaluation

An evaluation that looks at every result and every index before it goes on: it stops with a fault
where a result does not fit its type or an index lies outside. Where it does not stop, it returns
what word arithmetic, which wraps around, and structural access return.

* `Fault`, `Checked`: why an evaluation stops, and what it returns otherwise.
* `Checked.add`, …, `Checked.narrow`: arithmetic on words, by way of the exact result.
* `Checked.get`, `Checked.set`, `Checked.slice`, `Checked.splice`: access to arrays and buffers.
* `Checked.tabulate`, `Checked.loop`: loops; **`Checked.loop_eq`** follows their state.
-/

namespace LatticeSignature

inductive Fault where
  /-- A result does not fit its type. -/
  | overflow
  /-- An index or a range lies outside of what it refers to. -/
  | outOfBounds
deriving DecidableEq

/-- What a checked evaluation returns. -/
abbrev Checked := Except Fault

namespace Checked

variable {α β σ : Type}

theorem bind_of_eq {x : Checked α} {a : α} (h : x = .ok a) (f : α → Checked β) :
    (x >>= f) = f a := by
  rw [h]
  rfl

/-! ## Words -/

/-- The 32-bit word of a value. -/
def word (x : ℤ) : Checked Int32 :=
  if -2147483648 ≤ x ∧ x < 2147483648 then .ok (Int32.ofInt x) else .error .overflow

/-- The 64-bit word of a value. -/
def word64 (x : ℤ) : Checked Int64 :=
  if -9223372036854775808 ≤ x ∧ x < 9223372036854775808 then .ok (Int64.ofInt x)
  else .error .overflow

def add (a b : Int32) : Checked Int32 := word (a.toInt + b.toInt)

def sub (a b : Int32) : Checked Int32 := word (a.toInt - b.toInt)

def mul (a b : Int32) : Checked Int32 := word (a.toInt * b.toInt)

def neg (a : Int32) : Checked Int32 := word (-a.toInt)

/-- A shift to the left multiplies by a power of two. -/
def shl (a : Int32) (k : ℕ) : Checked Int32 := word (a.toInt * 2 ^ k)

def sub64 (a b : Int64) : Checked Int64 := word64 (a.toInt - b.toInt)

def mul64 (a b : Int64) : Checked Int64 := word64 (a.toInt * b.toInt)

/-- The 32-bit word with the value of a 64-bit word. -/
def narrow (a : Int64) : Checked Int32 := word a.toInt

/-- A number that an unsigned word of some width holds. -/
def unsigned (width n : ℕ) : Checked ℕ := if n < 2 ^ width then .ok n else .error .overflow

/-- The byte of a number. -/
def byte (n : ℕ) : Checked UInt8 := if n < 256 then .ok n.toUInt8 else .error .overflow

/-- The 16-bit word of a number. -/
def word16 (n : ℕ) : Checked UInt16 := if n < 65536 then .ok n.toUInt16 else .error .overflow

/-- The size that a word holds. -/
def size (a : Int32) : Checked ℕ :=
  if 0 ≤ a.toInt then .ok a.toNatClampNeg else .error .overflow

/-- The difference of two unsigned words. -/
def minus (m n : ℕ) : Checked ℕ := if n ≤ m then .ok (m - n) else .error .overflow

section Words

variable {a b : Int32} {x y : ℤ} {m n : ℕ}

theorem word_eq (h : a.toInt = x) : word x = .ok a := by
  have hlo := a.le_toInt
  have hhi := a.toInt_lt
  norm_num at hlo hhi
  rw [word, ← h, if_pos ⟨hlo, hhi⟩, Int32.ofInt_toInt]

theorem word64_eq {a : Int64} (h : a.toInt = x) : word64 x = .ok a := by
  have hlo := a.le_toInt
  have hhi := a.toInt_lt
  norm_num at hlo hhi
  rw [word64, ← h, if_pos ⟨hlo, hhi⟩, Int64.ofInt_toInt]

theorem add_eq (ha : a.toInt = x) (hb : b.toInt = y) (h : -2147483648 ≤ x + y)
    (h' : x + y < 2147483648) : add a b = .ok (a + b) ∧ (a + b).toInt = x + y := by
  subst ha hb
  have := Words.toInt_add h h'
  exact ⟨word_eq this, this⟩

example : add 2147483647 1 = .error .overflow := rfl

theorem sub_eq (ha : a.toInt = x) (hb : b.toInt = y) (h : -2147483648 ≤ x - y)
    (h' : x - y < 2147483648) : sub a b = .ok (a - b) ∧ (a - b).toInt = x - y := by
  subst ha hb
  have := Words.toInt_sub h h'
  exact ⟨word_eq this, this⟩

theorem mul_eq (ha : a.toInt = x) (hb : b.toInt = y) (h : -2147483648 ≤ x * y)
    (h' : x * y < 2147483648) : mul a b = .ok (a * b) ∧ (a * b).toInt = x * y := by
  subst ha hb
  have := Words.toInt_mul h h'
  exact ⟨word_eq this, this⟩

theorem neg_eq (h : -2147483648 < a.toInt) : neg a = .ok (-a) := word_eq (Words.toInt_neg h)

theorem shl_thirteen_eq (ha : a.toInt = x) (h : 0 ≤ x) (h' : x ≤ 1023) :
    shl a 13 = .ok (a <<< 13) ∧ (a <<< 13).toInt = x * 8192 := by
  subst ha
  have := Words.toInt_shiftLeft_thirteen h h'
  exact ⟨word_eq this, this⟩

theorem mul64_eq (a b : Int32) : mul64 a.toInt64 b.toInt64 = .ok (a.toInt64 * b.toInt64) := by
  rw [mul64, Int32.toInt_toInt64, Int32.toInt_toInt64]
  exact word64_eq (Words.toInt_mul_toInt64 a b)

theorem narrow_eq {a : Int64} (h : -2147483648 ≤ a.toInt) (h' : a.toInt < 2147483648) :
    narrow a = .ok a.toInt32 := by
  refine word_eq ?_
  rw [Int64.toInt_toInt32]
  exact Int.bmod_eq_of_le (by norm_num; omega) (by norm_num; omega)

theorem unsigned_eq {width : ℕ} (h : n < 2 ^ width) : unsigned width n = .ok n := if_pos h

theorem byte_eq (h : n < 256) : byte n = .ok n.toUInt8 := if_pos h

theorem word16_eq (h : n < 65536) : word16 n = .ok n.toUInt16 := if_pos h

theorem minus_eq (h : n ≤ m) : minus m n = .ok (m - n) := if_pos h

end Words

/-! ## Arrays and buffers -/

section Arrays

variable {n : ℕ}

def get (v : Vector α n) (i : ℕ) : Checked α :=
  if h : i < n then .ok v[i] else .error .outOfBounds

def set (v : Vector α n) (i : ℕ) (a : α) : Checked (Vector α n) :=
  if h : i < n then .ok (v.set i a) else .error .outOfBounds

theorem get_eq (v : Vector α n) {i : ℕ} (h : i < n) : get v i = .ok v[i] := dif_pos h

theorem exists_get {v : Vector α n} {a : α} (h : a ∈ v.toList) : ∃ i, v.get i = a := by
  obtain ⟨i, hi, rfl⟩ := List.getElem_of_mem h
  exact ⟨⟨i, by simpa using hi⟩, rfl⟩

theorem set_eq (v : Vector α n) {i : ℕ} (h : i < n) (a : α) : set v i a = .ok (v.set i a) := dif_pos h

end Arrays

section Buffers

variable {l earlier part later : List α}

def elem (l : List α) (i : ℕ) : Checked α :=
  if h : i < l.length then .ok l[i] else .error .outOfBounds

def store (l : List α) (i : ℕ) (a : α) : Checked (List α) :=
  if i < l.length then .ok (l.set i a) else .error .outOfBounds

/-- The part of a buffer from `start` up to `stop`. -/
def slice (l : List α) (start stop : ℕ) : Checked (List α) :=
  if start ≤ stop ∧ stop ≤ l.length then .ok ((l.drop start).take (stop - start))
  else .error .outOfBounds

/-- A buffer with `part` written over it from `start` on. -/
def splice (l : List α) (start : ℕ) (part : List α) : Checked (List α) :=
  if start + part.length ≤ l.length then
    .ok (l.take start ++ part ++ l.drop (start + part.length))
  else .error .outOfBounds

theorem elem_eq {i : ℕ} (h : i < l.length) : elem l i = .ok l[i] := dif_pos h

theorem store_eq {i : ℕ} (h : i < l.length) (a : α) : store l i a = .ok (l.set i a) := if_pos h

theorem store_append (a b : α) :
    store (earlier ++ a :: later) earlier.length b = .ok (earlier ++ b :: later) := by
  rw [store_eq (by simp), List.set_append_right _ _ le_rfl, Nat.sub_self]
  rfl

theorem slice_eq {start stop : ℕ} (h : start ≤ stop) (h' : stop ≤ l.length) :
    slice l start stop = .ok ((l.drop start).take (stop - start)) := if_pos ⟨h, h'⟩

theorem slice_append {stop : ℕ} (h : stop = earlier.length + part.length) :
    slice (earlier ++ part ++ later) earlier.length stop = .ok part := by
  subst h
  rw [slice_eq (Nat.le_add_right _ _) (by simp), Nat.add_sub_cancel_left, List.append_assoc,
    List.drop_left, List.take_left]

theorem slice_to_end : slice (earlier ++ part) earlier.length (earlier ++ part).length = .ok part := by
  have := @slice_append _ earlier part [] _ List.length_append
  rwa [List.append_nil] at this

theorem slice_front {stop : ℕ} (h : stop = part.length) : slice (part ++ later) 0 stop = .ok part :=
  @slice_append _ [] part later stop (by simpa using h)

theorem slice_all {n : ℕ} (h : l.length = n) : slice l 0 n = .ok l := by
  have := @slice_front _ l [] n h.symm
  rwa [List.append_nil] at this

theorem splice_append {part' : List α} (h : part'.length = part.length) :
    splice (earlier ++ part ++ later) earlier.length part' = .ok (earlier ++ part' ++ later) := by
  have htake : (earlier ++ part ++ later).take earlier.length = earlier := by
    rw [List.append_assoc, List.take_left]
  rw [splice, if_pos (by simp [h]), htake, h, ← List.length_append, List.drop_left]

theorem splice_to_end {part' : List α} (h : part'.length = part.length) :
    splice (earlier ++ part) earlier.length part' = .ok (earlier ++ part') := by
  have := @splice_append _ earlier part [] part' h
  rwa [List.append_nil, List.append_nil] at this

theorem splice_front (h : part.length ≤ l.length) :
    splice l 0 part = .ok (part ++ l.drop part.length) := by
  rw [splice, if_pos (by omega), List.take_zero, List.nil_append, Nat.zero_add]

theorem splice_all (h : part.length = l.length) : splice l 0 part = .ok part :=
  @splice_to_end _ [] l part h

end Buffers

/-! ## Loops -/

section Tables

variable {γ : Type} {n : ℕ}

/-- The array of all `f i`. -/
def tabulate (f : Fin n → Checked α) : Checked (Vector α n) := Vector.ofFnM f

/-- The array of what `f` makes of each entry. -/
def each (f : α → Checked β) (v : Vector α n) : Checked (Vector β n) :=
  tabulate fun i => do
    let a ← get v i
    f a

/-- The array of what `f` makes of each two entries at a position. -/
def eachPair (f : α → β → Checked γ) (u : Vector α n) (v : Vector β n) : Checked (Vector γ n) :=
  tabulate fun i => do
    let a ← get u i
    let b ← get v i
    f a b

theorem tabulate_eq {f : Fin n → Checked α} {g : Fin n → α} (h : ∀ i, f i = .ok (g i)) :
    tabulate f = .ok (.ofFn g) := by
  rw [show f = fun i => .ok (g i) from funext h]
  exact Vector.ofFnM_pure

theorem each_eq {f : α → Checked β} {g : α → β} {v : Vector α n}
    (h : ∀ i : Fin n, f (v.get i) = .ok (g (v.get i))) : each f v = .ok (v.map g) := by
  have hentry (i : Fin n) : (do let a ← get v i; f a) = .ok (g (v.get i)) := by
    rw [bind_of_eq (get_eq v i.isLt)]
    exact h i
  rw [each, tabulate_eq hentry]
  exact congrArg Except.ok (Vector.ext fun i hi => by rw [Vector.getElem_ofFn, Vector.getElem_map]; rfl)

theorem eachPair_eq {f : α → β → Checked γ} {g : α → β → γ} {u : Vector α n} {v : Vector β n}
    (h : ∀ i : Fin n, f (u.get i) (v.get i) = .ok (g (u.get i) (v.get i))) :
    eachPair f u v = .ok (Vector.zipWith g u v) := by
  have hentry (i : Fin n) : (do let a ← get u i; let b ← get v i; f a b) =
      .ok (g (u.get i) (v.get i)) := by
    rw [bind_of_eq (get_eq u i.isLt), bind_of_eq (get_eq v i.isLt)]
    exact h i
  rw [eachPair, tabulate_eq hentry]
  exact congrArg Except.ok
    (Vector.ext fun i hi => by rw [Vector.getElem_ofFn, Vector.getElem_zipWith]; rfl)

end Tables

/-- Runs `body` for `n` numbers from `start` on, in order. -/
def loopFrom (body : ℕ → σ → Checked σ) : (start n : ℕ) → σ → Checked σ
  | _, 0, s => .ok s
  | start, n + 1, s => body start s >>= loopFrom body (start + 1) n

/-- Runs `body` for the numbers below `n`, in order. -/
def loop (body : ℕ → σ → Checked σ) (n : ℕ) (s : σ) : Checked σ := loopFrom body 0 n s

theorem loopFrom_eq {body : ℕ → σ → Checked σ} (f : ℕ → σ) {start n : ℕ}
    (h : ∀ i < start + n, start ≤ i → body i (f i) = .ok (f (i + 1))) :
    loopFrom body start n (f start) = .ok (f (start + n)) := by
  induction n generalizing start with
  | zero => rfl
  | succ n ih =>
    rw [loopFrom, bind_of_eq (h start (by omega) le_rfl), ih fun i hi hle => h i (by omega) (by omega),
      Nat.add_right_comm]
    rfl

/-- **A loop goes through the states that each step leads to.** -/
theorem loop_eq {body : ℕ → σ → Checked σ} (f : ℕ → σ) {n : ℕ}
    (h : ∀ i < n, body i (f i) = .ok (f (i + 1))) : loop body n (f 0) = .ok (f n) := by
  have := @loopFrom_eq σ body f 0 n fun i hi _ => h i (by omega)
  rwa [Nat.zero_add] at this

theorem exists_loopFrom_eq {body : ℕ → σ → Checked σ} {inv : ℕ → σ → Prop}
    (h : ∀ i s, inv i s → ∃ t, body i s = .ok t ∧ inv (i + 1) t) {start n : ℕ} {s : σ}
    (hs : inv start s) : ∃ t, loopFrom body start n s = .ok t ∧ inv (start + n) t := by
  induction n generalizing start s with
  | zero => exact ⟨s, rfl, hs⟩
  | succ n ih =>
    obtain ⟨t, ht, hinv⟩ := h start s hs
    rw [loopFrom, bind_of_eq ht, ← Nat.add_assoc, Nat.add_right_comm]
    exact ih hinv

/-- **A loop keeps what each step keeps.** -/
theorem exists_loop_eq {body : ℕ → σ → Checked σ} {inv : ℕ → σ → Prop}
    (h : ∀ i s, inv i s → ∃ t, body i s = .ok t ∧ inv (i + 1) t) {s : σ} (hs : inv 0 s) (n : ℕ) :
    ∃ t, loop body n s = .ok t ∧ inv n t := by
  have := @exists_loopFrom_eq σ body inv h 0 n s hs
  rwa [Nat.zero_add] at this

theorem loop_get {n : ℕ} (v : Vector α n) (body : α → σ → Checked σ) (s : σ) :
    loop (fun i s => do
      let a ← get v i
      body a s) n s = v.toList.foldlM (fun s a => body a s) s := by
  have hdrop : ∀ k i s, i + k = n → loopFrom (fun i s => do
      let a ← get v i
      body a s) i k s = (v.toList.drop i).foldlM (fun s a => body a s) s := by
    intro k
    induction k with
    | zero =>
      intro i s hi
      rw [List.drop_of_length_le (by simp; omega)]
      rfl
    | succ k ih =>
      intro i s hi
      have hlt : i < n := by omega
      rw [List.drop_eq_getElem_cons (by simpa using hlt), List.foldlM_cons, loopFrom,
        bind_of_eq (get_eq v hlt)]
      exact congrArg (body v[i] s >>= ·) (funext fun s => ih (i + 1) s (by omega))
  exact hdrop n 0 s (Nat.zero_add n)

theorem foldlM_congr {body body' : σ → α → Checked σ} {l : List α} {s : σ}
    (h : ∀ s, ∀ a ∈ l, body s a = body' s a) : l.foldlM body s = l.foldlM body' s := by
  induction l generalizing s with
  | nil => rfl
  | cons a l ih =>
    rw [List.foldlM_cons, List.foldlM_cons, h s a List.mem_cons_self]
    exact congrArg (body' s a >>= ·) (funext fun s => ih fun s b hb => h s b (List.mem_cons_of_mem a hb))

theorem foldlM_eq {body : σ → α → Checked σ} {f : σ → α → σ} {l : List α} {s : σ}
    (h : ∀ s, ∀ a ∈ l, body s a = .ok (f s a)) : l.foldlM body s = .ok (l.foldl f s) := by
  induction l generalizing s with
  | nil => rfl
  | cons a l ih =>
    rw [List.foldlM_cons, bind_of_eq (h s a List.mem_cons_self), List.foldl_cons]
    exact ih fun s b hb => h s b (List.mem_cons_of_mem a hb)

end Checked

end LatticeSignature
