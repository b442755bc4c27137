import LatticeSignature.Hasher.Pool
import Mathlib.Data.List.DropRight
import Mathlib.Data.List.Nodup
import Mathlib.Logic.Function.Basic

/-!
# Runs of a pool of hashers

Guards take hashers out of a pool and bring them back in any order, often with something absorbed.
What a guard reads depends on the operations on this guard alone, and only on those since it was
handed out or last emptied.

* `Lending.Sound`: guards have names of their own, and at most `capacity` empty hashers are parked.
* `PoolOp`, `PoolState.run`: operations on guards and on copies of their hashers, one after the other.
* `account`: what each holder has absorbed, as the operations tell it.
* `moves`: the hashers that leave the pool and those that come back.
* **`PoolState.tracks_run`**: the state agrees with the operations, by induction on the run.
* **`pool_isolated`**: what guards read, what is parked, and how much of it.
-/

namespace LatticeSignature

/-! ## The pool -/

namespace HasherPool

@[simp]
theorem capacity_checkout (p : HasherPool) : p.checkout.2.capacity = p.capacity := by
  unfold checkout
  split <;> rfl

@[simp]
theorem capacity_giveBack (p : HasherPool) (h : Hasher) : (p.giveBack h).capacity = p.capacity := by
  unfold giveBack
  split <;> rfl

@[simp]
theorem checkout_fst (p : HasherPool) : p.checkout.1 = .empty := by
  unfold checkout
  split <;> rfl

theorem parked_checkout (p : HasherPool) : p.checkout.2.parked = p.parked.tail := by
  unfold checkout
  split
  · rename_i hparked
    rw [hparked]
    rfl
  · rename_i hparked
    rw [hparked]
    rfl

theorem idle_checkout (p : HasherPool) : p.checkout.2.idle = p.idle - 1 := by
  unfold idle
  rw [parked_checkout, List.length_tail]

/-- A hasher is discarded only if the pool is full. -/
theorem idle_giveBack {p : HasherPool} (hle : p.idle ≤ p.capacity) (h : Hasher) :
    (p.giveBack h).idle = min (p.idle + 1) p.capacity := by
  unfold giveBack
  split
  · rename_i hlt
    exact (min_eq_left hlt).symm
  · rename_i hfull
    have heq : p.idle = p.capacity := le_antisymm hle (not_lt.1 hfull)
    rw [heq, min_eq_right (Nat.le_succ _)]

theorem mem_parked_giveBack {p : HasherPool} {h h' : Hasher} (hmem : h' ∈ (p.giveBack h).parked) :
    h' = .empty ∨ h' ∈ p.parked := by
  unfold giveBack at hmem
  split at hmem
  · exact List.mem_cons.1 hmem
  · exact .inr hmem

end HasherPool

/-! ## Guards -/

namespace Lending

variable {l : Lending}

theorem lookup_cons (g : String × Hasher) (gs : List (String × Hasher)) (name : String) :
    (g :: gs).lookup name = if name = g.1 then some g.2 else gs.lookup name := by
  rw [List.lookup_cons]
  by_cases hn : name = g.1
  · rw [if_pos hn, beq_iff_eq.2 hn]
  · rw [if_neg hn, beq_false_of_ne hn]

theorem lookup_filter_ne (gs : List (String × Hasher)) (name name' : String) :
    (gs.filter (·.1 != name)).lookup name' = if name' = name then none else gs.lookup name' := by
  induction gs with
  | nil => simp
  | cons g gs ih =>
    rw [lookup_cons]
    by_cases hg : g.1 = name
    · rw [List.filter_cons_of_neg (by simp [hg]), ih, hg]
      split_ifs <;> rfl
    · rw [List.filter_cons_of_pos (by simp [hg]), lookup_cons, ih]
      split_ifs with h1 h2
      · exact absurd (h1.symm.trans h2) hg
      all_goals rfl

theorem lookup_map_replace (gs : List (String × Hasher)) (name name' : String) (h : Hasher) :
    (gs.map fun g => if g.1 == name then (name, h) else g).lookup name' =
      if name' = name then (gs.lookup name).map fun _ => h else gs.lookup name' := by
  induction gs with
  | nil => simp
  | cons g gs ih =>
    rw [List.map_cons, lookup_cons, ih, lookup_cons, lookup_cons]
    by_cases hg : g.1 = name
    · simp only [hg, beq_self_eq_true, if_true]
      split_ifs <;> rfl
    · simp only [beq_false_of_ne hg, Bool.false_eq_true, if_false, if_neg (Ne.symm hg)]
      split_ifs with h1 h2
      · exact absurd (h1.symm.trans h2) hg
      all_goals rfl

theorem find?_release (l : Lending) (name name' : String) :
    (l.release name).find? name' = if name' = name then none else l.find? name' := by
  unfold release
  split
  · rename_i hnone
    split
    · rename_i heq
      rw [heq, hnone]
    · rfl
  · exact lookup_filter_ne l.guards name name'

theorem release_release (l : Lending) (name : String) :
    (l.release name).release name = l.release name := by
  have hnone : (l.release name).find? name = none := by rw [find?_release, if_pos rfl]
  rw [release, hnone]

theorem find?_checkout (l : Lending) (name name' : String) :
    (l.checkout name).find? name' = if name' = name then some .empty else l.find? name' := by
  have hrest := find?_release { l with pool := l.pool.checkout.2 } name name'
  unfold checkout
  rw [find?, lookup_cons, HasherPool.checkout_fst]
  by_cases hn : name' = name
  · rw [if_pos hn, if_pos hn]
  · rw [if_neg hn] at hrest ⊢
    rw [if_neg hn]
    exact hrest

theorem find?_update (l : Lending) (name name' : String) (h : Hasher) :
    (l.update name h).find? name' =
      if name' = name then (l.find? name).map fun _ => h else l.find? name' :=
  lookup_map_replace l.guards name name' h

/-- **A lending in good order**: guards have names of their own, and the pool parks empty hashers only,
and no more than it has room for. -/
structure Sound (l : Lending) : Prop where
  nodup : (l.guards.map Prod.fst).Nodup
  parked_empty : ∀ h ∈ l.pool.parked, h = .empty
  idle_le : l.pool.idle ≤ l.pool.capacity

theorem sound_withCapacity (capacity : ℕ) : (withCapacity capacity).Sound :=
  ⟨List.nodup_nil, fun _ h => absurd h List.not_mem_nil, Nat.zero_le _⟩

theorem Sound.lend (hl : l.Sound) : Sound { l with pool := l.pool.checkout.2 } := by
  refine ⟨hl.nodup, fun h hmem => ?_, ?_⟩
  · rw [HasherPool.parked_checkout] at hmem
    exact hl.parked_empty h (List.mem_of_mem_tail hmem)
  · rw [HasherPool.idle_checkout, HasherPool.capacity_checkout]
    exact (Nat.sub_le _ _).trans hl.idle_le

theorem Sound.release (hl : l.Sound) (name : String) : (l.release name).Sound := by
  unfold Lending.release
  split
  · exact hl
  · rename_i h hfind
    refine ⟨hl.nodup.sublist (List.filter_sublist.map _), fun h' hmem => ?_, ?_⟩
    · rcases HasherPool.mem_parked_giveBack hmem with hempty | hparked
      · exact hempty
      · exact hl.parked_empty h' hparked
    · rw [HasherPool.idle_giveBack hl.idle_le, HasherPool.capacity_giveBack]
      exact min_le_right _ _

theorem Sound.checkout (hl : l.Sound) (name : String) : (l.checkout name).Sound := by
  have hrest := hl.lend.release name
  have hnone : (Lending.release { l with pool := l.pool.checkout.2 } name).find? name = none := by
    rw [find?_release, if_pos rfl]
  refine ⟨List.nodup_cons.2 ⟨fun hmem => ?_, hrest.nodup⟩, hrest.parked_empty, hrest.idle_le⟩
  obtain ⟨g, hg, hname⟩ := List.mem_map.1 hmem
  have hne := List.lookup_eq_none_iff.1 hnone g hg
  exact absurd hname (Ne.symm (bne_iff_ne.1 hne))

theorem Sound.update (hl : l.Sound) (name : String) (h : Hasher) : (l.update name h).Sound := by
  have hnames : (l.update name h).guards.map Prod.fst = l.guards.map Prod.fst := by
    rw [Lending.update, List.map_map]
    refine List.map_congr_left fun g _ => ?_
    by_cases hg : g.1 = name <;> simp [hg]
  exact ⟨hnames ▸ hl.nodup, hl.parked_empty, hl.idle_le⟩

end Lending

/-! ## Hashers that leave the pool and come back -/

/-- A hasher leaves the pool, or a guard ends. -/
inductive Move where
  | out
  | back
deriving DecidableEq

/-- The number of idle hashers after a move: one less, if there was one, or one more, if there is
room. -/
def Move.apply (capacity n : ℕ) : Move → ℕ
  | out => n - 1
  | back => min (n + 1) capacity

namespace Lending

variable {l : Lending}

/-- The end of a guard, if it is out. -/
def ending (l : Lending) (name : String) : List Move := if (l.find? name).isSome then [.back] else []

theorem capacity_release (l : Lending) (name : String) :
    (l.release name).pool.capacity = l.pool.capacity := by
  unfold release
  split
  · rfl
  · exact HasherPool.capacity_giveBack _ _

theorem capacity_checkout (l : Lending) (name : String) :
    (l.checkout name).pool.capacity = l.pool.capacity :=
  (capacity_release _ name).trans (HasherPool.capacity_checkout _)

theorem idle_release (hl : l.Sound) (name : String) :
    (l.release name).pool.idle = (l.ending name).foldl (Move.apply l.pool.capacity) l.pool.idle := by
  unfold release ending
  cases l.find? name with
  | none => rfl
  | some h => exact HasherPool.idle_giveBack hl.idle_le h

theorem idle_checkout (hl : l.Sound) (name : String) :
    (l.checkout name).pool.idle =
      (.out :: l.ending name).foldl (Move.apply l.pool.capacity) l.pool.idle := by
  have hrest := idle_release hl.lend name
  rw [HasherPool.idle_checkout, HasherPool.capacity_checkout] at hrest
  exact hrest

/-- A name is out once only, so that its end takes one guard away. -/
theorem length_guards_release (hl : l.Sound) (name : String) :
    (l.release name).guards.length + (l.ending name).count .back =
      l.guards.length + (l.ending name).count .out := by
  unfold release ending
  cases hfind : l.find? name with
  | none => rfl
  | some h =>
    have hmem : name ∈ l.guards.map Prod.fst := by
      obtain ⟨g, hg, hname⟩ := List.lookup_isSome_iff.1 (Option.isSome_of_eq_some hfind)
      exact List.mem_map.2 ⟨g, hg, (beq_iff_eq.1 hname).symm⟩
    have hnames : (l.guards.filter (·.1 != name)).map Prod.fst =
        (l.guards.map Prod.fst).erase name := by
      rw [hl.nodup.erase_eq_filter, List.filter_map]
      rfl
    have hlength := congrArg List.length hnames
    have hpos := List.length_pos_of_mem hmem
    rw [List.length_map, List.length_erase_of_mem hmem, List.length_map] at hlength
    rw [List.length_map] at hpos
    change (l.guards.filter (·.1 != name)).length + 1 = l.guards.length + 0
    omega

theorem length_guards_checkout (hl : l.Sound) (name : String) :
    (l.checkout name).guards.length + (.out :: l.ending name).count .back =
      l.guards.length + (.out :: l.ending name).count .out := by
  have hrest := length_guards_release hl.lend name
  rw [List.count_cons_of_ne (by decide), List.count_cons_self, ← Nat.add_assoc]
  change (release { l with pool := l.pool.checkout.2 } name).guards.length + 1 + _ = _
  rw [Nat.add_right_comm, Nat.add_right_cancel_iff]
  exact hrest

end Lending

/-! ## Operations -/

/-- Who holds a hasher: a guard, or a copy, which belongs to no pool. -/
inductive Holder where
  | guard (name : String)
  | copy (name : String)
deriving DecidableEq

/-- What is done with a pool, its guards, and copies of their hashers. -/
inductive PoolOp where
  | checkout (name : String)
  | release (name : String)
  | absorb (w : Holder) (data : Bytes)
  | squeeze (w : Holder) (n : ℕ)
  | reset (w : Holder)
  /-- Makes a copy of that name. -/
  | clone (w : Holder) (name : String)
deriving DecidableEq

/-- A lending and the copies of its hashers, the latest first. -/
structure PoolState where
  lending : Lending
  copies : List (String × Hasher)

namespace PoolState

/-- An empty pool with no guard out and no copy. -/
def withCapacity (capacity : ℕ) : PoolState := ⟨.withCapacity capacity, []⟩

/-- The hasher of a holder. -/
def find? (s : PoolState) : Holder → Option Hasher
  | .guard name => s.lending.find? name
  | .copy name => s.copies.lookup name

/-- Replaces the hasher of a holder by what a use of it leaves behind. -/
def use (s : PoolState) (w : Holder) (f : Hasher → Hasher) : PoolState :=
  match s.find? w, w with
  | none, _ => s
  | some h, .guard name => { s with lending := s.lending.update name (f h) }
  | some h, .copy name => { s with copies := (name, f h) :: s.copies }

/-- The state after an operation, and the bytes that are read. An operation on a guard that is not out
does nothing. -/
def step (X : Xof 136) (s : PoolState) : PoolOp → PoolState × Option Bytes
  | .checkout name => ({ s with lending := s.lending.checkout name }, none)
  | .release name => ({ s with lending := s.lending.release name }, none)
  | .absorb w data => (s.use w (·.absorb data), none)
  | .squeeze w n =>
    (s.use w fun h => (h.squeeze X n).2, (s.find? w).map fun h => (h.squeeze X n).1.bytes)
  | .reset w => (s.use w Hasher.reset, none)
  | .clone w name =>
    match s.find? w with
    | none => (s, none)
    | some h => ({ s with copies := (name, h) :: s.copies }, none)

/-- The state after operations on a new pool. -/
def run (X : Xof 136) (capacity : ℕ) (ops : List PoolOp) : PoolState :=
  ops.foldl (fun s op => (s.step X op).1) (.withCapacity capacity)

end PoolState

/-! ## What the operations tell -/

/-- What each holder has absorbed and not read off yet; `none` if there is no such holder. -/
abbrev Account := Holder → Option Bytes

/-- The account after an operation. -/
def Account.after (a : Account) : PoolOp → Account
  | .checkout name => Function.update a (.guard name) (some [])
  | .release name => Function.update a (.guard name) none
  | .absorb w data => Function.update a w ((a w).map (· ++ data))
  | .squeeze w _ => Function.update a w ((a w).map fun _ => [])
  | .reset w => Function.update a w ((a w).map fun _ => [])
  | .clone w name => Function.update a (.copy name) ((a w).or (a (.copy name)))

/-- The account of operations on a new pool. -/
def account (ops : List PoolOp) : Account := ops.foldl Account.after fun _ => none

/-- The end of a guard, if it is on the account. -/
def Account.ending (a : Account) (name : String) : List Move :=
  if (a (.guard name)).isSome then [.back] else []

/-- The moves of an operation: a guard that takes the name of another one is handed out before that
one ends. -/
def Account.moves (a : Account) : PoolOp → List Move
  | .checkout name => .out :: a.ending name
  | .release name => a.ending name
  | _ => []

/-- The moves of operations, one after the other. -/
def movesFrom (a : Account) : List PoolOp → List Move
  | [] => []
  | op :: ops => a.moves op ++ movesFrom (a.after op) ops

/-- The moves of operations on a new pool. -/
def moves (ops : List PoolOp) : List Move := movesFrom (fun _ => none) ops

theorem account_concat (ops : List PoolOp) (op : PoolOp) :
    account (ops ++ [op]) = (account ops).after op := by
  rw [account, List.foldl_concat]
  rfl

theorem movesFrom_concat (a : Account) (ops : List PoolOp) (op : PoolOp) :
    movesFrom a (ops ++ [op]) = movesFrom a ops ++ (ops.foldl Account.after a).moves op := by
  induction ops generalizing a with
  | nil => exact List.append_nil _
  | cons first ops ih =>
    rw [List.cons_append, movesFrom, ih, movesFrom, List.append_assoc, List.foldl_cons]

theorem moves_concat (ops : List PoolOp) (op : PoolOp) :
    moves (ops ++ [op]) = moves ops ++ (account ops).moves op :=
  movesFrom_concat _ ops op

theorem PoolState.run_concat (X : Xof 136) (capacity : ℕ) (ops : List PoolOp) (op : PoolOp) :
    run X capacity (ops ++ [op]) = ((run X capacity ops).step X op).1 := by
  rw [run, List.foldl_concat]
  rfl

/-! ## The state agrees with the operations -/

namespace PoolState

variable {s : PoolState}

theorem find?_lending {l : Lending} {name : String} {x : Option Hasher}
    (hl : ∀ name', l.find? name' = if name' = name then x else s.lending.find? name') (w : Holder) :
    find? { s with lending := l } w = if w = .guard name then x else s.find? w := by
  cases w with
  | guard name' =>
    simp only [Holder.guard.injEq]
    exact hl name'
  | copy name' => rfl

theorem find?_copies (s : PoolState) (name : String) (h : Hasher) (w : Holder) :
    find? { s with copies := (name, h) :: s.copies } w = if w = .copy name then some h else s.find? w := by
  cases w with
  | guard name' => rfl
  | copy name' =>
    simp only [Holder.copy.injEq]
    exact Lending.lookup_cons (name, h) s.copies name'

theorem find?_use (s : PoolState) (w w' : Holder) (f : Hasher → Hasher) :
    (s.use w f).find? w' = if w' = w then (s.find? w).map f else s.find? w' := by
  unfold use
  cases hfind : s.find? w with
  | none =>
    split_ifs with heq
    · rw [heq]
      exact hfind
    · rfl
  | some h =>
    cases w with
    | guard name =>
      have hguard : s.lending.find? name = some h := hfind
      have hupdate := fun name' => Lending.find?_update s.lending name name' (f h)
      rw [hguard] at hupdate
      exact find?_lending hupdate w'
    | copy name => exact find?_copies s name (f h) w'

theorem lending_use (s : PoolState) (w : Holder) (f : Hasher → Hasher) :
    (s.use w f).lending = s.lending ∨ ∃ name h, (s.use w f).lending = s.lending.update name h := by
  unfold use
  split
  · exact .inl rfl
  · exact .inr ⟨_, _, rfl⟩
  · exact .inl rfl

/-- **The state agrees with the operations** that led to it from a new pool. -/
structure Tracks (capacity : ℕ) (ops : List PoolOp) (s : PoolState) : Prop where
  absorbed : ∀ w, (s.find? w).map Hasher.absorbed = account ops w
  sound : s.lending.Sound
  capacity_eq : s.lending.pool.capacity = capacity
  idle_eq : s.lending.pool.idle = (moves ops).foldl (Move.apply capacity) 0
  /-- Every guard that was handed out is out or has ended, once. -/
  balance : (moves ops).count .back + s.lending.guards.length = (moves ops).count .out

theorem tracks_withCapacity (capacity : ℕ) : Tracks capacity [] (withCapacity capacity) := by
  refine ⟨fun w => ?_, Lending.sound_withCapacity capacity, rfl, rfl, rfl⟩
  cases w <;> rfl

variable {capacity : ℕ} {ops : List PoolOp}

theorem Tracks.ending_eq (h : Tracks capacity ops s) (name : String) :
    s.lending.ending name = (account ops).ending name := by
  rw [Account.ending, ← h.absorbed, Option.isSome_map]
  rfl

theorem Tracks.absorbed_use (h : Tracks capacity ops s) (w w' : Holder) {f : Hasher → Hasher}
    {g : Bytes → Bytes} (hf : ∀ x, (f x).absorbed = g x.absorbed) :
    ((s.use w f).find? w').map Hasher.absorbed =
      Function.update (account ops) w ((account ops w).map g) w' := by
  rw [find?_use, Function.update_apply, ← h.absorbed w, ← h.absorbed w']
  split_ifs
  · cases s.find? w with
    | none => rfl
    | some x => exact congrArg some (hf x)
  · rfl

theorem Tracks.absorbed_step (h : Tracks capacity ops s) (X : Xof 136) (op : PoolOp) (w' : Holder) :
    ((s.step X op).1.find? w').map Hasher.absorbed = (account ops).after op w' := by
  cases op with
  | checkout name =>
    have hfind := find?_lending (Lending.find?_checkout s.lending name) w'
    rw [Account.after, Function.update_apply, ← h.absorbed, step, hfind]
    split_ifs <;> rfl
  | release name =>
    have hfind := find?_lending (Lending.find?_release s.lending name) w'
    rw [Account.after, Function.update_apply, ← h.absorbed, step, hfind]
    split_ifs <;> rfl
  | absorb w data => exact h.absorbed_use w w' fun x => Hasher.absorbed_absorb x data
  | squeeze w n => exact h.absorbed_use w w' fun _ => rfl
  | reset w => exact h.absorbed_use w w' fun _ => rfl
  | clone w name =>
    rw [Account.after, Function.update_apply, ← h.absorbed w, ← h.absorbed w',
      ← h.absorbed (.copy name), step]
    cases s.find? w with
    | none =>
      split_ifs with heq
      · rw [heq]
        rfl
      · rfl
    | some x =>
      change (find? { s with copies := (name, x) :: s.copies } w').map _ = _
      rw [find?_copies]
      split_ifs <;> rfl

/-- What is to be shown of the state after an operation. -/
theorem Tracks.concat (h : Tracks capacity ops s) {op : PoolOp} {s' : PoolState}
    (habsorbed : ∀ w, (s'.find? w).map Hasher.absorbed = account (ops ++ [op]) w)
    (hsound : s'.lending.Sound) (hcapacity : s'.lending.pool.capacity = s.lending.pool.capacity)
    (hidle : s'.lending.pool.idle =
      ((account ops).moves op).foldl (Move.apply s.lending.pool.capacity) s.lending.pool.idle)
    (hlength : s'.lending.guards.length + ((account ops).moves op).count .back =
      s.lending.guards.length + ((account ops).moves op).count .out) :
    Tracks capacity (ops ++ [op]) s' := by
  refine ⟨habsorbed, hsound, hcapacity.trans h.capacity_eq, ?_, ?_⟩
  · rw [moves_concat, List.foldl_append, ← h.idle_eq, ← h.capacity_eq]
    exact hidle
  · have hbalance := h.balance
    rw [moves_concat, List.count_append, List.count_append]
    omega

theorem Tracks.concat_use (h : Tracks capacity ops s) {op : PoolOp}
    (hmoves : (account ops).moves op = []) {s' : PoolState}
    (habsorbed : ∀ w, (s'.find? w).map Hasher.absorbed = account (ops ++ [op]) w)
    (hlending : s'.lending = s.lending ∨ ∃ name x, s'.lending = s.lending.update name x) :
    Tracks capacity (ops ++ [op]) s' := by
  have hsame : s'.lending.Sound ∧ s'.lending.pool = s.lending.pool ∧
      s'.lending.guards.length = s.lending.guards.length := by
    obtain heq | ⟨name, x, heq⟩ := hlending <;> rw [heq]
    · exact ⟨h.sound, rfl, rfl⟩
    · exact ⟨h.sound.update name x, rfl, List.length_map _⟩
  obtain ⟨hsound, hpool, hlength⟩ := hsame
  refine h.concat habsorbed hsound (congrArg HasherPool.capacity hpool) ?_ ?_ <;> rw [hmoves]
  · exact congrArg HasherPool.idle hpool
  · exact congrArg (· + 0) hlength

/-- **Each operation keeps the agreement.** -/
theorem Tracks.step (h : Tracks capacity ops s) (X : Xof 136) (op : PoolOp) :
    Tracks capacity (ops ++ [op]) (s.step X op).1 := by
  have habsorbed : ∀ w, ((s.step X op).1.find? w).map Hasher.absorbed = account (ops ++ [op]) w := by
    rw [account_concat]
    exact h.absorbed_step X op
  cases op with
  | checkout name =>
    refine h.concat habsorbed (h.sound.checkout name) (Lending.capacity_checkout _ name) ?_ ?_ <;>
      rw [Account.moves, ← h.ending_eq]
    · exact Lending.idle_checkout h.sound name
    · exact Lending.length_guards_checkout h.sound name
  | release name =>
    refine h.concat habsorbed (h.sound.release name) (Lending.capacity_release _ name) ?_ ?_ <;>
      rw [Account.moves, ← h.ending_eq]
    · exact Lending.idle_release h.sound name
    · exact Lending.length_guards_release h.sound name
  | absorb w data => exact h.concat_use rfl habsorbed (lending_use s w _)
  | squeeze w n => exact h.concat_use rfl habsorbed (lending_use s w _)
  | reset w => exact h.concat_use rfl habsorbed (lending_use s w _)
  | clone w name =>
    refine h.concat_use rfl habsorbed (.inl ?_)
    rw [PoolState.step]
    split <;> rfl

/-- **After every run the state agrees with the operations**, by induction on them from the last one
backwards. -/
theorem tracks_run (X : Xof 136) (capacity : ℕ) (ops : List PoolOp) :
    Tracks capacity ops (run X capacity ops) := by
  induction ops using List.reverseRecOn with
  | nil => exact tracks_withCapacity capacity
  | append_singleton ops op ih =>
    rw [run_concat]
    exact ih.step X op

theorem Tracks.squeeze_eq (h : Tracks capacity ops s) (X : Xof 136) (w : Holder) (n : ℕ) :
    (s.step X (.squeeze w n)).2 = (account ops w).map fun data => (X.squeeze data n).bytes := by
  rw [← h.absorbed, Option.map_map]
  rfl

end PoolState

/-! ## The operations on one guard -/

/-- The last time the guard was handed out or ended, it was handed out. -/
def isOut (name : String) (ops : List PoolOp) : Bool :=
  (ops.filter fun op => op == .checkout name || op == .release name).getLast? == some (.checkout name)

/-- The operation hands the guard out, ends it or empties it. -/
def PoolOp.cuts (name : String) : PoolOp → Bool
  | checkout name' => name' == name
  | release name' => name' == name
  | squeeze w _ => w == .guard name
  | reset w => w == .guard name
  | absorb _ _ => false
  | clone _ _ => false

/-- What the operation absorbs into the guard. -/
def PoolOp.fed (name : String) : PoolOp → Bytes
  | absorb w data => if w = .guard name then data else []
  | _ => []

/-- What was absorbed into the guard, in order, since it was handed out or last emptied. -/
def absorbedSince (name : String) (ops : List PoolOp) : Bytes :=
  (ops.rtakeWhile fun op => !op.cuts name).flatMap (PoolOp.fed name)

section Guard

variable (name : String) (ops : List PoolOp) (op : PoolOp)

theorem isOut_concat :
    isOut name (ops ++ [op]) =
      if op = .checkout name then true else if op = .release name then false else isOut name ops := by
  unfold isOut
  rw [List.filter_append]
  split_ifs with hout hback
  · simp [hout]
  · simp [hback]
  · simp [hout, hback]

theorem absorbedSince_concat :
    absorbedSince name (ops ++ [op]) =
      if op.cuts name then [] else absorbedSince name ops ++ op.fed name := by
  unfold absorbedSince
  rw [List.rtakeWhile_concat]
  cases op.cuts name <;> simp

theorem Account.after_guard (a : Account) :
    a.after op (.guard name) =
      if op = .checkout name then some []
      else if op = .release name then none
      else (a (.guard name)).map fun data => if op.cuts name then [] else data ++ op.fed name := by
  cases op with
  | checkout name' | release name' =>
    by_cases hn : name' = name
    · simp [after, hn]
    · simp [after, PoolOp.cuts, PoolOp.fed, hn, Ne.symm hn]
  | absorb w data | squeeze w n | reset w =>
    by_cases hw : w = .guard name
    · simp [after, PoolOp.cuts, PoolOp.fed, hw]
    · simp [after, PoolOp.cuts, PoolOp.fed, hw, Ne.symm hw]
  | clone w name' => simp [after, PoolOp.cuts, PoolOp.fed]

/-- **The account of a guard** is what was absorbed into it since it was handed out or last emptied:
other guards and earlier uses of its hasher do not matter. -/
theorem account_guard :
    account ops (.guard name) = if isOut name ops then some (absorbedSince name ops) else none := by
  induction ops using List.reverseRecOn with
  | nil => rfl
  | append_singleton ops op ih =>
    rw [account_concat, Account.after_guard, isOut_concat, absorbedSince_concat, ih]
    by_cases hout : op = .checkout name
    · simp [hout, PoolOp.cuts]
    by_cases hback : op = .release name
    · simp [hback]
    rw [if_neg hout, if_neg hback, if_neg hout, if_neg hback]
    cases isOut name ops <;> rfl

end Guard

/-- **Guards are isolated and the pool keeps count**, whatever the operations and their order. A guard
that is out reads the output for exactly what was absorbed into it since it was handed out or last
emptied, and a copy reads what its account says. Parked hashers are empty. Their number follows the
moves of hashers one by one and never exceeds the capacity, and every guard that was handed out is out
or has ended, once. -/
theorem pool_isolated (X : Xof 136) (capacity : ℕ) (ops : List PoolOp) :
    (∀ name n, ((PoolState.run X capacity ops).step X (.squeeze (.guard name) n)).2 =
      if isOut name ops then some (X.squeeze (absorbedSince name ops) n).bytes else none) ∧
    (∀ w n, ((PoolState.run X capacity ops).step X (.squeeze w n)).2 =
      (account ops w).map fun data => (X.squeeze data n).bytes) ∧
    (PoolState.run X capacity ops).lending.pool.parked =
      List.replicate (PoolState.run X capacity ops).lending.pool.idle .empty ∧
    (PoolState.run X capacity ops).lending.pool.idle = (moves ops).foldl (Move.apply capacity) 0 ∧
    (PoolState.run X capacity ops).lending.pool.idle ≤ capacity ∧
    (moves ops).count .back + (PoolState.run X capacity ops).lending.guards.length =
      (moves ops).count .out ∧
    ∀ name, PoolState.run X capacity (ops ++ [.release name] ++ [.release name]) =
      PoolState.run X capacity (ops ++ [.release name]) := by
  have htracks := PoolState.tracks_run X capacity ops
  refine ⟨fun name n => ?_, fun w n => htracks.squeeze_eq X w n, ?_, htracks.idle_eq, ?_,
    htracks.balance, fun name => ?_⟩
  · rw [htracks.squeeze_eq, account_guard]
    split <;> rfl
  · exact List.eq_replicate_iff.2 ⟨rfl, htracks.sound.parked_empty⟩
  · exact htracks.sound.idle_le.trans_eq htracks.capacity_eq
  · rw [PoolState.run_concat, PoolState.run_concat, PoolState.step, PoolState.step,
      Lending.release_release]

end LatticeSignature
