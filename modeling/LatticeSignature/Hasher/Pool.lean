import LatticeSignature.Hasher

/-!
# Pools of hashers

A pool parks idle hashers up to its capacity. A guard holds one hasher for the time of its use and
gives it back at the end; a hasher that finds the pool full is discarded. Hashers are emptied when
they are handed out and again when they come back.

* `HasherPool`: the capacity and the parked hashers, with `checkout` and `giveBack`.
* `Lending`: a pool together with its guards that are out, by name.
-/

namespace LatticeSignature

/-- A bounded stock of hashers. -/
structure HasherPool where
  capacity : Nat
  /-- The hashers that wait for use, the last one parked first. -/
  parked : List Hasher
deriving DecidableEq

namespace HasherPool

/-- The capacity of a pool that is asked for without one. -/
def defaultCapacity : Nat := 16

/-- A pool with nothing parked. -/
def withCapacity (capacity : Nat) : HasherPool := ⟨capacity, []⟩

/-- A pool of the default capacity. -/
def new : HasherPool := withCapacity defaultCapacity

/-- The number of parked hashers. -/
def idle (p : HasherPool) : Nat := p.parked.length

/-- Hands out a parked hasher, or a new one if none is parked. -/
def checkout (p : HasherPool) : Hasher × HasherPool :=
  match p.parked with
  | [] => (Hasher.empty, p)
  | h :: rest => (h.reset, { p with parked := rest })

/-- Takes a hasher back, or discards it if the pool is full. -/
def giveBack (p : HasherPool) (h : Hasher) : HasherPool :=
  if p.parked.length < p.capacity then { p with parked := h.reset :: p.parked } else p

end HasherPool

/-- A pool and the guards that are out, each with the hasher it holds. -/
structure Lending where
  pool : HasherPool
  guards : List (String × Hasher)
deriving DecidableEq

namespace Lending

/-- A pool with no guard out. -/
def withCapacity (capacity : Nat) : Lending := ⟨.withCapacity capacity, []⟩

/-- A pool of the default capacity with no guard out. -/
def new : Lending := ⟨.new, []⟩

/-- The hasher of a guard. -/
def find? (l : Lending) (name : String) : Option Hasher := l.guards.lookup name

/-- Ends a guard, whose hasher goes back to the pool. Nothing happens if no such guard is out. -/
def release (l : Lending) (name : String) : Lending :=
  match l.find? name with
  | none => l
  | some h => ⟨l.pool.giveBack h, l.guards.filter (·.1 != name)⟩

/-- Hands out a guard. A guard of that name that is out already ends as the new one takes its
place. -/
def checkout (l : Lending) (name : String) : Lending :=
  let (h, pool) := l.pool.checkout
  let rest := release { l with pool := pool } name
  { rest with guards := (name, h) :: rest.guards }

/-- Replaces the hasher of a guard by what a use of it leaves behind. -/
def update (l : Lending) (name : String) (h : Hasher) : Lending :=
  { l with guards := l.guards.map fun g => if g.1 == name then (name, h) else g }

end Lending

end LatticeSignature
