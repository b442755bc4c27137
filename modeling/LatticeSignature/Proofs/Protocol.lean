import LatticeSignature.Protocol

/-!
# Steps of protocol runs

A run is followed step by step: each step takes a session to its result and the next session. A hash
with an empty hasher depends on its own parts only and leaves the hasher empty, so that sessions on
the way differ in their events only.

* `Protocol.bind_apply`, …: one step after the other.
* **`Protocol.hash_apply`**: a hash in a session with an empty hasher.
* `Protocol.LeavesEmpty`, `Protocol.KeepsEmpty`: what becomes of the hasher.
-/

namespace LatticeSignature

namespace Protocol

variable {α β : Type}

theorem bind_apply (p : Protocol α) (f : α → Protocol β) (s : Session) :
    (p >>= f) s = (p s).bind fun x => f x.1 x.2 := rfl

theorem bind_of_apply {p : Protocol α} {f : α → Protocol β} {s s' : Session} {a : α}
    (h : p s = some (a, s')) : (p >>= f) s = f a s' := by
  rw [bind_apply, h]
  rfl

theorem bind_eq_some_iff {p : Protocol α} {f : α → Protocol β} {s : Session} {r : β × Session} :
    (p >>= f) s = some r ↔ ∃ a s', p s = some (a, s') ∧ f a s' = some r := by
  rw [bind_apply, Option.bind_eq_some_iff]
  constructor
  · rintro ⟨⟨a, s'⟩, h, hr⟩
    exact ⟨a, s', h, hr⟩
  · rintro ⟨a, s', h, hr⟩
    exact ⟨(a, s'), h, hr⟩

@[simp]
theorem pure_apply (a : α) (s : Session) : (pure a : Protocol α) s = some (a, s) := rfl

@[simp]
theorem report_apply (e : Event) (h : Hasher) (events : List Event) :
    report e ⟨h, events⟩ = some ((), ⟨h, events ++ [e]⟩) := rfl

@[simp]
theorem ofOption_some (a : α) (s : Session) : ofOption (some a) s = some (a, s) := rfl

@[simp]
theorem ofOption_none (s : Session) : (ofOption none : Protocol α) s = none := rfl

theorem ofOption_eq_some_iff {o : Option α} {a : α} {s s' : Session} :
    ofOption o s = some (a, s') ↔ o = some a ∧ s' = s := by
  cases o <;> simp [ofOption, eq_comm]

/-- **A hash with an empty hasher** depends on its own parts only. -/
@[simp]
theorem hash_apply (O : Oracle) (parts : List Bytes) (n : Nat) (events : List Event) :
    hash O parts n ⟨.empty, events⟩ =
      some (O.shake256.squeeze parts.flatten n, ⟨.empty, events⟩) := by
  change some (O.shake256.squeeze (Hasher.absorbAll .empty parts).absorbed n, _) = _
  rw [Hasher.absorbed_absorbAll, Hasher.absorbed_empty, List.nil_append]

theorem fresh_eq_some_iff {p : Protocol α} {a : α} {events : List Event} :
    p.fresh = some (a, events) ↔ ∃ h, p ⟨.empty, []⟩ = some (a, ⟨h, events⟩) := by
  unfold fresh start
  rw [Option.map_eq_some_iff]
  constructor
  · rintro ⟨⟨a', h, events'⟩, hp, heq⟩
    obtain ⟨rfl, rfl⟩ := Prod.mk.inj heq
    exact ⟨h, hp⟩
  · rintro ⟨h, hp⟩
    exact ⟨_, hp, rfl⟩

theorem fresh_of_apply {p : Protocol α} {a : α} {h : Hasher} {events : List Event}
    (hp : p ⟨.empty, []⟩ = some (a, ⟨h, events⟩)) : p.fresh = some (a, events) :=
  fresh_eq_some_iff.2 ⟨h, hp⟩

theorem fresh_bind_pure (p : Protocol α) (f : α → β) :
    (p >>= fun a => pure (f a)).fresh = p.fresh.map fun x => (f x.1, x.2) := by
  unfold fresh start
  rw [bind_apply]
  cases p ⟨.empty, []⟩ <;> rfl

/-! ## The hasher after a run -/

/-- A run that leaves an empty hasher, whatever hasher it begins with. -/
def LeavesEmpty (p : Protocol α) : Prop := ∀ s a s', p s = some (a, s') → s'.hasher = .empty

/-- A run that leaves an empty hasher if it begins with one. -/
def KeepsEmpty (p : Protocol α) : Prop :=
  ∀ s a s', s.hasher = .empty → p s = some (a, s') → s'.hasher = .empty

variable {p : Protocol α} {f : α → Protocol β}

theorem LeavesEmpty.keepsEmpty (h : LeavesEmpty p) : KeepsEmpty p := fun s a s' _ => h s a s'

theorem keepsEmpty_pure (a : α) : KeepsEmpty (pure a) := by
  rintro s _ _ hs ⟨⟩
  exact hs

theorem keepsEmpty_report (e : Event) : KeepsEmpty (report e) := by
  rintro s _ _ hs ⟨⟩
  exact hs

theorem keepsEmpty_ofOption (o : Option α) : KeepsEmpty (ofOption o) := by
  intro s a s' hs h
  obtain ⟨-, rfl⟩ := ofOption_eq_some_iff.1 h
  exact hs

theorem KeepsEmpty.bind (hp : KeepsEmpty p) (hf : ∀ a, KeepsEmpty (f a)) : KeepsEmpty (p >>= f) := by
  intro s b s'' hs h
  obtain ⟨a, s', ha, hb⟩ := bind_eq_some_iff.1 h
  exact hf a s' b s'' (hp s a s' hs ha) hb

/-- **A hash reads off all that was absorbed.** -/
theorem leavesEmpty_hash (O : Oracle) (parts : List Bytes) (n : Nat) : LeavesEmpty (hash O parts n) := by
  rintro s _ _ ⟨⟩
  rfl

/-- After a first step that empties the hasher the others need not. -/
theorem LeavesEmpty.bind (hp : LeavesEmpty p) (hf : ∀ a, KeepsEmpty (f a)) : LeavesEmpty (p >>= f) := by
  intro s b s'' h
  obtain ⟨a, s', ha, hb⟩ := bind_eq_some_iff.1 h
  exact hf a s' b s'' (hp s a s' ha) hb

end Protocol

end LatticeSignature
